import Dezyne.TickTarget
/-!
# When `tick-names` keeps what names resolve to

A local or formal that gets a count has a name of its own. The uses, the locals
and what is around them are followed from the statements to the whole program.
-/

namespace Dezyne.Tick

/-! ## Locals with new names -/

/-- The names around a local and around the ticked one, after `n` counts. -/
structure NamesAround (names : Names) (n : Nat) (around around' : List String) : Prop where
  renamed : ∀ z ∈ around', ∃ x ∈ around, Renames x z
  bounded : ∀ z ∈ around', ∃ x k, Plain x ∧ z = tick k x ∧ k ≤ n
  found : ∀ x ∈ around, appendTick names x ∈ around'

/-- A local that gets a count is apart from the others, another one just when it was before. -/
def LocalRenamed (l l' : Local) : Prop := l'.apart ↔ l.counted = true ∨ l.apart

section
variable {names : Names} {n m : Nat} {around around' : List String} {s : Stmt} {ss : List Stmt} {x : String}

theorem NamesAround.mono (h : NamesAround names n around around') (hle : n ≤ m) :
    NamesAround names m around around' where
  renamed := h.renamed
  bounded := by
    intro z hz
    obtain ⟨x, k, hx, hz, hk⟩ := h.bounded z hz
    exact ⟨x, k, hx, hz, hk.trans hle⟩
  found := h.found

theorem NamesAround.congr (h : NamesAround names n around around') {a a' : List String}
    (ha : ∀ x, x ∈ a ↔ x ∈ around) (ha' : ∀ x, x ∈ a' ↔ x ∈ around') : NamesAround names n a a' where
  renamed := by
    intro z hz
    obtain ⟨x, hx, hR⟩ := h.renamed z ((ha' z).1 hz)
    exact ⟨x, (ha x).2 hx, hR⟩
  bounded := fun z hz => h.bounded z ((ha' z).1 hz)
  found := fun x hx => (ha' _).2 (h.found x ((ha x).1 hx))

theorem NamesAround.fresh (h : NamesAround names n around around') (hx : Plain x) :
    tick (n + 1) x ∉ around' := by
  intro hmem
  obtain ⟨y, k, hy, heq, hk⟩ := h.bounded _ hmem
  have hcount := (tick_inj hx hy heq).2
  omega

theorem NamesAround.bump (h : NamesAround names n around around') (hx : Plain x) :
    NamesAround ((x, n + 1) :: names) (n + 1) (x :: around) (tick (n + 1) x :: around') where
  renamed := by
    intro z hz
    rcases List.mem_cons.1 hz with rfl | hz
    · exact ⟨x, List.mem_cons_self, renames_tick hx _⟩
    · obtain ⟨y, hy, hR⟩ := h.renamed z hz
      exact ⟨y, List.mem_cons_of_mem _ hy, hR⟩
  bounded := by
    intro z hz
    rcases List.mem_cons.1 hz with rfl | hz
    · exact ⟨x, n + 1, hx, rfl, Nat.le_refl _⟩
    · obtain ⟨y, k, hy, hz, hk⟩ := h.bounded z hz
      exact ⟨y, k, hy, hz, by omega⟩
  found := by
    intro y hy
    by_cases hyx : y = x
    · obtain rfl := hyx
      rw [appendTick_plain _ hx, count_cons_self]
      exact List.mem_cons_self
    · rw [appendTick_cons_ne hyx]
      rcases List.mem_cons.1 hy with rfl | hy
      · exact absurd rfl hyx
      · exact List.mem_cons_of_mem _ (h.found y hy)

/-- A name without a count of its own is apart just when it was before. -/
theorem NamesAround.mem_iff (h : NamesAround names n around around') (hx : Plain x) :
    appendTick names x ∈ around' ↔ x ∈ around := by
  refine ⟨fun hmem => ?_, h.found x⟩
  obtain ⟨y, hy, hR⟩ := h.renamed _ hmem
  obtain rfl := Renames.unique x y _ (renames_appendTick hx names) hR
  exact hy

theorem NamesAround.local_iff (h : NamesAround names n around around') (hx : Plain x) (b : Bool) :
    LocalRenamed ⟨x, around, false⟩ ⟨appendTick names x, around', b⟩ := by
  unfold LocalRenamed Local.apart
  rw [h.mem_iff hx]
  simp

/-- The locals of a compound, when those of its statements are ticked right. -/
theorem locals_elements
    (ih : ∀ s ∈ ss, ∀ {names n around around'}, NamesAround names n around around' →
      List.Forall₂ LocalRenamed (localsOf around s) (localsOf around' (tickStmt names s n).1))
    (hproper : ∀ s ∈ ss, ProperStmt s) (h : NamesAround names n around around') :
    List.Forall₂ LocalRenamed (localsOf.elements around ss)
      (localsOf.elements around' (tickStmt.elements names ss n).1) := by
  induction ss generalizing names n around around' with
  | nil => exact .nil
  | cons s ss ihss =>
    obtain ⟨ihs, ihrest⟩ := List.forall_mem_cons.1 ih
    obtain ⟨hs, hproperrest⟩ := List.forall_mem_cons.1 hproper
    rw [tickStmt.elements, localsOf.elements, localsOf.elements]
    by_cases hdeclares : s.declares? = []
    · have hdeclares' : (tickStmt names s n).1.declares? = [] := by rw [declares_tickStmt, hdeclares]; rfl
      have hsame : ∀ ls : List Local,
          ls.map (fun l => { l with counted := l.counted || !([] : List String).isEmpty }) = ls := by
        intro ls
        simp
      have htail := ihss ihrest hproperrest (h.mono (le_tickStmt names s n))
      rw [bump_of_declares hdeclares, hdeclares, hdeclares', hsame, hsame]
      exact List.rel_append (ihs h) htail
    · cases s with
      | variableDecl t x e =>
        have htick : appendTick ((x, n + 1) :: names) x = tick (n + 1) x := by
          rw [appendTick_plain _ hs.1, count_cons_self]
        have htail := ihss ihrest hproperrest (h.bump hs.1)
        rw [← htick] at htail
        have hfresh := h.fresh hs.1
        rw [← htick] at hfresh
        refine List.rel_append (.cons ?_ .nil) htail
        exact iff_of_true hfresh (.inl rfl)
      | _ => exact absurd rfl hdeclares

/-- The locals of a ticked statement. -/
theorem locals_tickStmt (h : NamesAround names n around around') (hs : ProperStmt s) :
    List.Forall₂ LocalRenamed (localsOf around s) (localsOf around' (tickStmt names s n).1) := by
  induction s generalizing names n around around' with
  | compound ss ih =>
    have hproper := properStmt_elements.1 hs.2
    exact locals_elements (fun s hmem _ _ _ _ h => ih s hmem h (hproper s hmem)) hproper h
  | declarativeCompound ss ih =>
    have hproper := properStmt_elements.1 hs
    rw [tickStmt, localsOf, localsOf]
    clear hs
    induction ss generalizing names n with
    | nil => exact .nil
    | cons s ss ihss =>
      obtain ⟨hs, hproper⟩ := List.forall_mem_cons.1 hproper
      obtain ⟨ihs, ih⟩ := List.forall_mem_cons.1 ih
      rw [tickStmt.each, localsOf.each, localsOf.each]
      exact List.rel_append (ihs h hs) (ihss ih (h.mono (le_tickStmt names s n)) hproper)
  | guard e s ih => exact ih h hs.2
  | on ts s ih => exact ih h hs.2
  | blocking s ih => exact ih h hs
  | variableDecl t x e => exact .cons (h.local_iff hs.1 false) .nil
  | ifThen e s ih => exact ih h hs.2
  | ifElse e s t ihs iht => exact List.rel_append (ihs h hs.2.1) (iht (h.mono (le_tickStmt names s n)) hs.2.2)
  | defer as s ih => exact ih h hs.2
  | _ => exact .nil

end

/-! ## Functions -/

section
variable {members members' : List String} {names : Names} {n : Nat} {f : Function} {x : String}

theorem Around.recount {scope scope' : Scope} (h : Around members members' names n scope scope')
    {counted : List String} (hcounted : ∀ x, x ∈ counted ↔ x ∈ scope.counted) (extra : List String) :
    Around members members' names n { scope with counted := counted } { scope' with counted := extra } where
  locals := h.locals
  declared := h.declared
  found := h.found
  bounded := h.bounded
  counted := fun x => (h.counted x).trans (hcounted x).symm
  visible := fun x hx => h.visible x ((hcounted x).1 hx)

/-- Without counts every name gets the same tick. -/
theorem around_zero (hnames : ∀ x, names.count x = 0) (hmembers : ∀ x ∈ members, Plain x)
    {fs ds : List (List String)}
    (hfs : ∀ f ∈ fs, ∀ x ∈ f, Plain x) (hds : ∀ f ∈ ds, ∀ x ∈ f, Plain x) (n : Nat) (extra : List String) :
    Around members (members.map (tick 0)) names n ⟨fs, ds, []⟩
      ⟨fs.map (List.map (tick 0)), ds.map (List.map (tick 0)), extra⟩ := by
  have hrenamed : ∀ fs : List (List String), (∀ f ∈ fs, ∀ x ∈ f, Plain x) →
      Scopes.Renamed Renames fs (fs.map (List.map (tick 0))) := by
    intro fs hfs
    rw [Scopes.Renamed, List.forall₂_map_right_iff, List.forall₂_same]
    exact fun f hf => forall₂_renames _ fun x hx => renames_tick (hfs f hf x hx) 0
  have hall : ∀ f ∈ fs ++ [members], ∀ x ∈ f, Plain x := by
    intro f hf
    rcases List.mem_append.1 hf with hf | hf
    · exact hfs f hf
    · exact List.mem_singleton.1 hf ▸ hmembers
  have hframes : fs.map (List.map (tick 0)) ++ [members.map (tick 0)] = (fs ++ [members]).map (List.map (tick 0)) := by
    rw [List.map_append]
    rfl
  refine ⟨?_, hrenamed ds hds, ?_, ?_, ?_, fun x hx => by cases hx⟩
  · rw [hframes]
    exact hrenamed _ hall
  · intro x p hp
    have hentry := Scopes.entry_of_find hp
    obtain ⟨f, hf, hx⟩ := Scopes.mem_of_entry hentry
    obtain ⟨g, hg, hgx⟩ := Option.bind_eq_some_iff.1 hentry
    rw [hframes, appendTick_plain _ (hall f hf x hx), hnames]
    unfold Scopes.entry
    rw [List.getElem?_map, hg, Option.map_some, Option.bind_some, List.getElem?_map, hgx]
    rfl
  · rw [hframes]
    intro f hf z hz
    obtain ⟨g, hg, rfl⟩ := List.mem_map.1 hf
    obtain ⟨x, hx, rfl⟩ := List.mem_map.1 hz
    exact ⟨x, 0, hall g hg x hx, rfl, Nat.zero_le _⟩
  · intro x
    rw [hnames]
    simp

theorem namesAround_zero (hnames : ∀ x, names.count x = 0) {around : List String}
    (haround : ∀ x ∈ around, Plain x) (n : Nat) : NamesAround names n around (around.map (tick 0)) where
  renamed := by
    intro z hz
    obtain ⟨x, hx, rfl⟩ := List.mem_map.1 hz
    exact ⟨x, hx, renames_tick (haround x hx) 0⟩
  bounded := by
    intro z hz
    obtain ⟨x, hx, rfl⟩ := List.mem_map.1 hz
    exact ⟨x, 0, haround x hx, rfl, Nat.zero_le _⟩
  found := by
    intro x hx
    rw [appendTick_plain _ (haround x hx), hnames]
    exact List.mem_map_of_mem hx

/-- The formals of a function are counted one by one. -/
theorem around_tickFormals {fs : List (ScopeName × String)} {before before' : List String}
    {declared declared' : List (List String)}
    {counted extra : List String} (h : Around members members' names n ⟨[before], declared, counted⟩ ⟨[before'], declared', extra⟩)
    (hplain : ∀ x ∈ fs.map Prod.snd, Plain x) (hdistinct : (before ++ fs.map Prod.snd).Nodup)
    (hvisible : ∀ x ∈ fs.map Prod.snd, ∃ f ∈ declared, x ∈ f) :
    Around members members' (tickFormals names fs n).2.1 (tickFormals names fs n).2.2
      ⟨[before ++ fs.map Prod.snd], declared, fs.map Prod.snd ++ counted⟩
      ⟨[before' ++ (tickFormals names fs n).1.map Prod.snd], declared', extra⟩ := by
  induction fs generalizing names n before before' counted with
  | nil =>
    simp only [tickFormals, List.map_nil, List.append_nil, List.nil_append]
    exact h
  | cons f fs ih =>
    obtain ⟨t, x⟩ := f
    obtain ⟨hx, hplain⟩ := List.forall_mem_cons.1 hplain
    obtain ⟨hxvisible, hvisible⟩ := List.forall_mem_cons.1 hvisible
    have hnew : x ∉ before := by
      intro hmem
      exact (List.nodup_append.1 hdistinct).2.2 x hmem x List.mem_cons_self rfl
    have hdistinct' : (before ++ [x] ++ fs.map Prod.snd).Nodup := by rwa [List.append_assoc]
    have htick : appendTick ((x, n + 1) :: names) x = tick (n + 1) x := by
      rw [appendTick_plain _ hx, count_cons_self]
    have hrest := ih (h.bump hx hnew hxvisible extra) hplain hdistinct' hvisible
    rw [List.append_assoc, List.append_assoc, ← htick] at hrest
    refine hrest.recount (fun y => ?_) extra
    simp only [List.map_cons, List.mem_append, List.mem_cons]
    tauto

theorem names_tickFormals (names : Names) (fs : List (ScopeName × String)) (n : Nat)
    (hplain : ∀ x ∈ fs.map Prod.snd, Plain x) :
    List.Forall₂ Renames (fs.map Prod.snd) ((tickFormals names fs n).1.map Prod.snd) := by
  induction fs generalizing names n with
  | nil => exact .nil
  | cons f fs ih =>
    obtain ⟨hx, hplain⟩ := List.forall_mem_cons.1 hplain
    exact .cons (renames_appendTick hx _) (ih _ _ hplain)

theorem locals_tickFormals {fs : List (ScopeName × String)} {around around' : List String}
    (h : NamesAround names n around around') (hplain : ∀ x ∈ fs.map Prod.snd, Plain x) (b : Bool) :
    List.Forall₂ LocalRenamed (formalLocals true around (fs.map Prod.snd))
      (formalLocals b around' ((tickFormals names fs n).1.map Prod.snd)) ∧
    NamesAround (tickFormals names fs n).2.1 (tickFormals names fs n).2.2 (fs.map Prod.snd ++ around)
      ((tickFormals names fs n).1.map Prod.snd ++ around') := by
  induction fs generalizing names n around around' with
  | nil => exact ⟨.nil, h⟩
  | cons f fs ih =>
    obtain ⟨t, x⟩ := f
    obtain ⟨hx, hplain⟩ := List.forall_mem_cons.1 hplain
    have htick : appendTick ((x, n + 1) :: names) x = tick (n + 1) x := by
      rw [appendTick_plain _ hx, count_cons_self]
    obtain ⟨hlocals, haround⟩ := ih (h.bump hx) hplain
    have hfresh := h.fresh hx
    rw [← htick] at hlocals haround hfresh
    refine ⟨.cons (iff_of_true hfresh (.inl rfl)) hlocals, haround.congr (fun y => ?_) fun y => ?_⟩
    · simp only [List.map_cons, List.mem_append, List.mem_cons]
      tauto
    · simp only [tickFormals, List.map_cons, List.mem_append, List.mem_cons]
      tauto

theorem locals_formals (hnames : ∀ x, names.count x = 0) {xs around : List String} (hxs : ∀ x ∈ xs, Plain x)
    (haround : ∀ x ∈ around, Plain x) (b : Bool) :
    List.Forall₂ LocalRenamed (formalLocals false around xs)
      (formalLocals b (around.map (tick 0)) (xs.map (tick 0))) := by
  induction xs generalizing around with
  | nil => exact .nil
  | cons x xs ih =>
    obtain ⟨hx, hxs⟩ := List.forall_mem_cons.1 hxs
    have hlocal := (namesAround_zero hnames haround 0).local_iff hx b
    rw [appendTick_plain _ hx, hnames] at hlocal
    exact .cons hlocal (ih hxs (List.forall_mem_cons.2 ⟨hx, haround⟩))

/-- The scope of a `<function>`, with its formals. -/
theorem around_function (hnames : ∀ x, names.count x = 0) (hmembers : ∀ x ∈ members, Plain x)
    (hf : ProperFunction f) (n : Nat) (extra : List String) :
    let formals := f.formals.map Prod.snd
    let r := tickFormals names f.formals n
    Around members (members.map (tick 0)) r.2.1 r.2.2 ⟨[formals], [formals], formals⟩
      ⟨[r.1.map Prod.snd], [r.1.map Prod.snd], extra⟩ := by
  intro formals r
  have hzero : Around members (members.map (tick 0)) names n ⟨[], [], []⟩ ⟨[], [], extra⟩ :=
    around_zero hnames hmembers (by simp) (by simp) n extra
  have hscope := (hzero.declare (names_tickFormals names f.formals n hf.formals)).enter
  have haround := around_tickFormals hscope hf.formals hf.distinct fun x hx => ⟨_, List.mem_cons_self, hx⟩
  refine haround.recount (fun x => ?_) extra
  simp [formals]

/-- The scope of an `<expression-function>`, with its formals. -/
theorem around_expressionFunction (hnames : ∀ x, names.count x = 0) (hmembers : ∀ x ∈ members, Plain x)
    (hf : ProperFunction f) (n : Nat) (extra : List String) :
    let formals := f.formals.map Prod.snd
    Around members (members.map (tick 0)) names n ⟨[formals], [formals], []⟩
      ⟨[formals.map (tick 0)], [formals.map (tick 0)], extra⟩ := by
  intro formals
  have hplain : ∀ f ∈ [formals], ∀ x ∈ f, Plain x := by
    intro g hg
    exact List.mem_singleton.1 hg ▸ hf.formals
  exact around_zero hnames hmembers hplain hplain n extra

theorem formals_expressionFunction (hnames : ∀ x, names.count x = 0) (hf : ProperFunction f) :
    (f.formals.map fun x => (tickIds x.1, appendTick names x.2)).map Prod.snd = (f.formals.map Prod.snd).map (tick 0) := by
  rw [List.map_map, List.map_map]
  refine List.map_congr_left fun x hx => ?_
  simp only [Function.comp_apply]
  rw [appendTick_plain _ (hf.formals _ (List.mem_map_of_mem hx)), hnames]

/-- The uses in a ticked function. -/
theorem sites_tickFunction (hnames : ∀ x, names.count x = 0) (hmembers : ∀ x ∈ members, Plain x)
    (hf : ProperFunction f)
    (n : Nat) : List.Forall₂ (SiteRenamed members (members.map (tick 0))) (functionSites f)
      (functionSites (tickFunction names f n).1) := by
  cases hexpression : f.expression with
  | none =>
    have haround := around_function hnames hmembers hf n ((tickFormals names f.formals n).1.map Prod.snd)
    simp only [functionSites, tickFunction, hexpression]
    exact sites_tickStmt haround hf.statement
  | some e =>
    have haround := around_expressionFunction hnames hmembers hf n []
    simp only [functionSites, tickFunction, hexpression, formals_expressionFunction hnames hf]
    exact List.rel_append (sites_tickStmt haround hf.statement) (sites_expression haround (hf.expression e hexpression))

/-- The locals in a ticked function. -/
theorem locals_tickFunction (hnames : ∀ x, names.count x = 0) (hmembers : ∀ x ∈ members, Plain x)
    (hf : ProperFunction f) (n : Nat) : List.Forall₂ LocalRenamed (functionLocals members f)
      (functionLocals (members.map (tick 0)) (tickFunction names f n).1) := by
  cases hexpression : f.expression with
  | none =>
    obtain ⟨hlocals, haround⟩ := locals_tickFormals (namesAround_zero hnames hmembers n) hf.formals true
    simp only [functionLocals, tickFunction, hexpression, Option.isNone_none]
    exact List.rel_append hlocals (locals_tickStmt haround hf.statement)
  | some e =>
    have hall : ∀ x ∈ f.formals.map Prod.snd ++ members, Plain x := by
      intro x hx
      rcases List.mem_append.1 hx with hx | hx
      · exact hf.formals x hx
      · exact hmembers x hx
    have haround := namesAround_zero hnames hall n
    rw [List.map_append] at haround
    simp only [functionLocals, tickFunction, hexpression, Option.isNone_some, formals_expressionFunction hnames hf]
    exact List.rel_append (locals_formals hnames hf.formals hmembers false) (locals_tickStmt haround hf.statement)

theorem functionRenamed_tickFunction (hnames : ∀ x, names.count x = 0) (hf : ProperFunction f) (n : Nat) :
    FunctionRenamed f (tickFunction names f n).1 := by
  refine ⟨hf.name, ?_⟩
  cases hexpression : f.expression with
  | none =>
    have hnone : ∀ x ∈ ([] : List String), Plain x := by simp
    have haround := around_function hnames hnone hf n []
    have hcounted := haround.counted f.name
    refine ⟨(tickFormals names f.formals n).2.1.count f.name, ?_, ?_⟩
    · simp only [tickFunction, hexpression]
      exact appendTick_plain _ hf.name
    · rw [← not_iff_not, not_not, ← hcounted, Nat.pos_iff_ne_zero]
  | some e => simp only [tickFunction, hexpression]

/-- The functions of a behavior, ticked one after the other. -/
theorem forall₂_tickFunctions {P : Function → Function → Prop} {fs : List Function}
    (h : ∀ f ∈ fs, ∀ n, P f (tickFunction names f n).1) (n : Nat) : List.Forall₂ P fs (tickFunctions names fs n).1 := by
  induction fs generalizing n with
  | nil => exact .nil
  | cons f fs ih =>
    obtain ⟨hf, h⟩ := List.forall_mem_cons.1 h
    exact .cons (hf n) (ih h _)

end

/-! ## Programs -/

theorem forall₂_flatMap {α β γ δ : Type} {P : α → β → Prop} {R : γ → δ → Prop} {f : α → List γ}
    {g : β → List δ}
    (hfg : ∀ a b, P a b → List.Forall₂ R (f a) (g b)) {l : List α} {l' : List β} (h : List.Forall₂ P l l') :
    List.Forall₂ R (l.flatMap f) (l'.flatMap g) := by
  induction h with
  | nil => exact .nil
  | cons hab _ ih => exact List.rel_append (hfg _ _ hab) ih

/-- The elements of a root, ticked one after the other. -/
theorem forall₂_tickTops {P : Top → Top → Prop} {r : Root} (h : ∀ t ∈ r, ∀ n, P t (tickTop t n).1) (n : Nat) :
    List.Forall₂ P r (tickTops r n) := by
  induction r generalizing n with
  | nil => exact .nil
  | cons t r ih =>
    obtain ⟨ht, h⟩ := List.forall_mem_cons.1 h
    exact .cons (ht n) (ih h _)

theorem map_appendTick {l : List String} (h : ∀ x ∈ l, Plain x) : l.map (appendTick []) = l.map (tick 0) :=
  List.map_congr_left fun x hx => appendTick_nil (h x hx)

theorem globals_tickTops {r : Root} (h : ∀ t ∈ r, ProperTop t) (n : Nat) :
    List.Forall₂ GlobalRenamed (globals r) (globals (tickTops r n)) := by
  induction r generalizing n with
  | nil => exact .nil
  | cons t r ih =>
    obtain ⟨ht, hr⟩ := List.forall_mem_cons.1 h
    cases t with
    | model m => exact ih hr _
    | function scope f =>
      refine .cons ⟨ht.1, map_appendTick ht.1, ?_⟩ (ih hr _)
      exact functionRenamed_tickFunction (fun _ => rfl) ht.2 n

theorem members_tickModel {m : Model} (hm : ProperModel m) (n : Nat) :
    (tickModel m n).1.behavior.members.map Variable.name = (m.behavior.members.map Variable.name).map (tick 0) := by
  simp only [tickModel, tickBehavior, List.map_map]
  refine List.map_congr_left fun v hv => ?_
  simp only [Function.comp_apply, tickMember]
  rw [appendTick_plain _ (hm.members v hv).1, count_memberNames]

/-- What is around the ticked element of a root. -/
theorem env_tickTop {t : Top} (ht : ProperTop t) {gs gs' : List (ScopeName × Function)}
    (hgs : List.Forall₂ GlobalRenamed gs gs') (n : Nat) : EnvRenamed (t.env gs) ((tickTop t n).1.env gs') := by
  cases t with
  | function scope f =>
    exact {
      plain := by simp [Top.env]
      members := rfl
      types := .nil
      functions := .nil
      declared := .nil
      ports := rfl
      portsDeclared := by simp [Top.env]
      shared := by simp [Top.env]
      plainScope := ht.1
      scope := map_appendTick ht.1
      globals := hgs }
  | model m =>
    have hm : ProperModel m := ht
    have hports : ∀ p ∈ m.ports, Plain p.name := by
      intro p hp
      refine hm.declared _ ?_
      simp only [List.mem_append]
      exact .inl (.inl (List.mem_map_of_mem hp))
    have hnames : (m.ports.map tickPort).map SharedPort.name = (m.ports.map SharedPort.name).map (tick 0) := by
      rw [List.map_map, List.map_map]
      exact List.map_congr_left fun p hp => appendTick_nil (hports p hp)
    exact {
      plain := by
        intro x hx
        obtain ⟨v, hv, rfl⟩ := List.mem_map.1 hx
        exact (hm.members v hv).1
      members := members_tickModel hm n
      types := forall₂_renames _ fun x hx => renames_appendTick (hm.types x hx) []
      functions := forall₂_tickFunctions
        (fun f hf n => functionRenamed_tickFunction (count_memberNames _) (hm.functions f hf) n) n
      declared := by
        have hdeclared := hm.declared
        simp only [List.mem_append, or_imp, forall_and] at hdeclared
        obtain ⟨⟨hp, ht⟩, he⟩ := hdeclared
        have hticked : ((tickTop (.model m) n).1.env gs').declared =
            (m.ports.map SharedPort.name).map (tick 0) ++ m.types.map (appendTick []) ++ m.events := by
          rw [← hnames]
          rfl
        rw [hticked]
        refine List.rel_append (List.rel_append ?_ ?_) ?_
        · exact forall₂_renames _ fun x hx => renames_tick (hp x hx) 0
        · exact forall₂_renames _ fun x hx => renames_appendTick (ht x hx) []
        · rw [List.forall₂_same]
          exact fun x hx => ⟨he x hx, .inl rfl⟩
      ports := rfl
      portsDeclared := by
        intro i p hi
        have hi : m.ports[i]? = some p := hi
        obtain ⟨hlt, -⟩ := List.getElem?_eq_some_iff.1 hi
        constructor
        · have hold : ((Top.model m).env gs).declared = m.ports.map SharedPort.name ++ (m.types ++ m.events) :=
            List.append_assoc _ _ _
          rw [hold, List.getElem?_append_left (by simpa using hlt), List.getElem?_map, hi]
          rfl
        · have hnew : ((tickTop (.model m) n).1.env gs').declared =
              (m.ports.map SharedPort.name).map (tick 0) ++ (m.types.map (appendTick []) ++ m.events) := by
            rw [← hnames, ← List.append_assoc]
            rfl
          rw [hnew, List.getElem?_append_left (by simpa using hlt), List.getElem?_map, List.getElem?_map, hi]
          rfl
      shared := fun p hp => ⟨hports p hp, hm.shared p hp⟩
      plainScope := hm.scope
      scope := map_appendTick hm.scope
      globals := hgs }

/-- The uses in the ticked element of a root. -/
theorem sites_tickTop {t : Top} (ht : ProperTop t) (gs gs' : List (ScopeName × Function)) (n : Nat) :
    List.Forall₂ (SiteRenamed (t.env gs).members ((tickTop t n).1.env gs').members) t.sites (tickTop t n).1.sites := by
  cases t with
  | function scope f =>
    have hnone : ∀ x ∈ ([] : List String), Plain x := by simp
    exact sites_tickFunction (fun _ => rfl) hnone ht.2 n
  | model m =>
    have hm : ProperModel m := ht
    have hmembers : ∀ x ∈ m.behavior.members.map Variable.name, Plain x := by
      intro x hx
      obtain ⟨v, hv, rfl⟩ := List.mem_map.1 hx
      exact (hm.members v hv).1
    have hzero : ∀ n, Around (m.behavior.members.map Variable.name) ((m.behavior.members.map Variable.name).map (tick 0))
        (memberNames m.behavior.members) n ⟨[], [], []⟩ ⟨[], [], []⟩ :=
      fun n => around_zero (count_memberNames _) hmembers (by simp) (by simp) n []
    have hticked : ((tickTop (.model m) n).1.env gs').members = (m.behavior.members.map Variable.name).map (tick 0) :=
      members_tickModel hm n
    rw [hticked]
    refine List.rel_append (List.rel_append ?_ ?_) ?_
    · refine forall₂_flatMap (P := fun v v' => v ∈ m.behavior.members ∧ v' = tickMember (memberNames m.behavior.members) v)
        ?_ ?_
      · rintro v _ ⟨hv, rfl⟩
        exact sites_expression (hzero n) (hm.members v hv).2
      · simp only [tickModel, tickBehavior]
        rw [List.forall₂_map_right_iff, List.forall₂_same]
        exact fun v hv => ⟨hv, rfl⟩
    · exact forall₂_flatMap (fun _ _ h => h) (forall₂_tickFunctions
        (fun f hf n => sites_tickFunction (count_memberNames _) hmembers (hm.functions f hf) n) n)
    · exact sites_tickStmt (hzero _) hm.statement

/-- The locals in the ticked element of a root. -/
theorem locals_tickTop {t : Top} (ht : ProperTop t) (n : Nat) :
    List.Forall₂ LocalRenamed t.locals (tickTop t n).1.locals := by
  cases t with
  | function scope f =>
    have hnone : ∀ x ∈ ([] : List String), Plain x := by simp
    exact locals_tickFunction (fun _ => rfl) hnone ht.2 n
  | model m =>
    have hm : ProperModel m := ht
    have hmembers : ∀ x ∈ m.behavior.members.map Variable.name, Plain x := by
      intro x hx
      obtain ⟨v, hv, rfl⟩ := List.mem_map.1 hx
      exact (hm.members v hv).1
    have hticked : (tickModel m n).1.behavior.members.map Variable.name =
      (m.behavior.members.map Variable.name).map (tick 0) := members_tickModel hm n
    simp only [Top.locals, tickTop, hticked]
    refine List.rel_append ?_ ?_
    · exact forall₂_flatMap (fun _ _ h => h) (forall₂_tickFunctions
        (fun f hf n => locals_tickFunction (count_memberNames _) hmembers (hm.functions f hf) n) n)
    · exact locals_tickStmt (namesAround_zero (count_memberNames _) hmembers _) hm.statement

theorem map_eq_iff {α β γ : Type} {f : α → γ} {g : β → γ} {K : α → Prop} {l : List α} {l' : List β}
    (h : List.Forall₂ (fun a b => g b = f a ↔ K a) l l') : l'.map g = l.map f ↔ ∀ a ∈ l, K a := by
  induction h with
  | nil => simp
  | cons hab _ ih => rw [List.map_cons, List.map_cons, List.cons.injEq, hab, ih, List.forall_mem_cons]

theorem forall_iff_of_forall₂ {α β : Type} {P : β → Prop} {K : α → Prop} {l : List α} {l' : List β}
    (h : List.Forall₂ (fun a b => P b ↔ K a) l l') : (∀ b ∈ l', P b) ↔ ∀ a ∈ l, K a := by
  induction h with
  | nil => simp
  | cons hab _ ih => rw [List.forall_mem_cons, List.forall_mem_cons, hab, ih]

/-- The uses in a program, with what is around them. -/
def located (r : Root) : List (Env × Site) := r.flatMap fun t => t.sites.map fun s => (t.env (globals r), s)

theorem targets_eq (r : Root) : targets r = (located r).map fun l => l.1.target l.2.scope l.2.use := by
  unfold targets located
  rw [List.map_flatMap]
  simp only [List.map_map]
  rfl

/-- Every name resolves as before and no local has a name that is in scope, just when the program is one that is kept. -/
theorem tickNames_iff (r : Root) (h : WellFormed r) :
    (targets (tickNames r) = targets r ∧ ∀ t ∈ tickNames r, ∀ l ∈ t.locals, l.apart) ↔ Kept r := by
  have hglobals := globals_tickTops h.proper 0
  have hsites : List.Forall₂ (fun a b => b.1.target b.2.scope b.2.use = a.1.target a.2.scope a.2.use ↔ a.1.Kept a.2)
      (located r) (located (tickNames r)) := by
    refine forall₂_flatMap (P := fun t t' => t ∈ r ∧ ∃ n, t' = (tickTop t n).1) ?_
      (forall₂_tickTops (fun t ht n => ⟨ht, n, rfl⟩) 0)
    rintro t _ ⟨ht, n, rfl⟩
    have henv := env_tickTop (h.proper t ht) hglobals n
    have hresolves := h.resolves t ht
    rw [List.forall₂_map_left_iff, List.forall₂_map_right_iff]
    have hforall := sites_tickTop (h.proper t ht) (globals r) (globals (tickNames r)) n
    generalize t.sites = l at hforall hresolves
    generalize (tickTop t n).1.sites = l' at hforall
    induction hforall with
    | nil => exact .nil
    | cons hsite _ ih =>
      obtain ⟨hs, hresolves⟩ := List.forall_mem_cons.1 hresolves
      exact .cons (target_iff henv hsite hs) (ih hresolves)
  have hlocals : List.Forall₂ LocalRenamed (r.flatMap Top.locals) ((tickNames r).flatMap Top.locals) :=
    forall₂_flatMap (fun _ _ h => h) (forall₂_tickTops (fun t ht n => locals_tickTop (h.proper t ht) n) 0)
  rw [targets_eq, targets_eq, map_eq_iff hsites]
  rw [← List.forall_mem_flatMap, forall_iff_of_forall₂ hlocals, List.forall_mem_flatMap]
  constructor
  · rintro ⟨hkept, hapart⟩
    refine ⟨fun t ht s hs => ?_, fun t ht l hl hcounted => ?_⟩
    · exact hkept (t.env (globals r), s) (List.mem_flatMap.2 ⟨t, ht, List.mem_map_of_mem hs⟩)
    · exact (hapart t ht l hl).resolve_left (by simp [hcounted])
  · rintro ⟨hkept, hapart⟩
    refine ⟨fun a ha => ?_, fun t ht l hl => ?_⟩
    · obtain ⟨t, ht, ha⟩ := List.mem_flatMap.1 ha
      obtain ⟨s, hs, rfl⟩ := List.mem_map.1 ha
      exact hkept t ht s hs
    · cases hcounted : l.counted with
      | true => exact .inl rfl
      | false => exact .inr (hapart t ht l hl hcounted)

/-- `component hello {provides ihello p; behavior {bool x = false; on p.hello (): s}}`, where the behavior of `ihello` has a
variable `b` -/
def hello (s : Stmt) : Top :=
  .model {
    scope := []
    name := "hello"
    types := []
    events := []
    ports := [⟨"p", [⟨["bool"], "b", .false⟩]⟩]
    behaviorTypes := []
    behavior := ⟨[⟨["bool"], "x", .false⟩], [], .compound [.on [⟨some "p", "hello", []⟩] s], none⟩ }

theorem hello_wellFormed {s : Stmt} (hs : ProperStmt s)
    (hresolves : ∀ site ∈ (hello s).sites, (match site.use with
      | .call _ => none
      | u => ((hello s).env []).target site.scope u).isSome = true) : WellFormed [hello s] where
  proper := by
    intro t ht
    obtain rfl := List.mem_singleton.1 ht
    have hplain : ∀ x ∈ ["p", "b", "x"], Plain x := by
      unfold Plain tickChar
      decide
    exact {
      scope := by simp
      declared := fun x hx => hplain x (by simp at hx; simp [hx])
      shared := by
        intro p hp v hv
        obtain rfl := List.mem_singleton.1 hp
        obtain rfl := List.mem_singleton.1 hv
        exact hplain "b" (by simp)
      types := by simp
      members := by
        intro v hv
        obtain rfl := List.mem_singleton.1 hv
        exact ⟨hplain "x" (by simp), trivial⟩
      functions := by simp
      statement := ⟨by simp [Stmt.declares?], ⟨by simp, hs⟩, trivial⟩ }
  resolves := by
    intro t ht site hsite
    obtain rfl := List.mem_singleton.1 ht
    have htarget := hresolves site hsite
    obtain ⟨scope, initializes, use⟩ := site
    cases use with
    | call ids => cases htarget
    | _ =>
      obtain ⟨target, htarget⟩ := Option.isSome_iff_exists.1 htarget
      exact ⟨target, htarget, fun ids hids => by cases hids⟩

/-- `{bool x = p.b; {bool y = x; x = !y;}}` -/
def shadowing : Stmt :=
  .compound [.variableDecl ["bool"] "x" (.sharedVar "p" "b"),
    .compound [.variableDecl ["bool"] "y" (.var "x"), .assign "x" (.not (.var "y"))]]

/-- A local `x` besides the member, whose own expression does not have it. -/
theorem tickNames_shadowing : WellFormed [hello shadowing] ∧ Kept [hello shadowing] ∧
    targets (tickNames [hello shadowing]) = targets [hello shadowing] ∧
    ∀ t ∈ tickNames [hello shadowing], ∀ l ∈ t.locals, l.apart := by
  have hplain : ∀ x ∈ ["x", "y"], Plain x := by
    unfold Plain tickChar
    decide
  have hwf : WellFormed [hello shadowing] := by
    refine hello_wellFormed ?_ (by decide)
    have hx := hplain "x" (by simp)
    have hy := hplain "y" (by simp)
    exact ⟨by simp [Stmt.declares?], ⟨hx, trivial⟩, ⟨by simp [Stmt.declares?], ⟨hy, trivial⟩, trivial, trivial⟩, trivial⟩
  have hkept : Kept [hello shadowing] := by
    refine ⟨fun t ht s hs => ?_, fun t ht l hl => ?_⟩
    · obtain rfl := List.mem_singleton.1 ht
      simp [hello, shadowing, Top.sites, behaviorSites, sites, sites.elements, variablesOf, uses, inside, Scope.site, Expr.false,
        Stmt.declares?] at hs
      rcases hs with rfl | rfl | rfl | rfl <;> simp [Env.Kept, Top.env, hello]
    · obtain rfl := List.mem_singleton.1 ht
      simp [hello, shadowing, Top.locals, localsOf, localsOf.elements, Stmt.declares?] at hl
      rcases hl with rfl | rfl <;> simp
  exact ⟨hwf, hkept, (tickNames_iff _ hwf).2 hkept⟩

/-- `{bool x = !x;}` -/
def ownName : Stmt := .compound [.variableDecl ["bool"] "x" (.not (.var "x"))]

/-- The member `x` becomes `x'`, and the local `x'1'` has itself in its expression. -/
theorem tickNames_ownName : ¬ ∀ r : Root, WellFormed r →
    targets (tickNames r) = targets r ∧ ∀ t ∈ tickNames r, ∀ l ∈ t.locals, l.apart := by
  intro h
  have hx : Plain "x" := by
    unfold Plain tickChar
    decide
  have hwf : WellFormed [hello ownName] := by
    refine hello_wellFormed ?_ (by decide)
    exact ⟨by simp [Stmt.declares?], ⟨hx, trivial⟩, trivial⟩
  have htargets := (h _ hwf).1
  have hold : targets [hello ownName] = [some (.var (3, 0))] := by decide
  have hnew : targets (tickNames [hello ownName]) = [none] := by decide
  rw [hold, hnew] at htargets
  cases htargets

end Dezyne.Tick
