import Dezyne.Tick
/-!
# Ticked names resolve as before

Every name in a scope gets a new name, and no two names get the same. So a use
resolves to the same place as before when it has the new name of what is at
that place. This is so as long as the counts around a use are those of the
scopes that the name is looked up in.
-/

namespace Dezyne.Tick

/-! ## New names -/

section
variable {x y z : String} {k m n : Nat} {names : Names}

theorem toList_tick (k : Nat) (x : String) :
    (tick k x).toList = x.toList ++ tickChar :: (if k = 0 then [] else numberString k ++ [tickChar]) := by
  have hnumber : (toString k).toList = numberString k := Nat.toList_repr
  have htick : "'".toList = [tickChar] := rfl
  unfold tick
  rw [String.toList_append, String.toList_append, htick, List.append_assoc]
  split
  · rfl
  · rw [String.toList_append, hnumber, htick]
    rfl

theorem tick_mem (k : Nat) (x : String) : tickChar ∈ (tick k x).toList := by
  rw [toList_tick]
  simp

/-- A name with a count determines the name and the count. -/
theorem tick_inj (hx : Plain x) (hy : Plain y) (h : tick k x = tick m y) : x = y ∧ k = m := by
  have hlist := congrArg String.toList h
  rw [toList_tick, toList_tick] at hlist
  have hno : ∀ n : Nat, tickChar ∉ numberString n := fun n => not_mem_numberString (by decide)
  have hsplit : x.toList = y.toList ∧ (if k = 0 then [] else numberString k ++ [tickChar]) =
      (if m = 0 then [] else numberString m ++ [tickChar]) := by
    have hname := congrArg (List.takeWhile (· ≠ tickChar)) hlist
    rw [takeWhile_ne_append hx.1, takeWhile_ne_append hy.1] at hname
    rw [hname] at hlist
    exact ⟨hname, (List.cons.inj (List.append_cancel_left hlist)).2⟩
  refine ⟨String.toList_inj.1 hsplit.1, ?_⟩
  have hcount := hsplit.2
  split at hcount
  · split at hcount
    · omega
    · simp at hcount
  · split at hcount
    · simp at hcount
    · have hnumber := (List.append_left_inj [tickChar]).1 hcount
      have hread := congrArg stringNumber hnumber
      rw [stringNumber_numberString, stringNumber_numberString] at hread
      exact Option.some.inj hread

theorem appendTick_plain (names : Names) (hx : Plain x) : appendTick names x = tick (names.count x) x := by
  have hne : ¬ (x = "*" ∨ x = "/") := by
    rintro (rfl | rfl)
    · exact hx.2 (by simp)
    · exact hx.2 (by simp)
  exact if_neg hne

theorem appendTick_nil (hx : Plain x) : appendTick [] x = tick 0 x := appendTick_plain [] hx

theorem tickIds_eq {ids : ScopeName} (h : ∀ x ∈ ids, x ∉ ["<int>", "void", "bool"]) :
    tickIds ids = ids.map (appendTick []) := by
  refine if_neg ?_
  rintro (rfl | rfl | rfl)
  · exact h "<int>" (by simp) (by simp)
  · exact h "void" (by simp) (by simp)
  · exact h "bool" (by simp) (by simp)

/-- A new name of a name; an event keeps its name, and so does an expression. -/
def Renames (x z : String) : Prop := Plain x ∧ (z = x ∨ ∃ k, z = tick k x)

theorem Renames.unique : ∀ x y z, Renames x z → Renames y z → x = y := by
  rintro x y z ⟨hx, rfl | ⟨k, rfl⟩⟩ ⟨hy, hz | ⟨m, hz⟩⟩
  · exact hz
  · exact absurd (hz ▸ tick_mem m y) hx.1
  · exact absurd (hz ▸ tick_mem k x) hy.1
  · exact (tick_inj hx hy hz).1

theorem renames_tick (hx : Plain x) (k : Nat) : Renames x (tick k x) := ⟨hx, .inr ⟨k, rfl⟩⟩

theorem renames_appendTick (hx : Plain x) (names : Names) : Renames x (appendTick names x) :=
  ⟨hx, .inr ⟨_, appendTick_plain names hx⟩⟩

theorem forall₂_renames {l : List String} (f : String → String) (h : ∀ x ∈ l, Renames x (f x)) :
    List.Forall₂ Renames l (l.map f) := by
  rw [List.forall₂_map_right_iff, List.forall₂_same]
  exact h

@[simp] theorem count_cons_self (x : String) (k : Nat) (names : Names) :
    Names.count ((x, k) :: names) x = k := by
  simp [Names.count]

theorem count_cons_ne (h : y ≠ x) (k : Nat) (names : Names) :
    Names.count ((x, k) :: names) y = names.count y := by
  have hbeq : (y == x) = false := by simpa using h
  rw [Names.count, List.lookup_cons, hbeq]
  rfl

theorem appendTick_cons_ne (h : y ≠ x) (k : Nat) (names : Names) :
    appendTick ((x, k) :: names) y = appendTick names y := by
  unfold appendTick
  rw [count_cons_ne h]

theorem count_memberNames (members : List Variable) (x : String) : (memberNames members).count x = 0 := by
  unfold memberNames Names.count
  induction members with
  | nil => rfl
  | cons v members ih =>
    rw [List.map_cons, List.lookup_cons]
    split
    · rfl
    · exact ih

end

/-! ## Statements with new names -/

/-- The use with its new names. -/
def tickUse (names : Names) : Use → Use
  | .var x => .var (appendTick names x)
  | .shared p x => .shared (appendTick names p) (appendTick names x)
  | .call f => .call (tickIds f)

theorem arguments_eq (names : Names) (as : List Expr) :
    tickExpr.arguments names as = as.map (tickExpr names) := by
  induction as with
  | nil => rfl
  | cons a as ih => rw [tickExpr.arguments, ih, List.map_cons]

theorem uses_arguments (as : List Expr) : uses.arguments as = as.flatMap uses := by
  induction as with
  | nil => rfl
  | cons a as ih => rw [uses.arguments, ih, List.flatMap_cons]

theorem proper_arguments {as : List Expr} : Proper.arguments as ↔ ∀ a ∈ as, Proper a := by
  induction as with
  | nil => simp [Proper.arguments]
  | cons a as ih => rw [Proper.arguments, ih, List.forall_mem_cons]

theorem flatMap_uses {names : Names} {as : List Expr}
    (ih : ∀ a ∈ as, uses (tickExpr names a) = (uses a).map (tickUse names)) :
    (as.map (tickExpr names)).flatMap uses = (as.flatMap uses).map (tickUse names) := by
  rw [List.flatMap_map, List.map_flatMap]
  exact List.flatMap_congr ih

theorem uses_tickExpr (names : Names) {e : Expr} (h : Proper e) :
    uses (tickExpr names e) = (uses e).map (tickUse names) := by
  induction e with
  | group e ih => exact ih h
  | not e ih => exact ih h
  | otherwiseValue e ih => exact ih h
  | binary op l r ihl ihr => rw [tickExpr, uses, uses, ihl h.1, ihr h.2, List.map_append]
  | action p ev as =>
    obtain rfl : as = [] := h
    rfl
  | call f as ih =>
    have has := proper_arguments.1 h
    rw [tickExpr, uses, uses, uses_arguments, uses_arguments, arguments_eq, flatMap_uses fun a ha => ih a ha (has a ha)]
    rfl
  | _ => rfl

theorem properStmt_elements {ss : List Stmt} : ProperStmt.elements ss ↔ ∀ s ∈ ss, ProperStmt s := by
  induction ss with
  | nil => simp [ProperStmt.elements]
  | cons s ss ih => rw [ProperStmt.elements, ih, List.forall_mem_cons]

theorem sites_each (scope : Scope) (ss : List Stmt) : sites.each scope ss = ss.flatMap (sites scope) := by
  induction ss with
  | nil => rfl
  | cons s ss ih => rw [sites.each, ih, List.flatMap_cons]

section
variable {s : Stmt} {ss : List Stmt} {x : String}

theorem plain_of_declares (h : ProperStmt s) (hx : x ∈ s.declares?) : Plain x := by
  cases s with
  | variableDecl t y e =>
    obtain rfl := List.mem_singleton.1 hx
    exact h.1
  | _ => cases hx

theorem declares_tickStmt (names : Names) (s : Stmt) (n : Nat) :
    (tickStmt names s n).1.declares? = s.declares?.map (appendTick names) := by
  cases s <;> rfl

/-- The variables of a compound get new names. -/
theorem declares_elements (h : ∀ s ∈ ss, ProperStmt s) (names : Names) (n : Nat) :
    List.Forall₂ Renames (ss.flatMap Stmt.declares?) ((tickStmt.elements names ss n).1.flatMap Stmt.declares?) := by
  induction ss generalizing names n with
  | nil => exact .nil
  | cons s ss ih =>
    obtain ⟨hs, h⟩ := List.forall_mem_cons.1 h
    rw [tickStmt.elements, List.flatMap_cons, List.flatMap_cons, declares_tickStmt]
    exact List.rel_append (forall₂_renames _ fun x hx => renames_appendTick (plain_of_declares hs hx) _) (ih h _ _)

theorem variablesOf_tickStmt (h : ProperStmt s) (names : Names) (n : Nat) :
    List.Forall₂ Renames (variablesOf s) (variablesOf (tickStmt names s n).1) := by
  cases s with
  | compound ss => exact declares_elements (properStmt_elements.1 h.2) names n
  | variableDecl t x e => exact .cons (renames_appendTick h.1 names) .nil
  | _ => exact .nil

theorem variableNames_tickStmt (h : ProperStmt s) (names : Names) (n : Nat) :
    List.Forall₂ Renames s.variableNames (tickStmt names s n).1.variableNames := by
  induction s generalizing names n with
  | compound ss ih =>
    have hss := properStmt_elements.1 h.2
    rw [tickStmt, Stmt.variableNames, Stmt.variableNames]
    clear h
    induction ss generalizing names n with
    | nil => exact .nil
    | cons s ss ihss =>
      obtain ⟨hs, hss⟩ := List.forall_mem_cons.1 hss
      obtain ⟨ihs, ih⟩ := List.forall_mem_cons.1 ih
      rw [tickStmt.elements, Stmt.variableNames.elements, Stmt.variableNames.elements]
      exact List.rel_append (ihs hs _ _) (ihss ih _ _ hss)
  | declarativeCompound ss ih =>
    have hss := properStmt_elements.1 h
    rw [tickStmt, Stmt.variableNames, Stmt.variableNames]
    clear h
    induction ss generalizing names n with
    | nil => exact .nil
    | cons s ss ihss =>
      obtain ⟨hs, hss⟩ := List.forall_mem_cons.1 hss
      obtain ⟨ihs, ih⟩ := List.forall_mem_cons.1 ih
      rw [tickStmt.each, Stmt.variableNames.elements, Stmt.variableNames.elements]
      exact List.rel_append (ihs hs _ _) (ihss ih _ _ hss)
  | guard e s ih => exact ih h.2 names n
  | on ts s ih => exact ih h.2 names n
  | blocking s ih => exact ih h names n
  | ifThen e s ih => exact ih h.2 names n
  | defer as s ih => exact ih h.2 names n
  | ifElse e s t ihs iht => exact List.rel_append (ihs h.2.1 names n) (iht h.2.2 names _)
  | variableDecl t x e => exact .cons (renames_appendTick h.1 names) .nil
  | _ => exact .nil

/-- The count never goes back. -/
theorem le_tickStmt (names : Names) (s : Stmt) (n : Nat) : n ≤ (tickStmt names s n).2 := by
  induction s generalizing names n with
  | compound ss ih =>
    rw [tickStmt]
    induction ss generalizing names n with
    | nil => exact Nat.le_refl n
    | cons s ss ihss =>
      obtain ⟨ihs, ih⟩ := List.forall_mem_cons.1 ih
      have hbump : n ≤ (bump s names n).2 := by
        unfold bump
        split <;> omega
      have hs := ihs (bump s names n).1 (bump s names n).2
      rw [tickStmt.elements]
      exact (hbump.trans hs).trans (ihss ih _ _)
  | declarativeCompound ss ih =>
    rw [tickStmt]
    induction ss generalizing names n with
    | nil => exact Nat.le_refl n
    | cons s ss ihss =>
      obtain ⟨ihs, ih⟩ := List.forall_mem_cons.1 ih
      rw [tickStmt.each]
      exact (ihs names n).trans (ihss ih _ _)
  | guard e s ih => exact ih names n
  | on ts s ih => exact ih names n
  | blocking s ih => exact ih names n
  | ifThen e s ih => exact ih names n
  | defer as s ih => exact ih names n
  | ifElse e s t ihs iht => exact (ihs names n).trans (iht names _)
  | _ => exact Nat.le_refl n

end

/-! ## Scopes with new names -/

/-- The scopes around a statement and around the ticked one, after `n` counts. -/
structure Around (members members' : List String) (names : Names) (n : Nat) (scope scope' : Scope) : Prop where
  locals : Scopes.Renamed Renames (scope.locals ++ [members]) (scope'.locals ++ [members'])
  declared : Scopes.Renamed Renames scope.declared scope'.declared
  /-- What is found has the new name that its uses get. -/
  found : ∀ x p, Scopes.find (scope.locals ++ [members]) x = some p →
    Scopes.entry (scope'.locals ++ [members']) p = some (appendTick names x)
  bounded : ∀ f ∈ scope'.locals ++ [members'], ∀ z ∈ f, ∃ x k, Plain x ∧ z = tick k x ∧ k ≤ n
  counted : ∀ x, 0 < names.count x ↔ x ∈ scope.counted
  visible : ∀ x ∈ scope.counted, ∃ f ∈ scope.declared, x ∈ f

section
variable {members members' : List String} {names : Names} {n m : Nat} {scope scope' : Scope} {s : Stmt} {ss : List Stmt}
  {x : String}

theorem Around.mono (h : Around members members' names n scope scope') (hle : n ≤ m) :
    Around members members' names m scope scope' where
  locals := h.locals
  declared := h.declared
  found := h.found
  bounded := by
    intro f hf z hz
    obtain ⟨x, k, hx, hz, hk⟩ := h.bounded f hf z hz
    exact ⟨x, k, hx, hz, hk.trans hle⟩
  counted := h.counted
  visible := h.visible

theorem Around.declare (h : Around members members' names n scope scope') {f f' : List String}
    (hf : List.Forall₂ Renames f f') : Around members members' names n
      { scope with declared := f :: scope.declared } { scope' with declared := f' :: scope'.declared } where
  locals := h.locals
  declared := .cons hf h.declared
  found := h.found
  bounded := h.bounded
  counted := h.counted
  visible := by
    intro x hx
    obtain ⟨g, hg, hxg⟩ := h.visible x hx
    exact ⟨g, List.mem_cons_of_mem _ hg, hxg⟩

/-- A frame is opened. -/
theorem Around.enter (h : Around members members' names n scope scope') : Around members members' names n
      { scope with locals := [] :: scope.locals } { scope' with locals := [] :: scope'.locals } where
  locals := .cons .nil h.locals
  declared := h.declared
  found := by
    intro x p hp
    have hcons : Scopes.find ([] :: (scope.locals ++ [members])) x =
        (Scopes.find (scope.locals ++ [members]) x).map fun p => (p.1 + 1, p.2) :=
      Scopes.find_cons_of_not_mem List.not_mem_nil
    rw [List.cons_append, hcons] at hp
    obtain ⟨q, hq, rfl⟩ := Option.map_eq_some_iff.1 hp
    exact h.found x q hq
  bounded := by
    intro f hf z hz
    rcases List.mem_cons.1 hf with rfl | hf
    · cases hz
    · exact h.bounded f hf z hz
  counted := h.counted
  visible := h.visible

/-- The next count is new. -/
theorem Around.fresh (h : Around members members' names n scope scope') (hx : Plain x) :
    ∀ f ∈ scope'.locals ++ [members'], tick (n + 1) x ∉ f := by
  intro f hf hmem
  obtain ⟨y, k, hy, heq, hk⟩ := h.bounded f hf _ hmem
  have hcount := (tick_inj hx hy heq).2
  omega

/-- A variable is added to the innermost frame, with the next count. -/
theorem Around.bump {before before' : List String} {locals locals' declared declared' : List (List String)}
    {counted counted' : List String}
    (h : Around members members' names n ⟨before :: locals, declared, counted⟩ ⟨before' :: locals', declared', counted'⟩)
    (hx : Plain x) (hnew : x ∉ before) (hvisible : ∃ f ∈ declared, x ∈ f) (extra : List String) :
    Around members members' ((x, n + 1) :: names) (n + 1) ⟨(before ++ [x]) :: locals, declared, x :: counted⟩
      ⟨(before' ++ [tick (n + 1) x]) :: locals', declared', extra⟩ where
  locals := by
    cases h.locals with
    | cons hframe hrest =>
      exact .cons (List.rel_append hframe (.cons (renames_tick hx _) .nil)) hrest
  declared := h.declared
  found := by
    intro y p hp
    rw [List.cons_append] at hp ⊢
    by_cases hy : y = x
    · obtain rfl := hy
      rw [Scopes.find_snoc hnew] at hp
      obtain rfl := Option.some.inj hp
      have hlength : before.length = before'.length := by
        cases h.locals with
        | cons hframe _ => exact hframe.length_eq
      rw [appendTick_plain _ hx, count_cons_self]
      simp [Scopes.entry, hlength]
    · rw [Scopes.find_snoc_ne hy] at hp
      rw [appendTick_cons_ne hy]
      exact Scopes.entry_snoc (h.found y p hp)
  bounded := by
    intro f hf z hz
    rcases List.mem_cons.1 hf with rfl | hf
    · rcases List.mem_append.1 hz with hz | hz
      · obtain ⟨y, k, hy, hz, hk⟩ := h.bounded before' List.mem_cons_self z hz
        exact ⟨y, k, hy, hz, by omega⟩
      · obtain rfl := List.mem_singleton.1 hz
        exact ⟨x, n + 1, hx, rfl, Nat.le_refl _⟩
    · obtain ⟨y, k, hy, hz, hk⟩ := h.bounded f (List.mem_cons_of_mem _ hf) z hz
      exact ⟨y, k, hy, hz, by omega⟩
  counted := by
    intro y
    by_cases hy : y = x
    · obtain rfl := hy
      simp
    · have hcount := h.counted y
      rw [count_cons_ne hy, hcount]
      simp [hy]
  visible := by
    intro y hy
    rcases List.mem_cons.1 hy with rfl | hy
    · exact hvisible
    · exact h.visible y hy

/-! ## Uses with new names -/

/-- A use and the ticked one; in the expression of a variable of a compound that variable is counted already. -/
def SiteRenamed (members members' : List String) (s s' : Site) : Prop :=
  ∃ names n, Around members members' names n s.scope s'.scope ∧ match s.initializes with
    | none => s'.use = tickUse names s.use
    | some x => Plain x ∧ (∃ f ∈ s.scope.declared, x ∈ f) ∧ s'.use = tickUse ((x, n + 1) :: names) s.use

theorem sites_renamed (h : Around members members' names n scope scope') (us : List Use) :
    List.Forall₂ (SiteRenamed members members') (us.map scope.site) ((us.map (tickUse names)).map scope'.site) := by
  rw [List.forall₂_map_left_iff, List.forall₂_map_right_iff, List.forall₂_map_right_iff, List.forall₂_same]
  exact fun u _ => ⟨names, n, h, rfl⟩

theorem sites_expression (h : Around members members' names n scope scope') {e : Expr} (he : Proper e) :
    List.Forall₂ (SiteRenamed members members') ((uses e).map scope.site)
      ((uses (tickExpr names e)).map scope'.site) := by
  rw [uses_tickExpr names he]
  exact sites_renamed h (uses e)

theorem sites_expressions (h : Around members members' names n scope scope') {es : List Expr}
    (hes : ∀ e ∈ es, Proper e) :
    List.Forall₂ (SiteRenamed members members') ((es.flatMap uses).map scope.site)
      (((es.map (tickExpr names)).flatMap uses).map scope'.site) := by
  rw [flatMap_uses fun e he => uses_tickExpr names (hes e he)]
  exact sites_renamed h _

theorem bump_of_declares (h : s.declares? = []) (names : Names) (n : Nat) :
    Tick.bump s names n = (names, n) := by
  cases s with
  | variableDecl => cases h
  | _ => rfl

theorem inside_of_declares (h : s.declares? = []) : inside s = id := by
  funext site
  cases s with
  | variableDecl => cases h
  | _ => rfl

/-- The uses in a compound, when those in its statements are ticked right. -/
theorem sites_elements
    (ih : ∀ s ∈ ss, ∀ {names n scope scope'}, Around members members' names n scope scope' →
      List.Forall₂ (SiteRenamed members members') (sites scope s) (sites scope' (tickStmt names s n).1))
    (hproper : ∀ s ∈ ss, ProperStmt s) {before before' : List String}
    (h : Around members members' names n { scope with locals := before :: scope.locals }
      { scope' with locals := before' :: scope'.locals })
    (hdistinct : (before ++ ss.flatMap Stmt.declares?).Nodup)
    (hvisible : ∀ x ∈ ss.flatMap Stmt.declares?, ∃ f ∈ scope.declared, x ∈ f) :
    List.Forall₂ (SiteRenamed members members') (sites.elements scope before ss)
      (sites.elements scope' before' (tickStmt.elements names ss n).1) := by
  induction ss generalizing names n scope scope' before before' with
  | nil => exact .nil
  | cons s ss ihss =>
    obtain ⟨ihs, ihrest⟩ := List.forall_mem_cons.1 ih
    obtain ⟨hs, hproperrest⟩ := List.forall_mem_cons.1 hproper
    rw [tickStmt.elements, sites.elements, sites.elements]
    by_cases hdeclares : s.declares? = []
    · have hdeclares' : (tickStmt names s n).1.declares? = [] := by rw [declares_tickStmt, hdeclares]; rfl
      have hrest : Around members members' names (tickStmt names s n).2
          { scope with locals := before :: scope.locals } { scope' with locals := before' :: scope'.locals } :=
        h.mono (le_tickStmt names s n)
      rw [List.flatMap_cons, hdeclares, List.nil_append] at hdistinct hvisible
      have htail := ihss ihrest hproperrest hrest hdistinct hvisible
      rw [bump_of_declares hdeclares, hdeclares, hdeclares', inside_of_declares hdeclares, inside_of_declares hdeclares',
        List.map_id, List.map_id, List.append_nil, List.append_nil]
      exact List.rel_append (ihs h) htail
    · cases s with
      | variableDecl t x e =>
        rw [List.flatMap_cons] at hdistinct hvisible
        have hdeclared : (Stmt.variableDecl t x e).declares? = [x] := rfl
        rw [hdeclared] at hdistinct hvisible
        have hnew : x ∉ before := by
          intro hmem
          exact (List.nodup_append.1 hdistinct).2.2 x hmem x (by simp) rfl
        have hx : ∃ f ∈ scope.declared, x ∈ f := hvisible x (by simp)
        have hbump := h.bump hs.1 hnew hx (tick (n + 1) x :: scope'.counted)
        have htick : appendTick ((x, n + 1) :: names) x = tick (n + 1) x := by
          rw [appendTick_plain _ hs.1, count_cons_self]
        refine List.rel_append ?_ ?_
        · have huses := uses_tickExpr ((x, n + 1) :: names) hs.2
          have hsites : ∀ scope : Scope, ∀ t x e, (sites scope (.variableDecl t x e)).map (inside (.variableDecl t x e)) =
              (uses e).map fun u => ⟨scope, some x, u⟩ := by
            intro scope t x e
            rw [sites, List.map_map]
            rfl
          have hticked : (tickStmt (Tick.bump (.variableDecl t x e) names n).1 (.variableDecl t x e)
              (Tick.bump (.variableDecl t x e) names n).2).1 = .variableDecl (tickIds t)
                (appendTick ((x, n + 1) :: names) x) (tickExpr ((x, n + 1) :: names) e) := rfl
          rw [hticked, hsites, hsites, huses, List.forall₂_map_left_iff, List.forall₂_map_right_iff,
            List.forall₂_map_right_iff, List.forall₂_same]
          exact fun u _ => ⟨names, n, h, hs.1, hx, rfl⟩
        · have hdistinct' : (before ++ [x] ++ ss.flatMap Stmt.declares?).Nodup := by rwa [List.append_assoc]
          have htail := @ihss _ _ { scope with counted := x :: scope.counted }
            { scope' with counted := tick (n + 1) x :: scope'.counted } ihrest hproperrest _ _ hbump hdistinct'
            fun y hy => hvisible y (List.mem_append_right _ hy)
          rw [← htick] at htail
          exact htail
      | _ => exact absurd rfl hdeclares

/-- The uses in a ticked statement are the ticked uses. -/
theorem sites_tickStmt (h : Around members members' names n scope scope') (hs : ProperStmt s) :
    List.Forall₂ (SiteRenamed members members') (sites scope s) (sites scope' (tickStmt names s n).1) := by
  induction s generalizing names n scope scope' with
  | compound ss ih =>
    have hproper := properStmt_elements.1 hs.2
    have hvariables := variablesOf_tickStmt (s := .compound ss) hs names n
    refine sites_elements (fun s hmem _ _ _ _ h => ih s hmem h (hproper s hmem)) hproper (h.declare hvariables).enter ?_ ?_
    · exact hs.1
    · exact fun x hx => ⟨_, List.mem_cons_self, hx⟩
  | declarativeCompound ss ih =>
    have hproper := properStmt_elements.1 hs
    rw [tickStmt, sites, sites, sites_each, sites_each]
    clear hs
    induction ss generalizing names n with
    | nil => exact .nil
    | cons s ss ihss =>
      obtain ⟨hs, hproper⟩ := List.forall_mem_cons.1 hproper
      obtain ⟨ihs, ih⟩ := List.forall_mem_cons.1 ih
      rw [tickStmt.each, List.flatMap_cons, List.flatMap_cons]
      exact List.rel_append (ihs h hs) (ihss ih (h.mono (le_tickStmt names s n)) hproper)
  | guard e s ih => exact List.rel_append (sites_expression h hs.1) (ih h hs.2)
  | on ts s ih =>
    -- the triggers have no formals, before and after, so the scope is that of the behavior
    have hformals : ∀ ts : List Trigger, (∀ t ∈ ts, t.formals = []) → ts.flatMap Trigger.names = [] := by
      intro ts hts
      rw [List.flatMap_eq_nil_iff]
      intro t ht
      rw [Trigger.names, hts t ht]
      rfl
    have hticked : ∀ t ∈ ts.map fun t : Trigger => { t with port := t.port.map (appendTick []) }, t.formals = [] := by
      intro t' ht'
      obtain ⟨t, ht, rfl⟩ := List.mem_map.1 ht'
      exact hs.1 t ht
    rw [tickStmt, sites, sites, hformals ts hs.1, hformals _ hticked]
    exact ih h.enter hs.2
  | blocking s ih => exact ih h hs
  | invariant e => exact sites_expression h hs
  | variableDecl t x e => exact sites_expression h hs.2
  | assign x e => exact .cons ⟨names, n, h, rfl⟩ (sites_expression h hs)
  | action p ev as =>
    obtain rfl : as = [] := hs
    exact .nil
  | call f as => exact .cons ⟨names, n, h, rfl⟩ (sites_expressions h hs)
  | ifThen e s ih =>
    have hdeclare := h.declare (variablesOf_tickStmt hs.2 names n)
    exact List.rel_append (sites_expression hdeclare hs.1) (ih hdeclare hs.2)
  | ifElse e s t ihs iht =>
    have hdeclare := h.declare (List.rel_append (variablesOf_tickStmt hs.2.1 names n)
      (variablesOf_tickStmt hs.2.2 names (tickStmt names s n).2))
    exact List.rel_append (List.rel_append (sites_expression hdeclare hs.1) (ihs hdeclare hs.2.1))
      (iht (hdeclare.mono (le_tickStmt names s n)) hs.2.2)
  | reply p e => exact sites_expression h hs
  | returnStmt e => exact sites_expression h hs
  | defer as s ih =>
    have hdeclare := h.declare (variableNames_tickStmt hs.2 names n)
    refine List.rel_append ?_ (ih hdeclare hs.2)
    have harguments : (as.map (List.map (tickExpr names))).getD [] = (as.getD []).map (tickExpr names) := by
      cases as <;> rfl
    rw [harguments]
    exact sites_expressions hdeclare hs.1
  | _ => exact .nil

end

/-! ## What is around -/

/-- A function and the ticked one: its name gets no count, just when no formal has that name. -/
def FunctionRenamed (f f' : Function) : Prop :=
  Plain f.name ∧ match f.expression with
    | none => ∃ k, f'.name = tick k f.name ∧ (k = 0 ↔ f.name ∉ f.formals.map Prod.snd)
    | some _ => f'.name = f.name

def GlobalRenamed (g g' : ScopeName × Function) : Prop :=
  (∀ x ∈ g.1, Plain x) ∧ g'.1 = g.1.map (tick 0) ∧ FunctionRenamed g.2 g'.2

/-- What is around a behavior and around the ticked one. -/
structure EnvRenamed (env env' : Env) : Prop where
  plain : ∀ x ∈ env.members, Plain x
  members : env'.members = env.members.map (tick 0)
  types : List.Forall₂ Renames env.types env'.types
  functions : List.Forall₂ FunctionRenamed env.functions env'.functions
  declared : List.Forall₂ Renames env.declared env'.declared
  ports : env'.ports = env.ports.map tickPort
  portsDeclared : ∀ (i : Nat) (p : SharedPort), env.ports[i]? = some p →
    env.declared[i]? = some p.name ∧ env'.declared[i]? = some (tick 0 p.name)
  shared : ∀ p ∈ env.ports, Plain p.name ∧ ∀ v ∈ p.members, Plain v.name
  plainScope : ∀ x ∈ env.scope, Plain x
  scope : env'.scope = env.scope.map (tick 0)
  globals : List.Forall₂ GlobalRenamed env.globals env'.globals

section
variable {env env' : Env} {scope scope' : Scope} {names : Names} {f f' : Function} {x p : String} {i : Nat}

theorem FunctionRenamed.renames (h : FunctionRenamed f f') : Renames f.name f'.name := by
  obtain ⟨hplain, h⟩ := h
  split at h
  · obtain ⟨k, hname, -⟩ := h
    exact ⟨hplain, .inr ⟨k, hname⟩⟩
  · exact ⟨hplain, .inl h⟩

/-- The new name of a function that is no expression is the one that its calls get, just when no formal has its name. -/
theorem FunctionRenamed.tick_iff (h : FunctionRenamed f f') (hf : f.expression = none) :
    f'.name = tick 0 f.name ↔ f.name ∉ f.formals.map Prod.snd := by
  obtain ⟨hplain, h⟩ := h
  rw [hf] at h
  obtain ⟨k, hname, hk⟩ := h
  rw [hname, ← hk]
  constructor
  · intro heq
    exact (tick_inj hplain hplain heq).2
  · rintro rfl
    rfl

theorem EnvRenamed.declarations (h : EnvRenamed env env') :
    Scopes.Renamed Renames env.declarations env'.declarations := by
  have hfunctions : List.Forall₂ Renames (env.functions.map Function.name) (env'.functions.map Function.name) := by
    rw [List.forall₂_map_left_iff, List.forall₂_map_right_iff]
    exact h.functions.imp fun _ _ h => h.renames
  have hmembers : List.Forall₂ Renames env.members env'.members := by
    rw [h.members]
    exact forall₂_renames _ fun x hx => renames_tick (h.plain x hx) 0
  exact .cons (List.rel_append (List.rel_append h.types hfunctions) hmembers) (.cons h.declared .nil)

/-! ## Functions outside of models -/

/-- A full name and the new one. -/
def FullRenames (c z : ScopeName) : Prop := List.Forall₂ Renames c z

theorem FullRenames.unique : ∀ c d z, FullRenames c z → FullRenames d z → c = d := by
  intro c d z hc hd
  induction hc generalizing d with
  | nil =>
    cases hd
    rfl
  | @cons x z c zs hx hc ih =>
    cases hd with
    | @cons y _ d _ hy hd => rw [Renames.unique x y z hx hy, ih d hd]

theorem fullRenames_tick {c : ScopeName} (h : ∀ x ∈ c, Plain x) : FullRenames c (c.map (tick 0)) :=
  forall₂_renames _ fun x hx => renames_tick (h x hx) 0

theorem GlobalRenamed.fullRenames {g g' : ScopeName × Function} (h : GlobalRenamed g g') :
    FullRenames (g.1 ++ [g.2.name]) (g'.1 ++ [g'.2.name]) := by
  obtain ⟨hplain, hscope, hfunction⟩ := h
  rw [hscope]
  exact List.rel_append (fullRenames_tick hplain) (.cons hfunction.renames .nil)

/-- The first full name that there is stays the first, just when it gets the name that is looked for. -/
theorem findSome_renamed {G G' : List ScopeName} (hG : List.Forall₂ FullRenames G G') {l : List ScopeName}
    (hl : ∀ c ∈ l, ∀ x ∈ c, Plain x) (h : (l.findSome? fun c => G.idxOf? c) = some i) :
    ((l.map (List.map (tick 0))).findSome? fun c => G'.idxOf? c) = some i ↔
      ∃ c, G[i]? = some c ∧ G'[i]? = some (c.map (tick 0)) := by
  constructor
  · intro h'
    obtain ⟨c, -, hc⟩ := List.exists_of_findSome?_eq_some h
    obtain ⟨z, hz, hz'⟩ := List.exists_of_findSome?_eq_some h'
    obtain ⟨d, hd, rfl⟩ := List.mem_map.1 hz
    have hcG := Scopes.getElem?_of_idxOf? hc
    have hzG := Scopes.getElem?_of_idxOf? hz'
    have hrenames : FullRenames c (d.map (tick 0)) := by
      obtain ⟨hi, hci⟩ := List.getElem?_eq_some_iff.1 hcG
      obtain ⟨hi', hzi⟩ := List.getElem?_eq_some_iff.1 hzG
      have hget := List.Forall₂.get hG hi hi'
      simp only [List.get_eq_getElem, hci, hzi] at hget
      exact hget
    obtain rfl := FullRenames.unique c d _ hrenames (fullRenames_tick (hl d hd))
    exact ⟨c, hcG, hzG⟩
  · rintro ⟨c, hcG, hzG⟩
    induction l with
    | nil => cases h
    | cons d l ih =>
      obtain ⟨hd, hl⟩ := List.forall_mem_cons.1 hl
      rw [List.findSome?_cons] at h
      rw [List.map_cons, List.findSome?_cons]
      cases hi : G.idxOf? d with
      | some j =>
        rw [hi] at h
        obtain rfl := Option.some.inj h
        have hdc : some d = some c := (Scopes.getElem?_of_idxOf? hi).symm.trans hcG
        obtain rfl := Option.some.inj hdc
        rw [(Scopes.idxOf?_renamed FullRenames.unique hG (fullRenames_tick hd) hi).2 hzG]
      | none =>
        rw [hi] at h
        have hnone : G'.idxOf? (d.map (tick 0)) = none := by
          rw [List.idxOf?_eq_none_iff]
          intro hmem
          obtain ⟨y, hy, hyz⟩ := Scopes.exists_of_mem_right hG hmem
          obtain rfl := FullRenames.unique y d _ hyz (fullRenames_tick hd)
          exact List.idxOf?_eq_none_iff.1 hi hy
        rw [hnone]
        exact ih hl h

theorem plain_of_mem_globals (h : EnvRenamed env env') {c : ScopeName}
    (hc : c ∈ env.globals.map fun g => g.1 ++ [g.2.name]) : ∀ x ∈ c, Plain x := by
  obtain ⟨g, hg, rfl⟩ := List.mem_map.1 hc
  obtain ⟨g', -, hplain, -, hname, -⟩ := Scopes.exists_of_mem_left h.globals hg
  intro x hx
  rcases List.mem_append.1 hx with hx | hx
  · exact hplain x hx
  · exact List.mem_singleton.1 hx ▸ hname

theorem fullRenames_globals (h : EnvRenamed env env') : List.Forall₂ FullRenames
    (env.globals.map fun g => g.1 ++ [g.2.name]) (env'.globals.map fun g => g.1 ++ [g.2.name]) := by
  rw [List.forall₂_map_left_iff, List.forall₂_map_right_iff]
  exact h.globals.imp fun _ _ h => h.fullRenames

theorem tickIds_plain {ids : ScopeName} (h : ∀ x ∈ ids, Plain x) : tickIds ids = ids.map (tick 0) := by
  rw [tickIds_eq fun x hx hmem => (h x hx).2 (by simp at hmem ⊢; tauto)]
  exact List.map_congr_left fun x hx => appendTick_nil (h x hx)

theorem tickIds_global {ids : ScopeName} (h : ∀ x ∈ ids, Plain x) : tickIds ("/" :: ids) = "/" :: ids.map (tick 0) := by
  have hids : ∀ x ∈ "/" :: ids, x ∉ ["<int>", "void", "bool"] := by
    intro x hx hmem
    rcases List.mem_cons.1 hx with rfl | hx
    · simp at hmem
    · exact (h x hx).2 (by simp at hmem ⊢; tauto)
  rw [tickIds_eq hids, List.map_cons]
  exact congrArg _ (List.map_congr_left fun x hx => appendTick_nil (h x hx))

theorem fullNames_of_ne {ids : ScopeName} (h : ∀ rest, ids ≠ "/" :: rest) :
    env.fullNames ids = env.scope.inits.reverse.map (· ++ ids) := by
  unfold Env.fullNames
  split
  · exact absurd rfl (h _)
  · rfl

/-- The full names that the new name stands for are the new full names. -/
theorem fullNames_tick (h : EnvRenamed env env') {ids : ScopeName}
    (hglobal : ∃ c ∈ env.fullNames ids, ∀ x ∈ c, Plain x) :
    env'.fullNames (tickIds ids) = (env.fullNames ids).map (List.map (tick 0)) ∧
      ∀ c ∈ env.fullNames ids, ∀ x ∈ c, Plain x := by
  obtain ⟨c, hc, hplain⟩ := hglobal
  by_cases hroot : ∃ rest, ids = "/" :: rest
  · obtain ⟨rest, rfl⟩ := hroot
    obtain rfl := List.mem_singleton.1 hc
    refine ⟨?_, fun d hd => ?_⟩
    · rw [tickIds_global hplain]
      rfl
    · obtain rfl := List.mem_singleton.1 hd
      exact hplain
  · have hne : ∀ rest, ids ≠ "/" :: rest := fun rest heq => hroot ⟨rest, heq⟩
    rw [fullNames_of_ne hne] at hc
    obtain ⟨pre, -, rfl⟩ := List.mem_map.1 hc
    have hids : ∀ x ∈ ids, Plain x := fun x hx => hplain x (List.mem_append_right _ hx)
    have hne' : ∀ rest, ids.map (tick 0) ≠ "/" :: rest := by
      intro rest heq
      cases ids with
      | nil => cases heq
      | cons x ids =>
        have hhead : tick 0 x = "/" := (List.cons.inj heq).1
        have hmem := tick_mem 0 x
        rw [hhead] at hmem
        revert hmem
        decide
    refine ⟨?_, fun d hd => ?_⟩
    · rw [tickIds_plain hids, fullNames_of_ne hne', fullNames_of_ne hne, h.scope, List.map_inits, ← List.map_reverse,
        List.map_map, List.map_map]
      exact List.map_congr_left fun pre _ => (List.map_append).symm
    · rw [fullNames_of_ne hne] at hd
      obtain ⟨pre, hpre, rfl⟩ := List.mem_map.1 hd
      have hpre : pre <+: env.scope := (List.mem_inits _ _).1 (List.mem_reverse.1 hpre)
      intro x hx
      rcases List.mem_append.1 hx with hx | hx
      · exact h.plainScope x (hpre.subset hx)
      · exact hids x hx

/-- A function outside of models is found again, just when no formal has its name. -/
theorem global_iff (h : EnvRenamed env env') {ids : ScopeName} {g : ScopeName × Function}
    (hglobal : env.global ids = some i) (hg : env.globals[i]? = some g) (hf : g.2.expression = none) :
    env'.global (tickIds ids) = some i ↔ g.2.name ∉ g.2.formals.map Prod.snd := by
  obtain ⟨c, hc, hi⟩ := List.exists_of_findSome?_eq_some hglobal
  have hmem : c ∈ env.globals.map fun g => g.1 ++ [g.2.name] := List.mem_of_getElem? (Scopes.getElem?_of_idxOf? hi)
  obtain ⟨hnames, hcandidates⟩ := fullNames_tick h ⟨c, hc, plain_of_mem_globals h hmem⟩
  rw [Env.global, hnames, findSome_renamed (fullRenames_globals h) hcandidates hglobal]
  obtain ⟨hlt, heq⟩ := List.getElem?_eq_some_iff.1 hg
  have hlt' : i < env'.globals.length := h.globals.length_eq ▸ hlt
  obtain ⟨-, hscope, hfunction⟩ : GlobalRenamed g env'.globals[i] := by
    have hget := List.Forall₂.get h.globals hlt hlt'
    simp only [List.get_eq_getElem, heq] at hget
    exact hget
  have hg' : env'.globals[i]? = some env'.globals[i] := List.getElem?_eq_getElem hlt'
  rw [List.getElem?_map, List.getElem?_map, hg, hg', Option.map_some, Option.map_some]
  simp only [Option.some.injEq, exists_eq_left', hscope, List.map_append, List.append_cancel_left_eq]
  rw [← hfunction.tick_iff hf]
  simp

/-! ## What uses resolve to -/

theorem SiteRenamed.around {members members' : List String} {s s' : Site}
    (h : SiteRenamed members members' s s') :
    ∃ names n, Around members members' names n s.scope s'.scope := by
  obtain ⟨names, n, haround, -⟩ := h
  exact ⟨names, n, haround⟩

/-- The names that a use gets: they have the variable in whose expression it is. -/
theorem SiteRenamed.ticked {members members' : List String} {s s' : Site}
    (h : SiteRenamed members members' s s') :
    ∃ names, s'.use = tickUse names s.use ∧ (∀ x, 0 < names.count x ↔ x ∈ s.scope.counted ∨ s.initializes = some x) ∧
      ∀ x, 0 < names.count x → ∃ f ∈ s.scope.declared, x ∈ f := by
  obtain ⟨names, n, haround, h⟩ := h
  cases hinit : s.initializes with
  | none =>
    rw [hinit] at h
    refine ⟨names, h, fun x => ?_, fun x hx => haround.visible x ((haround.counted x).1 hx)⟩
    rw [haround.counted]
    simp
  | some y =>
    rw [hinit] at h
    obtain ⟨-, hy, huse⟩ := h
    refine ⟨_, huse, fun x => ?_, fun x hx => ?_⟩
    · by_cases hxy : x = y
      · obtain rfl := hxy
        simp
      · rw [count_cons_ne hxy, haround.counted]
        simp [Ne.symm hxy]
    · by_cases hxy : x = y
      · exact hxy ▸ hy
      · rw [count_cons_ne hxy, haround.counted] at hx
        exact haround.visible x hx

theorem EnvRenamed.plain_found (h : EnvRenamed env env')
    (hscope : Scopes.Renamed Renames scope.declared scope'.declared)
    {place : Nat × Nat} (hplace : Scopes.find (scope.declared ++ env.declarations) x = some place) : Plain x := by
  obtain ⟨z, hx, -⟩ := Scopes.Renamed.exists_of_mem_left (List.rel_append hscope h.declarations)
    (Scopes.mem_of_entry (Scopes.entry_of_find hplace))
  exact hx

/-- A variable is found again, but not in its own expression. -/
theorem var_iff {s s' : Site} (h : SiteRenamed env.members env'.members s s') (huse : s.use = .var x)
    (hresolves : env.Resolves s) :
    env'.target s'.scope s'.use = env.target s.scope s.use ↔ s.initializes ≠ some x := by
  obtain ⟨names, n, haround, h⟩ := h
  obtain ⟨t, ht, -⟩ := hresolves
  rw [huse] at ht
  obtain ⟨place, hplace, -⟩ := Option.map_eq_some_iff.1 ht
  obtain ⟨z, hx, -⟩ := haround.locals.exists_of_mem_left (Scopes.mem_of_entry (Scopes.entry_of_find hplace))
  have hfound : Scopes.find (s'.scope.locals ++ [env'.members]) (appendTick names x) = some place :=
    (Scopes.Renamed.find_iff Renames.unique haround.locals (renames_appendTick hx names) hplace).2
      (haround.found x place hplace)
  have htarget : env.target s.scope s.use = some (.var place) := by
    rw [huse, Env.target, hplace]
    rfl
  rw [htarget]
  cases hinit : s.initializes with
  | none =>
    rw [hinit] at h
    rw [h, huse, tickUse, Env.target, hfound]
    simp
  | some y =>
    rw [hinit] at h
    obtain ⟨-, -, h⟩ := h
    rw [h, huse, tickUse, Env.target]
    by_cases hxy : x = y
    · obtain rfl := hxy
      have hnone : Scopes.find (s'.scope.locals ++ [env'.members]) (tick (n + 1) x) = none :=
        Scopes.find_eq_none_iff.2 (haround.fresh hx)
      rw [appendTick_plain _ hx, count_cons_self, hnone]
      simp
    · rw [appendTick_cons_ne hxy, hfound]
      simp [Ne.symm hxy]

/-- The new name of a port and of a variable in one string are the new name of no member. -/
theorem not_mem_members (h : EnvRenamed env env') (hp : Plain p) (names : Names) :
    tick 0 p ++ appendTick names x ∉ env'.members := by
  rw [h.members]
  intro hmem
  obtain ⟨m, hm, heq⟩ := List.mem_map.1 hmem
  have hlist := congrArg String.toList heq
  rw [String.toList_append, toList_tick, toList_tick, if_pos rfl, List.append_assoc] at hlist
  have hname := congrArg (List.takeWhile (· ≠ tickChar)) hlist
  rw [takeWhile_ne_append (h.plain m hm).1, List.cons_append, takeWhile_ne_append hp.1] at hname
  rw [hname] at hlist
  have hempty : [] = (appendTick names x).toList := (List.cons.inj (List.append_cancel_left hlist)).2
  unfold appendTick at hempty
  split at hempty
  · rename_i hspecial
    obtain rfl | rfl := hspecial
    · revert hempty
      decide
    · revert hempty
      decide
  · rw [toList_tick] at hempty
    simp at hempty

/-- The port of a shared variable is found again, and its name has no count. -/
theorem port_renamed (h : EnvRenamed env env') {s s' : Site}
    (hsite : SiteRenamed env.members env'.members s s')
    {j : Nat} {port : SharedPort} (hport : env.port s.scope p = some (j, port)) :
    port.name = p ∧ Plain p ∧ port ∈ env.ports ∧ (∀ f ∈ s.scope.declared, p ∉ f) ∧
      env'.port s'.scope (tick 0 p) = some (j, tickPort port) := by
  obtain ⟨names, n, haround⟩ := hsite.around
  obtain ⟨place, hplace, hrest⟩ := Option.bind_eq_some_iff.1 hport
  split at hrest
  · rename_i hframe
    obtain ⟨port', hport', heq⟩ := Option.map_eq_some_iff.1 hrest
    obtain ⟨rfl, rfl⟩ := Prod.mk.inj heq
    have hplain := h.plain_found haround.declared hplace
    obtain ⟨i, j⟩ := place
    obtain rfl : i = s.scope.declared.length + 1 := hframe
    have hentry := Scopes.entry_of_find hplace
    rw [Scopes.entry_append] at hentry
    obtain ⟨hname, hname'⟩ := h.portsDeclared j _ hport'
    have hp : p = port'.name := Option.some.inj (hentry.symm.trans hname)
    have hlength : s.scope.declared.length = s'.scope.declared.length := haround.declared.length_eq
    have hplace' : Scopes.find (s'.scope.declared ++ env'.declarations) (tick 0 p) =
        some (s.scope.declared.length + 1, j) := by
      refine (Scopes.Renamed.find_iff Renames.unique (List.rel_append haround.declared h.declarations)
        (renames_tick hplain 0) hplace).2 ?_
      rw [hlength, Scopes.entry_append, hp]
      exact hname'
    refine ⟨hp.symm, hplain, List.mem_of_getElem? hport', fun f hf => ?_, ?_⟩
    · obtain ⟨k, hk, rfl⟩ := List.getElem_of_mem hf
      refine Scopes.not_mem_of_find hplace (i := k) (by dsimp only; omega) ?_
      rw [List.getElem?_append_left hk, List.getElem?_eq_getElem hk]
    · rw [Env.port, hplace', Option.bind_some, if_pos (by rw [hlength]), h.ports, List.getElem?_map, hport']
      rfl
  · cases hrest

/-- A shared variable is found again, just when its name has no count and is no member with that of the port. -/
theorem shared_iff (h : EnvRenamed env env') {s s' : Site} (hsite : SiteRenamed env.members env'.members s s')
    (huse : s.use = .shared p x) (hresolves : env.Resolves s) :
    env'.target s'.scope s'.use = env.target s.scope s.use ↔
      x ∉ s.scope.counted ∧ s.initializes ≠ some x ∧ p ++ x ∉ env.members := by
  obtain ⟨t, ht, -⟩ := hresolves
  rw [huse] at ht
  obtain ⟨⟨j, port⟩, hport, htarget⟩ := Option.bind_eq_some_iff.1 ht
  obtain ⟨hname, hplain, hmem, hdeclared, hport'⟩ := port_renamed h hsite hport
  obtain ⟨names, huse', hcount, hvisible⟩ := hsite.ticked
  have hcountp : names.count p = 0 := by
    by_contra hne
    obtain ⟨f, hf, hpf⟩ := hvisible p (Nat.pos_of_ne_zero hne)
    exact hdeclared f hf hpf
  have hold : env.target s.scope s.use = some t := by rw [huse]; exact ht
  have hmembers : env'.members.idxOf? ((tickPort port).name ++ appendTick names x) = none := by
    have hticked : (tickPort port).name = tick 0 p := by rw [tickPort, hname, appendTick_nil hplain]
    rw [hticked]
    exact List.idxOf?_eq_none_iff.2 (not_mem_members h hplain names)
  have hnew : env'.target s'.scope s'.use =
      (((tickPort port).members.map Variable.name).idxOf? (appendTick names x)).map (.shared j) := by
    rw [huse', huse, tickUse, Env.target, appendTick_plain _ hplain, hcountp, hport', Option.bind_some]
    simp only [hmembers]
  rw [hold, hnew]
  simp only [hname] at htarget
  by_cases hpx : p ++ x ∈ env.members
  · refine iff_of_false ?_ fun hkept => hkept.2.2 hpx
    cases hidx : env.members.idxOf? (p ++ x) with
    | none => exact absurd hpx (List.idxOf?_eq_none_iff.1 hidx)
    | some i =>
      rw [hidx] at htarget
      obtain rfl := Option.some.inj htarget
      cases ((tickPort port).members.map Variable.name).idxOf? (appendTick names x) <;> simp
  · rw [List.idxOf?_eq_none_iff.2 hpx] at htarget
    obtain ⟨i, hi, rfl⟩ := Option.map_eq_some_iff.1 htarget
    have hshared : ∀ y ∈ port.members.map Variable.name, Plain y := by
      intro y hy
      obtain ⟨v, hv, rfl⟩ := List.mem_map.1 hy
      exact (h.shared port hmem).2 v hv
    have hx : Plain x := hshared x (List.mem_of_getElem? (Scopes.getElem?_of_idxOf? hi))
    have hnames : (tickPort port).members.map Variable.name = (port.members.map Variable.name).map (tick 0) := by
      rw [tickPort, List.map_map, List.map_map]
      refine List.map_congr_left fun v hv => ?_
      have hv : Plain v.name := hshared _ (List.mem_map_of_mem hv)
      simp only [Function.comp_apply, tickMember]
      rw [appendTick_plain _ hv, count_memberNames]
    have hzero : x ∉ s.scope.counted ∧ s.initializes ≠ some x ∧ p ++ x ∉ env.members ↔ names.count x = 0 := by
      have hpos := hcount x
      rw [Nat.pos_iff_ne_zero] at hpos
      have hnot : names.count x = 0 ↔ ¬ (x ∈ s.scope.counted ∨ s.initializes = some x) := by
        rw [← hpos]
        exact not_not.symm
      rw [hnot, not_or]
      simp [hpx]
    rw [hzero, hnames, appendTick_plain _ hx]
    constructor
    · intro heq
      obtain ⟨i', hi', -⟩ := Option.map_eq_some_iff.1 heq
      obtain ⟨y, hy, hyx⟩ := List.mem_map.1 (List.mem_of_getElem? (Scopes.getElem?_of_idxOf? hi'))
      exact (tick_inj (hshared y hy) hx hyx).2.symm
    · intro hcountx
      have hforall := forall₂_renames (tick 0) fun y hy => renames_tick (hshared y hy) 0
      have hget : ((port.members.map Variable.name).map (tick 0))[i]? = some (tick 0 x) := by
        rw [List.getElem?_map, Scopes.getElem?_of_idxOf? hi]
        rfl
      rw [hcountx, (Scopes.idxOf?_renamed Renames.unique hforall (renames_tick hx 0) hi).2 hget]
      rfl

theorem target_call (env : Env) (scope : Scope) {ids : ScopeName} (h : ∀ g, ids ≠ [g]) :
    env.target scope (.call ids) = (env.global ids).map .global := by
  unfold Env.target
  split
  · cases ‹Use.call ids = _›
  · cases ‹Use.call ids = _›
  · rename_i g heq
    exact absurd (Use.call.inj heq) (h g)
  · rename_i heq
    rw [← Use.call.inj heq]

theorem length_tickIds (ids : ScopeName) : (tickIds ids).length = ids.length := by
  unfold tickIds
  split
  · rfl
  · exact List.length_map _

/-- A function of the behavior is found again, just when no formal has its name. -/
theorem declaration_iff (h : EnvRenamed env env') {s s' : Site}
    (hsite : SiteRenamed env.members env'.members s s')
    {g : String} {place : Nat × Nat} (hplace : Scopes.find (s.scope.declared ++ env.declarations) g = some place)
    (hf : env.function s.scope (.declaration place) = some f) (hexpression : f.expression = none) :
    Scopes.find (s'.scope.declared ++ env'.declarations) (tick 0 g) = some place ↔ f.name ∉ f.formals.map Prod.snd := by
  obtain ⟨names, n, haround⟩ := hsite.around
  have hplain := h.plain_found haround.declared hplace
  rw [Scopes.Renamed.find_iff Renames.unique (List.rel_append haround.declared h.declarations) (renames_tick hplain 0)
    hplace]
  rw [Env.function] at hf
  split at hf
  · rename_i hfunction
    obtain ⟨i, j⟩ := place
    obtain ⟨rfl, hj⟩ : i = s.scope.declared.length ∧ env.types.length ≤ j := hfunction
    obtain ⟨k, rfl⟩ := Nat.exists_eq_add_of_le hj
    have hk : env.functions[k]? = some f := by simpa using hf
    obtain ⟨hlt, heq⟩ := List.getElem?_eq_some_iff.1 hk
    have hlt' : k < env'.functions.length := h.functions.length_eq ▸ hlt
    have hrenamed : FunctionRenamed f env'.functions[k] := by
      have hget := List.Forall₂.get h.functions hlt hlt'
      simp only [List.get_eq_getElem, heq] at hget
      exact hget
    have hentry := Scopes.entry_of_find hplace
    have hplace0 : ∀ (fs : List (List String)) (l : Nat) (env : Env) (hl : l = fs.length) (hk : k < env.functions.length),
        Scopes.entry (fs ++ env.declarations) (l, env.types.length + k) = some env.functions[k].name := by
      intro fs l env hl hk
      have hentry := Scopes.entry_append fs env.declarations 0 (env.types.length + k)
      rw [Nat.add_zero] at hentry
      rw [hl, hentry]
      have hframe : Scopes.entry env.declarations (0, env.types.length + k) =
          (env.types ++ env.functions.map Function.name ++ env.members)[env.types.length + k]? := rfl
      rw [hframe, List.append_assoc, List.getElem?_append_right (Nat.le_add_right _ _), Nat.add_sub_cancel_left,
        List.getElem?_append_left (by rwa [List.length_map]), List.getElem?_map, List.getElem?_eq_getElem hk]
      rfl
    rw [hplace0 _ _ env rfl hlt, heq] at hentry
    obtain rfl := Option.some.inj hentry
    have htypes : env.types.length = env'.types.length := h.types.length_eq
    rw [htypes, hplace0 _ _ env' haround.declared.length_eq hlt', Option.some.injEq]
    exact hrenamed.tick_iff hexpression
  · cases hf

/-- A function is found again, just when no formal has its name. -/
theorem call_iff (h : EnvRenamed env env') {s s' : Site} (hsite : SiteRenamed env.members env'.members s s')
    {ids : ScopeName} (huse : s.use = .call ids) (hresolves : env.Resolves s) :
    env'.target s'.scope s'.use = env.target s.scope s.use ↔
      ∀ t f, env.target s.scope (.call ids) = some t → env.function s.scope t = some f →
        f.name ∉ f.formals.map Prod.snd := by
  obtain ⟨t, ht, hfunction⟩ := hresolves
  obtain ⟨f, hf, hexpression⟩ := hfunction ids huse
  obtain ⟨names, n, haround⟩ := hsite.around
  obtain ⟨_, huse', -, -⟩ := hsite.ticked
  have hkept : (∀ t f, env.target s.scope (.call ids) = some t → env.function s.scope t = some f →
      f.name ∉ f.formals.map Prod.snd) ↔ f.name ∉ f.formals.map Prod.snd := by
    rw [← huse, ht]
    constructor
    · intro hall
      exact hall t f rfl hf
    · rintro hname t' f' heq hf'
      obtain rfl := Option.some.inj heq
      obtain rfl := Option.some.inj (hf.symm.trans hf')
      exact hname
  have hglobal : ∀ i, env.global ids = some i → env.target s.scope s.use = some (.global i) →
      ((env'.global (tickIds ids)).map Target.global = some (.global i) ↔ f.name ∉ f.formals.map Prod.snd) := by
    intro i hi htarget
    obtain rfl : t = .global i := Option.some.inj (ht.symm.trans htarget)
    obtain ⟨g, hg, rfl⟩ := Option.map_eq_some_iff.1 hf
    rw [← global_iff h hi hg hexpression]
    simp
  rw [hkept, huse', ht]
  rw [huse] at ht hglobal ⊢
  rw [tickUse]
  by_cases hsingle : ∃ g, ids = [g]
  · obtain ⟨g, rfl⟩ := hsingle
    have hticked : ∀ hg : Plain g, tickIds [g] = [tick 0 g] := fun hg => tickIds_plain (by simpa using hg)
    -- a declaration hides the globals
    cases hfind : Scopes.find (s.scope.declared ++ env.declarations) g with
    | some place =>
      have htarget : env.target s.scope (.call [g]) = some (.declaration place) := by rw [Env.target, hfind]
      obtain rfl : t = .declaration place := Option.some.inj (ht.symm.trans htarget)
      rw [hticked (h.plain_found haround.declared hfind), Env.target,
        ← declaration_iff h hsite hfind hf hexpression]
      cases Scopes.find (s'.scope.declared ++ env'.declarations) (tick 0 g) with
      | some place' => simp
      | none =>
        refine iff_of_false (fun heq => ?_) (by simp)
        obtain ⟨i, -, hi⟩ := Option.map_eq_some_iff.1 heq
        cases hi
    | none =>
      have htarget : env.target s.scope (.call [g]) = (env.global [g]).map .global := by rw [Env.target, hfind]
      rw [htarget] at ht
      obtain ⟨i, hi, rfl⟩ := Option.map_eq_some_iff.1 ht
      -- a global name has no tick in it
      have hgplain : Plain g := by
        obtain ⟨c, hc, hidx⟩ := List.exists_of_findSome?_eq_some hi
        have hmem : c ∈ env.globals.map fun g => g.1 ++ [g.2.name] :=
          List.mem_of_getElem? (Scopes.getElem?_of_idxOf? hidx)
        refine plain_of_mem_globals h hmem g ?_
        by_cases hroot : g = "/"
        · obtain rfl := hroot
          obtain rfl := List.mem_singleton.1 hc
          obtain ⟨g', -, hempty⟩ := List.mem_map.1 hmem
          simp at hempty
        · rw [fullNames_of_ne fun rest heq => hroot (List.cons.inj heq).1] at hc
          obtain ⟨pre, -, rfl⟩ := List.mem_map.1 hc
          exact List.mem_append_right _ (List.mem_singleton_self g)
      have hnone : Scopes.find (s'.scope.declared ++ env'.declarations) (tick 0 g) = none :=
        Scopes.Renamed.find_none Renames.unique (List.rel_append haround.declared h.declarations)
          (renames_tick hgplain 0) hfind
      have hiff := hglobal i hi (by rw [htarget, hi]; rfl)
      rw [hticked hgplain] at hiff ⊢
      rw [Env.target, hnone]
      exact hiff
  · -- a name with a scope is looked for in the globals only
    have hne : ∀ g, ids ≠ [g] := fun g heq => hsingle ⟨g, heq⟩
    have hne' : ∀ g, tickIds ids ≠ [g] := by
      intro g heq
      have hlength := length_tickIds ids
      rw [heq] at hlength
      obtain ⟨x, hx⟩ := List.length_eq_one_iff.1 hlength.symm
      exact hne x hx
    rw [target_call env' s'.scope hne']
    rw [target_call env s.scope hne] at ht hglobal
    obtain ⟨i, hi, rfl⟩ := Option.map_eq_some_iff.1 ht
    exact hglobal i hi (by rw [hi]; rfl)

/-- A use resolves to the same, just when it is kept. -/
theorem target_iff (h : EnvRenamed env env') {s s' : Site} (hsite : SiteRenamed env.members env'.members s s')
    (hresolves : env.Resolves s) :
    env'.target s'.scope s'.use = env.target s.scope s.use ↔ env.Kept s := by
  obtain ⟨scope, initializes, use⟩ := s
  cases use with
  | var x => exact var_iff hsite rfl hresolves
  | shared p x => exact shared_iff h hsite rfl hresolves
  | call ids => exact call_iff h hsite rfl hresolves

end

end Dezyne.Tick
