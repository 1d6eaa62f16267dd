import Dezyne.Lib.Loop
import Dezyne.Coroutines
/-!
# The coroutine that is running

`find_self` knows the coroutine that is running by its members only. What the pump does to the members of the others
has to leave exactly one that can be found.
-/

namespace Dezyne.Coroutines

variable {Component Port : Type} [DecidableEq Component] [DecidableEq Port]

/-! ## The condition -/

/-- A step runs a function of `switch_context`. -/
def switches (o : Pump Component Port) : Op Component Port → Bool
  | .resume => (findSelf o.coroutines).any fun self => self.context = .created
  | .finish => (findUnblocked o).isNone
  | _ => false

/-- The coroutine that a function of `switch_context` switches to is still blocked on a port. A coroutine that blocks lets
at most one collaterally blocked coroutine go on. -/
def meets (o : Pump Component Port) (op : Op Component Port) : Bool :=
  match op with
  | .block component port =>
    (o.marks component).skip = some port || o.collateralBlocked.countP (relay o component) ≤ 1
  | op =>
    match o.switchContext with
    | [] => true
    | id :: _ => !switches o op || o.coroutines.any fun x => x.id = id && x.port.isSome

/-- A run whose operations all meet the condition. -/
def runMeets (lang : Language) (o : Pump Component Port) :
    List (Op Component Port) → Option (Pump Component Port)
  | [] => some o
  | op :: ops => if meets o op then (step lang o op).bind fun o => runMeets lang o ops else none

/-! ## What holds in such a run -/

/-- The coroutine has not started yet, or `self` is the coroutine itself. -/
def Own (x : Coroutine Component Port) : Prop := x.context = .created ∨ x.self = x.id

structure Inv (o : Pump Component Port) : Prop where
  ids : Ids o
  self : ∃ x ∈ o.coroutines, x.id = o.running
  runnable : ∀ x ∈ o.coroutines, x.runnable = true ↔ x.id = o.running
  finished : ∀ x ∈ o.coroutines, x.finished = true → x.port = none
  collateralBlocked : ∀ x ∈ o.collateralBlocked, x.finished = false
  own : ∀ x ∈ o.coroutines ++ o.collateralBlocked, Own x

variable {lang : Language} {o o' : Pump Component Port}

omit [DecidableEq Component] [DecidableEq Port] in
theorem init_inv : Inv (Pump.init : Pump Component Port) := by
  refine ⟨init_ids, ?_, ?_, ?_, ?_, ?_⟩ <;> simp [Pump.init, createContext, Coroutine.runnable, Own]

omit [DecidableEq Component] [DecidableEq Port] in
theorem runnable_iff {x : Coroutine Component Port} :
    x.runnable = true ↔ x.port = none ∧ x.finished = false := by
  simp [Coroutine.runnable]

omit [DecidableEq Component] [DecidableEq Port] in
/-- An assignment that `find_self` does not see. -/
theorem assign_inv {id : Nat} {f : Coroutine Component Port → Coroutine Component Port} (h : Inv o)
    (hid : ∀ x, (f x).id = x.id) (hport : ∀ x, (f x).port = x.port) (hfinished : ∀ x, (f x).finished = x.finished)
    (hown : ∀ x ∈ o.coroutines ++ o.collateralBlocked, x.id = id → Own (f x)) : Inv (assign o id f) := by
  have hrunnable : ∀ x, (f x).runnable = x.runnable := by
    intro x
    simp only [Coroutine.runnable, hport, hfinished]
  have hcases : ∀ {y : Coroutine Component Port} {l : List (Coroutine Component Port)},
      y ∈ (l.map fun x => if x.id = id then f x else x) →
      ∃ x ∈ l, y.id = x.id ∧ y.runnable = x.runnable ∧ y.port = x.port ∧ y.finished = x.finished ∧
        ((x.id = id ∧ y = f x) ∨ y = x) := by
    intro y l hy
    obtain ⟨x, hx, hyx, ⟨hxid, rfl⟩ | ⟨-, rfl⟩⟩ := mem_assign hy hid
    · exact ⟨x, hx, hyx, hrunnable x, hport x, hfinished x, .inl ⟨hxid, rfl⟩⟩
    · exact ⟨y, hx, rfl, rfl, rfl, rfl, .inr rfl⟩
  refine ⟨assign_ids h.ids hid, ?_, ?_, ?_, ?_, ?_⟩
  · obtain ⟨x, hx, hxid⟩ := h.self
    refine ⟨if x.id = id then f x else x, List.mem_map.mpr ⟨x, hx, rfl⟩, ?_⟩
    split
    · exact (hid x).trans hxid
    · exact hxid
  · intro y hy
    obtain ⟨x, hx, hyx, hrun, -⟩ := hcases hy
    rw [hyx, hrun]
    exact h.runnable x hx
  · intro y hy hfin
    obtain ⟨x, hx, -, -, hyport, hyfin, -⟩ := hcases hy
    rw [hyport]
    exact h.finished x hx (hyfin ▸ hfin)
  · intro y hy
    obtain ⟨x, hx, -, -, -, hyfin, -⟩ := hcases hy
    rw [hyfin]
    exact h.collateralBlocked x hx
  · intro y hy
    have hx : ∃ x ∈ o.coroutines ++ o.collateralBlocked, (x.id = id ∧ y = f x) ∨ y = x := by
      rcases List.mem_append.mp hy with hy | hy
      · obtain ⟨x, hx, -, -, -, -, hyx⟩ := hcases hy
        exact ⟨x, List.mem_append_left _ hx, hyx⟩
      · obtain ⟨x, hx, -, -, -, -, hyx⟩ := hcases hy
        exact ⟨x, List.mem_append_right _ hx, hyx⟩
    obtain ⟨x, hx, ⟨hxid, rfl⟩ | rfl⟩ := hx
    · exact hown x hx hxid
    · exact h.own y hx

omit [DecidableEq Port] in
theorem setMarks_inv {component : Component} {marks : Marks Port} (h : Inv o) :
    Inv (setMarks o component marks) :=
  ⟨setMarks_ids h.ids, h.self, h.runnable, h.finished, h.collateralBlocked, h.own⟩

omit [DecidableEq Component] [DecidableEq Port] in
theorem removeFinished_inv (h : Inv o) : Inv (removeFinished o) := by
  have hsub : ∀ x ∈ (removeFinished o).coroutines, x ∈ o.coroutines := fun x hx => (List.mem_filter.mp hx).1
  refine ⟨removeFinished_ids h.ids, ?_, ?_, ?_, h.collateralBlocked, ?_⟩
  · obtain ⟨x, hx, hid⟩ := h.self
    have hrun := runnable_iff.mp ((h.runnable x hx).mpr hid)
    exact ⟨x, List.mem_filter.mpr ⟨hx, by simp [hrun.2]⟩, hid⟩
  · exact fun x hx => h.runnable x (hsub x hx)
  · exact fun x hx => h.finished x (hsub x hx)
  · intro x hx
    rcases List.mem_append.mp hx with hx | hx
    · exact h.own x (List.mem_append_left _ (hsub x hx))
    · exact h.own x (List.mem_append_right _ hx)

/-! ### The coroutine gives the control away -/

section Self

variable {self : Coroutine Component Port}

omit [DecidableEq Component] [DecidableEq Port] in
/-- The other coroutines are not found. -/
theorem not_runnable (h : Inv o) (hself : self.id = o.running) {x : Coroutine Component Port}
    (hx : x ∈ o.coroutines) (hne : x.id ≠ self.id) : x.runnable = false := by
  apply Bool.eq_false_iff.mpr
  intro hrun
  exact hne (((h.runnable x hx).mp hrun).trans hself.symm)

omit [DecidableEq Component] [DecidableEq Port] in
theorem assign_of_ne {id : Nat} {f : Coroutine Component Port → Coroutine Component Port}
    {l : List (Coroutine Component Port)} (h : ∀ x ∈ l, x.id ≠ id) : (l.map fun x => if x.id = id then f x else x) = l := by
  rw [List.map_congr_left (g := fun x => x) fun x hx => if_neg (h x hx)]
  exact List.map_id' l

omit [DecidableEq Component] [DecidableEq Port] in
theorem own_of_worker (h : Inv o) (hmem : self ∈ o.coroutines) (hworker : self.context = .worker) :
    self.self = self.id := by
  rcases h.own self (List.mem_append_left _ hmem) with hcreated | hself
  · rw [hworker] at hcreated
    cases hcreated
  · exact hself

omit [DecidableEq Component] [DecidableEq Port] in
/-- A coroutine that is created gets the control, when none of the others is found. -/
theorem createContext_inv (hids : Ids o) (hrunnable : ∀ x ∈ o.coroutines, x.runnable = false)
    (hfinished : ∀ x ∈ o.coroutines, x.finished = true → x.port = none)
    (hcollateral : ∀ x ∈ o.collateralBlocked, x.finished = false)
    (hown : ∀ x ∈ o.coroutines ++ o.collateralBlocked, Own x) (hs : yieldBack (createContext o) = some o') : Inv o' := by
  have ho' : o' = yieldTo (createContext o) (o.currentCoroutine + 1) := by
    rw [yieldBack, createContext, List.getLast?_concat] at hs
    exact (Option.some.inj hs).symm
  subst ho'
  refine ⟨yieldTo_ids (createContext_ids hids), ?_, ?_, ?_, hcollateral, ?_⟩
  · exact ⟨_, List.mem_append_right _ (List.mem_singleton.mpr rfl), rfl⟩
  · intro x hx
    rcases List.mem_append.mp hx with hx | hx
    · have hle := hids.bound x (List.mem_append_left _ hx)
      have hne : x.id ≠ o.currentCoroutine + 1 := by omega
      rw [hrunnable x hx]
      exact iff_of_false Bool.false_ne_true hne
    · cases List.mem_singleton.mp hx
      exact iff_of_true rfl rfl
  · intro x hx hfin
    rcases List.mem_append.mp hx with hx | hx
    · exact hfinished x hx hfin
    · cases List.mem_singleton.mp hx
      cases hfin
  · intro x hx
    rcases List.mem_append.mp hx with hx | hx
    · rcases List.mem_append.mp hx with hx | hx
      · exact hown x (List.mem_append_left _ hx)
      · cases List.mem_singleton.mp hx
        exact .inl rfl
    · exact hown x (List.mem_append_right _ hx)

omit [DecidableEq Component] [DecidableEq Port] in
/-- `collateral_block` -/
theorem collateralBlock_inv {component : Component} (h : Inv o) (hself : findSelf o.coroutines = some self)
    (hrunning : self.id = o.running) (hworker : self.context = .worker)
    (hs : collateralBlock lang o component = some o') : Inv o' := by
  obtain ⟨hmem, -, hfin⟩ := findSelf_mem hself
  obtain ⟨self', hself', hs⟩ := Option.bind_eq_some_iff.mp hs
  cases hself.symm.trans hself'
  obtain ⟨it, -, hs⟩ := Option.bind_eq_some_iff.mp hs
  obtain ⟨port, -, hs⟩ := Option.bind_eq_some_iff.mp hs
  have hown := own_of_worker h hmem hworker
  -- The others are as they were.
  have hothers : (assign (spliceCollateral o self.id) self.id fun x =>
      { x with component := some component, port := some port, context := .collateralBlock component }).coroutines =
        o.coroutines.filter fun x => x.id ≠ self.id :=
    assign_of_ne fun x hx => of_decide_eq_true (List.mem_filter.mp hx).2
  have hcollateral : ∀ y ∈ (assign (spliceCollateral o self.id) self.id fun x =>
      { x with component := some component, port := some port, context := .collateralBlock component }).collateralBlocked,
        y.finished = false ∧ Own y := by
    intro y hy
    obtain ⟨x, hx, -, hcases⟩ := mem_assign hy fun _ => rfl
    have hxself : x ∈ o.collateralBlocked ∨ x = self := by
      rcases List.mem_append.mp hx with hx | hx
      · exact .inl hx
      · obtain ⟨hx, hid⟩ := List.mem_filter.mp hx
        exact .inr (List.inj_on_of_nodup_map h.ids.coroutines hx hmem (of_decide_eq_true hid))
    rcases hcases with ⟨hid, rfl⟩ | ⟨hid, rfl⟩
    · rcases hxself with hx | rfl
      · exact absurd hid.symm (h.ids.disjoint self hmem x hx)
      · exact ⟨hfin, .inr hown⟩
    · rcases hxself with hx | rfl
      · exact ⟨h.collateralBlocked y hx, h.own y (List.mem_append_right _ hx)⟩
      · exact absurd rfl hid
  refine createContext_inv ?_ ?_ ?_ ?_ ?_ hs
  · apply assign_ids (spliceCollateral_ids h.ids)
    exact fun _ => rfl
  · intro x hx
    rw [hothers] at hx
    obtain ⟨hx, hne⟩ := List.mem_filter.mp hx
    exact not_runnable h hrunning hx (of_decide_eq_true hne)
  · intro x hx
    rw [hothers] at hx
    exact h.finished x (List.mem_filter.mp hx).1
  · exact fun x hx => (hcollateral x hx).1
  · intro x hx
    rcases List.mem_append.mp hx with hx | hx
    · rw [hothers] at hx
      exact h.own x (List.mem_append_left _ (List.mem_filter.mp hx).1)
    · exact (hcollateral x hx).2

omit [DecidableEq Port] in
theorem callBody_inv {component : Component} (h : Inv o) (hs : callBody lang o component = some o') :
    Inv o' := by
  obtain ⟨marks, rfl⟩ := callBody_eq hs
  exact setMarks_inv h

theorem callIn_inv {component : Component} {port : Port} (h : Inv o)
    (hself : findSelf o.coroutines = some self)
    (hrunning : self.id = o.running) (hworker : self.context = .worker)
    (hs : callIn lang o component port = some o') : Inv o' := by
  simp only [callIn] at hs
  have hreset : Inv (resetFirst lang o component) ∧ (resetFirst lang o component).coroutines = o.coroutines ∧
      (resetFirst lang o component).running = o.running := by
    unfold resetFirst
    split
    · exact ⟨setMarks_inv h, rfl, rfl⟩
    · exact ⟨h, rfl, rfl⟩
  rw [← hreset.2.1] at hself
  rw [← hreset.2.2] at hrunning
  split at hs
  · exact collateralBlock_inv hreset.1 hself hrunning hworker hs
  · exact callBody_inv hreset.1 hs

omit [DecidableEq Component] [DecidableEq Port] in
/-- What the coroutine leaves when it blocks or is finished: none is found. -/
theorem leave_cases {f : Coroutine Component Port → Coroutine Component Port} (h : Inv o)
    (hmem : self ∈ o.coroutines)
    (hrunning : self.id = o.running) (hid : ∀ x, (f x).id = x.id) (hrunnable : (f self).runnable = false)
    (hfinished : (f self).finished = true → (f self).port = none) (hown : Own (f self)) :
    ∀ y ∈ (assign o self.id f).coroutines,
      y.runnable = false ∧ (y.finished = true → y.port = none) ∧ Own y := by
  intro y hy
  obtain ⟨x, hx, -, ⟨hxid, rfl⟩ | ⟨hxid, rfl⟩⟩ := mem_assign hy hid
  · have hxself : x = self := List.inj_on_of_nodup_map h.ids.coroutines hx hmem hxid
    subst hxself
    exact ⟨hrunnable, hfinished, hown⟩
  · exact ⟨not_runnable h hrunning hx hxid, h.finished y hx, h.own y (List.mem_append_left _ hx)⟩

omit [DecidableEq Component] [DecidableEq Port] in
/-- The coroutines that are collaterally blocked stay so. -/
theorem assign_collateral {f : Coroutine Component Port → Coroutine Component Port} (h : Ids o)
    (hmem : self ∈ o.coroutines) : (assign o self.id f).collateralBlocked = o.collateralBlocked :=
  assign_of_ne fun x hx hid => h.disjoint self hmem x hx hid.symm

omit [DecidableEq Component] [DecidableEq Port] in
/-- A coroutine that is spliced back gets the control, when none of the others is found. -/
theorem spliceBack_inv {p : Coroutine Component Port → Bool}
    {f : Coroutine Component Port → Coroutine Component Port}
    {y : Coroutine Component Port} (hids : Ids o) (hid : ∀ x, (f x).id = x.id)
    (hport : (f y).port = none) (hkept : (f y).finished = y.finished) (howns : Own y → Own (f y))
    (hfilter : o.collateralBlocked.filter p = [y]) (hrunnable : ∀ x ∈ o.coroutines, x.runnable = false)
    (hfinished : ∀ x ∈ o.coroutines, x.finished = true → x.port = none)
    (hcollateral : ∀ x ∈ o.collateralBlocked, x.finished = false)
    (hown : ∀ x ∈ o.coroutines ++ o.collateralBlocked, Own x) : Inv (yieldTo (spliceBack o p f) y.id) := by
  have hy : y ∈ o.collateralBlocked := by
    have : y ∈ o.collateralBlocked.filter p := by
      rw [hfilter]
      exact List.mem_singleton.mpr rfl
    exact (List.mem_filter.mp this).1
  have hcoroutines : (yieldTo (spliceBack o p f) y.id).coroutines = o.coroutines ++ [f y] := by
    simp only [yieldTo, spliceBack, hfilter]
    rfl
  refine ⟨yieldTo_ids (spliceBack_ids hids hid), ?_, ?_, ?_, ?_, ?_⟩
  · rw [hcoroutines]
    exact ⟨f y, List.mem_append_right _ (List.mem_singleton.mpr rfl), hid y⟩
  · intro x hx
    rw [hcoroutines] at hx
    rcases List.mem_append.mp hx with hx | hx
    · rw [hrunnable x hx]
      exact iff_of_false Bool.false_ne_true (hids.disjoint x hx y hy)
    · cases List.mem_singleton.mp hx
      exact iff_of_true (runnable_iff.mpr ⟨hport, hkept.trans (hcollateral y hy)⟩) (hid y)
  · intro x hx hfin
    rw [hcoroutines] at hx
    rcases List.mem_append.mp hx with hx | hx
    · exact hfinished x hx hfin
    · cases List.mem_singleton.mp hx
      exact hport
  · exact fun x hx => hcollateral x (List.mem_filter.mp hx).1
  · intro x hx
    rcases List.mem_append.mp hx with hx | hx
    · rw [hcoroutines] at hx
      rcases List.mem_append.mp hx with hx | hx
      · exact hown x (List.mem_append_left _ hx)
      · cases List.mem_singleton.mp hx
        exact howns (hown y (List.mem_append_right _ hy))
    · exact hown x (List.mem_append_right _ (List.mem_filter.mp hx).1)

/-- `block` when a coroutine is relayed -/
theorem relay_inv {component : Component} (hids : Ids o) (hrunnable : ∀ x ∈ o.coroutines, x.runnable = false)
    (hfinished : ∀ x ∈ o.coroutines, x.finished = true → x.port = none)
    (hcollateral : ∀ x ∈ o.collateralBlocked, x.finished = false)
    (hown : ∀ x ∈ o.coroutines ++ o.collateralBlocked, Own x)
    (hany : o.collateralBlocked.any (relay o component) = true)
    (hcount : o.collateralBlocked.countP (relay o component) ≤ 1)
    (hs : yieldBack (collateralReleaseSkipBlock o component) = some o') : Inv o' := by
  obtain ⟨y, hy, hrelay⟩ := List.any_eq_true.mp hany
  have hfilter : o.collateralBlocked.filter (relay o component) = [y] := by
    have hmem : y ∈ o.collateralBlocked.filter (relay o component) := List.mem_filter.mpr ⟨hy, hrelay⟩
    rw [List.countP_eq_length_filter] at hcount
    match hl : o.collateralBlocked.filter (relay o component), hmem, hcount with
    | [x], hmem, _ => rw [List.mem_singleton.mp hmem]
  have ho' : o' = yieldTo (collateralReleaseSkipBlock o component) y.id := by
    simp only [yieldBack, collateralReleaseSkipBlock, spliceBack, hfilter, List.reverse_singleton, List.map_cons,
      List.map_nil, List.getLast?_concat, Option.map_some] at hs
    simp only [collateralReleaseSkipBlock, spliceBack, hfilter]
    exact (Option.some.inj hs).symm
  rw [ho']
  apply spliceBack_inv hids _ rfl rfl _ hfilter hrunnable hfinished hcollateral hown
  · exact fun _ => rfl
  · exact fun h => h

omit [DecidableEq Component] in
/-- `block` when no coroutine is relayed: one that waits for an unblocked port waits for this port instead. -/
theorem move_inv {port : Port} (hids : Ids o) (hrunnable : ∀ x ∈ o.coroutines, x.runnable = false)
    (hfinished : ∀ x ∈ o.coroutines, x.finished = true → x.port = none)
    (hcollateral : ∀ x ∈ o.collateralBlocked, x.finished = false)
    (hown : ∀ x ∈ o.coroutines ++ o.collateralBlocked, Own x)
    (hs : yieldBack (createContext (match findUnblocked o with
      | some it => assign o it.id fun x => { x with port := some port }
      | none => o)) = some o') : Inv o' := by
  split at hs
  · rename_i it hit
    have hit : it ∈ o.collateralBlocked := List.mem_of_find?_eq_some hit
    have hsame : (assign o it.id fun x => { x with port := some port }).coroutines = o.coroutines :=
      assign_of_ne fun x hx => hids.disjoint x hx it hit
    have hmoved : ∀ y ∈ (assign o it.id fun x => { x with port := some port }).collateralBlocked,
        y.finished = false ∧ Own y := by
      intro y hy
      obtain ⟨x, hx, -, ⟨-, rfl⟩ | ⟨-, rfl⟩⟩ := mem_assign hy fun _ => rfl
      · exact ⟨hcollateral x hx, hown x (List.mem_append_right _ hx)⟩
      · exact ⟨hcollateral y hx, hown y (List.mem_append_right _ hx)⟩
    refine createContext_inv ?_ ?_ ?_ (fun x hx => (hmoved x hx).1) ?_ hs
    · apply assign_ids hids
      exact fun _ => rfl
    · rw [hsame]
      exact hrunnable
    · rw [hsame]
      exact hfinished
    · intro x hx
      rcases List.mem_append.mp hx with hx | hx
      · rw [hsame] at hx
        exact hown x (List.mem_append_left _ hx)
      · exact (hmoved x hx).2
  · exact createContext_inv hids hrunnable hfinished hcollateral hown hs

/-- `block` -/
theorem block_inv {component : Component} {port : Port} (h : Inv o)
    (hself : findSelf o.coroutines = some self)
    (hrunning : self.id = o.running) (hworker : self.context = .worker) (hm : meets o (.block component port) = true)
    (hs : block o component port = some o') : Inv o' := by
  obtain ⟨hmem, -, hfin⟩ := findSelf_mem hself
  obtain ⟨self', hself', hs⟩ := Option.bind_eq_some_iff.mp hs
  cases hself.symm.trans hself'
  simp only at hs
  simp only [meets, Bool.or_eq_true, decide_eq_true_eq] at hm
  split at hs
  · cases hs
    exact setMarks_inv h
  · rename_i hskip
    have hm := hm.resolve_left hskip
    have hmarked : Inv (setMarks o component { o.marks component with blocked := self.id, handling := 0 }) :=
      setMarks_inv h
    have hblocked := leave_cases (f := fun x => { x with port := some port, context := .block component }) hmarked hmem
      hrunning (fun _ => rfl) rfl (fun hfinished => absurd (hfin.symm.trans hfinished) Bool.false_ne_true)
      (.inr (show self.self = self.id from own_of_worker h hmem hworker))
    have hsame := assign_collateral (f := fun x => { x with port := some port, context := .block component })
      hmarked.ids hmem
    have hids : Ids (assign (setMarks o component { o.marks component with blocked := self.id, handling := 0 }) self.id
        fun x => { x with port := some port, context := .block component }) := by
      apply assign_ids hmarked.ids
      exact fun _ => rfl
    have hown : ∀ x ∈ (assign (setMarks o component { o.marks component with blocked := self.id, handling := 0 }) self.id
        fun x => { x with port := some port, context := .block component }).coroutines ++
        (assign (setMarks o component { o.marks component with blocked := self.id, handling := 0 }) self.id
          fun x => { x with port := some port, context := .block component }).collateralBlocked, Own x := by
      intro x hx
      rcases List.mem_append.mp hx with hx | hx
      · exact (hblocked x hx).2.2
      · rw [hsame] at hx
        exact h.own x (List.mem_append_right _ hx)
    split at hs
    · rename_i hany
      refine relay_inv hids (fun x hx => (hblocked x hx).1) (fun x hx => (hblocked x hx).2.1) ?_ hown hany ?_ hs
      · rw [hsame]
        exact h.collateralBlocked
      · rw [hsame]
        exact hm
    · refine move_inv hids (fun x hx => (hblocked x hx).1) (fun x hx => (hblocked x hx).2.1) ?_ hown hs
      rw [hsame]
      exact h.collateralBlocked

theorem release_inv {component : Component} {port : Port} (h : Inv o)
    (hs : release lang o component port = some o') : Inv o' := by
  obtain ⟨self, -, hs⟩ := Option.bind_eq_some_iff.mp hs
  simp only at hs
  have hskip : Inv (if lang.skips = true ∨ (findBlocked o.coroutines port).isNone = true then
      setMarks o component { o.marks component with skip := some port } else o) := by
    split
    · exact setMarks_inv h
    · exact h
  split at hs
  · cases hs
    exact hskip
  · cases hs
    exact ⟨⟨hskip.ids.coroutines, hskip.ids.collateralBlocked, hskip.ids.disjoint, hskip.ids.bound⟩, hskip.self,
      hskip.runnable, hskip.finished, hskip.collateralBlocked, hskip.own⟩

omit [DecidableEq Component] [DecidableEq Port] in
theorem self_running (h : Inv o) (hself : findSelf o.coroutines = some self) : self.id = o.running :=
  (h.runnable self (findSelf_mem hself).1).mp (List.find?_some hself)

omit [DecidableEq Component] [DecidableEq Port] in
/-- A coroutine that was blocked gets the control, when none of the others is found. -/
theorem unblock_inv {b : Coroutine Component Port} (hids : Ids o) (hb : b ∈ o.coroutines)
    (hbport : b.port.isSome)
    (hcases : ∀ x ∈ o.coroutines, x.runnable = false ∧ (x.finished = true → x.port = none) ∧ Own x)
    (hcollateral : ∀ x ∈ o.collateralBlocked, x.finished = false ∧ Own x) :
    Inv (yieldTo (assign o b.id fun x => { x with component := none, port := none }) b.id) := by
  have hsame : (assign o b.id fun x => { x with component := none, port := none }).collateralBlocked =
      o.collateralBlocked := assign_collateral hids hb
  have hbfin : b.finished = false := by
    apply Bool.eq_false_iff.mpr
    intro hfin
    rw [(hcases b hb).2.1 hfin] at hbport
    cases hbport
  refine ⟨yieldTo_ids (assign_ids hids fun _ => rfl), ?_, ?_, ?_, ?_, ?_⟩
  · exact ⟨_, List.mem_map.mpr ⟨b, hb, rfl⟩, by rw [if_pos rfl]; rfl⟩
  · intro y hy
    obtain ⟨x, hx, -, ⟨hxid, rfl⟩ | ⟨hxid, rfl⟩⟩ := mem_assign hy fun _ => rfl
    · have hxb : x = b := List.inj_on_of_nodup_map hids.coroutines hx hb hxid
      subst hxb
      exact iff_of_true (runnable_iff.mpr ⟨rfl, hbfin⟩) rfl
    · rw [(hcases y hx).1]
      exact iff_of_false Bool.false_ne_true hxid
  · intro y hy hfin
    obtain ⟨x, hx, -, ⟨-, rfl⟩ | ⟨-, rfl⟩⟩ := mem_assign hy fun _ => rfl
    · rfl
    · exact (hcases y hx).2.1 hfin
  · intro y hy
    rw [yieldTo, hsame] at hy
    exact (hcollateral y hy).1
  · intro y hy
    rcases List.mem_append.mp hy with hy | hy
    · obtain ⟨x, hx, -, ⟨-, rfl⟩ | ⟨-, rfl⟩⟩ := mem_assign hy fun _ => rfl
      · exact (hcases x hx).2.2
      · exact (hcases y hx).2.2
    · rw [yieldTo, hsame] at hy
      exact (hcollateral y hy).2

omit [DecidableEq Component] [DecidableEq Port] in
/-- Assignments to two coroutines can be made in either order. -/
theorem assign_comm {f g : Coroutine Component Port → Coroutine Component Port} {m n : Nat}
    (hf : ∀ x, (f x).id = x.id)
    (hg : ∀ x, (g x).id = x.id) (hne : m ≠ n) : assign (assign o m f) n g = assign (assign o n g) m f := by
  have hboth : ∀ l : List (Coroutine Component Port),
      (l.map fun x => if x.id = m then f x else x).map (fun x => if x.id = n then g x else x) =
        (l.map fun x => if x.id = n then g x else x).map fun x => if x.id = m then f x else x := by
    intro l
    rw [List.map_map, List.map_map]
    apply List.map_congr_left
    intro x _
    simp only [Function.comp]
    by_cases hm : x.id = m
    · have hn : x.id ≠ n := fun h => hne (hm.symm.trans h)
      rw [if_pos hm, if_neg (by rw [hf]; exact hn), if_neg hn, if_pos hm]
    · by_cases hn : x.id = n
      · rw [if_neg hm, if_pos hn, if_neg (by rw [hg]; exact hm)]
      · rw [if_neg hm, if_neg hn, if_neg hm]
  simp only [assign, hboth]

omit [DecidableEq Component] [DecidableEq Port] in
/-- The coroutine that is running is not one of those that are spliced. -/
theorem assign_spliceBack {p : Coroutine Component Port → Bool}
    {f g : Coroutine Component Port → Coroutine Component Port}
    (h : Ids o) (hmem : self ∈ o.coroutines) (hf : ∀ x, (f x).id = x.id) :
    assign (spliceBack o p f) self.id g = spliceBack (assign o self.id g) p f := by
  have hne : ∀ x ∈ o.collateralBlocked, x.id ≠ self.id := fun x hx hid => h.disjoint self hmem x hx hid.symm
  have hspliced : ∀ x ∈ (o.collateralBlocked.filter p).reverse.map f, x.id ≠ self.id := by
    intro x hx
    obtain ⟨y, hy, rfl⟩ := List.mem_map.mp hx
    rw [hf]
    exact hne y (List.mem_filter.mp (List.mem_reverse.mp hy)).1
  simp only [assign, spliceBack, List.map_append, assign_of_ne hne, assign_of_ne hspliced]
  rw [assign_of_ne fun x hx => hne x (List.mem_filter.mp hx).1]

omit [DecidableEq Component] [DecidableEq Port] in
/-- `context_switch` -/
theorem contextSwitch_inv (h : Inv o) (hown : ∀ x ∈ o.coroutines, x.id = o.running → x.self = x.id)
    (hm : ∀ id rest, o.switchContext = id :: rest → ∃ x ∈ o.coroutines, x.id = id ∧ x.port.isSome)
    (hs : contextSwitch o = some o') : Inv o' := by
  unfold contextSwitch at hs
  split at hs
  · cases hs
    -- The coroutine that is running goes on to `worker`.
    refine assign_inv h ?_ ?_ ?_ ?_
    · exact fun _ => rfl
    · exact fun _ => rfl
    · exact fun _ => rfl
    intro x hx hxid
    apply Or.inr
    obtain ⟨self, hmem, hid⟩ := h.self
    rcases List.mem_append.mp hx with hx | hx
    · exact hown x hx hxid
    · exact absurd (hid.trans hxid.symm) (h.ids.disjoint self hmem x hx)
  · rename_i id rest hswitch
    obtain ⟨self, hself, hs⟩ := Option.bind_eq_some_iff.mp hs
    obtain ⟨b', -, hs⟩ := Option.bind_eq_some_iff.mp hs
    cases hs
    obtain ⟨hmem, hport, -⟩ := findSelf_mem hself
    have hrunning := self_running h hself
    obtain ⟨b, hb, rfl, hbport⟩ := hm _ _ hswitch
    have hne : b.id ≠ self.id := by
      intro heq
      rw [List.inj_on_of_nodup_map h.ids.coroutines hb hmem heq, hport] at hbport
      cases hbport
    have hi : Inv { o with switchContext := rest, unblocked := o.unblocked ++ [b'.port] } :=
      ⟨⟨h.ids.coroutines, h.ids.collateralBlocked, h.ids.disjoint, h.ids.bound⟩, h.self, h.runnable, h.finished,
        h.collateralBlocked, h.own⟩
    rw [assign_comm (fun x => by rfl) (fun x => by rfl) hne]
    have hcases := leave_cases (f := fun x => { x with finished := true, context := .left }) hi hmem hrunning
      (fun _ => rfl) (by simp [Coroutine.runnable]) (fun _ => hport) (.inr (show self.self = self.id from
        hown self hmem hrunning))
    apply unblock_inv _ _ hbport hcases
    · rw [assign_collateral hi.ids hmem]
      exact fun x hx => ⟨h.collateralBlocked x hx, h.own x (List.mem_append_right _ hx)⟩
    · apply assign_ids hi.ids
      exact fun _ => rfl
    · exact List.mem_map.mpr ⟨b, hb, if_neg hne⟩

/-- `collateral_release` and `context_switch` -/
theorem finish_inv (h : Inv o) (hself : findSelf o.coroutines = some self) (hworker : self.context = .worker)
    (hm : meets o .finish = true) (hs : finish o self.self = some o') : Inv o' := by
  obtain ⟨hmem, hport, -⟩ := findSelf_mem hself
  have hrunning := self_running h hself
  have hown := own_of_worker h hmem hworker
  unfold finish at hs
  split at hs
  · rename_i it hit
    cases hs
    have hit : it ∈ o.collateralBlocked := List.mem_of_find?_eq_some hit
    have hids : Ids (assign o self.id fun x => { x with finished := true, context := .left }) := by
      apply assign_ids h.ids
      exact fun _ => rfl
    have hcases := leave_cases (f := fun x => { x with finished := true, context := .left }) h hmem hrunning
      (fun _ => rfl) (by simp [Coroutine.runnable]) (fun _ => hport) (.inr (show self.self = self.id from hown))
    have hsame := assign_collateral (f := fun x => { x with finished := true, context := .left }) h.ids hmem
    -- the ids are different, so only this coroutine is taken back
    have hfilter : o.collateralBlocked.filter (fun x => x.id = it.id) = [it] := by
      have hmem' : it ∈ o.collateralBlocked.filter fun x => x.id = it.id := List.mem_filter.mpr ⟨hit, decide_eq_true rfl⟩
      apply List.perm_singleton.mp
      apply (List.perm_ext_iff_of_nodup _ (List.nodup_singleton it)).mpr
      · intro x
        rw [List.mem_singleton]
        constructor
        · intro hx
          obtain ⟨hx, hid⟩ := List.mem_filter.mp hx
          exact List.inj_on_of_nodup_map h.ids.collateralBlocked hx hit (of_decide_eq_true hid)
        · rintro rfl
          exact hmem'
      · exact (h.ids.collateralBlocked.of_map _).filter _
    rw [hown, assign_spliceBack h.ids hmem fun x => by rfl]
    refine spliceBack_inv hids ?_ rfl rfl ?_ ?_ (fun x hx => (hcases x hx).1) (fun x hx => (hcases x hx).2.1) ?_ ?_
    · exact fun _ => rfl
    · exact fun h => h
    · rw [hsame]
      exact hfilter
    · rw [hsame]
      exact h.collateralBlocked
    · intro x hx
      rcases List.mem_append.mp hx with hx | hx
      · exact (hcases x hx).2.2
      · rw [hsame] at hx
        exact h.own x (List.mem_append_right _ hx)
  · rename_i hnone
    -- no coroutine waits for an unblocked port, so the list is dropped
    have hi : Inv { o with unblocked := [] } :=
      ⟨⟨h.ids.coroutines, h.ids.collateralBlocked, h.ids.disjoint, h.ids.bound⟩, h.self, h.runnable, h.finished,
        h.collateralBlocked, h.own⟩
    apply contextSwitch_inv hi _ _ hs
    · intro x hx hid
      rw [List.inj_on_of_nodup_map h.ids.coroutines hx hmem (hid.trans hrunning.symm)]
      exact hown
    · intro id rest hswitch
      have hswitch : o.switchContext = id :: rest := hswitch
      simpa [meets, hswitch, switches, hnone] using hm

/-- The body of `create_context` up to its loop. -/
theorem start_inv (h : Inv o) (hself : findSelf o.coroutines = some self) (hcreated : self.context = .created)
    (hm : meets o .resume = true) (hs : start o = some o') : Inv o' := by
  have hrunning := self_running h hself
  obtain ⟨self', hself', hs⟩ := Option.bind_eq_some_iff.mp hs
  cases hself.symm.trans hself'
  apply contextSwitch_inv _ _ _ hs
  · refine assign_inv h ?_ ?_ ?_ ?_
    · exact fun _ => rfl
    · exact fun _ => rfl
    · exact fun _ => rfl
    · exact fun x hx hid => .inr (hid.trans hrunning.symm).symm
  · intro y hy hid
    obtain ⟨x, hx, hyx, ⟨-, rfl⟩ | ⟨hne, -⟩⟩ := mem_assign hy fun _ => rfl
    · exact hrunning.trans hid.symm
    · exact absurd (hyx.symm.trans hid) hne
  · intro id rest hswitch
    have hswitch : o.switchContext = id :: rest := hswitch
    have hany : ∃ x ∈ o.coroutines, x.id = id ∧ x.port.isSome := by
      simpa [meets, hswitch, switches, hself, hcreated] using hm
    obtain ⟨x, hx, hid, hport⟩ := hany
    refine ⟨_, List.mem_map.mpr ⟨x, hx, rfl⟩, ?_⟩
    split
    · exact ⟨hid, hport⟩
    · exact ⟨hid, hport⟩

omit [DecidableEq Component] [DecidableEq Port] in
/-- A coroutine that was suspended goes on in `worker`. -/
theorem worker_inv {component : Component} (h : Inv o) (hself : findSelf o.coroutines = some self)
    (hcontext : self.context = .block component ∨ self.context = .collateralBlock component) :
    Inv (assign o self.id fun x => { x with context := .worker }) := by
  obtain ⟨hmem, -⟩ := findSelf_mem hself
  refine assign_inv h ?_ ?_ ?_ ?_
  · exact fun _ => rfl
  · exact fun _ => rfl
  · exact fun _ => rfl
  · intro x hx hid
    rcases List.mem_append.mp hx with hx | hx
    · rw [List.inj_on_of_nodup_map h.ids.coroutines hx hmem hid]
      rcases h.own self (List.mem_append_left _ hmem) with hcreated | hown
      · rw [hcreated] at hcontext
        rcases hcontext with h | h <;> cases h
      · exact .inr hown
    · exact absurd hid.symm (h.ids.disjoint self hmem x hx)

/-- What a step preserves. -/
theorem step_inv {op : Op Component Port} (h : Inv o) (hm : meets o op = true)
    (hs : step lang o op = some o') : Inv o' := by
  obtain ⟨self, hself, hstep⟩ := Option.bind_eq_some_iff.mp hs
  clear hs
  have hrunning := self_running h hself
  rw [if_neg (not_not.mpr hrunning)] at hstep
  split at hstep
  · rename_i hcreated
    exact start_inv h hself hcreated hm hstep
  · rename_i component hblock
    cases hstep
    exact setMarks_inv (removeFinished_inv (worker_inv h hself (.inl hblock)))
  · rename_i component hblock
    exact callBody_inv (worker_inv h hself (.inr hblock)) hstep
  · rename_i hworker
    exact callIn_inv h hself hrunning hworker hstep
  · cases hstep
    exact setMarks_inv h
  · cases hstep
    exact setMarks_inv h
  · cases hstep
    exact setMarks_inv h
  · rename_i hworker
    exact block_inv h hself hrunning hworker hm hstep
  · exact release_inv h hstep
  · rename_i hworker
    exact finish_inv h hself hworker hm hstep
  · cases hstep

end Self

/-! ## Runs -/

/-- What a run preserves. -/
theorem runMeets_inv {ops : List (Op Component Port)} (h : Inv o) (hs : runMeets lang o ops = some o') :
    Inv o' := by
  apply Loop.guarded_inv (fun _ => rfl) (fun _ _ _ => rfl) ?_ h hs
  exact fun _ _ _ => step_inv

/-- Exactly one coroutine can be found, the one that is running. -/
def OneSelf (o : Pump Component Port) : Prop :=
  (o.coroutines.filter Coroutine.runnable).map (·.id) = [o.running]

omit [DecidableEq Component] [DecidableEq Port] in
theorem Inv.oneSelf (h : Inv o) : OneSelf o := by
  obtain ⟨self, hmem, hid⟩ := h.self
  have hfilter : o.coroutines.filter Coroutine.runnable = [self] := by
    apply List.perm_singleton.mp
    apply (List.perm_ext_iff_of_nodup ((h.ids.coroutines.of_map _).filter _) (List.nodup_singleton self)).mpr
    intro x
    rw [List.mem_singleton, List.mem_filter]
    constructor
    · rintro ⟨hx, hrun⟩
      exact List.inj_on_of_nodup_map h.ids.coroutines hx hmem (((h.runnable x hx).mp hrun).trans hid.symm)
    · rintro rfl
      exact ⟨hmem, (h.runnable x hmem).mpr hid⟩
  rw [OneSelf, hfilter, List.map_singleton, hid]

/-- In C++, when each switch is to a coroutine that is still blocked, and a coroutine that blocks lets at most one
collaterally blocked coroutine go on. -/
theorem one_self (ops : List (Op Component Port)) (h : runMeets cpp Pump.init ops = some o) : OneSelf o :=
  (runMeets_inv init_inv h).oneSelf

/-- Component 0 calls component 1, where the first coroutine blocks on port 9. A number of other coroutines enter
component 0. When port 9 is released, the first coroutine goes on, and the second one after it. -/
def clients (n : Nat) : List (Op Nat Nat) :=
  [.resume, .callIn 0 0, .callIn 1 9, .block 1 9] ++
    ((List.range n).map fun i => [.resume, .callIn 0 (i + 1)]).flatten ++
    [.resume, .release 1 9, .finish, .resume, .handled 1, .handled 0, .finish, .resume]

/-- With two clients, the second coroutine blocks again, and the third one goes on. -/
theorem one_self_relay : ∃ o, runMeets cpp Pump.init (clients 2 ++ [.block 0 1]) = some o ∧ o.running = 3 ∧
    OneSelf o := by
  have h : (runMeets cpp Pump.init (clients 2 ++ [.block 0 1])).map (·.running) = some 3 := by
    rfl
  obtain ⟨o, hrun, hrunning⟩ := Option.map_eq_some_iff.mp h
  exact ⟨o, hrun, hrunning, one_self _ hrun⟩

/-- With three clients, the last two of them can be found. -/
theorem two_selves : ¬ ∀ (ops : List (Op Nat Nat)) (o : Pump Nat Nat), run cpp Pump.init ops = some o →
    OneSelf o := by
  intro hall
  have h : (run cpp Pump.init (clients 3 ++ [.block 0 1])).map
      (fun o => (o.running, (o.coroutines.filter Coroutine.runnable).map (·.id))) = some (3, [4, 3]) := by
    rfl
  obtain ⟨o, hrun, heq⟩ := Option.map_eq_some_iff.mp h
  have hselves : (o.coroutines.filter Coroutine.runnable).map (·.id) = [4, 3] := congrArg Prod.snd heq
  have hone := hall _ o hrun
  rw [OneSelf, hselves] at hone
  cases (List.cons.inj hone).2

end Dezyne.Coroutines
