import Mathlib.Data.List.Nodup
import Mathlib.Logic.Function.Basic
/-!
# The coroutines of the pump

The pumps of C++ and C# run each event in a coroutine. One that blocks, or that enters a component that is busy, is
suspended until a port is released, and another coroutine goes on. The coroutine that runs is found in a list: it is
the one that has no port and is not finished.
-/

namespace Dezyne.Coroutines

variable {Component Port : Type} [DecidableEq Component] [DecidableEq Port]

/-! ## The pump -/

/-- Where a coroutine is in its code: before the body of `create_context`; in `worker`; at a `yield_to` in `block` or
`collateral_block` of a component; or at the last `yield_to`, which does not return. -/
inductive Context (Component : Type) where
  | created
  | worker
  | block (component : Component)
  | collateralBlock (component : Component)
  | left
deriving DecidableEq

/-- `dzn::coroutine`. `self` is the variable of the body of `create_context`, as a number. -/
structure Coroutine (Component Port : Type) where
  id : Nat
  component : Option Component
  port : Option Port
  finished : Bool
  context : Context Component
  self : Nat
deriving DecidableEq

/-- `coroutine_p` of `find_self` -/
def Coroutine.runnable (x : Coroutine Component Port) : Bool := x.port.isNone && !x.finished

/-- What the runtime keeps of a component. -/
structure Marks (Port : Type) where
  handling : Nat
  blocked : Nat
  skip : Option Port

/-- The pump, and the marks of the components. The functions in `switch_context` are the numbers of the coroutines that
they switch to. `running` is the coroutine that has the control. -/
structure Pump (Component Port : Type) where
  coroutines : List (Coroutine Component Port)
  collateralBlocked : List (Coroutine Component Port)
  currentCoroutine : Nat
  switchContext : List Nat
  unblocked : List (Option Port)
  marks : Component → Marks Port
  running : Nat

/-- What differs between the pumps. -/
structure Language where
  /-- The number that `collateral_block` looks for, of `handling` and `blocked` of the component. -/
  mark : Nat → Nat → Nat
  /-- `release` calls `set_skip_block` also when a coroutine is blocked on the port. -/
  skips : Bool
  /-- `call_in` calls `reset_skip_block` before `collateral_block`. -/
  resetsFirst : Bool
  /-- `call_in` throws when the component is handled by another coroutine. -/
  throws : Bool

/-- C++ -/
def cpp : Language where
  mark handling blocked := if handling ≠ 0 then handling else blocked
  skips := true
  resetsFirst := false
  throws := false

/-- C# -/
def cs : Language where
  mark handling blocked := handling ||| blocked
  skips := false
  resetsFirst := true
  throws := true

/-! ### The lists -/

/-- `find_self` -/
def findSelf (coroutines : List (Coroutine Component Port)) : Option (Coroutine Component Port) :=
  coroutines.find? Coroutine.runnable

/-- `find_blocked` -/
def findBlocked (coroutines : List (Coroutine Component Port)) (port : Port) :
    Option (Coroutine Component Port) :=
  coroutines.find? fun x => x.port = some port

/-- `remove_finished_coroutines` -/
def removeFinished (o : Pump Component Port) : Pump Component Port :=
  { o with coroutines := o.coroutines.filter fun x => !x.finished }

/-- Assigns to members of a coroutine. -/
def assign (o : Pump Component Port) (id : Nat) (f : Coroutine Component Port → Coroutine Component Port) :
    Pump Component Port :=
  { o with
    coroutines := o.coroutines.map fun x => if x.id = id then f x else x
    collateralBlocked := o.collateralBlocked.map fun x => if x.id = id then f x else x }

/-- Splices a coroutine to the end of `collateral_blocked`. -/
def spliceCollateral (o : Pump Component Port) (id : Nat) : Pump Component Port :=
  { o with
    coroutines := o.coroutines.filter fun x => x.id ≠ id
    collateralBlocked := o.collateralBlocked ++ o.coroutines.filter fun x => x.id = id }

/-- Assigns to coroutines of `collateral_blocked` and splices them to the end of `coroutines`, the last one first. -/
def spliceBack (o : Pump Component Port) (p : Coroutine Component Port → Bool)
    (f : Coroutine Component Port → Coroutine Component Port) : Pump Component Port :=
  { o with
    coroutines := o.coroutines ++ (o.collateralBlocked.filter p).reverse.map f
    collateralBlocked := o.collateralBlocked.filter fun x => !p x }

/-- `create_context` -/
def createContext (o : Pump Component Port) : Pump Component Port :=
  { o with
    coroutines := o.coroutines ++
      [{ id := o.currentCoroutine + 1, component := none, port := none, finished := false, context := .created, self := 0 }]
    currentCoroutine := o.currentCoroutine + 1 }

/-- Sets the marks of a component. -/
def setMarks (o : Pump Component Port) (component : Component) (marks : Marks Port) : Pump Component Port :=
  { o with marks := Function.update o.marks component marks }

/-- `yield_to` gives the control to a coroutine. -/
def yieldTo (o : Pump Component Port) (id : Nat) : Pump Component Port := { o with running := id }

/-- `yield_to` the last of the coroutines. -/
def yieldBack (o : Pump Component Port) : Option (Pump Component Port) :=
  o.coroutines.getLast?.map fun back => yieldTo o back.id

/-! ### What a coroutine does -/

/-- The number that `collateral_block` looks for. -/
def mark (lang : Language) (o : Pump Component Port) (component : Component) : Nat :=
  lang.mark (o.marks component).handling (o.marks component).blocked

/-- The coroutine that `collateral_block` finds after it has spliced the one that calls it. -/
def select (lang : Language) (o : Pump Component Port) (component : Component) : Option (Coroutine Component Port) := do
  let self ← findSelf o.coroutines
  (spliceCollateral o self.id).coroutines.find? fun x => x.id = mark lang o component

/-- `collateral_block`; it throws "blocking port not found". -/
def collateralBlock (lang : Language) (o : Pump Component Port) (component : Component) :
    Option (Pump Component Port) := do
  let self ← findSelf o.coroutines
  let it ← select lang o component
  let port ← it.port
  yieldBack (createContext (assign (spliceCollateral o self.id) self.id fun x =>
    { x with component := some component, port := some port, context := .collateralBlock component }))

/-- `call_in` after `collateral_block` -/
def callBody (lang : Language) (o : Pump Component Port) (component : Component) : Option (Pump Component Port) := do
  let self ← findSelf o.coroutines
  let marks := o.marks component
  if lang.throws ∧ marks.handling ≠ 0 then none
  else some (setMarks o component
    { marks with handling := self.id, skip := if lang.resetsFirst then marks.skip else none })

/-- `call_in` before that: what one of the languages does first. -/
def resetFirst (lang : Language) (o : Pump Component Port) (component : Component) : Pump Component Port :=
  if lang.resetsFirst then setMarks o component { o.marks component with skip := none } else o

/-- `call_in` -/
def callIn (lang : Language) (o : Pump Component Port) (component : Component) (port : Port) :
    Option (Pump Component Port) :=
  let o := resetFirst lang o component
  if (o.marks component).handling ≠ 0 ∨ (findBlocked o.coroutines port).isSome then collateralBlock lang o component
  else callBody lang o component

/-- Whether `collateral_release_skip_block` splices the coroutine. -/
def relay (o : Pump Component Port) (component : Component) (x : Coroutine Component Port) : Bool :=
  x.component = some component && o.unblocked.contains x.port

/-- `collateral_release_skip_block`, when there is such a coroutine. -/
def collateralReleaseSkipBlock (o : Pump Component Port) (component : Component) : Pump Component Port :=
  spliceBack o (relay o component) fun x => { x with component := none, port := none }

/-- The first coroutine that is collaterally blocked on an unblocked port. -/
def findUnblocked (o : Pump Component Port) : Option (Coroutine Component Port) :=
  o.collateralBlocked.find? fun x => o.unblocked.contains x.port

/-- `block`. The events of the queue that it handles are operations before it. -/
def block (o : Pump Component Port) (component : Component) (port : Port) : Option (Pump Component Port) := do
  let self ← findSelf o.coroutines
  let marks := { o.marks component with blocked := self.id, handling := 0 }
  if marks.skip = some port then some (setMarks o component { marks with skip := none })
  else
    let o := assign (setMarks o component marks) self.id fun x =>
      { x with port := some port, context := .block component }
    if o.collateralBlocked.any (relay o component) then yieldBack (collateralReleaseSkipBlock o component)
    else
      let o := match findUnblocked o with
        | some it => assign o it.id fun x => { x with port := some port }
        | none => o
      yieldBack (createContext o)

/-- `block` after its `yield_to` -/
def blockBody (o : Pump Component Port) (component : Component) : Pump Component Port :=
  setMarks (removeFinished o) component { o.marks component with blocked := 0, skip := none }

/-- `release` -/
def release (lang : Language) (o : Pump Component Port) (component : Component) (port : Port) :
    Option (Pump Component Port) := do
  let _ ← findSelf o.coroutines
  let blocked := findBlocked o.coroutines port
  let o := if lang.skips ∨ blocked.isNone then setMarks o component { o.marks component with skip := some port } else o
  match blocked with
  | none => some o
  | some it => some { o with switchContext := o.switchContext ++ [it.id] }

/-- `context_switch`: the function that `release` made, when there is one. -/
def contextSwitch (o : Pump Component Port) : Option (Pump Component Port) :=
  match o.switchContext with
  | [] => some (assign o o.running fun x => { x with context := .worker })
  | id :: rest => do
    let self ← findSelf o.coroutines
    let blocked ← (o.coroutines ++ o.collateralBlocked).find? fun x => x.id = id
    let o := { o with switchContext := rest, unblocked := o.unblocked ++ [blocked.port] }
    let o := assign o id fun x => { x with component := none, port := none }
    some (yieldTo (assign o self.id fun x => { x with finished := true, context := .left }) id)

/-- The body of `create_context` up to its loop. -/
def start (o : Pump Component Port) : Option (Pump Component Port) := do
  let self ← findSelf o.coroutines
  contextSwitch (assign o o.running fun x => { x with self := self.id })

/-- The body of the loop after `worker`: `collateral_release` and `context_switch`. -/
def finish (o : Pump Component Port) (self : Nat) : Option (Pump Component Port) :=
  match findUnblocked o with
  | some it =>
    let o := spliceBack o (fun x => x.id = it.id) fun x => { x with port := none }
    some (yieldTo (assign o self fun x => { x with finished := true, context := .left }) it.id)
  | none => contextSwitch { o with unblocked := [] }

/-! ### Runs -/

inductive Op (Component Port : Type) where
  /-- A coroutine goes on that has been created, or that was suspended. -/
  | resume
  /-- An event is called on a port of a component. -/
  | callIn (component : Component) (port : Port)
  /-- A component handles the events of its queue, or a deferred one. -/
  | handle (component : Component) (deferred : Bool)
  /-- A component does so before it blocks. -/
  | flush (component : Component)
  /-- The component has handled its events. -/
  | handled (component : Component)
  | block (component : Component) (port : Port)
  | release (component : Component) (port : Port)
  /-- `worker` returns. -/
  | finish

/-- The coroutine that has the control does something. It cannot go on when it does not find itself. -/
def step (lang : Language) (o : Pump Component Port) (op : Op Component Port) : Option (Pump Component Port) :=
  do
  let self ← findSelf o.coroutines
  if self.id ≠ o.running then none
  else
    match self.context, op with
    | .created, .resume => start o
    | .block component, .resume =>
      some (blockBody (assign o self.id fun x => { x with context := .worker }) component)
    | .collateralBlock component, .resume =>
      callBody lang (assign o self.id fun x => { x with context := .worker }) component
    | .worker, .callIn component port => callIn lang o component port
    | .worker, .handle component deferred =>
      some (setMarks o component
        { o.marks component with handling := if deferred then o.currentCoroutine else self.id })
    | .worker, .flush component =>
      some (setMarks o component { o.marks component with handling := self.id, blocked := self.id })
    | .worker, .handled component => some (setMarks o component { o.marks component with handling := 0 })
    | .worker, .block component port => block o component port
    | .worker, .release component port => release lang o component port
    | .worker, .finish => finish o self.self
    | _, _ => none

/-- The pump with its first coroutine. -/
def Pump.init : Pump Component Port :=
  createContext
    { coroutines := [], collateralBlocked := [], currentCoroutine := 0, switchContext := [], unblocked := [],
      marks := fun _ => { handling := 0, blocked := 0, skip := none }, running := 1 }

/-- The pump after a run. -/
def run (lang : Language) (o : Pump Component Port) : List (Op Component Port) → Option (Pump Component Port)
  | [] => some o
  | op :: ops => (step lang o op).bind fun o => run lang o ops

/-! ## The numbers of the coroutines -/

/-- Each coroutine has a number of its own. -/
structure Ids (o : Pump Component Port) : Prop where
  coroutines : (o.coroutines.map (·.id)).Nodup
  collateralBlocked : (o.collateralBlocked.map (·.id)).Nodup
  disjoint : ∀ x ∈ o.coroutines, ∀ y ∈ o.collateralBlocked, x.id ≠ y.id
  bound : ∀ x ∈ o.coroutines ++ o.collateralBlocked, x.id ≤ o.currentCoroutine

variable {lang : Language} {o o' : Pump Component Port}

omit [DecidableEq Component] [DecidableEq Port] in
theorem init_ids : Ids (Pump.init : Pump Component Port) := by
  constructor <;> simp [Pump.init, createContext]

omit [DecidableEq Component] [DecidableEq Port] in
/-- The coroutine of a number in a list. -/
theorem find_id {l : List (Coroutine Component Port)} (h : (l.map (·.id)).Nodup)
    {x : Coroutine Component Port} (hx : x ∈ l) : l.find? (fun y => y.id = x.id) = some x := by
  obtain ⟨y, hy⟩ := Option.isSome_iff_exists.mp
    (List.find?_isSome.mpr ⟨x, hx, decide_eq_true rfl⟩ : (l.find? fun y => decide (y.id = x.id)).isSome)
  have hyx : y.id = x.id := by simpa using List.find?_some hy
  rw [hy, List.inj_on_of_nodup_map h (List.mem_of_find?_eq_some hy) hx hyx]

omit [DecidableEq Component] [DecidableEq Port] in
theorem map_assign_id {id : Nat} {f : Coroutine Component Port → Coroutine Component Port}
    (hf : ∀ x, (f x).id = x.id)
    (l : List (Coroutine Component Port)) : (l.map fun x => if x.id = id then f x else x).map (·.id) = l.map (·.id) := by
  rw [List.map_map]
  apply List.map_congr_left
  intro x _
  simp only [Function.comp]
  split
  · exact hf x
  · rfl

omit [DecidableEq Component] [DecidableEq Port] in
/-- An assignment has an element for each that there was. -/
theorem mem_assign {id : Nat} {f : Coroutine Component Port → Coroutine Component Port}
    {l : List (Coroutine Component Port)} {y : Coroutine Component Port}
    (hy : y ∈ l.map fun x => if x.id = id then f x else x) (hf : ∀ x, (f x).id = x.id) :
    ∃ x ∈ l, y.id = x.id ∧ ((x.id = id ∧ y = f x) ∨ (x.id ≠ id ∧ y = x)) := by
  obtain ⟨x, hx, rfl⟩ := List.mem_map.mp hy
  by_cases h : x.id = id
  · exact ⟨x, hx, by rw [if_pos h, hf], .inl ⟨h, if_pos h⟩⟩
  · exact ⟨x, hx, by rw [if_neg h], .inr ⟨h, if_neg h⟩⟩

omit [DecidableEq Component] [DecidableEq Port] in
theorem assign_ids {id : Nat} {f : Coroutine Component Port → Coroutine Component Port} (h : Ids o)
    (hf : ∀ x, (f x).id = x.id) : Ids (assign o id f) := by
  constructor
  · exact (map_assign_id hf o.coroutines).symm ▸ h.coroutines
  · exact (map_assign_id hf o.collateralBlocked).symm ▸ h.collateralBlocked
  · intro x hx y hy
    obtain ⟨x', hx', hxid, -⟩ := mem_assign hx hf
    obtain ⟨y', hy', hyid, -⟩ := mem_assign hy hf
    rw [hxid, hyid]
    exact h.disjoint x' hx' y' hy'
  · intro x hx
    rcases List.mem_append.mp hx with hx | hx
    · obtain ⟨x', hx', hxid, -⟩ := mem_assign hx hf
      rw [hxid]
      exact h.bound x' (List.mem_append_left _ hx')
    · obtain ⟨x', hx', hxid, -⟩ := mem_assign hx hf
      rw [hxid]
      exact h.bound x' (List.mem_append_right _ hx')

omit [DecidableEq Component] [DecidableEq Port] in
theorem removeFinished_ids (h : Ids o) : Ids (removeFinished o) := by
  have hsub : (removeFinished o).coroutines.Sublist o.coroutines := List.filter_sublist
  constructor
  · exact h.coroutines.sublist (hsub.map _)
  · exact h.collateralBlocked
  · exact fun x hx => h.disjoint x (hsub.subset hx)
  · exact fun x hx => h.bound x ((hsub.append (List.Sublist.refl _)).subset hx)

omit [DecidableEq Component] [DecidableEq Port] in
theorem spliceCollateral_ids {id : Nat} (h : Ids o) : Ids (spliceCollateral o id) := by
  have hmem : ∀ x ∈ o.coroutines.filter fun x => x.id = id, x ∈ o.coroutines := fun x hx => (List.mem_filter.mp hx).1
  constructor
  · exact h.coroutines.sublist (List.filter_sublist.map _)
  · simp only [spliceCollateral, List.map_append]
    apply h.collateralBlocked.append (h.coroutines.sublist (List.filter_sublist.map _))
    intro n hn hn'
    obtain ⟨y, hy, rfl⟩ := List.mem_map.mp hn
    obtain ⟨x, hx, hxy⟩ := List.mem_map.mp hn'
    exact h.disjoint x (hmem x hx) y hy hxy
  · intro x hx y hy
    obtain ⟨hx, hne⟩ := List.mem_filter.mp hx
    rcases List.mem_append.mp hy with hy | hy
    · exact h.disjoint x hx y hy
    · rw [of_decide_eq_true (List.mem_filter.mp hy).2]
      exact of_decide_eq_true hne
  · intro x hx
    apply h.bound
    rcases List.mem_append.mp hx with hx | hx
    · exact List.mem_append_left _ (List.mem_filter.mp hx).1
    · rcases List.mem_append.mp hx with hx | hx
      · exact List.mem_append_right _ hx
      · exact List.mem_append_left _ (hmem x hx)

omit [DecidableEq Component] [DecidableEq Port] in
theorem spliceBack_ids {p : Coroutine Component Port → Bool}
    {f : Coroutine Component Port → Coroutine Component Port}
    (h : Ids o) (hf : ∀ x, (f x).id = x.id) : Ids (spliceBack o p f) := by
  have hid : (((o.collateralBlocked.filter p).reverse.map f).map (·.id)) =
      ((o.collateralBlocked.filter p).map (·.id)).reverse := by
    rw [List.map_map, ← List.map_reverse]
    exact List.map_congr_left fun x _ => hf x
  have hspliced : ∀ x ∈ (o.collateralBlocked.filter p).reverse.map f,
      ∃ y ∈ o.collateralBlocked, p y = true ∧ x.id = y.id := by
    intro x hx
    obtain ⟨y, hy, rfl⟩ := List.mem_map.mp hx
    obtain ⟨hy, hp⟩ := List.mem_filter.mp (List.mem_reverse.mp hy)
    exact ⟨y, hy, hp, hf y⟩
  constructor
  · simp only [spliceBack, List.map_append, hid]
    apply h.coroutines.append
    · exact List.nodup_reverse.mpr (h.collateralBlocked.sublist (List.filter_sublist.map _))
    · intro n hn hn'
      obtain ⟨x, hx, rfl⟩ := List.mem_map.mp hn
      obtain ⟨y, hy, hxy⟩ := List.mem_map.mp (List.mem_reverse.mp hn')
      exact h.disjoint x hx y (List.mem_filter.mp hy).1 hxy.symm
  · exact h.collateralBlocked.sublist (List.filter_sublist.map _)
  · intro x hx y hy
    obtain ⟨hy, hp⟩ := List.mem_filter.mp hy
    rcases List.mem_append.mp hx with hx | hx
    · exact h.disjoint x hx y hy
    · obtain ⟨z, hz, hpz, hxz⟩ := hspliced x hx
      intro hxy
      have hzy : z = y := List.inj_on_of_nodup_map h.collateralBlocked hz hy (hxz.symm.trans hxy)
      rw [hzy] at hpz
      simp [hpz] at hp
  · intro x hx
    rcases List.mem_append.mp hx with hx | hx
    · rcases List.mem_append.mp hx with hx | hx
      · exact h.bound x (List.mem_append_left _ hx)
      · obtain ⟨z, hz, -, hxz⟩ := hspliced x hx
        rw [hxz]
        exact h.bound z (List.mem_append_right _ hz)
    · exact h.bound x (List.mem_append_right _ (List.mem_filter.mp hx).1)

omit [DecidableEq Component] [DecidableEq Port] in
theorem createContext_ids (h : Ids o) : Ids (createContext o) := by
  have hle : ∀ x ∈ o.coroutines, x.id ≤ o.currentCoroutine := fun x hx => h.bound x (List.mem_append_left _ hx)
  constructor
  · simp only [createContext, List.map_append, List.map_cons, List.map_nil]
    apply h.coroutines.append (List.nodup_singleton _)
    intro n hn hn'
    obtain ⟨x, hx, rfl⟩ := List.mem_map.mp hn
    have := List.mem_singleton.mp hn'
    have := hle x hx
    omega
  · exact h.collateralBlocked
  · intro x hx y hy
    rcases List.mem_append.mp hx with hx | hx
    · exact h.disjoint x hx y hy
    · cases List.mem_singleton.mp hx
      have := h.bound y (List.mem_append_right _ hy)
      simp only
      omega
  · intro x hx
    change x.id ≤ o.currentCoroutine + 1
    rcases List.mem_append.mp hx with hx | hx
    · rcases List.mem_append.mp hx with hx | hx
      · exact Nat.le_succ_of_le (hle x hx)
      · cases List.mem_singleton.mp hx
        exact Nat.le_refl _
    · exact Nat.le_succ_of_le (h.bound x (List.mem_append_right _ hx))

omit [DecidableEq Port] in
theorem setMarks_ids {component : Component} {marks : Marks Port} (h : Ids o) :
    Ids (setMarks o component marks) :=
  ⟨h.coroutines, h.collateralBlocked, h.disjoint, h.bound⟩

omit [DecidableEq Component] [DecidableEq Port] in
theorem yieldTo_ids {id : Nat} (h : Ids o) : Ids (yieldTo o id) :=
  ⟨h.coroutines, h.collateralBlocked, h.disjoint, h.bound⟩

omit [DecidableEq Component] [DecidableEq Port] in
theorem yieldBack_ids (h : Ids o) (hs : yieldBack o = some o') : Ids o' := by
  obtain ⟨back, -, rfl⟩ := Option.map_eq_some_iff.mp hs
  exact yieldTo_ids h

omit [DecidableEq Component] [DecidableEq Port] in
theorem collateralBlock_ids {component : Component} (h : Ids o)
    (hs : collateralBlock lang o component = some o') : Ids o' := by
  obtain ⟨self, -, hs⟩ := Option.bind_eq_some_iff.mp hs
  obtain ⟨it, -, hs⟩ := Option.bind_eq_some_iff.mp hs
  obtain ⟨port, -, hs⟩ := Option.bind_eq_some_iff.mp hs
  apply yieldBack_ids _ hs
  apply createContext_ids
  apply assign_ids (spliceCollateral_ids h)
  exact fun _ => rfl

omit [DecidableEq Port] in
/-- A body that is called changes only the marks of its component. -/
theorem callBody_eq {component : Component} (hs : callBody lang o component = some o') :
    ∃ marks, o' = setMarks o component marks := by
  obtain ⟨self, -, hs⟩ := Option.bind_eq_some_iff.mp hs
  by_cases hthrows : lang.throws = true ∧ (o.marks component).handling ≠ 0
  · rw [if_pos hthrows] at hs
    cases hs
  · rw [if_neg hthrows] at hs
    cases hs
    exact ⟨_, rfl⟩

omit [DecidableEq Port] in
theorem callBody_ids {component : Component} (h : Ids o) (hs : callBody lang o component = some o') :
    Ids o' := by
  obtain ⟨marks, rfl⟩ := callBody_eq hs
  exact setMarks_ids h

theorem callIn_ids {component : Component} {port : Port} (h : Ids o)
    (hs : callIn lang o component port = some o') : Ids o' := by
  simp only [callIn] at hs
  have hreset : Ids (resetFirst lang o component) := by
    unfold resetFirst
    split
    · exact setMarks_ids h
    · exact h
  split at hs
  · exact collateralBlock_ids hreset hs
  · exact callBody_ids hreset hs

theorem block_ids {component : Component} {port : Port} (h : Ids o) (hs : block o component port = some o') :
    Ids o' := by
  obtain ⟨self, -, hs⟩ := Option.bind_eq_some_iff.mp hs
  simp only at hs
  split at hs
  · cases hs
    exact setMarks_ids h
  · have hassign : Ids (assign (setMarks o component { o.marks component with blocked := self.id, handling := 0 }) self.id
        fun x => { x with port := some port, context := .block component }) := by
      apply assign_ids (setMarks_ids h)
      exact fun _ => rfl
    split at hs
    · apply yieldBack_ids _ hs
      apply spliceBack_ids hassign
      exact fun _ => rfl
    · apply yieldBack_ids _ hs
      apply createContext_ids
      split
      · apply assign_ids hassign
        exact fun _ => rfl
      · exact hassign

theorem release_ids {component : Component} {port : Port} (h : Ids o)
    (hs : release lang o component port = some o') : Ids o' := by
  obtain ⟨self, -, hs⟩ := Option.bind_eq_some_iff.mp hs
  simp only at hs
  split at hs <;> cases hs <;> split <;> exact ⟨h.coroutines, h.collateralBlocked, h.disjoint, h.bound⟩

omit [DecidableEq Component] [DecidableEq Port] in
theorem contextSwitch_ids (h : Ids o) (hs : contextSwitch o = some o') : Ids o' := by
  unfold contextSwitch at hs
  split at hs
  · cases hs
    apply assign_ids h
    exact fun _ => rfl
  · obtain ⟨self, -, hs⟩ := Option.bind_eq_some_iff.mp hs
    obtain ⟨blocked, -, hs⟩ := Option.bind_eq_some_iff.mp hs
    cases hs
    apply yieldTo_ids
    apply assign_ids
    · apply assign_ids
      · exact ⟨h.coroutines, h.collateralBlocked, h.disjoint, h.bound⟩
      · exact fun _ => rfl
    · exact fun _ => rfl

omit [DecidableEq Component] in
theorem finish_ids {self : Nat} (h : Ids o) (hs : finish o self = some o') : Ids o' := by
  unfold finish at hs
  split at hs
  · cases hs
    apply yieldTo_ids
    apply assign_ids
    · apply spliceBack_ids h
      exact fun _ => rfl
    · exact fun _ => rfl
  · apply contextSwitch_ids _ hs
    exact ⟨h.coroutines, h.collateralBlocked, h.disjoint, h.bound⟩

/-- What a step of either pump preserves. -/
theorem step_ids {op : Op Component Port} (h : Ids o) (hs : step lang o op = some o') : Ids o' := by
  obtain ⟨self, -, hs⟩ := Option.bind_eq_some_iff.mp hs
  split at hs
  · cases hs
  · split at hs
    · obtain ⟨_, -, hs⟩ := Option.bind_eq_some_iff.mp hs
      apply contextSwitch_ids _ hs
      apply assign_ids h
      exact fun _ => rfl
    · cases hs
      apply setMarks_ids
      apply removeFinished_ids
      apply assign_ids h
      exact fun _ => rfl
    · apply callBody_ids _ hs
      apply assign_ids h
      exact fun _ => rfl
    · exact callIn_ids h hs
    · cases hs
      exact setMarks_ids h
    · cases hs
      exact setMarks_ids h
    · cases hs
      exact setMarks_ids h
    · exact block_ids h hs
    · exact release_ids h hs
    · exact finish_ids h hs
    · cases hs

/-- What a run preserves. -/
theorem run_ids {ops : List (Op Component Port)} (h : Ids o) (hs : run lang o ops = some o') : Ids o' := by
  induction ops generalizing o with
  | nil =>
    cases hs
    exact h
  | cons op ops ih =>
    obtain ⟨o'', hstep, hs⟩ := Option.bind_eq_some_iff.mp hs
    exact ih (step_ids h hstep) hs

/-! ## The port of `collateral_block` -/

/-- A coroutine that is blocked on a port, or collaterally blocked. -/
def Suspended (o : Pump Component Port) (x : Coroutine Component Port) : Prop :=
  (x ∈ o.coroutines ∧ x.port.isSome) ∨ x ∈ o.collateralBlocked

/-- The port that a collaterally blocked coroutine waits for. -/
def waitsFor (o : Pump Component Port) (id : Nat) : Option Port :=
  (o.collateralBlocked.find? fun x => x.id = id).bind (·.port)

omit [DecidableEq Component] [DecidableEq Port] in
theorem findSelf_mem {self : Coroutine Component Port} (hself : findSelf o.coroutines = some self) :
    self ∈ o.coroutines ∧ self.port = none ∧ self.finished = false := by
  have hrun : self.runnable = true := List.find?_some hself
  simp only [Coroutine.runnable, Bool.and_eq_true, Option.isNone_iff_eq_none, Bool.not_eq_true'] at hrun
  exact ⟨List.mem_of_find?_eq_some hself, hrun⟩

omit [DecidableEq Component] [DecidableEq Port] in
/-- `collateral_block` looks for the coroutine in `coroutines` only. -/
theorem select_iff {component : Component} {self x : Coroutine Component Port} (h : Ids o)
    (hself : findSelf o.coroutines = some self) (hx : Suspended o x) :
    select lang o component = some x ↔ x ∈ o.coroutines ∧ x.id = mark lang o component := by
  obtain ⟨hmem, hport, -⟩ := findSelf_mem hself
  have hselect : select lang o component =
      (o.coroutines.filter fun x => x.id ≠ self.id).find? fun x => x.id = mark lang o component := by
    simp only [select, hself]
    rfl
  rw [hselect]
  constructor
  · intro hfind
    have hid : x.id = mark lang o component := by simpa using List.find?_some hfind
    exact ⟨(List.mem_filter.mp (List.mem_of_find?_eq_some hfind)).1, hid⟩
  · rintro ⟨hin, hid⟩
    -- The coroutine that enters has no port, so it is not this one.
    have hne : x.id ≠ self.id := by
      intro heq
      rcases hx with hx | hx
      · rw [List.inj_on_of_nodup_map h.coroutines hin hmem heq, hport] at hx
        cases hx.2
      · exact h.disjoint self hmem x hx heq.symm
    rw [← hid]
    apply find_id (h.coroutines.sublist (List.filter_sublist.map _))
    exact List.mem_filter.mpr ⟨hin, decide_eq_true hne⟩

omit [DecidableEq Component] [DecidableEq Port] in
/-- When it finds a port, the coroutine that enters waits for it. -/
theorem collateralBlock_waits {component : Component} {self x : Coroutine Component Port} {port : Port}
    (h : Ids o) (hself : findSelf o.coroutines = some self) (hselect : select lang o component = some x)
    (hport : x.port = some port) :
    ∃ o', collateralBlock lang o component = some o' ∧ waitsFor o' self.id = some port := by
  obtain ⟨hmem, -⟩ := findSelf_mem hself
  have hblock : collateralBlock lang o component =
      yieldBack (createContext (assign (spliceCollateral o self.id) self.id fun x =>
        { x with component := some component, port := some port, context := .collateralBlock component })) := by
    simp only [collateralBlock, hself, hselect, hport, Option.bind_eq_bind, Option.bind_some]
  have hids : Ids (assign (spliceCollateral o self.id) self.id fun x =>
      { x with component := some component, port := some port, context := .collateralBlock component }) := by
    apply assign_ids (spliceCollateral_ids h)
    exact fun _ => rfl
  rw [hblock, yieldBack, createContext, List.getLast?_concat]
  refine ⟨_, rfl, ?_⟩
  -- The coroutine is now in the other list.
  have hnew : { self with component := some component, port := some port, context := Context.collateralBlock component } ∈
      (assign (spliceCollateral o self.id) self.id fun x =>
        { x with component := some component, port := some port, context := .collateralBlock component }
      ).collateralBlocked := by
    apply List.mem_map.mpr
    refine ⟨self, List.mem_append_right _ (List.mem_filter.mpr ⟨hmem, decide_eq_true rfl⟩), ?_⟩
    rw [if_pos rfl]
  have hfind := find_id hids.collateralBlocked hnew
  exact congrArg (Option.bind · Coroutine.port) hfind

/-! ### The virtual machine -/

/-- `blocked-port` of a program counter, with the numbers of the program counters that are blocked on the ports. -/
def blockedPort (blocked collateral : List (Port × Nat)) (id : Nat) : Option Port :=
  ((blocked.find? fun e => e.2 = id).map Prod.fst) <|> ((collateral.find? fun e => e.2 = id).map Prod.fst)

/-- `.blocked` or `.collateral` of the virtual machine -/
def entries (coroutines : List (Coroutine Component Port)) : List (Port × Nat) :=
  coroutines.filterMap fun x => x.port.map fun port => (port, x.id)

omit [DecidableEq Component] [DecidableEq Port] in
theorem find_entries {l : List (Coroutine Component Port)} (h : (l.map (·.id)).Nodup)
    {x : Coroutine Component Port} {port : Port} (hx : x ∈ l) (hport : x.port = some port) :
    ((entries l).find? fun e => e.2 = x.id) = some (port, x.id) := by
  have hmem : (port, x.id) ∈ entries l := List.mem_filterMap.mpr ⟨x, hx, by rw [hport]; rfl⟩
  obtain ⟨e, he⟩ := Option.isSome_iff_exists.mp
    (List.find?_isSome.mpr ⟨_, hmem, decide_eq_true rfl⟩ : ((entries l).find? fun e => decide (e.2 = x.id)).isSome)
  have hex : e.2 = x.id := by simpa using List.find?_some he
  obtain ⟨y, hy, hye⟩ := List.mem_filterMap.mp (List.mem_of_find?_eq_some he)
  obtain ⟨q, hq, rfl⟩ := Option.map_eq_some_iff.mp hye
  have hyx : y = x := List.inj_on_of_nodup_map h hy hx hex
  rw [hyx, hport] at hq
  rw [he, ← Option.some.inj hq, hyx]

variable {ops : List (Op Component Port)} {component : Component} {self x : Coroutine Component Port}

/-- A coroutine enters a component that is marked with a coroutine that is suspended. In C++ it waits for the port of
that coroutine, the one that the virtual machine selects, when it is not collaterally blocked itself. -/
theorem cpp_finds_port_iff (hrun : run cpp Pump.init ops = some o) (hself : findSelf o.coroutines = some self)
    (hx : Suspended o x) (hmark : x.id = mark cpp o component) :
    (∃ o' port, collateralBlock cpp o component = some o' ∧ waitsFor o' self.id = some port ∧ x.port = some port ∧
      blockedPort (entries o.coroutines) (entries o.collateralBlocked) (mark cpp o component) = some port) ↔
        x ∈ o.coroutines := by
  have h : Ids o := run_ids init_ids hrun
  constructor
  · rintro ⟨o', port, hblock, -⟩
    obtain ⟨self', hself', hblock⟩ := Option.bind_eq_some_iff.mp hblock
    obtain ⟨it, hit, -⟩ := Option.bind_eq_some_iff.mp hblock
    have hitmark : it.id = mark cpp o component := by
      obtain ⟨_, -, hfind⟩ := Option.bind_eq_some_iff.mp hit
      simpa using List.find?_some hfind
    have hmem : it ∈ o.coroutines := by
      obtain ⟨_, -, hfind⟩ := Option.bind_eq_some_iff.mp hit
      exact (List.mem_filter.mp (List.mem_of_find?_eq_some hfind)).1
    rcases hx with hx | hx
    · exact hx.1
    · exact absurd (hitmark.trans hmark.symm) (h.disjoint it hmem x hx)
  · intro hin
    have hselect : select cpp o component = some x := (select_iff h hself hx).mpr ⟨hin, hmark⟩
    have hport : x.port.isSome := by
      rcases hx with hx | hx
      · exact hx.2
      · exact absurd rfl (h.disjoint x hin x hx)
    obtain ⟨port, hport⟩ := Option.isSome_iff_exists.mp hport
    obtain ⟨o', hblock, hwaits⟩ := collateralBlock_waits h hself hselect hport
    refine ⟨o', port, hblock, hwaits, hport, ?_⟩
    rw [← hmark, blockedPort, find_entries h.coroutines hin hport]
    rfl

/-- The first coroutine handles an event in component 0 and is blocked in component 1 on port 9. The second one handles an
event in component 2, and then enters component 0. -/
def nested : List (Op Nat Nat) :=
  [.resume, .callIn 0 0, .callIn 1 9, .block 1 9, .resume, .callIn 2 5, .callIn 0 1, .resume]

/-- The second coroutine waits for port 9. -/
theorem cpp_finds_port_nested : ∃ o o', run cpp Pump.init (nested.take 6) = some o ∧
    collateralBlock cpp o 0 = some o' ∧ waitsFor o' 2 = some 9 := by
  have h : (run cpp Pump.init (nested.take 6)).map (fun o => (o.coroutines, mark cpp o 0)) =
      some ([⟨1, none, some 9, false, .block 1, 1⟩, ⟨2, none, none, false, .worker, 2⟩], 1) := by
    rfl
  obtain ⟨o, hrun, heq⟩ := Option.map_eq_some_iff.mp h
  have hcoroutines := congrArg Prod.fst heq
  simp only at hcoroutines
  have hself : findSelf o.coroutines = some ⟨2, none, none, false, .worker, 2⟩ := by
    rw [hcoroutines]
    rfl
  have hx : (⟨1, none, some 9, false, .block 1, 1⟩ : Coroutine Nat Nat) ∈ o.coroutines := by
    rw [hcoroutines]
    exact List.mem_cons_self ..
  obtain ⟨o', port, hblock, hwaits, hport, -⟩ :=
    (cpp_finds_port_iff hrun hself (.inl ⟨hx, rfl⟩) (congrArg Prod.snd heq).symm).mpr hx
  cases hport
  exact ⟨o, o', hrun, hblock, hwaits⟩

/-- The third coroutine enters component 2: the second one, that handles an event there, is collaterally blocked. -/
theorem cpp_port_not_found : ¬ ∀ (ops : List (Op Nat Nat)) (o : Pump Nat Nat) (self x : Coroutine Nat Nat)
    (component : Nat), run cpp Pump.init ops = some o → findSelf o.coroutines = some self → Suspended o x →
    x.id = mark cpp o component → ∃ o' port, collateralBlock cpp o component = some o' ∧
      waitsFor o' self.id = some port ∧
      blockedPort (entries o.coroutines) (entries o.collateralBlocked) (mark cpp o component) = some port := by
  intro hall
  have h : (run cpp Pump.init nested).map
      (fun o => (o.coroutines, o.collateralBlocked, mark cpp o 2, (collateralBlock cpp o 2).isSome)) =
      some ([⟨1, none, some 9, false, .block 1, 1⟩, ⟨3, none, none, false, .worker, 3⟩],
        [⟨2, some 0, some 9, false, .collateralBlock 0, 2⟩], 2, false) := by
    rfl
  obtain ⟨o, hrun, heq⟩ := Option.map_eq_some_iff.mp h
  simp only [Prod.mk.injEq] at heq
  obtain ⟨hcoroutines, hcollateral, hmark, hnone⟩ := heq
  have hself : findSelf o.coroutines = some ⟨3, none, none, false, .worker, 3⟩ := by
    rw [hcoroutines]
    rfl
  have hx : Suspended o ⟨2, some 0, some 9, false, .collateralBlock 0, 2⟩ := by
    apply Or.inr
    rw [hcollateral]
    exact List.mem_singleton.mpr rfl
  obtain ⟨o', -, hblock, -⟩ := hall _ o _ _ 2 hrun hself hx hmark.symm
  rw [hblock] at hnone
  cases hnone

/-- The first coroutine is blocked in component 0. The second one handles another event in it, and is blocked in
component 1 on port 9. -/
def handlingAndBlocked : List (Op Nat Nat) :=
  [.resume, .callIn 0 0, .block 0 0, .resume, .callIn 0 1, .callIn 1 9, .block 1 9, .resume]

end Dezyne.Coroutines
