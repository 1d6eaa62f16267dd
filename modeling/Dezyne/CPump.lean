import Dezyne.Lib.Loop
import Mathlib.Data.List.Basic
import Mathlib.Logic.Function.Basic
/-!
# Blocking in the C pump

The C pump keeps what it knows of a coroutine that is suspended in a record on the heap. The record of a coroutine that
is blocked is in two lists from the release of its port on; it is freed before the coroutine goes on, and the other list
still has it then.
-/

namespace Dezyne.CPump

variable {Component Port : Type} [DecidableEq Component] [DecidableEq Port]

/-! ## The pump -/

/-- `port_coroutine` -/
structure Record (Port : Type) where
  port : Port
  coroutine : Nat
  id : Int

/-- Where a coroutine is in its code: in an event; at the `dzn_coroutine_yield_to` of `dzn_pump_block` or of
`dzn_pump_collateral_block`, where it has entered a component; at that of `pump_process_released`; or at that of
`handler`. -/
inductive Context (Component Port : Type) where
  | event
  | block (port : Port)
  | collateralBlock (component : Component)
  | loop
  | handler

/-- What happened in `dzn_pump_collateral_block`: the port of the record that was made, and the port of the record of the
coroutine that handles the component, if that is suspended. -/
structure Entry (Port : Type) where
  port : Port
  wanted : Option Port

/-- `dzn_pump`, the heap and the coroutines. The lists have addresses of records. The coroutines are numbered in the
order in which they are created; 0 is the one that calls `dzn_pump_run`. `since` counts the releases of the port
before the coroutine blocked that a record waits for. -/
structure Pump (Component Port : Type) where
  id : Nat
  blocked : List Nat
  collateral : List Nat
  released : List Nat
  mem : Nat → Option (Record Port)
  freed : List Nat
  next : Nat
  running : Nat
  context : Nat → Context Component Port
  ids : Nat → Int
  handling : Component → Int
  handler : Component → Option Nat
  since : Nat → Nat
  entries : Nat → Option (Entry Port)
  releases : Port → Nat
  resumed : List Nat

/-- `||` -/
def logicalOr (a b : Int) : Int := if a ≠ 0 ∨ b ≠ 0 then 1 else 0

/-- `port_predicate` -/
def portPredicate (o : Pump Component Port) (port : Port) (a : Nat) : Bool :=
  (o.mem a).any fun r => r.port = port

/-- `id_predicate` -/
def idPredicate (o : Pump Component Port) (id : Int) (a : Nat) : Bool := (o.mem a).any fun r => r.id = id

/-- `port_coroutine_create` for the coroutine that is running -/
def portCoroutineCreate (o : Pump Component Port) (port : Port) (since : Nat) : Pump Component Port :=
  { o with
    mem := Function.update o.mem o.next (some { port := port, coroutine := o.running, id := o.ids o.running })
    since := Function.update o.since o.next since
    next := o.next + 1 }

/-- A coroutine that runs `handler`: it gives the control to the one that called `dzn_pump_run`. -/
def createHandler (o : Pump Component Port) : Pump Component Port :=
  { o with
    id := o.id + 1
    ids := Function.update o.ids (o.id + 1) (o.id + 1)
    context := Function.update o.context (o.id + 1) .handler
    running := 0 }

/-- The coroutine that is running is suspended. -/
def suspend (o : Pump Component Port) (context : Context Component Port) : Pump Component Port :=
  { o with context := Function.update o.context o.running context }

/-- `dzn_pump_run` creates a coroutine that runs `worker`. -/
def pumpRun (o : Pump Component Port) : Pump Component Port :=
  { o with
    id := o.id + 1
    ids := Function.update o.ids (o.id + 1) (logicalOr (o.id + 1) (-1))
    context := Function.update o.context (o.id + 1) .event
    running := o.id + 1 }

/-- `dzn_runtime_start`; it fails when the component is handling an event. -/
def runtimeStart (o : Pump Component Port) (component : Component) : Option (Pump Component Port) :=
  if o.handling component = 0 then
    some { o with
      handling := Function.update o.handling component (logicalOr (o.ids o.running) (-1))
      handler := Function.update o.handler component (some o.running) }
  else none

/-- `handling` is reset. -/
def runtimeFinish (o : Pump Component Port) (component : Component) : Pump Component Port :=
  { o with
    handling := Function.update o.handling component 0
    handler := Function.update o.handler component none }

/-- The record of a coroutine that is blocked or collaterally blocked, when it has not been freed. -/
def recordOf (o : Pump Component Port) (coroutine : Nat) : Option Nat :=
  (o.blocked ++ o.collateral).find? fun a => a ∉ o.freed ∧ (o.mem a).any fun r => r.coroutine = coroutine

/-- The record of the coroutine that handles the component. -/
def handlerRecord (o : Pump Component Port) (component : Component) : Option Nat :=
  (o.handler component).bind (recordOf o)

/-- The record that `dzn_pump_collateral_block` finds for an `id`. -/
def findId (o : Pump Component Port) (id : Int) : Option Nat :=
  (o.blocked.find? (idPredicate o id)) <|> (o.collateral.find? (idPredicate o id))

/-- `dzn_pump_collateral_block` with the `handling` of the component; it fails when there is no record with that `id`. -/
def pumpCollateralBlock (o : Pump Component Port) (component : Component) : Option (Pump Component Port) := do
  let p ← findId o (o.handling component)
  let r ← o.mem p
  let b := handlerRecord o component
  let wanted := b.bind fun b => (o.mem b).map (·.port)
  some (createHandler (suspend
    { portCoroutineCreate o r.port (b.elim 0 o.since) with
      collateral := o.collateral ++ [o.next]
      entries := Function.update o.entries o.next (some { port := r.port, wanted := wanted }) }
    (.collateralBlock component)))

/-- `dzn_runtime_call_in` and `dzn_runtime_start`. `dzn_port_blocked_p` has no `return`: `blocked` is what its caller
gets. -/
def callIn (o : Pump Component Port) (component : Component) (blocked : Bool) :
    Option (Pump Component Port) :=
  if o.handling component ≠ 0 ∨ blocked then pumpCollateralBlock o component else runtimeStart o component

/-- `dzn_port_block` and `dzn_pump_block`. The first branch is the fall-through. -/
def pumpBlock (o : Pump Component Port) (component : Component) (port : Port) : Pump Component Port :=
  let o := runtimeFinish o component
  match o.released.find? (portPredicate o port) with
  | some p => { o with released := o.released.erase p, freed := p :: o.freed }
  | none =>
    createHandler (suspend
      { portCoroutineCreate o port (o.releases port) with blocked := o.blocked ++ [o.next] } (.block port))

/-- `dzn_pump_block` when it goes on: the record is deleted from `blocked`, when it is found there. -/
def pumpBlockContinue (o : Pump Component Port) (port : Port) : Pump Component Port :=
  match o.blocked.find? (portPredicate o port) with
  | some p => { o with blocked := o.blocked.erase p, freed := p :: o.freed }
  | none => o

/-- `dzn_pump_release` -/
def pumpRelease (o : Pump Component Port) (port : Port) : Pump Component Port :=
  let releases := Function.update o.releases port (o.releases port + 1)
  match o.blocked.find? (portPredicate o port) with
  | some p => { o with released := o.released ++ [p], releases }
  | none => { portCoroutineCreate o port 0 with released := o.released ++ [o.next], releases }

/-- `pump_process_released`: the coroutine of the first record gets the control; or else `handler` gives it away. -/
def pumpProcessReleased (o : Pump Component Port) : Option (Pump Component Port) :=
  match o.released with
  | [] => some { suspend o .handler with running := 0 }
  | p :: rest => do
    let r ← o.mem p
    some { suspend o .loop with
      released := rest ++ o.collateral.filter (portPredicate o r.port)
      collateral := o.collateral.filter fun a => !portPredicate o r.port a
      freed := p :: o.freed
      resumed := o.resumed ++ [p]
      running := r.coroutine }

inductive Op (Component Port : Type) where
  /-- `dzn_pump_run` -/
  | run
  /-- An event of a component is called. -/
  | callIn (component : Component) (blocked : Bool)
  /-- A component starts to handle an event of its queue. -/
  | handle (component : Component)
  /-- The component has handled its events. -/
  | handled (component : Component)
  | block (component : Component) (port : Port)
  | release (port : Port)
  /-- A coroutine that was suspended goes on. -/
  | resume
  /-- `pump_process_released` -/
  | processReleased
  /-- Something is written to memory that has been freed. -/
  | write (a : Nat) (r : Record Port)

/-- What the coroutine does that calls `dzn_pump_run`. -/
def mainStep (o : Pump Component Port) : Op Component Port → Option (Pump Component Port)
  | .run => if o.released = [] then some (pumpRun o) else none
  | .processReleased => pumpProcessReleased o
  | _ => none

/-- What a coroutine does that handles an event. -/
def workerStep (o : Pump Component Port) (op : Op Component Port) : Option (Pump Component Port) :=
  match o.context o.running, op with
  | .event, .callIn component blocked => callIn o component blocked
  | .event, .handle component => runtimeStart o component
  | .event, .handled component => some (runtimeFinish o component)
  | .event, .block component port => some (pumpBlock o component port)
  | .event, .release port => some (pumpRelease o port)
  | .event, .processReleased => pumpProcessReleased o
  | .loop, .processReleased => pumpProcessReleased o
  | .block port, .resume => some (suspend (pumpBlockContinue o port) .event)
  | .collateralBlock component, .resume => runtimeStart (suspend o .event) component
  | _, _ => none

/-- The pump after an operation, where it can be done. -/
def step (o : Pump Component Port) : Op Component Port → Option (Pump Component Port)
  | .write a r => if a ∈ o.freed then some { o with mem := Function.update o.mem a (some r) } else none
  | op => if o.running = 0 then mainStep o op else workerStep o op

/-- `dzn_pump_init` -/
def Pump.init : Pump Component Port :=
  { id := 0, blocked := [], collateral := [], released := [], mem := fun _ => none, freed := [], next := 0, running := 0,
    context := fun _ => .handler, ids := fun _ => -1, handling := fun _ => 0, handler := fun _ => none,
    since := fun _ => 0, entries := fun _ => none, releases := fun _ => 0, resumed := [] }

/-- The pump after a sequence of operations. -/
def run (o : Pump Component Port) : List (Op Component Port) → Option (Pump Component Port)
  | [] => some o
  | op :: ops => (step o op).bind fun o => run o ops

/-! ## The condition -/

/-- A coroutine that enters a component finds the record of the coroutine that has been suspended longest: it has not been
freed, and has the port on which the coroutine waits that handles the component. The record that
`pump_process_released` takes has not been freed. -/
def meets (o : Pump Component Port) : Op Component Port → Bool
  | .callIn component _ =>
    match handlerRecord o component, o.blocked ++ o.collateral with
    | some b, a :: _ => decide (a ∉ o.freed) && decide ((o.mem a).map (·.port) = (o.mem b).map (·.port))
    | _, _ => true
  | .processReleased =>
    match o.released with
    | [] => true
    | p :: _ => decide (p ∉ o.freed)
  | _ => true

/-- A run whose operations all meet the condition. -/
def runMeets (o : Pump Component Port) : List (Op Component Port) → Option (Pump Component Port)
  | [] => some o
  | op :: ops => if meets o op then (step o op).bind fun o => runMeets o ops else none

/-! ## What holds in such a run -/

/-- The record is of a coroutine that is blocked or collaterally blocked. -/
def Suspended (o : Pump Component Port) (a : Nat) : Prop := a ∈ o.blocked ++ o.collateral ∧ a ∉ o.freed

/-- The record is of a coroutine that is to go on. -/
def Due (o : Pump Component Port) (a : Nat) : Prop := a ∈ o.released ∧ a ∉ o.freed

structure Inv (o : Pump Component Port) : Prop where
  /-- The heap. -/
  lists : ∀ a ∈ (o.blocked ++ o.collateral) ++ (o.released ++ o.freed), a < o.next
  made : ∀ a e, o.entries a = some e → a < o.next
  kept : ∀ a e, o.entries a = some e → a ∈ o.collateral ∨ a ∈ o.released ∨ a ∈ o.freed
  gone : ∀ a ∈ o.resumed, a ∈ o.freed
  /-- Each coroutine that runs events has the same `id`, and so have the records and the components. -/
  worker : ∀ n, n ≠ 0 → o.context n ≠ .handler → o.ids n = 1
  handling : ∀ component, (o.handling component = 0 ∧ o.handler component = none) ∨ o.handling component = 1
  suspended : ∀ a, Suspended o a → ∃ r, o.mem a = some r ∧ r.id = 1 ∧ o.since a ≤ o.releases r.port
  /-- A coroutine is to go on after a release of the port, and with it all that are suspended on the port. -/
  due : ∀ a, Due o a → ∀ r, o.mem a = some r → o.since a < o.releases r.port ∧
    ∀ b, Suspended o b → ∀ s, o.mem b = some s → s.port = r.port → o.since b < o.releases s.port
  port : ∀ a e, o.entries a = some e → a ∉ o.freed → ∃ r, o.mem a = some r ∧ r.port = e.port
  wanted : ∀ a e, o.entries a = some e → ∀ q, e.wanted = some q → e.port = q
  resumed : ∀ a ∈ o.resumed, ∀ e, o.entries a = some e → o.since a < o.releases e.port

variable {o o' : Pump Component Port}

omit [DecidableEq Component] [DecidableEq Port] in
theorem init_inv : Inv (Pump.init : Pump Component Port) := by
  constructor <;> simp [Pump.init, Suspended, Due]

/-! ### The coroutines -/

omit [DecidableEq Component] [DecidableEq Port] in
/-- What has to do with the coroutines only. -/
theorem coroutine_inv {id running : Nat} {context : Nat → Context Component Port} {ids : Nat → Int}
    (h : Inv o)
    (hworker : ∀ n, n ≠ 0 → context n ≠ .handler → ids n = 1) : Inv { o with id, running, context, ids } :=
  ⟨h.lists, h.made, h.kept, h.gone, hworker, h.handling, h.suspended, h.due, h.port, h.wanted, h.resumed⟩

omit [DecidableEq Component] [DecidableEq Port] in
theorem suspend_inv {context : Context Component Port} (h : Inv o)
    (hid : o.running = 0 ∨ o.ids o.running = 1) : Inv (suspend o context) := by
  apply coroutine_inv h
  intro n hn hcontext
  by_cases hrunning : n = o.running
  · subst hrunning
    exact hid.resolve_left hn
  · rw [Function.update_of_ne hrunning] at hcontext
    exact h.worker n hn hcontext

omit [DecidableEq Component] [DecidableEq Port] in
/-- A new coroutine runs the pump, or has 1 for an `id`. -/
theorem newCoroutine_inv {context : Context Component Port} {id : Int} {running : Nat} (h : Inv o)
    (hid : context ≠ .handler → id = 1) :
    Inv { o with id := o.id + 1, ids := Function.update o.ids (o.id + 1) id,
                 context := Function.update o.context (o.id + 1) context, running } := by
  apply coroutine_inv h
  intro n hn hcontext
  by_cases hnew : n = o.id + 1
  · subst hnew
    rw [Function.update_self] at hcontext ⊢
    exact hid hcontext
  · rw [Function.update_of_ne hnew] at hcontext ⊢
    exact h.worker n hn hcontext

omit [DecidableEq Component] [DecidableEq Port] in
theorem createHandler_inv (h : Inv o) : Inv (createHandler o) := newCoroutine_inv h fun hne => absurd rfl hne

omit [DecidableEq Component] [DecidableEq Port] in
/-- `self->id || -1` is 1. -/
theorem pumpRun_inv (h : Inv o) : Inv (pumpRun o) := by
  apply newCoroutine_inv h
  intro _
  simp [logicalOr]

omit [DecidableEq Port] in
/-- `dzn_coroutine_id () || -1` is 1. -/
theorem runtimeStart_inv {component : Component} (h : Inv o) (hs : runtimeStart o component = some o') :
    Inv o' := by
  unfold runtimeStart at hs
  split at hs
  · cases hs
    refine ⟨h.lists, h.made, h.kept, h.gone, h.worker, fun c => ?_, h.suspended, h.due, h.port, h.wanted, h.resumed⟩
    simp only [Function.update_apply]
    split
    · exact .inr (by simp [logicalOr])
    · exact h.handling c
  · cases hs

omit [DecidableEq Port] in
theorem runtimeFinish_inv {component : Component} (h : Inv o) : Inv (runtimeFinish o component) := by
  refine ⟨h.lists, h.made, h.kept, h.gone, h.worker, fun c => ?_, h.suspended, h.due, h.port, h.wanted, h.resumed⟩
  simp only [runtimeFinish, Function.update_apply]
  split
  · exact .inl ⟨rfl, rfl⟩
  · exact h.handling c

/-! ### The records -/

omit [DecidableEq Component] [DecidableEq Port] in
theorem suspended_lt (h : Inv o) {a : Nat} (ha : Suspended o a) : a < o.next :=
  h.lists a (List.mem_append_left _ ha.1)

omit [DecidableEq Component] [DecidableEq Port] in
theorem due_lt (h : Inv o) {a : Nat} (ha : Due o a) : a < o.next :=
  h.lists a (List.mem_append_right _ (List.mem_append_left _ ha.1))

omit [DecidableEq Component] [DecidableEq Port] in
theorem freed_lt (h : Inv o) {a : Nat} (ha : a ∈ o.freed) : a < o.next :=
  h.lists a (List.mem_append_right _ (List.mem_append_right _ ha))

omit [DecidableEq Component] [DecidableEq Port] in
/-- A record that is made for a coroutine that is suspended. -/
theorem create_inv {port : Port} {since : Nat} {blocked collateral : List Nat}
    {entries : Nat → Option (Entry Port)} (h : Inv o) (hid : o.ids o.running = 1)
    (hlists : ∀ a ∈ blocked ++ collateral, a ∈ o.blocked ++ o.collateral ∨ a = o.next)
    (hsince : since ≤ o.releases port)
    (hdue : ∀ a, Due o a → ∀ r, o.mem a = some r → port = r.port → since < o.releases port)
    (hcollateral : ∀ a ∈ o.collateral, a ∈ collateral)
    (hentries : ∀ a e, entries a = some e → o.entries a = some e ∨
      (a = o.next ∧ a ∈ collateral ∧ e.port = port ∧ ∀ q, e.wanted = some q → port = q)) :
    Inv { portCoroutineCreate o port since with blocked, collateral, entries } := by
  have hold : ∀ {α : Type} (f : Nat → α) (v : α) {a : Nat}, a < o.next → Function.update f o.next v a = f a := by
    intro α f v a ha
    exact Function.update_of_ne (Nat.ne_of_lt ha) _ _
  -- a new record is not freed
  have hfresh : o.next ∉ o.freed := fun hmem => Nat.lt_irrefl _ (freed_lt h hmem)
  have hsus : ∀ {a : Nat}, Suspended { portCoroutineCreate o port since with blocked, collateral, entries } a →
      Suspended o a ∨ a = o.next := by
    intro a ha
    rcases hlists a ha.1 with hmem | heq
    · exact .inl ⟨hmem, ha.2⟩
    · exact .inr heq
  constructor
  case lists =>
    intro a ha
    change a < o.next + 1
    rcases List.mem_append.mp ha with ha | ha
    · rcases hlists a ha with ha | rfl
      · exact Nat.lt_succ_of_lt (h.lists a (List.mem_append_left _ ha))
      · exact Nat.lt_succ_self _
    · exact Nat.lt_succ_of_lt (h.lists a (List.mem_append_right _ ha))
  case made =>
    intro a e he
    change a < o.next + 1
    rcases hentries a e he with he | ⟨rfl, -⟩
    · exact Nat.lt_succ_of_lt (h.made a e he)
    · exact Nat.lt_succ_self _
  case kept =>
    intro a e he
    rcases hentries a e he with he | ⟨-, ha, -⟩
    · rcases h.kept a e he with ha | ha
      · exact .inl (hcollateral a ha)
      · exact .inr ha
    · exact .inl ha
  case gone => exact h.gone
  case worker => exact h.worker
  case handling => exact h.handling
  case suspended =>
    intro a ha
    rcases hsus ha with ha | rfl
    · obtain ⟨r, hr, hrid, hle⟩ := h.suspended a ha
      have hlt := suspended_lt h ha
      refine ⟨r, ?_, hrid, ?_⟩
      · exact (hold o.mem _ hlt).trans hr
      · exact Nat.le_trans (Nat.le_of_eq (hold o.since since hlt)) hle
    · refine ⟨_, Function.update_self .., hid, ?_⟩
      change Function.update o.since o.next since o.next ≤ o.releases port
      rw [Function.update_self]
      exact hsince
  case due =>
    intro a ha r hr
    have ha : Due o a := ha
    have hlt := due_lt h ha
    have hr : o.mem a = some r := (hold o.mem _ hlt).symm.trans hr
    refine ⟨Nat.lt_of_le_of_lt (Nat.le_of_eq (hold o.since since hlt)) (h.due a ha r hr).1, fun b hb t ht hport => ?_⟩
    rcases hsus hb with hb | rfl
    · have hblt := suspended_lt h hb
      have ht : o.mem b = some t := (hold o.mem _ hblt).symm.trans ht
      exact Nat.lt_of_le_of_lt (Nat.le_of_eq (hold o.since since hblt)) ((h.due a ha r hr).2 b hb t ht hport)
    · have hnew : (some { port := port, coroutine := o.running, id := o.ids o.running } : Option (Record Port)) = some t :=
        (Function.update_self (f := o.mem) ..).symm.trans ht
      cases hnew
      change Function.update o.since o.next since o.next < o.releases port
      rw [Function.update_self]
      exact hdue a ha r hr hport
  case port =>
    intro a e he hfree
    rcases hentries a e he with he | ⟨rfl, -, hport, -⟩
    · obtain ⟨r, hr, hrport⟩ := h.port a e he hfree
      exact ⟨r, (hold o.mem _ (h.made a e he)).trans hr, hrport⟩
    · exact ⟨_, Function.update_self .., hport.symm⟩
  case wanted =>
    intro a e he q hq
    rcases hentries a e he with he | ⟨-, -, hport, hwanted⟩
    · exact h.wanted a e he q hq
    · exact hport.trans (hwanted q hq)
  case resumed =>
    intro a ha e he
    have hlt := freed_lt h (h.gone a ha)
    rcases hentries a e he with he | ⟨rfl, -⟩
    · exact Nat.lt_of_le_of_lt (Nat.le_of_eq (hold o.since since hlt)) (h.resumed a ha e he)
    · exact absurd hlt (Nat.lt_irrefl _)

omit [DecidableEq Component] [DecidableEq Port] in
/-- A record that is freed, and taken out of a list. -/
theorem free_inv {blocked released : List Nat} {p : Nat} (h : Inv o) (hp : p < o.next)
    (hblocked : ∀ a ∈ blocked, a ∈ o.blocked) (hreleased : ∀ a ∈ released, a ∈ o.released)
    (hkept : ∀ a ∈ o.released, a ∈ released ∨ a = p) :
    Inv { o with blocked, released, freed := p :: o.freed } := by
  have hsus : ∀ {a : Nat}, Suspended { o with blocked, released, freed := p :: o.freed } a → Suspended o a := by
    rintro a ⟨ha, hfree⟩
    refine ⟨?_, fun hmem => hfree (List.mem_cons_of_mem _ hmem)⟩
    rcases List.mem_append.mp ha with ha | ha
    · exact List.mem_append_left _ (hblocked a ha)
    · exact List.mem_append_right _ ha
  have hdue : ∀ {a : Nat}, Due { o with blocked, released, freed := p :: o.freed } a → Due o a := by
    rintro a ⟨ha, hfree⟩
    exact ⟨hreleased a ha, fun hmem => hfree (List.mem_cons_of_mem _ hmem)⟩
  constructor
  case lists =>
    intro a ha
    rcases List.mem_append.mp ha with ha | ha
    · apply h.lists a
      rcases List.mem_append.mp ha with ha | ha
      · exact List.mem_append_left _ (List.mem_append_left _ (hblocked a ha))
      · exact List.mem_append_left _ (List.mem_append_right _ ha)
    · rcases List.mem_append.mp ha with ha | ha
      · exact h.lists a (List.mem_append_right _ (List.mem_append_left _ (hreleased a ha)))
      · rcases List.mem_cons.mp ha with rfl | ha
        · exact hp
        · exact freed_lt h ha
  case made => exact h.made
  case kept =>
    intro a e he
    rcases h.kept a e he with ha | ha | ha
    · exact .inl ha
    · rcases hkept a ha with ha | rfl
      · exact .inr (.inl ha)
      · exact .inr (.inr (List.mem_cons_self ..))
    · exact .inr (.inr (List.mem_cons_of_mem _ ha))
  case gone => exact fun a ha => List.mem_cons_of_mem _ (h.gone a ha)
  case worker => exact h.worker
  case handling => exact h.handling
  case suspended => exact fun a ha => h.suspended a (hsus ha)
  case due =>
    intro a ha r hr
    exact ⟨(h.due a (hdue ha) r hr).1, fun b hb => (h.due a (hdue ha) r hr).2 b (hsus hb)⟩
  case port => exact fun a e he hfree => h.port a e he fun hmem => hfree (List.mem_cons_of_mem _ hmem)
  case wanted => exact h.wanted
  case resumed => exact h.resumed

/-! ### The operations -/

omit [DecidableEq Component] [DecidableEq Port] in
/-- The record of the coroutine that handles the component is of one that is suspended. -/
theorem handlerRecord_suspended {component : Component} {b : Nat} (hb : handlerRecord o component = some b) :
    Suspended o b := by
  obtain ⟨n, -, hfind⟩ := Option.bind_eq_some_iff.mp hb
  have hfree : b ∉ o.freed ∧ ((o.mem b).any fun r => decide (r.coroutine = n)) = true := by
    simpa [recordOf] using List.find?_some hfind
  exact ⟨List.mem_of_find?_eq_some hfind, hfree.1⟩

omit [DecidableEq Component] [DecidableEq Port] in
/-- The record that is found is the first one, when that is of a coroutine that is suspended. -/
theorem findId_first (h : Inv o) {a : Nat} {l : List Nat} (hl : o.blocked ++ o.collateral = a :: l)
    (hfree : a ∉ o.freed) : findId o 1 = some a := by
  have ha : Suspended o a := ⟨by rw [hl]; exact List.mem_cons_self .., hfree⟩
  obtain ⟨r, hr, hid, -⟩ := h.suspended a ha
  have hfound : idPredicate o 1 a = true := by simp [idPredicate, hr, hid]
  unfold findId
  cases hblocked : o.blocked with
  | nil =>
    rw [hblocked, List.nil_append] at hl
    rw [hl, List.find?_nil, List.find?_cons_of_pos hfound]
    rfl
  | cons b blocked =>
    rw [hblocked] at hl
    cases (List.cons.inj hl).1
    rw [List.find?_cons_of_pos hfound]
    rfl

omit [DecidableEq Component] in
/-- `dzn_pump_collateral_block` -/
theorem pumpCollateralBlock_inv {component : Component} {blocked : Bool} (h : Inv o)
    (hid : o.ids o.running = 1) (hm : meets o (.callIn component blocked) = true)
    (hs : pumpCollateralBlock o component = some o') : Inv o' := by
  obtain ⟨p, hp, hs⟩ := Option.bind_eq_some_iff.mp hs
  obtain ⟨r, hr, hs⟩ := Option.bind_eq_some_iff.mp hs
  cases hs
  apply createHandler_inv
  apply suspend_inv
  rotate_left
  · exact .inr hid
  -- The port is that of the coroutine that handles the component.
  have hwanted : ∀ b, handlerRecord o component = some b →
      ∃ t, o.mem b = some t ∧ t.port = r.port ∧ o.since b ≤ o.releases r.port := by
    intro b hb
    obtain ⟨t, ht, -, hle⟩ := h.suspended b (handlerRecord_suspended hb)
    have hone : o.handling component = 1 := by
      rcases h.handling component with hzero | hone
      · rw [handlerRecord, hzero.2] at hb
        cases hb
      · exact hone
    -- all workers have the same id, so the record found is the first in the lists
    rw [hone] at hp
    have hport : t.port = r.port := by
      cases hl : o.blocked ++ o.collateral with
      | nil =>
        have := (handlerRecord_suspended hb).1
        rw [hl] at this
        cases this
      | cons a l =>
        simp only [meets, hb, hl, Bool.and_eq_true, decide_eq_true_eq] at hm
        rw [findId_first h hl hm.1] at hp
        cases hp
        rw [hr, ht] at hm
        exact (Option.some.inj hm.2).symm
    exact ⟨t, ht, hport, hport ▸ hle⟩
  have hlists : ∀ a ∈ o.blocked ++ (o.collateral ++ [o.next]), a ∈ o.blocked ++ o.collateral ∨ a = o.next := by
    intro a ha
    rw [← List.append_assoc] at ha
    rcases List.mem_append.mp ha with ha | ha
    · exact .inl ha
    · exact .inr (List.mem_singleton.mp ha)
  apply create_inv h hid hlists
  · cases hb : handlerRecord o component with
    | none => exact Nat.zero_le _
    | some b =>
      obtain ⟨t, -, -, hle⟩ := hwanted b hb
      exact hle
  · intro a ha t ht hport
    have hdue := h.due a ha t ht
    cases hb : handlerRecord o component with
    | none =>
      rw [hport]
      exact Nat.lt_of_le_of_lt (Nat.zero_le _) hdue.1
    | some b =>
      obtain ⟨u, hu, huport, -⟩ := hwanted b hb
      have hlt := hdue.2 b (handlerRecord_suspended hb) u hu (huport.trans hport)
      rw [huport] at hlt
      exact hlt
  · exact fun a ha => List.mem_append_left _ ha
  · intro a e he
    by_cases ha : a = o.next
    · subst ha
      rw [Function.update_self] at he
      cases he
      refine .inr ⟨rfl, List.mem_append_right _ (List.mem_singleton.mpr rfl), rfl, fun q hq => ?_⟩
      obtain ⟨b, hb, hq⟩ := Option.bind_eq_some_iff.mp hq
      obtain ⟨t, ht, hport, -⟩ := hwanted b hb
      rw [ht] at hq
      cases hq
      exact hport.symm
    · rw [Function.update_of_ne ha] at he
      exact .inl he

/-- `dzn_pump_block` -/
theorem pumpBlock_inv {component : Component} {port : Port} (h : Inv o) (hid : o.ids o.running = 1) :
    Inv (pumpBlock o component port) := by
  have h : Inv (runtimeFinish o component) := runtimeFinish_inv h
  unfold pumpBlock
  simp only
  split
  · rename_i p hp
    apply free_inv h
    · exact h.lists p (List.mem_append_right _ (List.mem_append_left _ (List.mem_of_find?_eq_some hp)))
    · exact fun a ha => ha
    · exact fun a ha => List.mem_of_mem_erase ha
    · intro a ha
      by_cases hap : a = p
      · exact .inr hap
      · exact .inl ((List.mem_erase_of_ne hap).mpr ha)
  · rename_i hnone
    apply createHandler_inv
    apply suspend_inv
    rotate_left
    · exact .inr hid
    apply create_inv h hid
    · intro a ha
      rcases List.mem_append.mp ha with ha | ha
      · rcases List.mem_append.mp ha with ha | ha
        · exact .inl (List.mem_append_left _ ha)
        · exact .inr (List.mem_singleton.mp ha)
      · exact .inl (List.mem_append_right _ ha)
    · exact Nat.le_refl _
    · intro a ha r hr hport
      have hno := List.find?_eq_none.mp hnone a ha.1
      simp [portPredicate, hr, hport] at hno
    · exact fun a ha => ha
    · exact fun a e he => .inl he

omit [DecidableEq Component] in
theorem pumpBlockContinue_inv {port : Port} (h : Inv o) : Inv (pumpBlockContinue o port) := by
  unfold pumpBlockContinue
  split
  · rename_i p hp
    apply free_inv h
    · exact h.lists p (List.mem_append_left _ (List.mem_append_left _ (List.mem_of_find?_eq_some hp)))
    · exact fun a ha => List.mem_of_mem_erase ha
    · exact fun a ha => ha
    · exact fun a ha => .inl ha
  · exact h

omit [DecidableEq Component] in
/-- A port is released, and a record that has it is queued. -/
theorem release_inv {port : Port} {p : Nat} (h : Inv o) (hp : p < o.next)
    (hrecord : p ∉ o.freed → ∃ r, o.mem p = some r ∧ r.port = port ∧ o.since p ≤ o.releases port) :
    Inv { o with
      released := o.released ++ [p]
      releases := Function.update o.releases port (o.releases port + 1) } := by
  have hle : ∀ q, o.releases q ≤ Function.update o.releases port (o.releases port + 1) q := by
    intro q
    rw [Function.update_apply]
    split
    · subst q
      exact Nat.le_succ _
    · exact Nat.le_refl _
  have hlt : ∀ n q, q = port → n ≤ o.releases q → n < Function.update o.releases port (o.releases port + 1) q := by
    rintro n q rfl hn
    rw [Function.update_self]
    exact Nat.lt_succ_of_le hn
  constructor
  case lists =>
    intro a ha
    rcases List.mem_append.mp ha with ha | ha
    · exact h.lists a (List.mem_append_left _ ha)
    · rcases List.mem_append.mp ha with ha | ha
      · rcases List.mem_append.mp ha with ha | ha
        · exact h.lists a (List.mem_append_right _ (List.mem_append_left _ ha))
        · rw [List.mem_singleton.mp ha]
          exact hp
      · exact freed_lt h ha
  case made => exact h.made
  case kept =>
    intro a e he
    rcases h.kept a e he with ha | ha | ha
    · exact .inl ha
    · exact .inr (.inl (List.mem_append_left _ ha))
    · exact .inr (.inr ha)
  case gone => exact h.gone
  case worker => exact h.worker
  case handling => exact h.handling
  case suspended =>
    intro a ha
    obtain ⟨r, hr, hid, hsince⟩ := h.suspended a ha
    exact ⟨r, hr, hid, Nat.le_trans hsince (hle _)⟩
  -- a release on a port is after every suspension on it
  case due =>
    rintro a ⟨ha, hfree⟩ r hr
    rcases List.mem_append.mp ha with ha | ha
    · have hdue := h.due a ⟨ha, hfree⟩ r hr
      exact ⟨Nat.lt_of_lt_of_le hdue.1 (hle _), fun b hb t ht hport => Nat.lt_of_lt_of_le (hdue.2 b hb t ht hport) (hle _)⟩
    · cases List.mem_singleton.mp ha
      obtain ⟨r', hr', hport, hsince⟩ := hrecord hfree
      cases hr.symm.trans hr'
      refine ⟨hlt _ _ hport (hport ▸ hsince), fun b hb t ht htport => ?_⟩
      obtain ⟨t', ht', -, hle'⟩ := h.suspended b hb
      cases ht.symm.trans ht'
      exact hlt _ _ (htport.trans hport) hle'
  case port => exact h.port
  case wanted => exact h.wanted
  case resumed => exact fun a ha e he => Nat.lt_of_lt_of_le (h.resumed a ha e he) (hle _)

omit [DecidableEq Component] in
/-- `dzn_pump_release` -/
theorem pumpRelease_inv {port : Port} (h : Inv o) (hid : o.ids o.running = 1) : Inv (pumpRelease o port) := by
  unfold pumpRelease
  simp only
  split
  · rename_i p hp
    have hmem := List.mem_of_find?_eq_some hp
    apply release_inv h (h.lists p (List.mem_append_left _ (List.mem_append_left _ hmem)))
    intro hfree
    obtain ⟨r, hr, -, hsince⟩ := h.suspended p ⟨List.mem_append_left _ hmem, hfree⟩
    have hport : r.port = port := by simpa [portPredicate, hr] using List.find?_some hp
    exact ⟨r, hr, hport, hport ▸ hsince⟩
  · -- No coroutine is blocked on the port: the record is of the one that is running.
    have hcreate : Inv (portCoroutineCreate o port 0) := by
      refine create_inv h hid (fun a ha => .inl ha) (Nat.zero_le _) ?_ (fun a ha => ha) fun a e he => .inl he
      intro a ha r hr hport
      rw [hport]
      exact Nat.lt_of_le_of_lt (Nat.zero_le _) (h.due a ha r hr).1
    apply release_inv hcreate
    · exact Nat.lt_succ_self _
    · refine fun _ => ⟨_, Function.update_self .., rfl, ?_⟩
      exact Nat.le_trans (Nat.le_of_eq (Function.update_self ..)) (Nat.zero_le _)

omit [DecidableEq Component] in
/-- `pump_process_released` -/
theorem pumpProcessReleased_inv (h : Inv o) (hid : o.running = 0 ∨ o.ids o.running = 1)
    (hm : meets o .processReleased = true) (hs : pumpProcessReleased o = some o') : Inv o' := by
  unfold pumpProcessReleased at hs
  split at hs
  · cases hs
    -- nothing is released: the coroutine of `handler` gives the control away
    have hsuspend : Inv (suspend o .handler) := suspend_inv h hid
    exact coroutine_inv hsuspend hsuspend.worker
  · rename_i p rest hreleased
    obtain ⟨r, hr, hs⟩ := Option.bind_eq_some_iff.mp hs
    cases hs
    simp only [meets, hreleased, decide_eq_true_eq] at hm
    have hp : Due o p := ⟨by rw [hreleased]; exact List.mem_cons_self .., hm⟩
    have hdue := h.due p hp r hr
    have hrest : ∀ a ∈ rest, a ∈ o.released := by
      intro a ha
      rw [hreleased]
      exact List.mem_cons_of_mem _ ha
    have hcollateral : ∀ {q : Nat → Bool} {a : Nat}, a ∈ o.collateral.filter q → a ∈ o.blocked ++ o.collateral :=
      fun ha => List.mem_append_right _ (List.mem_filter.mp ha).1
    have hsus : ∀ {a : Nat}, a ∈ o.blocked ++ o.collateral.filter (fun a => !portPredicate o r.port a) →
        a ∉ p :: o.freed → Suspended o a := by
      intro a ha hfree
      refine ⟨?_, fun hmem => hfree (List.mem_cons_of_mem _ hmem)⟩
      rcases List.mem_append.mp ha with ha | ha
      · exact List.mem_append_left _ ha
      · exact hcollateral ha
    have hsuspend : Inv (suspend o .loop) := suspend_inv h hid
    constructor
    case lists =>
      intro a ha
      rcases List.mem_append.mp ha with ha | ha
      · apply h.lists a
        rcases List.mem_append.mp ha with ha | ha
        · exact List.mem_append_left _ (List.mem_append_left _ ha)
        · exact List.mem_append_left _ (hcollateral ha)
      · rcases List.mem_append.mp ha with ha | ha
        · rcases List.mem_append.mp ha with ha | ha
          · exact h.lists a (List.mem_append_right _ (List.mem_append_left _ (hrest a ha)))
          · exact h.lists a (List.mem_append_left _ (hcollateral ha))
        · rcases List.mem_cons.mp ha with rfl | ha
          · exact due_lt h hp
          · exact freed_lt h ha
    case made => exact h.made
    case kept =>
      intro a e he
      rcases h.kept a e he with ha | ha | ha
      · cases hmoved : portPredicate o r.port a with
        | true => exact .inr (.inl (List.mem_append_right _ (List.mem_filter.mpr ⟨ha, hmoved⟩)))
        | false => exact .inl (List.mem_filter.mpr ⟨ha, by rw [hmoved]; rfl⟩)
      · rw [hreleased] at ha
        rcases List.mem_cons.mp ha with rfl | ha
        · exact .inr (.inr (List.mem_cons_self ..))
        · exact .inr (.inl (List.mem_append_left _ ha))
      · exact .inr (.inr (List.mem_cons_of_mem _ ha))
    case gone =>
      intro a ha
      rcases List.mem_append.mp ha with ha | ha
      · exact List.mem_cons_of_mem _ (h.gone a ha)
      · rw [List.mem_singleton.mp ha]
        exact List.mem_cons_self ..
    case worker => exact hsuspend.worker
    case handling => exact h.handling
    case suspended => exact fun a ha => h.suspended a (hsus ha.1 ha.2)
    case due =>
      rintro a ⟨ha, hfree⟩ t ht
      rcases List.mem_append.mp ha with ha | ha
      · have ha := h.due a ⟨hrest a ha, fun hmem => hfree (List.mem_cons_of_mem _ hmem)⟩ t ht
        exact ⟨ha.1, fun b hb => ha.2 b (hsus hb.1 hb.2)⟩
      · -- The coroutines that are moved wait for the port of the first record.
        have hport : t.port = r.port := by
          have ht : o.mem a = some t := ht
          simpa [portPredicate, ht] using (List.mem_filter.mp ha).2
        have hsus' : Suspended o a := ⟨hcollateral ha, fun hmem => hfree (List.mem_cons_of_mem _ hmem)⟩
        exact ⟨hdue.2 a hsus' t ht hport, fun b hb s hb' hs => hdue.2 b (hsus hb.1 hb.2) s hb' (hs.trans hport)⟩
    case port => exact fun a e he hfree => h.port a e he fun hmem => hfree (List.mem_cons_of_mem _ hmem)
    case wanted => exact h.wanted
    case resumed =>
      intro a ha e he
      rcases List.mem_append.mp ha with ha | ha
      · exact h.resumed a ha e he
      · cases List.mem_singleton.mp ha
        -- the record that is resumed has the port of its entry, since it was not freed
        obtain ⟨r', hr', hport⟩ := h.port p e he hm
        cases hr.symm.trans hr'
        rw [← hport]
        exact hdue.1

omit [DecidableEq Component] [DecidableEq Port] in
/-- What is in memory that has been freed is of no record. -/
theorem write_inv {a : Nat} {r : Record Port} (h : Inv o) (ha : a ∈ o.freed) :
    Inv { o with mem := Function.update o.mem a (some r) } := by
  have hold : ∀ {b : Nat}, b ∉ o.freed → Function.update o.mem a (some r) b = o.mem b := by
    intro b hb
    apply Function.update_of_ne
    rintro rfl
    exact hb ha
  refine ⟨h.lists, h.made, h.kept, h.gone, h.worker, h.handling, ?_, ?_, ?_, h.wanted, h.resumed⟩
  · intro b hb
    obtain ⟨t, ht, hrest⟩ := h.suspended b hb
    exact ⟨t, (hold hb.2).trans ht, hrest⟩
  · intro b hb t ht
    have hdue := h.due b hb t ((hold hb.2).symm.trans ht)
    exact ⟨hdue.1, fun c hc s hs => hdue.2 c hc s ((hold hc.2).symm.trans hs)⟩
  · intro b e he hfree
    obtain ⟨t, ht, hport⟩ := h.port b e he hfree
    exact ⟨t, (hold hfree).trans ht, hport⟩

/-- `dzn_runtime_call_in` -/
theorem callIn_inv {component : Component} {blocked : Bool} (h : Inv o) (hid : o.ids o.running = 1)
    (hm : meets o (.callIn component blocked) = true) (hs : callIn o component blocked = some o') : Inv o' := by
  unfold callIn at hs
  split at hs
  · exact pumpCollateralBlock_inv h hid hm hs
  · exact runtimeStart_inv h hs

omit [DecidableEq Component] in
theorem mainStep_inv {op : Op Component Port} (h : Inv o) (hmain : o.running = 0) (hm : meets o op = true)
    (hs : mainStep o op = some o') : Inv o' := by
  unfold mainStep at hs
  split at hs
  · split at hs
    · cases hs
      exact pumpRun_inv h
    · cases hs
  · exact pumpProcessReleased_inv h (.inl hmain) hm hs
  · cases hs

theorem workerStep_inv {op : Op Component Port} (h : Inv o) (hmain : o.running ≠ 0) (hm : meets o op = true)
    (hs : workerStep o op = some o') : Inv o' := by
  have hid : ∀ {context : Context Component Port}, o.context o.running = context → context ≠ .handler →
      o.ids o.running = 1 := by
    rintro context rfl hne
    exact h.worker _ hmain hne
  unfold workerStep at hs
  split at hs
  · rename_i hcontext
    exact callIn_inv h (hid hcontext nofun) hm hs
  · exact runtimeStart_inv h hs
  · cases hs
    exact runtimeFinish_inv h
  · rename_i hcontext
    cases hs
    exact pumpBlock_inv h (hid hcontext nofun)
  · rename_i hcontext
    cases hs
    exact pumpRelease_inv h (hid hcontext nofun)
  · rename_i hcontext
    exact pumpProcessReleased_inv h (.inr (hid hcontext nofun)) hm hs
  · rename_i hcontext
    exact pumpProcessReleased_inv h (.inr (hid hcontext nofun)) hm hs
  · rename_i hcontext
    cases hs
    have hid := hid hcontext nofun
    apply suspend_inv (pumpBlockContinue_inv h)
    unfold pumpBlockContinue
    split
    · exact .inr hid
    · exact .inr hid
  · rename_i hcontext
    exact runtimeStart_inv (suspend_inv h (.inr (hid hcontext nofun))) hs
  · cases hs

/-- What a step preserves. -/
theorem step_inv {op : Op Component Port} (h : Inv o) (hm : meets o op = true) (hs : step o op = some o') :
    Inv o' := by
  unfold step at hs
  split at hs
  · split at hs
    · rename_i hfreed
      cases hs
      exact write_inv h hfreed
    · cases hs
  · split at hs
    · rename_i hmain
      exact mainStep_inv h hmain hm hs
    · rename_i hmain
      exact workerStep_inv h hmain hm hs

/-- What a run preserves. -/
theorem runMeets_inv {ops : List (Op Component Port)} (h : Inv o) (hs : runMeets o ops = some o') :
    Inv o' := by
  apply Loop.guarded_inv (fun _ => rfl) (fun _ _ _ => rfl) ?_ h hs
  exact fun _ _ _ => step_inv

/-- Each coroutine that has entered a component that is handled by a coroutine that is suspended, waits for the port of
that coroutine, and goes on after a release of the port. -/
structure WaitsForHandler (o : Pump Component Port) : Prop where
  port : ∀ a e q, o.entries a = some e → e.wanted = some q → e.port = q
  /-- The record is in one of the lists, with the port, until it is freed. -/
  queued : ∀ a e, o.entries a = some e → a ∉ o.freed →
    (a ∈ o.collateral ∨ a ∈ o.released) ∧ ∃ r, o.mem a = some r ∧ r.port = e.port
  resumed : ∀ a e q, o.entries a = some e → e.wanted = some q → a ∈ o.resumed → o.since a < o.releases q

omit [DecidableEq Component] [DecidableEq Port] in
theorem Inv.waitsForHandler (h : Inv o) : WaitsForHandler o := by
  refine ⟨fun a e q he hq => h.wanted a e he q hq, fun a e he hfree => ⟨?_, h.port a e he hfree⟩, fun a e q he hq ha => ?_⟩
  · rcases h.kept a e he with ha | ha | ha
    · exact .inl ha
    · exact .inr ha
    · exact absurd ha hfree
  · rw [← h.wanted a e he q hq]
    exact h.resumed a ha e he

/-- Component 1 calls component 2, where a coroutine blocks on port 9; another coroutine enters component 1. -/
def enterBlocked : List (Op Nat Nat) :=
  [.run, .callIn 1 false, .callIn 2 false, .block 2 9, .processReleased, .run, .callIn 1 false, .processReleased]

end Dezyne.CPump
