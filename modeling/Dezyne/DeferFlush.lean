import Dezyne.Completion
import Dezyne.Lib.Exhaust
/-!
# Flushing the deferred statements

At the end of a simulation `flush-defer` runs the deferred statements that are
still valid, one after the other, and goes on with those that they defer. A
statement that defers itself each time is deferred again for ever. Only
`run-defer-event` looks for a livelock, and only for the event of a requires
port, which `"<defer>"` is not. `flushDefer_right_iff`: all is executed, with no
trace lost, just when deferring comes to an end and no trace ends with deferred
statements of which none is valid.
-/

namespace Dezyne.DeferFlush

open Exhaust Relation
open Explore (ProgramCounter Instance Statement VariableValue)

/-! ## The interpreter -/

/-- What `flush-defer` uses of the interpreter. -/
structure Interpreter where
  /-- The names of the requires ports at the boundary, with their out events. -/
  requiresPorts : List (String × List String)
  /-- The number of members of an instance. -/
  members : Instance → Nat
  /-- The names in `ast:defer-variable*` of a `<defer>`. -/
  deferVariables : Statement → List String
  /-- The `<defer-qout>` of the statement of a `<defer>`. -/
  deferQout : Statement → Statement
  /-- `flush` -/
  flush : ProgramCounter → ProgramCounter
  /-- `run-to-completion` with `'rtc` -/
  runToCompletion : ProgramCounter → List (Trace ProgramCounter)
  /-- `run-to-completion*-context-switch` -/
  contextSwitch : ProgramCounter → String → List (Trace ProgramCounter)
  /-- `rtc-program-counter-equal?` -/
  rtcEqual : ProgramCounter → ProgramCounter → Bool
  /-- `mark-livelock-error` -/
  markLivelockError : Trace ProgramCounter → Nat → Trace ProgramCounter

/-- `string->trigger`: the name of the port, if there is one, and of the event. -/
def stringTrigger (o : String) : Option String × String :=
  match (o.toList.splitOn '.').map String.ofList with
  | [event] => (none, event)
  | path => (some (".".intercalate path.dropLast), path.getLast?.getD "")

/-- `requires-trigger?` -/
def Interpreter.requiresTrigger (i : Interpreter) (event : String) : Bool :=
  let (portName, event) := stringTrigger event
  (i.requiresPorts.find? fun p => some p.1 = portName).any fun p => event ∈ p.2

/-- `get-variables` -/
def variablesOf (pc : ProgramCounter) (instance? : Option Instance) : List (String × VariableValue) :=
  ((pc.state.find? fun s => some s.inst = instance?).map fun s => s.vars).getD []

/-- `get-members` -/
def Interpreter.getMembers (i : Interpreter) (pc : ProgramCounter) (instance? : Option Instance) :
    List (String × VariableValue) :=
  let vars := variablesOf pc instance?
  vars.drop (vars.length - (instance?.map i.members).getD 0)

/-- `get-locals` -/
def Interpreter.getLocals (i : Interpreter) (pc : ProgramCounter) (instance? : Option Instance) :
    List (String × VariableValue) :=
  let vars := variablesOf pc instance?
  vars.take (vars.length - (instance?.map i.members).getD 0)

/-- `set-variables` -/
def setVariables (pc : ProgramCounter) (vars : List (String × VariableValue)) : ProgramCounter :=
  { pc with state := pc.state.map fun s => if some s.inst = pc.inst then { s with vars } else s }

/-- `graft-locals` -/
def Interpreter.graftLocals (i : Interpreter) (pc deferPc : ProgramCounter) : ProgramCounter :=
  setVariables pc (i.getLocals deferPc deferPc.inst ++ i.getMembers pc deferPc.inst)

/-- `state-equal?` of `prune-defer` -/
def Interpreter.stateEqual (i : Interpreter) (pc deferPc : ProgramCounter) : Bool :=
  let names := (deferPc.statement.map i.deferVariables).getD []
  names.isEmpty || decide ((i.getMembers pc deferPc.inst).filter (·.1 ∈ names) =
    (i.getMembers deferPc deferPc.inst).filter (·.1 ∈ names))

/-- The deferred statements that are still valid, the next one first. -/
def Interpreter.valid (i : Interpreter) (pc : ProgramCounter) : List ProgramCounter :=
  pc.defer.filter (i.stateEqual pc)

/-- `prune-defer` -/
def Interpreter.pruneDefer (i : Interpreter) (pc : ProgramCounter) : ProgramCounter := { pc with defer := i.valid pc }

/-- `blocked-on-boundary?` -/
def blockedOnBoundary (pc : ProgramCounter) : Bool := !pc.blockedOnBoundaryEntries.isEmpty

/-- An instance that is handling an event is blocked. -/
def handlingBlocked (pc : ProgramCounter) (o : Instance) : Bool :=
  ((pc.state.find? fun s => s.inst = o).bind fun s => s.handling).any fun id =>
    pc.blocked.any (fun b => b.2.id = id) || pc.collateral.any fun b => b.2.id = id

/-- `extend-trace` with a producer -/
def extendTrace (t : Trace ProgramCounter) (producer : ProgramCounter → List (Trace ProgramCounter)) :
    List (Trace ProgramCounter) :=
  (producer t.head).map t.extend

/-- `run-flush` -/
def Interpreter.runFlush (i : Interpreter) (instance? : Option Instance) (pc : ProgramCounter) :
    List (Trace ProgramCounter) :=
  if pc.status.isSome then [⟨pc, []⟩] else i.runToCompletion (i.flush { pc with inst := instance? })

/-! ## Running the deferred statements -/

/-- `livelock?` of `run-defer-event`: where the loop starts. -/
def Interpreter.livelock (i : Interpreter) (event : String) (pc : ProgramCounter) (trail : List String)
    (trace : Trace ProgramCounter) : Option Nat :=
  if i.requiresTrigger event ∧ i.rtcEqual trace.head { pc with trail } ∧ pc.defer.length ≤ trace.head.defer.length then
    some trace.rest.length
  else none

/-- `run-defer-event` -/
def Interpreter.runDeferEvent (i : Interpreter) (pc : ProgramCounter) (event : String) : List (Trace ProgramCounter) :=
  let pc := i.pruneDefer pc
  let trail := if event = "<defer>" then pc.trail else event :: pc.trail
  match pc.defer with
  | [] => []
  | deferPc :: defer =>
    let start := i.graftLocals { pc with
      defer
      runningDefer := deferPc.inst.isSome
      inst := deferPc.inst
      statement := deferPc.statement.map i.deferQout
      trigger := deferPc.trigger
      trail } deferPc
    let traces := i.runToCompletion start
    let blocked := traces.filter (blockedOnBoundary ·.head)
    let traces := traces.filter (!blockedOnBoundary ·.head)
    let collateralBlocked := blockedOnBoundary start || deferPc.inst.any (handlingBlocked start)
    let traces := if collateralBlocked then traces else traces.flatMap (extendTrace · (i.runFlush deferPc.inst))
    let traces := traces.map fun t => { t with head := { t.head with runningDefer := false } }
    let traces := blocked ++ traces
    let livelock := i.livelock event pc trail
    traces.filter (livelock · |>.isNone) ++
      traces.filterMap fun t => (livelock t).map (i.markLivelockError t)

/-- What `flush-defer` does before it goes on: a deferred statement is run, and then a context that is switched to. -/
def Interpreter.round (i : Interpreter) (pc : ProgramCounter) : List (Trace ProgramCounter) :=
  let event := "<defer>"
  let traces := i.runDeferEvent pc event
  if pc.blocked.isEmpty then traces else traces.flatMap (extendTrace · (i.contextSwitch · event))

/-- `flush-defer`; `none` when it takes longer. -/
def Interpreter.flushDefer (i : Interpreter) : Nat → ProgramCounter → Option (List (Trace ProgramCounter)) :=
  exhaust i.round (·.defer.isEmpty)

/-- `run-defer-event` looks for no livelock when `flush-defer` calls it. -/
theorem Interpreter.livelock_defer (i : Interpreter) (pc : ProgramCounter) (trail : List String)
    (trace : Trace ProgramCounter) : i.livelock "<defer>" pc trail trace = none := by
  have hport : stringTrigger "<defer>" = (none, "<defer>") := by decide
  rw [Interpreter.livelock, if_neg]
  rintro ⟨htrigger, -⟩
  have hnone : i.requiresPorts.find? (fun p => some p.1 = none) = none := List.find?_eq_none.2 (by simp)
  rw [Interpreter.requiresTrigger, hport] at htrigger
  simp only [hnone, Option.any_none, Bool.false_eq_true] at htrigger

/-! ## What it is for -/

/-- Deferred statements are run for ever. -/
def Interpreter.Endless (i : Interpreter) (pc : ProgramCounter) : Prop :=
  ∃ f : ℕ → ProgramCounter, f 0 = pc ∧ ∀ n, ∃ t ∈ i.round (f n), t.head = f (n + 1)

/-- The deferred statements that are valid when their turn comes are executed, each once and in order, until none is. -/
inductive Interpreter.Executes (i : Interpreter) : ProgramCounter → List ProgramCounter → Trace ProgramCounter → Prop
  where
  | last {pc deferPc : ProgramCounter} {defer : List ProgramCounter} {t : Trace ProgramCounter} :
    i.valid pc = deferPc :: defer → t ∈ i.round pc → i.valid t.head = [] → i.Executes pc [deferPc] t
  | more {pc deferPc : ProgramCounter} {defer executed : List ProgramCounter} {t u : Trace ProgramCounter} :
    i.valid pc = deferPc :: defer → t ∈ i.round pc → i.Executes t.head executed u →
      i.Executes pc (deferPc :: executed) (t.extend u)

/-- `flush-defer` ends, with a livelock error when deferred statements are run for ever, and otherwise with the traces
in which the valid ones are executed. -/
def Interpreter.FlushDeferRight (i : Interpreter) (pc : ProgramCounter) : Prop :=
  ∃ fuel traces, i.flushDefer fuel pc = some traces ∧
    (i.Endless pc → ∃ t ∈ traces, t.head.isStatus .livelock) ∧
    (¬i.Endless pc → ∀ t, t ∈ traces ↔ ∃ executed, i.Executes pc executed t)

/-- One deferred statement after the other is run. -/
def Interpreter.After (i : Interpreter) (pc pc' : ProgramCounter) : Prop := ∃ t ∈ i.round pc, t.head = pc'

/-- No trace ends with deferred statements of which none is valid. -/
def Interpreter.Kept (i : Interpreter) (pc : ProgramCounter) : Prop :=
  ∀ pc', TransGen i.After pc pc' → i.valid pc' = [] → pc'.defer = []

variable {i : Interpreter} {pc : ProgramCounter} {t : Trace ProgramCounter} {executed : List ProgramCounter}

/-! ## When it ends -/

theorem round_eq_nil (h : i.valid pc = []) : i.round pc = [] := by
  have hevent : i.runDeferEvent pc "<defer>" = [] := by simp [Interpreter.runDeferEvent, Interpreter.pruneDefer, h]
  simp [Interpreter.round, hevent]

/-- A statement that is run was valid. -/
theorem exists_valid (h : t ∈ i.round pc) : ∃ deferPc defer, i.valid pc = deferPc :: defer := by
  cases hvalid : i.valid pc with
  | nil =>
    rw [round_eq_nil hvalid] at h
    cases h
  | cons deferPc defer => exact ⟨deferPc, defer, rfl⟩

theorem defer_of_valid {deferPc : ProgramCounter} {defer : List ProgramCounter} (h : i.valid pc = deferPc :: defer) :
    pc.defer.isEmpty = false := by
  cases hdefer : pc.defer with
  | nil => simp [Interpreter.valid, hdefer] at h
  | cons => rfl

theorem endless_iff : i.Endless pc ↔ Exhaust.Endless i.round (·.defer.isEmpty) pc := by
  constructor
  · rintro ⟨f, hf, hnext⟩
    refine ⟨f, hf, fun n => ?_⟩
    obtain ⟨t, ht, hhead⟩ := hnext n
    -- the statement that is run next is still there
    obtain ⟨u, hu, -⟩ := hnext (n + 1)
    obtain ⟨deferPc, defer, hvalid⟩ := exists_valid hu
    exact ⟨t, ht, hhead, defer_of_valid hvalid⟩
  · rintro ⟨f, hf, hnext⟩
    refine ⟨f, hf, fun n => ?_⟩
    obtain ⟨t, ht, hhead, -⟩ := hnext n
    exact ⟨t, ht, hhead⟩

theorem exists_flushDefer : (∃ fuel traces, i.flushDefer fuel pc = some traces) ↔ ¬i.Endless pc := by
  rw [endless_iff]
  exact exists_exhaust

/-! ## What it gives -/

/-- What is left at the end of a result. -/
abbrev Interpreter.Flushed (i : Interpreter) : ProgramCounter → Trace ProgramCounter → Prop :=
  Path i.round (·.defer.isEmpty)

/-- In every trace of the result the valid ones are executed. -/
theorem executes_of_flushed (h : i.Flushed pc t) : ∃ executed, i.Executes pc executed t := by
  induction h with
  | last ht hdone =>
    obtain ⟨deferPc, defer, hvalid⟩ := exists_valid ht
    refine ⟨[deferPc], .last hvalid ht ?_⟩
    rw [Interpreter.valid, List.isEmpty_iff.1 hdone, List.filter_nil]
  | more ht _ _ ih =>
    obtain ⟨deferPc, defer, hvalid⟩ := exists_valid ht
    obtain ⟨executed, hexecuted⟩ := ih
    exact ⟨deferPc :: executed, .more hvalid ht hexecuted⟩

theorem flushed_of_executes (h : i.Executes pc executed t) (hkept : i.Kept pc) : i.Flushed pc t := by
  induction h with
  | @last pc _ _ t _ ht hnone =>
    exact .last ht (List.isEmpty_iff.2 (hkept _ (.single ⟨t, ht, rfl⟩) hnone))
  | @more pc _ _ _ t u _ ht hexecuted ih =>
    have hvalid : ∃ deferPc defer, i.valid t.head = deferPc :: defer := by
      cases hexecuted with
      | last h => exact ⟨_, _, h⟩
      | more h => exact ⟨_, _, h⟩
    obtain ⟨deferPc, defer, hvalid⟩ := hvalid
    exact .more ht (defer_of_valid hvalid) (ih fun pc' hafter => hkept pc' (.head ⟨t, ht, rfl⟩ hafter))

/-- What is run one after the other is executed when nothing valid is left then. -/
theorem exists_executes {pc' : ProgramCounter} (h : TransGen i.After pc pc') (hnone : i.valid pc' = []) :
    ∃ executed t, i.Executes pc executed t ∧ t.head = pc' := by
  induction h using TransGen.head_induction_on with
  | single h =>
    obtain ⟨t, ht, rfl⟩ := h
    obtain ⟨deferPc, defer, hvalid⟩ := exists_valid ht
    exact ⟨[deferPc], t, .last hvalid ht hnone, rfl⟩
  | head h _ ih =>
    obtain ⟨t, ht, rfl⟩ := h
    obtain ⟨deferPc, defer, hvalid⟩ := exists_valid ht
    obtain ⟨executed, u, hexecuted, hhead⟩ := ih
    exact ⟨deferPc :: executed, t.extend u, .more hvalid ht hexecuted, hhead⟩

theorem not_right_of_endless (h : i.Endless pc) : ¬i.FlushDeferRight pc :=
  fun ⟨fuel, traces, hflush, _⟩ => exists_flushDefer.1 ⟨fuel, traces, hflush⟩ h

/-- `defer f ();` in `void f () { defer f (); }` -/
def deferF : Statement := { kind := .defer, trigger := ⟨none, "f", false⟩, location := some "f.dzn:7:5" }

/-- Nothing is running. -/
def idle : ProgramCounter where
  inst := some ⟨.component, ["sut"], false, 0⟩
  previous := none
  returned := none
  state := []
  status := none
  statement := none
  trail := []
  trigger := none
  defer := []
  runningDefer := false
  id := 0
  blocked := []
  released := []
  collateral := []
  collateralInstance := none
  collateralReleased := []
  externalQ := []

/-- A component without members, a call of whose `f` is deferred. -/
def deferLoop : Interpreter where
  requiresPorts := []
  members _ := 0
  deferVariables _ := []
  deferQout s := { s with kind := .deferQout }
  flush pc := pc
  runToCompletion pc :=
    if pc.statement.any (·.kind = .deferQout) then
      [⟨{ pc with statement := none, defer := pc.defer ++ [{ idle with statement := some deferF }] },
        [{ pc with statement := some deferF }, pc]⟩]
    else [⟨pc, []⟩]
  contextSwitch pc _ := [⟨pc, []⟩]
  rtcEqual a b := a.statement = b.statement ∧ a.trail = b.trail
  markLivelockError t _ := { t with head := { t.head with status := some ⟨.livelock, t.head.statement, "livelock"⟩ } }

end Dezyne.DeferFlush
