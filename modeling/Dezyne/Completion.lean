import Dezyne.Lib.Memo
import Mathlib.Data.List.Basic
/-!
# The memo of run-to-completion

While a model is explored, `run-to-completion` looks a program counter and an
event up by a text of them. The text does not have the trail of the program
counter, its replies or the parameters of the interpreter, and of a program
counter with a status it has little more than the class. A run of calls gives
the results without a memo when no two different calls have the same text.
-/

namespace Dezyne.Explore

/-! ## Program counters -/

/-- The classes of `<runtime:instance>`. -/
inductive InstanceKind where
  | component | foreign | system | port
deriving DecidableEq

/-- `<runtime:instance>`, with the names from the outermost container to its own, and the id of the `<root>` of its ast. -/
structure Instance where
  kind : InstanceKind
  path : List String
  boundary : Bool
  root : Nat
deriving DecidableEq

/-- `<trigger>`, also of an action or a return; whether its port is a provides port. -/
structure Trigger where
  portName : Option String
  eventName : String
  provides : Bool
deriving DecidableEq

/-- The classes of statements that are told apart. -/
inductive StatementKind where
  | action | triggerReturn | defer | deferQout | qOut | illegal | initialCompound | other
deriving DecidableEq

/-- A statement, with its location. -/
structure Statement where
  kind : StatementKind
  trigger : Trigger
  location : Option String
deriving DecidableEq

/-- The classes of `<status>`. -/
inductive StatusKind where
  | endOfTrail | postponedMatch | blocked | compliance | deadlock | determinism | fork | illegal | implicitIllegal
  | invariant | livelock | matchError | missingReply | queueFull | range | refusals | secondReply
deriving DecidableEq

/-- `<status>` -/
structure Status where
  kind : StatusKind
  ast : Option Statement
  message : String
deriving DecidableEq

/-- The value of a variable. -/
inductive VariableValue where
  | literal (value : String)
  | enumLiteral (ids : List String) (field : String)
deriving DecidableEq

/-- `<state>` -/
structure State where
  inst : Instance
  deferred : Option Instance
  handling : Option Nat
  q : List Trigger
  reply : List (String × Option VariableValue)
  vars : List (String × VariableValue)
deriving DecidableEq

/-- `<program-counter>` -/
structure ProgramCounter where
  inst : Option Instance
  previous : Option ProgramCounter
  returned : Option VariableValue
  state : List State
  status : Option Status
  statement : Option Statement
  trail : List String
  trigger : Option Trigger
  defer : List ProgramCounter
  runningDefer : Bool
  id : Nat
  blocked : List (Instance × ProgramCounter)
  released : List Instance
  collateral : List (Instance × ProgramCounter)
  collateralInstance : Option Instance
  collateralReleased : List Instance
  externalQ : List (Instance × List Trigger)

/-- `pc->stack` -/
def ProgramCounter.stack (pc : ProgramCounter) : List ProgramCounter :=
  match hprevious : pc.previous with
  | none => []
  | some p =>
    -- what a program counter was pushed on is smaller
    have : sizeOf p < sizeOf pc := by
      cases pc
      simp only at hprevious
      subst hprevious
      simp only [ProgramCounter.mk.sizeOf_spec, Option.some.sizeOf_spec]
      omega
    pc :: p.stack
termination_by sizeOf pc

/-- `rtc-triggers` -/
def ProgramCounter.rtcTriggers (pc : ProgramCounter) : List Trigger :=
  pc.stack.filterMap ProgramCounter.trigger

/-- `rtc?` -/
def ProgramCounter.isRtc (pc : ProgramCounter) : Bool := pc.status.isSome || pc.statement.isNone

/-- `is-status?` -/
def ProgramCounter.isStatus (kind : StatusKind) (pc : ProgramCounter) : Bool :=
  pc.status.any fun s => s.kind = kind

/-! ## Texts -/

/-- `trigger->string` of a trigger -/
def Trigger.text (t : Trigger) : String :=
  let event := if t.eventName = "void" then "return" else t.eventName
  match t.portName with
  | some port => port ++ "." ++ event
  | none => event

/-- `trigger->string` of a statement -/
def Statement.triggerText (s : Statement) : String :=
  match s.kind with
  | .illegal | .initialCompound => "illegal"
  | _ => s.trigger.text

/-- `->sexp`, as `format` displays it -/
def VariableValue.sexp : VariableValue → String
  | .literal value => value
  | .enumLiteral ids field => ids.getLast?.getD "" ++ ":" ++ field

/-- `runtime:dotted-name`, where there is no `%sut` -/
def Instance.dottedName (i : Instance) : String := ".".intercalate i.path

/-- `runtime:instance->string`, where there is no `%sut` -/
def Instance.text (i : Instance) : String :=
  ".".intercalate (if i.kind = .port && i.boundary then "<external>" :: i.path else i.path)

/-- `name` of an instance, where there is no `%sut` -/
def Instance.name (i : Instance) : String := if i.path = [] then "sut" else ".".intercalate i.path

/-- `state->string` of a `<state>` -/
def State.text (s : State) : Option String :=
  let path := match s.inst.path with
    | "sut" :: path => if path = [] then ["sut"] else path
    | path => path
  let vars := s.vars.map fun v => v.1 ++ "=" ++ v.2.sexp
  let vars := if s.q = [] then vars else ("q=" ++ ",".intercalate (s.q.map Trigger.text)) :: vars
  if path ≠ ["client"] && (vars ≠ [] || s.q ≠ [] || s.handling.isSome) then
    some (".".intercalate path ++ (if path = [] then "" else ":") ++ "[" ++ ",\n".intercalate vars ++ "]" ++
      if s.handling.isSome then "\nhandling" else "")
  else none

/-- `state->string` of a `<system-state>` -/
def stateText (state : List State) : String := "\n".intercalate (state.filterMap State.text)

/-- `trigger->string` as `external-q->string` has it -/
def Trigger.queueText (t : Trigger) : String :=
  match t.portName with
  | some port => port ++ "." ++ t.eventName
  | none => t.eventName

/-- `external-q->string` -/
def externalQText (externalQ : List (Instance × List Trigger)) : String :=
  let write := fun s : String => "\"" ++ s ++ "\""
  let queue := fun q : Instance × List Trigger =>
    write q.1.name ++ " (" ++ " ".intercalate (q.2.map fun t => write t.queueText) ++ ")"
  "(" ++ " ".intercalate (externalQ.map queue) ++ ")"

/-- What is after the last `/`. -/
def afterSlash (s : String) : String := String.ofList ((s.toList.splitOn '/').getLast?.getD [])

/-- The locations of the statements of the coroutines. -/
def locationTexts (pcs : List (Instance × ProgramCounter)) : List String :=
  (pcs.flatMap fun x => x.2.stack.filterMap ProgramCounter.statement).filterMap fun s => s.location.map afterSlash

/-- A heading, where there is something under it. -/
def heading {α : Type} (text : String) (l : List α) : List String := if l.isEmpty then [] else [text]

/-- The triggers that the coroutines were called with. -/
def callerTexts (pcs : List (Instance × ProgramCounter)) : List String :=
  pcs.filterMap fun x => (x.2.previous.bind ProgramCounter.trigger).map Trigger.text

/-- `blocked-on-boundary-entries` -/
def ProgramCounter.blockedOnBoundaryEntries (pc : ProgramCounter) : List (Instance × ProgramCounter) :=
  pc.blocked.filter fun x => x.2.inst.any fun i => i.kind = .port

/-- The instance, the statement and its location, where it is an action, a return or deferred. -/
def ProgramCounter.statementTexts (pc : ProgramCounter) : List String :=
  match pc.statement with
  | none => []
  | some s =>
    let location := s.location.getD ""
    let inst := (pc.inst.map Instance.text).getD ""
    match s.kind with
    | .action | .triggerReturn => ["instance:", inst, "statement:", s.triggerText, "at:", location]
    | .defer | .deferQout => ["instance:", inst, "at:", location]
    | _ => []

/-- `pc->string`, with the texts of what is deferred -/
def ProgramCounter.textWith (deferTexts : List String) (pc : ProgramCounter) : String :=
  match pc.status with
  | some status =>
    match status.kind with
    | .illegal | .implicitIllegal => "<illegal>"
    | .queueFull => "<queue-full>"
    | _ => "<deadlock>"
  | none =>
    let boundary := pc.blockedOnBoundaryEntries
    "\n".intercalate <| stateText pc.state :: (pc.statementTexts ++
      heading "triggers:" pc.rtcTriggers ++ pc.rtcTriggers.map Trigger.text ++
      heading "blocked:" pc.blocked ++ pc.blocked.map (fun x => x.1.dottedName) ++ callerTexts pc.blocked ++
      heading "collateral:" pc.collateral ++ pc.collateral.map (fun x => x.1.dottedName) ++ callerTexts pc.collateral ++
      heading "blocked-instances:" pc.collateral ++ pc.collateral.map (fun x => (x.2.inst.map Instance.dottedName).getD "") ++
      locationTexts pc.blocked ++
      heading "collateral-instances:" pc.collateral ++
      pc.collateral.map (fun x => (x.2.inst.map Instance.dottedName).getD "") ++ locationTexts pc.collateral ++
      (pc.collateralInstance.map fun i => ["collateral-instance:", i.text]).getD [] ++
      heading "released:" pc.released ++ pc.released.map Instance.dottedName ++
      heading "collateral-released:" pc.collateralReleased ++ pc.collateralReleased.map Instance.dottedName ++
      heading "blocked-on-boundary:" boundary ++
      boundary.map (fun x => (x.2.statement.map Statement.triggerText).getD "") ++
      (if pc.externalQ.isEmpty then [] else ["ext-q:", externalQText pc.externalQ]) ++
      heading "defer:" deferTexts ++ deferTexts)

/-- `pc->string` -/
def ProgramCounter.text (pc : ProgramCounter) : String :=
  pc.textWith (pc.defer.map fun d => { d with defer := [] }.textWith [])

/-! ## Run to completion -/

/-- A list of program counters, the last one first. -/
abbrev Trace := List ProgramCounter

/-- The values of `%liveness?`. -/
inductive Liveness where
  | component | port
deriving DecidableEq

/-- The parameters of the interpreter; the threshold, which it doubles, as it is at the call. -/
structure Parameters where
  strict : Bool
  liveness : Option Liveness
  exploring : Bool
  queueSize : Nat
  queueSizeDefer : Nat
  queueSizeExternal : Nat
  livelockThreshold : Nat
deriving DecidableEq

/-- An event; `'rtc` is no event. -/
inductive CompletionEvent where
  | rtc
  | name (event : String)
  | trigger (t : Trigger)
deriving DecidableEq

/-- A call of `run-to-completion`, with the parameters it is made under. -/
structure Call where
  parameters : Parameters
  sut : Instance
  pc : ProgramCounter
  event : CompletionEvent

/-- What the steps of the interpreter do under parameters and a `%sut`. -/
structure Interpreter where
  /-- `begin-step` -/
  beginStep : Parameters → Instance → ProgramCounter → CompletionEvent → ProgramCounter
  /-- `extend-trace` of a trace whose head has no status -/
  extend : Parameters → Instance → Trace → List Trace
  /-- `switch-context` -/
  switchContext : Parameters → Instance → Trace → Trace
  /-- The traces that go on and those that are done, when all valid traces wait for a match. -/
  postponed : Parameters → Instance → List Trace → List Trace × List Trace
  /-- `run-to-completion-unmemoized`, while not exploring -/
  simulate : Parameters → Instance → ProgramCounter → List Trace → Prop

/-- The head of a trace has the status. -/
def headIs (kind : StatusKind) (t : Trace) : Bool := t.head?.any (ProgramCounter.isStatus kind)

/-- `rtc?` of a trace -/
def traceRtc (t : Trace) : Bool := t.head?.any ProgramCounter.isRtc

/-- `trace-valid?` -/
def traceValid (t : Trace) : Bool := t.head?.any fun pc => pc.status.isNone

/-- `filter-match-error` -/
def filterMatchError (traces : List Trace) : List Trace :=
  let rest := traces.filter fun t => !headIs .matchError t
  if rest = [] then traces.filter (headIs .matchError) else rest

/-- `filter-postponed-match` -/
def filterPostponedMatch (traces : List Trace) : List Trace :=
  let postponed := traces.filter (headIs .postponedMatch)
  let rest := traces.filter fun t => !headIs .postponedMatch t
  if rest.any traceValid || postponed.isEmpty then rest else postponed

/-- `filter-implicit-illegal` -/
def filterImplicitIllegal (traces : List Trace) : List Trace :=
  let rest := traces.filter fun t => !headIs .implicitIllegal t
  if rest.isEmpty then traces.filter (headIs .implicitIllegal) else rest

/-- `must-switch?` -/
def mustSwitch (sut : Instance) (t : Trace) : Bool :=
  sut.kind ≠ .port && !(t.findSome? ProgramCounter.trigger).any Trigger.provides

/-- `extend-trace`: a trace whose head has a status is as long as it gets. -/
def Interpreter.extendTrace (i : Interpreter) (c : Call) (t : Trace) : List Trace :=
  if t.head?.any fun pc => pc.status.isSome then [t] else i.extend c.parameters c.sut t

/-- `loop` of `run-to-completion-unmemoized`, while exploring; `none` when it takes longer. -/
def Interpreter.loop (i : Interpreter) (c : Call) : Nat → List Trace → Option (List Trace)
  | 0, _ => none
  | fuel + 1, traces =>
    let traces := filterImplicitIllegal (filterPostponedMatch (filterMatchError traces))
    if traces.isEmpty then some []
    else if traces.any (headIs .livelock) then some traces
    else if traces.all fun t => !headIs .postponedMatch t && (traceRtc t || headIs .matchError t) then
      let traces := traces.filter (fun t => !mustSwitch c.sut t) ++
        (traces.filter (mustSwitch c.sut)).map (i.switchContext c.parameters c.sut)
      let todo := traces.filter fun t => !traceRtc t
      (i.loop c fuel (todo.flatMap (i.extendTrace c))).map (traces.filter traceRtc ++ ·)
    else if !traces.any traceValid && traces.any (headIs .postponedMatch) then
      let (todo, done) := i.postponed c.parameters c.sut (traces.filter (headIs .postponedMatch))
      (i.loop c fuel (todo.flatMap (i.extendTrace c))).map (done ++ ·)
    else i.loop c fuel (traces.flatMap (i.extendTrace c))

/-- The program counter that a call starts with. -/
def Interpreter.startOf (i : Interpreter) (c : Call) : ProgramCounter :=
  if c.event = .rtc then c.pc else i.beginStep c.parameters c.sut c.pc c.event

/-- `run-to-completion-unmemoized` -/
def Interpreter.Returns (i : Interpreter) (c : Call) (traces : List Trace) : Prop :=
  if c.parameters.exploring then ∃ fuel, i.loop c fuel (i.extendTrace c [i.startOf c]) = some traces
  else i.simulate c.parameters c.sut (i.startOf c) traces

/-- `event-string` -/
def CompletionEvent.text : CompletionEvent → String
  | .rtc => "*rtc*"
  | .name event => event
  | .trigger t => t.text

/-- The key of `run-to-completion`; there is none while not exploring. -/
def Call.key (c : Call) : Option String :=
  if c.parameters.exploring then some (toString c.sut.root ++ c.sut.dottedName ++ c.pc.text ++ c.event.text) else none

/-- The calls of `run-to-completion` that returned, with their results and the cache. -/
abbrev Interpreter.MemoRun (i : Interpreter) : List (Call × List Trace) → Memo String (List Trace) → Prop :=
  Memo.Run Call.key i.Returns

/-! ## Calls that have ended -/

section
variable {i : Interpreter} {c : Call} {t : Trace} {traces : List Trace} {S : Call → Prop}

theorem filterMatchError_singleton (t : Trace) : filterMatchError [t] = [t] := by
  unfold filterMatchError
  cases h : headIs .matchError t <;> simp [h]

theorem filterPostponedMatch_singleton (t : Trace) : filterPostponedMatch [t] = [t] := by
  unfold filterPostponedMatch
  cases h : headIs .postponedMatch t <;> simp [h]

theorem filterImplicitIllegal_singleton (t : Trace) : filterImplicitIllegal [t] = [t] := by
  unfold filterImplicitIllegal
  cases h : headIs .implicitIllegal t <;> simp [h]

/-- A call of `'rtc` on a program counter of a port that has a status, but that of a postponed match. -/
structure Ended (c : Call) : Prop where
  exploring : c.parameters.exploring = true
  port : c.sut.kind = .port
  event : c.event = .rtc
  status : ∃ s, c.pc.status = some s ∧ s.kind ≠ .postponedMatch

theorem loop_nil (fuel : Nat) : i.loop c (fuel + 1) [] = some [] := rfl

/-- A trace that has ended is all there is. -/
theorem loop_ended (h : Ended c) (fuel : Nat) : i.loop c (fuel + 2) [[c.pc]] = some [[c.pc]] := by
  obtain ⟨s, hs, hkind⟩ := h.status
  have hpostponed : headIs .postponedMatch [c.pc] = false := by simp [headIs, ProgramCounter.isStatus, hs, hkind]
  have hrtc : traceRtc [c.pc] = true := by simp [traceRtc, ProgramCounter.isRtc, hs]
  have hswitch : mustSwitch c.sut [c.pc] = false := by simp [mustSwitch, h.port]
  unfold Interpreter.loop
  rw [filterMatchError_singleton, filterPostponedMatch_singleton, filterImplicitIllegal_singleton]
  by_cases hlivelock : headIs .livelock [c.pc] = true
  · simp [hlivelock]
  · simp [hlivelock, hpostponed, hrtc, hswitch, loop_nil]

theorem loop_ended_eq (h : Ended c) {fuel : Nat} (hloop : i.loop c fuel [[c.pc]] = some traces) :
    traces = [[c.pc]] := by
  cases fuel with
  | zero => cases hloop
  | succ fuel =>
    cases fuel with
    | succ fuel =>
      rw [loop_ended h] at hloop
      exact (Option.some.inj hloop).symm
    | zero =>
      obtain ⟨s, hs, hkind⟩ := h.status
      have hpostponed : headIs .postponedMatch [c.pc] = false := by simp [headIs, ProgramCounter.isStatus, hs, hkind]
      have hrtc : traceRtc [c.pc] = true := by simp [traceRtc, ProgramCounter.isRtc, hs]
      unfold Interpreter.loop at hloop
      rw [filterMatchError_singleton, filterPostponedMatch_singleton, filterImplicitIllegal_singleton] at hloop
      by_cases hlivelock : headIs .livelock [c.pc] = true
      · simp [hlivelock] at hloop
        exact hloop.symm
      · simp [hlivelock, hpostponed, hrtc, Interpreter.loop] at hloop

/-- Such a call gives the program counter it is made with. -/
theorem returns_ended (h : Ended c) : i.Returns c traces ↔ traces = [[c.pc]] := by
  obtain ⟨s, hs, -⟩ := id h.status
  have hstart : i.startOf c = c.pc := if_pos h.event
  have hextend : i.extendTrace c [c.pc] = [[c.pc]] := by simp [Interpreter.extendTrace, hs]
  unfold Interpreter.Returns
  rw [if_pos h.exploring, hstart, hextend]
  constructor
  · rintro ⟨fuel, hloop⟩
    exact loop_ended_eq h hloop
  · rintro rfl
    exact ⟨2, loop_ended h 0⟩

/-! ## Runs -/

/-- Different calls have different keys. -/
def Distinguished (S : Call → Prop) : Prop :=
  ∀ a b k, S a → S b → a.key = some k → b.key = some k → a = b

end

/-! ## Two calls with the same key -/

/-- An interface that is explored. -/
def interfaceSut : Instance := ⟨.port, ["sut"], false, 1⟩

/-- A program counter that has become illegal, with the trail that is left. -/
def illegalPc (trail : List String) : ProgramCounter :=
  ⟨none, none, none, [], some ⟨.illegal, none, "illegal"⟩, none, trail, none, [], false, 1, [], [], [], none, [], []⟩

def illegalCall (trail : List String) : Call :=
  ⟨⟨false, none, true, 3, 2, 1, 42⟩, interfaceSut, illegalPc trail, .rtc⟩

theorem illegalCall_ended (trail : List String) : Ended (illegalCall trail) where
  exploring := rfl
  port := rfl
  event := rfl
  status := ⟨_, rfl, by decide⟩

end Dezyne.Explore
