import Dezyne.BlockedPrefix
import Mathlib.Logic.Relation
/-!
# The refusal of a return

At the end of a trail, when a provides port is blocked and a component can do
nothing more, its return is reported as a refusal. One of the tests of this has
nothing to compare with: `eq?` is called with one program counter only, so that
a coroutine that is blocked collaterally is not seen. Refusals are of a
component only, not of a system, and an action of a component on its own goes to
a port at the boundary: it never blocks collaterally.
-/

namespace Dezyne.Explore

/-! ## Contexts -/

/-- `eq?` of a program counter and what a function made of it: the same, where nothing was made. -/
def isSame (changed : Option ProgramCounter) : Bool := changed.isNone

/-- `eq?` of one argument -/
def isSameAlone (_ : ProgramCounter) : Bool := true

/-- `(is? <runtime:port>)` of the instance of an entry -/
def onPort (entry : Instance × ProgramCounter) : Bool := entry.2.inst.any fun i => i.kind = .port

/-- `blocked-on-boundary-entry?` -/
def ProgramCounter.blockedOnBoundaryEntry (pc : ProgramCounter) : Option (Instance × ProgramCounter) :=
  pc.blocked.find? onPort

/-- `blocked-on-boundary?` -/
def ProgramCounter.blockedOnBoundary (pc : ProgramCounter) : Option Instance := pc.blockedOnBoundaryEntry.map Prod.fst

/-- `blocked-on-boundary-switch-context`, where it is another program counter -/
def boundarySwitchContext (pc : ProgramCounter) : Option ProgramCounter :=
  pc.blockedOnBoundaryEntry.map fun (_, blocked) =>
    { pc with id := blocked.id, inst := blocked.inst, previous := blocked.previous, runningDefer := blocked.runningDefer
              statement := blocked.statement, trigger := blocked.trigger }

/-- `blocked-on-boundary-collateral-release`, where it is another program counter -/
def boundaryCollateralRelease (pc : ProgramCounter) : Option ProgramCounter :=
  let entry := pc.collateral.find? fun entry => entry.2.previous.any fun p => p.blockedOnBoundary.isSome
  entry.map fun (_, blocked) => { blocked with state := pc.state, trail := pc.trail }

/-- `switch-context`, where it is another program counter -/
def switchContext (pc : ProgramCounter) : Option ProgramCounter :=
  let blocked := pc.released.head?.bind fun port => pc.blocked.lookup port
  if pc.status.isSome then none
  else
    match blocked with
    | some released => some
      { pc with id := released.id, inst := released.inst, previous := released.previous, statement := released.statement
                trigger := released.trigger }
    | none =>
      match pc.collateralReleased with
      | [] => none
      | port :: _ => (pc.collateral.lookup port).map fun released =>
        { pc with id := released.id, collateral := pc.collateral.filter fun entry => entry.1 ≠ port
                  collateralInstance := released.inst
                  collateralReleased := pc.collateralReleased.filter fun p => p ≠ port
                  inst := released.inst, previous := released.previous, statement := released.statement
                  trigger := released.trigger }

/-! ## Refusals -/

/-- A modeling LTS: for each node the trails of its traces. -/
abbrev ModelingLts := List (List (List String))

/-- `modeling-lts-stable?` -/
def modelingLtsStable (lts : ModelingLts) : Bool :=
  let inevitableObservable := fun trail : List String => match trail with
    | "inevitable" :: _ :: _ => true
    | _ => false
  lts.any fun traces => !traces.any inevitableObservable

/-- `modeling-lts->observables` -/
def modelingLtsObservables (lts : ModelingLts) : List (String × String) :=
  lts.flatMap fun traces => traces.filterMap fun trail =>
    match trail with
    | modeling :: observable :: _ =>
      if modeling = "inevitable" ∨ modeling = "optional" then some (modeling, observable) else none
    | _ => none

/-- The ports of a `<component>`; which of its requires ports are external. -/
structure Component where
  provides : List String
  requires : List String
  externals : List String

/-- `.refusals` of a `<refusals-error>` -/
inductive Refusals where
  | pendingReturn (trigger : Trigger)
  | observables (refusals : List (String × String))
deriving DecidableEq

section
variable (modelingLts : String → ProgramCounter → ModelingLts) (component : Component)

/-- `port-lts-stable?` -/
def portLtsStable (pc : ProgramCounter) (port : String) : Bool := modelingLtsStable (modelingLts port pc)

/-- `requires-ports-stable?` -/
def requiresPortsStable (pc : ProgramCounter) : Bool := component.requires.all (portLtsStable modelingLts pc)

/-- `port-refusals` -/
def portRefusals (pc : ProgramCounter) (port : String) : List (String × String) :=
  (modelingLtsObservables (modelingLts port pc)).map fun (modeling, action) => (modeling, port ++ "." ++ action)

/-- `(compose pair? .blocked car)` -/
def headBlocked (trace : Trace) : Bool := trace.head?.any fun pc => !pc.blocked.isEmpty

/-- `(compose blocked-on-boundary? car)` -/
def headBlockedOnBoundary (trace : Trace) : Bool := trace.head?.any fun pc => pc.blockedOnBoundary.isSome

/-- The trigger of the component that the first blocked trace begins with. -/
def blockedTrigger (traces : List Trace) : Option Trigger :=
  (traces.find? headBlocked).bind fun trace =>
    (trace.reverse.find? fun pc => pc.trigger.isSome && pc.inst.any fun i => i.kind = .component).bind
      ProgramCounter.trigger

/-- The tests of `refusals-report` for the return of a blocked port. -/
def returnRefused (fromPcs : List ProgramCounter) (pc : ProgramCounter) (traces : List Trace) : Bool :=
  fromPcs.length = 1 &&
  traces.any headBlocked &&
  (fromPcs.head?.all fun pc => pc.externalQ.isEmpty) &&
  requiresPortsStable modelingLts component pc &&
  isSame (switchContext pc) &&
  isSame (boundarySwitchContext pc) &&
  isSameAlone ((boundaryCollateralRelease pc).getD pc) &&
  !traces.any headBlockedOnBoundary

/-- The second part of `refusals-report`, at the program counter that the traces end in. -/
def observableRefusals (fromPcs : List ProgramCounter) (pc : ProgramCounter) : Option Refusals :=
  if fromPcs.length = 1 ∧ (∀ pc ∈ fromPcs.head?, pc.externalQ = []) ∧ requiresPortsStable modelingLts component pc ∧
      pc.defer.isEmpty then
    let instable := component.provides.find? fun port => !portLtsStable modelingLts pc port
    match instable.map (portRefusals modelingLts pc) with
    | some (refusal :: refusals) => some (.observables (refusal :: refusals))
    | _ => none
  else none

/-- `refusals-report`: what is reported, or an exception. -/
def refusalsReport (fromPcs : List ProgramCounter) (pc : ProgramCounter) (traces : List Trace) :
    Except String (Option Refusals) :=
  if returnRefused modelingLts component fromPcs pc traces then
    match blockedTrigger traces with
    | some trigger => .ok (some (.pendingReturn trigger))
    | none => .error "No applicable method for .trigger"
  else
    let pcs := if traces = [] then fromPcs else traces.filterMap List.head?
    match pcs with
    | [] => .error "Wrong type argument for car"
    | pc :: _ => .ok (observableRefusals modelingLts component fromPcs pc)

/-- Nothing more can be done inside. -/
structure NoProgress (pc : ProgramCounter) : Prop where
  switch : switchContext pc = none
  boundary : boundarySwitchContext pc = none
  collateral : boundaryCollateralRelease pc = none
  requires : ∀ port ∈ component.requires, portLtsStable modelingLts pc port = true
  external : pc.externalQ = []

end

/-! ## The instances of a component -/

/-- `(%sut)` of a component -/
def sut : Instance := ⟨.component, ["sut"], false, 0⟩

/-- A port of the component. -/
def componentPort (name : String) : Instance := ⟨.port, ["sut", name], false, 0⟩

/-- A port at the boundary. -/
def boundaryPort (name : String) : Instance := ⟨.port, [name], true, 0⟩

/-- `runtime:create-instances`; all ports are found at the boundary, so no more are made for injected ones. -/
def createInstances (component : Component) : List Instance :=
  component.provides.map boundaryPort ++ component.provides.map componentPort ++ [sut] ++
    component.requires.map componentPort ++ component.requires.map boundaryPort

/-- `runtime:find-instance` -/
def findInstance (component : Component) (name : String) (container : List String) (boundary : Bool) : Option Instance :=
  (createInstances component).find? fun i => i.path.dropLast = container && i.path.getLast? = some name && i.boundary = boundary

/-- `runtime:other-port`, where there is no system or foreign component -/
def otherPort (component : Component) (port : Instance) : Option Instance :=
  let name := port.path.getLast?.getD ""
  if port.boundary then findInstance component name sut.path false
  else findInstance component name [] true

/-- `runtime:other-instance+port` of a component -/
def otherInstancePort (component : Component) (port : Instance) : Option (Instance × Instance) :=
  (otherPort component port).map fun other => (if other.boundary then other else sut, other)

/-! ## Steps -/

/-- `get-handling` -/
def getHandling (pc : ProgramCounter) (inst : Instance) : Option Nat :=
  (pc.state.find? fun s => s.inst = inst).bind State.handling

/-- `blocked-port` of an instance -/
def blockedPort (pc : ProgramCounter) (inst : Instance) : Option Instance :=
  let handles := fun entry : Instance × ProgramCounter => getHandling pc inst = some entry.2.id
  ((pc.blocked.find? handles).or (pc.collateral.find? handles)).map Prod.fst

/-- `make-pc` -/
def makePc (id : Nat) (state : List State) (trail : List String) (status : Option Status) : ProgramCounter :=
  ⟨none, none, none, state, status, none, trail, none, [], false, id, [], [], [], none, [], []⟩

/-- `reset-handling!` -/
def resetHandling (pc : ProgramCounter) : ProgramCounter :=
  { pc with state := pc.state.map fun s => if some s.inst = pc.inst then { s with handling := none } else s }

/-- `block` -/
def block (nextId : Nat) (pc : ProgramCounter) (port : Instance) : ProgramCounter :=
  let pc := resetHandling pc
  { makePc nextId pc.state pc.trail none with
    blocked := (port, pc) :: pc.blocked, collateral := pc.collateral, collateralInstance := pc.collateralInstance
    collateralReleased := pc.collateralReleased, defer := pc.defer, externalQ := pc.externalQ, released := pc.released }

/-- `collateral-block` -/
def collateralBlock (nextId : Nat) (pc : ProgramCounter) (inst : Instance) : ProgramCounter :=
  let port := (blockedPort pc inst).or (pc.previous.bind ProgramCounter.blockedOnBoundary)
  { makePc nextId pc.state pc.trail none with
    blocked := pc.blocked, collateral := (port.map fun port => (port, pc)).toList ++ pc.collateral
    externalQ := pc.externalQ, released := pc.released, runningDefer := pc.runningDefer }

/-- What `step` calls for an action. -/
structure ActionSteps where
  continuation : ProgramCounter → ProgramCounter
  beginStep : ProgramCounter → Instance → ProgramCounter
  runExternalModeling : ProgramCounter → Instance → List ProgramCounter
  nextId : Nat

/-- They do not set `.collateral`. -/
structure ActionSteps.Keeps (steps : ActionSteps) : Prop where
  continuation : ∀ pc, (steps.continuation pc).collateral = pc.collateral
  beginStep : ∀ pc inst, (steps.beginStep pc inst).collateral = pc.collateral
  external : ∀ pc inst, ∀ pc' ∈ steps.runExternalModeling pc inst, pc'.collateral = pc.collateral

/-- `step-action-down` of the component on a port -/
def stepActionDown (component : Component) (steps : ActionSteps) (origPc : ProgramCounter) (port : String) :
    List ProgramCounter :=
  let port := findInstance component port sut.path false
  match port.bind fun port => (otherInstancePort component port).map fun other => (port, other) with
  | none => []
  | some (port, otherInstance, otherPort) =>
    let pc := steps.continuation origPc
    let name := otherPort.path.getLast?.getD ""
    if otherPort.boundary ∧ name ∈ component.externals then
      (pc :: steps.runExternalModeling pc otherInstance).map fun pc => steps.beginStep pc otherInstance
    else if otherPort.boundary then [steps.beginStep pc otherInstance]
    else if otherInstance.kind = .component ∧
        ((getHandling pc otherInstance).isSome ∨ (pc.blocked.lookup otherPort).isSome ∨
          (pc.blocked.lookup port).isSome) ∧
        ((blockedPort pc otherInstance).isSome ∨ (pc.previous.bind ProgramCounter.blockedOnBoundary).isSome) then
      [collateralBlock steps.nextId origPc otherInstance]
    else if otherInstance.kind = .component then [steps.beginStep pc otherInstance]
    else [pc]

/-- What the interpreter makes of a program counter. -/
inductive VmStep (component : Component) : ProgramCounter → ProgramCounter → Prop
  /-- `clone` with other fields -/
  | clone {pc pc' : ProgramCounter} : pc'.collateral = pc.collateral → VmStep component pc pc'
  | block {pc : ProgramCounter} {nextId : Nat} {port : Instance} : VmStep component pc (block nextId pc port)
  | switchContext {pc pc' : ProgramCounter} : switchContext pc = some pc' → VmStep component pc pc'
  | boundarySwitchContext {pc pc' : ProgramCounter} : boundarySwitchContext pc = some pc' → VmStep component pc pc'
  | boundaryCollateralRelease {pc pc' : ProgramCounter} : boundaryCollateralRelease pc = some pc' →
    VmStep component pc pc'
  | actionDown {pc pc' : ProgramCounter} {steps : ActionSteps} {port : String} : steps.Keeps →
    port ∈ component.requires → pc' ∈ stepActionDown component steps pc port → VmStep component pc pc'

/-- A program counter that is reached from one of `make-pc`. -/
def VmReachable (component : Component) (pc : ProgramCounter) : Prop :=
  ∃ id state trail status, Relation.ReflTransGen (VmStep component) (makePc id state trail status) pc

/-! ## A component does not block collaterally -/

section
variable {component : Component} {pc pc' : ProgramCounter} {port : String}

/-- A program counter is not in the boundary's release when nothing is blocked collaterally. -/
theorem boundaryCollateralRelease_eq_none : boundaryCollateralRelease pc = none ↔
    ∀ entry ∈ pc.collateral, ∀ p ∈ entry.2.previous, p.blockedOnBoundary = none := by
  simp [boundaryCollateralRelease, Option.any_eq_true]

theorem boundarySwitchContext_collateral (h : boundarySwitchContext pc = some pc') :
    pc'.collateral = pc.collateral := by
  obtain ⟨entry, -, rfl⟩ := Option.map_eq_some_iff.1 h
  rfl

/-- Switching takes from what is blocked collaterally. -/
theorem switchContext_collateral (h : switchContext pc = some pc') : pc'.collateral ⊆ pc.collateral := by
  simp only [switchContext, Option.ite_none_left_eq_some] at h
  obtain ⟨-, h⟩ := h
  cases hblocked : pc.released.head?.bind fun port => pc.blocked.lookup port with
  | some released =>
    simp only [hblocked, Option.some.injEq] at h
    rw [← h]
    exact List.Subset.refl _
  | none =>
    cases hreleased : pc.collateralReleased with
    | nil => simp [hblocked, hreleased] at h
    | cons port ports =>
      simp only [hblocked, hreleased] at h
      obtain ⟨released, -, rfl⟩ := Option.map_eq_some_iff.1 h
      exact List.filter_subset_self _

/-- The other side of a requires port of the component is at the boundary. -/
theorem otherInstancePort_boundary {r : Instance} {other : Instance × Instance}
    (hr : findInstance component port sut.path false = some r) (hother : otherInstancePort component r = some other) :
    other.2.boundary = true := by
  obtain ⟨otherPort', hfound, rfl⟩ := Option.map_eq_some_iff.1 hother
  have hrfound := List.find?_some hr
  simp only [Bool.and_eq_true, decide_eq_true_eq] at hrfound
  rw [otherPort, if_neg (by simp [hrfound.2])] at hfound
  have hboundary := List.find?_some hfound
  simp only [Bool.and_eq_true, decide_eq_true_eq] at hboundary
  exact hboundary.2

theorem stepActionDown_collateral {steps : ActionSteps} (hsteps : steps.Keeps)
    (hpc' : pc' ∈ stepActionDown component steps pc port) : pc'.collateral = pc.collateral := by
  unfold stepActionDown at hpc'
  dsimp only at hpc'
  split at hpc'
  · cases hpc'
  · rename_i r otherInstance otherPort heq
    obtain ⟨r', hr, hmap⟩ := Option.bind_eq_some_iff.1 heq
    obtain ⟨other, hother, hpair⟩ := Option.map_eq_some_iff.1 hmap
    cases hpair
    have hboundary := otherInstancePort_boundary hr hother
    simp only at hpc' hboundary
    split at hpc'
    · obtain ⟨pc₁, hpc₁, rfl⟩ := List.mem_map.1 hpc'
      rw [hsteps.beginStep]
      rcases List.mem_cons.1 hpc₁ with rfl | hpc₁
      · exact hsteps.continuation pc
      · rw [hsteps.external _ _ _ hpc₁, hsteps.continuation]
    · rw [List.mem_singleton] at hpc'
      rw [hpc', hsteps.beginStep, hsteps.continuation]

theorem VmStep.collateral (h : VmStep component pc pc') (hpc : pc.collateral = []) : pc'.collateral = [] := by
  cases h with
  | clone hsame => rw [hsame, hpc]
  | block => exact hpc
  | switchContext hswitch =>
    have hsubset := switchContext_collateral hswitch
    rw [hpc] at hsubset
    exact List.subset_nil.1 hsubset
  | boundarySwitchContext hswitch => rw [boundarySwitchContext_collateral hswitch, hpc]
  | boundaryCollateralRelease hrelease =>
    have hnone := @boundaryCollateralRelease_eq_none pc
    simp [hpc, hrelease] at hnone
  | actionDown hsteps _ hmem => rw [stepActionDown_collateral hsteps hmem, hpc]

/-- In every run of a component no coroutine is blocked collaterally. -/
theorem VmReachable.collateral (h : VmReachable component pc) : pc.collateral = [] := by
  obtain ⟨id, state, trail, status, hrun⟩ := h
  induction hrun with
  | refl => rfl
  | tail _ hstep ih => exact hstep.collateral ih

end

/-! ## Refusals are right -/

section
variable {modelingLts : String → ProgramCounter → ModelingLts} {component : Component}
  {fromPcs : List ProgramCounter} {pc : ProgramCounter} {traces : List Trace} {trigger : Trigger}

/-- The return is reported when the tests pass. -/
theorem refusalsReport_pendingReturn :
    refusalsReport modelingLts component fromPcs pc traces = .ok (some (.pendingReturn trigger)) ↔
      returnRefused modelingLts component fromPcs pc traces = true ∧ blockedTrigger traces = some trigger := by
  have hobservable : ∀ pc', observableRefusals modelingLts component fromPcs pc' ≠ some (.pendingReturn trigger) := by
    intro pc' h
    unfold observableRefusals at h
    dsimp only at h
    split at h
    · split at h <;> simp at h
    · cases h
  unfold refusalsReport
  split
  · rename_i hrefused
    cases htrigger : blockedTrigger traces <;> simp [hrefused]
  · rename_i hrefused
    simp only [hrefused, Bool.false_eq_true, false_and, iff_false]
    intro h
    split at h
    · cases h
    · exact hobservable _ (Except.ok.inj h)

/-- The tests that are made. -/
theorem returnRefused_iff (hpc : pc ∈ fromPcs) : returnRefused modelingLts component fromPcs pc traces = true ↔
    fromPcs = [pc] ∧ pc.externalQ = [] ∧ (∀ port ∈ component.requires, portLtsStable modelingLts pc port = true) ∧
      switchContext pc = none ∧ boundarySwitchContext pc = none ∧
      (∃ trace ∈ traces, headBlocked trace = true) ∧ ∀ trace ∈ traces, headBlockedOnBoundary trace = false := by
  have hone : fromPcs.length = 1 ↔ fromPcs = [pc] := by
    rw [List.length_eq_one_iff]
    constructor
    · rintro ⟨p, rfl⟩
      rw [List.mem_singleton.1 hpc]
    · intro h
      exact ⟨pc, h⟩
  by_cases hfrom : fromPcs = [pc]
  · subst hfrom
    simp only [returnRefused, isSame, isSameAlone, requiresPortsStable, List.length_cons, List.length_nil, decide_true,
      List.head?_cons, Option.all_some, List.isEmpty_iff, Option.isNone_iff_eq_none, Bool.and_eq_true,
      Bool.not_eq_true', List.any_eq_true, List.all_eq_true, List.any_eq_false, Bool.not_eq_true]
    tauto
  · simp [returnRefused, hone, hfrom]

/-- For any program counter the tests miss nothing but a coroutine that is blocked collaterally. -/
theorem noProgress_iff (hpc : pc ∈ fromPcs)
    (hreport : refusalsReport modelingLts component fromPcs pc traces = .ok (some (.pendingReturn trigger))) :
    NoProgress modelingLts component pc ↔
      ∀ entry ∈ pc.collateral, ∀ p ∈ entry.2.previous, p.blockedOnBoundary = none := by
  obtain ⟨-, hexternal, hrequires, hswitch, hboundary, -, -⟩ :=
    (returnRefused_iff hpc).1 (refusalsReport_pendingReturn.1 hreport).1
  rw [← boundaryCollateralRelease_eq_none]
  exact ⟨fun h => h.collateral, fun h => ⟨hswitch, hboundary, h, hrequires, hexternal⟩⟩

/-- The return of a blocked port is reported only when nothing more can be done inside. -/
theorem refusalsReport_noProgress (modelingLts : String → ProgramCounter → ModelingLts) (component : Component)
    (fromPcs : List ProgramCounter) (pc : ProgramCounter) (traces : List Trace) (trigger : Trigger)
    (hreachable : VmReachable component pc) (hpc : pc ∈ fromPcs)
    (hreport : refusalsReport modelingLts component fromPcs pc traces = .ok (some (.pendingReturn trigger))) :
    NoProgress modelingLts component pc := by
  refine (noProgress_iff hpc hreport).2 ?_
  rw [hreachable.collateral]
  simp

end

/-- A component with a blocking event, and a requires port without modeling events. -/
def blockingComponent : Component := ⟨["p"], ["r"], []⟩

/-- `p.e` is handled. -/
def handlingPc : ProgramCounter :=
  { makePc 1 [⟨sut, none, some 1, [], [], []⟩] [] none with
    inst := some sut, trigger := some ⟨some "p", "e", true⟩, previous := some (makePc 1 [⟨sut, none, none, [], [], []⟩] [] none) }

theorem refusalsReport_noProgress_blocked :
    let pc := block 2 handlingPc (componentPort "p")
    let traces := [[pc, handlingPc, makePc 1 [⟨sut, none, none, [], [], []⟩] [] none]]
    refusalsReport (fun _ _ => [[]]) blockingComponent [pc] pc traces =
        .ok (some (.pendingReturn ⟨some "p", "e", true⟩)) ∧
      NoProgress (fun _ _ => [[]]) blockingComponent pc := by
  intro pc traces
  have hreport : refusalsReport (fun _ _ => [[]]) blockingComponent [pc] pc traces =
      .ok (some (.pendingReturn ⟨some "p", "e", true⟩)) := rfl
  have hhandling : VmStep blockingComponent (makePc 1 [⟨sut, none, none, [], [], []⟩] [] none) handlingPc := .clone rfl
  have hreachable : VmReachable blockingComponent pc := ⟨1, _, [], none, .tail (.single hhandling) .block⟩
  exact ⟨hreport, refusalsReport_noProgress _ _ _ _ _ _ hreachable List.mem_cons_self hreport⟩

end Dezyne.Explore
