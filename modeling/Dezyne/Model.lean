import Dezyne.Ast
/-!
# Models, their ports and their triggers

What the normalizations ask of the model a behavior belongs to: which port a
trigger is of, whether that port is provided, and the events it can have.
-/

namespace Dezyne

/-- An `<event>` with the formals of its signature; `typed` when its type is not void. -/
structure Event where
  name : String
  isIn : Bool
  typed : Bool
  formals : List String
deriving DecidableEq, Repr

/-- A `<port>` with the events of its interface. -/
structure Port where
  name : String
  provides : Bool
  events : List Event
deriving DecidableEq, Repr

inductive Model where
  | interface (events : List Event)
  | component (ports : List Port)
deriving Repr

structure Variable where
  type : ScopeName
  name : String
  expression : Expr
deriving Repr

/-- A `<function>`; an `<expression-function>` when it has an expression. -/
structure Function where
  name : String
  type : ScopeName
  formals : List (ScopeName × String)
  statement : Stmt
  expression : Option Expr
deriving Repr

structure Behavior where
  /-- `ast:member*` -/
  members : List Variable
  functions : List Function
  statement : Stmt
  invariant : Option Expr
deriving Repr

namespace Trigger

/-- `ast:equal?` on triggers: the formals are not compared. -/
def equal (a b : Trigger) : Bool := a.port == b.port && a.event == b.event

/-- `ast:modeling?` -/
def modeling (t : Trigger) : Bool := t.port.isNone && (t.event == "inevitable" || t.event == "optional")

theorem equal_iff {a b : Trigger} : a.equal b ↔ a.port = b.port ∧ a.event = b.event := by
  simp [equal]

theorem equal_refl (a : Trigger) : a.equal a := equal_iff.2 ⟨rfl, rfl⟩

theorem equal_comm (a b : Trigger) : a.equal b = b.equal a := by
  simp only [equal, BEq.comm]

theorem equal_trans {a b c : Trigger} (h : a.equal b) (h' : b.equal c) : a.equal c := by
  rw [equal_iff] at h h' ⊢
  exact ⟨h.1.trans h'.1, h.2.trans h'.2⟩

/-- Triggers that are equal to each other are equal to the same triggers. -/
theorem equal_congr {a b : Trigger} (h : a.equal b) (c : Trigger) : a.equal c = b.equal c := by
  rw [equal_iff] at h
  simp only [equal, h.1, h.2]

theorem modeling_congr {a b : Trigger} (h : a.equal b) : a.modeling = b.modeling := by
  obtain ⟨hp, he⟩ := equal_iff.1 h
  simp only [modeling, hp, he]

end Trigger

namespace Model

/-- `ast:provides?` of a trigger: the port it names is a provides port. -/
def provides (m : Model) (t : Trigger) : Bool :=
  match m with
  | .interface _ => false
  | .component ports => match ports.find? (fun p => some p.name == t.port) with
    | some p => p.provides
    | none => false

/-- `.event` of a trigger that is not a modeling event. -/
def event? (m : Model) (t : Trigger) : Option Event :=
  match m with
  | .interface events => events.find? (·.name == t.event)
  | .component ports => match ports.find? (fun p => some p.name == t.port) with
    | some p => p.events.find? (·.name == t.event)
    | none => none

/-- `port->triggers`: the in-events of a provides port, the out-events of a requires port. -/
def portTriggers (p : Port) : List Trigger :=
  (p.events.filter (fun e => e.isIn == p.provides)).map fun e => ⟨some p.name, e.name, []⟩

/-- `model->triggers` -/
def triggers : Model → List Trigger
  | .interface events => (events.filter (·.isIn)).map fun e => ⟨none, e.name, []⟩
  | .component ports => ports.flatMap portTriggers

/-- `(is-a? model <interface>)` -/
def isInterface : Model → Bool
  | .interface _ => true
  | .component _ => false

/-- `ast:typed?` of a trigger. -/
def typed (m : Model) (t : Trigger) : Bool := !t.modeling && (m.event? t).any (·.typed)

/-- Every event and every port has a name of its own, and no event has the name of a modeling
event. -/
structure WellFormed (m : Model) : Prop where
  distinct : m.triggers.Pairwise (fun t u => t.equal u = false)
  modeling : ∀ t ∈ m.triggers, t.modeling = false

end Model

end Dezyne
