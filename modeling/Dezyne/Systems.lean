import Mathlib.Data.List.Perm.Basic
import Mathlib.Data.List.Count
/-!
# Bindings of a system

The well-formedness of a system compares every binding with those after it, and
looks for ports that no binding has. The comparison leaves out later bindings that
have a wildcard, so a port that is bound by a wildcard as well is found only when
the wildcard comes first.
-/

namespace Dezyne.Systems

/-! ## The system -/

/-- `<port>`; `typeName` has the ids of `.type.name`. -/
structure Port where
  name : String
  typeName : List String
  requires : Bool
  injected : Bool
deriving DecidableEq

/-- An `<instance>`, by its `.id`, with the ports of the component model it is of. -/
structure Instance where
  id : Nat
  name : String
  ports : List Port
deriving DecidableEq

/-- `<end-point>`. A port name `none` is `*`, an instance name `none` is `#f`. -/
structure EndPoint where
  instanceName : Option String
  portName : Option String
deriving DecidableEq

structure Binding where
  left : EndPoint
  right : EndPoint
deriving DecidableEq

/-- `<system>`; no two of its instances are the same object. -/
structure System where
  ports : List Port
  instances : List Instance
  bindings : List Binding
  nodup : (instances.map Instance.id).Nodup

/-- What an error is about: an end-point, an instance or a port. -/
inductive Subject where
  | endPoint (e : EndPoint)
  | instance (i : Instance)
  | port (p : Port)
deriving DecidableEq

/-- `wfc-error` -/
structure WfcError where
  subject : Subject
  message : String
deriving DecidableEq

/-- `type-name` of a `<scope.name>` -/
def typeName (ids : List String) : String :=
  ".".intercalate (ids.map fun id => if id = "/" then "" else id)

/-- `ast:wildcard?` of the port name -/
def EndPoint.wildcard (e : EndPoint) : Bool := e.portName = none

/-- `binding->end-points` -/
def Binding.endPoints (b : Binding) : List EndPoint := [b.left, b.right]

def Binding.wildcard (b : Binding) : Bool := b.left.wildcard || b.right.wildcard

/-- `.instance`: a port of that name is found before an instance is. -/
def System.instance (s : System) (name : String) : Option Instance :=
  if s.ports.any fun p => p.name = name then none else s.instances.find? fun i => i.name = name

/-- `.port` of an end-point -/
def System.port (s : System) (e : EndPoint) : Option Port :=
  match e.instanceName with
  | some i => (s.instance i).bind fun i => i.ports.find? fun p => some p.name = e.portName
  | none => s.ports.find? fun p => some p.name = e.portName

/-- A binding has the same port at both ends. -/
def Binding.Loop (b : Binding) : Prop := b.left = b.right ∧ b.left.wildcard = false

/-- Two bindings have a port in common. -/
def Binding.Share (o x : Binding) : Prop := ∃ e ∈ o.endPoints, e ∈ x.endPoints ∧ e.wildcard = false

/-! ## `double-bindings` -/

/-- The text of `double-bindings`; it is used where there is a port name. -/
def boundMoreThanOnce (o : EndPoint) : String :=
  "port " ++ "`" ++ o.portName.getD "*" ++ "' is bound more than once"

/-- `double-bindings` of two end-points -/
def EndPoint.doubleBindings (o x : EndPoint) : List WfcError :=
  if o.wildcard || x.wildcard then []
  else if o.instanceName = x.instanceName ∧ o.portName = x.portName then
    [⟨.endPoint o, boundMoreThanOnce o⟩, ⟨.endPoint x, boundMoreThanOnce x⟩]
  else []

/-- `double-bindings` of two bindings that are not the same object -/
def Binding.doubleBindings (o x : Binding) : List WfcError :=
  if x.left.wildcard || x.right.wildcard then []
  else
    o.left.doubleBindings x.left ++ o.left.doubleBindings x.right ++
      o.right.doubleBindings x.left ++ o.right.doubleBindings x.right

/-- `double-bindings` of every binding, with those from it on; for itself there is nothing. -/
def doubleBindings : List Binding → List WfcError
  | [] => []
  | o :: rest => o.left.doubleBindings o.right ++ rest.flatMap o.doubleBindings ++ doubleBindings rest

/-! ## `missing-bindings` -/

/-- `port->end-point` -/
def Port.endPoint (p : Port) : EndPoint := ⟨none, some p.name⟩

/-- `instance->end-point` -/
def Instance.endPoints (i : Instance) : List EndPoint :=
  (i.ports.filter fun p => !p.injected).map fun p => ⟨some i.name, some p.name⟩

namespace System

/-- The end-points that have to be bound. -/
def endPoints (s : System) : List EndPoint :=
  s.ports.map Port.endPoint ++ s.instances.flatMap Instance.endPoints

/-- `missing-end-point->wfc-error`; an end-point without an instance is about its port. -/
def missingError (s : System) (e : EndPoint) : WfcError :=
  { subject := (((e.instanceName.bind s.instance).map Subject.instance) <|> (s.port e).map Subject.port).getD (.endPoint e)
    message := "port " ++ "`" ++ e.portName.getD "*" ++ "' of type " ++ "`" ++
      ((s.port e).map fun p => typeName p.typeName).getD "<unknown type>" ++ "' not bound" }

def missingBindings (s : System) : List WfcError :=
  let boundEndPoints := s.bindings.flatMap Binding.endPoints
  let missing := s.endPoints.filter fun e => e ∉ boundEndPoints
  missing.map s.missingError

/-- What both checks report. -/
def bindingErrors (s : System) : List WfcError := doubleBindings s.bindings ++ s.missingBindings

/-! ## Being bound once -/

/-- How many bindings an end-point occurs in. -/
def occurrences (s : System) (e : EndPoint) : Nat := s.bindings.countP fun b => e ∈ b.endPoints

/-- Every port of the system, and every port of an instance that is not injected, is in exactly one binding. -/
def BoundOnce (s : System) : Prop := ∀ e ∈ s.endPoints, s.occurrences e = 1

/-- Every end-point has an instance and a port. -/
def Resolves (s : System) : Prop :=
  ∀ b ∈ s.bindings, ∀ e ∈ b.endPoints,
    (e.instanceName.all fun i => (s.instance i).isSome) ∧ (e.wildcard ∨ (s.port e).isSome)

instance (s : System) : Decidable s.BoundOnce := inferInstanceAs (Decidable (∀ e ∈ s.endPoints, s.occurrences e = 1))

instance (s : System) : Decidable s.Resolves :=
  inferInstanceAs (Decidable (∀ b ∈ s.bindings, ∀ e ∈ b.endPoints,
    (e.instanceName.all fun i => (s.instance i).isSome) ∧ (e.wildcard ∨ (s.port e).isSome)))

/-- No binding is a loop, and of two that share a port the later one has a wildcard. -/
def Apart (s : System) : Prop :=
  (∀ b ∈ s.bindings, ¬ Binding.Loop b) ∧ s.bindings.Pairwise fun o x => Binding.Share o x → x.wildcard

end System

/-! ## What is reported -/

theorem endPoint_doubleBindings_eq_nil {o x : EndPoint} :
    o.doubleBindings x = [] ↔ (o = x → o.wildcard) := by
  unfold EndPoint.doubleBindings
  split
  · rename_i hw
    simp only [true_iff]
    rintro rfl
    simpa using hw
  · rename_i hw
    rw [Bool.or_eq_true, not_or] at hw
    split
    · rename_i heq
      simp only [reduceCtorEq, false_iff]
      exact fun h => hw.1 (h (by cases o; cases x; simp_all))
    · rename_i hne
      simp only [true_iff]
      rintro rfl
      exact absurd ⟨rfl, rfl⟩ hne

theorem binding_doubleBindings_eq_nil {o x : Binding} :
    o.doubleBindings x = [] ↔ (Binding.Share o x → x.wildcard) := by
  unfold Binding.doubleBindings
  split
  · rename_i hw
    simp [Binding.wildcard, hw]
  · rename_i hw
    have hx : x.wildcard = false := by simpa [Binding.wildcard] using hw
    simp only [List.append_eq_nil_iff, endPoint_doubleBindings_eq_nil, hx, Bool.false_eq_true, imp_false]
    constructor
    · rintro ⟨⟨⟨hll, hlr⟩, hrl⟩, hrr⟩ ⟨e, ho, he, hwild⟩
      simp only [Binding.endPoints, List.mem_cons, List.not_mem_nil, or_false] at ho he
      rcases ho with rfl | rfl <;> rcases he with heq | heq
      · simp [hll heq] at hwild
      · simp [hlr heq] at hwild
      · simp [hrl heq] at hwild
      · simp [hrr heq] at hwild
    · intro hshare
      have hnot : ∀ {a b : EndPoint}, a ∈ o.endPoints → b ∈ x.endPoints → a = b → a.wildcard := by
        rintro a b ha hb rfl
        by_contra hwild
        exact hshare ⟨a, ha, hb, by simpa using hwild⟩
      have hl {b : Binding} : b.left ∈ b.endPoints := by simp [Binding.endPoints]
      have hr {b : Binding} : b.right ∈ b.endPoints := by simp [Binding.endPoints]
      exact ⟨⟨⟨hnot hl hl, hnot hl hr⟩, hnot hr hl⟩, hnot hr hr⟩

theorem doubleBindings_eq_nil {l : List Binding} :
    doubleBindings l = [] ↔
      (∀ b ∈ l, ¬ Binding.Loop b) ∧ l.Pairwise fun o x => Binding.Share o x → x.wildcard := by
  induction l with
  | nil => simp [doubleBindings]
  | cons o rest ih =>
    have hloop : (o.left = o.right → o.left.wildcard) ↔ ¬ Binding.Loop o := by
      simp [Binding.Loop]
    rw [doubleBindings, List.append_eq_nil_iff, List.append_eq_nil_iff, ih, endPoint_doubleBindings_eq_nil, hloop,
      List.flatMap_eq_nil_iff]
    simp only [binding_doubleBindings_eq_nil, List.pairwise_cons, List.mem_cons, forall_eq_or_imp]
    tauto

namespace System

variable {s : System}

theorem missingBindings_eq_nil : s.missingBindings = [] ↔ ∀ e ∈ s.endPoints, 0 < s.occurrences e := by
  have hmem : ∀ e, 0 < s.occurrences e ↔ e ∈ s.bindings.flatMap Binding.endPoints := by
    intro e
    rw [occurrences, List.countP_pos_iff]
    simp
  simp only [missingBindings, List.map_eq_nil_iff, List.filter_eq_nil_iff, hmem, decide_eq_true_eq, not_not]

theorem bindingErrors_eq_nil : s.bindingErrors = [] ↔ s.Apart ∧ ∀ e ∈ s.endPoints, 0 < s.occurrences e := by
  rw [bindingErrors, List.append_eq_nil_iff, doubleBindings_eq_nil, missingBindings_eq_nil]
  rfl

/-- The errors are those of ports that are not bound once just when a port is not bound at all, or bindings are
apart exactly if no port is bound twice. -/
theorem bindingErrors_iff (s : System) :
    (s.bindingErrors = [] ↔ s.BoundOnce) ↔
      (∃ e ∈ s.endPoints, s.occurrences e = 0) ∨ (s.Apart ↔ ∀ e ∈ s.endPoints, s.occurrences e ≤ 1) := by
  have honce : s.BoundOnce ↔ (∀ e ∈ s.endPoints, s.occurrences e ≤ 1) ∧ ∀ e ∈ s.endPoints, 0 < s.occurrences e := by
    constructor
    · exact fun h => ⟨fun e he => Nat.le_of_eq (h e he), fun e he => by rw [h e he]; exact Nat.one_pos⟩
    · exact fun h e he => Nat.le_antisymm (h.1 e he) (h.2 e he)
  have hmissing : (∃ e ∈ s.endPoints, s.occurrences e = 0) ↔ ¬ ∀ e ∈ s.endPoints, 0 < s.occurrences e := by
    push Not
    simp
  rw [bindingErrors_eq_nil, honce, hmissing]
  tauto

/-- A port that `c.log <=> l.log` binds and a wildcard as well, in this order. -/
def logged : System where
  ports := []
  instances := [⟨0, "c", [⟨"log", ["ILog"], true, false⟩]⟩, ⟨1, "l", [⟨"log", ["ILog"], false, false⟩]⟩]
  bindings := [⟨⟨some "c", some "log"⟩, ⟨some "l", some "log"⟩⟩, ⟨⟨some "l", some "log"⟩, ⟨none, none⟩⟩]
  nodup := by decide

/-- Nothing is reported for a port that is bound twice, and it is when the bindings are the other way round. -/
theorem bindingErrors_order :
    ¬ (∀ s : System, s.Resolves → (s.bindingErrors = [] ↔ s.BoundOnce)) ∧
      logged.bindingErrors = [] ∧ { logged with bindings := logged.bindings.reverse }.bindingErrors ≠ [] := by
  refine ⟨fun h => ?_, by decide, by decide⟩
  have hbound : ¬ logged.BoundOnce := by decide
  exact hbound ((h logged (by decide)).1 (by decide))

end System

end Dezyne.Systems
