import Dezyne.Group
import Dezyne.Guards
/-!
# The canonical form of a behavior

`statement->canonical-on` lists the imperative statements of a behavior with
the guards, the on and the blocking above each, and `normalize:state` prints
that list as one guarded on per trigger. What a tree of declarative statements
means is `Stmt.enabled`: the imperative statements a trigger can run, in order,
each with its blocking mark.
-/

namespace Dezyne

/-! ## Declarative and imperative statements -/

namespace Stmt

/-- `ast:declarative?` of a statement that is not the body of a behavior or a function. -/
def declarative : Stmt → Bool
  | .compound ss => head ss
  | .declarativeCompound _ => true
  | .guard _ _ => true
  | .on _ _ => true
  | .blocking _ => true
  | .invariant _ => true
  | .declarativeIllegal => true
  | _ => false
where
  head : List Stmt → Bool
  | [] => false
  | s :: _ => s.declarative

/-- `ast:imperative?` of such a statement: an empty compound is one, `<the-end>` is neither. -/
def imperative : Stmt → Bool
  | .compound ss => head ss
  | .declarativeCompound _ => false
  | .guard _ _ => false
  | .on _ _ => false
  | .blocking _ => false
  | .invariant _ => false
  | .declarativeIllegal => false
  | .theEnd => false
  | _ => true
where
  head : List Stmt → Bool
  | [] => true
  | s :: _ => s.imperative

theorem imperative_not_declarative {s : Stmt} (h : s.imperative) : s.declarative = false := by
  induction s with
  | compound ss ih =>
    cases ss with
    | nil => rfl
    | cons s ss => exact ih s (by simp) h
  | guard | on | blocking | invariant | declarativeCompound | declarativeIllegal => cases h
  | _ => rfl

theorem declarative_not_imperative {s : Stmt} (h : s.declarative) : s.imperative = false := by
  rw [← Bool.not_eq_true]
  intro hi
  rw [imperative_not_declarative hi] at h
  cases h

/-! ## `remove-invariant` -/

/-- An element of a list that `remove-invariant` drops. -/
def vanishes : Stmt → Bool
  | .invariant _ => true
  | .guard _ (.invariant _) => true
  | _ => false

/-- `remove-invariant` does not look below a guard. An invariant that is the whole body of an
`on` or a `blocking` leaves `#f` there; here it stays, and has no handler either. -/
def removeInvariant : Stmt → Stmt
  | .compound ss => .compound (elements ss)
  | .declarativeCompound ss => .declarativeCompound (elements ss)
  | .on ts s => .on ts s.removeInvariant
  | .blocking s => .blocking s.removeInvariant
  | .ifThen e s => .ifThen e s.removeInvariant
  | .ifElse e s t => .ifElse e s.removeInvariant t.removeInvariant
  | .defer as s => .defer as s.removeInvariant
  | s => s
where
  elements : List Stmt → List Stmt
  | [] => []
  | s :: ss => if s.vanishes then elements ss else s.removeInvariant :: elements ss

end Stmt

/-! ## `statement->canonical-on` -/

/-- A node of a path that `statement->canonical-on` looks for. -/
inductive Frame where
  | guard (expression : Expr)
  | on (triggers : List Trigger)
  | blocking
deriving Repr

namespace Frame

def expression? : Frame → Option Expr
  | .guard e => some e
  | _ => none

def triggers? : Frame → Option (List Trigger)
  | .on ts => some ts
  | _ => none

def isBlocking : Frame → Bool
  | .blocking => true
  | _ => false

end Frame

structure CanonicalOn where
  blocking : Bool
  guard : Expr
  trigger : Trigger
  statement : Stmt
deriving Repr

namespace Stmt

/-- A node that the filter of the collection lets through, because it or its parent is
declarative, followed by what is collected below it. -/
def visit (path : List Frame) (inDeclarative : Bool) (s : Stmt) (below : List (List Frame × Stmt)) :
    List (List Frame × Stmt) :=
  if s.declarative || inDeclarative then (if s.imperative then [(path, s)] else []) ++ below else []

/-- The imperative statements `statement->canonical-on` collects, each with its path, the
nearest node first. -/
def imperatives (path : List Frame) (inDeclarative : Bool) : Stmt → List (List Frame × Stmt)
  | .compound ss =>
    visit path inDeclarative (.compound ss) (elements path (Stmt.compound ss).declarative ss)
  | .declarativeCompound ss => elements path true ss
  | .guard e s => s.imperatives (.guard e :: path) true
  | .on ts s => s.imperatives (.on ts :: path) true
  | .blocking s => s.imperatives (.blocking :: path) true
  | .ifThen e s => visit path inDeclarative (.ifThen e s) (s.imperatives path false)
  | .ifElse e s t =>
    visit path inDeclarative (.ifElse e s t) (s.imperatives path false ++ t.imperatives path false)
  | .defer as s => visit path inDeclarative (.defer as s) (s.imperatives path false)
  | s => visit path inDeclarative s []
where
  elements (path : List Frame) (inDeclarative : Bool) : List Stmt → List (List Frame × Stmt)
  | [] => []
  | s :: ss => s.imperatives path inDeclarative ++ elements path inDeclarative ss

end Stmt

/-- `imperative->canonical-ons` -/
def imperativeToCanonicalOns (m : Model) (imperative : List Frame × Stmt) : List CanonicalOn :=
  let path := imperative.1
  let blocking := path.any Frame.isBlocking
  let expression := andExpressions (path.filterMap Frame.expression?)
  let triggers := (path.findSome? Frame.triggers?).getD []
  triggers.map fun t => ⟨m.provides t && blocking, expression, t, imperative.2⟩

/-- `statement->canonical-on` of the body of a behavior. -/
def Stmt.canonicalOns (m : Model) (s : Stmt) : List CanonicalOn :=
  (s.imperatives [] false).flatMap (imperativeToCanonicalOns m)

namespace CanonicalOn

/-- `simplify-guard` -/
def simplifyGuard (o : CanonicalOn) : CanonicalOn :=
  { o with guard := o.guard.simplifyToplevelExpression }

def groupExpressions (o : CanonicalOn) : CanonicalOn :=
  { o with guard := o.guard.groupExpressions .other, statement := o.statement.groupExpressions }

/-- `canonical-on->guard` -/
def toGuard (o : CanonicalOn) : Stmt :=
  .guard o.guard (.on [o.trigger] (if o.blocking then .blocking o.statement else o.statement))

end CanonicalOn

/-! ## The invariant of a behavior -/

/-- `make-a=>b-expression` -/
def makeImplies (a b : Expr) : Expr := .or (.not a) b

/-- `invariant:include-guard-expressions` -/
def includeGuardExpressions (guards : List Expr) (e : Expr) : Expr :=
  if guards = [] then e else makeImplies (andExpressions guards) e

/-- The invariants in a statement, each with the guards on its path. -/
def Stmt.invariants (guards : List Expr) : Stmt → List Expr
  | .compound ss => elements guards ss
  | .declarativeCompound ss => elements guards ss
  | .guard e s => s.invariants (e :: guards)
  | .on _ s => s.invariants guards
  | .blocking s => s.invariants guards
  | .invariant e => [includeGuardExpressions guards e]
  | .ifThen _ s => s.invariants guards
  | .ifElse _ s t => s.invariants guards ++ t.invariants guards
  | .defer _ s => s.invariants guards
  | _ => []
where
  elements (guards : List Expr) : List Stmt → List Expr
  | [] => []
  | s :: ss => s.invariants guards ++ elements guards ss

/-- The expression of `make-behavior-invariant`. -/
def makeBehaviorInvariant (b : Behavior) : Expr :=
  let invariants := b.functions.flatMap (·.statement.invariants []) ++ b.invariant.toList ++
    b.statement.invariants []
  andExpressions (invariants.map (Expr.groupExpressions .other))

/-! ## `normalize:state` -/

def normalizeState (m : Model) (b : Behavior) : Behavior :=
  { b with
    statement := .declarativeCompound
      ((((b.statement.removeInvariant.canonicalOns m).map CanonicalOn.simplifyGuard).map
        CanonicalOn.groupExpressions).map CanonicalOn.toGuard)
    functions := b.functions.map Function.groupExpressions
    invariant := some (makeBehaviorInvariant b) }

/-! ## What a tree of declarative statements means -/

/-- A statement that a trigger runs: the trigger of its on, and whether it is blocking. -/
structure Handler where
  trigger : Trigger
  statement : Stmt
  blocking : Bool
deriving Repr

/-- The imperative statements a trigger runs under a valuation. `on` is the trigger of the on
around the tree, if there is one. -/
def Stmt.enabled (ρ : Valuation) (t : Trigger) (on : Option Trigger) (blocking : Bool) : Stmt → List Handler
  | .compound ss =>
    if (Stmt.compound ss).declarative then elements ρ t on blocking ss
    else on.toList.map fun u => ⟨u, .compound ss, blocking⟩
  | .declarativeCompound ss => elements ρ t on blocking ss
  | .guard e s => if e.truth ρ then s.enabled ρ t on blocking else []
  | .on ts s => match ts.find? t.equal with
    | some u => s.enabled ρ t (some u) blocking
    | none => []
  | .blocking s => s.enabled ρ t on true
  | .invariant _ => []
  | s => on.toList.map fun u => ⟨u, s, blocking⟩
where
  elements (ρ : Valuation) (t : Trigger) (on : Option Trigger) (blocking : Bool) : List Stmt → List Handler
  | [] => []
  | s :: ss => s.enabled ρ t on blocking ++ elements ρ t on blocking ss

namespace CanonicalOn

def handler (o : CanonicalOn) : Handler := ⟨o.trigger, o.statement, o.blocking⟩

/-- The canonical ons of a trigger whose guard holds. -/
def enabled (ρ : Valuation) (t : Trigger) (ons : List CanonicalOn) : List CanonicalOn :=
  ons.filter fun o => t.equal o.trigger && o.guard.truth ρ

end CanonicalOn

end Dezyne
