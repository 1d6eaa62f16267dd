import Dezyne.Ast
/-!
# What an expression means

The value of an expression under a valuation of the names in it, and the type
the well-formedness check gives it. A valuation answers for the variables of
the behavior, for the variables of every port's interface, and for the calls
and actions; the last two are functions of their arguments, which is what a
call is in a guard or invariant.
-/

namespace Dezyne

inductive Value where
  | bool (b : Bool)
  | int (n : Int)
  | enum (field : String)
  | data (value : String)
  | void
deriving DecidableEq, Repr

def Value.truth : Value → Bool
  | .bool b => b
  | _ => false

def Value.num : Value → Int
  | .int n => n
  | _ => 0

@[simp] theorem Value.truth_bool (b : Bool) : (Value.bool b).truth = b := rfl
@[simp] theorem Value.num_int (n : Int) : (Value.int n).num = n := rfl

/-- The types `ast:type` returns; an enum by its full name. -/
inductive Ty where
  | bool | int | data | void
  | enum (name : ScopeName)
deriving DecidableEq, Repr

/-- Two enum values are only compared at one type, so a value does not carry its enum. -/
def Value.HasTy : Value → Ty → Prop
  | .bool _, .bool => True
  | .int _, .int => True
  | .enum _, .enum _ => True
  | .data _, .data => True
  | .void, .void => True
  | _, _ => False

structure Valuation where
  var : String → Value
  sharedVar : String → String → Value
  action : Option String → String → List Value → Value
  call : ScopeName → List Value → Value

def Literal.value : Literal → Value
  | .bool b => .bool b
  | .int n => .int n
  | .void => .void

def BinOp.eval : BinOp → Value → Value → Value
  | .and, l, r => .bool (l.truth && r.truth)
  | .or, l, r => .bool (l.truth || r.truth)
  | .equal, l, r => .bool (l = r)
  | .notEqual, l, r => .bool (l ≠ r)
  | .greaterEqual, l, r => .bool (r.num ≤ l.num)
  | .greater, l, r => .bool (r.num < l.num)
  | .lessEqual, l, r => .bool (l.num ≤ r.num)
  | .less, l, r => .bool (l.num < r.num)
  | .minus, l, r => .int (l.num - r.num)
  | .plus, l, r => .int (l.num + r.num)

mutual
def Expr.eval (ρ : Valuation) : Expr → Value
  | .literal v => v.value
  | .group e => e.eval ρ
  | .not e => .bool (!(e.eval ρ).truth)
  | .binary op l r => op.eval (l.eval ρ) (r.eval ρ)
  | .var x => ρ.var x
  | .sharedVar p x => ρ.sharedVar p x
  | .fieldTest x f => .bool (ρ.var x = .enum f)
  | .sharedFieldTest p x f => .bool (ρ.sharedVar p x = .enum f)
  | .enumLiteral _ f => .enum f
  | .data v => .data v
  | .action p e as => ρ.action p e (Expr.evals ρ as)
  | .call f as => ρ.call f (Expr.evals ρ as)
  | .otherwise => .void
  | .otherwiseValue e => e.eval ρ

def Expr.evals (ρ : Valuation) : List Expr → List Value
  | [] => []
  | a :: as => a.eval ρ :: Expr.evals ρ as
end

def Expr.truth (ρ : Valuation) (e : Expr) : Bool := (e.eval ρ).truth

/-- The declarations an expression is checked against. -/
structure Context where
  var : String → Option Ty
  sharedVar : String → String → Option Ty
  /-- The enum a `<scope.name>` resolves to. -/
  enum : ScopeName → Option ScopeName
  action : Option String → String → Option Ty
  call : ScopeName → Option Ty

def Literal.type : Literal → Ty
  | .bool _ => .bool
  | .int _ => .int
  | .void => .void

/-- The operand check and the type of a `<binary>`. -/
def BinOp.type? : BinOp → Ty → Ty → Option Ty
  | .and, .bool, .bool => some .bool
  | .or, .bool, .bool => some .bool
  | .equal, l, r => if l = r ∧ l ≠ .data then some .bool else none
  | .notEqual, l, r => if l = r ∧ l ≠ .data then some .bool else none
  | .greaterEqual, .int, .int => some .bool
  | .greater, .int, .int => some .bool
  | .lessEqual, .int, .int => some .bool
  | .less, .int, .int => some .bool
  | .minus, .int, .int => some .int
  | .plus, .int, .int => some .int
  | _, _, _ => none

/-- The type of an expression the well-formedness check accepts. -/
def Expr.type? (Γ : Context) : Expr → Option Ty
  | .literal v => some v.type
  | .group e => e.type? Γ
  | .not e => if e.type? Γ = some .bool then some .bool else none
  | .binary op l r =>
    match l.type? Γ, r.type? Γ with
    | some a, some b => op.type? a b
    | _, _ => none
  | .var x => Γ.var x
  | .sharedVar p x => Γ.sharedVar p x
  | .fieldTest x _ => match Γ.var x with
    | some (.enum _) => some .bool
    | _ => none
  | .sharedFieldTest p x _ => match Γ.sharedVar p x with
    | some (.enum _) => some .bool
    | _ => none
  | .enumLiteral t _ => (Γ.enum t).map .enum
  | .data _ => some .data
  | .action p e _ => Γ.action p e
  | .call f _ => Γ.call f
  | .otherwise => none
  | .otherwiseValue _ => none

/-- The values a valuation gives are of the declared types. -/
structure Valuation.Typed (Γ : Context) (ρ : Valuation) : Prop where
  var : ∀ x τ, Γ.var x = some τ → (ρ.var x).HasTy τ
  sharedVar : ∀ p x τ, Γ.sharedVar p x = some τ → (ρ.sharedVar p x).HasTy τ
  action : ∀ p e τ vs, Γ.action p e = some τ → (ρ.action p e vs).HasTy τ
  call : ∀ f τ vs, Γ.call f = some τ → (ρ.call f vs).HasTy τ

theorem Value.hasTy_bool {v : Value} : v.HasTy .bool ↔ v = .bool v.truth := by
  cases v <;> simp [Value.HasTy, Value.truth]

theorem BinOp.eval_hasTy {op : BinOp} {a b τ : Ty} (l r : Value) (h : op.type? a b = some τ) :
    (op.eval l r).HasTy τ := by
  cases op
  case equal | notEqual =>
    simp only [BinOp.type?, Option.ite_none_right_eq_some, Option.some.injEq] at h
    obtain ⟨-, rfl⟩ := h
    trivial
  all_goals
    unfold BinOp.type? at h
    split at h <;> first | cases h; trivial | simp_all

/-- An expression has a value of its type. -/
theorem Expr.eval_hasTy {Γ : Context} {ρ : Valuation} (hρ : ρ.Typed Γ) (e : Expr) :
    ∀ {τ}, e.type? Γ = some τ → (e.eval ρ).HasTy τ := by
  induction e with
  | literal v => cases v <;> simp [Expr.type?, Expr.eval, Literal.type, Literal.value, Value.HasTy]
  | group e ih => exact ih
  | not e _ =>
    intro τ h
    simp only [Expr.type?, Option.ite_none_right_eq_some, Option.some.injEq] at h
    obtain ⟨-, rfl⟩ := h
    simp [Expr.eval, Value.HasTy]
  | binary op l r =>
    intro τ h
    simp only [Expr.type?] at h
    split at h
    · exact BinOp.eval_hasTy _ _ h
    · cases h
  | var x => exact hρ.var x _
  | sharedVar p x => exact hρ.sharedVar p x _
  | fieldTest x f =>
    intro τ h
    simp only [Expr.type?] at h
    split at h <;> simp_all [Expr.eval, Value.HasTy]
    subst h; trivial
  | sharedFieldTest p x f =>
    intro τ h
    simp only [Expr.type?] at h
    split at h <;> simp_all [Expr.eval, Value.HasTy]
    subst h; trivial
  | enumLiteral t f =>
    intro τ h
    obtain ⟨n, -, rfl⟩ := Option.map_eq_some_iff.1 h
    trivial
  | data v => rintro τ ⟨⟩; trivial
  | action p e as _ => exact hρ.action p e _ _
  | call f as _ => exact hρ.call f _ _
  | otherwise => rintro τ ⟨⟩
  | otherwiseValue e _ => rintro τ ⟨⟩

theorem Expr.eval_bool {Γ : Context} {ρ : Valuation} (hρ : ρ.Typed Γ) {e : Expr}
    (h : e.type? Γ = some .bool) : e.eval ρ = .bool (e.truth ρ) :=
  Value.hasTy_bool.1 (e.eval_hasTy hρ h)

section
variable (ρ : Valuation)

@[simp] theorem Expr.truth_group (e : Expr) : (Expr.group e).truth ρ = e.truth ρ := rfl
@[simp] theorem Expr.truth_not (e : Expr) : (Expr.not e).truth ρ = !e.truth ρ := rfl
@[simp] theorem Expr.truth_and (l r : Expr) : (Expr.and l r).truth ρ = (l.truth ρ && r.truth ρ) := rfl
@[simp] theorem Expr.truth_or (l r : Expr) : (Expr.or l r).truth ρ = (l.truth ρ || r.truth ρ) := rfl
@[simp] theorem Expr.truth_true : Expr.true.truth ρ = Bool.true := rfl
@[simp] theorem Expr.truth_false : Expr.false.truth ρ = Bool.false := rfl
@[simp] theorem Expr.truth_otherwiseValue (e : Expr) :
    (Expr.otherwiseValue e).truth ρ = e.truth ρ := rfl
end

end Dezyne
