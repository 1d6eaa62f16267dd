import Dezyne.Eval
import Dezyne.Model
/-!
# `group-expressions`

Conjunctions, disjunctions and field tests below another expression get a
`<group>`, so that the text printed for them has the same reading. Values and
the shape of statements stay as they are.
-/

namespace Dezyne

/-- What `.parent` of an expression is, as far as `group-expressions` looks. -/
inductive Parent where
  | group | expression | other
deriving DecidableEq

def Parent.wrap (p : Parent) (e : Expr) : Expr :=
  if p = .expression then .group e else e

/-- `group-expressions` with `<and>`, `<field-test>` and `<or>`. An operand of a `<not>` that
is a `<binary>` or a `<field-test>` is grouped too. -/
def Expr.groupExpressions : Parent → Expr → Expr
  | p, .binary .and l r =>
    p.wrap (.binary .and (l.groupExpressions .expression) (r.groupExpressions .expression))
  | p, .binary .or l r =>
    p.wrap (.binary .or (l.groupExpressions .expression) (r.groupExpressions .expression))
  | p, .fieldTest x f => p.wrap (.fieldTest x f)
  | p, .sharedFieldTest q x f => p.wrap (.sharedFieldTest q x f)
  | _, .not (.binary op l r) =>
    .not (.group (.binary op (l.groupExpressions .expression) (r.groupExpressions .expression)))
  | _, .not (.fieldTest x f) => .not (.group (.fieldTest x f))
  | _, .not (.sharedFieldTest q x f) => .not (.group (.sharedFieldTest q x f))
  | _, .not e => .not (e.groupExpressions .expression)
  | _, .group e => .group (e.groupExpressions .group)
  | _, .binary op l r => .binary op (l.groupExpressions .expression) (r.groupExpressions .expression)
  | _, .action p e as => .action p e (arguments as)
  | _, .call f as => .call f (arguments as)
  | _, .otherwiseValue e => .otherwiseValue (e.groupExpressions .expression)
  | _, e => e
where
  arguments : List Expr → List Expr
  | [] => []
  | a :: as => a.groupExpressions .other :: arguments as

@[simp] theorem Parent.wrap_eval (p : Parent) (e : Expr) (ρ : Valuation) :
    (p.wrap e).eval ρ = e.eval ρ := by
  unfold wrap; split <;> rfl

theorem Expr.groupExpressions_arguments (as : List Expr) :
    groupExpressions.arguments as = as.map (groupExpressions .other) := by
  induction as with
  | nil => rfl
  | cons a as ih => simp only [groupExpressions.arguments, ih, List.map_cons]

theorem Expr.evals_map (ρ : Valuation) (as : List Expr) : evals ρ as = as.map (eval ρ) := by
  induction as with
  | nil => rfl
  | cons a as ih => simp only [evals, ih, List.map_cons]

theorem Expr.evals_arguments {ρ : Valuation} {as : List Expr}
    (h : ∀ a ∈ as, ∀ p : Parent, (a.groupExpressions p).eval ρ = a.eval ρ) :
    evals ρ (groupExpressions.arguments as) = evals ρ as := by
  rw [groupExpressions_arguments, evals_map, evals_map, List.map_map]
  exact List.map_congr_left fun a ha => h a ha .other

/-- Grouping keeps the value of an expression. -/
@[simp] theorem Expr.groupExpressions_eval (e : Expr) (p : Parent) (ρ : Valuation) :
    (e.groupExpressions p).eval ρ = e.eval ρ := by
  induction e generalizing p with
  | group e ih => exact ih .group
  | binary op l r ihl ihr =>
    cases op <;> simp only [groupExpressions, Parent.wrap_eval, eval, ihl, ihr]
  | not e ih =>
    cases e with
    | binary op l r =>
      -- the operand is grouped, so it is not wrapped a second time
      have h := ih .other
      cases op <;> simpa only [groupExpressions, Parent.wrap_eval, eval, Bool.not_eq_not,
        Value.bool.injEq] using congrArg (fun v => Value.bool (!v.truth)) h
    | _ => exact congrArg (fun v => Value.bool (!v.truth)) (ih .expression)
  | action q e as ih => simp only [groupExpressions, eval, evals_arguments ih]
  | call f as ih => simp only [groupExpressions, eval, evals_arguments ih]
  | otherwiseValue e ih => exact ih .expression
  | _ => simp only [groupExpressions, Parent.wrap_eval, eval]

@[simp] theorem Expr.groupExpressions_truth (e : Expr) (p : Parent) (ρ : Valuation) :
    (e.groupExpressions p).truth ρ = e.truth ρ := by
  simp only [truth, groupExpressions_eval]

/-- The expressions of a statement have the statement as parent. -/
def Stmt.groupExpressions : Stmt → Stmt
  | .compound ss => .compound (elements ss)
  | .declarativeCompound ss => .declarativeCompound (elements ss)
  | .guard e s => .guard (e.groupExpressions .other) s.groupExpressions
  | .on ts s => .on ts s.groupExpressions
  | .blocking s => .blocking s.groupExpressions
  | .invariant e => .invariant (e.groupExpressions .other)
  | .variableDecl t x e => .variableDecl t x (e.groupExpressions .other)
  | .assign x e => .assign x (e.groupExpressions .other)
  | .action p e as => .action p e (Expr.groupExpressions.arguments as)
  | .call f as => .call f (Expr.groupExpressions.arguments as)
  | .ifThen e s => .ifThen (e.groupExpressions .other) s.groupExpressions
  | .ifElse e s t => .ifElse (e.groupExpressions .other) s.groupExpressions t.groupExpressions
  | .reply p e => .reply p (e.groupExpressions .other)
  | .returnStmt e => .returnStmt (e.groupExpressions .other)
  | .defer as s => .defer (as.map Expr.groupExpressions.arguments) s.groupExpressions
  | s => s
where
  elements : List Stmt → List Stmt
  | [] => []
  | s :: ss => s.groupExpressions :: elements ss

/-- An `<expression-function>` is mapped over, of a `<function>` the statement is. -/
def Function.groupExpressions (f : Function) : Function :=
  { f with
    statement := f.statement.groupExpressions
    expression := f.expression.map (·.groupExpressions .other) }

end Dezyne
