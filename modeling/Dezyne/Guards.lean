import Dezyne.Lib.Reduce
import Dezyne.Simplify
/-!
# Conjunctions and disjunctions of guards

`and-expressions`, `or-expressions` and the two complements built from them. Of
each: what its truth value is, and that it is well typed when its parts are.
-/

namespace Dezyne

open Reduce

/-- `group-expression` -/
def Expr.groupExpression : Expr → Expr
  | .binary op l r => .group (.binary op l r)
  | .fieldTest x f => .group (.fieldTest x f)
  | .sharedFieldTest p x f => .group (.sharedFieldTest p x f)
  | e => e

def andExpressions (expressions : List Expr) : Expr :=
  reduce Expr.and .true (expressions.map Expr.groupExpression)

def orExpressions (expressions : List Expr) : Expr :=
  reduce Expr.or .false (expressions.map Expr.groupExpression)

/-- `(is? <otherwise>)` -/
def Expr.isOtherwise : Expr → Bool
  | .otherwise => Bool.true
  | .otherwiseValue _ => Bool.true
  | _ => Bool.false

/-- `not-or-guards`, of the expressions of the guards. -/
def notOrGuards (guards : List Expr) : Expr :=
  match orExpressions (guards.filter (!·.isOtherwise)) with
  | .not e => e
  | e => .not e

/-- A guard that holds and is not an `otherwise`. -/
def Stmt.holds (ρ : Valuation) : Stmt → Bool
  | .guard e _ => !e.isOtherwise && e.truth ρ
  | _ => Bool.false

/-- The expression of `and-not-guards`. -/
def andNotGuards : List Expr → Expr
  | [] => .true
  | [g] => .not g
  | gs => andExpressions (gs.map .not)

section
variable (ρ : Valuation)

@[simp] theorem Expr.truth_groupExpression (e : Expr) : e.groupExpression.truth ρ = e.truth ρ := by
  cases e <;> rfl

@[simp] theorem truth_andExpressions (es : List Expr) :
    (andExpressions es).truth ρ = es.all (·.truth ρ) := by
  refine (reduce_all (φ := Expr.truth ρ) (fun _ _ => rfl) rfl _).trans ?_
  simp [List.all_map, Function.comp_def]

@[simp] theorem truth_orExpressions (es : List Expr) :
    (orExpressions es).truth ρ = es.any (·.truth ρ) := by
  refine (reduce_any (φ := Expr.truth ρ) (fun _ _ => rfl) rfl _).trans ?_
  simp [List.any_map, Function.comp_def]

/-- The guard for `otherwise` holds when no guard that is not itself an `otherwise` does. -/
theorem truth_notOrGuards (gs : List Expr) :
    (notOrGuards gs).truth ρ = !(gs.filter (!·.isOtherwise)).any (·.truth ρ) := by
  rw [← truth_orExpressions]
  unfold notOrGuards
  split
  · rename_i e h
    rw [h, Expr.truth_not, Bool.not_not]
  · exact Expr.truth_not ρ _

@[simp] theorem truth_andNotGuards (gs : List Expr) :
    (andNotGuards gs).truth ρ = gs.all (!·.truth ρ) := by
  unfold andNotGuards
  split
  · rfl
  · simp
  · simp [List.all_map, Function.comp_def]

end

section
variable {Γ : Context} {L : String → Prop}

theorem Expr.Proper.groupExpression {τ : Ty} {e : Expr} (h : e.Proper Γ L τ) :
    e.groupExpression.Proper Γ L τ := by
  cases e <;> exact ⟨h.type, h.separate⟩

theorem Expr.Proper.not {e : Expr} (h : e.Proper Γ L .bool) : (Expr.not e).Proper Γ L .bool :=
  ⟨by simp [Expr.type?, h.type], h.separate⟩

theorem proper_andExpressions {es : List Expr} (h : ∀ e ∈ es, e.Proper Γ L .bool) :
    (andExpressions es).Proper Γ L .bool := by
  apply reduce_closed (fun _ _ ha hb => Expr.proper_binary rfl ha hb) Expr.proper_true
  intro e he
  obtain ⟨d, hd, rfl⟩ := List.mem_map.1 he
  exact (h d hd).groupExpression

theorem proper_andNotGuards {gs : List Expr} (h : ∀ e ∈ gs, e.Proper Γ L .bool) :
    (andNotGuards gs).Proper Γ L .bool := by
  unfold andNotGuards
  split
  · exact Expr.proper_true
  · exact (h _ (by simp)).not
  · apply proper_andExpressions
    intro e he
    obtain ⟨d, hd, rfl⟩ := List.mem_map.1 he
    exact (h d hd).not

end

end Dezyne
