import Dezyne.Eval
/-!
# `simplify-expression`

The rewriting is driven by `ast:equal?`, which looks at the port of a shared
variable or shared field test only when both sides have one: `x` and `p.x` are
equal to it. Simplification keeps the value of an expression in which no name
is used both with and without a port, and over names that are, it does not.
-/

namespace Dezyne

namespace Expr

/-! ## `ast:equal?` -/

/-- `ast:equal?` on expressions. A shared variable is also a `<named>`, so the method for
names takes a pair of which one is shared; a field test likewise. Calls and actions are
compared without their arguments. Two `<data>` and two `<otherwise>` have no method: the
source throws, and no boolean expression compares them. -/
def equal : Expr → Expr → Bool
  | .literal v, .literal w => v == w
  | .group a, .group b => equal a b
  | .not a, .not b => equal a b
  | .binary op a b, .binary op' a' b' => op == op' && equal a a' && equal b b'
  | .var x, .var y => x == y
  | .var x, .sharedVar _ y => x == y
  | .sharedVar _ x, .var y => x == y
  | .sharedVar p x, .sharedVar q y => p == q && x == y
  | .fieldTest x f, .fieldTest y g => x == y && f == g
  | .fieldTest x f, .sharedFieldTest _ y g => x == y && f == g
  | .sharedFieldTest _ x f, .fieldTest y g => x == y && f == g
  | .sharedFieldTest p x f, .sharedFieldTest q y g => p == q && x == y && f == g
  | .enumLiteral t f, .enumLiteral u g => t == u && f == g
  | .action p e _, .action q e' _ => p == q && e == e'
  | .call _ _, .call _ _ => Bool.true
  | _, _ => Bool.false

/-- `ast:literal-true?` -/
def literalTrue (e : Expr) : Bool := e.equal true

/-- `ast:literal-false?` -/
def literalFalse (e : Expr) : Bool := e.equal false

/-! ## Simplification -/

/-- No `<action>` and no `<call>` in the tree. -/
def static : Expr → Bool
  | .group e => e.static
  | .not e => e.static
  | .binary _ l r => l.static && r.static
  | .otherwiseValue e => e.static
  | .action _ _ _ => Bool.false
  | .call _ _ => Bool.false
  | _ => Bool.true

/-- `(is? <unary>)` -/
def unary : Expr → Bool
  | .binary _ _ _ => Bool.false
  | .data _ => Bool.false
  | .otherwise => Bool.false
  | .otherwiseValue _ => Bool.false
  | _ => Bool.true

/-- `left` is a `<not>` of something equal to `right`. -/
def notOf (left right : Expr) : Bool :=
  match left with
  | .not e => e.equal right
  | _ => Bool.false

def simplifyAnd (left right : Expr) : Expr :=
  if left.static && left.notOf right then false
  else if left.static && right.notOf left then false
  else if left.static && left.equal right then left
  else if left.literalTrue then right
  else if left.literalFalse then left
  else if right.literalTrue then left
  else if left.static && right.literalFalse then right
  else and left right

def simplifyOr (left right : Expr) : Expr :=
  if left.static && left.notOf right then true
  else if left.static && right.notOf left then true
  else if left.static && left.equal right then left
  else if left.literalTrue then left
  else if left.literalFalse then right
  else if left.static && right.literalTrue then right
  else if right.literalFalse then left
  else or left right

def simplifyNot (e : Expr) : Expr :=
  if e.literalTrue then false
  else if e.literalFalse then true
  else .not e

def simplifyGroup (e : Expr) : Expr :=
  if e.unary then e else .group e

def simplifyExpression : Expr → Expr
  | .not (.not e) => simplifyExpression e
  | .not (.group e) =>
    match simplifyExpression e with
    | .not e' => e'
    | e' => simplifyNot (simplifyGroup e')
  | .not e => simplifyNot (simplifyExpression e)
  | .group e => simplifyGroup (simplifyExpression e)
  | .binary .and l r => simplifyAnd (simplifyExpression l) (simplifyExpression r)
  | .binary .or l r => simplifyOr (simplifyExpression l) (simplifyExpression r)
  | .binary .plus l r => .binary .plus l r
  | .binary .minus l r => .binary .minus l r
  | .binary op l r => .binary op (simplifyExpression l) (simplifyExpression r)
  | e => e

def simplifyToplevelExpression (e : Expr) : Expr :=
  match simplifyExpression e with
  | .group e' => e'
  | e' => e'

/-! ## When `ast:equal?` is right -/

/-- `L` holds of the names used without a port and of none of those used with one. -/
def Separate (L : String → Prop) : Expr → Prop
  | .group e => e.Separate L
  | .not e => e.Separate L
  | .binary _ l r => l.Separate L ∧ r.Separate L
  | .var x => L x
  | .fieldTest x _ => L x
  | .sharedVar _ x => ¬ L x
  | .sharedFieldTest _ x _ => ¬ L x
  | .otherwiseValue e => e.Separate L
  | _ => True

section
variable {L : String → Prop} {ρ : Valuation}

/-- Static expressions that `ast:equal?` identifies have the same value. -/
theorem equal_eval (a : Expr) : ∀ {b : Expr}, a.static → a.Separate L → b.Separate L →
    a.equal b → a.eval ρ = b.eval ρ := by
  induction a with
  | group a ih =>
    intro b hs ha hb h
    cases b with
    | group b => exact ih (b := b) hs ha hb h
    | _ => cases h
  | not a ih =>
    intro b hs ha hb h
    cases b with
    | not b => simp only [eval, ih (b := b) hs ha hb h]
    | _ => cases h
  | binary op l r ihl ihr =>
    intro b hs ha hb h
    cases b with
    | binary op' l' r' =>
      simp only [equal, Bool.and_eq_true, beq_iff_eq, static] at h hs
      obtain ⟨⟨rfl, hl⟩, hr⟩ := h
      simp only [eval, ihl hs.1 ha.1 hb.1 hl, ihr hs.2 ha.2 hb.2 hr]
    | _ => cases h
  | _ =>
    intro b hs ha hb h
    cases b <;> simp_all [equal, eval, static, Separate]

theorem equal_comm (a : Expr) : ∀ b : Expr, a.equal b = b.equal a := by
  induction a with
  | group a ih => intro b; cases b <;> first | rfl | exact ih _
  | not a ih => intro b; cases b <;> first | rfl | exact ih _
  | binary op l r ihl ihr =>
    intro b
    cases b with
    | binary op' l' r' => simp only [equal, ihl l', ihr r', BEq.comm (a := op)]
    | _ => rfl
  | _ => intro b; cases b <;> simp [equal, BEq.comm]

theorem literalTrue_iff {e : Expr} : e.literalTrue ↔ e = true := by
  cases e <;> simp [literalTrue, equal, true]

theorem literalFalse_iff {e : Expr} : e.literalFalse ↔ e = false := by
  cases e <;> simp [literalFalse, equal, false]

theorem notOf_truth {l r : Expr} (hs : l.static) (hl : l.Separate L) (hr : r.Separate L)
    (h : l.notOf r) : l.truth ρ = !r.truth ρ := by
  unfold notOf at h
  split at h
  · rename_i e
    rw [truth_not, truth, truth, equal_eval (ρ := ρ) e hs hl hr h]
  · cases h

/-- The mirrored rule, where only the side without the `<not>` is known to be static. -/
theorem notOf_truth_right {l r : Expr} (hs : l.static) (hl : l.Separate L) (hr : r.Separate L)
    (h : r.notOf l) : r.truth ρ = !l.truth ρ := by
  unfold notOf at h
  split at h
  · rename_i e
    rw [truth_not, truth, truth, ← equal_eval (ρ := ρ) (b := e) l hs hl hr (equal_comm l e ▸ h)]
  · cases h

end

/-! ## Simplification keeps the value -/

section
variable {L : String → Prop} {Γ : Context} {ρ : Valuation}

/-- An expression of type `τ` over separate names. -/
structure Proper (Γ : Context) (L : String → Prop) (τ : Ty) (e : Expr) : Prop where
  type : e.type? Γ = some τ
  separate : e.Separate L

theorem proper_true : Proper Γ L .bool true := ⟨rfl, trivial⟩
theorem proper_false : Proper Γ L .bool false := ⟨rfl, trivial⟩

theorem proper_binary {op : BinOp} (ho : op.type? .bool .bool = some .bool) {l r : Expr}
    (hl : Proper Γ L .bool l) (hr : Proper Γ L .bool r) : Proper Γ L .bool (.binary op l r) :=
  ⟨by simp [type?, hl.type, hr.type, ho], hl.separate, hr.separate⟩

theorem simplifyAnd_keeps {l r : Expr} (hl : Proper Γ L .bool l) (hr : Proper Γ L .bool r) :
    Proper Γ L .bool (simplifyAnd l r) ∧ (simplifyAnd l r).truth ρ = (l.truth ρ && r.truth ρ) := by
  unfold simplifyAnd
  split_ifs with h1 h2 h3 h4 h5 h6 h7
  · rw [Bool.and_eq_true] at h1
    exact ⟨proper_false, by simp [notOf_truth (ρ := ρ) h1.1 hl.separate hr.separate h1.2]⟩
  · rw [Bool.and_eq_true] at h2
    exact ⟨proper_false, by simp [notOf_truth_right (ρ := ρ) h2.1 hl.separate hr.separate h2.2]⟩
  · rw [Bool.and_eq_true] at h3
    exact ⟨hl, by simp [truth, equal_eval (ρ := ρ) l h3.1 hl.separate hr.separate h3.2]⟩
  · exact ⟨hr, by simp [literalTrue_iff.1 h4]⟩
  · exact ⟨hl, by simp [literalFalse_iff.1 h5]⟩
  · exact ⟨hl, by simp [literalTrue_iff.1 h6]⟩
  · rw [Bool.and_eq_true] at h7
    exact ⟨hr, by simp [literalFalse_iff.1 h7.2]⟩
  · exact ⟨proper_binary rfl hl hr, rfl⟩

theorem simplifyOr_keeps {l r : Expr} (hl : Proper Γ L .bool l) (hr : Proper Γ L .bool r) :
    Proper Γ L .bool (simplifyOr l r) ∧ (simplifyOr l r).truth ρ = (l.truth ρ || r.truth ρ) := by
  unfold simplifyOr
  split_ifs with h1 h2 h3 h4 h5 h6 h7
  · rw [Bool.and_eq_true] at h1
    exact ⟨proper_true, by simp [notOf_truth (ρ := ρ) h1.1 hl.separate hr.separate h1.2]⟩
  · rw [Bool.and_eq_true] at h2
    exact ⟨proper_true, by simp [notOf_truth_right (ρ := ρ) h2.1 hl.separate hr.separate h2.2]⟩
  · rw [Bool.and_eq_true] at h3
    exact ⟨hl, by simp [truth, equal_eval (ρ := ρ) l h3.1 hl.separate hr.separate h3.2]⟩
  · exact ⟨hl, by simp [literalTrue_iff.1 h4]⟩
  · exact ⟨hr, by simp [literalFalse_iff.1 h5]⟩
  · rw [Bool.and_eq_true] at h6
    exact ⟨hr, by simp [literalTrue_iff.1 h6.2]⟩
  · exact ⟨hl, by simp [literalFalse_iff.1 h7]⟩
  · exact ⟨proper_binary rfl hl hr, rfl⟩

theorem simplifyNot_keeps {e : Expr} (he : Proper Γ L .bool e) :
    Proper Γ L .bool (simplifyNot e) ∧ (simplifyNot e).truth ρ = !e.truth ρ := by
  unfold simplifyNot
  split_ifs with h1 h2
  · exact ⟨proper_false, by simp [literalTrue_iff.1 h1]⟩
  · exact ⟨proper_true, by simp [literalFalse_iff.1 h2]⟩
  · exact ⟨⟨by simp [type?, he.type], he.separate⟩, rfl⟩

theorem simplifyGroup_type (e : Expr) : (simplifyGroup e).type? Γ = e.type? Γ := by
  unfold simplifyGroup; split <;> rfl

theorem simplifyGroup_separate (e : Expr) : (simplifyGroup e).Separate L ↔ e.Separate L := by
  unfold simplifyGroup; split <;> rfl

theorem simplifyGroup_eval (e : Expr) : (simplifyGroup e).eval ρ = e.eval ρ := by
  unfold simplifyGroup; split <;> rfl

theorem type?_not {e : Expr} {τ : Ty} (h : (Expr.not e).type? Γ = some τ) :
    e.type? Γ = some .bool ∧ τ = .bool := by
  simpa [type?, eq_comm] using h

theorem type?_binary {op : BinOp} {l r : Expr} {τ : Ty} (h : (Expr.binary op l r).type? Γ = some τ) :
    ∃ a b, l.type? Γ = some a ∧ r.type? Γ = some b ∧ op.type? a b = some τ := by
  unfold type? at h
  split at h
  · exact ⟨_, _, ‹_›, ‹_›, h⟩
  · cases h

theorem type?_bool {op : BinOp} {a b τ : Ty} (ho : op = .and ∨ op = .or) (h : op.type? a b = some τ) :
    a = .bool ∧ b = .bool ∧ τ = .bool := by
  rcases ho with rfl | rfl <;> cases a <;> cases b <;> simp_all [BinOp.type?]

theorem eval_of_truth (hρ : ρ.Typed Γ) {e e' : Expr} (he : e.type? Γ = some .bool)
    (he' : e'.type? Γ = some .bool) (h : e'.truth ρ = e.truth ρ) : e'.eval ρ = e.eval ρ := by
  rw [eval_bool hρ he, eval_bool hρ he', h]

/-- A rewriting of boolean expressions keeps their value if it keeps their truth value. -/
theorem keeps_of_truth (hρ : ρ.Typed Γ) {e e' : Expr} {τ : Ty} (h : Proper Γ L τ e) (hb : τ = .bool)
    (ht : Proper Γ L .bool e → Proper Γ L .bool e' ∧ e'.truth ρ = e.truth ρ) :
    Proper Γ L τ e' ∧ e'.eval ρ = e.eval ρ := by
  subst hb
  obtain ⟨h', ht⟩ := ht h
  exact ⟨h', eval_of_truth hρ h.type h'.type ht⟩

/-- Simplification keeps the type, the names and the value of a well-typed expression. -/
theorem simplify_keeps (hρ : ρ.Typed Γ) (e : Expr) : ∀ τ, Proper Γ L τ e →
    Proper Γ L τ (simplifyExpression e) ∧ (simplifyExpression e).eval ρ = e.eval ρ := by
  fun_induction simplifyExpression e with
  | case1 e ih => -- !!e
    intro τ h
    obtain ⟨h1, rfl⟩ := type?_not h.type
    obtain ⟨hp, hv⟩ := ih _ ⟨(type?_not h1).1, h.separate⟩
    exact keeps_of_truth hρ h rfl fun _ => ⟨hp, by simp [truth, hv, eval]⟩
  | case2 e e' he ih => -- !(e), where e becomes !e'
    intro τ h
    obtain ⟨h1, rfl⟩ := type?_not h.type
    obtain ⟨hp, hv⟩ := ih _ ⟨h1, h.separate⟩
    rw [he] at hp hv
    exact keeps_of_truth hρ h rfl fun _ =>
      ⟨⟨(type?_not hp.type).1, hp.separate⟩, by simp [truth, ← hv, eval]⟩
  | case3 e _ ih => -- !(e)
    intro τ h
    obtain ⟨h1, rfl⟩ := type?_not h.type
    obtain ⟨hp, hv⟩ := ih _ ⟨h1, h.separate⟩
    refine keeps_of_truth hρ h rfl fun _ => ?_
    obtain ⟨hn, ht⟩ := simplifyNot_keeps (ρ := ρ) (e := simplifyGroup (simplifyExpression e))
      ⟨by rw [simplifyGroup_type, hp.type], (simplifyGroup_separate _).2 hp.separate⟩
    exact ⟨hn, by rw [ht]; simp [truth, simplifyGroup_eval, hv, eval]⟩
  | case4 e _ _ ih => -- !e
    intro τ h
    obtain ⟨h1, rfl⟩ := type?_not h.type
    obtain ⟨hp, hv⟩ := ih _ ⟨h1, h.separate⟩
    refine keeps_of_truth hρ h rfl fun _ => ?_
    obtain ⟨hn, ht⟩ := simplifyNot_keeps (ρ := ρ) hp
    exact ⟨hn, by rw [ht]; simp [truth, hv, eval]⟩
  | case5 e ih => -- (e)
    intro τ h
    obtain ⟨hp, hv⟩ := ih τ ⟨h.type, h.separate⟩
    exact ⟨⟨by rw [simplifyGroup_type, hp.type], (simplifyGroup_separate _).2 hp.separate⟩,
      by rw [simplifyGroup_eval, hv]; rfl⟩
  | case6 l r ihl ihr => -- l && r
    intro τ h
    obtain ⟨a, b, ha, hb, ho⟩ := type?_binary h.type
    obtain ⟨rfl, rfl, rfl⟩ := type?_bool (.inl rfl) ho
    obtain ⟨hl, hvl⟩ := ihl _ ⟨ha, h.separate.1⟩
    obtain ⟨hr, hvr⟩ := ihr _ ⟨hb, h.separate.2⟩
    refine keeps_of_truth hρ h rfl fun _ => ?_
    obtain ⟨hp, ht⟩ := simplifyAnd_keeps (ρ := ρ) hl hr
    exact ⟨hp, by rw [ht]; simp [truth, hvl, hvr, eval, BinOp.eval]⟩
  | case7 l r ihl ihr => -- l || r
    intro τ h
    obtain ⟨a, b, ha, hb, ho⟩ := type?_binary h.type
    obtain ⟨rfl, rfl, rfl⟩ := type?_bool (.inr rfl) ho
    obtain ⟨hl, hvl⟩ := ihl _ ⟨ha, h.separate.1⟩
    obtain ⟨hr, hvr⟩ := ihr _ ⟨hb, h.separate.2⟩
    refine keeps_of_truth hρ h rfl fun _ => ?_
    obtain ⟨hp, ht⟩ := simplifyOr_keeps (ρ := ρ) hl hr
    exact ⟨hp, by rw [ht]; simp [truth, hvl, hvr, eval, BinOp.eval]⟩
  | case8 | case9 | case11 => exact fun _ h => ⟨h, rfl⟩
  | case10 op l r _ _ _ _ ihl ihr => -- a comparison
    intro τ h
    obtain ⟨a, b, ha, hb, ho⟩ := type?_binary h.type
    obtain ⟨hl, hvl⟩ := ihl _ ⟨ha, h.separate.1⟩
    obtain ⟨hr, hvr⟩ := ihr _ ⟨hb, h.separate.2⟩
    exact ⟨⟨by simp [type?, hl.type, hr.type, ho], hl.separate, hr.separate⟩,
      by simp [eval, hvl, hvr]⟩

theorem simplifyToplevel_keeps (hρ : ρ.Typed Γ) {e : Expr} {τ : Ty} (h : Proper Γ L τ e) :
    Proper Γ L τ (simplifyToplevelExpression e) ∧ (simplifyToplevelExpression e).eval ρ = e.eval ρ := by
  obtain ⟨hp, hv⟩ := simplify_keeps hρ e τ h
  unfold simplifyToplevelExpression
  split
  · rename_i e' he
    rw [he] at hp hv
    exact ⟨⟨hp.type, hp.separate⟩, hv⟩
  · exact ⟨hp, hv⟩

end
end Expr

/-- `simplify-guard` -/
def Stmt.simplifyGuard : Stmt → Stmt
  | .guard e s => .guard e.simplifyToplevelExpression s
  | s => s

/-! ## Which names simplification is sound for -/

/-- The declared variables are among `L`, the shared ones, with their port, among `S`. -/
structure Context.Over (L : Set String) (S : Set (String × String)) (Γ : Context) : Prop where
  var : ∀ x, (Γ.var x).isSome → x ∈ L
  sharedVar : ∀ p x, (Γ.sharedVar p x).isSome → (p, x) ∈ S

theorem Expr.separate_of_over {L : Set String} {S : Set (String × String)} {Γ : Context}
    (hΓ : Γ.Over L S) (hS : ∀ p x, (p, x) ∈ S → x ∉ L) (e : Expr) :
    ∀ {τ}, e.type? Γ = some τ → e.Separate (· ∈ L) := by
  induction e with
  | group e ih => exact ih
  | not e ih => exact fun h => ih (type?_not h).1
  | binary op l r ihl ihr =>
    intro τ h
    obtain ⟨a, b, ha, hb, -⟩ := type?_binary h
    exact ⟨ihl ha, ihr hb⟩
  | var x => exact fun h => hΓ.var x (by simp_all [type?])
  | sharedVar p x => exact fun h => hS p x (hΓ.sharedVar p x (by simp_all [type?]))
  | fieldTest x f =>
    intro τ h
    refine hΓ.var x ?_
    cases hx : Γ.var x <;> simp_all [type?]
  | sharedFieldTest p x f =>
    intro τ h
    refine hS p x (hΓ.sharedVar p x ?_)
    cases hx : Γ.sharedVar p x <;> simp_all [type?]
  | otherwiseValue e _ => rintro τ ⟨⟩
  | _ => exact fun _ => trivial

/-- `x` and the `x` of port `p`, both booleans. -/
def clashContext (p x : String) : Context where
  var y := if y = x then some .bool else none
  sharedVar q y := if q = p ∧ y = x then some .bool else none
  enum _ := none
  action _ _ := none
  call _ := none

/-- `x` holds and the `x` of every port does not. -/
def clashValuation : Valuation where
  var _ := .bool true
  sharedVar _ _ := .bool false
  action _ _ _ := .void
  call _ _ := .void

theorem clashValuation_typed (p x : String) : clashValuation.Typed (clashContext p x) where
  var y τ h := by
    simp only [clashContext, Option.ite_none_right_eq_some, Option.some.injEq] at h
    obtain ⟨-, rfl⟩ := h
    trivial
  sharedVar q y τ h := by
    simp only [clashContext, Option.ite_none_right_eq_some, Option.some.injEq] at h
    obtain ⟨-, rfl⟩ := h
    trivial
  action _ _ _ _ h := by cases h
  call _ _ _ h := by cases h

/-- `x && !p.x` simplifies to `false`. -/
theorem simplify_clash (p x : String) :
    (Expr.and (.var x) (.not (.sharedVar p x))).simplifyExpression = .false := by
  simp [Expr.and, Expr.simplifyExpression, Expr.simplifyAnd, Expr.simplifyNot, Expr.literalTrue,
    Expr.literalFalse, Expr.equal, Expr.static, Expr.notOf, Expr.true, Expr.false]

/-- Simplification keeps the truth value of every boolean expression over the variables `L` and
the shared variables `S` exactly when no shared variable has the name of one of the variables. -/
theorem simplify_sound_iff (L : Set String) (S : Set (String × String)) :
    (∀ (Γ : Context) (ρ : Valuation) (e : Expr), Γ.Over L S → ρ.Typed Γ → e.type? Γ = some .bool →
      e.simplifyExpression.truth ρ = e.truth ρ ∧
      ∀ s, ∃ e', (Stmt.guard e s).simplifyGuard = .guard e' s ∧ e'.truth ρ = e.truth ρ) ↔
    ∀ p x, (p, x) ∈ S → x ∉ L := by
  constructor
  · intro h p x hS hL
    have hΓ : (clashContext p x).Over L S :=
      ⟨fun y hy => by simp_all [clashContext], fun q y hy => by simp_all [clashContext]⟩
    obtain ⟨ht, -⟩ := h _ _ (.and (.var x) (.not (.sharedVar p x))) hΓ (clashValuation_typed p x)
      (by simp [Expr.type?, Expr.and, clashContext, BinOp.type?])
    rw [simplify_clash] at ht
    cases ht
  · intro hS Γ ρ e hΓ hρ he
    have hp : Expr.Proper Γ (· ∈ L) .bool e := ⟨he, e.separate_of_over hΓ hS he⟩
    refine ⟨?_, fun s => ⟨_, rfl, ?_⟩⟩
    · rw [Expr.truth, (Expr.simplify_keeps hρ e _ hp).2]; rfl
    · rw [Expr.truth, (Expr.simplifyToplevel_keeps hρ hp).2]; rfl

/-- The variable `x` and the shared variable `p.x`: `x && !p.x` loses its value. -/
theorem simplify_unsound :
    ¬ ∀ (Γ : Context) (ρ : Valuation) (e : Expr), ρ.Typed Γ → e.type? Γ = some .bool →
      e.simplifyExpression.truth ρ = e.truth ρ := by
  intro h
  have ht := h _ _ (.and (.var "x") (.not (.sharedVar "p" "x"))) (clashValuation_typed "p" "x")
    (by simp [Expr.type?, Expr.and, clashContext, BinOp.type?])
  rw [simplify_clash] at ht
  cases ht

end Dezyne
