import Dezyne.Eval
/-!
# Expressions: the text, the parse tree and the syntax

The grammar of expressions is right recursive, a rule for each level of
precedence, and `tree->expression` associates `-` again by matching on two
operators of a chain at a time. The reading of a text is the usual one, by the
same levels, with `+` and `-` from the left.
-/

namespace Dezyne

/-! ## Texts -/

/-- `COMPARE` -/
inductive Comparison where
  | equal | notEqual | lessEqual | less | greaterEqual | greater
deriving DecidableEq, Repr

def Comparison.op : Comparison → BinOp
  | .equal => .equal
  | .notEqual => .notEqual
  | .lessEqual => .lessEqual
  | .less => .less
  | .greaterEqual => .greaterEqual
  | .greater => .greater

/-- The words of an expression. An atom is a literal, a variable, a field test, or another expression that
`not-expression` finds without an operator. -/
inductive Token where
  | plus | minus | and | or | implies | not | parenOpen | parenClose
  | compare (op : Comparison)
  | atom (expression : Expr)
deriving Repr

mutual
/-- `implies-expression` -/
inductive ImpliesExpr where
  | only (e : OrExpr)
  | implies (left : OrExpr) (right : ImpliesExpr)

/-- `or-expression` -/
inductive OrExpr where
  | only (e : AndExpr)
  | or (left : AndExpr) (right : OrExpr)

/-- `and-expression` -/
inductive AndExpr where
  | only (e : CompareExpr)
  | and (left : CompareExpr) (right : AndExpr)

/-- `compare-expression` -/
inductive CompareExpr where
  | only (e : PlusMinExpr)
  | compare (op : Comparison) (left right : PlusMinExpr)

/-- `plus-min-expression` -/
inductive PlusMinExpr where
  | only (e : NotExpr)
  | plus (left : NotExpr) (right : PlusMinExpr)
  | minus (left : NotExpr) (right : PlusMinExpr)

/-- `not-expression` -/
inductive NotExpr where
  | minus (e : NotExpr)
  | negation (e : NotExpr)
  | group (e : ImpliesExpr)
  | atom (e : Expr)
end

mutual
/-- The text of a tree. -/
def ImpliesExpr.tokens : ImpliesExpr → List Token
  | .only e => e.tokens
  | .implies l r => l.tokens ++ .implies :: r.tokens

def OrExpr.tokens : OrExpr → List Token
  | .only e => e.tokens
  | .or l r => l.tokens ++ .or :: r.tokens

def AndExpr.tokens : AndExpr → List Token
  | .only e => e.tokens
  | .and l r => l.tokens ++ .and :: r.tokens

def CompareExpr.tokens : CompareExpr → List Token
  | .only e => e.tokens
  | .compare op l r => l.tokens ++ .compare op :: r.tokens

def PlusMinExpr.tokens : PlusMinExpr → List Token
  | .only e => e.tokens
  | .plus l r => l.tokens ++ .plus :: r.tokens
  | .minus l r => l.tokens ++ .minus :: r.tokens

def NotExpr.tokens : NotExpr → List Token
  | .minus e => .minus :: e.tokens
  | .negation e => .not :: e.tokens
  | .group e => .parenOpen :: (e.tokens ++ [.parenClose])
  | .atom e => [.atom e]
end

/-! ## The grammar -/

/-- What a rule makes of the start of a text: a tree and the rest, nothing, or a syntax error, where `#` expects
something else. -/
inductive Parsed (α : Type) where
  | ok (tree : α) (rest : List Token)
  | none
  | error

/-- `#` -/
def Parsed.expect {α β : Type} (f : α → β) : Parsed α → Parsed β
  | .ok tree rest => .ok (f tree) rest
  | .none => .error
  | .error => .error

/-- `left op right# / left` -/
def binaryRule {α β γ : Type} (only : α → β) (op : Token → Option (α → γ → β)) (left : Parsed α)
    (right : List Token → Parsed γ) : Parsed β :=
  match left with
  | .ok l (t :: rest) => match op t with
    | some f => (right rest).expect (f l)
    | none => .ok (only l) (t :: rest)
  | .ok l [] => .ok (only l) []
  | .none => .none
  | .error => .error

/-- `IMPLIES` -/
def impliesOp : Token → Option (OrExpr → ImpliesExpr → ImpliesExpr)
  | .implies => some .implies
  | _ => none

/-- `OR` -/
def orOp : Token → Option (AndExpr → OrExpr → OrExpr)
  | .or => some .or
  | _ => none

/-- `AND` -/
def andOp : Token → Option (CompareExpr → AndExpr → AndExpr)
  | .and => some .and
  | _ => none

/-- `COMPARE` -/
def compareOp : Token → Option (PlusMinExpr → PlusMinExpr → CompareExpr)
  | .compare op => some (.compare op)
  | _ => none

/-- `PLUS / MINUS` -/
def plusMinOp : Token → Option (NotExpr → PlusMinExpr → PlusMinExpr)
  | .plus => some .plus
  | .minus => some .minus
  | _ => none

mutual
def impliesExpression : Nat → List Token → Parsed ImpliesExpr
  | 0, _ => .error
  | n + 1, ts => binaryRule .only impliesOp (orExpression n ts) (impliesExpression n)

def orExpression : Nat → List Token → Parsed OrExpr
  | 0, _ => .error
  | n + 1, ts => binaryRule .only orOp (andExpression n ts) (orExpression n)

def andExpression : Nat → List Token → Parsed AndExpr
  | 0, _ => .error
  | n + 1, ts => binaryRule .only andOp (compareExpression n ts) (andExpression n)

def compareExpression : Nat → List Token → Parsed CompareExpr
  | 0, _ => .error
  | n + 1, ts => binaryRule .only compareOp (plusMinExpression n ts) (plusMinExpression n)

def plusMinExpression : Nat → List Token → Parsed PlusMinExpr
  | 0, _ => .error
  | n + 1, ts => binaryRule .only plusMinOp (notExpression n ts) (plusMinExpression n)

def notExpression : Nat → List Token → Parsed NotExpr
  | 0, _ => .error
  | n + 1, .minus :: rest => (notExpression n rest).expect .minus
  | n + 1, .not :: rest => (notExpression n rest).expect .negation
  | n + 1, .parenOpen :: rest => match impliesExpression n rest with
    | .ok e (.parenClose :: rest) => .ok (.group e) rest
    | .ok _ _ => .error
    | .none => .none
    | .error => .error
  | _ + 1, .atom e :: rest => .ok (.atom e) rest
  | _ + 1, _ => .none
end

/-- `expression`; no rule is entered more often than this without a word being read. -/
def expression (ts : List Token) : Parsed ImpliesExpr := impliesExpression (6 * ts.length) ts

/-! ## The syntax -/

mutual
/-- `helper` and `tree->expression` -/
def ImpliesExpr.toExpr : ImpliesExpr → Expr
  | .only e => e.toExpr
  | .implies l r => .binary .or (.not l.toExpr) r.toExpr

def OrExpr.toExpr : OrExpr → Expr
  | .only e => e.toExpr
  | .or l r => .binary .or l.toExpr r.toExpr

def AndExpr.toExpr : AndExpr → Expr
  | .only e => e.toExpr
  | .and l r => .binary .and l.toExpr r.toExpr

def CompareExpr.toExpr : CompareExpr → Expr
  | .only e => e.toExpr
  | .compare op l r => .binary op.op l.toExpr r.toExpr

def PlusMinExpr.toExpr : PlusMinExpr → Expr
  | .only e => e.toExpr
  | .minus l (.minus l' r) => .binary .minus (.binary .minus l.toExpr l'.toExpr) r.toExpr
  | .minus l (.plus l' r) => .binary .plus (.binary .minus l.toExpr l'.toExpr) r.toExpr
  | .plus l r => .binary .plus l.toExpr r.toExpr
  | .minus l (.only r) => .binary .minus l.toExpr r.toExpr

def NotExpr.toExpr : NotExpr → Expr
  | .minus e => .binary .minus (.literal (.int 0)) e.toExpr
  | .negation e => .not e.toExpr
  | .group e => .group e.toExpr
  | .atom e => e
end

/-! ## The reading -/

mutual
/-- What a text means. -/
def ImpliesExpr.reading (ρ : Valuation) : ImpliesExpr → Value
  | .only e => e.reading ρ
  | .implies l r => .bool (!(l.reading ρ).truth || (r.reading ρ).truth)

def OrExpr.reading (ρ : Valuation) : OrExpr → Value
  | .only e => e.reading ρ
  | .or l r => .bool ((l.reading ρ).truth || (r.reading ρ).truth)

def AndExpr.reading (ρ : Valuation) : AndExpr → Value
  | .only e => e.reading ρ
  | .and l r => .bool ((l.reading ρ).truth && (r.reading ρ).truth)

def CompareExpr.reading (ρ : Valuation) : CompareExpr → Value
  | .only e => e.reading ρ
  | .compare op l r => op.op.eval (l.reading ρ) (r.reading ρ)

def PlusMinExpr.reading (ρ : Valuation) : PlusMinExpr → Value
  | .only e => e.reading ρ
  | .plus l r => .int (r.total ρ (l.reading ρ).num 1)
  | .minus l r => .int (r.total ρ (l.reading ρ).num (-1))

/-- From left to right: what is before the chain, and the sign of its first operand. -/
def PlusMinExpr.total (ρ : Valuation) (before sign : Int) : PlusMinExpr → Int
  | .only e => before + sign * (e.reading ρ).num
  | .plus l r => r.total ρ (before + sign * (l.reading ρ).num) 1
  | .minus l r => r.total ρ (before + sign * (l.reading ρ).num) (-1)

def NotExpr.reading (ρ : Valuation) : NotExpr → Value
  | .minus e => .int (-(e.reading ρ).num)
  | .negation e => .bool (!(e.reading ρ).truth)
  | .group e => e.reading ρ
  | .atom e => e.eval ρ
end

mutual
/-- Every `-` that `tree->expression` associates with a second one is followed by one operand. -/
def ImpliesExpr.associates : ImpliesExpr → Bool
  | .only e => e.associates
  | .implies l r => l.associates && r.associates

def OrExpr.associates : OrExpr → Bool
  | .only e => e.associates
  | .or l r => l.associates && r.associates

def AndExpr.associates : AndExpr → Bool
  | .only e => e.associates
  | .and l r => l.associates && r.associates

def CompareExpr.associates : CompareExpr → Bool
  | .only e => e.associates
  | .compare _ l r => l.associates && r.associates

def PlusMinExpr.associates : PlusMinExpr → Bool
  | .only e => e.associates
  | .minus l (.minus l' (.only e)) => l.associates && l'.associates && e.associates
  | .minus _ (.minus _ _) => false
  | .minus l (.plus l' r) => l.associates && l'.associates && r.associates
  | .plus l r => l.associates && r.associates
  | .minus l (.only r) => l.associates && r.associates

def NotExpr.associates : NotExpr → Bool
  | .minus e => e.associates
  | .negation e => e.associates
  | .group e => e.associates
  | .atom _ => true
end

/-! ## Every text is parsed to its tree -/

/-- The levels of the operators, the strongest first; other words have none. -/
def Token.level : Token → Nat
  | .plus => 0
  | .minus => 0
  | .compare _ => 1
  | .and => 2
  | .or => 3
  | .implies => 4
  | _ => 5

/-- The next word is not an operator below a level. -/
def stops (level : Nat) (rest : List Token) : Prop := ∀ t ∈ rest.head?, level ≤ t.level

theorem stops_nil (level : Nat) : stops level [] := by
  intro t h
  cases h

theorem stops_cons {level : Nat} {t : Token} {rest : List Token} (h : level ≤ t.level) :
    stops level (t :: rest) := by
  intro u hu
  obtain rfl := Option.some.inj hu
  exact h

theorem stops.mono {level level' : Nat} {rest : List Token} (h : stops level rest) (hle : level' ≤ level) :
    stops level' rest :=
  fun t ht => Nat.le_trans hle (h t ht)

section
variable {α β γ : Type} {only : α → β} {op : Token → Option (α → γ → β)} {left : Parsed α}
  {right : List Token → Parsed γ} {l : α} {r : γ} {t : Token} {ts rest : List Token} {f : α → γ → β}
  {tree : β}

theorem binaryRule_only (hleft : left = .ok l rest) (hop : ∀ t ∈ rest.head?, op t = none) :
    binaryRule only op left right = .ok (only l) rest := by
  subst hleft
  cases rest with
  | nil => rfl
  | cons t rest => simp only [binaryRule, hop t rfl]

theorem binaryRule_op (hleft : left = .ok l (t :: ts)) (hop : op t = some f)
    (hright : right ts = .ok r rest) : binaryRule only op left right = .ok (f l r) rest := by
  subst hleft
  simp only [binaryRule, hop, hright]
  rfl

/-- What a rule makes is one of its alternatives. -/
theorem binaryRule_ok (h : binaryRule only op left right = .ok tree rest) :
    (∃ l, left = .ok l rest ∧ tree = only l) ∨
    ∃ l t ts f r, left = .ok l (t :: ts) ∧ op t = some f ∧ right ts = .ok r rest ∧ tree = f l r := by
  unfold binaryRule at h
  cases left with
  | none => cases h
  | error => cases h
  | ok l rest' =>
    cases rest' with
    | nil =>
      cases h
      exact .inl ⟨l, rfl, rfl⟩
    | cons t ts =>
      simp only at h
      cases hop : op t with
      | none =>
        rw [hop] at h
        cases h
        exact .inl ⟨l, rfl, rfl⟩
      | some f =>
        simp only [hop] at h
        cases hright : right ts with
        | none => rw [hright] at h; cases h
        | error => rw [hright] at h; cases h
        | ok r rest' =>
          rw [hright] at h
          cases h
          exact .inr ⟨l, t, ts, f, r, rfl, hop, hright, rfl⟩

end

mutual
theorem ImpliesExpr.tokens_pos : ∀ e : ImpliesExpr, 0 < e.tokens.length
  | .only e => e.tokens_pos
  | .implies _ _ => List.length_pos_of_mem (List.mem_append_right _ List.mem_cons_self)

theorem OrExpr.tokens_pos : ∀ e : OrExpr, 0 < e.tokens.length
  | .only e => e.tokens_pos
  | .or _ _ => List.length_pos_of_mem (List.mem_append_right _ List.mem_cons_self)

theorem AndExpr.tokens_pos : ∀ e : AndExpr, 0 < e.tokens.length
  | .only e => e.tokens_pos
  | .and _ _ => List.length_pos_of_mem (List.mem_append_right _ List.mem_cons_self)

theorem CompareExpr.tokens_pos : ∀ e : CompareExpr, 0 < e.tokens.length
  | .only e => e.tokens_pos
  | .compare _ _ _ => List.length_pos_of_mem (List.mem_append_right _ List.mem_cons_self)

theorem PlusMinExpr.tokens_pos : ∀ e : PlusMinExpr, 0 < e.tokens.length
  | .only e => e.tokens_pos
  | .plus _ _ => List.length_pos_of_mem (List.mem_append_right _ List.mem_cons_self)
  | .minus _ _ => List.length_pos_of_mem (List.mem_append_right _ List.mem_cons_self)

theorem NotExpr.tokens_pos : ∀ e : NotExpr, 0 < e.tokens.length
  | .minus _ => Nat.succ_pos _
  | .negation _ => Nat.succ_pos _
  | .group _ => Nat.succ_pos _
  | .atom _ => Nat.succ_pos _
end

theorem length_tokens {ls rs : List Token} {t : Token} :
    (ls ++ t :: rs).length = ls.length + rs.length + 1 := by
  rw [List.length_append, List.length_cons, Nat.add_assoc]

mutual
theorem ImpliesExpr.parsed : ∀ (e : ImpliesExpr) (n : Nat) (rest : List Token), 6 * e.tokens.length ≤ n →
    stops 5 rest → impliesExpression n (e.tokens ++ rest) = .ok e rest
  | e, 0, _, hn, _ => by
    have := e.tokens_pos
    omega
  | .only e, n + 1, rest, hn, hstops => by
    rw [ImpliesExpr.tokens] at hn ⊢
    apply binaryRule_only (e.parsed n rest (by omega) (hstops.mono (by omega)))
    intro t ht
    have := hstops t ht
    cases t <;> first | rfl | (simp only [Token.level] at this; omega)
  | .implies l r, n + 1, rest, hn, hstops => by
    rw [ImpliesExpr.tokens, length_tokens] at hn
    rw [ImpliesExpr.tokens, List.append_assoc]
    exact binaryRule_op (l.parsed n _ (by omega) (stops_cons (Nat.le_refl _))) rfl
      (r.parsed n rest (by omega) hstops)

theorem OrExpr.parsed : ∀ (e : OrExpr) (n : Nat) (rest : List Token), 6 * e.tokens.length ≤ n + 1 →
    stops 4 rest → orExpression n (e.tokens ++ rest) = .ok e rest
  | e, 0, _, hn, _ => by
    have := e.tokens_pos
    omega
  | .only e, n + 1, rest, hn, hstops => by
    rw [OrExpr.tokens] at hn ⊢
    apply binaryRule_only (e.parsed n rest (by omega) (hstops.mono (by omega)))
    intro t ht
    have := hstops t ht
    cases t <;> first | rfl | (simp only [Token.level] at this; omega)
  | .or l r, n + 1, rest, hn, hstops => by
    rw [OrExpr.tokens, length_tokens] at hn
    rw [OrExpr.tokens, List.append_assoc]
    exact binaryRule_op (l.parsed n _ (by omega) (stops_cons (Nat.le_refl _))) rfl
      (r.parsed n rest (by omega) hstops)

theorem AndExpr.parsed : ∀ (e : AndExpr) (n : Nat) (rest : List Token), 6 * e.tokens.length ≤ n + 2 →
    stops 3 rest → andExpression n (e.tokens ++ rest) = .ok e rest
  | e, 0, _, hn, _ => by
    have := e.tokens_pos
    omega
  | .only e, n + 1, rest, hn, hstops => by
    rw [AndExpr.tokens] at hn ⊢
    apply binaryRule_only (e.parsed n rest (by omega) (hstops.mono (by omega)))
    intro t ht
    have := hstops t ht
    cases t <;> first | rfl | (simp only [Token.level] at this; omega)
  | .and l r, n + 1, rest, hn, hstops => by
    rw [AndExpr.tokens, length_tokens] at hn
    rw [AndExpr.tokens, List.append_assoc]
    exact binaryRule_op (l.parsed n _ (by omega) (stops_cons (Nat.le_refl _))) rfl
      (r.parsed n rest (by omega) hstops)

theorem CompareExpr.parsed : ∀ (e : CompareExpr) (n : Nat) (rest : List Token), 6 * e.tokens.length ≤ n + 3 →
    stops 2 rest → compareExpression n (e.tokens ++ rest) = .ok e rest
  | e, 0, _, hn, _ => by
    have := e.tokens_pos
    omega
  | .only e, n + 1, rest, hn, hstops => by
    rw [CompareExpr.tokens] at hn ⊢
    apply binaryRule_only (e.parsed n rest (by omega) (hstops.mono (by omega)))
    intro t ht
    have := hstops t ht
    cases t <;> first | rfl | (simp only [Token.level] at this; omega)
  | .compare op l r, n + 1, rest, hn, hstops => by
    have hpos := l.tokens_pos
    rw [CompareExpr.tokens, length_tokens] at hn
    rw [CompareExpr.tokens, List.append_assoc]
    exact binaryRule_op (l.parsed n _ (by omega) (stops_cons (Nat.le_refl _))) rfl
      (r.parsed n rest (by omega) (hstops.mono (by omega)))

theorem PlusMinExpr.parsed : ∀ (e : PlusMinExpr) (n : Nat) (rest : List Token), 6 * e.tokens.length ≤ n + 4 →
    stops 1 rest → plusMinExpression n (e.tokens ++ rest) = .ok e rest
  | e, 0, _, hn, _ => by
    have := e.tokens_pos
    omega
  | .only e, n + 1, rest, hn, hstops => by
    rw [PlusMinExpr.tokens] at hn ⊢
    apply binaryRule_only (e.parsed n rest (by omega))
    intro t ht
    have := hstops t ht
    cases t <;> first | rfl | (simp only [Token.level] at this; omega)
  | .plus l r, n + 1, rest, hn, hstops => by
    rw [PlusMinExpr.tokens, length_tokens] at hn
    rw [PlusMinExpr.tokens, List.append_assoc]
    exact binaryRule_op (l.parsed n _ (by omega)) rfl (r.parsed n rest (by omega) hstops)
  | .minus l r, n + 1, rest, hn, hstops => by
    rw [PlusMinExpr.tokens, length_tokens] at hn
    rw [PlusMinExpr.tokens, List.append_assoc]
    exact binaryRule_op (l.parsed n _ (by omega)) rfl (r.parsed n rest (by omega) hstops)

theorem NotExpr.parsed : ∀ (e : NotExpr) (n : Nat) (rest : List Token), 6 * e.tokens.length ≤ n + 5 →
    notExpression n (e.tokens ++ rest) = .ok e rest
  | e, 0, _, hn => by
    have := e.tokens_pos
    omega
  | .minus e, n + 1, rest, hn => by
    rw [NotExpr.tokens, List.length_cons] at hn
    rw [NotExpr.tokens, List.cons_append, notExpression, e.parsed n rest (by omega)]
    rfl
  | .negation e, n + 1, rest, hn => by
    rw [NotExpr.tokens, List.length_cons] at hn
    rw [NotExpr.tokens, List.cons_append, notExpression, e.parsed n rest (by omega)]
    rfl
  | .group e, n + 1, rest, hn => by
    rw [NotExpr.tokens, List.length_cons, List.length_append] at hn
    rw [NotExpr.tokens, List.cons_append, List.append_assoc, List.singleton_append, notExpression,
      e.parsed n _ (by simp only [List.length_singleton] at hn; omega) (stops_cons (Nat.le_refl _))]
  | .atom _, _ + 1, _, _ => rfl
end

/-- Every text is parsed to its tree. -/
theorem expression_tokens (e : ImpliesExpr) : expression e.tokens = .ok e [] := by
  have h := e.parsed (6 * e.tokens.length) [] (Nat.le_refl _) (stops_nil 5)
  rwa [List.append_nil] at h

theorem Parsed.expect_ok {α β : Type} {f : α → β} {parsed : Parsed α} {tree : β} {rest : List Token}
    (h : parsed.expect f = .ok tree rest) : ∃ e, parsed = .ok e rest ∧ tree = f e := by
  cases parsed with
  | ok e rest' =>
    cases h
    exact ⟨e, rfl, rfl⟩
  | none => cases h
  | error => cases h

mutual
theorem impliesExpression_tokens : ∀ (n : Nat) (ts rest : List Token) (e : ImpliesExpr),
    impliesExpression n ts = .ok e rest → ts = e.tokens ++ rest
  | 0, _, _, _, h => nomatch h
  | n + 1, ts, rest, e, h => by
    rcases binaryRule_ok h with ⟨l, hl, rfl⟩ | ⟨l, t, ts', f, r, hl, hop, hr, rfl⟩
    · exact orExpression_tokens n ts rest l hl
    · obtain rfl := impliesExpression_tokens n ts' rest r hr
      rw [orExpression_tokens n ts _ l hl]
      cases t <;> cases hop
      simp [ImpliesExpr.tokens]

theorem orExpression_tokens : ∀ (n : Nat) (ts rest : List Token) (e : OrExpr),
    orExpression n ts = .ok e rest → ts = e.tokens ++ rest
  | 0, _, _, _, h => nomatch h
  | n + 1, ts, rest, e, h => by
    rcases binaryRule_ok h with ⟨l, hl, rfl⟩ | ⟨l, t, ts', f, r, hl, hop, hr, rfl⟩
    · exact andExpression_tokens n ts rest l hl
    · obtain rfl := orExpression_tokens n ts' rest r hr
      rw [andExpression_tokens n ts _ l hl]
      cases t <;> cases hop
      simp [OrExpr.tokens]

theorem andExpression_tokens : ∀ (n : Nat) (ts rest : List Token) (e : AndExpr),
    andExpression n ts = .ok e rest → ts = e.tokens ++ rest
  | 0, _, _, _, h => nomatch h
  | n + 1, ts, rest, e, h => by
    rcases binaryRule_ok h with ⟨l, hl, rfl⟩ | ⟨l, t, ts', f, r, hl, hop, hr, rfl⟩
    · exact compareExpression_tokens n ts rest l hl
    · obtain rfl := andExpression_tokens n ts' rest r hr
      rw [compareExpression_tokens n ts _ l hl]
      cases t <;> cases hop
      simp [AndExpr.tokens]

theorem compareExpression_tokens : ∀ (n : Nat) (ts rest : List Token) (e : CompareExpr),
    compareExpression n ts = .ok e rest → ts = e.tokens ++ rest
  | 0, _, _, _, h => nomatch h
  | n + 1, ts, rest, e, h => by
    rcases binaryRule_ok h with ⟨l, hl, rfl⟩ | ⟨l, t, ts', f, r, hl, hop, hr, rfl⟩
    · exact plusMinExpression_tokens n ts rest l hl
    · obtain rfl := plusMinExpression_tokens n ts' rest r hr
      rw [plusMinExpression_tokens n ts _ l hl]
      cases t <;> cases hop
      simp [CompareExpr.tokens]

theorem plusMinExpression_tokens : ∀ (n : Nat) (ts rest : List Token) (e : PlusMinExpr),
    plusMinExpression n ts = .ok e rest → ts = e.tokens ++ rest
  | 0, _, _, _, h => nomatch h
  | n + 1, ts, rest, e, h => by
    rcases binaryRule_ok h with ⟨l, hl, rfl⟩ | ⟨l, t, ts', f, r, hl, hop, hr, rfl⟩
    · exact notExpression_tokens n ts rest l hl
    · obtain rfl := plusMinExpression_tokens n ts' rest r hr
      rw [notExpression_tokens n ts _ l hl]
      cases t <;> cases hop <;> simp [PlusMinExpr.tokens]

theorem notExpression_tokens : ∀ (n : Nat) (ts rest : List Token) (e : NotExpr),
    notExpression n ts = .ok e rest → ts = e.tokens ++ rest
  | 0, _, _, _, h => nomatch h
  | n + 1, ts, rest, e, h => by
    cases ts with
    | nil => cases h
    | cons t ts =>
      cases t
      case minus =>
        obtain ⟨e, he, rfl⟩ := Parsed.expect_ok h
        rw [notExpression_tokens n ts rest e he, NotExpr.tokens, List.cons_append]
      case not =>
        obtain ⟨e, he, rfl⟩ := Parsed.expect_ok h
        rw [notExpression_tokens n ts rest e he, NotExpr.tokens, List.cons_append]
      case parenOpen =>
        rw [notExpression] at h
        cases he : impliesExpression n ts with
        | none => rw [he] at h; cases h
        | error => rw [he] at h; cases h
        | ok e rest' =>
          rw [he] at h
          cases rest' with
          | nil => cases h
          | cons t rest' =>
            cases t <;> cases h
            rw [impliesExpression_tokens n ts _ e he, NotExpr.tokens]
            simp
      case atom => cases h; rfl
      all_goals cases h
end

/-- What is parsed is the text of the tree. -/
theorem tokens_of_expression {ts rest : List Token} {e : ImpliesExpr} (h : expression ts = .ok e rest) :
    ts = e.tokens ++ rest :=
  impliesExpression_tokens _ ts rest e h

/-! ## The value of the syntax -/

section
variable {ρ : Valuation}

/-- What is before the chain is added to it. -/
theorem PlusMinExpr.total_add : ∀ (e : PlusMinExpr) (a b sign : Int),
    e.total ρ (a + b) sign = a + e.total ρ b sign
  | .only e, a, b, sign => by simp only [PlusMinExpr.total]; omega
  | .plus l r, a, b, sign => by
    simp only [PlusMinExpr.total]
    rw [Int.add_assoc, r.total_add]
  | .minus l r, a, b, sign => by
    simp only [PlusMinExpr.total]
    rw [Int.add_assoc, r.total_add]

/-- A chain after a plus. -/
theorem PlusMinExpr.total_plus (e : PlusMinExpr) (before : Int) :
    e.total ρ before 1 = before + (e.reading ρ).num := by
  cases e with
  | only e => simp only [PlusMinExpr.total, PlusMinExpr.reading, Int.one_mul]
  | plus l r => simp only [PlusMinExpr.total, PlusMinExpr.reading, Int.one_mul, r.total_add, Value.num_int]
  | minus l r => simp only [PlusMinExpr.total, PlusMinExpr.reading, Int.one_mul, r.total_add, Value.num_int]

mutual
theorem ImpliesExpr.eval_toExpr : ∀ e : ImpliesExpr, e.associates = true → e.toExpr.eval ρ = e.reading ρ
  | .only e, h => e.eval_toExpr h
  | .implies l r, h => by
    obtain ⟨hl, hr⟩ := Bool.and_eq_true_iff.1 h
    simp only [ImpliesExpr.toExpr, ImpliesExpr.reading, Expr.eval, BinOp.eval, l.eval_toExpr hl, r.eval_toExpr hr,
      Value.truth_bool]

theorem OrExpr.eval_toExpr : ∀ e : OrExpr, e.associates = true → e.toExpr.eval ρ = e.reading ρ
  | .only e, h => e.eval_toExpr h
  | .or l r, h => by
    obtain ⟨hl, hr⟩ := Bool.and_eq_true_iff.1 h
    simp only [OrExpr.toExpr, OrExpr.reading, Expr.eval, BinOp.eval, l.eval_toExpr hl, r.eval_toExpr hr]

theorem AndExpr.eval_toExpr : ∀ e : AndExpr, e.associates = true → e.toExpr.eval ρ = e.reading ρ
  | .only e, h => e.eval_toExpr h
  | .and l r, h => by
    obtain ⟨hl, hr⟩ := Bool.and_eq_true_iff.1 h
    simp only [AndExpr.toExpr, AndExpr.reading, Expr.eval, BinOp.eval, l.eval_toExpr hl, r.eval_toExpr hr]

theorem CompareExpr.eval_toExpr : ∀ e : CompareExpr, e.associates = true → e.toExpr.eval ρ = e.reading ρ
  | .only e, h => e.eval_toExpr h
  | .compare op l r, h => by
    obtain ⟨hl, hr⟩ := Bool.and_eq_true_iff.1 h
    simp only [CompareExpr.toExpr, CompareExpr.reading, Expr.eval, l.eval_toExpr hl, r.eval_toExpr hr]

theorem PlusMinExpr.eval_toExpr : ∀ e : PlusMinExpr, e.associates = true → e.toExpr.eval ρ = e.reading ρ
  | .only e, h => e.eval_toExpr h
  | .plus l r, h => by
    obtain ⟨hl, hr⟩ := Bool.and_eq_true_iff.1 h
    simp only [PlusMinExpr.toExpr, PlusMinExpr.reading, Expr.eval, BinOp.eval, l.eval_toExpr hl, r.eval_toExpr hr,
      r.total_plus]
  | .minus l (.only r), h => by
    obtain ⟨hl, hr⟩ := Bool.and_eq_true_iff.1 h
    simp only [PlusMinExpr.toExpr, PlusMinExpr.reading, PlusMinExpr.total, Expr.eval, BinOp.eval, l.eval_toExpr hl,
      r.eval_toExpr hr]
    congr 1
    omega
  | .minus l (.plus l' r), h => by
    obtain ⟨hl, hr⟩ := Bool.and_eq_true_iff.1 h
    obtain ⟨hl, hl'⟩ := Bool.and_eq_true_iff.1 hl
    simp only [PlusMinExpr.toExpr, PlusMinExpr.reading, PlusMinExpr.total, Expr.eval, BinOp.eval, l.eval_toExpr hl,
      l'.eval_toExpr hl', r.eval_toExpr hr, r.total_plus, Value.num_int]
    congr 1
    omega
  | .minus l (.minus l' (.only e)), h => by
    obtain ⟨hl, he⟩ := Bool.and_eq_true_iff.1 h
    obtain ⟨hl, hl'⟩ := Bool.and_eq_true_iff.1 hl
    simp only [PlusMinExpr.toExpr, PlusMinExpr.reading, PlusMinExpr.total, Expr.eval, BinOp.eval, l.eval_toExpr hl,
      l'.eval_toExpr hl', e.eval_toExpr he, Value.num_int]
    congr 1
    omega
  | .minus _ (.minus _ (.plus _ _)), h => by cases h
  | .minus _ (.minus _ (.minus _ _)), h => by cases h

theorem NotExpr.eval_toExpr : ∀ e : NotExpr, e.associates = true → e.toExpr.eval ρ = e.reading ρ
  | .minus e, h => by
    simp only [NotExpr.toExpr, NotExpr.reading, Expr.eval, BinOp.eval, Literal.value, e.eval_toExpr h, Value.num_int,
      Int.zero_sub]
  | .negation e, h => by simp only [NotExpr.toExpr, NotExpr.reading, Expr.eval, e.eval_toExpr h]
  | .group e, h => by simp only [NotExpr.toExpr, NotExpr.reading, Expr.eval, e.eval_toExpr h]
  | .atom _, _ => rfl
end

end

/-! ## Chains of variables -/

/-- A chain of variables; each but the first has its operator, true for `+`. -/
def chain (x : String) : List (Bool × String) → PlusMinExpr
  | [] => .only (.atom (.var x))
  | (true, y) :: ops => .plus (.atom (.var x)) (chain y ops)
  | (false, y) :: ops => .minus (.atom (.var x)) (chain y ops)

/-- One variable is one, and the others are zero. -/
def oneAt (y : String) : Valuation where
  var := fun x => .int (if x = y then 1 else 0)
  sharedVar := fun _ _ => .void
  action := fun _ _ _ => .void
  call := fun _ _ => .void

section
variable {ρ : Valuation} {x y z : String} {ops : List (Bool × String)}

/-- The first of a chain has its own sign. -/
theorem eval_chain : ∀ (x : String) (ops : List (Bool × String)) (a : Int),
    (∀ op ∈ ops, ρ.var op.2 = .int 0) → ρ.var x = .int a → (chain x ops).toExpr.eval ρ = .int a
  | _, [], _, _, hx => hx
  | x, (true, y) :: ops, a, h, hx => by
    have hy := eval_chain y ops 0 (fun op hop => h op (List.mem_cons_of_mem _ hop)) (h _ List.mem_cons_self)
    simp only [chain, PlusMinExpr.toExpr, NotExpr.toExpr, Expr.eval, BinOp.eval, hx, hy, Value.num_int,
      Int.add_zero]
  | x, [(false, y)], a, h, hx => by
    simp only [chain, PlusMinExpr.toExpr, NotExpr.toExpr, Expr.eval, BinOp.eval, hx, h _ List.mem_cons_self,
      Value.num_int, Int.sub_zero]
  | x, (false, y) :: (true, z) :: ops, a, h, hx => by
    have hz := eval_chain z ops 0 (fun op hop => h op (by simp [hop])) (h (true, z) (by simp))
    simp only [chain, PlusMinExpr.toExpr, NotExpr.toExpr, Expr.eval, BinOp.eval, hx, h _ List.mem_cons_self, hz,
      Value.num_int, Int.sub_zero, Int.add_zero]
  | x, (false, y) :: (false, z) :: ops, a, h, hx => by
    have hz := eval_chain z ops 0 (fun op hop => h op (by simp [hop])) (h (false, z) (by simp))
    simp only [chain, PlusMinExpr.toExpr, NotExpr.toExpr, Expr.eval, BinOp.eval, hx, h _ List.mem_cons_self, hz,
      Value.num_int, Int.sub_zero]

theorem total_chain : ∀ (x : String) (ops : List (Bool × String)) (a before sign : Int),
    (∀ op ∈ ops, ρ.var op.2 = .int 0) → ρ.var x = .int a →
    (chain x ops).total ρ before sign = before + sign * a
  | x, [], a, before, sign, _, hx => by
    simp only [chain, PlusMinExpr.total, NotExpr.reading, Expr.eval, hx, Value.num_int]
  | x, (true, y) :: ops, a, before, sign, h, hx => by
    have hy := total_chain y ops 0 (before + sign * a) 1 (fun op hop => h op (List.mem_cons_of_mem _ hop))
      (h _ List.mem_cons_self)
    simp only [chain, PlusMinExpr.total, NotExpr.reading, Expr.eval, hx, Value.num_int, hy, Int.mul_zero,
      Int.add_zero]
  | x, (false, y) :: ops, a, before, sign, h, hx => by
    have hy := total_chain y ops 0 (before + sign * a) (-1) (fun op hop => h op (List.mem_cons_of_mem _ hop))
      (h _ List.mem_cons_self)
    simp only [chain, PlusMinExpr.total, NotExpr.reading, Expr.eval, hx, Value.num_int, hy, Int.mul_zero,
      Int.add_zero]

/-- The second of a chain has the sign of its operator. -/
theorem eval_chain_second (sign : Bool) (hx : ρ.var x = .int 0) (hy : ρ.var y = .int 1)
    (h : ∀ op ∈ ops, ρ.var op.2 = .int 0) :
    (chain x ((sign, y) :: ops)).toExpr.eval ρ = .int (if sign then 1 else -1) := by
  cases sign with
  | true =>
    have hrest := eval_chain y ops 1 h hy
    simp only [chain, PlusMinExpr.toExpr, NotExpr.toExpr, Expr.eval, BinOp.eval, hx, hrest, Value.num_int]
    rfl
  | false =>
    match ops, h with
    | [], _ =>
      simp only [chain, PlusMinExpr.toExpr, NotExpr.toExpr, Expr.eval, BinOp.eval, hx, hy, Value.num_int]
      rfl
    | (true, z) :: ops, h =>
      have hz := eval_chain z ops 0 (fun op hop => h op (List.mem_cons_of_mem _ hop)) (h _ List.mem_cons_self)
      simp only [chain, PlusMinExpr.toExpr, NotExpr.toExpr, Expr.eval, BinOp.eval, hx, hy, hz, Value.num_int]
      rfl
    | (false, z) :: ops, h =>
      have hz := eval_chain z ops 0 (fun op hop => h op (List.mem_cons_of_mem _ hop)) (h _ List.mem_cons_self)
      simp only [chain, PlusMinExpr.toExpr, NotExpr.toExpr, Expr.eval, BinOp.eval, hx, hy, hz, Value.num_int]
      rfl

/-- A chain that is not associated again has a value that is not its own. -/
theorem chain_differs : ∀ (x : String) (ops : List (Bool × String)), (x :: ops.map Prod.snd).Nodup →
    (chain x ops).associates = false →
    ∃ ρ : Valuation, ((chain x ops).toExpr.eval ρ).num ≠ ((chain x ops).reading ρ).num
  | x, [], _, h => by cases h
  | x, (true, y) :: ops, hd, h => by
    obtain ⟨ρ, hρ⟩ := chain_differs y ops (List.nodup_cons.1 hd).2 h
    refine ⟨ρ, ?_⟩
    simp only [chain, PlusMinExpr.toExpr, PlusMinExpr.reading, NotExpr.toExpr, NotExpr.reading, Expr.eval, BinOp.eval,
      Value.num_int, PlusMinExpr.total_plus]
    omega
  | x, [(false, y)], _, h => by cases h
  | x, (false, y) :: (true, z) :: ops, hd, h => by
    obtain ⟨ρ, hρ⟩ := chain_differs z ops (List.nodup_cons.1 (List.nodup_cons.1 hd).2).2 h
    refine ⟨ρ, ?_⟩
    simp only [chain, PlusMinExpr.toExpr, PlusMinExpr.reading, PlusMinExpr.total, NotExpr.toExpr, NotExpr.reading,
      Expr.eval, BinOp.eval, Value.num_int, PlusMinExpr.total_plus]
    omega
  | x, [(false, y), (false, z)], _, h => by cases h
  | x, (false, y) :: (false, z) :: (sign, w) :: ops, hd, _ => by
    -- the operand after the two that are associated gets the other sign
    have hw : x ≠ w ∧ y ≠ w ∧ z ≠ w ∧ ∀ op ∈ ops, op.2 ≠ w := by
      simp only [List.map_cons, List.nodup_cons, List.mem_cons, not_or, List.mem_map, not_exists, not_and] at hd
      exact ⟨hd.1.2.2.1, hd.2.1.2.1, hd.2.2.1.1, fun op hop => hd.2.2.2.1 op hop⟩
    have hzero : ∀ {v : String}, v ≠ w → (oneAt w).var v = .int 0 := fun hv => congrArg Value.int (if_neg hv)
    have hone : (oneAt w).var w = .int 1 := congrArg Value.int (if_pos rfl)
    have hops : ∀ op ∈ ops, (oneAt w).var op.2 = .int 0 := fun op hop => hzero (hw.2.2.2 op hop)
    refine ⟨oneAt w, ?_⟩
    have heval := eval_chain_second sign (hzero hw.2.2.1) hone hops
    have htotal : (chain z ((sign, w) :: ops)).total (oneAt w) 0 (-1) = if sign then 1 else -1 := by
      cases sign with
      | true =>
        simp only [chain, PlusMinExpr.total, NotExpr.reading, Expr.eval, hzero hw.2.2.1, Value.num_int,
          total_chain w ops 1 _ 1 hops hone]
        rfl
      | false =>
        simp only [chain, PlusMinExpr.total, NotExpr.reading, Expr.eval, hzero hw.2.2.1, Value.num_int,
          total_chain w ops 1 _ (-1) hops hone]
        rfl
    have hcode : ((chain x ((false, y) :: (false, z) :: (sign, w) :: ops)).toExpr.eval (oneAt w)).num =
        -(if sign then 1 else -1) := by
      rw [chain, chain, PlusMinExpr.toExpr, Expr.eval, Expr.eval, heval]
      simp only [NotExpr.toExpr, Expr.eval, hzero hw.1, hzero hw.2.1, BinOp.eval, Value.num_int]
      omega
    have hread : ((chain x ((false, y) :: (false, z) :: (sign, w) :: ops)).reading (oneAt w)).num =
        if sign then 1 else -1 := by
      rw [← htotal, chain, chain, PlusMinExpr.reading, PlusMinExpr.total]
      simp only [NotExpr.reading, Expr.eval, hzero hw.1, hzero hw.2.1, Value.num_int]
      rfl
    rw [hcode, hread]
    cases sign <;> decide

end

/-- A text is parsed to its tree and no other one is parsed; the syntax has the value of the text where every
chain is associated again; and a chain of different variables has it for all their values only there. -/
theorem expression_reading (ts : List Token) (e : ImpliesExpr) (ρ : Valuation) (x : String)
    (ops : List (Bool × String)) :
    (expression ts = .ok e [] ↔ ts = e.tokens) ∧
    (e.associates = true → e.toExpr.eval ρ = e.reading ρ) ∧
    ((x :: ops.map Prod.snd).Nodup → ((∀ ρ' : Valuation, (chain x ops).toExpr.eval ρ' = (chain x ops).reading ρ') ↔
      (chain x ops).associates = true)) := by
  refine ⟨⟨fun h => ?_, fun h => ?_⟩, fun h => e.eval_toExpr h, fun hd => ⟨fun h => ?_, fun h ρ' => ?_⟩⟩
  · rw [tokens_of_expression h, List.append_nil]
  · rw [h, expression_tokens]
  · by_contra hbad
    obtain ⟨ρ', hρ⟩ := chain_differs x ops hd (by simpa using hbad)
    exact hρ (congrArg Value.num (h ρ'))
  · exact PlusMinExpr.eval_toExpr _ h

/-- A chain as a whole text. -/
def chainText (x : String) (ops : List (Bool × String)) : ImpliesExpr :=
  .only (.only (.only (.only (chain x ops))))

/-- `a - b + c - d` and `a - b - c + d`. -/
theorem expression_reading_chains :
    (∀ ρ : Valuation, (chainText "a" [(false, "b"), (true, "c"), (false, "d")]).toExpr.eval ρ =
      (chainText "a" [(false, "b"), (true, "c"), (false, "d")]).reading ρ) ∧
    ¬ ∀ ρ : Valuation, (chain "a" [(false, "b"), (false, "c"), (true, "d")]).toExpr.eval ρ =
      (chain "a" [(false, "b"), (false, "c"), (true, "d")]).reading ρ := by
  have hread := expression_reading [] (chainText "a" [(false, "b"), (true, "c"), (false, "d")])
  refine ⟨fun ρ => (hread ρ "a" []).2.1 rfl, fun h => ?_⟩
  have hgood := ((hread (oneAt "d") "a" [(false, "b"), (false, "c"), (true, "d")]).2.2 (by decide)).1 h
  cases hgood

/-- `a - b - c - d` is `(a - b) - (c - d)`. -/
theorem expression_misassociates : expression [.atom (.var "a"), .minus, .atom (.var "b"), .minus, .atom (.var "c"),
      .minus, .atom (.var "d")] = .ok (chainText "a" [(false, "b"), (false, "c"), (false, "d")]) [] ∧
    (chainText "a" [(false, "b"), (false, "c"), (false, "d")]).toExpr.eval (oneAt "d") = .int 1 ∧
    (chainText "a" [(false, "b"), (false, "c"), (false, "d")]).reading (oneAt "d") = .int (-1) :=
  ⟨rfl, rfl, rfl⟩

end Dezyne
