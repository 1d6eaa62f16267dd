import Dezyne.Ast
import Dezyne.Lib.Closure
import Mathlib.Data.List.Dedup
/-!
# Recursive calls in tail position

The well-formedness check looks at every call from a recursive function to a
recursive function: none may be in the expression of an assignment, a variable or
a return, and what a naive look at the parents of the call finds to come next has
to be a return or the end of the function. `tail_position_iff`: in a program that
is accepted all such calls are in tail position exactly when none of them is in
another expression, such as the one of an `if`.
-/

namespace Dezyne.TailCall

/-! ## The parents of a call -/

/-- `.parent`: the class of a node, with what the search for a next statement reads of it. An `<if>` and a
`<guard>` are told apart by the child, their expression or a statement. -/
inductive Parent where
  /-- With the statements after the child. -/
  | compound (rest : List Stmt)
  | declarativeCompound (rest : List Stmt)
  | guard (statement : Stmt)
  | guardExpression (statement : Stmt)
  | on (statement : Stmt)
  | blocking (statement : Stmt)
  | invariant
  | ifBranch
  | ifExpression
  | defer
  | variable
  | assign
  | reply
  | returnStmt
  | action
  | call
  | arguments
  | group
  | not
  | binary

/-- `(is? <declarative>)` -/
def Parent.declarative : Parent → Bool
  | .declarativeCompound _ | .guard _ | .guardExpression _ | .on _ | .blocking _ | .invariant => true
  | _ => false

/-- `(is? <statement>)`; a call and an action in an expression are statements too. -/
def Parent.statement : Parent → Bool
  | .arguments | .group | .not | .binary => false
  | _ => true

/-- Is the child a statement of its own? -/
def Parent.holdsStatement : Parent → Bool
  | .compound _ | .declarativeCompound _ | .guard _ | .on _ | .blocking _ | .ifBranch | .defer => true
  | _ => false

/-- `<assign>`, `<return>` or `<variable>` -/
def Parent.assigns : Parent → Bool
  | .assign | .returnStmt | .variable => true
  | _ => false

def Parent.isDefer : Parent → Bool
  | .defer => true
  | _ => false

/-- A `<call>`: its parents, the nearest one first, up to the function, and `.function.name`. -/
structure Call where
  parents : List Parent
  function : ScopeName

/-- Is the call part of an expression? -/
def Call.inExpression (c : Call) : Bool :=
  match c.parents with
  | [] => false
  | p :: _ => !p.holdsStatement

mutual

/-- The calls of an expression with these parents. -/
def exprCalls (ps : List Parent) : Expr → List Call
  | .group e => exprCalls (.group :: ps) e
  | .not e => exprCalls (.not :: ps) e
  | .binary _ l r => exprCalls (.binary :: ps) l ++ exprCalls (.binary :: ps) r
  | .action _ _ as => argumentCalls (.arguments :: .action :: ps) as
  | .call f as => ⟨ps, f⟩ :: argumentCalls (.arguments :: .call :: ps) as
  | _ => []

def argumentCalls (ps : List Parent) : List Expr → List Call
  | [] => []
  | e :: as => exprCalls ps e ++ argumentCalls ps as

end

mutual

/-- The calls of a statement with these parents, as `wfc` comes to them. -/
def stmtCalls (ps : List Parent) : Stmt → List Call
  | .compound ss => elementCalls .compound ps ss
  | .declarativeCompound ss => elementCalls .declarativeCompound ps ss
  | .guard e s => exprCalls (.guardExpression s :: ps) e ++ stmtCalls (.guard s :: ps) s
  | .on _ s => stmtCalls (.on s :: ps) s
  | .blocking s => stmtCalls (.blocking s :: ps) s
  | .invariant e => exprCalls (.invariant :: ps) e
  | .variableDecl _ _ e => exprCalls (.variable :: ps) e
  | .assign _ e => exprCalls (.assign :: ps) e
  | .action _ _ as => argumentCalls (.arguments :: .action :: ps) as
  | .call f as => ⟨ps, f⟩ :: argumentCalls (.arguments :: .call :: ps) as
  | .ifThen e s => exprCalls (.ifExpression :: ps) e ++ stmtCalls (.ifBranch :: ps) s
  | .ifElse e s t =>
    exprCalls (.ifExpression :: ps) e ++ stmtCalls (.ifBranch :: ps) s ++ stmtCalls (.ifBranch :: ps) t
  | .reply _ e => exprCalls (.reply :: ps) e
  | .returnStmt e => exprCalls (.returnStmt :: ps) e
  | .defer _ s => stmtCalls (.defer :: ps) s
  | .declarativeIllegal | .illegal | .skip | .theEnd | .outBindings _ _ => []

/-- The calls of the elements of a compound. -/
def elementCalls (compound : List Stmt → Parent) (ps : List Parent) : List Stmt → List Call
  | [] => []
  | s :: ss => stmtCalls (compound ss :: ps) s ++ elementCalls compound ps ss

end

/-! ## Functions -/

/-- A `<function>`, or an `<expression-function>` if `expression`. -/
structure Function where
  name : ScopeName
  expression : Bool
  statement : Stmt

def Function.calls (f : Function) : List Call := stmtCalls [] f.statement

/-- The functions of a program. -/
abbrev Program := List Function

namespace Program

/-- `.function` of a call -/
def function (p : Program) (name : ScopeName) : Option Function := p.find? fun f => f.name = name

/-- `function->called-functions`: not the ones that are called in a defer. -/
def called (p : Program) (f : Function) : List Function :=
  (f.calls.filter fun c => !c.parents.any Parent.isDefer).filterMap fun c => p.function c.function

/-- The names of the functions that a function calls. -/
def successors (p : Program) (name : ScopeName) : List ScopeName :=
  match p.function name with
  | none => []
  | some f => ((p.called f).map Function.name).dedup

/-- `ast:recursive?`: the graph of the calls has a cycle with the function. -/
def recursive (p : Program) (name : ScopeName) : Bool :=
  name ∈ Closure.closure p.successors p.length (p.successors name)

/-- Is it a call to a recursive function? -/
def callsRecursive (p : Program) (name : ScopeName) : Bool :=
  match p.function name with
  | none => false
  | some called => p.recursive called.name

end Program

/-! ## The check -/

/-- What `ast:continuation*` finds for a call: a statement, the one of the function, or the behavior. -/
inductive Continuation where
  | statement (s : Stmt)
  | function
  | behavior

/-- The node that the search is at: a compound without a next statement, another statement, or neither. -/
inductive Node where
  | compound
  | statement
  | other
deriving DecidableEq

def Parent.node (p : Parent) : Node := if p.statement then .statement else .other

/-- `helper` of a node with these parents, and `statement-continuation` where a compound is left. -/
def climb : Node → List Parent → Continuation
  | _, [] => .function
  | .other, .guardExpression s :: _ => .statement s
  | .other, p :: ps => climb p.node ps
  | _, .compound (s :: _) :: _ => .statement s
  | _, .compound [] :: ps => climb .compound ps
  | .compound, .defer :: _ => .behavior
  | _, p :: ps => if p.declarative then .behavior else climb p.node ps

/-- `ast:continuation*` of a call -/
def continuation (c : Call) : Continuation := climb .statement c.parents

/-- `wfc-error` and `wfc-info` -/
inductive Message where
  | error (o : ScopeName) (message : String)
  | info (o : Continuation) (message : String)

/-- `tail-recursion` -/
def tailRecursion (p : Program) (f : Function) (c : Call) : List Message :=
  if !p.recursive f.name || !p.callsRecursive c.function || f.expression then []
  else if c.parents.any Parent.assigns then [.error c.function "cannot use typed function in recursion"]
  else
    match continuation c with
    | .function => []
    | .statement (.returnStmt _) => []
    | o => [.error c.function "cannot use statement after recursive call", .info o "statement after call"]

/-- `wfc` of a function, as far as recursion goes. -/
def wfcFunction (p : Program) (f : Function) : List Message :=
  f.calls.flatMap (tailRecursion p f) ++
    if f.expression && p.recursive f.name then
      [.error f.name ("expression function `" ++ String.intercalate "." f.name ++ "' is recursive")]
    else []

def wfc (p : Program) : List Message := p.flatMap (wfcFunction p)

/-! ## Control paths -/

/-- What may remain to be executed after a statement, with `k` after it. A deferred statement is executed
later, with nothing after it. -/
def nexts : Stmt → List Stmt → List (List Stmt)
  | .compound ss, k | .declarativeCompound ss, k => [ss ++ k]
  | .guard _ s, k | .on _ s, k | .ifThen _ s, k => [s :: k, k]
  | .blocking s, k => [s :: k]
  | .ifElse _ s t, k => [s :: k, t :: k]
  | .returnStmt _, _ => [[]]
  | .illegal, _ | .declarativeIllegal, _ => []
  | _, k => [k]

/-- One statement of a control path is executed. -/
def Step (k k' : List Stmt) : Prop := ∃ s rest, k = s :: rest ∧ k' ∈ nexts s rest

/-- What remains to be executed somewhere on a control path of a body, or of a statement that it defers. -/
inductive Executes (body : Stmt) : List Stmt → Prop
  | body : Executes body [body]
  | step {k k' : List Stmt} : Executes body k → Step k k' → Executes body k'
  | defer {as : Option (List Expr)} {s : Stmt} {k : List Stmt} : Executes body (.defer as s :: k) →
      Executes body [s]

/-- Only returns are executed. -/
def OnlyReturns (k : List Stmt) : Prop :=
  ∀ s rest, Relation.ReflTransGen Step k (s :: rest) → ∃ e, s = .returnStmt e

/-- Every call to a recursive function is in tail position. -/
structure TailCalls (p : Program) (f : Function) : Prop where
  statement : ∀ c ∈ f.calls, p.callsRecursive c.function → c.inExpression = false
  last : ∀ name as k, Executes f.statement (.call name as :: k) → p.callsRecursive name → OnlyReturns k

/-- The call is in an expression, but not in the one of an assignment, a variable or a return: it is in
the one of an `if`, a reply, a guard or an invariant, or an argument. -/
def Call.unchecked (c : Call) : Bool := c.inExpression && !c.parents.any Parent.assigns

/-! ## Recursive functions -/

section
variable {p : Program} {name name' : ScopeName} {f : Function}

theorem Program.name_of_function (h : p.function name = some f) : f ∈ p ∧ f.name = name :=
  ⟨List.mem_of_find?_eq_some h, by simpa using List.find?_some h⟩

theorem Program.successors_subset : p.successors name ⊆ p.map Function.name := by
  intro name' h
  unfold Program.successors at h
  split at h
  · cases h
  · obtain ⟨g, hg, rfl⟩ := List.mem_map.1 (List.mem_dedup.1 h)
    obtain ⟨c, -, hc⟩ := List.mem_filterMap.1 hg
    exact List.mem_map_of_mem (Program.name_of_function hc).1

/-- A function is recursive when it calls itself, directly or through others. -/
theorem Program.recursive_iff :
    p.recursive name ↔ Relation.TransGen (Closure.Edge p.successors) name name := by
  have hnodup : (p.successors name).Nodup := by
    unfold Program.successors
    split
    · exact List.nodup_nil
    · exact List.nodup_dedup _
  have hclosed : Closure.Closed p.successors (p.map Function.name) :=
    fun _ _ _ h => Program.successors_subset h
  have hmem := Closure.mem_closure (w := name) hclosed hnodup Program.successors_subset
  rw [List.length_map] at hmem
  rw [Program.recursive, decide_eq_true_iff, hmem, Relation.TransGen.head'_iff]
  rfl

end

/-! ## What is left after a statement -/

/-- What the parents of a statement leave to be executed after it. -/
def remaining : List Parent → List Stmt
  | [] => []
  | .compound rest :: ps | .declarativeCompound rest :: ps => rest ++ remaining ps
  | .defer :: _ => []
  | _ :: ps => remaining ps

/-- A statement with its parents in a body. -/
inductive At (body : Stmt) : List Parent → Stmt → Prop
  | body : At body [] body
  | compound {ps before s rest} : At body ps (.compound (before ++ s :: rest)) →
      At body (.compound rest :: ps) s
  | declarativeCompound {ps before s rest} : At body ps (.declarativeCompound (before ++ s :: rest)) →
      At body (.declarativeCompound rest :: ps) s
  | guard {ps e s} : At body ps (.guard e s) → At body (.guard s :: ps) s
  | on {ps ts s} : At body ps (.on ts s) → At body (.on s :: ps) s
  | blocking {ps s} : At body ps (.blocking s) → At body (.blocking s :: ps) s
  | ifThen {ps e s} : At body ps (.ifThen e s) → At body (.ifBranch :: ps) s
  | thenBranch {ps e s t} : At body ps (.ifElse e s t) → At body (.ifBranch :: ps) s
  | elseBranch {ps e s t} : At body ps (.ifElse e s t) → At body (.ifBranch :: ps) t
  | defer {ps as s} : At body ps (.defer as s) → At body (.defer :: ps) s

section
variable {body s : Stmt} {ps : List Parent} {k k' : List Stmt} {c : Call}

theorem At.holdsStatement (h : At body ps s) : ∀ q ∈ ps, q.holdsStatement := by
  induction h with
  | body =>
    intro q hq
    cases hq
  | _ => simp_all [Parent.holdsStatement]

theorem mem_elementCalls {compound : List Stmt → Parent} {before rest : List Stmt}
    (h : c ∈ stmtCalls (compound rest :: ps) s) : c ∈ elementCalls compound ps (before ++ s :: rest) := by
  induction before with
  | nil => exact List.mem_append_left _ h
  | cons t before ih => exact List.mem_append_right _ ih

/-- The check comes to all calls of a statement in the body. -/
theorem At.calls (h : At body ps s) : ∀ c ∈ stmtCalls ps s, c ∈ stmtCalls [] body := by
  induction h with
  | body => exact fun _ hc => hc
  | compound _ ih | declarativeCompound _ ih =>
    intro c hc
    apply ih
    rw [stmtCalls]
    exact mem_elementCalls hc
  | on _ ih | blocking _ ih | defer _ ih =>
    intro c hc
    apply ih
    rw [stmtCalls]
    exact hc
  | guard _ ih | ifThen _ ih | elseBranch _ ih =>
    intro c hc
    apply ih
    rw [stmtCalls]
    exact List.mem_append_right _ hc
  | thenBranch _ ih =>
    intro c hc
    apply ih
    rw [stmtCalls]
    exact List.mem_append_left _ (List.mem_append_right _ hc)

/-- A place in a body: nothing remains, or a statement with what its parents leave. -/
def Placed (body : Stmt) (k : List Stmt) : Prop := k = [] ∨ ∃ ps s, At body ps s ∧ k = s :: remaining ps

theorem At.placed (h : At body ps s) : Placed body (s :: remaining ps) := .inr ⟨ps, s, h, rfl⟩

/-- What the parents of a statement leave is a place. -/
theorem At.placed_remaining (h : At body ps s) : Placed body (remaining ps) := by
  induction h with
  | body => exact .inl rfl
  | @compound ps before s rest h ih =>
    cases rest with
    | nil => exact ih
    | cons t rest =>
      have hnext : At body ps (.compound ((before ++ [s]) ++ t :: rest)) := by simpa using h
      exact (At.compound hnext).placed
  | @declarativeCompound ps before s rest h ih =>
    cases rest with
    | nil => exact ih
    | cons t rest =>
      have hnext : At body ps (.declarativeCompound ((before ++ [s]) ++ t :: rest)) := by simpa using h
      exact (At.declarativeCompound hnext).placed
  | defer => exact .inl rfl
  | guard _ ih | on _ ih | blocking _ ih | ifThen _ ih | thenBranch _ ih | elseBranch _ ih => exact ih

/-- Every statement goes on to a place. -/
theorem At.placed_nexts (h : At body ps s) (hk : k ∈ nexts s (remaining ps)) : Placed body k := by
  have hafter := h.placed_remaining
  cases s with
  | compound ss =>
    obtain rfl := List.mem_singleton.1 hk
    cases ss with
    | nil => exact hafter
    | cons t ss => exact (At.compound (List.nil_append (t :: ss) ▸ h)).placed
  | declarativeCompound ss =>
    obtain rfl := List.mem_singleton.1 hk
    cases ss with
    | nil => exact hafter
    | cons t ss => exact (At.declarativeCompound (List.nil_append (t :: ss) ▸ h)).placed
  | guard e s =>
    rcases List.mem_pair.1 hk with rfl | rfl
    · exact (At.guard h).placed
    · exact hafter
  | on ts s =>
    rcases List.mem_pair.1 hk with rfl | rfl
    · exact (At.on h).placed
    · exact hafter
  | ifThen e s =>
    rcases List.mem_pair.1 hk with rfl | rfl
    · exact (At.ifThen h).placed
    · exact hafter
  | blocking s =>
    obtain rfl := List.mem_singleton.1 hk
    exact (At.blocking h).placed
  | ifElse e s t =>
    rcases List.mem_pair.1 hk with rfl | rfl
    · exact (At.thenBranch h).placed
    · exact (At.elseBranch h).placed
  | returnStmt e => exact .inl (List.mem_singleton.1 hk)
  | illegal | declarativeIllegal => cases hk
  | _ =>
    obtain rfl := List.mem_singleton.1 hk
    exact hafter

/-- What remains to be executed is always a place. -/
theorem Executes.placed (h : Executes body k) : Placed body k := by
  induction h with
  | body => exact At.body.placed
  | step _ hstep ih =>
    obtain ⟨s, rest, rfl, hk⟩ := hstep
    obtain hnil | ⟨ps, s', hat, heq⟩ := ih
    · cases hnil
    · cases heq
      exact hat.placed_nexts hk
  | defer _ ih =>
    obtain hnil | ⟨ps, s', hat, heq⟩ := ih
    · cases hnil
    · cases heq
      exact (At.defer hat).placed

/-! ## The next statement -/

/-- Nothing remains, or a return is next. -/
def Finished (k : List Stmt) : Prop := k = [] ∨ ∃ e rest, k = .returnStmt e :: rest

/-- What is finished executes nothing but the return. -/
theorem Finished.onlyReturns (h : Finished k) : OnlyReturns k := by
  have hstep : ∀ {k k'}, Finished k → Step k k' → Finished k' := by
    rintro k k' (rfl | ⟨e, rest, rfl⟩) ⟨s, rest', heq, hk⟩
    · cases heq
    · cases heq
      exact .inl (List.mem_singleton.1 hk)
  intro s rest hr
  have hfin : Finished (s :: rest) := by
    generalize s :: rest = k' at hr
    induction hr with
    | refl => exact h
    | tail _ hs ih => exact hstep ih hs
  obtain hnil | ⟨e, rest', heq⟩ := hfin
  · cases hnil
  · cases heq
    exact ⟨e, rfl⟩

/-- The check is content with what it finds. -/
def Continuation.Accepted : Continuation → Prop
  | .function => True
  | .statement s => ∃ e, s = .returnStmt e
  | .behavior => False

/-- Where the search is content, the parents of a statement leave nothing but a return. -/
theorem finished_of_accepted {node : Node} (hnode : node ≠ .other) (hps : ∀ q ∈ ps, q.holdsStatement)
    (h : (climb node ps).Accepted) : Finished (remaining ps) := by
  induction ps generalizing node with
  | nil => exact .inl rfl
  | cons q ps ih =>
    obtain ⟨hq, hrest⟩ := List.forall_mem_cons.1 hps
    cases q with
    | compound rest =>
      cases rest with
      | nil =>
        apply ih (by decide : Node.compound ≠ .other) hrest
        cases node with
        | other => exact absurd rfl hnode
        | compound | statement => exact h
      | cons s rest =>
        have hs : ∃ e, s = .returnStmt e := by
          cases node with
          | other => exact absurd rfl hnode
          | compound | statement => exact h
        obtain ⟨e, rfl⟩ := hs
        exact .inr ⟨e, _, rfl⟩
    | ifBranch =>
      apply ih (by decide : Node.statement ≠ .other) hrest
      cases node with
      | other => exact absurd rfl hnode
      | compound | statement => exact h
    -- a deferred statement is executed with nothing after it
    | defer => exact .inl rfl
    | declarativeCompound | guard | on | blocking =>
      cases node with
      | other => exact absurd rfl hnode
      | compound | statement => exact h.elim
    | _ => cases hq

/-! ## Accepted programs -/

variable {p : Program} {f : Function} {name : ScopeName}

/-- The check lets a call to a recursive function pass outside assignments, variables and returns, and
where its search is content. -/
theorem accepted_of_tailRecursion (hf : p.recursive f.name) (hexpr : f.expression = false)
    (hc : p.callsRecursive c.function) (h : tailRecursion p f c = []) :
    c.parents.any Parent.assigns = false ∧ (continuation c).Accepted := by
  unfold tailRecursion at h
  rw [hf, hc, hexpr] at h
  simp only [Bool.not_true, Bool.or_self, Bool.false_eq_true, if_false] at h
  split at h
  · cases h
  · next hassigns =>
    refine ⟨Bool.eq_false_iff.2 hassigns, ?_⟩
    split at h
    · next heq =>
      rw [heq]
      exact trivial
    · next e heq =>
      rw [heq]
      exact ⟨e, rfl⟩
    · cases h

/-- In an accepted program, every call from a recursive function to a recursive function passed the check. -/
theorem accepted_call (hp : wfc p = []) (hmem : f ∈ p) (hf : p.recursive f.name) (hmc : c ∈ f.calls)
    (hc : p.callsRecursive c.function) :
    c.parents.any Parent.assigns = false ∧ (continuation c).Accepted := by
  have hwfc : wfcFunction p f = [] := List.flatMap_eq_nil_iff.1 hp f hmem
  obtain ⟨hcalls, hfunction⟩ := List.append_eq_nil_iff.1 hwfc
  have hexpr : f.expression = false := by
    cases he : f.expression with
    | false => rfl
    | true =>
      rw [he, hf] at hfunction
      cases hfunction
  exact accepted_of_tailRecursion hf hexpr hc (List.flatMap_eq_nil_iff.1 hcalls c hmc)

/-- A call that is a statement of its own is the last one of an accepted function. -/
theorem last_of_accepted (hp : wfc p = []) (hmem : f ∈ p) (hf : p.recursive f.name) {as : List Expr}
    (hexec : Executes f.statement (.call name as :: k)) (hc : p.callsRecursive name) : OnlyReturns k := by
  obtain hnil | ⟨ps, s, hat, heq⟩ := hexec.placed
  · cases hnil
  · cases heq
    have hmc : (⟨ps, name⟩ : Call) ∈ f.calls := by
      apply hat.calls
      rw [stmtCalls]
      exact List.mem_cons_self
    have hcont := (accepted_call hp hmem hf hmc hc).2
    exact (finished_of_accepted (by decide) hat.holdsStatement hcont).onlyReturns

end

/-- In an accepted program all calls between recursive functions are in tail position exactly when none of
them is in an expression that the check does not look for. -/
theorem tail_position_iff (p : Program) (hp : wfc p = []) :
    (∀ f ∈ p, p.recursive f.name → TailCalls p f) ↔
      ∀ f ∈ p, p.recursive f.name → ∀ c ∈ f.calls, p.callsRecursive c.function → c.unchecked = false := by
  constructor
  · intro h f hmem hf c hmc hc
    rw [Call.unchecked, (h f hmem hf).statement c hmc hc, Bool.false_and]
  · intro h f hmem hf
    refine ⟨?_, ?_⟩
    · intro c hmc hc
      have hunchecked := h f hmem hf c hmc hc
      rwa [Call.unchecked, (accepted_call hp hmem hf hmc hc).1, Bool.not_false, Bool.and_true] at hunchecked
    · intro name as k hexec hc
      exact last_of_accepted hp hmem hf hexec hc

/-- `void f () { if (b) { g (); return; } }  void g () { f (); }` -/
def mutualCalls : Program :=
  [{ name := ["f"], expression := false,
     statement := .compound [.ifThen (.var "b") (.compound [.call ["g"] [], .returnStmt (.literal .void)])] },
   { name := ["g"], expression := false, statement := .compound [.call ["f"] []] }]

theorem tail_position_mutual : wfc mutualCalls = [] ∧ ∀ f ∈ mutualCalls,
    mutualCalls.recursive f.name → TailCalls mutualCalls f := by
  have hp : wfc mutualCalls = [] := rfl
  refine ⟨hp, (tail_position_iff mutualCalls hp).2 ?_⟩
  decide

/-- `bool f () { bool b = false; if (f ()) b = true; return b; }` -/
def condition : Program :=
  [{ name := ["f"], expression := false,
     statement := .compound
       [.variableDecl ["bool"] "b" .false, .ifThen (.call ["f"] []) (.assign "b" .true),
        .returnStmt (.var "b")] }]

/-- The next statement after the `if` is a return, so a call in its condition passes. -/
theorem condition_accepted : wfc condition = [] ∧
    ¬∀ f ∈ condition, condition.recursive f.name → TailCalls condition f := by
  refine ⟨rfl, ?_⟩
  intro h
  have htail := h _ (List.mem_singleton.2 rfl) (by decide)
  exact absurd (htail.statement ⟨[.ifExpression, _], ["f"]⟩ (.head _) (by decide)) (by decide)

end Dezyne.TailCall
