import Dezyne.Rename
import Dezyne.Model
/-!
# Expression functions are inlined

The expression of an expression function is put in the place of its calls, and
its names are then looked up there. At the declaration they are the members, so
the value is the same where no name that is read, also through other expression
functions, is that of a local or formal in scope at the call.
-/

namespace Dezyne

/-! ## Calls -/

/-- The expression of the `<expression-function>` of a call. -/
def expressionFunction (fs : List Function) (name : ScopeName) : Option Expr :=
  (fs.find? fun f => [f.name] = name).bind (·.expression)

namespace Expr

/-- `tree-map`, with `g` for the calls; what is in the arguments of a call is up to `g`. -/
def mapCalls (g : ScopeName → List Expr → Expr) : Expr → Expr
  | .group e => .group (e.mapCalls g)
  | .not e => .not (e.mapCalls g)
  | .binary op l r => .binary op (l.mapCalls g) (r.mapCalls g)
  | .action p e as => .action p e (arguments g as)
  | .call f as => g f as
  | .otherwiseValue e => .otherwiseValue (e.mapCalls g)
  | e => e
where
  arguments (g : ScopeName → List Expr → Expr) : List Expr → List Expr
  | [] => []
  | a :: as => a.mapCalls g :: arguments g as

/-- The calls that are not in the arguments of a call. -/
def outerCalls : Expr → List (ScopeName × List Expr)
  | .group e => e.outerCalls
  | .not e => e.outerCalls
  | .binary _ l r => l.outerCalls ++ r.outerCalls
  | .action _ _ as => arguments as
  | .call f as => [(f, as)]
  | .otherwiseValue e => e.outerCalls
  | _ => []
where
  arguments : List Expr → List (ScopeName × List Expr)
  | [] => []
  | a :: as => a.outerCalls ++ arguments as

/-- The functions that are called. -/
def calls : Expr → List ScopeName
  | .group e => e.calls
  | .not e => e.calls
  | .binary _ l r => l.calls ++ r.calls
  | .action _ _ as => arguments as
  | .call f as => f :: arguments as
  | .otherwiseValue e => e.calls
  | _ => []
where
  arguments : List Expr → List ScopeName
  | [] => []
  | a :: as => a.calls ++ arguments as

/-- The variables that are read. -/
def names : Expr → List String
  | .group e => e.names
  | .not e => e.names
  | .binary _ l r => l.names ++ r.names
  | .var x => [x]
  | .fieldTest x _ => [x]
  | .action _ _ as => arguments as
  | .call _ as => arguments as
  | .otherwiseValue e => e.names
  | _ => []
where
  arguments : List Expr → List String
  | [] => []
  | a :: as => a.names ++ arguments as

theorem mapCalls_arguments (g : ScopeName → List Expr → Expr) (as : List Expr) :
    mapCalls.arguments g as = as.map (mapCalls g) := by
  induction as with
  | nil => rfl
  | cons a as ih => rw [mapCalls.arguments, ih, List.map_cons]

theorem outerCalls_arguments (as : List Expr) : outerCalls.arguments as = as.flatMap outerCalls := by
  induction as with
  | nil => rfl
  | cons a as ih => rw [outerCalls.arguments, ih, List.flatMap_cons]

theorem calls_arguments (as : List Expr) : calls.arguments as = as.flatMap calls := by
  induction as with
  | nil => rfl
  | cons a as ih => rw [calls.arguments, ih, List.flatMap_cons]

theorem names_arguments (as : List Expr) : names.arguments as = as.flatMap names := by
  induction as with
  | nil => rfl
  | cons a as ih => rw [names.arguments, ih, List.flatMap_cons]

/-- The outer calls are calls. -/
theorem outerCalls_subset (e : Expr) : ∀ c ∈ e.outerCalls, c.1 ∈ e.calls := by
  induction e with
  | group e ih => exact ih
  | not e ih => exact ih
  | otherwiseValue e ih => exact ih
  | binary op l r ihl ihr =>
    intro c hc
    rcases List.mem_append.1 hc with hc | hc
    · exact List.mem_append_left _ (ihl c hc)
    · exact List.mem_append_right _ (ihr c hc)
  | action p ev as ih =>
    intro c hc
    rw [outerCalls, outerCalls_arguments, List.mem_flatMap] at hc
    obtain ⟨a, ha, hc⟩ := hc
    rw [calls, calls_arguments, List.mem_flatMap]
    exact ⟨a, ha, ih a ha c hc⟩
  | call f as ih =>
    intro c hc
    obtain rfl := List.mem_singleton.1 hc
    exact List.mem_cons_self
  | _ => intro c hc; cases hc

/-- The calls in what the calls are mapped to. -/
theorem outerCalls_mapCalls (g : ScopeName → List Expr → Expr) (e : Expr) :
    (e.mapCalls g).outerCalls = e.outerCalls.flatMap fun c => (g c.1 c.2).outerCalls := by
  induction e with
  | group e ih => exact ih
  | not e ih => exact ih
  | otherwiseValue e ih => exact ih
  | binary op l r ihl ihr => rw [mapCalls, outerCalls, outerCalls, ihl, ihr, List.flatMap_append]
  | action p ev as ih =>
    rw [mapCalls, outerCalls, outerCalls, mapCalls_arguments, outerCalls_arguments, outerCalls_arguments,
      List.flatMap_map, List.flatMap_assoc]
    exact List.flatMap_congr ih
  | call f as ih => simp [mapCalls, outerCalls]
  | _ => rfl

/-- The value is that of the variables that are read and the functions that are called. -/
theorem eval_congr {ρ τ : Valuation} (hshared : ρ.sharedVar = τ.sharedVar) (haction : ρ.action = τ.action)
    (e : Expr) (hvar : ∀ x ∈ e.names, ρ.var x = τ.var x) (hcall : ∀ f ∈ e.calls, ρ.call f = τ.call f) :
    e.eval ρ = e.eval τ := by
  induction e with
  | group e ih => exact ih hvar hcall
  | otherwiseValue e ih => exact ih hvar hcall
  | not e ih => rw [eval, eval, ih hvar hcall]
  | binary op l r ihl ihr =>
    rw [eval, eval, ihl (fun x hx => hvar x (List.mem_append_left _ hx))
      (fun f hf => hcall f (List.mem_append_left _ hf)), ihr (fun x hx => hvar x (List.mem_append_right _ hx))
      (fun f hf => hcall f (List.mem_append_right _ hf))]
  | var x => exact hvar x List.mem_cons_self
  | fieldTest x f => rw [eval, eval, hvar x List.mem_cons_self]
  | sharedVar p x => rw [eval, eval, hshared]
  | sharedFieldTest p x f => rw [eval, eval, hshared]
  | action p ev as ih =>
    rw [names, names_arguments] at hvar
    rw [calls, calls_arguments] at hcall
    rw [eval, eval, evals_map, evals_map, haction]
    congr 1
    exact List.map_congr_left fun a ha => ih a ha (fun x hx => hvar x (List.mem_flatMap.2 ⟨a, ha, hx⟩))
      (fun f hf => hcall f (List.mem_flatMap.2 ⟨a, ha, hf⟩))
  | call f as ih =>
    rw [names, names_arguments] at hvar
    rw [calls, calls_arguments] at hcall
    rw [eval, eval, evals_map, evals_map, hcall f List.mem_cons_self]
    congr 1
    exact List.map_congr_left fun a ha => ih a ha (fun x hx => hvar x (List.mem_flatMap.2 ⟨a, ha, hx⟩))
      (fun f hf => hcall f (List.mem_cons_of_mem _ (List.mem_flatMap.2 ⟨a, ha, hf⟩)))
  | literal v => rfl
  | enumLiteral t f => rfl
  | data v => rfl
  | otherwise => rfl

/-- Calls are mapped to what has their value. -/
theorem eval_mapCalls {ρ τ : Valuation} (hvar : ρ.var = τ.var) (hshared : ρ.sharedVar = τ.sharedVar)
    (haction : ρ.action = τ.action) {g : ScopeName → List Expr → Expr} (e : Expr)
    (hg : ∀ c ∈ e.outerCalls, (g c.1 c.2).eval ρ = τ.call c.1 (evals τ c.2)) :
    (e.mapCalls g).eval ρ = e.eval τ := by
  induction e with
  | group e ih => exact ih hg
  | otherwiseValue e ih => exact ih hg
  | not e ih => rw [mapCalls, eval, eval, ih hg]
  | binary op l r ihl ihr =>
    rw [mapCalls, eval, eval, ihl (fun c hc => hg c (List.mem_append_left _ hc)),
      ihr (fun c hc => hg c (List.mem_append_right _ hc))]
  | var x => exact congrFun hvar x
  | fieldTest x f =>
    show Value.bool (ρ.var x = .enum f) = .bool (τ.var x = .enum f)
    rw [hvar]
  | sharedVar p x => exact congrFun (congrFun hshared p) x
  | sharedFieldTest p x f =>
    show Value.bool (ρ.sharedVar p x = .enum f) = .bool (τ.sharedVar p x = .enum f)
    rw [hshared]
  | action p ev as ih =>
    rw [outerCalls, outerCalls_arguments] at hg
    rw [mapCalls, eval, eval, mapCalls_arguments, evals_map, evals_map, haction, List.map_map]
    congr 1
    exact List.map_congr_left fun a ha => ih a ha (fun c hc => hg c (List.mem_flatMap.2 ⟨a, ha, hc⟩))
  | call f as ih => exact hg (f, as) List.mem_cons_self
  | literal v => rfl
  | enumLiteral t f => rfl
  | data v => rfl
  | otherwise => rfl

end Expr

/-! ## Inlining -/

/-- `inline-expression-functions` of an expression. -/
def inlineExpressionFunctions (fs : List Function) : Nat → Expr → Expr
  | 0, e => e
  | n + 1, e => e.mapCalls fun f as => match expressionFunction fs f with
    | some e => inlineExpressionFunctions fs n e
    | none => .call f as

/-- `inline-expression-functions` of a statement, whose expressions are inlined by `g`; a call is left as it is, and
that of an expression function is not a statement. -/
def Stmt.mapExpressions (g : Expr → Expr) : Stmt → Stmt
  | .compound ss => .compound (elements g ss)
  | .declarativeCompound ss => .declarativeCompound (elements g ss)
  | .guard e s => .guard (g e) (s.mapExpressions g)
  | .on ts s => .on ts (s.mapExpressions g)
  | .blocking s => .blocking (s.mapExpressions g)
  | .invariant e => .invariant (g e)
  | .variableDecl t x e => .variableDecl t x (g e)
  | .assign x e => .assign x (g e)
  | .action p e as => .action p e (as.map g)
  | .ifThen e s => .ifThen (g e) (s.mapExpressions g)
  | .ifElse e s t => .ifElse (g e) (s.mapExpressions g) (t.mapExpressions g)
  | .reply p e => .reply p (g e)
  | .returnStmt e => .returnStmt (g e)
  | .defer as s => .defer (as.map fun as => as.map g) (s.mapExpressions g)
  | s => s
where
  elements (g : Expr → Expr) : List Stmt → List Stmt
  | [] => []
  | s :: ss => s.mapExpressions g :: elements g ss

/-- The expressions of a statement that are inlined, each with the names of the locals and formals in scope. -/
def Stmt.sites (names : List String) : Stmt → List (List String × Expr)
  | .compound ss => elements names ss
  | .declarativeCompound ss => elements names ss
  | .guard e s => (names, e) :: s.sites names
  | .on ts s => s.sites (ts.flatMap Trigger.names ++ names)
  | .blocking s => s.sites names
  | .invariant e => [(names, e)]
  | .variableDecl _ _ e => [(names, e)]
  | .assign _ e => [(names, e)]
  | .action _ _ as => as.map fun a => (names, a)
  | .ifThen e s => (names, e) :: s.sites names
  | .ifElse e s t => (names, e) :: (s.sites names ++ t.sites names)
  | .reply _ e => [(names, e)]
  | .returnStmt e => [(names, e)]
  | .defer as s => (as.getD []).map (fun a => (names, a)) ++ s.sites names
  | _ => []
where
  elements (names : List String) : List Stmt → List (List String × Expr)
  | [] => []
  | s :: ss => s.sites names ++ elements (s.declares? ++ names) ss

theorem Stmt.mapExpressions_declares (g : Expr → Expr) (s : Stmt) :
    (s.mapExpressions g).declares? = s.declares? := by
  cases s <;> rfl

/-- What is inlined stands where it stood. -/
theorem Stmt.sites_mapExpressions (g : Expr → Expr) (s : Stmt) :
    ∀ names, (s.mapExpressions g).sites names = (s.sites names).map fun c => (c.1, g c.2) := by
  have helements : ∀ (ss : List Stmt),
      (∀ s ∈ ss, ∀ names, (s.mapExpressions g).sites names = (s.sites names).map fun c => (c.1, g c.2)) →
      ∀ names, sites.elements names (mapExpressions.elements g ss) =
        (sites.elements names ss).map fun c => (c.1, g c.2) := by
    intro ss
    induction ss with
    | nil => intro _ names; rfl
    | cons s ss ih =>
      intro h names
      rw [mapExpressions.elements, sites.elements, sites.elements, List.map_append, h s List.mem_cons_self,
        mapExpressions_declares, ih (fun t ht => h t (List.mem_cons_of_mem _ ht))]
  induction s with
  | compound ss ih => exact helements ss ih
  | declarativeCompound ss ih => exact helements ss ih
  | guard e s ih => intro names; rw [mapExpressions, sites, sites, ih, List.map_cons]
  | on ts s ih => intro names; exact ih _
  | blocking s ih => intro names; exact ih _
  | action p e as => intro names; simp [mapExpressions, sites]
  | ifThen e s ih => intro names; rw [mapExpressions, sites, sites, ih, List.map_cons]
  | ifElse e s t ihs iht =>
    intro names
    rw [mapExpressions, sites, sites, ihs, iht, List.map_cons, List.map_append]
  | defer as s ih =>
    intro names
    rw [mapExpressions, sites, sites, ih, List.map_append]
    cases as <;> simp
  | _ => intro names; rfl

/-! ## The value of a call -/

/-- Functions of which the expression functions are not `recursive?`. -/
structure ExpressionFunctions where
  functions : List Function
  rank : ScopeName → Nat
  acyclic : ∀ f e, expressionFunction functions f = some e → ∀ g ∈ e.calls,
    expressionFunction functions g ≠ none → rank g < rank f

/-- The arguments of the calls in the expressions of the expression functions, which are not inlined, have no calls
of them; `wfc-predicate` allows only calls of expression functions there, which have no arguments. -/
def ExpressionFunctions.Plain (fs : ExpressionFunctions) : Prop := ∀ f e,
  expressionFunction fs.functions f = some e → ∀ c ∈ e.outerCalls, ∀ a ∈ c.2, ∀ g ∈ a.calls,
    expressionFunction fs.functions g = none

/-- More than any chain of calls. -/
def ExpressionFunctions.depth (fs : ExpressionFunctions) : Nat :=
  (fs.functions.map fun f => fs.rank [f.name] + 1).foldr max 0

/-- `inline-expression-functions` -/
def ExpressionFunctions.inline (fs : ExpressionFunctions) : Expr → Expr :=
  inlineExpressionFunctions fs.functions fs.depth

/-- The values of the calls, when the names of an expression function refer to what they refer to at its
declaration. -/
def Valuation.declared (fs : List Function) : Nat → Valuation → Valuation
  | 0, ρ => ρ
  | n + 1, ρ => { ρ with call := fun f vs => match expressionFunction fs f with
    | some e => e.eval (Valuation.declared fs n ρ)
    | none => ρ.call f vs }

/-- The values of the names where locals and formals are in scope. -/
def Valuation.shadow (ρ : Valuation) (names : List String) (values : String → Value) : Valuation :=
  { ρ with var := fun x => if x ∈ names then values x else ρ.var x }

/-- The values at a place: the variables are those in scope, the calls have the values of their functions. -/
def ExpressionFunctions.at (fs : ExpressionFunctions) (ρ : Valuation) (names : List String)
    (values : String → Value) : Valuation :=
  (ρ.declared fs.functions fs.depth).shadow names values

/-- The names that the functions read that are called, also by each other. -/
def readThrough (fs : List Function) : Nat → Expr → List String
  | 0, _ => []
  | n + 1, e => e.outerCalls.flatMap fun c => match expressionFunction fs c.1 with
    | some e => e.names ++ readThrough fs n e
    | none => []

section
variable {fs : ExpressionFunctions} {ρ τ : Valuation} {f : ScopeName} {e : Expr}

theorem rank_lt_depth (h : expressionFunction fs.functions f = some e) : fs.rank f < fs.depth := by
  obtain ⟨g, hg, -⟩ := Option.bind_eq_some_iff.1 h
  have hname : [g.name] = f := by simpa using List.find?_some hg
  have hmem := List.mem_of_find?_eq_some hg
  have hle : ∀ (ns : List Nat), ∀ n ∈ ns, n ≤ ns.foldr max 0 := by
    intro ns
    induction ns with
    | nil => intro n hn; cases hn
    | cons m ns ih =>
      intro n hn
      rw [List.foldr_cons]
      rcases List.mem_cons.1 hn with rfl | hn
      · exact Nat.le_max_left _ _
      · exact Nat.le_trans (ih n hn) (Nat.le_max_right _ _)
  have hin : fs.rank [g.name] + 1 ∈ fs.functions.map fun f => fs.rank [f.name] + 1 := List.mem_map_of_mem hmem
  rw [hname] at hin
  exact hle _ _ hin

theorem declared_var (fs : List Function) (n : Nat) (ρ : Valuation) : (ρ.declared fs n).var = ρ.var := by
  cases n <;> rfl

theorem declared_sharedVar (fs : List Function) (n : Nat) (ρ : Valuation) :
    (ρ.declared fs n).sharedVar = ρ.sharedVar := by
  cases n <;> rfl

theorem declared_action (fs : List Function) (n : Nat) (ρ : Valuation) :
    (ρ.declared fs n).action = ρ.action := by
  cases n <;> rfl

theorem declared_call_none {fs : List Function} (h : expressionFunction fs f = none) (n : Nat)
    (ρ : Valuation) : (ρ.declared fs n).call f = ρ.call f := by
  cases n with
  | zero => rfl
  | succ n => simp only [Valuation.declared, h]

theorem declared_call_some {fs : List Function} (h : expressionFunction fs f = some e) (n : Nat)
    (ρ : Valuation) : (ρ.declared fs (n + 1)).call f = fun _ => e.eval (ρ.declared fs n) := by
  simp only [Valuation.declared, h]

/-- Valuations that agree on all but the calls of expression functions. -/
structure Valuation.Same (fs : ExpressionFunctions) (ρ τ : Valuation) : Prop where
  var : ρ.var = τ.var
  sharedVar : ρ.sharedVar = τ.sharedVar
  action : ρ.action = τ.action
  call : ∀ f, expressionFunction fs.functions f = none → ρ.call f = τ.call f

theorem Valuation.Same.declared (h : ρ.Same fs τ) (n m : Nat) :
    (ρ.declared fs.functions n).Same fs (τ.declared fs.functions m) := by
  refine ⟨?_, ?_, ?_, fun f hf => ?_⟩
  · rw [declared_var, declared_var, h.var]
  · rw [declared_sharedVar, declared_sharedVar, h.sharedVar]
  · rw [declared_action, declared_action, h.action]
  · rw [declared_call_none hf, declared_call_none hf, h.call f hf]

/-- The value of a call does not depend on how much more is unfolded than the calls are deep. -/
theorem declared_call (h : ρ.Same fs τ) : ∀ (r : Nat) (f : ScopeName) (e : Expr),
    expressionFunction fs.functions f = some e → fs.rank f < r → ∀ n m, fs.rank f < n → fs.rank f < m →
    (ρ.declared fs.functions n).call f = (τ.declared fs.functions m).call f := by
  intro r
  induction r with
  | zero => intro f e hf hr; omega
  | succ r ih =>
    intro f e hf hr n m hn hm
    obtain ⟨n, rfl⟩ : ∃ k, n = k + 1 := ⟨n - 1, by omega⟩
    obtain ⟨m, rfl⟩ : ∃ k, m = k + 1 := ⟨m - 1, by omega⟩
    have hsame := h.declared n m
    rw [declared_call_some hf, declared_call_some hf]
    funext vs
    apply e.eval_congr hsame.sharedVar hsame.action (fun x _ => by rw [hsame.var])
    intro g hg
    cases hlook : expressionFunction fs.functions g with
    | none => exact hsame.call g hlook
    | some e' =>
      have hrank := fs.acyclic f e hf g hg (by rw [hlook]; exact Option.some_ne_none _)
      exact ih g e' hlook (by omega) n m (by omega) (by omega)

/-- Where all calls are declared, a call has the value of its function's expression. -/
theorem declared_depth (h : ρ.Same fs τ) (hf : expressionFunction fs.functions f = some e) (vs : List Value) :
    (ρ.declared fs.functions fs.depth).call f vs = e.eval (τ.declared fs.functions fs.depth) := by
  have hlt := rank_lt_depth hf
  have hdepth := declared_call h (fs.rank f + 1) f e hf (Nat.lt_succ_self _) fs.depth (fs.depth + 1) hlt (by omega)
  rw [hdepth, declared_call_some hf]

/-! ## The value of what is inlined -/

/-- What is inlined at a place has the value of the calls, if none of the names that are read through them is in
scope there. -/
theorem eval_inlineExpressionFunctions {names : List String} {values : String → Value} :
    ∀ (n : Nat) (e : Expr), (∀ x ∈ readThrough fs.functions n e, x ∉ names) →
    (inlineExpressionFunctions fs.functions n e).eval (fs.at ρ names values) = e.eval (fs.at ρ names values) := by
  intro n
  induction n with
  | zero => intro e _; rfl
  | succ n ih =>
    intro e h
    apply Expr.eval_mapCalls rfl rfl rfl
    intro c hc
    cases hlook : expressionFunction fs.functions c.1 with
    | none => rfl
    | some e' =>
      have hread : ∀ x ∈ e'.names ++ readThrough fs.functions n e', x ∉ names := by
        intro x hx
        apply h x
        rw [readThrough, List.mem_flatMap]
        exact ⟨c, hc, by simpa only [hlook] using hx⟩
      have hdeclared : (fs.at ρ names values).call c.1 (Expr.evals (fs.at ρ names values) c.2) =
          e'.eval (ρ.declared fs.functions fs.depth) :=
        declared_depth ⟨rfl, rfl, rfl, fun _ _ => rfl⟩ hlook _
      simp only
      rw [hdeclared, ih e' fun x hx => hread x (List.mem_append_right _ hx)]
      apply Expr.eval_congr
      · rfl
      · rfl
      · intro x hx
        exact if_neg (hread x (List.mem_append_left _ hx))
      · intro f _
        rfl

/-- What is inlined has the value of the functions with the names they find at the call. -/
theorem eval_inlineExpressionFunctions_call (hplain : fs.Plain) : ∀ (n : Nat) (e : Expr),
    (∀ c ∈ e.outerCalls, ∀ a ∈ c.2, ∀ g ∈ a.calls, expressionFunction fs.functions g = none) →
    (inlineExpressionFunctions fs.functions n e).eval ρ = e.eval (ρ.declared fs.functions n) := by
  intro n
  induction n with
  | zero => intro e _; rfl
  | succ n ih =>
    intro e h
    apply Expr.eval_mapCalls (declared_var _ _ _).symm (declared_sharedVar _ _ _).symm (declared_action _ _ _).symm
    intro c hc
    cases hlook : expressionFunction fs.functions c.1 with
    | some e' =>
      simp only
      rw [declared_call_some hlook]
      exact ih e' (hplain c.1 e' hlook)
    | none =>
      simp only
      rw [declared_call_none hlook, Expr.eval, Expr.evals_map, Expr.evals_map]
      congr 1
      apply List.map_congr_left
      intro a ha
      apply Expr.eval_congr
      · rfl
      · rfl
      · intro x _
        rfl
      · intro g hg
        rw [declared_call_none (h c hc a ha g hg)]

/-- No call of an expression function is left. -/
theorem outerCalls_inlineExpressionFunctions : ∀ (n : Nat) (e : Expr),
    (∀ c ∈ e.outerCalls, expressionFunction fs.functions c.1 ≠ none → fs.rank c.1 < n) →
    ∀ c ∈ (inlineExpressionFunctions fs.functions n e).outerCalls, expressionFunction fs.functions c.1 = none := by
  intro n
  induction n with
  | zero =>
    intro e h c hc
    by_contra hne
    exact absurd (h c hc hne) (Nat.not_lt_zero _)
  | succ n ih =>
    intro e h c hc
    rw [inlineExpressionFunctions, Expr.outerCalls_mapCalls, List.mem_flatMap] at hc
    obtain ⟨c', hc', hc⟩ := hc
    cases hlook : expressionFunction fs.functions c'.1 with
    | none =>
      simp only [hlook] at hc
      obtain rfl := List.mem_singleton.1 hc
      exact hlook
    | some e' =>
      simp only [hlook] at hc
      refine ih e' (fun d hd hne => ?_) c hc
      have hrank := fs.acyclic c'.1 e' hlook d.1 (e'.outerCalls_subset d hd) hne
      have := h c' hc' (by rw [hlook]; exact Option.some_ne_none _)
      omega

/-- The inlined expressions of a statement stand where they stood, call no expression functions, and have their
values where no name that is read through the calls is in scope; a call has the value of its function in every
state if and only if that does not depend on the members with the names in scope. -/
theorem inline_value (fs : ExpressionFunctions) :
    (∀ (s : Stmt) (names : List String),
      (s.mapExpressions fs.inline).sites names = (s.sites names).map fun c => (c.1, fs.inline c.2)) ∧
    (∀ (e : Expr), ∀ c ∈ (fs.inline e).outerCalls, expressionFunction fs.functions c.1 = none) ∧
    (∀ (names : List String) (e : Expr), (∀ x ∈ readThrough fs.functions fs.depth e, x ∉ names) →
      ∀ (ρ : Valuation) (values : String → Value),
        (fs.inline e).eval (fs.at ρ names values) = e.eval (fs.at ρ names values)) ∧
    (fs.Plain → ∀ (names : List String) (f : ScopeName) (e : Expr), expressionFunction fs.functions f = some e →
      ((∀ (ρ : Valuation) (values : String → Value),
          (fs.inline (.call f [])).eval (fs.at ρ names values) = e.eval (ρ.declared fs.functions fs.depth)) ↔
        ∀ (ρ : Valuation) (values : String → Value),
          e.eval ((ρ.shadow names values).declared fs.functions fs.depth) =
            e.eval (ρ.declared fs.functions fs.depth))) := by
  refine ⟨fun s names => s.sites_mapExpressions fs.inline names, fun e c hc => ?_,
    fun names e h ρ values => eval_inlineExpressionFunctions fs.depth e h, fun hplain names f e hf => ?_⟩
  · apply outerCalls_inlineExpressionFunctions fs.depth e _ c hc
    intro d _ hne
    obtain ⟨e', he'⟩ := Option.ne_none_iff_exists'.1 hne
    exact rank_lt_depth he'
  · have hcall : ∀ (ρ : Valuation) (values : String → Value),
        (fs.inline (.call f [])).eval (fs.at ρ names values) =
          e.eval ((ρ.shadow names values).declared fs.functions fs.depth) := by
      intro ρ values
      have hsame : (fs.at ρ names values).Same fs (ρ.shadow names values) := by
        refine ⟨?_, declared_sharedVar _ _ _, declared_action _ _ _, fun g hg => declared_call_none hg _ _⟩
        funext x
        simp only [ExpressionFunctions.at, Valuation.shadow, declared_var]
      have hargs : ∀ c ∈ (Expr.call f []).outerCalls, ∀ a ∈ c.2, ∀ g ∈ a.calls,
          expressionFunction fs.functions g = none := by
        intro c hc a ha
        obtain rfl := List.mem_singleton.1 hc
        cases ha
      rw [← declared_depth hsame hf []]
      exact eval_inlineExpressionFunctions_call hplain fs.depth (.call f []) hargs
    simp only [hcall]

end

/-- `bool f () = b;` and `bool g () = f ();` -/
def chained : ExpressionFunctions where
  functions := [⟨"f", ["bool"], [], .returnStmt (.var "b"), some (.var "b")⟩,
    ⟨"g", ["bool"], [], .returnStmt (.call ["f"] []), some (.call ["f"] [])⟩]
  rank := fun name => if name = ["g"] then 1 else 0
  acyclic := by
    intro f e hf g hg hne
    obtain ⟨d, hd, he⟩ := Option.bind_eq_some_iff.1 hf
    have hname : [d.name] = f := by simpa using List.find?_some hd
    have hmem := List.mem_of_find?_eq_some hd
    simp only [List.mem_cons, List.not_mem_nil, or_false] at hmem
    rcases hmem with rfl | rfl
    · obtain rfl := Option.some.inj he
      cases hg
    · obtain rfl := Option.some.inj he
      obtain rfl := List.mem_singleton.1 hg
      rw [← hname]
      decide

/-- The value of `g ()` is kept where there is a local `x`, and not where there is a local `b`. -/
theorem inline_value_local :
    (∀ (ρ : Valuation) (values : String → Value),
      (chained.inline (.call ["g"] [])).eval (chained.at ρ ["x"] values) =
        (Expr.call ["g"] []).eval (chained.at ρ ["x"] values)) ∧
    ¬ ∀ (ρ : Valuation) (values : String → Value),
      (chained.inline (.call ["f"] [])).eval (chained.at ρ ["b"] values) =
        (Expr.var "b").eval (ρ.declared chained.functions chained.depth) := by
  have hplain : chained.Plain := by
    intro f e hf c hc a ha
    obtain ⟨d, hd, he⟩ := Option.bind_eq_some_iff.1 hf
    have hmem := List.mem_of_find?_eq_some hd
    simp only [chained, List.mem_cons, List.not_mem_nil, or_false] at hmem
    rcases hmem with rfl | rfl
    · obtain rfl := Option.some.inj he
      cases hc
    · obtain rfl := Option.some.inj he
      obtain rfl := List.mem_singleton.1 hc
      cases ha
  refine ⟨(inline_value chained).2.2.1 ["x"] (.call ["g"] []) (by decide), fun h => ?_⟩
  have hindependent := ((inline_value chained).2.2.2 hplain ["b"] ["f"] (.var "b") rfl).1 h
    ⟨fun _ => .bool true, fun _ _ => .void, fun _ _ _ => .void, fun _ _ => .void⟩ (fun _ => .bool false)
  simp [Expr.eval, declared_var, Valuation.shadow] at hindependent

/-- `{bool b = false; if (g ()) …}` with a member `b` that is true -/
theorem inline_captures : chained.inline (.call ["g"] []) = .var "b" ∧
    let ρ : Valuation := ⟨fun _ => .bool true, fun _ _ => .void, fun _ _ _ => .void, fun _ _ => .void⟩
    (chained.inline (.call ["g"] [])).eval (chained.at ρ ["b"] fun _ => .bool false) = .bool false ∧
      (Expr.call ["f"] []).eval (ρ.declared chained.functions chained.depth) = .bool true ∧
      (Expr.call ["g"] []).eval (ρ.declared chained.functions chained.depth) = .bool true :=
  ⟨rfl, rfl, rfl, rfl⟩

end Dezyne
