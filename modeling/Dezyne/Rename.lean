import Dezyne.Group
import Dezyne.Canonical
import Dezyne.Lib.Fresh
/-!
# `alpha-rename`

Before ons are merged their formals get the names of the event, with an `x`
added as long as that is the name of a member, and locals get out of the way.
Only names that resolve to a formal or a local are rewritten, so the renaming
carries the formals and locals in scope.
-/

namespace Dezyne

/-! ## Fresh names -/

/-- Adds an `x` while the name is occupied. -/
def fresh (occupied : List String) (name : String) : String :=
  Fresh.search (· ++ "x") occupied occupied.length name

/-- `occupied names -> (append namesx occupied)` -/
def refresh (occupied names : List String) : List String :=
  Fresh.extend fresh occupied names

theorem fresh_not_mem (occupied : List String) (name : String) : fresh occupied name ∉ occupied :=
  Fresh.search_not_mem String.length
    (fun _ => by rw [String.length_append]; exact Nat.lt_add_one _) (Nat.le_refl _) name

/-! ## Renaming -/

/-- The names of the formals or locals in `scope` are mapped, the names of members are not. -/
def Expr.rename (f : String → String) (scope : List String) : Expr → Expr
  | .group e => .group (e.rename f scope)
  | .not e => .not (e.rename f scope)
  | .binary op l r => .binary op (l.rename f scope) (r.rename f scope)
  | .var x => .var (if x ∈ scope then f x else x)
  | .fieldTest x g => .fieldTest (if x ∈ scope then f x else x) g
  | .action p e as => .action p e (arguments f scope as)
  | .call g as => .call g (arguments f scope as)
  | .otherwiseValue e => .otherwiseValue (e.rename f scope)
  | e => e
where
  arguments (f : String → String) (scope : List String) : List Expr → List Expr
  | [] => []
  | a :: as => a.rename f scope :: arguments f scope as

def Formal.rename (f : String → String) : Formal → Formal
  | .formal n => .formal (f n)
  | .binding n m => .binding (f n) m

def Trigger.rename (f : String → String) (t : Trigger) : Trigger :=
  { t with formals := t.formals.map (Formal.rename f) }

/-- The names of the formals of a trigger. -/
def Trigger.names (t : Trigger) : List String := t.formals.map Formal.name

namespace Stmt

/-- What a statement brings into scope for those after it. -/
def declares? : Stmt → List String
  | .variableDecl _ x _ => [x]
  | _ => []

def rename (f : String → String) (scope : List String) : Stmt → Stmt
  | .compound ss => .compound (elements f scope ss)
  | .declarativeCompound ss => .declarativeCompound (elements f scope ss)
  | .guard e s => .guard (e.rename f scope) (s.rename f scope)
  | .on ts s => .on (ts.map (Trigger.rename f)) (s.rename f (ts.flatMap Trigger.names ++ scope))
  | .blocking s => .blocking (s.rename f scope)
  | .invariant e => .invariant (e.rename f scope)
  | .variableDecl t x e => .variableDecl t (f x) (e.rename f scope)
  | .assign x e => .assign (if x ∈ scope then f x else x) (e.rename f scope)
  | .action p e as => .action p e (Expr.rename.arguments f scope as)
  | .call g as => .call g (Expr.rename.arguments f scope as)
  | .ifThen e s => .ifThen (e.rename f scope) (s.rename f scope)
  | .ifElse e s t => .ifElse (e.rename f scope) (s.rename f scope) (t.rename f scope)
  | .reply p e => .reply p (e.rename f scope)
  | .returnStmt e => .returnStmt (e.rename f scope)
  | .defer as s => .defer (as.map (Expr.rename.arguments f scope)) (s.rename f scope)
  | .outBindings p fs => .outBindings p (fs.map (Formal.rename f))
  | s => s
where
  /-- A local is in scope in the statements after its declaration. -/
  elements (f : String → String) (scope : List String) : List Stmt → List Stmt
  | [] => []
  | s :: ss => s.rename f scope :: elements f (s.declares? ++ scope) ss

/-- `(tree-collect (is? <variable>))` -/
def variableNames : Stmt → List String
  | .compound ss => elements ss
  | .declarativeCompound ss => elements ss
  | .guard _ s => s.variableNames
  | .on _ s => s.variableNames
  | .blocking s => s.variableNames
  | .variableDecl _ x _ => [x]
  | .ifThen _ s => s.variableNames
  | .ifElse _ s t => s.variableNames ++ t.variableNames
  | .defer _ s => s.variableNames
  | _ => []
where
  elements : List Stmt → List String
  | [] => []
  | s :: ss => s.variableNames ++ elements ss

end Stmt

/-! ## The renaming of a canonical on -/

/-- The names of the formals of the event of a trigger; a modeling event has none. -/
def Model.eventFormals (m : Model) (t : Trigger) : List String :=
  if t.modeling then [] else ((m.event? t).map (·.formals)).getD []

/-- A trigger without formals gets those of its event. -/
def Model.withFormals (m : Model) (t : Trigger) : Trigger :=
  if t.formals = [] then { t with formals := (m.eventFormals t).map .formal } else t

/-- The association list `mapping` of `alpha-rename`: locals first, then the formals whose name
changes. -/
def alphaMapping (m : Model) (members : List String) (trigger : Trigger) (statement : Stmt) :
    List (String × String) :=
  let formals := m.eventFormals trigger
  let locals := statement.variableNames
  let freshFormals := (refresh members formals).take formals.length
  let mapping := ((m.withFormals trigger).names.zip freshFormals).filter fun p => p.1 ≠ p.2
  let occupied := mapping.map Prod.snd ++ members
  locals.zip ((refresh occupied locals).take locals.length) ++ mapping

/-- `assoc-ref`, or the name itself. -/
def renameString (mapping : List (String × String)) (name : String) : String :=
  (mapping.lookup name).getD name

/-- `alpha-rename`. A name in the statement resolves to a formal of the trigger as it was. -/
def CanonicalOn.alphaRename (m : Model) (members : List String) (o : CanonicalOn) : CanonicalOn :=
  let mapping := alphaMapping m members o.trigger o.statement
  let trigger := m.withFormals o.trigger
  if mapping = [] then { o with trigger := trigger }
  else
    { o with
      trigger := trigger.rename (renameString mapping)
      statement := o.statement.rename (renameString mapping) o.trigger.names }

end Dezyne
