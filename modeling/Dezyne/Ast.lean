import Mathlib.Data.List.Basic
/-!
# The abstract syntax

The classes of `dzn/ast/ast.scm` that the normalizations read, with their
slots. Locations and comments are left out. A name that is looked up is a
`String`; a `<scope.name>` is its list of ids.
-/

namespace Dezyne

/-- The ids of a `<scope.name>`. -/
abbrev ScopeName := List String

/-- The value of a `<literal>`: `"true"`, `"false"`, a number, or the default `"void"`. -/
inductive Literal where
  | bool (b : Bool)
  | int (n : Int)
  | void
deriving DecidableEq, Repr

/-- The subclasses of `<binary>`. -/
inductive BinOp where
  | and | equal | greaterEqual | greater | lessEqual | less | minus | notEqual | or | plus
deriving DecidableEq, Repr

inductive Expr where
  | literal (value : Literal)
  | group (expression : Expr)
  | not (expression : Expr)
  | binary (op : BinOp) (left right : Expr)
  | var (name : String)
  | sharedVar (port name : String)
  | fieldTest (name field : String)
  | sharedFieldTest (port name field : String)
  | enumLiteral (type : ScopeName) (field : String)
  | data (value : String)
  | action (port : Option String) (event : String) (arguments : List Expr)
  | call (function : ScopeName) (arguments : List Expr)
  /-- `<otherwise>` as the parser makes it. -/
  | otherwise
  /-- `<otherwise>` whose value is the guard it stands for. -/
  | otherwiseValue (value : Expr)
deriving Repr, Inhabited

/-- `<formal>` and `<formal-binding>` of a trigger. -/
inductive Formal where
  | formal (name : String)
  | binding (name member : String)
deriving DecidableEq, Repr

def Formal.name : Formal → String
  | .formal n => n
  | .binding n _ => n

structure Trigger where
  port : Option String
  event : String
  formals : List Formal
deriving DecidableEq, Repr

inductive Stmt where
  | compound (elements : List Stmt)
  | declarativeCompound (elements : List Stmt)
  | guard (expression : Expr) (statement : Stmt)
  | on (triggers : List Trigger) (statement : Stmt)
  | blocking (statement : Stmt)
  | invariant (expression : Expr)
  | declarativeIllegal
  | illegal
  | skip
  | variableDecl (type : ScopeName) (name : String) (expression : Expr)
  | assign (name : String) (expression : Expr)
  | action (port : Option String) (event : String) (arguments : List Expr)
  | call (function : ScopeName) (arguments : List Expr)
  /-- An `<if>` without else. -/
  | ifThen (expression : Expr) (thenStmt : Stmt)
  | ifElse (expression : Expr) (thenStmt elseStmt : Stmt)
  | reply (port : Option String) (expression : Expr)
  | returnStmt (expression : Expr)
  | defer (arguments : Option (List Expr)) (statement : Stmt)
  | theEnd
  | outBindings (port : Option String) (formals : List Formal)
deriving Repr, Inhabited

namespace Expr

def and (l r : Expr) : Expr := .binary .and l r
def or (l r : Expr) : Expr := .binary .or l r
def true : Expr := .literal (.bool Bool.true)
def false : Expr := .literal (.bool Bool.false)

/-- Induction over expressions, with a hypothesis for every argument of a call. -/
@[induction_eliminator]
theorem induction {P : Expr → Prop}
    (literal : ∀ v, P (.literal v)) (group : ∀ e, P e → P (.group e)) (not : ∀ e, P e → P (.not e))
    (binary : ∀ op l r, P l → P r → P (.binary op l r)) (var : ∀ x, P (.var x))
    (sharedVar : ∀ p x, P (.sharedVar p x)) (fieldTest : ∀ x f, P (.fieldTest x f))
    (sharedFieldTest : ∀ p x f, P (.sharedFieldTest p x f)) (enumLiteral : ∀ t f, P (.enumLiteral t f))
    (data : ∀ v, P (.data v)) (action : ∀ p e as, (∀ a ∈ as, P a) → P (.action p e as))
    (call : ∀ f as, (∀ a ∈ as, P a) → P (.call f as)) (otherwise : P .otherwise)
    (otherwiseValue : ∀ e, P e → P (.otherwiseValue e)) (e : Expr) : P e :=
  Expr.rec (motive_1 := P) (motive_2 := fun as => ∀ a ∈ as, P a)
    literal group not binary var sharedVar fieldTest sharedFieldTest enumLiteral data action call
    otherwise otherwiseValue (by simp)
    (fun _ _ hh ht a ha => by rcases List.mem_cons.1 ha with rfl | ha; exacts [hh, ht a ha]) e

end Expr

namespace Stmt

/-- Induction over statements, with a hypothesis for every element of a compound. -/
@[induction_eliminator]
theorem induction {P : Stmt → Prop}
    (compound : ∀ ss, (∀ s ∈ ss, P s) → P (.compound ss))
    (declarativeCompound : ∀ ss, (∀ s ∈ ss, P s) → P (.declarativeCompound ss))
    (guard : ∀ e s, P s → P (.guard e s)) (on : ∀ ts s, P s → P (.on ts s))
    (blocking : ∀ s, P s → P (.blocking s)) (invariant : ∀ e, P (.invariant e))
    (declarativeIllegal : P .declarativeIllegal) (illegal : P .illegal) (skip : P .skip)
    (variableDecl : ∀ t x e, P (.variableDecl t x e)) (assign : ∀ x e, P (.assign x e))
    (action : ∀ p e as, P (.action p e as)) (call : ∀ f as, P (.call f as))
    (ifThen : ∀ e s, P s → P (.ifThen e s)) (ifElse : ∀ e s t, P s → P t → P (.ifElse e s t))
    (reply : ∀ p e, P (.reply p e)) (returnStmt : ∀ e, P (.returnStmt e))
    (defer : ∀ as s, P s → P (.defer as s)) (theEnd : P .theEnd)
    (outBindings : ∀ p fs, P (.outBindings p fs)) (s : Stmt) : P s :=
  Stmt.rec (motive_1 := P) (motive_2 := fun ss => ∀ s ∈ ss, P s)
    compound declarativeCompound guard on blocking invariant declarativeIllegal illegal skip variableDecl
    assign action call ifThen ifElse reply returnStmt defer theEnd outBindings (by simp)
    (fun _ _ hh ht a ha => by rcases List.mem_cons.1 ha with rfl | ha; exacts [hh, ht a ha]) s

end Stmt

end Dezyne
