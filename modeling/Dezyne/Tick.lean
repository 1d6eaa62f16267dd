import Dezyne.LtsText
import Dezyne.Rename
import Dezyne.Shared
import Dezyne.Lib.Scopes
/-!
# Ticked names

For mCRL2 names get a tick. `makreel:tick-names` numbers the locals and the
formals besides, so that none has the name of another that is in scope: it
carries the numbers of the names around, and goes on counting over the whole
program. What a name resolves to is looked up in the scopes around it.
-/

namespace Dezyne.Tick

/-! ## Names -/

/-- A name with its count. -/
def tick (count : Nat) (o : String) : String := o ++ "'" ++ (if count = 0 then "" else toString count ++ "'")

/-- The counts of names, the innermost first. -/
abbrev Names := List (String × Nat)

/-- `(or (assoc-ref names o) 0)` -/
def Names.count (names : Names) (o : String) : Nat := (names.lookup o).getD 0

/-- `append-tick` -/
def appendTick (names : Names) (o : String) : String :=
  if o = "*" ∨ o = "/" then o else tick (names.count o) o

/-- `tick-names` of a `<scope.name>` -/
def tickIds (ids : ScopeName) : ScopeName :=
  if ids = ["<int>"] ∨ ids = ["void"] ∨ ids = ["bool"] then ids else ids.map (appendTick [])

/-! ## `tick-names` -/

def tickExpr (names : Names) : Expr → Expr
  | .group e => .group (tickExpr names e)
  | .not e => .not (tickExpr names e)
  | .binary op l r => .binary op (tickExpr names l) (tickExpr names r)
  | .var x => .var (appendTick names x)
  | .sharedVar p x => .sharedVar (appendTick names p) (appendTick names x)
  | .fieldTest x f => .fieldTest (appendTick names x) f
  | .sharedFieldTest p x f => .sharedFieldTest (appendTick names p) (appendTick names x) f
  | .enumLiteral t f => .enumLiteral (tickIds t) f
  | .action p e as => .action (p.map (appendTick [])) e as
  | .call f as => .call (tickIds f) (arguments names as)
  | .otherwiseValue e => .otherwiseValue (tickExpr names e)
  | e => e
where
  arguments (names : Names) : List Expr → List Expr
  | [] => []
  | a :: as => tickExpr names a :: arguments names as

/-- `bump-tick` for a statement of a compound that is a variable -/
def bump (s : Stmt) (names : Names) (count : Nat) : Names × Nat :=
  match s with
  | .variableDecl _ x _ => ((x, count + 1) :: names, count + 1)
  | _ => (names, count)

/-- `tick-names` of a statement, with the count after it -/
def tickStmt (names : Names) : Stmt → Nat → Stmt × Nat
  | .compound ss, n => (.compound (elements names ss n).1, (elements names ss n).2)
  | .declarativeCompound ss, n => (.declarativeCompound (each names ss n).1, (each names ss n).2)
  | .guard e s, n => (.guard (tickExpr names e) (tickStmt names s n).1, (tickStmt names s n).2)
  | .on ts s, n =>
    (.on (ts.map fun t => { t with port := t.port.map (appendTick []) }) (tickStmt names s n).1, (tickStmt names s n).2)
  | .blocking s, n => (.blocking (tickStmt names s n).1, (tickStmt names s n).2)
  | .invariant e, n => (.invariant (tickExpr names e), n)
  | .variableDecl t x e, n => (.variableDecl (tickIds t) (appendTick names x) (tickExpr names e), n)
  | .assign x e, n => (.assign (appendTick names x) (tickExpr names e), n)
  | .action p e as, n => (.action (p.map (appendTick [])) e as, n)
  | .call f as, n => (.call (tickIds f) (as.map (tickExpr names)), n)
  | .ifThen e s, n => (.ifThen (tickExpr names e) (tickStmt names s n).1, (tickStmt names s n).2)
  | .ifElse e s t, n =>
    let r := tickStmt names s n
    (.ifElse (tickExpr names e) r.1 (tickStmt names t r.2).1, (tickStmt names t r.2).2)
  | .reply p e, n => (.reply (p.map (appendTick [])) (tickExpr names e), n)
  | .returnStmt e, n => (.returnStmt (tickExpr names e), n)
  | .defer as s, n => (.defer (as.map (List.map (tickExpr names))) (tickStmt names s n).1, (tickStmt names s n).2)
  | s, n => (s, n)
where
  /-- A variable is counted before it is ticked. -/
  elements (names : Names) : List Stmt → Nat → List Stmt × Nat
  | [], n => ([], n)
  | s :: ss, n =>
    let r := tickStmt (bump s names n).1 s (bump s names n).2
    (r.1 :: (elements (bump s names n).1 ss r.2).1, (elements (bump s names n).1 ss r.2).2)
  /-- `tree-map` -/
  each (names : Names) : List Stmt → Nat → List Stmt × Nat
  | [], n => ([], n)
  | s :: ss, n =>
    let r := tickStmt names s n
    (r.1 :: (each names ss r.2).1, (each names ss r.2).2)

/-- The formals of a `<function>`, each of which is counted before it is ticked. -/
def tickFormals (names : Names) : List (ScopeName × String) → Nat → List (ScopeName × String) × Names × Nat
  | [], n => ([], names, n)
  | (t, x) :: fs, n =>
    let r := tickFormals ((x, n + 1) :: names) fs (n + 1)
    ((tickIds t, appendTick ((x, n + 1) :: names) x) :: r.1, r.2)

/-- `tick-names` of a `<function>`; an `<expression-function>` is none to `match`, and is mapped over. -/
def tickFunction (names : Names) (f : Function) (n : Nat) : Function × Nat :=
  match f.expression with
  | none =>
    let r := tickFormals names f.formals n
    let s := tickStmt r.2.1 f.statement r.2.2
    ({ f with name := appendTick r.2.1 f.name, type := tickIds f.type, formals := r.1, statement := s.1 }, s.2)
  | some e =>
    let s := tickStmt names f.statement n
    ({ f with
        type := tickIds f.type
        formals := f.formals.map fun x => (tickIds x.1, appendTick names x.2)
        statement := s.1
        expression := some (tickExpr names e) }, s.2)

def tickFunctions (names : Names) : List Function → Nat → List Function × Nat
  | [], n => ([], n)
  | f :: fs, n =>
    let r := tickFunction names f n
    (r.1 :: (tickFunctions names fs r.2).1, (tickFunctions names fs r.2).2)

/-- `(map (cut cons <> 0) (map .name (ast:variable* o)))` -/
def memberNames (members : List Variable) : Names := members.map fun v => (v.name, 0)

/-- `tick-names` of a `<variable>` that is a member -/
def tickMember (names : Names) (v : Variable) : Variable :=
  ⟨tickIds v.type, appendTick names v.name, tickExpr names v.expression⟩

/-- `tick-names` of a `<behavior>` -/
def tickBehavior (b : Behavior) (n : Nat) : Behavior × Nat :=
  let names := memberNames b.members
  let fs := tickFunctions names b.functions n
  let s := tickStmt names b.statement fs.2
  ({ b with members := b.members.map (tickMember names), functions := fs.1, statement := s.1 }, s.2)

/-- An `<interface>` or `<component>` in its namespace: the names of its types and events, its ports with the variables
of the behaviors of their interfaces, and the names of the types of its own behavior. -/
structure Model where
  scope : ScopeName
  name : String
  types : List String
  events : List String
  ports : List SharedPort
  behaviorTypes : List String
  behavior : Behavior

/-- A `<port>`; its interface is ticked too. -/
def tickPort (p : SharedPort) : SharedPort :=
  ⟨appendTick [] p.name, p.members.map (tickMember (memberNames p.members))⟩

/-- `tick-names` of a `<model>` -/
def tickModel (m : Model) (n : Nat) : Model × Nat :=
  let b := tickBehavior m.behavior n
  ({ m with
      scope := m.scope.map (appendTick [])
      name := appendTick [] m.name
      types := m.types.map (appendTick [])
      ports := m.ports.map tickPort
      behaviorTypes := m.behaviorTypes.map (appendTick [])
      behavior := b.1 }, b.2)

/-- What is declared in the namespaces of a program. -/
inductive Top where
  | model (m : Model)
  | function (scope : ScopeName) (f : Function)

/-- The elements of a `<root>`, with the namespaces that they are in. -/
abbrev Root := List Top

def tickTop : Top → Nat → Top × Nat
  | .model m, n => (.model (tickModel m n).1, (tickModel m n).2)
  | .function scope f, n => (.function (scope.map (appendTick [])) (tickFunction [] f n).1, (tickFunction [] f n).2)

def tickTops : Root → Nat → Root
  | [], _ => []
  | t :: ts, n => (tickTop t n).1 :: tickTops ts (tickTop t n).2

/-- `makreel:tick-names` -/
def tickNames (r : Root) : Root := tickTops r 0

/-! ## Uses of names -/

/-- A name that is used: of a variable, of a variable of the interface of a port, or of a function. -/
inductive Use where
  | var (name : String)
  | shared (port name : String)
  | call (function : ScopeName)

/-- The names that are used in an expression. -/
def uses : Expr → List Use
  | .group e | .not e | .otherwiseValue e => uses e
  | .binary _ l r => uses l ++ uses r
  | .var x | .fieldTest x _ => [.var x]
  | .sharedVar p x | .sharedFieldTest p x _ => [.shared p x]
  | .action _ _ as => arguments as
  | .call f as => .call f :: arguments as
  | _ => []
where
  arguments : List Expr → List Use
  | [] => []
  | a :: as => uses a ++ arguments as

/-- The scopes around, below the behavior: the frames that `ast:lookup-variable` searches, those of `ast:declaration*`,
and the names that have a count. -/
structure Scope where
  locals : List (List String)
  declared : List (List String)
  counted : List String

/-- A place where a name is used; in the expression of a variable of a compound, with the name of that variable. -/
structure Site where
  scope : Scope
  initializes : Option String
  use : Use

def Scope.site (scope : Scope) (u : Use) : Site := ⟨scope, none, u⟩

/-- `ast:variable*` of a statement -/
def variablesOf : Stmt → List String
  | .compound ss => ss.flatMap Stmt.declares?
  | .variableDecl _ x _ => [x]
  | _ => []

/-- A use in the expression of a variable of a compound. -/
def inside (s : Stmt) (site : Site) : Site :=
  match s with
  | .variableDecl _ x _ => { site with initializes := some x }
  | _ => site

/-- The uses in a statement. -/
def sites (scope : Scope) : Stmt → List Site
  | .compound ss => elements { scope with declared := variablesOf (.compound ss) :: scope.declared } [] ss
  | .declarativeCompound ss => each scope ss
  | .guard e s => (uses e).map scope.site ++ sites scope s
  | .on ts s => sites { scope with locals := ts.flatMap Trigger.names :: scope.locals } s
  | .blocking s => sites scope s
  | .invariant e => (uses e).map scope.site
  | .variableDecl _ _ e => (uses e).map scope.site
  | .assign x e => scope.site (.var x) :: (uses e).map scope.site
  | .action _ _ as => (as.flatMap uses).map scope.site
  | .call f as => scope.site (.call f) :: (as.flatMap uses).map scope.site
  | .ifThen e s =>
    let scope := { scope with declared := variablesOf s :: scope.declared }
    (uses e).map scope.site ++ sites scope s
  | .ifElse e s t =>
    let scope := { scope with declared := (variablesOf s ++ variablesOf t) :: scope.declared }
    (uses e).map scope.site ++ sites scope s ++ sites scope t
  | .reply _ e | .returnStmt e => (uses e).map scope.site
  | .defer as s =>
    let scope := { scope with declared := s.variableNames :: scope.declared }
    ((as.getD []).flatMap uses).map scope.site ++ sites scope s
  | _ => []
where
  /-- The variables before a statement are in scope. -/
  elements (scope : Scope) (before : List String) : List Stmt → List Site
  | [] => []
  | s :: ss =>
    (sites { scope with locals := before :: scope.locals } s).map (inside s) ++
      elements { scope with counted := s.declares? ++ scope.counted } (before ++ s.declares?) ss
  each (scope : Scope) : List Stmt → List Site
  | [] => []
  | s :: ss => sites scope s ++ each scope ss

/-- The uses in a function; the formals of an `<expression-function>` have no count. -/
def functionSites (f : Function) : List Site :=
  let formals := f.formals.map Prod.snd
  match f.expression with
  | none => sites ⟨[formals], [formals], formals⟩ f.statement
  | some e => sites ⟨[formals], [formals], []⟩ f.statement ++ (uses e).map (Scope.site ⟨[formals], [formals], []⟩)

def behaviorSites (b : Behavior) : List Site :=
  b.members.flatMap (fun v => (uses v.expression).map (Scope.site ⟨[], [], []⟩)) ++
    b.functions.flatMap functionSites ++ sites ⟨[], [], []⟩ b.statement

/-! ## What names resolve to -/

/-- What is around the scopes of a behavior, or of a function outside of models. -/
structure Env where
  members : List String
  types : List String
  functions : List Function
  /-- The declarations of the model, the ports first. -/
  declared : List String
  ports : List SharedPort
  /-- The namespace that it is in. -/
  scope : ScopeName
  /-- The functions outside of models, with their namespaces. -/
  globals : List (ScopeName × Function)

/-- A declaration: a variable in the scopes around, a variable of the interface of a port, or a declaration in the scopes
around or in a namespace. -/
inductive Target where
  | var (place : Nat × Nat)
  | shared (port name : Nat)
  | declaration (place : Nat × Nat)
  | global (function : Nat)
deriving DecidableEq

namespace Env

/-- The `ast:declaration*` of the behavior and of the model. -/
def declarations (env : Env) : List (List String) :=
  [env.types ++ env.functions.map Function.name ++ env.members, env.declared]

/-- `.port` of a shared variable: a port of the model -/
def port (env : Env) (scope : Scope) (p : String) : Option (Nat × SharedPort) :=
  (Scopes.find (scope.declared ++ env.declarations) p).bind fun place =>
    if place.1 = scope.declared.length + 1 then (env.ports[place.2]?).map fun port => (place.2, port) else none

/-- The full names that a name in a namespace can stand for. -/
def fullNames (env : Env) : ScopeName → List ScopeName
  | "/" :: ids => [ids]
  | ids => env.scope.inits.reverse.map (· ++ ids)

/-- A function outside of models. -/
def global (env : Env) (ids : ScopeName) : Option Nat :=
  (env.fullNames ids).findSome? fun full => (env.globals.map fun g => g.1 ++ [g.2.name]).idxOf? full

/-- `.variable` and `.function` -/
def target (env : Env) (scope : Scope) : Use → Option Target
  | .var x => (Scopes.find (scope.locals ++ [env.members]) x).map .var
  | .shared p x => (env.port scope p).bind fun port =>
    match env.members.idxOf? (port.2.name ++ x) with
    | some i => some (.var (scope.locals.length, i))
    | none => ((port.2.members.map Variable.name).idxOf? x).map (.shared port.1)
  | .call [f] => match Scopes.find (scope.declared ++ env.declarations) f with
    | some place => some (.declaration place)
    | none => (env.global [f]).map .global
  | .call ids => (env.global ids).map .global

/-- The function that a target is. -/
def function (env : Env) (scope : Scope) : Target → Option Function
  | .declaration place =>
    if place.1 = scope.declared.length ∧ env.types.length ≤ place.2 then
      env.functions[place.2 - env.types.length]? else none
  | .global i => (env.globals[i]?).map Prod.snd
  | _ => none

end Env

def Top.function? : Top → Option (ScopeName × Function)
  | .function scope f => some (scope, f)
  | .model _ => none

/-- The functions outside of models. -/
def globals (r : Root) : List (ScopeName × Function) := r.filterMap Top.function?

/-- What is around an element of the root. -/
def Top.env (globals : List (ScopeName × Function)) : Top → Env
  | .model m =>
    { members := m.behavior.members.map Variable.name
      types := m.behaviorTypes
      functions := m.behavior.functions
      declared := m.ports.map SharedPort.name ++ m.types ++ m.events
      ports := m.ports
      scope := m.scope
      globals := globals }
  | .function scope _ => ⟨[], [], [], [], [], scope, globals⟩

def Top.sites : Top → List Site
  | .model m => behaviorSites m.behavior
  | .function _ f => functionSites f

/-- The uses in a program, each with what it resolves to. -/
def targets (r : Root) : List (Option Target) :=
  r.flatMap fun t => t.sites.map fun s => (t.env (globals r)).target s.scope s.use

/-! ## Locals and formals -/

/-- A local or formal, with the names of the others and of the members that are in scope where it is declared;
`counted` when it gets a count. -/
structure Local where
  name : String
  around : List String
  counted : Bool

def Local.apart (l : Local) : Prop := l.name ∉ l.around

/-- The locals in a statement; a variable that is a statement by itself gets no count. -/
def localsOf (around : List String) : Stmt → List Local
  | .compound ss => elements around ss
  | .declarativeCompound ss => each around ss
  | .guard _ s | .on _ s | .blocking s | .ifThen _ s | .defer _ s => localsOf around s
  | .variableDecl _ x _ => [⟨x, around, false⟩]
  | .ifElse _ s t => localsOf around s ++ localsOf around t
  | _ => []
where
  elements (around : List String) : List Stmt → List Local
  | [] => []
  | s :: ss => (localsOf around s).map (fun l => { l with counted := l.counted || !s.declares?.isEmpty }) ++
    elements (s.declares? ++ around) ss
  each (around : List String) : List Stmt → List Local
  | [] => []
  | s :: ss => localsOf around s ++ each around ss

def formalLocals (counted : Bool) (around : List String) : List String → List Local
  | [] => []
  | x :: xs => ⟨x, around, counted⟩ :: formalLocals counted (x :: around) xs

def functionLocals (members : List String) (f : Function) : List Local :=
  let formals := f.formals.map Prod.snd
  formalLocals f.expression.isNone members formals ++ localsOf (formals ++ members) f.statement

def Top.locals : Top → List Local
  | .model m =>
    let members := m.behavior.members.map Variable.name
    m.behavior.functions.flatMap (functionLocals members) ++ localsOf members m.behavior.statement
  | .function _ f => functionLocals [] f

/-! ## Well-formed programs -/

/-- The tick, with code 39. -/
def tickChar : Char := Char.ofNat 39

/-- An identifier, that is none of the names which are not ticked. -/
def Plain (o : String) : Prop := tickChar ∉ o.toList ∧ o ∉ ["*", "/", "<int>", "void", "bool"]

/-- Actions have no arguments after `purge-data`. -/
def Proper : Expr → Prop
  | .group e | .not e | .otherwiseValue e => Proper e
  | .binary _ l r => Proper l ∧ Proper r
  | .action _ _ as => as = []
  | .call _ as => arguments as
  | _ => True
where
  arguments : List Expr → Prop
  | [] => True
  | a :: as => Proper a ∧ arguments as

/-- No two variables of a compound have one name, and triggers and actions have no data. -/
def ProperStmt : Stmt → Prop
  | .compound ss => (ss.flatMap Stmt.declares?).Nodup ∧ elements ss
  | .declarativeCompound ss => elements ss
  | .guard e s | .ifThen e s => Proper e ∧ ProperStmt s
  | .on ts s => (∀ t ∈ ts, t.formals = []) ∧ ProperStmt s
  | .blocking s => ProperStmt s
  | .variableDecl _ x e => Plain x ∧ Proper e
  | .invariant e | .assign _ e | .reply _ e | .returnStmt e => Proper e
  | .action _ _ as => as = []
  | .call _ as => ∀ a ∈ as, Proper a
  | .ifElse e s t => Proper e ∧ ProperStmt s ∧ ProperStmt t
  | .defer as s => (∀ a ∈ as.getD [], Proper a) ∧ ProperStmt s
  | _ => True
where
  elements : List Stmt → Prop
  | [] => True
  | s :: ss => ProperStmt s ∧ elements ss

structure ProperFunction (f : Function) : Prop where
  name : Plain f.name
  formals : ∀ x ∈ f.formals.map Prod.snd, Plain x
  distinct : (f.formals.map Prod.snd).Nodup
  statement : ProperStmt f.statement
  expression : ∀ e, f.expression = some e → Proper e

structure ProperModel (m : Model) : Prop where
  scope : ∀ x ∈ m.scope, Plain x
  declared : ∀ x ∈ m.ports.map SharedPort.name ++ m.types ++ m.events, Plain x
  shared : ∀ p ∈ m.ports, ∀ v ∈ p.members, Plain v.name
  types : ∀ x ∈ m.behaviorTypes, Plain x
  members : ∀ v ∈ m.behavior.members, Plain v.name ∧ Proper v.expression
  functions : ∀ f ∈ m.behavior.functions, ProperFunction f
  statement : ProperStmt m.behavior.statement

def ProperTop : Top → Prop
  | .model m => ProperModel m
  | .function scope f => (∀ x ∈ scope, Plain x) ∧ ProperFunction f

/-- A name resolves to a declaration, that of a call to a function which is no expression. -/
def Env.Resolves (env : Env) (s : Site) : Prop :=
  ∃ t, env.target s.scope s.use = some t ∧
    ∀ ids, s.use = .call ids → ∃ f, env.function s.scope t = some f ∧ f.expression = none

/-- A program that is well formed, without data or calls of expressions. -/
structure WellFormed (r : Root) : Prop where
  proper : ∀ t ∈ r, ProperTop t
  resolves : ∀ t ∈ r, ∀ s ∈ t.sites, (t.env (globals r)).Resolves s

/-! ## What is kept -/

/-- The use is not in the expression of the variable itself, a shared variable has not the name of a local or formal, nor
with its port that of a member, and a function has no formal with its name. -/
def Env.Kept (env : Env) (s : Site) : Prop :=
  match s.use with
  | .var x => s.initializes ≠ some x
  | .shared p x => x ∉ s.scope.counted ∧ s.initializes ≠ some x ∧ p ++ x ∉ env.members
  | .call ids => ∀ t f, env.target s.scope (.call ids) = some t → env.function s.scope t = some f →
    f.name ∉ f.formals.map Prod.snd

/-- All uses are kept, and what gets no count has no name that is in scope. -/
structure Kept (r : Root) : Prop where
  sites : ∀ t ∈ r, ∀ s ∈ t.sites, (t.env (globals r)).Kept s
  locals : ∀ t ∈ r, ∀ l ∈ t.locals, l.counted = false → l.apart

end Dezyne.Tick
