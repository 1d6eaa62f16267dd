import Dezyne.Canonical
import Dezyne.Model
/-!
# The virtual machine

The simulator steps through the statements of an instance with a list of its
variables, the locals of everything that is active before the members. This is
the machine from the side of one instance: what the others do comes between its
steps, as the values of the actions, and as the events that begin, wait and
are resumed.
-/

namespace Dezyne

/-! ## Variables -/

/-- `.variables` of a state: the names and their values. The variable of an initialiser that is evaluated has
the expression itself, which has no value. -/
abbrev Variables := List (String × Option Value)

/-- The names in a list. -/
def Variables.names (vars : Variables) : List String := vars.map Prod.fst

/-- `eval-expression`; `shared` are the values of the shared variables of the ports. -/
def evalExpression (shared : String → String → Value) (vars : Variables) : Expr → Option Value
  | .literal v => some v.value
  | .group e => evalExpression shared vars e
  | .not e => (evalExpression shared vars e).map fun v => .bool !v.truth
  | .binary .and l r => (evalExpression shared vars l).bind fun v =>
    if v.truth then (evalExpression shared vars r).map fun w => .bool w.truth else some (.bool false)
  | .binary .or l r => (evalExpression shared vars l).bind fun v =>
    if v.truth then some (.bool true) else (evalExpression shared vars r).map fun w => .bool w.truth
  | .binary op l r => (evalExpression shared vars l).bind fun v =>
    (evalExpression shared vars r).map fun w => op.eval v w
  -- `assoc-ref`: the first of the name
  | .var x => (vars.lookup x).join
  | .sharedVar p x => some (shared p x)
  | .fieldTest x f => (vars.lookup x).join.map fun v => .bool (v = .enum f)
  | .sharedFieldTest p x f => some (.bool (shared p x = .enum f))
  | .enumLiteral _ f => some (.enum f)
  | .data v => some (.data v)
  -- what is called or done by an expression is a statement or the whole of an initialiser here
  | .action _ _ _ => none
  | .call _ _ => none
  | .otherwise => none
  | .otherwiseValue e => evalExpression shared vars e

/-- `assoc-set!` -/
def assocSet (vars : Variables) (name : String) (value : Value) : Variables :=
  if name ∈ vars.names then
    vars.take (vars.names.idxOf name) ++ (name, some value) :: vars.drop (vars.names.idxOf name + 1)
  else (name, some value) :: vars

/-- The name and the type of a `<variable>` or `<formal>`. -/
abbrev Local := ScopeName × String

/-- The names of declarations. -/
def localNames (locals : List Local) : List String := locals.map Prod.snd

/-! ## Instances -/

mutual
/-- All paths through a statement end with a return, or not at all: what `missing-return` checks, and
`add-function-return` makes. -/
def Stmt.returns : Stmt → Bool
  | .returnStmt _ => true
  | .illegal => true
  | .ifElse _ s t => s.returns && t.returns
  | .compound ss => Stmt.anyReturns ss
  | _ => false

def Stmt.anyReturns : List Stmt → Bool
  | [] => false
  | s :: ss => s.returns || Stmt.anyReturns ss
end

/-- What the machine knows of an instance: the behavior of its model, the ranges of the subints, and which of
its triggers are those of requires ports. -/
structure Instance where
  members : List Variable
  functions : List Function
  statement : List Stmt
  range : ScopeName → Option (Int × Int)
  requires : Trigger → Bool
  returns : ∀ f ∈ functions, f.statement.returns = true

/-- The declarations of the members. -/
def Instance.locals (p : Instance) : List Local := p.members.map fun m => (m.type, m.name)

/-- The names of the members. -/
def Instance.memberNames (p : Instance) : List String := localNames p.locals

/-- `.function` of a call -/
def Instance.function (p : Instance) (name : ScopeName) : Option Function :=
  p.functions.find? fun f => [f.name] = name

/-- `range-error`, if it is none. -/
def Instance.inRange (p : Instance) (type : ScopeName) (value : Value) : Bool :=
  match p.range type with
  | some (lo, hi) => lo ≤ value.num ∧ value.num ≤ hi
  | none => true

/-- `get-locals` -/
def getLocals (p : Instance) (vars : Variables) : Variables := vars.take (vars.length - p.members.length)

/-- `get-members` -/
def getMembers (p : Instance) (vars : Variables) : Variables := vars.drop (vars.length - p.members.length)

/-- `pop-locals` -/
def popLocals (locals : List Local) (vars : Variables) : Variables := vars.drop locals.length

/-- `push-local` of a `<formal>` -/
def pushLocal (formal : Local) (value : Value) (vars : Variables) : Variables :=
  (formal.2, some value) :: vars

/-! ## Places in the program -/

/-- The trigger that is handled, and whether its statement is `blocking`. -/
structure Handling where
  trigger : Trigger
  blocking : Bool
deriving Repr

/-- What is around a statement. -/
inductive Layer where
  /-- A compound: the variables before the statement, the last one first, and the statements after it. -/
  | compound (locals : List Local) (after : List Stmt)
  /-- The branch of an `<if>`. -/
  | branch
  /-- The `<assign>` or `<variable>` a call or an action is the expression of. -/
  | initialiser (statement : Stmt)
  | function (f : Function)
  | handler (h : Handling)
  /-- `<defer-qout>`: the declarations in scope where it was deferred, and the names of the other locals there. -/
  | deferQout (scope : List Local) (others : List String)

/-- `.statement` of a program counter, in its place. -/
inductive Focus where
  | statement (s : Stmt) (around : List Layer)
  -- what `transform-end-of-on` puts at the end of the compound of an `<on>`
  | block (locals : List Local) (h : Handling)
  | endOfOn (locals : List Local) (h : Handling)
  | triggerReturn (locals : List Local) (h : Handling)

/-- The declarations around a statement, the innermost first. -/
def scope : List Layer → List Local
  | .compound locals _ :: around => locals ++ scope around
  | .branch :: around => scope around
  | .initialiser _ :: around => scope around
  | .function f :: _ => f.formals.reverse
  | .deferQout locals _ :: _ => locals
  | .handler _ :: _ => []
  | [] => []

/-- `ast:lookup-variable` -/
def Instance.lookupVariable (p : Instance) (around : List Layer) (name : String) : Option Local :=
  (scope around ++ p.locals).find? fun d => d.2 = name

/-! ## Continuation -/

/-- `continuation` of a list of statements: the call or action of an initialiser comes first. -/
def enter (s : Stmt) (around : List Layer) : Focus :=
  match s with
  | .variableDecl _ _ (.call f as) => .statement (.call f as) (.initialiser s :: around)
  | .variableDecl _ _ (.action p e as) => .statement (.action p e as) (.initialiser s :: around)
  | .assign _ (.call f as) => .statement (.call f as) (.initialiser s :: around)
  | .assign _ (.action p e as) => .statement (.action p e as) (.initialiser s :: around)
  | s => .statement s around

/-- The variables of a program counter and its statement; none if the program counter is popped or its
statement is `#f`. -/
abbrev Next := Variables × Option Focus

/-- The variables a statement declares in the compound it is in. -/
def Stmt.locals : Stmt → List Local
  | .variableDecl type name _ => [(type, name)]
  | _ => []

/-- Adds what a statement declares to the compound around it. -/
def declare (declared : List Local) : List Layer → List Layer
  | .compound locals after :: around => .compound (declared ++ locals) after :: around
  | around => around

/-- `statement-continuation`; what the statement declares is among the locals of the compound around it. -/
def statementContinuation (p : Instance) (vars : Variables) : List Layer → Option Next
  | .compound locals (s :: after) :: around => some (vars, some (enter s (.compound locals after :: around)))
  -- the compound of an `<on>`, which goes on with `<block>` and `<end-of-on>`
  | .compound locals [] :: .handler h :: _ =>
    some (vars, some (if h.blocking then .block locals h else .endOfOn locals h))
  | .compound locals [] :: around => statementContinuation p (popLocals locals vars) around
  | .branch :: around => statementContinuation p vars around
  | .function _ :: _ => some (vars, none)
  | .deferQout _ _ :: _ => some (vars.drop (getLocals p vars).length, none)
  | _ => none

/-- `continuation` -/
def continuation (p : Instance) (vars : Variables) (o : Stmt) (around : List Layer) : Option Next :=
  match o, around with
  | .compound (s :: after), _ => some (vars, some (enter s (.compound [] after :: around)))
  | .compound [], _ => statementContinuation p vars around
  | _, .initialiser s :: around => some (vars, some (.statement s around))
  | _, .compound _ _ :: _ => statementContinuation p vars (declare o.locals around)
  | _, .branch :: around => statementContinuation p vars around
  -- the statement of a `<defer>` itself
  | _, .deferQout _ _ :: _ => some (vars, none)
  | _, _ => none

/-- `function-return` -/
def functionReturn (vars : Variables) : List Layer → Option Variables
  | .compound locals _ :: around => functionReturn (popLocals locals vars) around
  | .branch :: around => functionReturn vars around
  | .initialiser _ :: around => functionReturn vars around
  | .function f :: _ => some (popLocals f.formals vars)
  | _ => none

/-- A `<return>` of type void. -/
def Focus.isVoidReturn : Focus → Option (List Layer)
  | .statement (.returnStmt (.literal .void)) around => some around
  | _ => none

/-! ## States -/

/-- What `<defer>` keeps: the statement, and the variables there. -/
structure Deferred where
  statement : Stmt
  scope : List Local
  vars : Variables

/-- The program counters of an instance: the frames of the one that runs, the last one first, and those that
wait, blocked or collaterally. -/
structure Vm where
  vars : Variables
  frames : List Focus
  waiting : List (List Focus)
  defer : List Deferred
  returned : Option Value

/-- The statement of the top frame is done, and the frame is at its next one or popped. -/
def Vm.next (vm : Vm) (rest : List Focus) (n : Next) : Vm :=
  { vm with vars := n.1, frames := n.2.toList ++ rest }

/-- `make-state` -/
def Instance.start (p : Instance) (shared : String → String → Value) : Vm where
  vars := p.members.map fun m => (m.name, evalExpression shared [] m.expression)
  frames := []
  waiting := []
  defer := []
  returned := none

/-- The statement in a declarative one; `transform-end-of-on` makes it a compound. -/
def body (s : Stmt) (h : Handling) : Focus :=
  match s with
  | .compound ss => .statement (.compound ss) [.handler h]
  | s => if s.declarative then .statement s [.handler h] else .statement (.compound [s]) [.handler h]

/-- `step <call>`: pops the caller too if it only returns after this. -/
def stepCall (f : Function) (args : List Value) (vm : Vm) : Option Vm :=
  let called (vm : Vm) : Vm :=
    { vm with
      vars := (f.formals.zip args).foldl (fun vars fa => pushLocal fa.1 fa.2 vars) vm.vars
      frames := .statement f.statement [.function f] :: vm.frames }
  match vm.frames.head?.bind Focus.isVoidReturn with
  | some around => (functionReturn vm.vars around).map fun vars =>
    called { vm with vars := vars, frames := vm.frames.tail }
  | none => some (called vm)

/-- `get-locals` of the program counter of a `<defer>` -/
def graftLocals (p : Instance) (d : Deferred) (vars : Variables) : Variables :=
  getLocals p d.vars ++ getMembers p vars

/-- The frame a deferred statement is run in. -/
def Deferred.frame (p : Instance) (d : Deferred) : Focus :=
  .statement d.statement [.deferQout d.scope ((getLocals p d.vars).names.drop d.scope.length)]

/-! ## Steps -/

/-- A statement whose step only goes on; what it does is done by other instances. -/
def Stmt.passes : Stmt → Bool
  | .skip => true
  | .theEnd => true
  | .action _ _ _ => true
  | .compound _ => true
  | _ => false

/-- The expression of an `<assign>` or `<variable>` is a call or an action. -/
def isCallOrAction : Expr → Bool
  | .call _ _ => true
  | .action _ _ _ => true
  | _ => false

/-- The value of the expression of an `<assign>` or `<variable>`: that of an expression, of the last return, or the
reply to an action. -/
inductive HasValue (shared : String → String → Value) (vars : Variables) (returned : Option Value) :
    Expr → Value → Prop
  | expression {e : Expr} {v : Value} : isCallOrAction e = false → evalExpression shared vars e = some v →
      HasValue shared vars returned e v
  | call {f : ScopeName} {as : List Expr} {v : Value} : returned = some v →
      HasValue shared vars returned (.call f as) v
  | action {port : Option String} {event : String} {as : List Expr} (v : Value) :
      HasValue shared vars returned (.action port event as) v

/-- `step` for the top frame. An error ends the run, so there is no step to one. -/
inductive StatementStep (p : Instance) (shared : String → String → Value) (vm : Vm) : Vm → Prop
  | passes {s : Stmt} {around : List Layer} {rest : List Focus} {n : Next} :
      vm.frames = .statement s around :: rest → s.passes = true → continuation p vm.vars s around = some n →
      StatementStep p shared vm (vm.next rest n)
  | reply {port : Option String} {e : Expr} {v : Value} {around : List Layer} {rest : List Focus} {n : Next} :
      vm.frames = .statement (.reply port e) around :: rest → evalExpression shared vm.vars e = some v →
      continuation p vm.vars (.reply port e) around = some n → StatementStep p shared vm (vm.next rest n)
  | ifThen {e : Expr} {s : Stmt} {v : Value} {around : List Layer} {rest : List Focus} :
      vm.frames = .statement (.ifThen e s) around :: rest → evalExpression shared vm.vars e = some v →
      v.truth = true → StatementStep p shared vm (vm.next rest (vm.vars, some (enter s (.branch :: around))))
  | ifNot {e : Expr} {s : Stmt} {v : Value} {around : List Layer} {rest : List Focus} {n : Next} :
      vm.frames = .statement (.ifThen e s) around :: rest → evalExpression shared vm.vars e = some v →
      v.truth = false → statementContinuation p vm.vars around = some n → StatementStep p shared vm (vm.next rest n)
  | ifElse {e : Expr} {s t : Stmt} {v : Value} {around : List Layer} {rest : List Focus} :
      vm.frames = .statement (.ifElse e s t) around :: rest → evalExpression shared vm.vars e = some v →
      StatementStep p shared vm
        (vm.next rest (vm.vars, some (enter (if v.truth then s else t) (.branch :: around))))
  | call {name : ScopeName} {as : List Expr} {f : Function} {args : List Value} {around : List Layer}
      {rest : List Focus} {n : Next} {vm' : Vm} :
      vm.frames = .statement (.call name as) around :: rest → p.function name = some f →
      as.mapM (evalExpression shared vm.vars) = some args → args.length = f.formals.length →
      (∀ fa ∈ f.formals.zip args, p.inRange fa.1.1 fa.2 = true) →
      continuation p vm.vars (.call name as) around = some n → stepCall f args (vm.next rest n) = some vm' →
      StatementStep p shared vm vm'
  -- the value is any of the type for `"*"`, the body of a foreign function
  | returns {e : Expr} {v : Value} {around : List Layer} {rest : List Focus} {vars : Variables} :
      vm.frames = .statement (.returnStmt e) around :: rest →
      (evalExpression shared vm.vars e = some v ∨ e = .data "*") → functionReturn vm.vars around = some vars →
      StatementStep p shared vm { vm with vars := vars, frames := rest, returned := some v }
  | assign {name : String} {e : Expr} {d : Local} {v : Value} {around : List Layer} {rest : List Focus} {n : Next} :
      vm.frames = .statement (.assign name e) around :: rest → p.lookupVariable around name = some d →
      HasValue shared vm.vars vm.returned e v → p.inRange d.1 v = true →
      continuation p (assocSet vm.vars d.2 v) (.assign name e) around = some n →
      StatementStep p shared vm (vm.next rest n)
  -- `push-local` comes before the expression is evaluated
  | declares {type : ScopeName} {name : String} {e : Expr} {v : Value} {around : List Layer} {rest : List Focus}
      {vars : Variables} {n : Next} :
      vm.frames = .statement (.variableDecl type name e) around :: rest →
      HasValue shared ((name, none) :: vm.vars) vm.returned e v → p.inRange type v = true →
      vars = assocSet ((name, none) :: vm.vars) name v →
      continuation p (match around with
        | .compound _ _ :: _ => vars
        | _ => popLocals [(type, name)] vars) (.variableDecl type name e) around = some n →
      StatementStep p shared vm (vm.next rest n)
  | defer {as : Option (List Expr)} {s : Stmt} {around : List Layer} {rest : List Focus} {n : Next} :
      vm.frames = .statement (.defer as s) around :: rest → statementContinuation p vm.vars around = some n →
      StatementStep p shared vm { vm.next rest n with defer := vm.defer ++ [⟨s, scope around, vm.vars⟩] }
  | alternative {ss : List Stmt} {s : Stmt} {h : Handling} {rest : List Focus} :
      vm.frames = .statement (.declarativeCompound ss) [.handler h] :: rest → s ∈ ss →
      StatementStep p shared vm (vm.next rest (vm.vars, some (body s h)))
  | guard {e : Expr} {s : Stmt} {v : Value} {h : Handling} {rest : List Focus} :
      vm.frames = .statement (.guard e s) [.handler h] :: rest → evalExpression shared vm.vars e = some v →
      v.truth = true → StatementStep p shared vm (vm.next rest (vm.vars, some (body s h)))
  | on {ts : List Trigger} {s : Stmt} {h : Handling} {rest : List Focus} :
      vm.frames = .statement (.on ts s) [.handler h] :: rest → ts.any (·.equal h.trigger) = true →
      StatementStep p shared vm (vm.next rest (vm.vars, some (body s h)))
  | blocking {s : Stmt} {h : Handling} {rest : List Focus} :
      vm.frames = .statement (.blocking s) [.handler h] :: rest →
      StatementStep p shared vm (vm.next rest (vm.vars, some (body s { h with blocking := true })))
  | blockRequires {locals : List Local} {h : Handling} {rest : List Focus} :
      vm.frames = .block locals h :: rest → p.requires h.trigger = true →
      StatementStep p shared vm (vm.next rest (vm.vars, some (.endOfOn locals h)))
  | blockReleased {locals : List Local} {h : Handling} {rest : List Focus} :
      vm.frames = .block locals h :: rest → p.requires h.trigger = false →
      StatementStep p shared vm (vm.next rest (popLocals locals vm.vars, some (.endOfOn locals h)))
  | block {locals : List Local} {h : Handling} {rest : List Focus} :
      vm.frames = .block locals h :: rest → p.requires h.trigger = false →
      StatementStep p shared vm { vm with
        vars := popLocals locals vm.vars, frames := [], waiting := (.endOfOn locals h :: rest) :: vm.waiting }
  | endOfOut {locals : List Local} {h : Handling} {rest : List Focus} :
      vm.frames = .endOfOn locals h :: rest → p.requires h.trigger = true →
      StatementStep p shared vm (vm.next rest (popLocals locals vm.vars, none))
  | endOfOn {locals : List Local} {h : Handling} {rest : List Focus} :
      vm.frames = .endOfOn locals h :: rest → p.requires h.trigger = false →
      StatementStep p shared vm (vm.next rest (vm.vars, some (.triggerReturn locals h)))
  | triggerReturn {locals : List Local} {h : Handling} {rest : List Focus} :
      vm.frames = .triggerReturn locals h :: rest →
      StatementStep p shared vm (vm.next rest
        (if p.requires h.trigger = false ∧ h.blocking = true then vm.vars else popLocals locals vm.vars, none))

/-- What happens next: a statement of the instance is stepped, or what the rest of the machine does. -/
inductive Happens where
  | statement
  /-- `begin-step`, also by `flush` before the frame below is done. -/
  | begin (trigger : Trigger)
  /-- The program counter blocks, on a port or collaterally. -/
  | wait
  /-- `switch-context` to one that waits. -/
  | resume (before : List (List Focus)) (frames : List Focus) (after : List (List Focus))
  /-- `run-defer-event`, after `prune-defer`. -/
  | runDefer (d : Deferred) (after : List Deferred)
  /-- The state of a port is taken over from another instance of it. -/
  | copy (vars : Variables)

/-- One step of the machine. -/
inductive VmStep (p : Instance) (shared : String → String → Value) (vm : Vm) : Happens → Vm → Prop
  | statement {vm' : Vm} : StatementStep p shared vm vm' → VmStep p shared vm .statement vm'
  | begin (t : Trigger) : VmStep p shared vm (.begin t)
      { vm with frames := .statement (.declarativeCompound p.statement) [.handler ⟨t, false⟩] :: vm.frames }
  | wait : VmStep p shared vm .wait { vm with frames := [], waiting := vm.frames :: vm.waiting }
  | resume {before after : List (List Focus)} {frames : List Focus} :
      vm.frames = [] → vm.waiting = before ++ frames :: after →
      VmStep p shared vm (.resume before frames after) { vm with frames := frames, waiting := before ++ after }
  | runDefer {d : Deferred} {after : List Deferred} :
      vm.frames = [] → (d :: after).Sublist vm.defer →
      VmStep p shared vm (.runDefer d after)
        { vm with vars := graftLocals p d vm.vars, frames := [d.frame p], defer := after }
  | copy (vars : Variables) : VmStep p shared vm (.copy vars) { vm with vars := vars }

end Dezyne
