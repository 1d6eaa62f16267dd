import Dezyne.Ast
/-!
# Extern data is purged

The data of an extern type has no meaning in mCRL2. `purge-data` drops the
formals, arguments and variables that have it, and what is replied or returned
of it becomes void. A group is not looked into: one around data is left with
nothing in it.
-/

namespace Dezyne.Purge

/-! ## The syntax, with types -/

/-- A type that a name resolves to. -/
inductive DataType where
  | void | bool | int
  | enum (name : ScopeName)
  | externData (name : ScopeName)
deriving DecidableEq, Repr

/-- `(is-a? type <extern>)` -/
def DataType.isExtern : DataType → Bool
  | .externData _ => true
  | _ => false

/-- Neither extern nor void. -/
def DataType.isValue : DataType → Bool
  | .void | .externData _ => false
  | _ => true

theorem DataType.isExtern_of_isValue {t : DataType} (h : t.isValue = true) : t.isExtern = false := by
  cases t with
  | externData => cases h
  | _ => rfl

/-- An expression; a variable, action or call with the type of what it resolves to. -/
inductive Exp where
  /-- `#f`, where there is no expression. -/
  | absent
  | literal (value : Literal)
  | enumLiteral (type : ScopeName) (field : String)
  | data (value : String)
  | var (name : String) (type : DataType)
  | fieldTest (name field : String)
  | sharedVar (port name : String) (type : DataType)
  | sharedFieldTest (port name field : String)
  | otherwise
  | group (expression : Exp)
  | not (expression : Exp)
  | binary (op : BinOp) (left right : Exp)
  | action (port : Option String) (event : String) (type : DataType) (arguments : List Exp)
  | call (function : String) (type : DataType) (arguments : List Exp)
deriving Repr

/-- A statement; an assign with the type of its variable. -/
inductive Stm where
  | compound (elements : List Stm)
  | declarativeCompound (elements : List Stm)
  | guard (expression : Exp) (statement : Stm)
  | on (triggers : List Trigger) (statement : Stm)
  | blocking (statement : Stm)
  | invariant (expression : Exp)
  | illegal
  | skip
  | declaration (type : DataType) (name : String) (expression : Exp)
  | assign (type : DataType) (name : String) (expression : Exp)
  | action (port : Option String) (event : String) (arguments : List Exp)
  | call (function : String) (arguments : List Exp)
  | ifThen (expression : Exp) (thenStm : Stm)
  | ifElse (expression : Exp) (thenStm elseStm : Stm)
  | reply (port : Option String) (expression : Exp)
  | returned (expression : Exp)
  | defer (arguments : Option (List Exp)) (statement : Stm)
  /-- An expression that is put where a statement is. -/
  | expression (expression : Exp)
deriving Repr

inductive Direction where
  | in | out | inout
deriving DecidableEq, Repr

/-- A formal of a signature. -/
structure Parameter where
  direction : Direction
  type : DataType
  name : String
deriving DecidableEq, Repr

/-- An event or a function, without what is in it: its name and `<signature>`. -/
structure Signature where
  name : String
  type : DataType
  formals : List Parameter
deriving DecidableEq, Repr

structure Func where
  signature : Signature
  statement : Stm
deriving Repr

/-- A variable of a behavior. -/
structure Member where
  type : DataType
  name : String
  expression : Exp
deriving Repr

/-- The behavior of a model, and the events with the ports that they are used through. -/
structure Behavior where
  events : List (Option String × Signature)
  members : List Member
  functions : List Func
  statement : Stm
deriving Repr

/-! ## What is purged -/

/-- `ast:type` -/
def Exp.type : Exp → Option DataType
  | .literal (.bool _) => some .bool
  | .literal (.int _) => some .int
  | .literal .void => some .void
  | .enumLiteral t _ => some (.enum t)
  | .data _ => some (.externData [])
  | .var _ t | .sharedVar _ _ t | .action _ _ t _ | .call _ t _ => some t
  | .group e => e.type
  | .binary .plus _ _ | .binary .minus _ _ => some .int
  | .fieldTest _ _ | .sharedFieldTest _ _ _ | .otherwise | .not _ | .binary _ _ _ => some .bool
  | .absent => none

/-- There is an expression. -/
def Exp.present : Exp → Bool
  | .absent => false
  | _ => true

/-- `purge-data` of an expression -/
def Exp.purge : Exp → Exp
  | .data _ => .absent
  | .var x t => if t.isExtern then .absent else .var x t
  | .group e => .group e.purge
  | .not e => .not e.purge
  | .binary op l r => .binary op l.purge r.purge
  | .action p e t as => .action p e t (arguments as)
  | .call f t as => .call f t (arguments as)
  | e => e
where
  /-- `purge-data` of an `<ast-list>` -/
  arguments : List Exp → List Exp
  | [] => []
  | a :: as => if a.purge.present then a.purge :: arguments as else arguments as

/-- `purge-data` of arguments -/
def purgeArguments (as : List Exp) : List Exp := Exp.purge.arguments as

/-- `tree-collect` finds an action or a call. -/
def Exp.acts : Exp → Bool
  | .group e | .not e => e.acts
  | .binary _ l r => l.acts || r.acts
  | .action _ _ _ _ | .call _ _ _ => true
  | _ => false

/-- An expression as a statement. -/
def Exp.asStm : Exp → Stm
  | .action p e _ as => .action p e as
  | .call f _ as => .call f as
  | e => .expression e

/-- The expression of a reply or return: a literal is made where there is none. -/
def Exp.orVoid (e : Exp) : Exp := if e.present then e else .literal .void

/-- `remove?` of a reply -/
def Exp.removed (e : Exp) : Bool :=
  e.type.any (fun t => t = .void || t.isExtern) && !match e with
    | .literal _ => true
    | _ => false

/-- `purge-data` of an `<assign>` or `<variable>`, with itself for an expression, and whether its parent is neither a
`<compound>` nor `<variables>` -/
def purgeAssign (skips : Bool) (type : DataType) (assigned : Exp → Stm) (e : Exp) : Option Stm :=
  if !type.isExtern then some (assigned e.purge)
  else if e.purge.acts then some e.purge.asStm
  else if skips then some .skip else none

/-- A statement that is not in a compound; there is always one. -/
def asSlot (s : Option Stm) : Stm := s.getD .skip

/-- `purge-data` of a statement, and whether its parent is not a `<compound>` -/
def Stm.purge (skips : Bool) : Stm → Option Stm
  | .compound ss => some (.compound (elements ss))
  | .declarativeCompound ss => some (.declarativeCompound (elements ss))
  | .guard e s => some (.guard e.purge (asSlot (s.purge true)))
  | .on ts s => some (.on (ts.map fun t => { t with formals := [] }) (asSlot (s.purge true)))
  | .blocking s => some (.blocking (asSlot (s.purge true)))
  | .invariant e => some (.invariant e.purge)
  | .illegal => some .illegal
  | .skip => some .skip
  | .declaration t x e => purgeAssign skips t (.declaration t x) e
  | .assign t x e => purgeAssign skips t (.assign t x) e
  | .action p e as => some (.action p e (purgeArguments as))
  | .call f as => some (.call f (purgeArguments as))
  | .ifThen e s => some (.ifThen e.purge (asSlot (s.purge true)))
  | .ifElse e s t => some (.ifElse e.purge (asSlot (s.purge true)) (asSlot (t.purge true)))
  | .reply p e => if e.purge.orVoid.removed then some e.purge.orVoid.asStm else some (.reply p e.purge.orVoid)
  | .returned e => some (.returned e.purge.orVoid)
  | .defer as s => some (.defer (as.map purgeArguments) (asSlot (s.purge true)))
  | .expression e => some (.expression e.purge)
where
  elements : List Stm → List Stm
  | [] => []
  | s :: ss => match s.purge false with
    | some s => s :: elements ss
    | none => elements ss

/-- `purge-data` of a `<signature>` -/
def Signature.purge (s : Signature) : Signature where
  name := s.name
  type := if s.type.isExtern then .void else s.type
  formals := s.formals.filter fun f => !f.type.isExtern

/-- `purge-data` of a `<function>` -/
def Func.purge (f : Func) : Func := ⟨f.signature.purge, asSlot (f.statement.purge true)⟩

/-- `purge-data` of a variable of a behavior, which is not initialised with an action or call -/
def Member.purge (m : Member) : Option Member :=
  if m.type.isExtern then none else some { m with expression := m.expression.purge }

/-- `purge-data` of a behavior and the events -/
def Behavior.purge (b : Behavior) : Behavior where
  events := b.events.map fun e => (e.1, e.2.purge)
  members := b.members.filterMap Member.purge
  functions := b.functions.map Func.purge
  statement := asSlot (b.statement.purge true)

/-! ## Well-formed behaviors, with explicit temporaries -/

/-- An expression of extern type, without an action or call. -/
def Exp.isData : Exp → Bool
  | .data _ => true
  | .var _ t => t.isExtern
  | .group e => e.isData
  | _ => false

/-- An expression of another type, without an action or call. -/
def Exp.isValue : Exp → Bool
  | .literal .void => false
  | .literal _ | .enumLiteral _ _ | .fieldTest _ _ | .sharedFieldTest _ _ _ => true
  | .var _ t | .sharedVar _ _ t => t.isValue
  | .group e | .not e => e.isValue
  | .binary _ l r => l.isValue && r.isValue
  | _ => false

/-- No expression, or a void literal. -/
def Exp.isVoid : Exp → Bool
  | .absent | .literal .void => true
  | _ => false

/-- An argument for a formal of the type. -/
def Exp.Fits (t : DataType) (e : Exp) : Prop := if t.isExtern then e.isData = true else e.isValue = true

/-- Arguments that match formals one to one. -/
def Match (formals : List Parameter) (arguments : List Exp) : Prop :=
  List.Forall₂ (fun f a => Exp.Fits f.type a) formals arguments

def Behavior.event (b : Behavior) (port : Option String) (event : String) : Option Signature :=
  (b.events.find? fun e => e.1 = port && e.2.name = event).map Prod.snd

def Behavior.func (b : Behavior) (name : String) : Option Func :=
  b.functions.find? fun f => f.signature.name = name

/-- An action has an argument for each formal of its event; one of an interface has none. -/
def Behavior.ActionFits (b : Behavior) (port : Option String) (event : String) (as : List Exp) : Prop :=
  ∃ s, b.event port event = some s ∧ match port with
    | none => as = []
    | some _ => Match s.formals as

def Behavior.CallFits (b : Behavior) (function : String) (as : List Exp) : Prop :=
  ∃ d, b.func function = some d ∧ Match d.signature.formals as

/-- What may be assigned to a variable of the type. -/
def Exp.Assignable (b : Behavior) (t : DataType) : Exp → Prop
  | .group e => e.Assignable b t
  | .action p ev ty as => ty.isExtern = t.isExtern ∧ b.ActionFits p ev as
  | .call f ty as => ty.isExtern = t.isExtern ∧ b.CallFits f as
  | e => if t.isExtern then e.isData = true ∨ e.isVoid = true else e.isValue = true

/-- What may be replied or returned. -/
def Exp.isResult (e : Exp) : Bool := e.isValue || e.isData || e.isVoid

/-- The statements that a declarative compound has. -/
def Stm.isDeclarative : Stm → Bool
  | .guard _ _ | .on _ _ | .blocking _ | .invariant _ | .declarativeCompound _ => true
  | _ => false

/-- A well-formed statement, in which actions and calls are statements or what is assigned. -/
def Stm.WellFormed (b : Behavior) : Stm → Prop
  | .compound ss => elements b ss
  | .declarativeCompound ss => (∀ s ∈ ss, s.isDeclarative = true) ∧ elements b ss
  | .guard e s => (e = .otherwise ∨ e.isValue = true) ∧ s.WellFormed b
  | .on _ s | .blocking s => s.WellFormed b
  | .invariant e => e.isValue = true
  | .illegal | .skip => True
  | .declaration t _ e | .assign t _ e => e.Assignable b t
  | .action p ev as => b.ActionFits p ev as
  | .call f as => b.CallFits f as
  | .ifThen e s => e.isValue = true ∧ s.WellFormed b
  | .ifElse e s t => e.isValue = true ∧ s.WellFormed b ∧ t.WellFormed b
  | .reply _ e | .returned e => e.isResult = true
  | .defer as s => (∀ l, as = some l → ∀ a ∈ l, a.isValue = true) ∧ s.WellFormed b
  | .expression _ => False
where
  elements (b : Behavior) : List Stm → Prop
  | [] => True
  | s :: ss => s.WellFormed b ∧ elements b ss

/-- A well-formed behavior. -/
structure Behavior.WellFormed (b : Behavior) : Prop where
  events : ∀ e ∈ b.events, ∀ f ∈ e.2.formals, f.type.isExtern = true
  members : ∀ m ∈ b.members, if m.type.isExtern then m.expression.isResult = true else m.expression.isValue = true
  functions : ∀ f ∈ b.functions, f.statement.WellFormed b
  statement : b.statement.WellFormed b

/-! ## No extern is left -/

/-- There is no data in an expression. -/
def Exp.noExtern : Exp → Bool
  | .data _ => false
  | .var _ t | .sharedVar _ _ t => !t.isExtern
  | .group e | .not e => e.noExtern
  | .binary _ l r => l.noExtern && r.noExtern
  | .action _ _ t as | .call _ t as => !t.isExtern && arguments as
  | _ => true
where
  arguments : List Exp → Bool
  | [] => true
  | a :: as => a.noExtern && arguments as

def Stm.noExtern : Stm → Bool
  | .compound ss | .declarativeCompound ss => elements ss
  | .guard e s => e.noExtern && s.noExtern
  | .on ts s => ts.all (fun t => t.formals.isEmpty) && s.noExtern
  | .blocking s => s.noExtern
  | .invariant e | .expression e => e.noExtern
  | .illegal | .skip => true
  | .declaration t _ e | .assign t _ e => !t.isExtern && e.noExtern
  | .action _ _ as | .call _ as => as.all Exp.noExtern
  | .ifThen e s => e.noExtern && s.noExtern
  | .ifElse e s t => e.noExtern && s.noExtern && t.noExtern
  | .reply _ e | .returned e => e.noExtern
  | .defer as s => (as.getD []).all Exp.noExtern && s.noExtern
where
  elements : List Stm → Bool
  | [] => true
  | s :: ss => s.noExtern && elements ss

/-- There is no extern type in a signature. -/
def Signature.noExtern (s : Signature) : Bool := !s.type.isExtern && s.formals.all fun f => !f.type.isExtern

structure Behavior.NoExtern (b : Behavior) : Prop where
  events : ∀ e ∈ b.events, e.2.noExtern = true
  members : ∀ m ∈ b.members, m.type.isExtern = false ∧ m.expression.noExtern = true
  functions : ∀ f ∈ b.functions, f.signature.noExtern = true ∧ f.statement.noExtern = true
  statement : b.statement.noExtern = true

/-! ## Groups around data -/

def Exp.isGroup : Exp → Bool
  | .group _ => true
  | _ => false

/-- Not a group around data. -/
def Exp.bare (e : Exp) : Bool := !(e.isData && e.isGroup)

/-- No argument of an action or call that is assigned is a group around data. -/
def Exp.bareArguments : Exp → Bool
  | .group e => e.bareArguments
  | .action _ _ _ as | .call _ _ as => as.all Exp.bare
  | _ => true

/-- An assigned expression without groups around data; also an action or call with data for a result is none. -/
def Exp.bareAssigned (t : DataType) (e : Exp) : Bool :=
  e.bareArguments && !(t.isExtern && e.isGroup && e.acts)

/-- There are no groups around data, but in what is assigned to data without an action or call. -/
def Stm.bare : Stm → Bool
  | .compound ss | .declarativeCompound ss => elements ss
  | .guard _ s | .on _ s | .blocking s | .ifThen _ s | .defer _ s => s.bare
  | .declaration t _ e | .assign t _ e => e.bareAssigned t
  | .action _ _ as | .call _ as => as.all Exp.bare
  | .ifElse _ s t => s.bare && t.bare
  | .reply _ e | .returned e => e.bare
  | .invariant _ | .illegal | .skip | .expression _ => true
where
  elements : List Stm → Bool
  | [] => true
  | s :: ss => s.bare && elements ss

structure Behavior.Bare (b : Behavior) : Prop where
  functions : ∀ f ∈ b.functions, f.statement.bare = true
  statement : b.statement.bare = true

/-! ## Expressions -/

namespace Exp

/-- Induction over expressions, with a hypothesis for every argument. -/
@[induction_eliminator]
theorem induction {P : Exp → Prop}
    (absent : P .absent) (literal : ∀ v, P (.literal v)) (enumLiteral : ∀ t f, P (.enumLiteral t f))
    (data : ∀ v, P (.data v)) (var : ∀ x t, P (.var x t)) (fieldTest : ∀ x f, P (.fieldTest x f))
    (sharedVar : ∀ p x t, P (.sharedVar p x t)) (sharedFieldTest : ∀ p x f, P (.sharedFieldTest p x f))
    (otherwise : P .otherwise) (group : ∀ e, P e → P (.group e)) (not : ∀ e, P e → P (.not e))
    (binary : ∀ op l r, P l → P r → P (.binary op l r))
    (action : ∀ p ev t as, (∀ a ∈ as, P a) → P (.action p ev t as))
    (call : ∀ f t as, (∀ a ∈ as, P a) → P (.call f t as)) (e : Exp) : P e :=
  Exp.rec (motive_1 := P) (motive_2 := fun as => ∀ a ∈ as, P a)
    absent literal enumLiteral data var fieldTest sharedVar sharedFieldTest otherwise group not binary action call
    (by simp) (fun _ _ hh ht a ha => by rcases List.mem_cons.1 ha with rfl | ha; exacts [hh, ht a ha]) e

variable {e : Exp} {b : Behavior} {t : DataType}

theorem purgeArguments_eq (as : List Exp) : purgeArguments as = (as.map purge).filter present := by
  induction as with
  | nil => rfl
  | cons a as ih =>
    unfold purgeArguments at ih ⊢
    rw [purge.arguments, ih, List.map_cons, List.filter_cons]

theorem noExtern_arguments (as : List Exp) : noExtern.arguments as = as.all noExtern := by
  induction as with
  | nil => rfl
  | cons a as ih => rw [noExtern.arguments, ih, List.all_cons]

/-- A value has no data in it. -/
theorem purge_of_isValue (h : e.isValue = true) : e.purge = e := by
  induction e with
  | var x t => simp [purge, DataType.isExtern_of_isValue h]
  | group e ih => rw [purge, ih h]
  | not e ih => rw [purge, ih h]
  | binary op l r ihl ihr =>
    simp only [isValue, Bool.and_eq_true] at h
    rw [purge, ihl h.1, ihr h.2]
  | data => cases h
  | action => cases h
  | call => cases h
  | _ => rfl

theorem noExtern_of_isValue (h : e.isValue = true) : e.noExtern = true := by
  induction e with
  | var x t => simp [noExtern, DataType.isExtern_of_isValue h]
  | sharedVar p x t => simp [noExtern, DataType.isExtern_of_isValue h]
  | group e ih => exact ih h
  | not e ih => exact ih h
  | binary op l r ihl ihr =>
    simp only [isValue, Bool.and_eq_true] at h
    simp only [noExtern, ihl h.1, ihr h.2, Bool.and_self]
  | data => cases h
  | action => cases h
  | call => cases h
  | _ => rfl

theorem present_of_isValue (h : e.isValue = true) : e.present = true := by
  cases e with
  | absent => cases h
  | _ => rfl

theorem isData_of_isValue (h : e.isValue = true) : e.isData = false := by
  induction e with
  | var x t => exact DataType.isExtern_of_isValue h
  | group e ih => exact ih h
  | data => cases h
  | _ => rfl

/-- A value has a type that is kept. -/
theorem type_of_isValue (h : e.isValue = true) : ∃ t, e.type = some t ∧ t.isValue = true := by
  induction e with
  | var x t => exact ⟨t, rfl, h⟩
  | sharedVar p x t => exact ⟨t, rfl, h⟩
  | literal v =>
    cases v with
    | void => cases h
    | bool => exact ⟨.bool, rfl, rfl⟩
    | int => exact ⟨.int, rfl, rfl⟩
  | enumLiteral t f => exact ⟨.enum t, rfl, rfl⟩
  | fieldTest => exact ⟨.bool, rfl, rfl⟩
  | sharedFieldTest => exact ⟨.bool, rfl, rfl⟩
  | group e ih => exact ih h
  | not => exact ⟨.bool, rfl, rfl⟩
  | binary op l r =>
    cases op with
    | plus => exact ⟨.int, rfl, rfl⟩
    | minus => exact ⟨.int, rfl, rfl⟩
    | _ => exact ⟨.bool, rfl, rfl⟩
  | _ => cases h

theorem removed_of_isValue (h : e.isValue = true) : e.removed = false := by
  obtain ⟨t, ht, hvalue⟩ := type_of_isValue h
  have hkept : (decide (t = .void) || t.isExtern) = false := by
    cases t with
    | void => cases hvalue
    | externData => cases hvalue
    | _ => rfl
  unfold removed
  rw [ht, Option.any_some, hkept, Bool.false_and]

theorem bare_of_isValue (h : e.isValue = true) : e.bare = true := by
  rw [bare, isData_of_isValue h]
  rfl

/-- What is left of data is nothing, or groups with nothing in them. -/
theorem purge_of_isData (h : e.isData = true) :
    e.purge.isValue = false ∧ e.purge.isData = false ∧ e.purge.noExtern = true ∧ e.purge.acts = false ∧
    (e.bare = true ↔ e.purge = .absent) ∧ (e.bare = false ↔ e.purge.isGroup = true) := by
  induction e with
  | data => exact ⟨rfl, rfl, rfl, rfl, by simp [bare, isGroup, purge], by simp [bare, isGroup, purge]⟩
  | var x t =>
    have hpurge : (var x t).purge = .absent := if_pos h
    rw [hpurge]
    exact ⟨rfl, rfl, rfl, rfl, by simp [bare, isGroup], by simp [bare, isGroup]⟩
  | group e ih =>
    obtain ⟨hvalue, hdata, hfree, hacts, -, -⟩ := ih h
    have hbare : (group e).bare = false := by simp [bare, isGroup, h]
    exact ⟨hvalue, hdata, hfree, hacts, by simp [hbare, purge], by simp [hbare, purge, isGroup]⟩
  | _ => cases h

theorem type_purge_of_isData (h : e.isData = true) : e.purge.type = none := by
  induction e with
  | data => rfl
  | var x t =>
    have hpurge : (var x t).purge = .absent := if_pos h
    rw [hpurge]
    rfl
  | group e ih => exact ih h
  | _ => cases h

theorem removed_purge_of_isData (h : e.isData = true) : e.purge.removed = false := by
  unfold removed
  rw [type_purge_of_isData h]
  rfl

theorem present_purge_of_isData (h : e.isData = true) : e.purge.present = !e.bare := by
  obtain ⟨-, -, -, -, habsent, hgroup⟩ := purge_of_isData h
  cases hbare : e.bare with
  | true => rw [habsent.1 hbare]; rfl
  | false =>
    have hisGroup := hgroup.1 hbare
    cases hpurge : e.purge with
    | group => rfl
    | _ => rw [hpurge] at hisGroup; cases hisGroup

theorem acts_purge (e : Exp) : e.purge.acts = e.acts := by
  induction e with
  | var x t =>
    unfold purge
    split <;> rfl
  | group e ih => exact ih
  | not e ih => exact ih
  | binary op l r ihl ihr => simp only [purge, acts, ihl, ihr]
  | _ => rfl

/-- The arguments match the formals that are left, just when none is a group around data. -/
theorem match_purge {fs : List Parameter} {as : List Exp} (h : Match fs as) :
    (as.all bare = true ↔ Match (fs.filter fun f => !f.type.isExtern) (purgeArguments as)) ∧
    ((purgeArguments as).all noExtern = true) := by
  rw [purgeArguments_eq]
  induction h with
  | nil => exact ⟨by simp [Match], rfl⟩
  | @cons f a fs as hfit h ih =>
    obtain ⟨ih, ihextern⟩ := ih
    unfold Fits at hfit
    rw [List.map_cons, List.filter_cons, List.filter_cons, List.all_cons]
    cases ht : f.type.isExtern with
    | true =>
      rw [ht, if_pos rfl] at hfit
      obtain ⟨hvalue, hdata, hnoExtern, -, -, -⟩ := purge_of_isData hfit
      rw [present_purge_of_isData hfit]
      cases hbare : a.bare with
      | true =>
        simp only [Bool.not_true, Bool.false_eq_true, if_false, Bool.true_and]
        exact ⟨ih, ihextern⟩
      | false =>
        have hno : ∀ gs : List Parameter, ∀ rest, ¬ Match gs (a.purge :: rest) := by
          intro gs rest hmatch
          cases hmatch with
          | cons hfits _ =>
            unfold Fits at hfits
            rw [hvalue, hdata] at hfits
            split at hfits <;> cases hfits
        simp only [Bool.not_true, Bool.not_false, Bool.false_eq_true, if_false, if_true, Bool.false_and, hno, List.all_cons,
          hnoExtern, ihextern, Bool.and_self, and_self]
    | false =>
      rw [ht, if_neg Bool.false_ne_true] at hfit
      rw [purge_of_isValue hfit, present_of_isValue hfit, bare_of_isValue hfit, if_pos rfl, if_pos (by rfl),
        List.all_cons, noExtern_of_isValue hfit]
      refine ⟨?_, by simpa using ihextern⟩
      rw [Bool.true_and, ih]
      have hfits : Fits f.type a := by
        rw [Fits, ht, if_neg Bool.false_ne_true]
        exact hfit
      exact ⟨fun h => .cons hfits h, fun h => (List.forall₂_cons.1 h).2⟩

end Exp

/-! ## Statements -/

namespace Stm

/-- Induction over statements, with a hypothesis for every element of a compound. -/
@[induction_eliminator]
theorem induction {P : Stm → Prop} (compound : ∀ ss, (∀ s ∈ ss, P s) → P (.compound ss))
    (declarativeCompound : ∀ ss, (∀ s ∈ ss, P s) → P (.declarativeCompound ss))
    (guard : ∀ e s, P s → P (.guard e s)) (on : ∀ ts s, P s → P (.on ts s)) (blocking : ∀ s, P s → P (.blocking s))
    (invariant : ∀ e, P (.invariant e)) (illegal : P .illegal) (skip : P .skip)
    (declaration : ∀ t x e, P (.declaration t x e)) (assign : ∀ t x e, P (.assign t x e))
    (action : ∀ p ev as, P (.action p ev as)) (call : ∀ f as, P (.call f as))
    (ifThen : ∀ e s, P s → P (.ifThen e s)) (ifElse : ∀ e s t, P s → P t → P (.ifElse e s t))
    (reply : ∀ p e, P (.reply p e)) (returned : ∀ e, P (.returned e)) (defer : ∀ as s, P s → P (.defer as s))
    (expression : ∀ e, P (.expression e)) (s : Stm) : P s :=
  Stm.rec (motive_1 := P) (motive_2 := fun ss => ∀ s ∈ ss, P s)
    compound declarativeCompound guard on blocking invariant illegal skip declaration assign action call ifThen ifElse
    reply returned defer expression (by simp)
    (fun _ _ hh ht a ha => by rcases List.mem_cons.1 ha with rfl | ha; exacts [hh, ht a ha]) s

variable {b : Behavior} {s : Stm} {ss : List Stm}

theorem purge_elements (ss : List Stm) : purge.elements ss = ss.filterMap (purge false) := by
  induction ss with
  | nil => rfl
  | cons s ss ih =>
    rw [purge.elements, List.filterMap_cons, ih]
    cases s.purge false <;> rfl

theorem wellFormed_elements : WellFormed.elements b ss ↔ ∀ s ∈ ss, s.WellFormed b := by
  induction ss with
  | nil => simp [WellFormed.elements]
  | cons s ss ih => rw [WellFormed.elements, ih, List.forall_mem_cons]

theorem noExtern_elements (ss : List Stm) : noExtern.elements ss = ss.all noExtern := by
  induction ss with
  | nil => rfl
  | cons s ss ih => rw [noExtern.elements, ih, List.all_cons]

theorem bare_elements (ss : List Stm) : bare.elements ss = ss.all bare := by
  induction ss with
  | nil => rfl
  | cons s ss ih => rw [bare.elements, ih, List.all_cons]

/-- A statement that is not in a compound is always left with one. -/
theorem purge_true (s : Stm) : ∃ s', s.purge true = some s' := by
  have hassign : ∀ t a e, ∃ s', purgeAssign true t a e = some s' := by
    intro t a e
    unfold purgeAssign
    split
    · exact ⟨_, rfl⟩
    · split
      · exact ⟨_, rfl⟩
      · exact ⟨_, rfl⟩
  cases s with
  | declaration t x e => exact hassign t _ e
  | assign t x e => exact hassign t _ e
  | reply p e =>
    unfold purge
    split <;> exact ⟨_, rfl⟩
  | _ => exact ⟨_, rfl⟩

end Stm

section
variable {b : Behavior} {e : Exp} {t : DataType} {s : Stm}

theorem event_purge (b : Behavior) (port : Option String) (event : String) :
    b.purge.event port event = (b.event port event).map Signature.purge := by
  unfold Behavior.event Behavior.purge
  rw [List.find?_map, Option.map_map, Option.map_map]
  rfl

theorem func_purge (b : Behavior) (name : String) : b.purge.func name = (b.func name).map Func.purge := by
  unfold Behavior.func Behavior.purge
  rw [List.find?_map]
  rfl

theorem formals_purge (s : Signature) : s.purge.formals = s.formals.filter fun f => !f.type.isExtern := rfl

theorem action_purge {as : List Exp} {port : Option String} {event : String}
    (h : b.ActionFits port event as) :
    (as.all Exp.bare = true ↔ b.purge.ActionFits port event (purgeArguments as)) ∧
    (purgeArguments as).all Exp.noExtern = true := by
  obtain ⟨s, hs, has⟩ := h
  unfold Behavior.ActionFits
  rw [event_purge, hs]
  cases port with
  | none =>
    obtain rfl := has
    exact ⟨iff_of_true rfl ⟨_, rfl, rfl⟩, rfl⟩
  | some port =>
    obtain ⟨hbare, hfree⟩ := Exp.match_purge has
    refine ⟨?_, hfree⟩
    rw [hbare]
    simp [formals_purge]

theorem call_purge {as : List Exp} {f : String} (h : b.CallFits f as) :
    (as.all Exp.bare = true ↔ b.purge.CallFits f (purgeArguments as)) ∧
    (purgeArguments as).all Exp.noExtern = true := by
  obtain ⟨d, hd, hmatch⟩ := h
  obtain ⟨hbare, hfree⟩ := Exp.match_purge hmatch
  unfold Behavior.CallFits
  refine ⟨?_, hfree⟩
  rw [hbare, func_purge, hd]
  simp [Func.purge, formals_purge]

/-- What is assigned to a variable of another type. -/
theorem assignable_purge (ht : t.isExtern = false) (h : e.Assignable b t) :
    e.bareArguments = true ↔ e.purge.Assignable b.purge t ∧ e.purge.noExtern = true := by
  have hvalue : ∀ e : Exp, e.isValue = true → e.bareArguments = true → e.Assignable b.purge t →
      (e.bareArguments = true ↔ e.purge.Assignable b.purge t ∧ e.purge.noExtern = true) := by
    intro e he hbare hassignable
    rw [Exp.purge_of_isValue he, Exp.noExtern_of_isValue he, hbare]
    simp [hassignable]
  induction e with
  | group e ih => exact ih h
  | action p ev ty as =>
    obtain ⟨hty, h⟩ := h
    obtain ⟨hbare, hfree⟩ := action_purge h
    rw [Exp.bareArguments, hbare, Exp.purge, Exp.Assignable, Exp.noExtern, Exp.noExtern_arguments, hty, ht]
    simp only [Bool.not_false, Bool.true_and, true_and]
    exact ⟨fun h => ⟨h, hfree⟩, And.left⟩
  | call f ty as =>
    obtain ⟨hty, h⟩ := h
    obtain ⟨hbare, hfree⟩ := call_purge h
    rw [Exp.bareArguments, hbare, Exp.purge, Exp.Assignable, Exp.noExtern, Exp.noExtern_arguments, hty, ht]
    simp only [Bool.not_false, Bool.true_and, true_and]
    exact ⟨fun h => ⟨h, hfree⟩, And.left⟩
  | _ =>
    rw [Exp.Assignable, ht, if_neg Bool.false_ne_true] at h
    · refine hvalue _ h rfl ?_
      rw [Exp.Assignable, ht, if_neg Bool.false_ne_true]
      · exact h
      all_goals simp
    all_goals simp

/-- What is left of an assigned expression is well formed. -/
def Good (b : Behavior) (s : Option Stm) : Prop :=
  ∀ s', s = some s' → s'.WellFormed b ∧ s'.noExtern = true

theorem good_some : Good b (some s) ↔ s.WellFormed b ∧ s.noExtern = true := by
  unfold Good
  simp

/-- An action or call that is assigned to data is left as a statement, when it is not in a group. -/
theorem assign_data (ht : t.isExtern = true) (h : e.Assignable b t) (hacts : e.acts = true) :
    e.bareAssigned t = true ↔ Good b.purge (some e.purge.asStm) := by
  rw [good_some, Exp.bareAssigned, ht, hacts]
  cases e with
  | group e =>
    refine iff_of_false (by simp [Exp.isGroup]) fun hgood => ?_
    exact hgood.1
  | action p ev ty as =>
    obtain ⟨hbare, hfree⟩ := action_purge h.2
    have hstm : (Exp.action p ev ty as).purge.asStm = .action p ev (purgeArguments as) := rfl
    rw [hstm, Stm.WellFormed, Stm.noExtern, ← hbare, hfree]
    simp [Exp.bareArguments, Exp.isGroup]
  | call f ty as =>
    obtain ⟨hbare, hfree⟩ := call_purge h.2
    have hstm : (Exp.call f ty as).purge.asStm = .call f (purgeArguments as) := rfl
    rw [hstm, Stm.WellFormed, Stm.noExtern, ← hbare, hfree]
    simp [Exp.bareArguments, Exp.isGroup]
  | not e =>
    rw [Exp.Assignable, ht, if_pos rfl] at h
    · simp [Exp.isData, Exp.isVoid] at h
    all_goals simp
  | binary op l r =>
    rw [Exp.Assignable, ht, if_pos rfl] at h
    · simp [Exp.isData, Exp.isVoid] at h
    all_goals simp
  | _ => cases hacts

theorem bareArguments_of_acts (hacts : e.acts = false) : e.bareArguments = true := by
  induction e with
  | group e ih => exact ih hacts
  | action => cases hacts
  | call => cases hacts
  | _ => rfl

theorem assign_purge {a : Exp → Stm} {skips : Bool} (h : e.Assignable b t)
    (ha : ∀ e, (a e).WellFormed b.purge ↔ e.Assignable b.purge t)
    (hfree : ∀ e, (a e).noExtern = (!t.isExtern && e.noExtern)) :
    e.bareAssigned t = true ↔ Good b.purge (purgeAssign skips t a e) := by
  unfold purgeAssign
  cases ht : t.isExtern with
  | false =>
    have hvalue := assignable_purge ht h
    rw [Bool.not_false, if_pos rfl, good_some, ha, hfree, ht, Bool.not_false, Bool.true_and, ← hvalue,
      Exp.bareAssigned, ht]
    simp
  | true =>
    rw [Bool.not_true, if_neg Bool.false_ne_true, Exp.acts_purge]
    cases hacts : e.acts with
    | true =>
      rw [if_pos rfl]
      exact assign_data ht h hacts
    | false =>
      have hbare : e.bareAssigned t = true := by
        rw [Exp.bareAssigned, hacts, bareArguments_of_acts hacts]
        simp
      rw [if_neg Bool.false_ne_true]
      refine iff_of_true hbare ?_
      split
      · exact good_some.2 ⟨trivial, rfl⟩
      · exact fun s' hs' => by cases hs'

/-- What is left of a result is a value or void. -/
theorem result_purge (h : e.isResult = true) :
    (e.bare = true ↔ e.purge.orVoid.isResult = true) ∧ e.purge.orVoid.noExtern = true ∧
    e.purge.orVoid.removed = false := by
  have hcases : e.isValue = true ∨ e.isData = true ∨ e.isVoid = true := by
    simpa [Exp.isResult, Bool.or_eq_true, or_assoc] using h
  obtain hvalue | hdata | hvoid := hcases
  · have hpurge := Exp.purge_of_isValue hvalue
    have horVoid : e.orVoid = e := if_pos (Exp.present_of_isValue hvalue)
    rw [hpurge, horVoid, Exp.bare_of_isValue hvalue, Exp.noExtern_of_isValue hvalue]
    exact ⟨iff_of_true rfl h, rfl, Exp.removed_of_isValue hvalue⟩
  · obtain ⟨hvalue, hdata', hfree, -, habsent, hgroup⟩ := Exp.purge_of_isData hdata
    cases hbare : e.bare with
    | true =>
      rw [habsent.1 hbare]
      exact ⟨iff_of_true rfl rfl, rfl, rfl⟩
    | false =>
      have hpresent : e.purge.present = true := by rw [Exp.present_purge_of_isData hdata, hbare]; rfl
      have horVoid : e.purge.orVoid = e.purge := if_pos hpresent
      have hvoid : e.purge.isVoid = false := by
        have hisGroup := hgroup.1 hbare
        cases hpurge : e.purge with
        | group => rfl
        | _ => rw [hpurge] at hisGroup; cases hisGroup
      rw [horVoid, Exp.isResult, hvalue, hdata', hvoid, hfree, Exp.removed_purge_of_isData hdata]
      exact ⟨iff_of_false Bool.false_ne_true Bool.false_ne_true, rfl, rfl⟩
  · cases e with
    | absent => exact ⟨iff_of_true rfl rfl, rfl, rfl⟩
    | literal v =>
      cases v with
      | void => exact ⟨iff_of_true rfl rfl, rfl, rfl⟩
      | bool => cases hvoid
      | int => cases hvoid
    | _ => cases hvoid

theorem good_asSlot (s : Stm) : Good b.purge (s.purge true) ↔
    (asSlot (s.purge true)).WellFormed b.purge ∧ (asSlot (s.purge true)).noExtern = true := by
  obtain ⟨s', hs'⟩ := s.purge_true
  rw [hs', good_some]
  rfl

theorem elements_purge {ss : List Stm} (ih : ∀ s ∈ ss, s.bare = true ↔ Good b.purge (s.purge false)) :
    Stm.bare.elements ss = true ↔ Stm.WellFormed.elements b.purge (Stm.purge.elements ss) ∧
      Stm.noExtern.elements (Stm.purge.elements ss) = true := by
  rw [Stm.bare_elements, Stm.wellFormed_elements, Stm.noExtern_elements, Stm.purge_elements, List.all_eq_true,
    List.all_eq_true, forall₂_congr ih]
  constructor
  · intro h
    constructor
    · intro s' hs'
      obtain ⟨s, hs, hpurge⟩ := List.mem_filterMap.1 hs'
      exact (h s hs s' hpurge).1
    · intro s' hs'
      obtain ⟨s, hs, hpurge⟩ := List.mem_filterMap.1 hs'
      exact (h s hs s' hpurge).2
  · rintro ⟨hwf, hfree⟩ s hs s' hpurge
    have hmem := List.mem_filterMap.2 ⟨s, hs, hpurge⟩
    exact ⟨hwf s' hmem, hfree s' hmem⟩

theorem isDeclarative_purge (h : s.isDeclarative = true) :
    ∃ s', s.purge false = some s' ∧ s'.isDeclarative = true := by
  cases s with
  | guard => exact ⟨_, rfl, rfl⟩
  | on => exact ⟨_, rfl, rfl⟩
  | blocking => exact ⟨_, rfl, rfl⟩
  | invariant => exact ⟨_, rfl, rfl⟩
  | declarativeCompound => exact ⟨_, rfl, rfl⟩
  | _ => cases h

/-- A statement is well formed and without data after it is purged, just when there are no groups around data in it. -/
theorem stm_purge (skips : Bool) (h : s.WellFormed b) : s.bare = true ↔ Good b.purge (s.purge skips) := by
  induction s generalizing skips with
  | compound ss ih =>
    rw [Stm.purge, good_some]
    exact elements_purge fun s hs => ih s hs false (Stm.wellFormed_elements.1 h s hs)
  | declarativeCompound ss ih =>
    have helements : _ ↔ _ := elements_purge fun s hs => ih s hs false (Stm.wellFormed_elements.1 h.2 s hs)
    rw [Stm.purge, good_some, Stm.WellFormed, Stm.noExtern, Stm.bare, helements, and_assoc]
    refine (and_iff_right ?_).symm
    intro s' hs'
    rw [Stm.purge_elements] at hs'
    obtain ⟨s, hs, hpurge⟩ := List.mem_filterMap.1 hs'
    obtain ⟨s'', hpurge', hdeclarative⟩ := isDeclarative_purge (h.1 s hs)
    rw [hpurge] at hpurge'
    cases hpurge'
    exact hdeclarative
  | guard e s ih =>
    -- a guard is `otherwise` or a value
    have hguard : e.purge = e ∧ e.noExtern = true := by
      obtain rfl | hvalue := h.1
      · exact ⟨rfl, rfl⟩
      · exact ⟨Exp.purge_of_isValue hvalue, Exp.noExtern_of_isValue hvalue⟩
    rw [Stm.purge, good_some, Stm.WellFormed, Stm.noExtern, Stm.bare, ih true h.2, good_asSlot, hguard.1, hguard.2]
    simp [h.1]
  | on ts s ih =>
    rw [Stm.purge, good_some, Stm.WellFormed, Stm.noExtern, Stm.bare, ih true h, good_asSlot]
    simp
  | blocking s ih =>
    rw [Stm.purge, good_some, Stm.WellFormed, Stm.noExtern, Stm.bare, ih true h, good_asSlot]
  | invariant e =>
    rw [Stm.purge, good_some, Exp.purge_of_isValue h]
    exact iff_of_true rfl ⟨h, Exp.noExtern_of_isValue h⟩
  | illegal => exact iff_of_true rfl (good_some.2 ⟨trivial, rfl⟩)
  | skip => exact iff_of_true rfl (good_some.2 ⟨trivial, rfl⟩)
  | declaration t x e => exact assign_purge h (fun _ => Iff.rfl) fun _ => rfl
  | assign t x e => exact assign_purge h (fun _ => Iff.rfl) fun _ => rfl
  | action p ev as =>
    obtain ⟨hbare, hfree⟩ := action_purge h
    rw [Stm.purge, good_some, Stm.WellFormed, Stm.noExtern, Stm.bare, hbare, hfree]
    simp
  | call f as =>
    obtain ⟨hbare, hfree⟩ := call_purge h
    rw [Stm.purge, good_some, Stm.WellFormed, Stm.noExtern, Stm.bare, hbare, hfree]
    simp
  | ifThen e s ih =>
    rw [Stm.purge, good_some, Stm.WellFormed, Stm.noExtern, Stm.bare, ih true h.2, good_asSlot,
      Exp.purge_of_isValue h.1, Exp.noExtern_of_isValue h.1]
    simp [h.1]
  | ifElse e s t ihs iht =>
    rw [Stm.purge, good_some, Stm.WellFormed, Stm.noExtern, Stm.bare, Bool.and_eq_true, ihs true h.2.1, iht true h.2.2,
      good_asSlot, good_asSlot, Exp.purge_of_isValue h.1, Exp.noExtern_of_isValue h.1]
    simp only [h.1, Bool.true_and, Bool.and_eq_true, true_and]
    exact and_and_and_comm
  | reply p e =>
    obtain ⟨hbare, hfree, hremoved⟩ := result_purge h
    rw [Stm.purge, hremoved, if_neg Bool.false_ne_true, good_some, Stm.WellFormed, Stm.noExtern, Stm.bare, hbare, hfree]
    simp
  | returned e =>
    obtain ⟨hbare, hfree, -⟩ := result_purge h
    rw [Stm.purge, good_some, Stm.WellFormed, Stm.noExtern, Stm.bare, hbare, hfree]
    simp
  | defer as s ih =>
    -- the arguments of a defer are values, and all of them are kept
    have hvalues : ∀ l : List Exp, (∀ a ∈ l, a.isValue = true) → purgeArguments l = l ∧ l.all Exp.noExtern = true := by
      intro l hl
      rw [Exp.purgeArguments_eq]
      constructor
      · rw [List.map_congr_left fun a ha => Exp.purge_of_isValue (hl a ha), List.map_id', List.filter_eq_self]
        exact fun a ha => Exp.present_of_isValue (hl a ha)
      · rw [List.all_eq_true]
        exact fun a ha => Exp.noExtern_of_isValue (hl a ha)
    rw [Stm.purge, good_some, Stm.WellFormed, Stm.noExtern, Stm.bare, ih true h.2, good_asSlot]
    cases as with
    | none => simp
    | some l =>
      obtain ⟨hpurge, hfree⟩ := hvalues l (h.1 l rfl)
      have hl : ∀ a ∈ l, a.isValue = true := h.1 l rfl
      rw [Option.map_some, hpurge, Option.getD_some, hfree]
      simp only [Option.some.injEq, forall_eq', Bool.true_and]
      exact (and_iff_right_of_imp fun _ => by simpa using hl).symm.trans (by rw [and_assoc])
  | expression e => exact absurd h id

/-! ## Behaviors -/

theorem signature_purge (s : Signature) : s.purge.noExtern = true := by
  have htype : (if s.type.isExtern then DataType.void else s.type).isExtern = false := by
    cases h : s.type.isExtern with
    | true => rfl
    | false => rw [if_neg Bool.false_ne_true, h]
  unfold Signature.noExtern Signature.purge
  rw [htype]
  simp

theorem member_purge {m m' : Member} (h : if m.type.isExtern then m.expression.isResult = true else
    m.expression.isValue = true) (hm : m.purge = some m') : m' = m ∧ m.type.isExtern = false ∧
      m.expression.isValue = true := by
  unfold Member.purge at hm
  cases ht : m.type.isExtern with
  | true =>
    rw [ht, if_pos rfl] at hm
    cases hm
  | false =>
    rw [ht, if_neg Bool.false_ne_true] at hm h
    rw [Exp.purge_of_isValue h] at hm
    exact ⟨(Option.some.inj hm).symm, rfl, h⟩

/-- A behavior is well formed and without data after it is purged, just when there are no groups around data in it. -/
theorem behavior_purge (h : b.WellFormed) : b.Bare ↔ b.purge.WellFormed ∧ b.purge.NoExtern := by
  have hfunction : ∀ f ∈ b.functions, f.statement.bare = true ↔
      f.purge.statement.WellFormed b.purge ∧ f.purge.statement.noExtern = true :=
    fun f hf => (stm_purge true (h.functions f hf)).trans (good_asSlot f.statement)
  have hstatement : b.statement.bare = true ↔ b.purge.statement.WellFormed b.purge ∧ b.purge.statement.noExtern = true :=
    (stm_purge true h.statement).trans (good_asSlot b.statement)
  have hmembers : ∀ m' ∈ b.purge.members, m'.type.isExtern = false ∧ m'.expression.isValue = true := by
    intro m' hm'
    obtain ⟨m, hm, hpurge⟩ := List.mem_filterMap.1 hm'
    obtain ⟨rfl, ht, hvalue⟩ := member_purge (h.members m hm) hpurge
    exact ⟨ht, hvalue⟩
  constructor
  · intro hbare
    refine ⟨⟨?_, ?_, ?_, (hstatement.1 hbare.statement).1⟩, ⟨?_, ?_, ?_, (hstatement.1 hbare.statement).2⟩⟩
    · intro e' he' f hf
      obtain ⟨e, he, rfl⟩ := List.mem_map.1 he'
      exact h.events e he f (List.mem_of_mem_filter hf)
    · intro m hm
      obtain ⟨ht, hvalue⟩ := hmembers m hm
      rw [ht, if_neg Bool.false_ne_true]
      exact hvalue
    · intro f' hf'
      obtain ⟨f, hf, rfl⟩ := List.mem_map.1 hf'
      exact ((hfunction f hf).1 (hbare.functions f hf)).1
    · intro e he
      obtain ⟨e, -, rfl⟩ := List.mem_map.1 he
      exact signature_purge e.2
    · intro m hm
      obtain ⟨ht, hvalue⟩ := hmembers m hm
      exact ⟨ht, Exp.noExtern_of_isValue hvalue⟩
    · intro f' hf'
      obtain ⟨f, hf, rfl⟩ := List.mem_map.1 hf'
      exact ⟨signature_purge f.signature, ((hfunction f hf).1 (hbare.functions f hf)).2⟩
  · rintro ⟨hwf, hfree⟩
    refine ⟨fun f hf => (hfunction f hf).2 ?_, hstatement.2 ⟨hwf.statement, hfree.statement⟩⟩
    have hmem : f.purge ∈ b.purge.functions := List.mem_map_of_mem hf
    exact ⟨hwf.functions _ hmem, (hfree.functions _ hmem).2⟩

end

end Dezyne.Purge
