import Dezyne.Eval
import Dezyne.Purge
/-!
# Purged behaviors run the same

A statement is run from the values of the variables and the answers that the
actions get, with the data of extern variables apart. What it does are its
actions, calls and replies. Without the data these are those of the purged
statement, and so are the values that are left.
-/

namespace Dezyne.Purge

/-! ## What a statement does -/

/-- What comes back from an action: a value, or data, the data of the out arguments, and the shared variables after it. -/
structure Answer where
  value : Value
  data : String
  outs : List (Option String)
  shared : String → String → Value

/-- What is done, with the values and the data. -/
inductive Act where
  | action (port : Option String) (event : String) (values : List Value) (data : List String)
  | call (function : String) (values : List Value) (data : List String)
  | reply (port : Option String) (value : Value) (data : String)
  /-- The data of the formals of a trigger, when its statement is done. -/
  | outs (data : List String)
  | illegal

/-- A deferred statement, with the values it is deferred on, and the locals around it. -/
structure Deferred where
  arguments : Option (List Exp)
  values : List Value
  statement : Stm
  locals : List (String × Value)
  localData : List (String × String)

/-- The variables, the answers that are to come, what was done and what is deferred. -/
structure Config where
  members : List (String × Value)
  locals : List (String × Value)
  memberData : List (String × String)
  localData : List (String × String)
  shared : String → String → Value
  answers : List Answer
  acts : List Act
  deferred : List Deferred

/-- The value of an expression that has one. -/
def Config.eval (c : Config) : Exp → Option Value
  | .literal v => some v.value
  | .enumLiteral _ f => some (.enum f)
  | .var x t => if t.isExtern then none else (c.locals ++ c.members).lookup x
  | .fieldTest x f => ((c.locals ++ c.members).lookup x).map fun v => .bool (v = .enum f)
  | .sharedVar p x _ => some (c.shared p x)
  | .sharedFieldTest p x f => some (.bool (c.shared p x = .enum f))
  | .group e => c.eval e
  | .not e => (c.eval e).map fun v => .bool !v.truth
  | .binary op l r => (c.eval l).bind fun v => (c.eval r).map fun w => op.eval v w
  | _ => none

/-- The data of a variable in scope. -/
def Config.lookupData (c : Config) (x : String) : String := ((c.localData ++ c.memberData).lookup x).getD ""

/-- The data of an expression. -/
def Config.data (c : Config) : Exp → String
  | .data v => v
  | .var x _ => c.lookupData x
  | .group e => c.data e
  | _ => ""

/-- The value of a name is replaced, where it is first. -/
def replaceFirst {α : Type} (x : String) (v : α) : List (String × α) → List (String × α)
  | [] => []
  | y :: ys => if y.1 = x then (x, v) :: ys else y :: replaceFirst x v ys

def Config.setValue (x : String) (v : Value) (c : Config) : Config :=
  if x ∈ c.locals.map Prod.fst then { c with locals := replaceFirst x v c.locals }
  else { c with members := replaceFirst x v c.members }

def Config.setData (x : String) (d : String) (c : Config) : Config :=
  if x ∈ c.localData.map Prod.fst then { c with localData := replaceFirst x d c.localData }
  else { c with memberData := replaceFirst x d c.memberData }

def Config.act (a : Act) (c : Config) : Config := { c with acts := c.acts ++ [a] }

/-- The values of the arguments that have one. -/
def Config.values (c : Config) (as : List Exp) : Option (List Value) :=
  (as.filter fun a => !a.isData).mapM c.eval

/-- The data of the other arguments. -/
def Config.argumentData (c : Config) (as : List Exp) : List String := (as.filter Exp.isData).map c.data

/-- The arguments that are variables get the data that comes out. -/
def Config.setOuts (as : List Exp) (outs : List (Option String)) (c : Config) : Config :=
  ((as.filter Exp.isData).zip outs).foldl (fun c a => match a with
    | (.var x _, some d) => c.setData x d
    | _ => c) c

/-- The result of an action or call, with the configuration after it; without a result, it goes on no further. -/
abbrev Result := Option (Config × Option (Value × String))

/-- How functions are called: with the values and the data of the arguments, for the result and the data of the formals. -/
abbrev Caller := String → List Value → List String → Config → Option (Config × Option ((Value × String) × List (Option String)))

def performAction (port : Option String) (event : String) (as : List Exp) (c : Config) : Result :=
  (c.values as).map fun values =>
    let c := c.act (.action port event values (c.argumentData as))
    match c.answers with
    | [] => (c, none)
    | r :: answers => ({ c with answers := answers, shared := r.shared }.setOuts as r.outs, some (r.value, r.data))

def performCall (run : Caller) (f : String) (as : List Exp) (c : Config) : Result :=
  (c.values as).bind fun values =>
    (run f values (c.argumentData as) (c.act (.call f values (c.argumentData as)))).map fun r => match r.2 with
      | none => (r.1, none)
      | some (result, outs) => (r.1.setOuts as outs, some result)

/-- The value or the data of a result. -/
def Config.result (c : Config) (e : Exp) : Option (Value × String) :=
  if e.isData then some (.void, c.data e) else if e.isVoid then some (.void, "") else (c.eval e).map fun v => (v, "")

/-- What is assigned is evaluated. -/
def assigned (run : Caller) : Exp → Config → Result
  | .group e, c => assigned run e c
  | .action p ev _ as, c => performAction p ev as c
  | .call f _ as, c => performCall run f as c
  | e, c => (c.result e).map fun r => (c, some r)

/-- How a statement ends. -/
inductive Flow where
  | next
  | returned (value : Value) (data : String)
  | stopped

/-- The locals that were declared since are left. -/
def Config.leave (before : Config) (r : Config × Flow) : Config × Flow :=
  ({ r.1 with
      locals := r.1.locals.drop (r.1.locals.length - before.locals.length)
      localData := r.1.localData.drop (r.1.localData.length - before.localData.length) }, r.2)

/-- What is done with the result of an action or call. -/
def andThen (r : Result) (use : Value × String → Config → Config) : Option (Config × Flow) :=
  r.map fun r => match r.2 with
    | none => (r.1, .stopped)
    | some v => (use v r.1, .next)

/-- The values that a deferred statement depends on: those of the arguments, or of all members. -/
def Config.watched (c : Config) (as : Option (List Exp)) : Option (List Value) :=
  match as with
  | none => some (c.members.map Prod.snd)
  | some l => l.mapM c.eval

def Config.push (c : Config) (d : Deferred) : Config := { c with deferred := c.deferred ++ [d] }

/-- A statement is run; `none` when it has no meaning, or takes longer. -/
def exec (run : Caller) : Stm → Config → Option (Config × Flow)
  | .compound ss, c => (execs ss c).map c.leave
  | .blocking s, c => (exec run s c).map c.leave
  | .invariant _, c | .skip, c => some (c, .next)
  | .illegal, c => some (c.act .illegal, .stopped)
  | .declaration t x e, c => andThen (assigned run e c) fun v c =>
    if t.isExtern then { c with localData := (x, v.2) :: c.localData } else { c with locals := (x, v.1) :: c.locals }
  | .assign t x e, c => andThen (assigned run e c) fun v c => if t.isExtern then c.setData x v.2 else c.setValue x v.1
  | .action p ev as, c => andThen (performAction p ev as c) fun _ c => c
  | .call f as, c => andThen (performCall run f as c) fun _ c => c
  | .ifThen e s, c => match c.eval e with
    | some (.bool true) => (exec run s c).map c.leave
    | some (.bool false) => some (c, .next)
    | _ => none
  | .ifElse e s t, c => match c.eval e with
    | some (.bool true) => (exec run s c).map c.leave
    | some (.bool false) => (exec run t c).map c.leave
    | _ => none
  | .reply p e, c => (c.result e).map fun r => (c.act (.reply p r.1 r.2), .next)
  | .returned e, c => (c.result e).map fun r => (c, .returned r.1 r.2)
  | .defer as s, c => (c.watched as).map fun values => (c.push ⟨as, values, s, c.locals, c.localData⟩, .next)
  | _, _ => none
where
  execs : List Stm → Config → Option (Config × Flow)
  | [], c => some (c, .next)
  | s :: ss, c => (exec run s c).bind fun r => match r.2 with
    | .next => execs ss r.1
    | flow => some (r.1, flow)

/-- The names of the formals that have values. -/
def Signature.valueNames (s : Signature) : List String :=
  (s.formals.filter fun f => !f.type.isExtern).map Parameter.name

/-- The formals that have data. -/
def Signature.dataFormals (s : Signature) : List Parameter := s.formals.filter fun f => f.type.isExtern

/-- What comes out of a formal. -/
def Config.comesOut (c : Config) (f : Parameter) : Option String :=
  if f.direction = .in then none else some (c.lookupData f.name)

/-- A function is called; the calls in it are `fuel` deep at most. -/
def Behavior.call (b : Behavior) : Nat → Caller
  | 0, _, _, _, _ => none
  | fuel + 1, f, values, data, c => (b.func f).bind fun d =>
    let callee := { c with
      locals := d.signature.valueNames.zip values
      localData := (d.signature.dataFormals.map Parameter.name).zip data }
    (exec (b.call fuel) d.statement callee).map fun r =>
      let caller := { r.1 with locals := c.locals, localData := c.localData }
      let outs := d.signature.dataFormals.map r.1.comesOut
      match r.2 with
      | .next => (caller, some ((.void, ""), outs))
      | .returned v w => (caller, some ((v, w), outs))
      | .stopped => (caller, none)

/-! ## Runs of a behavior -/

/-- The guard is true. -/
def Config.holds (c : Config) (e : Exp) : Bool := c.eval e = some (.bool true)

/-- A guard of the compound is true, and it is no otherwise. -/
def Config.anyGuard (c : Config) (ss : List Stm) : Bool :=
  ss.any fun s => match s with
    | .guard .otherwise _ => false
    | .guard e _ => c.holds e
    | _ => false

/-- The statements that an event enables, each with the formals of its trigger; `otherwise` is the value of an otherwise,
and `formals` are those of the trigger that the statement is in. -/
def enabled (c : Config) (port : Option String) (event : String) :
    Option (List Formal) → Bool → Stm → List (List Formal × Stm)
  | formals, _, .declarativeCompound ss => elements formals (!c.anyGuard ss) ss
  | formals, otherwise, .guard .otherwise s => if otherwise then enabled c port event formals otherwise s else []
  | formals, otherwise, .guard e s => if c.holds e then enabled c port event formals otherwise s else []
  | formals, otherwise, .blocking s => enabled c port event formals otherwise s
  | none, otherwise, .on ts s => (ts.filter fun t => t.port = port && t.event = event).flatMap fun t =>
    enabled c port event (some t.formals) otherwise s
  | some _, _, .on _ _ => []
  | _, _, .invariant _ => []
  | none, _, _ => []
  | some formals, _, s => [(formals, s)]
where
  elements (formals : Option (List Formal)) (otherwise : Bool) : List Stm → List (List Formal × Stm)
  | [] => []
  | s :: ss => enabled c port event formals otherwise s ++ elements formals otherwise ss

/-- The data of a formal of a trigger: that of the member that it is bound to, or its own. -/
def Config.formalData (c : Config) : Formal → String
  | .formal x => c.lookupData x
  | .binding _ member => c.lookupData member

/-- There are no locals. -/
def Config.idle (c : Config) : Config := { c with locals := [], localData := [] }

/-- What comes to a behavior: an event with data, and which of the enabled statements is run, or a deferred statement. -/
inductive Input where
  | event (port : Option String) (event : String) (data : List String) (choice : Nat)
  | deferred

def Behavior.step (b : Behavior) (fuel : Nat) : Input → Config → Option (Config × Flow)
  | .event port event data choice, c => (enabled c port event none false b.statement)[choice]?.bind fun x =>
    (exec (b.call fuel) x.2 { c with locals := [], localData := (x.1.map Formal.name).zip data }).map fun r =>
      ((r.1.act (.outs (x.1.map r.1.formalData))).idle, r.2)
  | .deferred, c => match c.deferred with
    | [] => none
    | d :: deferred =>
      let c := { c with deferred := deferred }
      -- it is run only when the values are still the same
      if c.idle.watched d.arguments = some d.values then
        (exec (b.call fuel) d.statement { c with locals := d.locals, localData := d.localData }).map fun r =>
          (r.1.idle, r.2)
      else some (c, .next)

/-- A run, until it stops. -/
def Behavior.run (b : Behavior) (fuel : Nat) : List Input → Config → Option (Config × Flow)
  | [], c => some (c, .next)
  | i :: inputs, c => (b.step fuel i c).bind fun r => match r.2 with
    | .stopped => some r
    | _ => b.run fuel inputs r.1

/-! ## Without the data -/

def Act.erase : Act → Act
  | .action p ev values _ => .action p ev values []
  | .call f values _ => .call f values []
  | .reply p v _ => .reply p v ""
  | .outs _ => .outs []
  | .illegal => .illegal

def Deferred.erase (d : Deferred) : Deferred where
  arguments := d.arguments.map purgeArguments
  values := d.values
  statement := asSlot (d.statement.purge true)
  locals := d.locals
  localData := []

def Answer.erase (r : Answer) : Answer := { r with data := "", outs := [] }

/-- The data is left out, and what is deferred is purged. -/
def Config.erase (c : Config) : Config where
  members := c.members
  locals := c.locals
  memberData := []
  localData := []
  shared := c.shared
  answers := c.answers.map Answer.erase
  acts := c.acts.map Act.erase
  deferred := c.deferred.map Deferred.erase

def Flow.erase : Flow → Flow
  | .returned v _ => .returned v ""
  | flow => flow

def eraseResult (r : Config × Option (Value × String)) : Config × Option (Value × String) :=
  (r.1.erase, r.2.map fun v => (v.1, ""))

def eraseFlow (r : Config × Flow) : Config × Flow := (r.1.erase, r.2.erase)

/-- The behaviors run the same: from every state, whatever the answers of the actions are, and for any events. -/
def SameRuns (b b' : Behavior) : Prop :=
  ∀ fuel inputs c, c.deferred = [] → b'.run fuel inputs c.erase = (b.run fuel inputs c).map eraseFlow

/-! ## Expressions without the data -/

section
variable {b : Behavior} {c : Config} {e : Exp} {t : DataType} {as : List Exp}

@[simp] theorem erase_act (a : Act) (c : Config) : (c.act a).erase = c.erase.act a.erase := by
  simp [Config.erase, Config.act]

@[simp] theorem erase_setData (x d : String) (c : Config) : (c.setData x d).erase = c.erase := by
  unfold Config.setData
  split <;> rfl

@[simp] theorem erase_setValue (x : String) (v : Value) (c : Config) :
    (c.setValue x v).erase = c.erase.setValue x v := by
  have hlocals : c.erase.locals = c.locals := rfl
  unfold Config.setValue
  rw [hlocals]
  split <;> rfl

/-- What no data variable changes is not changed by the data that come back. -/
theorem setOuts_same {γ : Type} (g : Config → γ) (hg : ∀ x d (c : Config), g (c.setData x d) = g c) (as : List Exp)
    (outs : List (Option String)) (c : Config) : g (c.setOuts as outs) = g c := by
  unfold Config.setOuts
  generalize (as.filter Exp.isData).zip outs = l
  induction l generalizing c with
  | nil => rfl
  | cons a l ih =>
    rw [List.foldl_cons, ih]
    split
    · exact hg _ _ _
    · rfl

@[simp] theorem erase_setOuts (as : List Exp) (outs : List (Option String)) (c : Config) :
    (c.setOuts as outs).erase = c.erase := setOuts_same Config.erase erase_setData as outs c

/-- A value does not depend on the data. -/
@[simp] theorem erase_eval (c : Config) (e : Exp) : c.erase.eval e = c.eval e := by
  induction e with
  | group e ih => exact ih
  | not e ih => simp only [Config.eval, ih]
  | binary op l r ihl ihr => simp only [Config.eval, ihl, ihr]
  | _ => rfl

/-- The arguments have data or a value. -/
def Plain (as : List Exp) : Prop := ∀ a ∈ as, a.isData = true ∨ a.isValue = true

theorem plain_of_match {fs : List Parameter} (h : Match fs as) : Plain as := by
  induction h with
  | nil => exact fun a ha => by cases ha
  | cons hfit _ ih =>
    refine List.forall_mem_cons.2 ⟨?_, ih⟩
    unfold Exp.Fits at hfit
    split at hfit
    · exact .inl hfit
    · exact .inr hfit

theorem plain_of_actionFits {port : Option String} {event : String} (h : b.ActionFits port event as) :
    Plain as := by
  obtain ⟨s, -, h⟩ := h
  cases port with
  | none =>
    obtain rfl := h
    exact fun a ha => by cases ha
  | some port => exact plain_of_match h

theorem plain_of_callFits {f : String} (h : b.CallFits f as) : Plain as := by
  obtain ⟨d, -, h⟩ := h
  exact plain_of_match h

/-- The arguments that are left are those that have a value. -/
theorem purgeArguments_of_plain (h : Plain as) (hbare : as.all Exp.bare = true) :
    purgeArguments as = as.filter fun a => !a.isData := by
  rw [Exp.purgeArguments_eq]
  induction as with
  | nil => rfl
  | cons a as ih =>
    obtain ⟨ha, h⟩ := List.forall_mem_cons.1 h
    rw [List.all_cons, Bool.and_eq_true] at hbare
    have hrest := ih h hbare.2
    rw [List.map_cons, List.filter_cons, List.filter_cons, hrest]
    obtain hdata | hvalue := ha
    · rw [Exp.present_purge_of_isData hdata, hbare.1, hdata]
      rfl
    · rw [Exp.purge_of_isValue hvalue, Exp.present_of_isValue hvalue, Exp.isData_of_isValue hvalue]
      rfl

theorem erase_arguments (h : Plain as) (hbare : as.all Exp.bare = true) :
    c.erase.values (purgeArguments as) = c.values as ∧ c.erase.argumentData (purgeArguments as) = [] ∧
    ∀ outs c', Config.setOuts (purgeArguments as) outs c' = c' := by
  have hnone : (purgeArguments as).filter Exp.isData = [] := by
    rw [purgeArguments_of_plain h hbare, List.filter_filter, List.filter_eq_nil_iff]
    simp
  refine ⟨?_, ?_, fun outs c' => ?_⟩
  · have heval : c.erase.eval = c.eval := funext (erase_eval c)
    unfold Config.values
    rw [purgeArguments_of_plain h hbare, List.filter_filter, heval]
    simp
  · rw [Config.argumentData, hnone]
    rfl
  · rw [Config.setOuts, hnone]
    rfl

theorem erase_result (h : e.isResult = true) (hbare : e.bare = true) :
    c.erase.result e.purge.orVoid = (c.result e).map fun r => (r.1, "") := by
  have hcases : e.isValue = true ∨ e.isData = true ∨ e.isVoid = true := by
    simpa [Exp.isResult, Bool.or_eq_true, or_assoc] using h
  obtain hvalue | hdata | hvoid := hcases
  · have horVoid : e.orVoid = e := if_pos (Exp.present_of_isValue hvalue)
    rw [Exp.purge_of_isValue hvalue, horVoid, Config.result, Config.result, Exp.isData_of_isValue hvalue, erase_eval]
    cases hvoid : e.isVoid with
    | true => rfl
    | false =>
      simp only [Bool.false_eq_true, if_false, Option.map_map]
      rfl
  · obtain ⟨-, -, -, -, habsent, -⟩ := Exp.purge_of_isData hdata
    rw [habsent.1 hbare, Config.result, Config.result, hdata]
    rfl
  · cases e with
    | absent => rfl
    | literal v =>
      cases v with
      | void => rfl
      | bool => cases hvoid
      | int => cases hvoid
    | _ => cases hvoid

end

/-! ## Statements without the data -/

/-- The data of a call is left out. -/
def eraseCall (r : Config × Option ((Value × String) × List (Option String))) :
    Config × Option ((Value × String) × List (Option String)) :=
  (r.1.erase, r.2.map fun x => ((x.1.1, ""), []))

/-- The functions are called the same without the data. -/
def SameCalls (run run' : Caller) : Prop :=
  ∀ f values data c, run' f values [] c.erase = (run f values data c).map eraseCall

section
variable {b : Behavior} {c : Config} {e : Exp} {t : DataType} {as : List Exp} {run run' : Caller} {s : Stm}
  {port : Option String} {event f : String}

theorem erase_performAction (h : b.ActionFits port event as)
    (hbare : as.all Exp.bare = true) :
    performAction port event (purgeArguments as) c.erase = (performAction port event as c).map eraseResult := by
  obtain ⟨hvalues, hdata, houts⟩ := erase_arguments (c := c) (plain_of_actionFits h) hbare
  have hanswers : c.erase.answers = c.answers.map Answer.erase := rfl
  unfold performAction
  rw [hvalues, hdata, Option.map_map]
  congr 1
  funext values
  simp only [Config.act, hanswers, Function.comp_apply]
  cases c.answers with
  | nil => simp [eraseResult, Config.erase, Act.erase]
  | cons r answers =>
    simp only [List.map_cons, houts, eraseResult, erase_setOuts]
    simp [Config.erase, Act.erase, Answer.erase]

theorem erase_performCall (hrun : SameCalls run run') (h : b.CallFits f as)
    (hbare : as.all Exp.bare = true) :
    performCall run' f (purgeArguments as) c.erase = (performCall run f as c).map eraseResult := by
  obtain ⟨hvalues, hdata, houts⟩ := erase_arguments (c := c) (plain_of_callFits h) hbare
  unfold performCall
  rw [hvalues, hdata, Option.map_bind]
  congr 1
  funext values
  have hact : c.erase.act (.call f values []) = (c.act (.call f values (c.argumentData as))).erase :=
    (erase_act (.call f values (c.argumentData as)) c).symm
  rw [hact, hrun f values (c.argumentData as), Option.map_map, Function.comp_apply, Option.map_map]
  congr 1
  funext r
  obtain ⟨c', r⟩ := r
  cases r with
  | none => rfl
  | some r => simp [eraseCall, eraseResult, houts]

/-- What is assigned to a variable with a value. -/
theorem erase_assigned (hrun : SameCalls run run') (ht : t.isExtern = false) (h : e.Assignable b t)
    (hbare : e.bareArguments = true) : assigned run' e.purge c.erase = (assigned run e c).map eraseResult := by
  have hresult : ∀ e : Exp, e.isValue = true → c.erase.result e.purge = (c.result e).map fun r => (r.1, "") := by
    intro e he
    have hisResult : e.isResult = true := by simp [Exp.isResult, he]
    have hr := erase_result (c := c) hisResult (Exp.bare_of_isValue he)
    have horVoid : e.purge.orVoid = e.purge := by
      rw [Exp.purge_of_isValue he]
      exact if_pos (Exp.present_of_isValue he)
    rwa [horVoid] at hr
  induction e with
  | group e ih => exact ih h hbare
  | action p ev ty as => exact erase_performAction h.2 hbare
  | call f ty as => exact erase_performCall hrun h.2 hbare
  | _ =>
    rw [Exp.Assignable, ht, if_neg Bool.false_ne_true] at h
    · have hr := hresult _ h
      rw [Exp.purge_of_isValue h] at hr ⊢
      rw [assigned, assigned, hr, Option.map_map, Option.map_map]
      · rfl
      all_goals simp
    all_goals simp

/-- Data that is assigned without an action or call does nothing. -/
theorem assigned_data (ht : t.isExtern = true) (h : e.Assignable b t) (hacts : e.acts = false) :
    ∃ v, assigned run e c = some (c, some v) := by
  induction e with
  | group e ih => exact ih h hacts
  | action => cases hacts
  | call => cases hacts
  | _ =>
    rw [Exp.Assignable, ht, if_pos rfl] at h
    · rw [assigned]
      · unfold Config.result
        obtain hdata | hvoid := h
        · rw [if_pos hdata]
          exact ⟨_, rfl⟩
        · simp only [hvoid, if_true]
          split <;> exact ⟨_, rfl⟩
      all_goals simp
    all_goals simp

/-- An action or call whose data is assigned does the same as a statement. -/
theorem erase_assigned_data (hrun : SameCalls run run') (h : e.Assignable b t) (hacts : e.acts = true)
    (hbare : e.bareAssigned t = true) (ht : t.isExtern = true) {use : Value × String → Config → Config}
    (huse : ∀ v c, (use v c).erase = c.erase) :
    exec run' e.purge.asStm c.erase = (andThen (assigned run e c) use).map eraseFlow := by
  have hthen : ∀ r : Result, andThen (r.map eraseResult) (fun _ c => c) = (andThen r use).map eraseFlow := by
    intro r
    cases r with
    | none => rfl
    | some r =>
      obtain ⟨c', v⟩ := r
      cases v with
      | none => rfl
      | some v => simp [andThen, eraseResult, eraseFlow, huse, Flow.erase]
  rw [Exp.bareAssigned, ht, hacts, Bool.and_eq_true] at hbare
  cases e with
  | action p ev ty as =>
    have hact := erase_performAction (c := c) h.2 hbare.1
    have hstm : exec run' (Exp.action p ev ty as).purge.asStm c.erase =
      andThen (performAction p ev (purgeArguments as) c.erase) fun _ c => c := rfl
    rw [hstm, hact, hthen]
    rfl
  | call f ty as =>
    have hcall := erase_performCall (c := c) hrun h.2 hbare.1
    have hstm : exec run' (Exp.call f ty as).purge.asStm c.erase =
      andThen (performCall run' f (purgeArguments as) c.erase) fun _ c => c := rfl
    rw [hstm, hcall, hthen]
    rfl
  | group e => simp [Exp.isGroup] at hbare
  | not e =>
    rw [Exp.Assignable, ht, if_pos rfl] at h
    · simp [Exp.isData, Exp.isVoid] at h
    all_goals simp
  | binary op l r =>
    rw [Exp.Assignable, ht, if_pos rfl] at h
    · simp [Exp.isData, Exp.isVoid] at h
    all_goals simp
  | _ => cases hacts

/-- A statement that may be none. -/
def execOption (run : Caller) : Option Stm → Config → Option (Config × Flow)
  | none, c => some (c, .next)
  | some s, c => exec run s c

@[simp] theorem erase_leave (c : Config) (r : Config × Flow) :
    c.erase.leave (eraseFlow r) = eraseFlow (c.leave r) := by
  simp [Config.leave, eraseFlow, Config.erase]

theorem map_leave {x : Option (Config × Flow)} {y : Option (Config × Flow)} (h : x = y.map eraseFlow)
    (c : Config) : x.map c.erase.leave = (y.map c.leave).map eraseFlow := by
  have hleave : c.erase.leave ∘ eraseFlow = eraseFlow ∘ c.leave := funext (erase_leave c)
  rw [h, Option.map_map, Option.map_map, hleave]

theorem andThen_erase {r : Result} {use use' : Value × String → Config → Config}
    (huse : ∀ v c, use' (v.1, "") c.erase = (use v c).erase) :
    andThen (r.map eraseResult) use' = (andThen r use).map eraseFlow := by
  cases r with
  | none => rfl
  | some r =>
    obtain ⟨c', v⟩ := r
    cases v with
    | none => rfl
    | some v => simp [andThen, eraseResult, eraseFlow, huse, Flow.erase]

/-- An assignment does the same when it is purged. -/
theorem erase_assign {skips : Bool} {a : Exp → Stm} {use : Value × String → Config → Config}
    (hrun : SameCalls run run') (h : e.Assignable b t) (hbare : e.bareAssigned t = true)
    (ha : ∀ run e c, exec run (a e) c = andThen (assigned run e c) use)
    (hdata : t.isExtern = true → ∀ v c, (use v c).erase = c.erase)
    (hvalue : t.isExtern = false → ∀ v c, use (v.1, "") c.erase = (use v c).erase) :
    execOption run' (purgeAssign skips t a e) c.erase = (exec run (a e) c).map eraseFlow := by
  rw [ha]
  unfold purgeAssign
  cases ht : t.isExtern with
  | false =>
    rw [Exp.bareAssigned, Bool.and_eq_true] at hbare
    rw [Bool.not_false, if_pos rfl, execOption, ha, erase_assigned hrun ht h hbare.1]
    exact andThen_erase (hvalue ht)
  | true =>
    rw [Bool.not_true, if_neg Bool.false_ne_true, Exp.acts_purge]
    cases hacts : e.acts with
    | true =>
      rw [if_pos rfl]
      exact erase_assigned_data hrun h hacts hbare ht (hdata ht)
    | false =>
      obtain ⟨v, hv⟩ : ∃ v, assigned run e c = some (c, some v) := assigned_data ht h hacts
      have hnext : (andThen (assigned run e c) use).map eraseFlow = some (c.erase, .next) := by
        rw [hv]
        simp [andThen, eraseFlow, Flow.erase, hdata ht]
      rw [if_neg Bool.false_ne_true, hnext]
      split <;> rfl

theorem exec_asSlot (h : execOption run' (s.purge true) c.erase = (exec run s c).map eraseFlow) :
    exec run' (asSlot (s.purge true)) c.erase = (exec run s c).map eraseFlow := by
  obtain ⟨s', hs'⟩ := s.purge_true
  rw [hs'] at h ⊢
  exact h

theorem erase_execs {ss : List Stm}
    (ih : ∀ s ∈ ss, ∀ c, execOption run' (s.purge false) c.erase = (exec run s c).map eraseFlow) (c : Config) :
    exec.execs run' (Stm.purge.elements ss) c.erase = (exec.execs run ss c).map eraseFlow := by
  induction ss generalizing c with
  | nil => rfl
  | cons s ss ihss =>
    obtain ⟨ihs, ih⟩ := List.forall_mem_cons.1 ih
    have hs := ihs c
    have hrest := ihss ih
    rw [Stm.purge.elements, exec.execs]
    cases hpurge : s.purge false with
    | none =>
      rw [hpurge, execOption] at hs
      obtain ⟨⟨c', flow⟩, hexec, herase⟩ := Option.map_eq_some_iff.1 hs.symm
      rw [hexec, Option.bind_some]
      simp only [eraseFlow, Prod.mk.injEq] at herase
      obtain ⟨hc, hflow⟩ := herase
      cases flow with
      | next => rw [← hc, hrest c']
      | returned => cases hflow
      | stopped => cases hflow
    | some s' =>
      rw [hpurge, execOption] at hs
      simp only [exec.execs, hs]
      cases exec run s c with
      | none => rfl
      | some r =>
        obtain ⟨c', flow⟩ := r
        cases flow with
        | next => exact hrest c'
        | returned => rfl
        | stopped => rfl

theorem erase_watched {as : Option (List Exp)} (h : ∀ l, as = some l → ∀ a ∈ l, a.isValue = true) :
    c.erase.watched (as.map purgeArguments) = c.watched as := by
  cases as with
  | none => rfl
  | some l =>
    have hl := h l rfl
    have hpurge : purgeArguments l = l := by
      rw [Exp.purgeArguments_eq, List.map_congr_left fun a ha => Exp.purge_of_isValue (hl a ha), List.map_id',
        List.filter_eq_self]
      exact fun a ha => Exp.present_of_isValue (hl a ha)
    have heval : c.erase.eval = c.eval := funext (erase_eval c)
    simp only [Option.map_some, Config.watched, hpurge, heval]

/-- What a statement does without the data is what the purged statement does. -/
theorem erase_exec (hrun : SameCalls run run') (h : s.WellFormed b) (hbare : s.bare = true) (skips : Bool)
    (c : Config) : execOption run' (s.purge skips) c.erase = (exec run s c).map eraseFlow := by
  induction s generalizing skips c with
  | compound ss ih =>
    have hwf := Stm.wellFormed_elements.1 h
    rw [Stm.bare, Stm.bare_elements, List.all_eq_true] at hbare
    exact map_leave (erase_execs (fun s hs => ih s hs (hwf s hs) (hbare s hs) false) c) c
  | declarativeCompound => rfl
  | guard => rfl
  | on => rfl
  | blocking s ih => exact map_leave (exec_asSlot (ih h hbare true c)) c
  | invariant => rfl
  | illegal => simp [Stm.purge, execOption, exec, eraseFlow, Flow.erase, Act.erase]
  | skip => rfl
  | declaration t x e =>
    refine erase_assign hrun h hbare (fun _ _ _ => rfl) (fun ht v c => ?_) fun ht v c => ?_
    · simp [ht, Config.erase]
    · simp [ht, Config.erase]
  | assign t x e =>
    refine erase_assign hrun h hbare (fun _ _ _ => rfl) (fun ht v c => ?_) fun ht v c => ?_
    · simp [ht]
    · simp [ht]
  | action p ev as =>
    have hact := erase_performAction (c := c) h hbare
    rw [Stm.purge, execOption, exec, exec, hact]
    exact andThen_erase fun _ _ => rfl
  | call f as =>
    have hcall := erase_performCall (c := c) hrun h hbare
    rw [Stm.purge, execOption, exec, exec, hcall]
    exact andThen_erase fun _ _ => rfl
  | ifThen e s ih =>
    have hs := exec_asSlot (ih h.2 hbare true c)
    rw [Stm.purge, execOption, exec, exec, Exp.purge_of_isValue h.1, erase_eval]
    split
    · exact map_leave hs c
    · rfl
    · rfl
  | ifElse e s t ihs iht =>
    rw [Stm.bare, Bool.and_eq_true] at hbare
    have hs := exec_asSlot (ihs h.2.1 hbare.1 true c)
    have ht := exec_asSlot (iht h.2.2 hbare.2 true c)
    rw [Stm.purge, execOption, exec, exec, Exp.purge_of_isValue h.1, erase_eval]
    split
    · exact map_leave hs c
    · exact map_leave ht c
    · rfl
  | reply p e =>
    obtain ⟨-, -, hremoved⟩ := result_purge h
    rw [Stm.purge, hremoved, if_neg Bool.false_ne_true, execOption, exec, exec, erase_result h hbare, Option.map_map,
      Option.map_map]
    congr 1
    funext r
    simp [eraseFlow, Flow.erase, Act.erase]
  | returned e =>
    rw [Stm.purge, execOption, exec, exec, erase_result h hbare, Option.map_map, Option.map_map]
    rfl
  | defer as s =>
    -- a deferred statement watches only values, and keeps the variables without the data
    have hwatched := erase_watched (c := c) h.1
    rw [Stm.purge, execOption, exec, exec, hwatched, Option.map_map]
    congr 1
    funext values
    simp [eraseFlow, Flow.erase, Config.push, Config.erase, Deferred.erase]
  | expression => exact absurd h id

/-! ## Calls without the data -/

theorem mem_func {d : Func} (h : b.func f = some d) : d ∈ b.functions := List.mem_of_find?_eq_some h

theorem valueNames_purge (s : Signature) : s.purge.valueNames = s.valueNames := by
  unfold Signature.valueNames Signature.purge
  rw [List.filter_filter]
  simp

theorem dataFormals_purge (s : Signature) : s.purge.dataFormals = [] := by
  unfold Signature.dataFormals Signature.purge
  rw [List.filter_filter, List.filter_eq_nil_iff]
  simp

/-- The functions of a purged behavior do the same. -/
theorem sameCalls (h : b.WellFormed) (hbare : b.Bare) (fuel : Nat) :
    SameCalls (b.call fuel) (b.purge.call fuel) := by
  induction fuel with
  | zero => exact fun _ _ _ _ => rfl
  | succ fuel ih =>
    intro f values data c
    rw [Behavior.call, Behavior.call, func_purge]
    cases hf : b.func f with
    | none => rfl
    | some d =>
      have hmem := mem_func hf
      have hexec := exec_asSlot (erase_exec ih (h.functions d hmem) (hbare.functions d hmem) true
        { c with
          locals := d.signature.valueNames.zip values
          localData := (d.signature.dataFormals.map Parameter.name).zip data })
      have hcallee : { c.erase with
            locals := d.purge.signature.valueNames.zip values
            localData := (d.purge.signature.dataFormals.map Parameter.name).zip [] } =
          { c with
            locals := d.signature.valueNames.zip values
            localData := (d.signature.dataFormals.map Parameter.name).zip data : Config }.erase := by
        have hvalues : d.purge.signature.valueNames = d.signature.valueNames := valueNames_purge _
        rw [hvalues, List.zip_nil_right]
        rfl
      have hformals : d.purge.signature.dataFormals = [] := dataFormals_purge _
      simp only [Option.map_some, Option.bind_some]
      rw [hcallee]
      have hexec' : exec (b.purge.call fuel) d.purge.statement _ = _ := hexec
      rw [hexec', Option.map_map, Option.map_map]
      congr 1
      funext r
      obtain ⟨c', flow⟩ := r
      cases flow with
      | next => simp [eraseFlow, Flow.erase, eraseCall, hformals, Config.erase]
      | returned => simp [eraseFlow, Flow.erase, eraseCall, hformals, Config.erase]
      | stopped => simp [eraseFlow, Flow.erase, eraseCall, Config.erase]

/-! ## Events without the data -/

/-- An enabled statement without the formals, purged. -/
def eraseEnabled (x : List Formal × Stm) : List Formal × Stm := ([], asSlot (x.2.purge true))

theorem enabled_elements (c : Config) (formals : Option (List Formal)) (otherwise : Bool) (ss : List Stm) :
    enabled.elements c port event formals otherwise ss = ss.flatMap (enabled c port event formals otherwise) := by
  induction ss with
  | nil => rfl
  | cons s ss ih => rw [enabled.elements, ih, List.flatMap_cons]

/-- A statement that is not declarative is enabled in an on. -/
theorem enabled_imperative (hs : s.isDeclarative = false) (formals : Option (List Formal))
    (otherwise : Bool) :
    enabled c port event formals otherwise s = (formals.map fun fs => (fs, s)).toList := by
  cases s with
  | declarativeCompound => cases hs
  | guard => cases hs
  | on => cases hs
  | blocking => cases hs
  | invariant => cases hs
  | _ => cases formals <;> simp [enabled]

theorem isDeclarative_asSlot (s : Stm) : (asSlot (s.purge true)).isDeclarative = s.isDeclarative := by
  have hstm : ∀ e : Exp, e.asStm.isDeclarative = false := by
    intro e
    cases e <;> rfl
  have hassign : ∀ t a e, (∀ e, (a e).isDeclarative = false) → (asSlot (purgeAssign true t a e)).isDeclarative = false := by
    intro t a e ha
    unfold purgeAssign
    split
    · exact ha _
    · split
      · exact hstm _
      · rfl
  cases s with
  | declaration t x e => exact hassign t _ e fun _ => rfl
  | assign t x e => exact hassign t _ e fun _ => rfl
  | reply p e =>
    unfold Stm.purge
    split
    · exact hstm _
    · rfl
  | _ => rfl

theorem erase_holds (c : Config) (e : Exp) : c.erase.holds e = c.holds e := by
  unfold Config.holds
  rw [erase_eval]

/-- The guards of a compound are kept. -/
theorem erase_anyGuard {ss : List Stm} (h : ∀ s ∈ ss, s.isDeclarative = true ∧ s.WellFormed b) :
    c.erase.anyGuard (Stm.purge.elements ss) = c.anyGuard ss := by
  unfold Config.anyGuard
  induction ss with
  | nil => rfl
  | cons s ss ih =>
    obtain ⟨⟨hs, hwf⟩, h⟩ := List.forall_mem_cons.1 h
    have hrest := ih h
    cases s with
    | guard e s =>
      have hpurge : e.purge = e := by
        obtain rfl | hvalue := hwf.1
        · rfl
        · exact Exp.purge_of_isValue hvalue
      simp only [Stm.purge.elements, Stm.purge, List.any_cons, hrest, hpurge]
      cases e <;> simp only [erase_holds]
    | declarativeCompound => simp only [Stm.purge.elements, Stm.purge, List.any_cons, hrest]
    | on => simp only [Stm.purge.elements, Stm.purge, List.any_cons, hrest]
    | blocking => simp only [Stm.purge.elements, Stm.purge, List.any_cons, hrest]
    | invariant => simp only [Stm.purge.elements, Stm.purge, List.any_cons, hrest]
    | _ => cases hs

/-- A declarative statement is purged the same in a compound. -/
theorem purge_declarative (h : s.isDeclarative = true) : s.purge false = s.purge true := by
  cases s with
  | declarativeCompound => rfl
  | guard => rfl
  | on => rfl
  | blocking => rfl
  | invariant => rfl
  | _ => cases h

/-- The purged statements are enabled. -/
theorem erase_enabled (h : s.WellFormed b) (formals : Option (List Formal)) (otherwise : Bool) :
    enabled c.erase port event (formals.map fun _ => []) otherwise (asSlot (s.purge true)) =
      (enabled c port event formals otherwise s).map eraseEnabled := by
  induction s generalizing formals otherwise with
  | declarativeCompound ss ih =>
    have hwf := Stm.wellFormed_elements.1 h.2
    have hguard := erase_anyGuard (c := c) fun s hs => ⟨h.1 s hs, hwf s hs⟩
    have hss : Stm.purge.elements ss = ss.map fun s => asSlot (s.purge true) := by
      rw [Stm.purge_elements, ← List.filterMap_eq_map]
      refine List.filterMap_congr fun s hs => ?_
      obtain ⟨s', hs'⟩ := s.purge_true
      rw [purge_declarative (h.1 s hs), Function.comp_apply, hs']
      rfl
    have hpurge : asSlot ((Stm.declarativeCompound ss).purge true) = .declarativeCompound (Stm.purge.elements ss) := rfl
    rw [hpurge, enabled, enabled, enabled_elements, enabled_elements, hguard, hss, List.flatMap_map, List.map_flatMap]
    exact List.flatMap_congr fun s hs => ih s hs (hwf s hs) formals _
  | guard e s ih =>
    have hpurge : asSlot ((Stm.guard e s).purge true) = .guard e.purge (asSlot (s.purge true)) := rfl
    have hs := ih h.2 formals otherwise
    obtain rfl | hvalue := h.1
    · have hother : Exp.otherwise.purge = .otherwise := rfl
      rw [hpurge, hother, enabled, enabled, hs]
      split <;> rfl
    · have hne : e ≠ .otherwise := fun heq => by rw [heq] at hvalue; cases hvalue
      rw [hpurge, Exp.purge_of_isValue hvalue, enabled, enabled, hs, erase_holds]
      · split <;> rfl
      · exact hne
      · exact hne
  | on ts s ih =>
    have hpurge : asSlot ((Stm.on ts s).purge true) =
      .on (ts.map fun t => { t with formals := [] }) (asSlot (s.purge true)) := rfl
    cases formals with
    | some fs =>
      rw [hpurge, Option.map_some, enabled, enabled]
      rfl
    | none =>
      rw [hpurge, Option.map_none, enabled, enabled, List.filter_map, List.flatMap_map, List.map_flatMap]
      exact List.flatMap_congr fun t _ => ih h (some t.formals) otherwise
  | blocking s ih =>
    have hpurge : asSlot ((Stm.blocking s).purge true) = .blocking (asSlot (s.purge true)) := rfl
    rw [hpurge, enabled, enabled]
    exact ih h formals otherwise
  | invariant e =>
    have hpurge : asSlot ((Stm.invariant e).purge true) = .invariant e.purge := rfl
    rw [hpurge]
    cases formals <;> simp [enabled]
  | _ =>
    rw [enabled_imperative (by rw [isDeclarative_asSlot]; rfl), enabled_imperative rfl]
    cases formals <;> rfl

/-! ## What is deferred -/

/-- A deferred statement of the behavior. -/
structure Deferred.Fits (b : Behavior) (d : Deferred) : Prop where
  arguments : ∀ l, d.arguments = some l → ∀ a ∈ l, a.isValue = true
  statement : d.statement.WellFormed b
  bare : d.statement.bare = true

/-- What is deferred is of the behavior. -/
def Config.Fits (b : Behavior) (c : Config) : Prop := ∀ d ∈ c.deferred, d.Fits b

/-- What is deferred afterwards is of the behavior. -/
def Yields {α : Type} (b : Behavior) (x : Option (Config × α)) : Prop := ∀ r, x = some r → r.1.Fits b

/-- The functions defer statements of the behavior. -/
def Caller.Yields (b : Behavior) (run : Caller) : Prop :=
  ∀ f values data c, c.Fits b → Purge.Yields b (run f values data c)

theorem yields_some {α : Type} {c : Config} {x : α} : Yields b (some (c, x)) ↔ c.Fits b := by
  unfold Yields
  simp

theorem Yields.map {α β : Type} {x : Option (Config × α)} (h : Yields b x) {f : Config × α → Config × β}
    (hf : ∀ r, r.1.Fits b → (f r).1.Fits b) : Yields b (x.map f) := by
  intro r hr
  obtain ⟨r', hr', rfl⟩ := Option.map_eq_some_iff.1 hr
  exact hf r' (h r' hr')

theorem Yields.bind {α β : Type} {x : Option (Config × α)} (h : Yields b x)
    {f : Config × α → Option (Config × β)} (hf : ∀ r, r.1.Fits b → Yields b (f r)) : Yields b (x.bind f) := by
  intro r hr
  obtain ⟨r', hr', hfr⟩ := Option.bind_eq_some_iff.1 hr
  exact hf r' (h r' hr') r hfr

theorem yields_map_some {α β : Type} {x : Option β} {f : β → Config × α} (hf : ∀ v, (f v).1.Fits b) :
    Yields b (x.map f) := by
  intro r hr
  obtain ⟨v, -, rfl⟩ := Option.map_eq_some_iff.1 hr
  exact hf v

theorem Fits.congr {c c' : Config} (h : c.Fits b) (heq : c'.deferred = c.deferred) : c'.Fits b := by
  unfold Config.Fits
  rw [heq]
  exact h

theorem deferred_setData (x d : String) (c : Config) : (c.setData x d).deferred = c.deferred := by
  unfold Config.setData
  split <;> rfl

theorem deferred_setValue (x : String) (v : Value) (c : Config) : (c.setValue x v).deferred = c.deferred := by
  unfold Config.setValue
  split <;> rfl

theorem deferred_setOuts (as : List Exp) (outs : List (Option String)) (c : Config) :
    (c.setOuts as outs).deferred = c.deferred := setOuts_same Config.deferred deferred_setData as outs c

theorem performAction_yields (hc : c.Fits b) : Yields b (performAction port event as c) := by
  refine yields_map_some fun values => ?_
  dsimp only
  split
  · exact hc
  · exact Fits.congr hc (deferred_setOuts _ _ _)

theorem performCall_yields (hrun : run.Yields b) (hc : c.Fits b) : Yields b (performCall run f as c) := by
  intro r hr
  obtain ⟨values, -, hr⟩ := Option.bind_eq_some_iff.1 hr
  have hcall : Yields b (run f values (c.argumentData as) (c.act (.call f values (c.argumentData as)))) :=
    hrun _ _ _ _ hc
  refine hcall.map ?_ r hr
  intro r hr
  split
  · exact hr
  · exact Fits.congr hr (deferred_setOuts _ _ _)

theorem assigned_yields (hrun : run.Yields b) (hc : c.Fits b) (e : Exp) : Yields b (assigned run e c) := by
  induction e with
  | group e ih => exact ih
  | action p ev ty as => exact performAction_yields hc
  | call f ty as => exact performCall_yields hrun hc
  | _ =>
    rw [assigned]
    · exact yields_map_some fun _ => hc
    all_goals simp

theorem andThen_yields {r : Result} (h : Yields b r) {use : Value × String → Config → Config}
    (huse : ∀ v c, c.Fits b → (use v c).Fits b) : Yields b (andThen r use) := by
  refine h.map fun r hr => ?_
  split
  · exact hr
  · exact huse _ _ hr

theorem execs_yields {ss : List Stm} (ih : ∀ s ∈ ss, ∀ c, c.Fits b → Yields b (exec run s c))
    (hc : c.Fits b) : Yields b (exec.execs run ss c) := by
  induction ss generalizing c with
  | nil => exact yields_some.2 hc
  | cons s ss ihss =>
    obtain ⟨ihs, ih⟩ := List.forall_mem_cons.1 ih
    refine (ihs c hc).bind fun r hr => ?_
    split
    · exact ihss ih hr
    · exact yields_some.2 hr

/-- A statement of the behavior defers statements of it. -/
theorem exec_yields (hrun : run.Yields b) (h : s.WellFormed b) (hbare : s.bare = true) (hc : c.Fits b) :
    Yields b (exec run s c) := by
  have hleave : ∀ c : Config, ∀ r : Config × Flow, r.1.Fits b → (c.leave r).1.Fits b := fun _ _ hr => hr
  induction s generalizing c with
  | compound ss ih =>
    have hwf := Stm.wellFormed_elements.1 h
    rw [Stm.bare, Stm.bare_elements, List.all_eq_true] at hbare
    exact (execs_yields (fun s hs c hc => ih s hs (hwf s hs) (hbare s hs) hc) hc).map (hleave c)
  | declarativeCompound => exact fun r hr => by cases hr
  | guard => exact fun r hr => by cases hr
  | on => exact fun r hr => by cases hr
  | expression => exact fun r hr => by cases hr
  | blocking s ih => exact (ih h hbare hc).map (hleave c)
  | invariant => exact yields_some.2 hc
  | illegal => exact yields_some.2 hc
  | skip => exact yields_some.2 hc
  | declaration t x e =>
    refine andThen_yields (assigned_yields hrun hc e) fun v c hc => ?_
    split <;> exact hc
  | assign t x e =>
    refine andThen_yields (assigned_yields hrun hc e) fun v c hc => ?_
    split
    · exact Fits.congr hc (deferred_setData _ _ _)
    · exact Fits.congr hc (deferred_setValue _ _ _)
  | action p ev as => exact andThen_yields (performAction_yields hc) fun _ _ hc => hc
  | call f as => exact andThen_yields (performCall_yields hrun hc) fun _ _ hc => hc
  | ifThen e s ih =>
    unfold exec
    split
    · exact (ih h.2 hbare hc).map (hleave c)
    · exact yields_some.2 hc
    · exact fun r hr => by cases hr
  | ifElse e s t ihs iht =>
    rw [Stm.bare, Bool.and_eq_true] at hbare
    unfold exec
    split
    · exact (ihs h.2.1 hbare.1 hc).map (hleave c)
    · exact (iht h.2.2 hbare.2 hc).map (hleave c)
    · exact fun r hr => by cases hr
  | reply p e => exact yields_map_some fun _ => hc
  | returned e => exact yields_map_some fun _ => hc
  | defer as s =>
    refine yields_map_some fun values => ?_
    have hfits : Deferred.Fits b ⟨as, values, s, c.locals, c.localData⟩ := ⟨h.1, h.2, hbare⟩
    exact List.forall_mem_append.2 ⟨hc, List.forall_mem_singleton.2 hfits⟩

theorem call_yields (h : b.WellFormed) (hbare : b.Bare) (fuel : Nat) : (b.call fuel).Yields b := by
  induction fuel with
  | zero => exact fun _ _ _ _ _ r hr => by cases hr
  | succ fuel ih =>
    intro f values data c hc r hr
    obtain ⟨d, hd, hr⟩ := Option.bind_eq_some_iff.1 hr
    have hmem := mem_func hd
    have hcallee : Config.Fits b { c with
      locals := d.signature.valueNames.zip values
      localData := (d.signature.dataFormals.map Parameter.name).zip data } := hc
    refine (exec_yields ih (h.functions d hmem) (hbare.functions d hmem) hcallee).map ?_ r hr
    intro r hr
    dsimp only
    split <;> exact hr

/-! ## Runs without the data -/

@[simp] theorem erase_idle (c : Config) : c.idle.erase = c.erase.idle := rfl

/-- What an event enables is of the behavior. -/
theorem mem_enabled {formals : Option (List Formal)} {otherwise : Bool} {x : List Formal × Stm}
    (h : s.WellFormed b) (hbare : s.bare = true) (hx : x ∈ enabled c port event formals otherwise s) :
    x.2.WellFormed b ∧ x.2.bare = true := by
  induction s generalizing formals otherwise with
  | declarativeCompound ss ih =>
    rw [enabled, enabled_elements] at hx
    obtain ⟨s, hs, hx⟩ := List.mem_flatMap.1 hx
    rw [Stm.bare, Stm.bare_elements, List.all_eq_true] at hbare
    exact ih s hs (Stm.wellFormed_elements.1 h.2 s hs) (hbare s hs) hx
  | guard e s ih =>
    have hs : ∀ {formals otherwise}, x ∈ enabled c port event formals otherwise s → x.2.WellFormed b ∧ x.2.bare = true :=
      fun hx => ih h.2 hbare hx
    obtain rfl | hvalue := h.1
    · rw [enabled] at hx
      split at hx
      · exact hs hx
      · cases hx
    · rw [enabled] at hx
      · split at hx
        · exact hs hx
        · cases hx
      · exact fun heq => by rw [heq] at hvalue; cases hvalue
  | on ts s ih =>
    cases formals with
    | some fs =>
      rw [enabled] at hx
      cases hx
    | none =>
      rw [enabled] at hx
      obtain ⟨t, -, hx⟩ := List.mem_flatMap.1 hx
      exact ih h hbare hx
  | blocking s ih =>
    rw [enabled] at hx
    exact ih h hbare hx
  | invariant e => cases formals <;> simp [enabled] at hx
  | _ =>
    rw [enabled_imperative rfl] at hx
    cases formals with
    | none => cases hx
    | some fs =>
      obtain rfl := List.mem_singleton.1 hx
      exact ⟨h, hbare⟩

theorem enabled_purge (h : b.WellFormed) (c : Config) (port : Option String) (event : String) :
    enabled c.erase port event none false b.purge.statement =
      (enabled c port event none false b.statement).map eraseEnabled :=
  erase_enabled h.statement none false

/-- A step of the purged behavior is the step of the behavior, without the data. -/
theorem erase_step (h : b.WellFormed) (hbare : b.Bare) (hc : c.Fits b) (fuel : Nat) (i : Input) :
    b.purge.step fuel i c.erase = (b.step fuel i c).map eraseFlow := by
  have hcalls := sameCalls h hbare fuel
  cases i with
  | event port event data choice =>
    rw [Behavior.step, Behavior.step, enabled_purge h, List.getElem?_map]
    cases hx : (enabled c port event none false b.statement)[choice]? with
    | none => rfl
    | some x =>
      obtain ⟨hwf, hx⟩ := mem_enabled h.statement hbare.statement (List.mem_of_getElem? hx)
      have hexec := exec_asSlot (erase_exec hcalls hwf hx true
        { c with locals := [], localData := (x.1.map Formal.name).zip data })
      have hstart : { c.erase with locals := [], localData := ((eraseEnabled x).1.map Formal.name).zip data } =
        Config.erase { c with locals := [], localData := (x.1.map Formal.name).zip data } := rfl
      have hstm : (eraseEnabled x).2 = asSlot (x.2.purge true) := rfl
      rw [Option.map_some, Option.bind_some, Option.bind_some, hstart, hstm, hexec, Option.map_map, Option.map_map]
      congr 1
      funext r
      simp [eraseFlow, eraseEnabled, Act.erase]
  | deferred =>
    have hdeferred : c.erase.deferred = c.deferred.map Deferred.erase := rfl
    rw [Behavior.step, Behavior.step, hdeferred]
    cases hd : c.deferred with
    | nil => rfl
    | cons d deferred =>
      have hfits : d.Fits b := hc d (hd ▸ List.mem_cons_self)
      have hexec := exec_asSlot (erase_exec hcalls hfits.statement hfits.bare true
        { c with deferred := deferred, locals := d.locals, localData := d.localData })
      have hwatched := erase_watched (c := { c with deferred := deferred }.idle) hfits.arguments
      have hrest : { c.erase with deferred := deferred.map Deferred.erase }.idle =
        Config.erase ({ c with deferred := deferred }.idle) := rfl
      simp only [List.map_cons]
      have hsame : Config.watched { c.erase with deferred := deferred.map Deferred.erase }.idle d.erase.arguments =
          Config.watched { c with deferred := deferred }.idle d.arguments := by
        rw [hrest]
        exact hwatched
      have hvalues : d.erase.values = d.values := rfl
      rw [hsame, hvalues]
      split
      · have hstart : exec (b.purge.call fuel) d.erase.statement
            { c.erase with deferred := deferred.map Deferred.erase, locals := d.locals, localData := [] } = _ := hexec
        have hlocals : d.erase.locals = d.locals := rfl
        have hlocalData : d.erase.localData = [] := rfl
        rw [hlocals, hlocalData, hstart, Option.map_map, Option.map_map]
        rfl
      · rfl

/-- A step defers statements of the behavior. -/
theorem step_yields (h : b.WellFormed) (hbare : b.Bare) (hc : c.Fits b) (fuel : Nat) (i : Input) :
    Yields b (b.step fuel i c) := by
  have hcalls := call_yields h hbare fuel
  cases i with
  | event port event data choice =>
    intro r hr
    obtain ⟨x, hx, hr⟩ := Option.bind_eq_some_iff.1 hr
    obtain ⟨hwf, hx⟩ := mem_enabled h.statement hbare.statement (List.mem_of_getElem? hx)
    have hstart : Config.Fits b { c with locals := [], localData := (x.1.map Formal.name).zip data } := hc
    refine (exec_yields hcalls hwf hx hstart).map (fun r hr => ?_) r hr
    exact hr
  | deferred =>
    rw [Behavior.step]
    cases hd : c.deferred with
    | nil => exact fun r hr => by cases hr
    | cons d deferred =>
      unfold Config.Fits at hc
      rw [hd] at hc
      obtain ⟨hfits, hrest⟩ := List.forall_mem_cons.1 hc
      have hstart : Config.Fits b { c with deferred := deferred, locals := d.locals, localData := d.localData } := hrest
      dsimp only
      split
      · exact (exec_yields hcalls hfits.statement hfits.bare hstart).map fun r hr => hr
      · exact yields_some.2 hrest

theorem erase_run (h : b.WellFormed) (hbare : b.Bare) (fuel : Nat) (inputs : List Input) (hc : c.Fits b) :
    b.purge.run fuel inputs c.erase = (b.run fuel inputs c).map eraseFlow := by
  induction inputs generalizing c with
  | nil => rfl
  | cons i inputs ih =>
    have hstep := erase_step h hbare hc fuel i
    have hyields := step_yields h hbare hc fuel i
    rw [Behavior.run, Behavior.run, hstep]
    cases hr : b.step fuel i c with
    | none => rfl
    | some r =>
      obtain ⟨c', flow⟩ := r
      have hc' : c'.Fits b := hyields _ hr
      cases flow with
      | next => exact ih hc'
      | returned => exact ih hc'
      | stopped => rfl

/-- Without groups around data, a behavior runs the same after it is purged. -/
theorem sameRuns_purge (h : b.WellFormed) (hbare : b.Bare) : SameRuns b b.purge := by
  intro fuel inputs c hc
  refine erase_run h hbare fuel inputs ?_
  unfold Config.Fits
  rw [hc]
  exact fun d hd => by cases hd

/-- A purged behavior is well formed, has no data and runs the same, just when there are no groups around data. -/
theorem purgeData_iff (b : Behavior) (h : b.WellFormed) :
    (b.purge.WellFormed ∧ b.purge.NoExtern ∧ SameRuns b b.purge) ↔ b.Bare := by
  rw [behavior_purge h]
  constructor
  · rintro ⟨hwf, hfree, -⟩
    exact ⟨hwf, hfree⟩
  · rintro ⟨hwf, hfree⟩
    exact ⟨hwf, hfree, sameRuns_purge h ((behavior_purge h).2 ⟨hwf, hfree⟩)⟩

end

/-- `void g (in T x) {}` -/
def g : Func := ⟨⟨"g", .void, [⟨.in, .externData ["T"], "x"⟩]⟩, .compound []⟩

/-- `in void take (in T d)` of the port `p`, and `in void put (in T d)` of the port `r` -/
def storeEvents : List (Option String × Signature) :=
  [(some "p", ⟨"take", .void, [⟨.in, .externData ["T"], "d"⟩]⟩), (some "r", ⟨"put", .void, [⟨.in, .externData ["T"], "d"⟩]⟩)]

/-- `behavior {T m = $0$; bool full = false; void g (in T x) {} on p.take (d): {full = true; m = d; g (m); r.put (d);}}` -/
def store : Behavior where
  events := storeEvents
  members := [⟨.externData ["T"], "m", .data "0"⟩, ⟨.bool, "full", .literal (.bool false)⟩]
  functions := [g]
  statement := .declarativeCompound [.on [⟨some "p", "take", [.formal "d"]⟩] (.compound [
    .assign .bool "full" (.literal (.bool true)),
    .assign (.externData ["T"]) "m" (.var "d" (.externData ["T"])),
    .call "g" [.var "m" (.externData ["T"])],
    .action (some "r") "put" [.var "d" (.externData ["T"])]])]

theorem store_wellFormed : store.WellFormed where
  events := by simp [store, storeEvents, DataType.isExtern]
  members := by simp [store, DataType.isExtern, Exp.isResult, Exp.isValue, Exp.isData]
  functions := by simp [store, g, Stm.WellFormed, Stm.WellFormed.elements]
  statement := by
    have hmatch : ∀ x y, Match [⟨.in, .externData ["T"], x⟩] [.var y (.externData ["T"])] := fun x y => .cons rfl .nil
    have hcall : store.CallFits "g" [.var "m" (.externData ["T"])] := ⟨g, rfl, hmatch _ _⟩
    have haction : store.ActionFits (some "r") "put" [.var "d" (.externData ["T"])] :=
      ⟨⟨"put", .void, [⟨.in, .externData ["T"], "d"⟩]⟩, rfl, hmatch _ _⟩
    have hm : Exp.Assignable store (.externData ["T"]) (.var "d" (.externData ["T"])) := .inl rfl
    have hfull : Exp.Assignable store .bool (.literal (.bool true)) := rfl
    exact ⟨by simp [Stm.isDeclarative], ⟨hfull, hm, hcall, haction, trivial⟩, trivial⟩

theorem store_bare : store.Bare := ⟨by simp [store, g, Stm.bare, Stm.bare.elements], rfl⟩

/-- The bare store is well formed and runs the same without its data. -/
theorem purgeData_store : store.WellFormed ∧ store.Bare ∧
    store.purge.WellFormed ∧ store.purge.NoExtern ∧ SameRuns store store.purge :=
  ⟨store_wellFormed, store_bare, (purgeData_iff store store_wellFormed).2 store_bare⟩

/-- `behavior {void g (in T x) {} on p.take (d): g ((d));}` -/
def grouped : Behavior where
  events := storeEvents
  members := []
  functions := [g]
  statement := .declarativeCompound [.on [⟨some "p", "take", [.formal "d"]⟩]
    (.call "g" [.group (.var "d" (.externData ["T"]))])]

/-- `g ((d))` becomes `g (())`, where `g` has no formals. -/
theorem grouped_purge : ¬ ∀ b : Behavior, b.WellFormed →
    b.purge.WellFormed ∧ b.purge.NoExtern ∧ SameRuns b b.purge := by
  intro h
  have hwf : grouped.WellFormed := by
    have hcall : grouped.CallFits "g" [.group (.var "d" (.externData ["T"]))] := ⟨g, rfl, .cons rfl .nil⟩
    constructor
    · simp [grouped, storeEvents, DataType.isExtern]
    · simp [grouped]
    · simp [grouped, g, Stm.WellFormed, Stm.WellFormed.elements]
    · exact ⟨by simp [Stm.isDeclarative], hcall, trivial⟩
  have hpurged := (h grouped hwf).1.statement
  have hcall : grouped.purge.CallFits "g" [.group .absent] := hpurged.2.1
  obtain ⟨d, hd, hmatch⟩ := hcall
  obtain rfl : g.purge = d := Option.some.inj hd
  cases hmatch

end Dezyne.Purge
