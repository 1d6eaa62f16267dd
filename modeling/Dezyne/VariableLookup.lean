import Mathlib.Data.List.Nodup
/-!
# Variable lookup

`ast:lookup-variable` walks from a use of a name through its parents. In a block it
looks among the statements that it is handed. Those are the ones before the use in
that block when it comes from a block, an if or a defer; from a guard, an on or a
blocking it comes with the statements of an inner block again.
-/

namespace Dezyne.VariableLookup

/-! ## `ast:lookup-variable` -/

/-- A variable, formal or member; a shared variable has a port. -/
structure Variable where
  id : Nat
  portName : Option String
  name : String
deriving DecidableEq

/-- `name?` -/
def Variable.isNamed (name : String) (v : Variable) : Bool :=
  match v.portName with
  | some port => port ++ v.name == name
  | none => v.name == name

def find (name : String) (l : List Variable) : Option Variable := l.find? fun v => v.isNamed name

inductive Statement where
  | variableStmt (v : Variable)
  | other

/-- `(filter (is? <variable>) statements)` -/
def variablesOf (statements : List Statement) : List Variable :=
  statements.filterMap fun s => match s with
    | .variableStmt v => some v
    | .other => none

/-- A node from a use of a name up to its behavior, with what the walk reads of it. -/
inductive Frame where
  /-- A block; the use is in the statement at `position`. -/
  | compound (statements : List Statement) (position : Nat)
  | if_
  | defer
  | function (formals : List Variable)
  /-- An on, with the formals of its triggers. -/
  | on (formals : List Variable)
  /-- The expression of a variable, and the variable. -/
  | initializer
  | other

/-- A behavior; `position` of its members come before the use. -/
structure Behavior where
  members : List Variable
  position : Nat

def isCompound : List Frame → Bool
  | .compound _ _ :: _ => true
  | _ => false

/-- `ast:statement-prefix` of what has these parents -/
def statementPrefix : List Frame → List Statement
  | [] => []
  | .compound statements position :: _ => statements.take position
  | _ :: parents => statementPrefix parents

/-- `or`; nothing comes of it when the first fails. -/
def either (a b : Option (Option Variable)) : Option (Option Variable) :=
  match a with
  | some none => b
  | _ => a

/-- `ast:lookup-variable`; at a root there is no method for `#f` and `statements`. -/
def lookupVariable (name : String) (behavior : Option Behavior) :
    List Frame → List Statement → Option (Option Variable)
  | [], _ => behavior.map fun b => find name b.members
  | .compound _ _ :: parents, statements =>
    either (some (find name (variablesOf statements)))
      (either (if isCompound parents then lookupVariable name behavior parents (statementPrefix parents) else some none)
        (lookupVariable name behavior parents statements))
  | .defer :: parents, _ => lookupVariable name behavior parents (statementPrefix parents)
  | .if_ :: parents, statements =>
    either (if isCompound parents then lookupVariable name behavior parents (statementPrefix parents) else some none)
      (lookupVariable name behavior parents statements)
  | .function formals :: parents, statements =>
    either (some (find name formals)) (lookupVariable name behavior parents statements)
  | .on formals :: parents, statements =>
    either (some (find name formals)) (lookupVariable name behavior parents statements)
  | .initializer :: parents, statements => lookupVariable name behavior parents statements
  | .other :: parents, statements => lookupVariable name behavior parents statements

/-! ## Declarations that enclose and precede a use -/

/-- What a node declares before the use. -/
def Frame.declared : Frame → List Variable
  | .compound statements position => variablesOf (statements.take position)
  | .function formals | .on formals => formals
  | _ => []

/-- A use of a name, with its parents; every declaration is a node of its own. -/
structure Use where
  frames : List Frame
  behavior : Option Behavior
  nodup : (frames.flatMap Frame.declared ++ behavior.toList.flatMap Behavior.members).Nodup

/-- The innermost declaration before the use: a local or formal, or else a member. -/
def innermost (name : String) (behavior : Option Behavior) : List Frame → Option Variable
  | [] => behavior.bind fun b => find name (b.members.take b.position)
  | f :: parents => (find name f.declared).or (innermost name behavior parents)

/-- The lookup gives the innermost declaration before the use. -/
def Use.Resolves (u : Use) (name : String) : Prop :=
  lookupVariable name u.behavior u.frames (statementPrefix u.frames) = some (innermost name u.behavior u.frames)

/-- Whether the next block is handed its own statements, after a node that was handed its own (`own`) and where the
next node is a block (`next`). -/
def Frame.handed (f : Frame) (own next : Bool) : Bool :=
  match f with
  | .compound _ _ => next
  | .if_ => own || next
  | .defer => true
  | _ => own

/-- Whether a block is handed its own statements on the way through the nodes in it. -/
def handed : Bool → List Frame → Bool
  | own, [] => own
  | own, f :: inner => handed (f.handed own (inner.isEmpty || isCompound inner)) inner

/-- The block of the innermost declaration, if it is in a block, is handed its own statements. -/
def BlockSearched (name : String) (own : Bool) (frames : List Frame) : Prop :=
  ∀ inner statements position outer, frames = inner ++ .compound statements position :: outer →
    (∀ f ∈ inner, find name f.declared = none) → find name (variablesOf (statements.take position)) ≠ none →
    handed own inner = true

/-- A name that is no local or formal is used in a behavior, and is not that of a member after the use only. -/
def MemberSearched (name : String) (behavior : Option Behavior) (frames : List Frame) : Prop :=
  (∀ f ∈ frames, find name f.declared = none) → ∃ b, behavior = some b ∧
    (find name (b.members.take b.position) ≠ none ∨ find name b.members = none)

/-! ## What the walk finds -/

variable {name : String} {behavior : Option Behavior} {own : Bool} {f : Frame} {frames parents : List Frame}
  {statements : List Statement} {v : Variable}

def Frame.isBlock : Frame → Bool
  | .compound _ _ => true
  | _ => false

/-- What is found, when a block is searched only with its own statements. -/
def found (name : String) (behavior : Option Behavior) : Bool → List Frame → Option Variable
  | _, [] => behavior.bind fun b => find name b.members
  | own, f :: parents =>
    (if f.isBlock && !own then none else find name f.declared).or
      (found name behavior (f.handed own (isCompound parents)) parents)

theorem found_false : ∀ {frames : List Frame} {own : Bool}, found name behavior own frames = none →
    found name behavior false frames = none := by
  intro frames
  induction frames with
  | nil => exact fun h => h
  | cons f parents ih =>
    intro own h
    rw [found, Option.or_eq_none_iff] at h ⊢
    cases f with
    | compound statements position => exact ⟨rfl, h.2⟩
    | if_ =>
      cases hnext : isCompound parents with
      | true => simpa [Frame.handed, hnext, Frame.isBlock, Frame.declared, find] using h
      | false => exact ⟨h.1, by simpa [Frame.handed] using ih h.2⟩
    | defer => exact h
    | function formals => exact ⟨h.1, ih h.2⟩
    | on formals => exact ⟨h.1, ih h.2⟩
    | initializer => exact ⟨h.1, ih h.2⟩
    | other => exact ⟨h.1, ih h.2⟩

@[simp] theorem either_some (a : Option (Option Variable)) : either (some (some v)) a = some (some v) := rfl

@[simp] theorem either_none (a : Option (Option Variable)) : either (some none) a = a := rfl

theorem either_self (a : Option (Option Variable)) : either a a = a := by
  unfold either
  split <;> rfl

theorem either_or (a b : Option Variable) (c : Option (Option Variable)) :
    either (some (a.or b)) c = either (some a) (either (some b) c) := by
  cases a <;> rfl

/-- One way, and a second one that finds no more -/
theorem either_either {a b : Option Variable} (h : a = none → b = none) (c : Option Behavior) :
    either (either (some a) (c.map fun _ => none)) (either (some b) (c.map fun _ => none)) =
      either (some a) (c.map fun _ => none) := by
  cases a with
  | some v => rfl
  | none =>
    rw [h rfl]
    exact either_self _

/-- From where a block would be handed its own statements, or else some among which the name was not found, the lookup
gives what is found; outside of a behavior nothing comes of it when nothing is. -/
theorem lookupVariable_eq : ∀ (frames : List Frame) (own : Bool) (statements : List Statement),
    (if own then statements = statementPrefix frames else find name (variablesOf statements) = none) →
    lookupVariable name behavior frames statements =
      either (some (found name behavior own frames)) (behavior.map fun _ => none) := by
  intro frames
  induction frames with
  | nil =>
    intro own statements _
    cases behavior with
    | none => rfl
    | some b => cases h : find name b.members <;> simp [lookupVariable, found, h, either]
  | cons f parents ih =>
    intro own statements h
    -- the block after this node, with its own statements and then with these
    have hnext : find name (variablesOf statements) = none →
        either (if isCompound parents then lookupVariable name behavior parents (statementPrefix parents)
          else some none) (lookupVariable name behavior parents statements) =
        either (some (found name behavior (isCompound parents) parents)) (behavior.map fun _ => none) := by
      intro hnone
      have hold := ih false statements hnone
      cases hc : isCompound parents with
      | false => exact hold
      | true =>
        rw [if_pos rfl, hold, ih true _ rfl]
        exact either_either found_false behavior
    rw [found, either_or]
    cases f with
    | compound l position =>
      have hstatements : find name (variablesOf statements) =
          if Frame.isBlock (.compound l position) && !own then none
          else find name (Frame.compound l position).declared := by
        cases own with
        | true => exact congrArg (fun l => find name (variablesOf l)) h
        | false => exact h
      rw [lookupVariable, ← hstatements]
      cases hfind : find name (variablesOf statements) with
      | some v => rfl
      | none => exact hnext hfind
    | if_ =>
      cases own with
      | true =>
        obtain rfl : statements = statementPrefix parents := h
        have hsame : lookupVariable name behavior (.if_ :: parents) (statementPrefix parents) =
            lookupVariable name behavior parents (statementPrefix parents) := by
          rw [lookupVariable]
          split
          · exact either_self _
          · rfl
        rw [hsame]
        exact ih true _ rfl
      | false => exact hnext h
    | defer => exact ih true _ rfl
    | function formals => exact congrArg (either (some (find name formals))) (ih own statements h)
    | on formals => exact congrArg (either (some (find name formals))) (ih own statements h)
    | initializer => exact ih own statements h
    | other => exact ih own statements h

/-! ## When that is the innermost declaration -/

theorem found_mem : ∀ {frames : List Frame} {own : Bool}, found name behavior own frames = some v →
    v ∈ frames.flatMap Frame.declared ++ behavior.toList.flatMap Behavior.members := by
  intro frames
  induction frames with
  | nil =>
    intro own h
    obtain ⟨b, hb, hfind⟩ := Option.bind_eq_some_iff.1 h
    simpa [hb] using List.mem_of_find?_eq_some hfind
  | cons f parents ih =>
    intro own h
    rw [List.flatMap_cons, List.append_assoc]
    rcases Option.or_eq_some_iff.1 h with hfind | ⟨-, hrest⟩
    · split at hfind
      · cases hfind
      · exact List.mem_append_left _ (List.mem_of_find?_eq_some hfind)
    · exact List.mem_append_right _ (ih hrest)

theorem isCompound_append (inner outer : List Frame) (position : Nat) :
    isCompound (inner ++ .compound statements position :: outer) = (inner.isEmpty || isCompound inner) := by
  cases inner with
  | nil => rfl
  | cons f inner => cases f <;> rfl

/-- A node that declares nothing of the name is passed. -/
theorem blockSearched_cons (h : find name f.declared = none) :
    BlockSearched name own (f :: parents) ↔ BlockSearched name (f.handed own (isCompound parents)) parents := by
  constructor
  · rintro hsearched inner statements position outer rfl hinner hfind
    have := hsearched (f :: inner) statements position outer rfl (by simpa [h] using hinner) hfind
    rwa [handed, ← isCompound_append inner outer position] at this
  · rintro hsearched (_ | ⟨g, inner⟩) statements position outer heq hinner hfind
    · cases heq
      exact absurd h hfind
    · cases heq
      rw [handed, ← isCompound_append inner outer position]
      exact hsearched inner statements position outer rfl (fun f hf => hinner f (by simp [hf])) hfind

theorem memberSearched_cons (h : find name f.declared = none) :
    MemberSearched name behavior (f :: parents) ↔ MemberSearched name behavior parents := by
  rw [MemberSearched, List.forall_mem_cons, MemberSearched]
  simp [h]

/-- What is found is the innermost declaration just when its block is searched. -/
theorem found_iff : ∀ {frames : List Frame} {own : Bool},
    (frames.flatMap Frame.declared ++ behavior.toList.flatMap Behavior.members).Nodup →
    (either (some (found name behavior own frames)) (behavior.map fun _ => none) =
        some (innermost name behavior frames) ↔
      BlockSearched name own frames ∧ MemberSearched name behavior frames) := by
  intro frames
  induction frames with
  | nil =>
    intro own _
    have hblock : BlockSearched name own [] := by
      intro inner statements position outer heq
      simp at heq
    rw [MemberSearched, and_iff_right hblock]
    cases behavior with
    | none => simp [found, innermost, either]
    | some b =>
      have hsplit : find name b.members =
          (find name (b.members.take b.position)).or (find name (b.members.drop b.position)) := by
        rw [find, find, find, ← List.find?_append, List.take_append_drop]
      simp only [found, innermost, Option.bind_some, Option.map_some]
      cases htake : find name (b.members.take b.position) with
      | some v => simp [hsplit, htake]
      | none => cases hall : find name b.members <;> simp [htake, hall, either]
  | cons f parents ih =>
    intro own hnd
    rw [List.flatMap_cons, List.append_assoc, List.nodup_append] at hnd
    cases hfind : find name f.declared with
    | none =>
      rw [blockSearched_cons hfind, memberSearched_cons hfind, ← ih hnd.2.1, found, innermost, hfind, ite_self,
        Option.none_or, Option.none_or]
    | some v =>
      have hmember : MemberSearched name behavior (f :: parents) := by
        intro h
        rw [h f (by simp)] at hfind
        cases hfind
      rw [and_iff_left hmember, found, innermost, hfind, Option.some_or]
      cases hskip : f.isBlock && !own with
      | false =>
        refine ⟨fun _ inner statements position outer heq hinner _ => ?_, fun _ => rfl⟩
        cases inner with
        | nil =>
          cases heq
          simpa [Frame.isBlock, handed] using hskip
        | cons g inner =>
          cases heq
          rw [hinner f (by simp)] at hfind
          cases hfind
      | true =>
        have hown : own = false := by simp_all
        -- it finds a declaration further out, or none
        constructor
        · intro heq
          have hv : v ∈ f.declared := List.mem_of_find?_eq_some hfind
          cases hfound : found name behavior (f.handed own (isCompound parents)) parents with
          | none =>
            rw [hfound] at heq
            cases behavior <;> simp [either] at heq
          | some w =>
            rw [hfound] at heq
            have hvw : w = v := by simpa using heq
            exact absurd hvw.symm (hnd.2.2 v hv w (found_mem hfound))
        · intro hsearched
          cases f with
          | compound statements position =>
            rw [Frame.declared] at hfind
            have := hsearched [] statements position parents rfl (by simp) (by simp [hfind])
            rw [hown] at this
            cases this
          | _ => simp [Frame.isBlock] at hskip

/-- The lookup gives the innermost declaration just where its block is searched. -/
theorem Use.resolves_iff (u : Use) (name : String) :
    u.Resolves name ↔ BlockSearched name true u.frames ∧ MemberSearched name u.behavior u.frames := by
  rw [Use.Resolves, lookupVariable_eq u.frames true _ rfl]
  exact found_iff u.nodup

/-- `behavior { bool x; bool y; on e: { bool x; [x] { y = x; } } }`, with the last `x` as the use -/
def guarded : Use where
  frames :=
    [.other, .other, .compound [.other] 0, .other, .compound [.variableStmt ⟨2, none, "x"⟩, .other] 1, .on [], .other]
  behavior := some ⟨[⟨0, none, "x"⟩, ⟨1, none, "y"⟩], 2⟩
  nodup := by decide

/-- The member is found in place of the local variable. -/
theorem Use.not_resolves_guarded : ¬ guarded.Resolves "x" := by
  unfold Use.Resolves
  decide

end Dezyne.VariableLookup
