import Dezyne.Lib.AppendMap
import Dezyne.Lib.Prerequisites
import Mathlib.Data.Set.Insert
/-!
# Missing returns

The check follows the continuations of a statement until it comes to a return, to
an illegal or back to the body of the function. The continuation after the
statement of a guard, an on or a blocking is the behavior.
-/

namespace Dezyne.MissingReturn

open AppendMap Prerequisites

/-! ## Statements and their parents -/

/-- The declarative statements with a statement of their own. -/
inductive Declarative where
  | guard
  | on
  | blocking
deriving DecidableEq

/-- The statements that the parser builds; `other` is an action, assign, call, invariant, reply, skip or variable. -/
inductive Statement where
  | compound (elements : List Statement)
  | declarative (class_ : Declarative) (statement : Statement)
  | ifThen (then_ : Statement)
  | ifElse (then_ else_ : Statement)
  | defer (statement : Statement)
  | illegal
  | return_
  | other

/-- The place of a statement in its parent, with the other children. -/
inductive Frame where
  | compound (before after : List Statement)
  | declarative (class_ : Declarative)
  | ifThen
  | ifElseThen (else_ : Statement)
  | ifElseElse (then_ : Statement)
  | defer

/-- The parent. -/
def Frame.fill (o : Statement) : Frame → Statement
  | .compound before after => .compound (before ++ o :: after)
  | .declarative c => .declarative c o
  | .ifThen => .ifThen o
  | .ifElseThen e => .ifElse o e
  | .ifElseElse t => .ifElse t o
  | .defer => .defer o

/-- The position among the children. -/
def Frame.position : Frame → Nat
  | .compound before _ => before.length
  | .ifElseElse _ => 1
  | _ => 0

/-- The statement of the function, or of the behavior itself. -/
structure Root where
  isFunction : Bool
  statement : Statement

/-- A statement with its parents, the nearest first. -/
structure Node where
  root : Root
  statement : Statement
  context : List Frame

/-- Two nodes are `eq?` just when they have the same place. -/
def Node.place (n : Node) : Bool × List Nat := (n.root.isFunction, n.context.map Frame.position)

/-- A continuation is a statement or a behavior. -/
inductive Target where
  | node (n : Node)
  | behavior

/-- What the check reads of a function; `behavior` is `.statement` of its behavior, if it is in one. -/
structure Function where
  isVoid : Bool
  statement : Option Statement
  behavior : Option Statement

/-! ## `ast:continuation*` -/

/-- `helper` for a statement without a statement of its own to go on with, and `statement-continuation` for one in a
compound. -/
def helper (root : Root) (o : Statement) : List Frame → Target
  -- `.statement` of the function or of the behavior
  | [] => .node ⟨root, root.statement, []⟩
  | .compound before (next :: after) :: context => .node ⟨root, next, .compound (before ++ [o]) after :: context⟩
  -- the last one: on from the compound, but not out of a `defer`
  | .compound _ [] :: .defer :: _ => .behavior
  | .compound before [] :: context => helper root (.compound (before ++ [o])) context
  | .declarative _ :: _ => .behavior
  | frame :: context => helper root (frame.fill o) context

def Node.continuations (n : Node) : List Target :=
  match n.statement with
  | .ifThen t => [.node ⟨n.root, t, .ifThen :: n.context⟩, helper n.root n.statement n.context]
  | .ifElse t e => [.node ⟨n.root, t, .ifElseThen e :: n.context⟩, .node ⟨n.root, e, .ifElseElse t :: n.context⟩]
  | .compound (s :: l) => [.node ⟨n.root, s, .compound [] l :: n.context⟩]
  | .declarative c s => [.node ⟨n.root, s, .declarative c :: n.context⟩]
  | _ => [helper n.root n.statement n.context]

/-! ## `missing-return` -/

/-- `function-body?` -/
def Target.isFunctionBody : Target → Bool
  | .node n => n.root.isFunction && n.context.isEmpty
  | .behavior => false

def Statement.isReturn : Statement → Bool
  | .return_ => true
  | _ => false

def Statement.isIf : Statement → Bool
  | .ifThen _ | .ifElse _ _ => true
  | _ => false

/-- `step`, with `run` for the continuations -/
def step (run : Target → Option (List Node)) (o : Node) (continuation : Target) : Option (List Node) :=
  match o.statement with
  | .illegal => some []
  | .return_ => some [o]
  | _ => if continuation.isFunctionBody then some [o] else run continuation

/-- `run`; a behavior goes on with its statement, and there is nothing to go on with outside of one. -/
def Function.run (f : Function) : Nat → Target → Option (List Node)
  | 0, _ => none
  | fuel + 1, .behavior => f.behavior.bind fun s => f.run fuel (.node ⟨⟨false, s⟩, s, []⟩)
  | fuel + 1, .node o =>
    if o.statement.isIf then appendMap (step (f.run fuel) o) o.continuations
    else o.continuations.head?.bind (step (f.run fuel) o)

/-- `(ast:parent statement <if>)` -/
def parentIf (root : Root) (o : Statement) : List Frame → Option Node
  | [] => none
  | frame :: context =>
    if (frame.fill o).isIf then some ⟨root, frame.fill o, context⟩ else parentIf root (frame.fill o) context

/-- `(ast:parent <> <if>)` -/
def Node.parentIf (n : Node) : Option Node := MissingReturn.parentIf n.root n.statement n.context

/-- `(as <> <if>)` -/
def Node.asIf (n : Node) : Option Node := if n.statement.isIf then some n else none

/-- `eq?` of nodes or `#f` -/
def same (a b : Option Node) : Bool := a.map Node.place == b.map Node.place

/-- The loop of `collapse-if` -/
def collapseIf : List Node → List (Option Node)
  | [] => []
  | statement :: rest =>
    let parent := statement.asIf <|> statement.parentIf
    match rest.find? fun n => same n.asIf parent || same n.parentIf parent with
    | some dupe => parent :: collapseIf (rest.filter fun n => n.place != dupe.place)
    | none => some statement :: rest.map some
termination_by l => l.length
decreasing_by simpa [Nat.lt_succ_iff] using List.length_filter_le _ _

/-- `missing-return`; an error is where it is reported. -/
def Function.missingReturn (f : Function) (fuel : Nat) : Option (List (Option Node)) :=
  match f.isVoid, f.statement with
  | false, some s =>
    (f.run fuel (.node ⟨⟨true, s⟩, s, []⟩)).map fun statements =>
      let missing := statements.filter fun n => !n.statement.isReturn
      collapseIf (deleteDuplicates Node.place missing)
  | _, _ => some []

/-! ## Control paths -/

/-- How a control path ends: it runs on after the statement, it returns, it is illegal, or it leaves a declarative
statement at its end. -/
inductive Ends where
  | off
  | returned
  | illegal
  | leaves
deriving DecidableEq

/-- One statement and then another. -/
def andThen (p q : Set Ends) : Set Ends := {e | (.off ∈ p ∧ e ∈ q) ∨ (e ≠ .off ∧ e ∈ p)}

mutual

/-- How the control paths through a statement end. -/
def Statement.paths : Statement → Set Ends
  | .compound l => paths l
  | .declarative _ s => andThen s.paths {.leaves}
  | .ifThen t => t.paths ∪ {.off}
  | .ifElse t e => t.paths ∪ e.paths
  | .illegal => {.illegal}
  | .return_ => {.returned}
  | .defer _ | .other => {.off}

/-- How the control paths through statements one after the other end. -/
def paths : List Statement → Set Ends
  | [] => {.off}
  | s :: l => andThen s.paths (paths l)

end

/-- How the control paths from the end of a statement with a context end. -/
def after : List Frame → Set Ends
  | [] => {.off}
  | .compound _ l :: context => andThen (paths l) (after context)
  | .declarative _ :: _ => {.leaves}
  | _ :: context => after context

def Target.paths : Target → Set Ends
  | .node n => andThen n.statement.paths (after n.context)
  | .behavior => {.leaves}

variable {p q r : Set Ends}

theorem andThen_assoc : andThen (andThen p q) r = andThen p (andThen q r) := by
  ext e
  simp only [andThen, Set.mem_ofPred_eq]
  tauto

@[simp] theorem off_andThen : andThen {.off} p = p := by
  ext e
  simp [andThen]

@[simp] theorem andThen_off : andThen p {.off} = p := by
  ext e
  by_cases he : e = .off <;> simp [andThen, he]

theorem union_andThen : andThen (p ∪ q) r = andThen p r ∪ andThen q r := by
  ext e
  simp only [andThen, Set.mem_ofPred_eq, Set.mem_union]
  tauto

theorem andThen_leaves : andThen (andThen p {.leaves}) q = andThen p {.leaves} := by
  ext e
  simp only [andThen, Set.mem_ofPred_eq, Set.mem_singleton_iff]
  constructor
  · simp
  · cases e <;> simp

/-! ## Where the check goes on -/

/-- What is left of a context. -/
noncomputable def weight : List Frame → Nat
  | [] => 0
  | .compound _ l :: context => sizeOf l + weight context
  | _ :: context => weight context

/-- The continuation after a statement: the top statement again, the behavior, or a statement from which the paths end
as those from the end of the first. -/
theorem helper_spec (root : Root) : ∀ {context : List Frame} (o : Statement), .defer ∉ context →
    (helper root o context = .node ⟨root, root.statement, []⟩ ∧ after context = {.off}) ∨
    (helper root o context = .behavior ∧ after context = {.leaves}) ∨
    ∃ next frame context', helper root o context = .node ⟨root, next, frame :: context'⟩ ∧
      .defer ∉ frame :: context' ∧ andThen next.paths (after (frame :: context')) = after context ∧
      sizeOf next + weight (frame :: context') < weight context := by
  intro context
  induction context with
  | nil => exact fun _ _ => .inl ⟨rfl, rfl⟩
  | cons frame context ih =>
    intro o hdefer
    rw [List.mem_cons, not_or] at hdefer
    cases frame with
    | compound before l =>
      cases l with
      | nil =>
        have hsame : helper root o (.compound before [] :: context) =
            helper root (.compound (before ++ [o])) context := by
          match context, hdefer with
          | [], _ => rfl
          | .defer :: _, h => simp at h
          | .compound _ _ :: _, _ => rfl
          | .declarative _ :: _, _ => rfl
          | .ifThen :: _, _ => rfl
          | .ifElseThen _ :: _, _ => rfl
          | .ifElseElse _ :: _, _ => rfl
        have hafter : after (.compound before [] :: context) = after context := by
          rw [after, paths, off_andThen]
        rw [hsame, hafter]
        rcases ih (.compound (before ++ [o])) hdefer.2 with h | h | ⟨next, frame, context', h1, h2, h3, h4⟩
        · exact .inl h
        · exact .inr (.inl h)
        · exact .inr (.inr ⟨next, frame, context', h1, h2, h3, by simp only [weight] at h4 ⊢; omega⟩)
      | cons next l =>
        refine .inr (.inr ⟨next, .compound (before ++ [o]) l, context, rfl, ?_, ?_, ?_⟩)
        · simpa using hdefer.2
        · rw [after, after, paths, andThen_assoc]
        · simp only [weight, List.cons.sizeOf_spec]
          omega
    | declarative c => exact .inr (.inl ⟨rfl, rfl⟩)
    | ifThen => exact ih _ hdefer.2
    | ifElseThen e => exact ih _ hdefer.2
    | ifElseElse t => exact ih _ hdefer.2
    | defer => exact absurd rfl hdefer.1

/-- The behavior comes to an end: no path through its statement leaves it or a declarative statement of it. -/
def Function.BehaviorEnds (f : Function) : Prop := ∃ s, f.behavior = some s ∧ .off ∉ s.paths ∧ .leaves ∉ s.paths

def Target.isFunction : Target → Bool
  | .node n => n.root.isFunction
  | .behavior => false

/-- Targets that the check comes to. -/
def Target.Reached (f : Function) : Target → Prop
  | .node n => .defer ∉ n.context ∧ (n.root.isFunction = false → f.behavior = some n.root.statement)
  | .behavior => True

/-! ## What is found -/

/-- The result for paths that end in one of some ways: within the function a statement is missing a return just when
there is a path that runs on, and where the check goes on with the behavior, that comes to an end. -/
structure Sound (f : Function) (isFunction : Bool) (ends : Set Ends) (r : List Node) : Prop where
  missing : (∃ n ∈ r, n.statement.isReturn = false) ↔ isFunction = true ∧ .off ∈ ends
  leaves : .leaves ∈ ends → f.BehaviorEnds
  behavior : isFunction = false → .off ∈ ends → f.BehaviorEnds

variable {f : Function} {isFunction : Bool} {ends ends' : Set Ends} {r r' : List Node}

theorem Sound.append (h : Sound f isFunction ends r) (h' : Sound f isFunction ends' r') :
    Sound f isFunction (ends ∪ ends') (r ++ r') where
  missing := by
    have hor : (∃ n ∈ r ++ r', n.statement.isReturn = false) ↔
        (∃ n ∈ r, n.statement.isReturn = false) ∨ ∃ n ∈ r', n.statement.isReturn = false := by
      simp only [List.mem_append, or_and_right, exists_or]
    rw [hor, h.missing, h'.missing, Set.mem_union, and_or_left]
  leaves hmem := hmem.elim h.leaves h'.leaves
  behavior hf hmem := hmem.elim (h.behavior hf) (h'.behavior hf)

/-- A walk through the behavior finds nothing, and says that the behavior comes to an end. -/
theorem Sound.of_behavior {s : Statement} (hs : f.behavior = some s) (h : Sound f false s.paths r)
    (hends : isFunction = true → .off ∉ ends) : Sound f isFunction ends r := by
  have hb : f.BehaviorEnds := by
    by_cases hoff : .off ∈ s.paths
    · exact h.behavior rfl hoff
    · by_cases hleaves : .leaves ∈ s.paths
      · exact h.leaves hleaves
      · exact ⟨s, hs, hoff, hleaves⟩
  refine ⟨?_, fun _ => hb, fun _ _ => hb⟩
  rw [h.missing]
  simpa using hends

theorem step_eq {run : Target → Option (List Node)} {n : Node} (hill : n.statement ≠ .illegal)
    (hret : n.statement ≠ .return_) (c : Target) :
    step run n c = if c.isFunctionBody then some [n] else run c := by
  unfold step
  split
  · exact absurd ‹_› hill
  · exact absurd ‹_› hret
  · rfl

/-- One step into a statement. -/
theorem step_child {run : Target → Option (List Node)} {n : Node} (hill : n.statement ≠ .illegal)
    (hret : n.statement ≠ .return_) (s : Statement) (frame : Frame) :
    step run n (.node ⟨n.root, s, frame :: n.context⟩) = run (.node ⟨n.root, s, frame :: n.context⟩) := by
  rw [step_eq hill hret, if_neg (by simp [Target.isFunctionBody])]

/-- One step to the continuation after a statement. -/
theorem step_sound {run : Target → Option (List Node)} {n : Node}
    (hrun : ∀ t r, t.Reached f → run t = some r → Sound f t.isFunction t.paths r)
    (hn : (Target.node n).Reached f) (hill : n.statement ≠ .illegal) (hret : n.statement ≠ .return_)
    (h : step run n (helper n.root n.statement n.context) = some r) :
    Sound f n.root.isFunction (after n.context) r := by
  rw [step_eq hill hret] at h
  rcases helper_spec n.root n.statement hn.1 with ⟨hc, hafter⟩ | ⟨hc, hafter⟩ |
    ⟨next, frame, context, hc, hdefer, hafter, -⟩
  · rw [hc] at h
    rw [hafter]
    cases hroot : n.root.isFunction with
    | true =>
      rw [if_pos (by simp [Target.isFunctionBody, hroot])] at h
      cases h
      have hisReturn : n.statement.isReturn = false := by
        unfold Statement.isReturn
        split
        · exact absurd ‹_› hret
        · rfl
      exact ⟨by simp [hisReturn], by simp, by simp⟩
    | false =>
      rw [if_neg (by simp [Target.isFunctionBody, hroot])] at h
      have hreached : (Target.node ⟨n.root, n.root.statement, []⟩).Reached f := ⟨by simp, hn.2⟩
      have htop := hrun _ _ hreached h
      rw [Target.paths, after, andThen_off, Target.isFunction, hroot] at htop
      exact htop.of_behavior (hn.2 hroot) (by simp)
  · rw [hc] at h
    rw [hafter]
    have hbehavior : Sound f false {.leaves} r := hrun .behavior _ trivial h
    have hends := hbehavior.leaves rfl
    refine ⟨?_, fun _ => hends, fun _ _ => hends⟩
    rw [hbehavior.missing]
    simp
  · rw [hc, if_neg (by simp [Target.isFunctionBody])] at h
    rw [← hafter]
    have hnext : (Target.node ⟨n.root, next, frame :: context⟩).Reached f := ⟨hdefer, hn.2⟩
    exact hrun _ _ hnext h

theorem run_sound : ∀ {fuel : Nat} {t : Target} {r : List Node}, t.Reached f → f.run fuel t = some r →
    Sound f t.isFunction t.paths r := by
  intro fuel
  induction fuel with
  | zero => intro t r _ h; cases h
  | succ fuel ih =>
    intro t r ht h
    have hrun : ∀ t r, t.Reached f → f.run fuel t = some r → Sound f t.isFunction t.paths r := fun t r => ih
    cases t with
    | behavior =>
      obtain ⟨s, hs, hr⟩ := Option.bind_eq_some_iff.1 h
      have htop : Sound f false _ r := ih (t := .node ⟨⟨false, s⟩, s, []⟩) ⟨by simp, fun _ => hs⟩ hr
      rw [Target.paths, after, andThen_off] at htop
      exact htop.of_behavior hs (by simp [Target.isFunction])
    | node n =>
      obtain ⟨root, o, context⟩ := n
      -- a statement within a statement
      have hchild : ∀ (s : Statement) (frame : Frame) (r' : List Node), frame ≠ .defer → o ≠ .illegal → o ≠ .return_ →
          step (f.run fuel) ⟨root, o, context⟩ (.node ⟨root, s, frame :: context⟩) = some r' →
          Sound f root.isFunction (andThen s.paths (after (frame :: context))) r' := by
        intro s frame r' hframe hill hret hr
        rw [step_child hill hret] at hr
        have hreached : (Target.node ⟨root, s, frame :: context⟩).Reached f :=
          ⟨by simpa [Target.Reached, hframe.symm] using ht.1, ht.2⟩
        exact ih hreached hr
      change Sound f root.isFunction (andThen o.paths (after context)) r
      cases o with
      | compound l =>
        cases l with
        | nil =>
          rw [Statement.paths, paths, off_andThen]
          exact step_sound hrun ht (by simp) (by simp) h
        | cons s l =>
          have := hchild s (.compound [] l) r (by simp) (by simp) (by simp) h
          rwa [after, ← andThen_assoc] at this
      | declarative c s =>
        have := hchild s (.declarative c) r (by simp) (by simp) (by simp) h
        rwa [after, ← andThen_leaves] at this
      | ifThen t =>
        obtain ⟨r1, rs, h1, hrest, rfl⟩ := appendMap_cons_eq_some.1 h
        obtain ⟨r2, rs, h2, hnil, rfl⟩ := appendMap_cons_eq_some.1 hrest
        cases hnil
        have hthen := hchild t .ifThen r1 (by simp) (by simp) (by simp) h1
        have hnext := step_sound hrun ht (by simp) (by simp) h2
        rw [Statement.paths, union_andThen, off_andThen, List.append_nil]
        exact hthen.append hnext
      | ifElse t e =>
        obtain ⟨r1, rs, h1, hrest, rfl⟩ := appendMap_cons_eq_some.1 h
        obtain ⟨r2, rs, h2, hnil, rfl⟩ := appendMap_cons_eq_some.1 hrest
        cases hnil
        have hthen := hchild t (.ifElseThen e) r1 (by simp) (by simp) (by simp) h1
        have helse := hchild e (.ifElseElse t) r2 (by simp) (by simp) (by simp) h2
        rw [Statement.paths, union_andThen, List.append_nil]
        exact hthen.append helse
      | defer s =>
        rw [Statement.paths, off_andThen]
        exact step_sound hrun ht (by simp) (by simp) h
      | illegal =>
        cases h
        refine ⟨?_, ?_, ?_⟩ <;> simp [Statement.paths, andThen]
      | return_ =>
        cases h
        refine ⟨?_, ?_, ?_⟩ <;> simp [Statement.paths, andThen, Statement.isReturn]
      | other =>
        rw [Statement.paths, off_andThen]
        exact step_sound hrun ht (by simp) (by simp) h

/-! ## That it ends -/

/-- For a target from which the check ends -/
def Function.Terminates (f : Function) (t : Target) : Prop := ∃ n, ∀ fuel ≥ n, ∃ r, f.run fuel t = some r

/-- What the ways to end say when the check ends: it goes on with the behavior only from the function, and only when
that comes to an end, and it runs off a statement only in the function. -/
def Function.Ending (f : Function) (isFunction : Bool) (ends : Set Ends) : Prop :=
  (.leaves ∈ ends → isFunction = true ∧ f.BehaviorEnds) ∧ (.off ∈ ends → isFunction = true)

theorem Function.Ending.mono (h : f.Ending isFunction ends) (hsub : ends' ⊆ ends) : f.Ending isFunction ends' :=
  ⟨fun hmem => h.1 (hsub hmem), fun hmem => h.2 (hsub hmem)⟩

theorem step_total {n : Node} (hbehavior : n.root.isFunction = true → f.BehaviorEnds → f.Terminates .behavior)
    (hn : (Target.node n).Reached f) (hill : n.statement ≠ .illegal) (hret : n.statement ≠ .return_)
    (hnext : ∀ (s : Statement) (context : List Frame), (Target.node ⟨n.root, s, context⟩).Reached f →
      sizeOf s + weight context < weight n.context →
      f.Ending n.root.isFunction (Target.node ⟨n.root, s, context⟩).paths → f.Terminates (.node ⟨n.root, s, context⟩))
    (h : f.Ending n.root.isFunction (after n.context)) :
    ∃ m, ∀ fuel ≥ m, ∃ r, step (f.run fuel) n (helper n.root n.statement n.context) = some r := by
  simp only [step_eq hill hret]
  rcases helper_spec n.root n.statement hn.1 with ⟨hc, hafter⟩ | ⟨hc, hafter⟩ |
    ⟨next, frame, context, hc, hdefer, hafter, hweight⟩
  · rw [hafter] at h
    have hroot := h.2 rfl
    rw [hc]
    exact ⟨0, fun fuel _ => ⟨[n], by rw [if_pos (by simp [Target.isFunctionBody, hroot])]⟩⟩
  · rw [hafter] at h
    obtain ⟨hroot, hends⟩ := h.1 rfl
    rw [hc]
    exact hbehavior hroot hends
  · rw [← hafter] at h
    obtain ⟨m, hm⟩ := hnext next (frame :: context) ⟨hdefer, hn.2⟩ hweight h
    rw [hc]
    exact ⟨m, fun fuel hfuel => by rw [if_neg (by simp [Target.isFunctionBody])]; exact hm fuel hfuel⟩

/-- One of two lists of results -/
theorem exists_appendMap_pair {g : Nat → Target → Option (List Node)} {a b : Target}
    (ha : ∃ m, ∀ fuel ≥ m, ∃ r, g fuel a = some r) (hb : ∃ m, ∀ fuel ≥ m, ∃ r, g fuel b = some r) :
    ∃ m, ∀ fuel ≥ m, ∃ r, appendMap (g fuel) [a, b] = some r := by
  obtain ⟨m, hm⟩ := ha
  obtain ⟨m', hm'⟩ := hb
  refine ⟨max m m', fun fuel hfuel => exists_appendMap.2 fun t ht => ?_⟩
  have hle := Nat.le_max_left m m'
  have hle' := Nat.le_max_right m m'
  rcases List.mem_cons.1 ht with rfl | ht
  · exact hm fuel (by omega)
  · obtain rfl := List.mem_singleton.1 ht
    exact hm' fuel (by omega)

/-- With one more for the statement itself -/
theorem terminates_succ {n : Node} {g : Nat → Option (List Node)} (hg : ∃ m, ∀ fuel ≥ m, ∃ r, g fuel = some r)
    (hrun : ∀ fuel, f.run (fuel + 1) (.node n) = g fuel) : f.Terminates (.node n) := by
  obtain ⟨m, hm⟩ := hg
  refine ⟨m + 1, fun fuel hfuel => ?_⟩
  obtain ⟨k, rfl⟩ : ∃ k, fuel = k + 1 := ⟨fuel - 1, by omega⟩
  rw [hrun]
  exact hm k (by omega)

theorem run_total {root : Root} (hbehavior : root.isFunction = true → f.BehaviorEnds → f.Terminates .behavior) :
    ∀ {k : Nat} {o : Statement} {context : List Frame}, sizeOf o + weight context ≤ k →
      (Target.node ⟨root, o, context⟩).Reached f →
      f.Ending root.isFunction (Target.node ⟨root, o, context⟩).paths → f.Terminates (.node ⟨root, o, context⟩) := by
  intro k
  induction k with
  | zero =>
    intro o context hk
    cases o <;> simp at hk
  | succ k ih =>
    intro o context hk hreached hends
    change f.Ending root.isFunction (andThen o.paths (after context)) at hends
    -- a statement within a statement
    have hchild : ∀ (s : Statement) (frame : Frame), frame ≠ .defer → o ≠ .illegal → o ≠ .return_ →
        sizeOf s + weight (frame :: context) ≤ k →
        f.Ending root.isFunction (andThen s.paths (after (frame :: context))) →
        ∃ m, ∀ fuel ≥ m, ∃ r, step (f.run fuel) ⟨root, o, context⟩ (.node ⟨root, s, frame :: context⟩) = some r := by
      intro s frame hframe hill hret hweight hends
      have hreached : (Target.node ⟨root, s, frame :: context⟩).Reached f :=
        ⟨by simpa [Target.Reached, hframe.symm] using hreached.1, hreached.2⟩
      obtain ⟨m, hm⟩ := ih hweight hreached hends
      exact ⟨m, fun fuel hfuel => by rw [step_child hill hret]; exact hm fuel hfuel⟩
    -- the continuation
    have hnext : o ≠ .illegal → o ≠ .return_ → f.Ending root.isFunction (after context) →
        ∃ m, ∀ fuel ≥ m, ∃ r, step (f.run fuel) ⟨root, o, context⟩ (helper root o context) = some r := by
      intro hill hret h
      refine step_total hbehavior hreached hill hret (fun s context' hreached' hweight hends' => ?_) h
      have hpos : 0 < sizeOf o := by cases o <;> simp +arith
      have hlt : sizeOf s + weight context' < weight context := hweight
      exact ih (by omega) hreached' hends'
    cases o with
    | compound l =>
      cases l with
      | nil =>
        rw [Statement.paths, paths, off_andThen] at hends
        exact terminates_succ (hnext (by simp) (by simp) hends) fun fuel => rfl
      | cons s l =>
        refine terminates_succ (hchild s (.compound [] l) (by simp) (by simp) (by simp) ?_ ?_) fun fuel => rfl
        · simp only [Statement.compound.sizeOf_spec, List.cons.sizeOf_spec, weight] at hk ⊢
          omega
        · rwa [after, ← andThen_assoc]
    | declarative c s =>
      refine terminates_succ (hchild s (.declarative c) (by simp) (by simp) (by simp) ?_ ?_) fun fuel => rfl
      · simp only [Statement.declarative.sizeOf_spec, weight] at hk ⊢
        omega
      · rwa [after, ← andThen_leaves]
    | ifThen t =>
      rw [Statement.paths, union_andThen, off_andThen] at hends
      refine terminates_succ (exists_appendMap_pair (hchild t .ifThen (by simp) (by simp) (by simp) ?_ ?_)
        (hnext (by simp) (by simp) ?_)) fun fuel => rfl
      · simp only [Statement.ifThen.sizeOf_spec, weight] at hk ⊢
        omega
      · exact hends.mono Set.subset_union_left
      · exact hends.mono Set.subset_union_right
    | ifElse t e =>
      rw [Statement.paths, union_andThen] at hends
      refine terminates_succ (exists_appendMap_pair (hchild t (.ifElseThen e) (by simp) (by simp) (by simp) ?_ ?_)
        (hchild e (.ifElseElse t) (by simp) (by simp) (by simp) ?_ ?_)) fun fuel => rfl
      · simp only [Statement.ifElse.sizeOf_spec, weight] at hk ⊢
        omega
      · exact hends.mono Set.subset_union_left
      · simp only [Statement.ifElse.sizeOf_spec, weight] at hk ⊢
        omega
      · exact hends.mono Set.subset_union_right
    | defer s =>
      rw [Statement.paths, off_andThen] at hends
      exact terminates_succ (hnext (by simp) (by simp) hends) fun fuel => rfl
    | illegal => exact terminates_succ ⟨0, fun _ _ => ⟨[], rfl⟩⟩ fun fuel => rfl
    | return_ => exact terminates_succ ⟨0, fun _ _ => ⟨_, rfl⟩⟩ fun fuel => rfl
    | other =>
      rw [Statement.paths, off_andThen] at hends
      exact terminates_succ (hnext (by simp) (by simp) hends) fun fuel => rfl

/-- The behavior ends when no path leaves it. -/
theorem behavior_terminates (h : f.BehaviorEnds) : f.Terminates .behavior := by
  obtain ⟨s, hs, hoff, hleaves⟩ := h
  have hreached : (Target.node ⟨⟨false, s⟩, s, []⟩).Reached f := ⟨by simp, fun _ => hs⟩
  have hends : f.Ending false (Target.node ⟨⟨false, s⟩, s, []⟩).paths := by
    rw [Target.paths, after, andThen_off]
    exact ⟨fun h => absurd h hleaves, fun h => absurd h hoff⟩
  obtain ⟨m, hm⟩ := run_total (fun h => absurd h (by simp)) (Nat.le_refl _) hreached hends
  refine ⟨m + 1, fun fuel hfuel => ?_⟩
  obtain ⟨k, rfl⟩ : ∃ k, fuel = k + 1 := ⟨fuel - 1, by omega⟩
  rw [Function.run, hs]
  exact hm k (by omega)

/-! ## The errors -/

theorem collapseIf_eq_nil {l : List Node} : collapseIf l = [] ↔ l = [] := by
  cases l with
  | nil => simp [collapseIf]
  | cons n l =>
    rw [collapseIf]
    split <;> simp

theorem deleteDuplicates_eq_nil {l : List Node} : deleteDuplicates Node.place l = [] ↔ l = [] := by
  cases l <;> simp [deleteDuplicates]

variable {body : Statement}

/-- What the errors say when there is a result. -/
theorem missingReturn_sound {fuel : Nat} {errors : List (Option Node)} (hvoid : f.isVoid = false)
    (hbody : f.statement = some body) (h : f.missingReturn fuel = some errors) :
    (errors = [] ↔ .off ∉ body.paths) ∧ (.leaves ∈ body.paths → f.BehaviorEnds) := by
  rw [Function.missingReturn, hvoid, hbody] at h
  obtain ⟨statements, hrun, rfl⟩ := Option.map_eq_some_iff.1 h
  have hreached : (Target.node ⟨⟨true, body⟩, body, []⟩).Reached f := ⟨by simp, by simp⟩
  have hsound := run_sound hreached hrun
  rw [Target.paths, after, andThen_off] at hsound
  refine ⟨?_, hsound.leaves⟩
  have hmissing := hsound.missing
  rw [Target.isFunction, eq_self_iff_true, true_and] at hmissing
  rw [collapseIf_eq_nil, deleteDuplicates_eq_nil, ← hmissing]
  simp

theorem missingReturn_total (hvoid : f.isVoid = false) (hbody : f.statement = some body)
    (h : .leaves ∈ body.paths → f.BehaviorEnds) : ∃ fuel errors, f.missingReturn fuel = some errors := by
  have hreached : (Target.node ⟨⟨true, body⟩, body, []⟩).Reached f := ⟨by simp, by simp⟩
  have hends : f.Ending true (Target.node ⟨⟨true, body⟩, body, []⟩).paths := by
    rw [Target.paths, after, andThen_off]
    exact ⟨fun hleaves => ⟨rfl, h hleaves⟩, fun _ => rfl⟩
  obtain ⟨m, hm⟩ := run_total (fun _ => behavior_terminates) (Nat.le_refl _) hreached hends
  obtain ⟨r, hr⟩ := hm m (Nat.le_refl m)
  exact ⟨m, _, by rw [Function.missingReturn, hvoid, hbody]; simp only [hr]; rfl⟩

/-- Every control path through a statement ends in a return or in an illegal. -/
def Statement.Returns (s : Statement) : Prop := ∀ e ∈ s.paths, e = .returned ∨ e = .illegal

/-- The check ends, and it reports no error just when every control path ends in a return or in an illegal. -/
def Function.Checked (f : Function) (body : Statement) : Prop :=
  ∃ fuel errors, f.missingReturn fuel = some errors ∧ (errors = [] ↔ body.Returns)

theorem Statement.returns_iff (s : Statement) : s.Returns ↔ .off ∉ s.paths ∧ .leaves ∉ s.paths := by
  constructor
  · intro h
    exact ⟨fun hmem => by simpa using h _ hmem, fun hmem => by simpa using h _ hmem⟩
  · rintro ⟨hoff, hleaves⟩ e he
    cases e with
    | off => exact absurd he hoff
    | returned => exact .inl rfl
    | illegal => exact .inr rfl
    | leaves => exact absurd he hleaves

/-- The check is right just where no path leaves a declarative statement in the body at its end. Apart from that it
is so by accident, when the behavior comes to an end and another path runs off the body. -/
theorem Function.checked_iff (hvoid : f.isVoid = false) (hbody : f.statement = some body) :
    f.Checked body ↔ .leaves ∉ body.paths ∨ (f.BehaviorEnds ∧ .off ∈ body.paths) := by
  rw [Function.Checked, Statement.returns_iff]
  constructor
  · rintro ⟨fuel, errors, h, hiff⟩
    obtain ⟨hnil, hends⟩ := missingReturn_sound hvoid hbody h
    by_cases hleaves : .leaves ∈ body.paths
    · refine .inr ⟨hends hleaves, ?_⟩
      rw [hnil] at hiff
      tauto
    · exact .inl hleaves
  · intro h
    have hends : .leaves ∈ body.paths → f.BehaviorEnds := fun hleaves => (h.resolve_left (not_not.2 hleaves)).1
    obtain ⟨fuel, errors, hrun⟩ := missingReturn_total hvoid hbody hends
    refine ⟨fuel, errors, hrun, ?_⟩
    rw [(missingReturn_sound hvoid hbody hrun).1]
    tauto

/-- `int f() { if (b) return 1; else { defer ...; } return 2; }` -/
def early : Statement := .compound [.ifElse .return_ (.compound [.defer .other]), .return_]

theorem Function.checked_early : (⟨false, some early, none⟩ : Function).Checked early :=
  (Function.checked_iff rfl rfl).2 (.inl (by simp [early, Statement.paths, paths, andThen]))

/-- `int f() { [b] {} return 1; }` in an empty behavior -/
def guarded : Statement := .compound [.declarative .guard (.compound []), .return_]

theorem Function.not_checked_guarded : ¬ (⟨false, some guarded, some (.compound [])⟩ : Function).Checked guarded := by
  rintro ⟨fuel, errors, h, -⟩
  obtain ⟨s, hs, hoff, -⟩ := (missingReturn_sound rfl rfl h).2 (by simp [guarded, Statement.paths, paths, andThen])
  cases hs
  exact hoff (by simp [Statement.paths, paths])

end Dezyne.MissingReturn
