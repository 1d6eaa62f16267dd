import Dezyne.Lib.Process
import Dezyne.Rtc
/-!
# The constraint process of an interface

`lts->makreel` prints the LTS of an interface as processes, one for the initial
state and for each state that has a state event. Between these the edges are
printed as a tree. Next to the actions and replies of a state in a tree it
prints the others of the interface, which lead to `Non_Compliance`; and a
trigger in whose tree there is an illegal leads to `Constrained_Illegal`.
-/

namespace Dezyne

open Lts Process

/-! ## Events -/

/-- `trigger?` -/
def triggerEvent (label : String) : Bool := stringContains label "'in("

/-- `action?` -/
def actionEvent (label : String) : Bool := stringContains label "'out("

/-- `flush?` -/
def flushEvent (label : String) : Bool := stringContains label "'flush"

/-- `reply?` -/
def replyEvent (label : String) : Bool := stringContains label "'reply("

/-- `error?` -/
def errorEvent (label : String) : Bool := label ∈ ["range_error", "missing_reply", "second_reply"]

/-- The type of an in-event, with what `ast:values` reads of it; names are full. -/
inductive ReplyType where
  | void
  | bool
  | subint (first last : Int)
  | int
  | enum (name : String) (fields : List String)

/-- A `<literal>`, or an `<enum-literal>` with the full name of its type. -/
inductive ReplyValue where
  | void
  | bool (value : Bool)
  | int (value : Int)
  | enum (type field : String)
deriving DecidableEq

/-- `ast:values` -/
def ReplyType.values : ReplyType → List ReplyValue
  | .void => [.void]
  | .bool => [.bool false, .bool true]
  | .subint first last => (List.range (last - first + 1).toNat).map fun i => .int (first + i)
  | .int => [.int 0]
  | .enum name fields => fields.map (.enum name)

/-- What `lts->makreel` reads of an interface. -/
structure ConstraintModel where
  name : String
  outEvents : List String
  inTypes : List ReplyType

/-- `value->string` -/
def ReplyValue.value : ReplyValue → String
  | .void => "void"
  | .bool false => "false"
  | .bool true => "true"
  | .int n => toString n
  | .enum type field => type ++ field

/-- `type->string` of the type of a value -/
def ReplyValue.type (name : String) : ReplyValue → String
  | .void => name ++ "Void"
  | .bool _ => name ++ "Bool"
  | .int _ => name ++ "Int"
  | .enum type _ => type

/-- `model-actions` -/
def modelActions (m : ConstraintModel) : List String :=
  m.outEvents.map fun event => m.name ++ "out(" ++ m.name ++ "action(" ++ m.name ++ "out'" ++ event ++ "))"

/-- `model-replies` -/
def modelReplies (m : ConstraintModel) : List String :=
  ((m.inTypes.flatMap ReplyType.values).eraseDups).map fun v =>
    m.name ++ "reply(" ++ v.type m.name ++ "(" ++ v.value ++ "))"

/-! ## What is printed -/

/-- A label, or a marker. -/
inductive Act where
  | label (l : String)
  | compliance
  | constrainedLegal
deriving DecidableEq

inductive ProcessName where
  | constraint (state : Nat)
  | nonCompliance
  | constrainedIllegal
deriving DecidableEq

abbrev Printed := Term Act ProcessName

def Act.text : Act → String
  | .label l => l
  | .compliance => "compliance"
  | .constrainedLegal => "constrained_legal"

def ProcessName.text (name : String) : ProcessName → String
  | .constraint state => name ++ "constraint" ++ toString state
  | .nonCompliance => "Non_Compliance"
  | .constrainedIllegal => "Constrained_Illegal"

mutual
/-- The text of a term, up to where its lines end. -/
def termText (name : String) : Printed → String
  | .delta => "delta"
  | .process p => p.text name
  | .seq a t => a.text ++ " . " ++ termText name t
  | .group ts => "(" ++ " + ".intercalate (termTexts name ts) ++ ")"
def termTexts (name : String) : List Printed → List String
  | [] => []
  | t :: ts => termText name t :: termTexts name ts
end

/-- `next` -/
def nextEdges (lts : Lts) (e : Edge String) : List (Edge String) :=
  if (node lts e.toState).rtc then [] else (node lts e.toState).edges

/-- `any`, with a predicate that may not end. -/
def anyEnds {α : Type} (p : α → Option Bool) : List α → Option Bool
  | [] => some false
  | a :: l => do
    if ← p a then return true
    anyEnds p l

/-- `transition-illegal?` -/
def transitionIllegal (lts : Lts) : Nat → Edge String → Option Bool
  | 0, _ => none
  | fuel + 1, e =>
    if illegalEvent e.label then some true else anyEnds (transitionIllegal lts fuel) (nextEdges lts e)

/-- `lset-union` -/
def lsetUnion (l l' : List String) : List String := l'.foldl (fun l x => if x ∈ l then l else x :: l) l

/-- The markers printed after an event. -/
def markers (first : Bool) (event : String) : List Act :=
  (if triggerEvent event || stateEvent event || flushEvent event then [] else [.compliance]) ++
    if first && triggerEvent event then [.constrainedLegal] else []

/-- The branches to `Non_Compliance`. -/
def nonCompliances (events : List String) : List Printed :=
  events.map fun e => .seq (.label e) (.process .nonCompliance)

/-- The event of a transition, and what follows it. -/
def printBranch (next : Edge String → Option Printed) (first : Bool) (transition : Edge String) :
    Option Printed :=
  if errorEvent transition.label then some .delta
  else (next transition).map fun t => .seq (.label transition.label) (after (markers first transition.label) t)

/-- The tree of the other transitions, if there are any. -/
def printRest (transitions : List (Edge String)) (tree : Option Printed) : Option (List Printed) :=
  if transitions = [] then some [] else tree.map fun t => [t]

/-- The branches to `Non_Compliance` next to a transition. -/
def printOthers (actions replies : List String) (first : Bool) (transitions : List (Edge String))
    (event : String) (seen : List String) : List Printed :=
  let labels := transitions.map Edge.label
  let events := lsetUnion seen labels
  let replies := if (labels.filter replyEvent).length > 1 then [] else replies.filter (· ∉ events)
  let actions := if (labels.filter actionEvent).length > 1 then [] else actions.filter (· ∉ events)
  if !first && (actionEvent event || replyEvent event) then nonCompliances actions ++ nonCompliances replies else []

/-- `print-tree` without the trees of the next transitions -/
def printSiblings (actions replies : List String) (next : Edge String → Option Printed) (first : Bool) :
    List (Edge String) → List String → Option Printed
  | [], _ => none
  | transition :: transitions, seen => do
    let event := transition.label
    let fork := (!first && (actionEvent event || replyEvent event)) || transitions ≠ []
    let branch ← printBranch next first transition
    let others := printOthers actions replies first (transition :: transitions) event seen
    let rest ← printRest transitions (printSiblings actions replies next first transitions (event :: seen))
    return if fork then .group (branch :: others ++ rest) else branch

/-- What is printed after an event and its markers. -/
def printNext (lts : Lts) (tree : List (Edge String) → Option Printed) (e : Edge String) : Option Printed :=
  if nextEdges lts e = [] then some (.process (.constraint e.toState)) else tree (nextEdges lts e)

/-- `print-tree` -/
def printTree (lts : Lts) (actions replies : List String) : Nat → Bool → List (Edge String) → Option Printed
  | 0, _, _ => none
  | fuel + 1, first, transitions =>
    printSiblings actions replies (printNext lts (printTree lts actions replies fuel false)) first transitions []

/-- `partition` -/
def partitionEnds {α : Type} (p : α → Option Bool) : List α → Option (List α × List α)
  | [] => some ([], [])
  | a :: l => do
    let b ← p a
    let (yes, no) ← partitionEnds p l
    return if b then (a :: yes, no) else (yes, a :: no)

/-- `print-transitions` -/
def printTransitions (lts : Lts) (actions replies : List String) (transitions : List (Edge String)) :
    Option (List Printed) := do
  let (illegals, transitions) ← partitionEnds (transitionIllegal lts (lts.length + 1)) transitions
  let topActions := (transitions.map Edge.label).filter actionEvent
  let tree ← printRest transitions (printTree lts actions replies (lts.length + 1) true transitions)
  return illegals.map (fun e => .seq (.label e.label) (.process .constrainedIllegal)) ++ tree ++
    nonCompliances (actions.filter (· ∉ topActions))

/-- What `print-node` prints of a state that has edges. -/
def printBody (lts : Lts) (actions replies : List String) (transitions : List (Edge String)) :
    Option (List Printed) :=
  if transitions = [] then some [] else printTransitions lts actions replies transitions

/-- `print-node` -/
def printNode (lts : Lts) (actions replies : List String) (i : Nat) : Option (List (Nat × List Printed)) :=
  if i = lts.initial ∨ (node lts i).rtc then
    (printBody lts actions replies (node lts i).edges).map fun body => [((node lts i).state, .delta :: body)]
  else some []

/-- `lts->makreel`: the processes printed, by their state; the first one is that of the initial state. -/
def ltsMakreel (m : ConstraintModel) (lts : Lts) : Option (List (Nat × List Printed)) :=
  ((List.range lts.length).mapM (printNode lts (modelActions m) (modelReplies m))).map List.flatten

/-! ## Illegals -/

/-- An illegal edge can be reached over an edge before the next state of the result. -/
inductive IllegalAhead (lts : Lts) : Edge String → Prop
  | here {e : Edge String} : illegalEvent e.label = true → IllegalAhead lts e
  | later {e e' : Edge String} : e' ∈ nextEdges lts e → IllegalAhead lts e' → IllegalAhead lts e

section
variable {lts : Lts} {e : Edge String} {α : Type} {p : α → Option Bool} {l : List α}

theorem anyEnds_true (h : anyEnds p l = some true) : ∃ a ∈ l, p a = some true := by
  induction l with
  | nil => cases h
  | cons a l ih =>
    obtain ⟨b, hb, h⟩ := Option.bind_eq_some_iff.1 h
    cases b with
    | true => exact ⟨a, by simp, hb⟩
    | false =>
      obtain ⟨a', ha', hp⟩ := ih h
      exact ⟨a', by simp [ha'], hp⟩

theorem anyEnds_false (h : anyEnds p l = some false) : ∀ a ∈ l, p a = some false := by
  induction l with
  | nil => intro a ha; cases ha
  | cons a l ih =>
    obtain ⟨b, hb, h⟩ := Option.bind_eq_some_iff.1 h
    cases b with
    | true => cases h
    | false =>
      intro a' ha'
      rcases List.mem_cons.1 ha' with rfl | ha'
      · exact hb
      · exact ih h a' ha'

theorem anyEnds_none (h : anyEnds p l = none) : ∃ a ∈ l, p a = none := by
  induction l with
  | nil => cases h
  | cons a l ih =>
    cases hb : p a with
    | none => exact ⟨a, by simp, hb⟩
    | some b =>
      rw [anyEnds, hb] at h
      cases b with
      | true => cases h
      | false =>
        obtain ⟨a', ha', hp⟩ := ih h
        exact ⟨a', by simp [ha'], hp⟩

theorem partitionEnds_spec : ∀ {l yes no : List α}, partitionEnds p l = some (yes, no) →
    (∀ a, a ∈ yes ↔ a ∈ l ∧ p a = some true) ∧ ∀ a, a ∈ no ↔ a ∈ l ∧ p a = some false := by
  intro l
  induction l with
  | nil =>
    intro yes no h
    obtain ⟨rfl, rfl⟩ := Prod.mk.inj (Option.some.inj h)
    simp
  | cons a l ih =>
    intro yes no h
    obtain ⟨b, hb, h⟩ := Option.bind_eq_some_iff.1 h
    obtain ⟨⟨yes', no'⟩, hl, h⟩ := Option.bind_eq_some_iff.1 h
    obtain ⟨hyes, hno⟩ := ih hl
    cases b with
    | true =>
      obtain ⟨rfl, rfl⟩ := Prod.mk.inj (Option.some.inj h)
      refine ⟨fun x => ?_, fun x => ?_⟩
      · rw [List.mem_cons, List.mem_cons, hyes, or_and_right, or_congr_left]
        exact (and_iff_left_of_imp fun hx => hx ▸ hb).symm
      · rw [List.mem_cons, hno, or_and_right]
        refine (or_iff_right ?_).symm
        rintro ⟨rfl, hx⟩
        rw [hb] at hx
        cases hx
    | false =>
      obtain ⟨rfl, rfl⟩ := Prod.mk.inj (Option.some.inj h)
      refine ⟨fun x => ?_, fun x => ?_⟩
      · rw [List.mem_cons, hyes, or_and_right]
        refine (or_iff_right ?_).symm
        rintro ⟨rfl, hx⟩
        rw [hb] at hx
        cases hx
      · rw [List.mem_cons, List.mem_cons, hno, or_and_right, or_congr_left]
        exact (and_iff_left_of_imp fun hx => hx ▸ hb).symm

theorem mem_partitionEnds : ∀ {l yes no : List α}, partitionEnds p l = some (yes, no) → ∀ a ∈ l, a ∈ yes ∨
    a ∈ no := by
  intro l
  induction l with
  | nil => intro yes no _ a ha; cases ha
  | cons a l ih =>
    intro yes no h
    obtain ⟨b, hb, h⟩ := Option.bind_eq_some_iff.1 h
    obtain ⟨⟨yes', no'⟩, hl, h⟩ := Option.bind_eq_some_iff.1 h
    have hrest := ih hl
    intro x hx
    cases b with
    | true =>
      obtain ⟨rfl, rfl⟩ := Prod.mk.inj (Option.some.inj h)
      rcases List.mem_cons.1 hx with rfl | hx
      · exact .inl List.mem_cons_self
      · exact (hrest x hx).imp_left (List.mem_cons_of_mem _)
    | false =>
      obtain ⟨rfl, rfl⟩ := Prod.mk.inj (Option.some.inj h)
      rcases List.mem_cons.1 hx with rfl | hx
      · exact .inr List.mem_cons_self
      · exact (hrest x hx).imp_right (List.mem_cons_of_mem _)

theorem partitionEnds_ends (h : ∀ a ∈ l, p a ≠ none) : ∃ yes no, partitionEnds p l = some (yes, no) := by
  induction l with
  | nil => exact ⟨[], [], rfl⟩
  | cons a l ih =>
    obtain ⟨b, hb⟩ := Option.ne_none_iff_exists'.1 (h a (by simp))
    obtain ⟨yes, no, hl⟩ := ih fun a ha => h a (by simp [ha])
    rw [partitionEnds, hb, hl]
    cases b
    · exact ⟨yes, a :: no, rfl⟩
    · exact ⟨a :: yes, no, rfl⟩

theorem transitionIllegal_iff : ∀ {fuel e b}, transitionIllegal lts fuel e = some b →
    (b = true ↔ IllegalAhead lts e) := by
  intro fuel
  induction fuel with
  | zero => intro e b h; cases h
  | succ fuel ih =>
    intro e b h
    rw [transitionIllegal] at h
    by_cases hill : illegalEvent e.label = true
    · rw [if_pos hill] at h
      obtain rfl := Option.some.inj h
      exact ⟨fun _ => .here hill, fun _ => rfl⟩
    · rw [if_neg hill] at h
      cases b with
      | true =>
        obtain ⟨e', he', h'⟩ := anyEnds_true h
        exact ⟨fun _ => .later he' ((ih h').1 rfl), fun _ => rfl⟩
      | false =>
        refine ⟨fun hb => (by cases hb), fun hahead => ?_⟩
        cases hahead with
        | here hh => exact absurd hh hill
        | later he' h' => exact absurd ((ih (anyEnds_false h _ he')).2 h') (by simp)

end

/-! ## The tree ends -/

/-- Every cycle passes a state of the result. -/
def RtcPasses (lts : Lts) : Prop :=
  ∀ s c, c ≠ [] → Trace lts s c s → ∃ e ∈ c, (node lts e.fromState).rtc = true

section
variable {lts : Lts} {e : Edge String}

theorem mem_nextEdges {e' : Edge String} : e' ∈ nextEdges lts e ↔
    (node lts e.toState).rtc = false ∧ e' ∈ (node lts e.toState).edges := by
  rw [nextEdges]
  split <;> rename_i h <;> simp [h]

/-- What goes on from each edge to one of the next ones does so less often than there are states. -/
theorem not_endless (hw : WellFormed lts) (hc : RtcPasses lts) {P : Nat → Edge String → Prop}
    (hstep : ∀ k e, P (k + 1) e → ∃ e' ∈ nextEdges lts e, P k e') {s : Nat}
    (he : e ∈ (node lts s).edges) : ¬ P (lts.length + 1) e := by
  intro hbad
  have hwalk : ∀ k e, P k e → ∃ p t, Trace lts e.toState p t ∧ p.length = k ∧
      ∀ f ∈ p, ∃ u, f ∈ (node lts u).edges ∧ (node lts u).rtc = false := by
    intro k
    induction k with
    | zero => intro e _; exact ⟨[], _, .nil _, rfl, by simp⟩
    | succ k ih =>
      intro e h
      obtain ⟨e', he', h'⟩ := hstep k e h
      obtain ⟨hrtc, he'⟩ := mem_nextEdges.1 he'
      obtain ⟨p, t, hp, hlen, hall⟩ := ih e' h'
      refine ⟨e' :: p, t, .cons ⟨he', rfl⟩ hp, by rw [List.length_cons, hlen], fun f hf => ?_⟩
      rcases List.mem_cons.1 hf with rfl | hf
      · exact ⟨_, he', hrtc⟩
      · exact hall f hf
  obtain ⟨p, t, hp, hlen, hall⟩ := hwalk _ _ hbad
  have hto : e.toState < lts.length := hw.toState s e he
  obtain ⟨a, c, b, u, rfl, hne, -, hcycle, -⟩ := hp.exists_cycle (U := List.range lts.length)
    (fun a b u _ ha _ => mem_range_of_trace hw hto ha) (by rw [List.length_range]; omega)
  obtain ⟨f, hf, hrtc⟩ := hc u c hne hcycle
  obtain ⟨v, hv, hnot⟩ := hall f (by simp [hf])
  rw [hw.fromState v f hv, hnot] at hrtc
  cases hrtc

theorem transitionIllegal_ends (hw : WellFormed lts) (hc : RtcPasses lts) {s : Nat}
    (he : e ∈ (node lts s).edges) : transitionIllegal lts (lts.length + 1) e ≠ none := by
  refine not_endless (P := fun k e => transitionIllegal lts k e = none) hw hc (fun k e h => ?_) he
  rw [transitionIllegal] at h
  split at h
  · cases h
  · exact anyEnds_none h

section
variable {actions replies seen : List String} {next : Edge String → Option Printed} {first : Bool}
  {l : List (Edge String)} {t : Printed}

theorem printRest_none {tree : Option Printed} (h : printRest l tree = none) : l ≠ [] ∧ tree = none := by
  rw [printRest] at h
  split at h
  · cases h
  · rename_i hl
    exact ⟨hl, by simpa using h⟩

/-- The siblings are printed if what follows each of them is. -/
theorem printSiblings_none : ∀ {l seen}, l ≠ [] → printSiblings actions replies next first l seen = none →
    ∃ e ∈ l, next e = none := by
  intro l
  induction l with
  | nil => intro seen h; exact absurd rfl h
  | cons e l ih =>
    intro seen _ h
    rw [printSiblings] at h
    cases hb : printBranch next first e with
    | none =>
      rw [printBranch] at hb
      split at hb
      · cases hb
      · exact ⟨e, by simp, by simpa using hb⟩
    | some branch =>
      cases hr : printRest l (printSiblings actions replies next first l (e.label :: seen)) with
      | some rest =>
        simp only [hb, hr, Option.bind_eq_bind, Option.bind_some] at h
        cases h
      | none =>
        obtain ⟨hl, hn⟩ := printRest_none hr
        obtain ⟨e', he', hn⟩ := ih hl hn
        exact ⟨e', by simp [he'], hn⟩

theorem printNext_ends (actions replies : List String) (hw : WellFormed lts) (hc : RtcPasses lts) {s : Nat}
    (he : e ∈ (node lts s).edges) :
    printNext lts (printTree lts actions replies lts.length false) e ≠ none := by
  intro hn
  refine not_endless (P := fun k e => k = 0 ∨ printNext lts (printTree lts actions replies (k - 1) false) e = none)
    hw hc (fun k e h => ?_) he (.inr hn)
  have h := h.resolve_left (Nat.succ_ne_zero k)
  rw [printNext] at h
  split at h
  · cases h
  · rename_i hne
    cases k with
    | zero =>
      obtain ⟨e', he'⟩ := List.exists_mem_of_ne_nil _ hne
      exact ⟨e', he', .inl rfl⟩
    | succ k =>
      obtain ⟨e', he', hn⟩ := printSiblings_none hne h
      exact ⟨e', he', .inr hn⟩

theorem printTree_ends (actions replies : List String) (first : Bool) (hw : WellFormed lts)
    (hc : RtcPasses lts) {s : Nat} {es : List (Edge String)} (hne : es ≠ [])
    (hes : ∀ e ∈ es, e ∈ (node lts s).edges) : printTree lts actions replies (lts.length + 1) first es ≠ none := by
  intro h
  obtain ⟨e, he, hn⟩ := printSiblings_none hne h
  exact printNext_ends actions replies hw hc (hes e he) hn

/-- Where the siblings are printed, so is what follows each of them. -/
theorem printSiblings_next : ∀ {l seen t}, printSiblings actions replies next first l seen = some t →
    ∀ e ∈ l, errorEvent e.label = false → ∃ c, next e = some c := by
  intro l
  induction l with
  | nil => intro seen t _ e he; cases he
  | cons d l ih =>
    intro seen t h e he herr
    rw [printSiblings] at h
    obtain ⟨branch, hb, h⟩ := Option.bind_eq_some_iff.1 h
    obtain ⟨rest, hr, -⟩ := Option.bind_eq_some_iff.1 h
    rcases List.mem_cons.1 he with rfl | he
    · rw [printBranch, herr] at hb
      obtain ⟨c, hc, -⟩ := Option.map_eq_some_iff.1 hb
      exact ⟨c, hc⟩
    · rw [printRest, if_neg (List.ne_nil_of_mem he)] at hr
      obtain ⟨t', ht', -⟩ := Option.map_eq_some_iff.1 hr
      exact ih ht' e he herr

/-! ## The steps of a tree -/

theorem mem_lsetUnion {x : String} : ∀ {l' l : List String}, x ∈ lsetUnion l l' ↔ x ∈ l ∨ x ∈ l' := by
  intro l'
  induction l' with
  | nil => intro l; simp [lsetUnion]
  | cons y l' ih =>
    intro l
    have hcons : lsetUnion l (y :: l') = lsetUnion (if y ∈ l then l else y :: l) l' := rfl
    rw [hcons, ih]
    split
    · rename_i hy
      rw [List.mem_cons]
      constructor
      · rintro (h | h)
        · exact .inl h
        · exact .inr (.inr h)
      · rintro (h | rfl | h)
        · exact .inl h
        · exact .inl hy
        · exact .inr h
    · rw [List.mem_cons, List.mem_cons]
      tauto

/-- The others of the interface are printed next to a transition: it is an action or a reply, and no second
action, or no second reply, comes from it on. -/
def OthersPrinted (actions replies : List String) (l : List (Edge String)) (b : String) : Prop :=
  ∃ e l', l = e :: l' ∧ (actionEvent e.label || replyEvent e.label) = true ∧
    (b ∈ actions ∧ ((l.map Edge.label).filter actionEvent).length ≤ 1 ∨
      b ∈ replies ∧ ((l.map Edge.label).filter replyEvent).length ≤ 1)

/-- The steps of the branches to `Non_Compliance`. -/
theorem step_nonCompliances {defs : ProcessName → Option (List Printed)} {events : List String} {a : Act}
    {u : Printed} :
    (∃ t ∈ nonCompliances events, Step defs t a u) ↔ ∃ b ∈ events, a = .label b ∧ u = .process .nonCompliance := by
  constructor
  · rintro ⟨t, ht, h⟩
    obtain ⟨b, hb, rfl⟩ := List.mem_map.1 ht
    exact ⟨b, hb, step_seq.1 h⟩
  · rintro ⟨b, hb, h⟩
    exact ⟨_, List.mem_map_of_mem hb, step_seq.2 h⟩

theorem step_others {defs : ProcessName → Option (List Printed)} {e : Edge String} {a : Act} {u : Printed} :
    (∃ t ∈ printOthers actions replies first (e :: l) e.label seen, Step defs t a u) ↔
      ∃ b, a = .label b ∧ u = .process .nonCompliance ∧ first = false ∧ b ∉ seen ∧ (∀ d ∈ e :: l, d.label ≠ b) ∧
        OthersPrinted actions replies (e :: l) b := by
  have hevents : ∀ b, b ∉ lsetUnion seen ((e :: l).map Edge.label) ↔ b ∉ seen ∧ ∀ d ∈ e :: l, d.label ≠ b := by
    intro b
    rw [mem_lsetUnion, not_or, List.mem_map]
    simp
  have hif : ∀ (n : Nat) (events : List String) (b : String), (b ∈ if n > 1 then [] else events) ↔ n ≤ 1 ∧ b ∈ events := by
    intro n events b
    split
    · simp
      omega
    · rename_i hn
      simp [Nat.le_of_not_lt hn]
  unfold printOthers
  cases first with
  | true => simp
  | false =>
    by_cases hany : (actionEvent e.label || replyEvent e.label) = true
    · simp only [hany, Bool.not_false, Bool.and_self, if_true, List.mem_append, or_and_right, exists_or,
        step_nonCompliances, hif, List.mem_filter, decide_eq_true_eq, hevents]
      constructor
      · rintro (⟨b, ⟨hn, hb, hs, hd⟩, ha, hu⟩ | ⟨b, ⟨hn, hb, hs, hd⟩, ha, hu⟩)
        · exact ⟨b, ha, hu, trivial, hs, hd, e, l, rfl, hany, .inl ⟨hb, hn⟩⟩
        · exact ⟨b, ha, hu, trivial, hs, hd, e, l, rfl, hany, .inr ⟨hb, hn⟩⟩
      · rintro ⟨b, ha, hu, -, hs, hd, -, -, -, -, ⟨hb, hn⟩ | ⟨hb, hn⟩⟩
        · exact .inl ⟨b, ⟨hn, hb, hs, hd⟩, ha, hu⟩
        · exact .inr ⟨b, ⟨hn, hb, hs, hd⟩, ha, hu⟩
    · rw [if_neg (by simpa using hany)]
      constructor
      · rintro ⟨t, ht, -⟩
        cases ht
      · rintro ⟨b, -, -, -, -, -, d, l', heq, hd, -⟩
        obtain ⟨rfl, -⟩ := List.cons.inj heq
        exact absurd hd hany

/-- The steps of the tree of some siblings: their events, and the others of the interface. -/
theorem step_siblings {defs : ProcessName → Option (List Printed)} {a : Act} {u : Printed} : ∀ {l seen t},
    printSiblings actions replies next first l seen = some t → (Step defs t a u ↔
      (∃ e ∈ l, errorEvent e.label = false ∧ a = .label e.label ∧
        ∃ c, next e = some c ∧ u = after (markers first e.label) c) ∨
      ∃ b, a = .label b ∧ u = .process .nonCompliance ∧ first = false ∧ b ∉ seen ∧ (∀ d ∈ l, d.label ≠ b) ∧
        ∃ l', l' <:+ l ∧ OthersPrinted actions replies l' b) := by
  intro l
  induction l with
  | nil => intro seen t h; cases h
  | cons e l ih =>
    intro seen t h
    rw [printSiblings] at h
    obtain ⟨branch, hb, h⟩ := Option.bind_eq_some_iff.1 h
    obtain ⟨rest, hr, h⟩ := Option.bind_eq_some_iff.1 h
    obtain rfl := Option.some.inj h
    -- an edge with an error has no branch
    have hbranch : Step defs branch a u ↔ errorEvent e.label = false ∧ a = .label e.label ∧
        ∃ c, next e = some c ∧ u = after (markers first e.label) c := by
      rw [printBranch] at hb
      by_cases herr : errorEvent e.label = true
      · rw [if_pos herr] at hb
        obtain rfl := Option.some.inj hb
        simp [step_delta, herr]
      · rw [if_neg herr] at hb
        obtain ⟨c, hc, rfl⟩ := Option.map_eq_some_iff.1 hb
        rw [step_seq, hc]
        simp [Bool.not_eq_true] at herr
        simp [herr]
    -- the siblings after the first, which have one more label seen
    have hrest : (∃ t ∈ rest, Step defs t a u) ↔
        (∃ e ∈ l, errorEvent e.label = false ∧ a = .label e.label ∧
          ∃ c, next e = some c ∧ u = after (markers first e.label) c) ∨
        ∃ b, a = .label b ∧ u = .process .nonCompliance ∧ first = false ∧ b ∉ e.label :: seen ∧
          (∀ d ∈ l, d.label ≠ b) ∧ ∃ l', l' <:+ l ∧ OthersPrinted actions replies l' b := by
      rw [printRest] at hr
      split at hr
      · rename_i hl
        obtain rfl := Option.some.inj hr
        subst hl
        constructor
        · rintro ⟨t, ht, -⟩
          cases ht
        · rintro (⟨d, hd, -⟩ | ⟨b, -, -, -, -, -, l', hl', d, l'', heq, -⟩)
          · cases hd
          · rw [List.suffix_nil.1 hl'] at heq
            cases heq
      · obtain ⟨t, ht, rfl⟩ := Option.map_eq_some_iff.1 hr
        simp only [List.mem_singleton, exists_eq_left]
        exact ih ht
    -- there is no choice to print where there is one branch only
    have hsum : ∀ fork : Bool, (fork = false → printOthers actions replies first (e :: l) e.label seen = [] ∧ rest = []) →
        (Step defs (if fork then .group (branch :: printOthers actions replies first (e :: l) e.label seen ++ rest)
          else branch) a u ↔ Step defs branch a u ∨
            (∃ t ∈ printOthers actions replies first (e :: l) e.label seen, Step defs t a u) ∨ ∃ t ∈ rest, Step defs t a u) := by
      intro fork hfork
      cases fork with
      | true =>
        rw [if_pos rfl, step_group]
        simp only [List.cons_append, List.exists_mem_cons_iff, List.mem_append, or_and_right, exists_or]
      | false =>
        obtain ⟨ho, hr⟩ := hfork rfl
        rw [ho, hr]
        simp
    rw [hsum, hbranch, step_others, hrest]
    · constructor
      · rintro (h | ⟨b, ha, hu, hf, hs, hd, ho⟩ | ⟨d, hd, h⟩ | ⟨b, ha, hu, hf, hs, hd, l', hl', ho⟩)
        · exact .inl ⟨e, by simp, h⟩
        · exact .inr ⟨b, ha, hu, hf, hs, hd, _, List.suffix_refl _, ho⟩
        · exact .inl ⟨d, by simp [hd], h⟩
        · rw [List.mem_cons, not_or] at hs
          refine .inr ⟨b, ha, hu, hf, hs.2, fun d hd' => ?_, l', hl'.trans (List.suffix_cons e l), ho⟩
          rcases List.mem_cons.1 hd' with rfl | hd'
          · exact Ne.symm hs.1
          · exact hd d hd'
      · rintro (⟨d, hd, hstep⟩ | ⟨b, ha, hu, hf, hs, hd, l', hl', ho⟩)
        · rcases List.mem_cons.1 hd with rfl | hd
          · exact .inl hstep
          · exact .inr (.inr (.inl ⟨d, hd, hstep⟩))
        · rcases List.suffix_cons_iff.1 hl' with rfl | hl'
          · exact .inr (.inl ⟨b, ha, hu, hf, hs, hd, ho⟩)
          · refine .inr (.inr (.inr ⟨b, ha, hu, hf, ?_, fun d hd' => hd d (by simp [hd']), l', hl', ho⟩))
            rw [List.mem_cons, not_or]
            exact ⟨Ne.symm (hd e (by simp)), hs⟩
    · intro hfork
      simp only [Bool.or_eq_false_iff, decide_eq_false_iff_not, not_not] at hfork
      obtain ⟨hany, rfl⟩ := hfork
      constructor
      · unfold printOthers
        simp only [hany]
        rfl
      · rw [printRest, if_pos rfl] at hr
        exact (Option.some.inj hr).symm

/-- Where there is an action or a reply, the others are printed next to the last one. -/
theorem exists_othersPrinted {b : String} (h : ∃ e ∈ l, (actionEvent e.label || replyEvent e.label) = true) :
    (∃ l', l' <:+ l ∧ OthersPrinted actions replies l' b) ↔ b ∈ actions ∨ b ∈ replies := by
  constructor
  · rintro ⟨l', -, e, l'', -, -, ⟨hb, -⟩ | ⟨hb, -⟩⟩
    · exact .inl hb
    · exact .inr hb
  · intro hb
    induction l with
    | nil =>
      obtain ⟨e, he, -⟩ := h
      cases he
    | cons e l ih =>
      by_cases hl : ∃ e ∈ l, (actionEvent e.label || replyEvent e.label) = true
      · obtain ⟨l', hl', ho⟩ := ih hl
        exact ⟨l', hl'.trans (List.suffix_cons e l), ho⟩
      · have hnone : ∀ d ∈ l, actionEvent d.label = false ∧ replyEvent d.label = false := by
          intro d hd
          have : ¬ (actionEvent d.label || replyEvent d.label) = true := fun h => hl ⟨d, hd, h⟩
          simpa using this
        have he : (actionEvent e.label || replyEvent e.label) = true := by
          obtain ⟨d, hd, h⟩ := h
          rcases List.mem_cons.1 hd with rfl | hd
          · exact h
          · exact absurd ⟨d, hd, h⟩ hl
        have hcount : ∀ p : String → Bool, (∀ d ∈ l, p d.label = false) →
            (((e :: l).map Edge.label).filter p).length ≤ 1 := by
          intro p hp
          have hnil : (l.map Edge.label).filter p = [] := by
            rw [List.filter_eq_nil_iff]
            intro x hx
            obtain ⟨d, hd, rfl⟩ := List.mem_map.1 hx
            simp [hp d hd]
          rw [List.map_cons, List.filter_cons, hnil]
          split <;> simp
        refine ⟨e :: l, List.suffix_refl _, e, l, rfl, he, ?_⟩
        rcases hb with hb | hb
        · exact .inl ⟨hb, hcount _ fun d hd => (hnone d hd).1⟩
        · exact .inr ⟨hb, hcount _ fun d hd => (hnone d hd).2⟩

end

end

end Dezyne
