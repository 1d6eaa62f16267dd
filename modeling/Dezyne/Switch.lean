import Dezyne.Compliance
import Dezyne.Hash
import Mathlib.Data.Prod.Lex
/-!
# The switch over the LTS of an interface

`code:shared` makes transitions of the LTS of an interface: its edges, without
those to an illegal state, with their labels abbreviated. A case of the switch
in `dzn_update_state` stands for a transition; its label is a hash.
-/

namespace Dezyne

open Lts

/-! ## Regular expressions -/

/-- The group of the expression `<opening>([^)]*)<closing>`, where the text starts with a match of it. -/
def matchAt (opening closing s : List Char) : Option (List Char) :=
  if opening.isPrefixOf s then
    let group := (s.drop opening.length).takeWhile (· ≠ ')')
    if closing.isPrefixOf ((s.drop opening.length).drop group.length) then some group else none
  else none

/-- The group of the first match of `<opening>([^)]*)<closing>`. -/
def regexpGroup (opening closing s : List Char) : Option (List Char) :=
  s.tails.findSome? (matchAt opening closing)

/-- The group of `.*<opening>([^)]*)<closing>`: that of the last match. -/
def regexpLastGroup (opening closing s : List Char) : Option (List Char) :=
  s.tails.reverse.findSome? (matchAt opening closing)

/-- `flush-regexp` -/
def flushRegexp (s : List Char) : Option (List Char) :=
  if s.tails.any fun t => "'flush".toList.isPrefixOf t then some "'flush".toList else none

/-- `trigger-regexp` -/
def triggerRegexp (s : List Char) : Option (List Char) := (regexpGroup "'in(".toList "))".toList s).map (· ++ [')'])

/-- `action-regexp` -/
def actionRegexp (s : List Char) : Option (List Char) := (regexpGroup "'out(".toList "))".toList s).map (· ++ [')'])

/-- `reply-regexp` -/
def replyRegexp (s : List Char) : Option (List Char) := (regexpGroup "'reply(".toList "))".toList s).map (· ++ [')'])

/-- `state-regexp1` -/
def stateRegexp1 (s : List Char) : Option (List Char) := (regexpGroup "'state(".toList "))".toList s).map (· ++ [')'])

/-- `state-regexp2` -/
def stateRegexp2 (s : List Char) : Option (List Char) := regexpGroup "'state(".toList ")".toList s

/-- `in-regexp` -/
def inRegexp (s : List Char) : Option (List Char) := regexpLastGroup "'in'".toList ")".toList s

/-- `out-regexp` -/
def outRegexp (s : List Char) : Option (List Char) := regexpLastGroup "'out'".toList ")".toList s

/-- `bool-regexp` -/
def boolRegexp (s : List Char) : Option (List Char) := regexpLastGroup "'Bool(".toList ")".toList s

/-- `void-regexp` -/
def voidRegexp (s : List Char) : Option (List Char) := regexpLastGroup "'Void(".toList ")".toList s

/-- `enum-regexp` -/
def enumRegexp (s : List Char) : Option (List Char) := regexpGroup "(".toList ")".toList s

/-- `variable-value-regexp` -/
def variableValueRegexp (s : List Char) : Option (List Char) := regexpGroup "'variables(".toList ")".toList s

/-! ## `code:shared` -/

/-- `makreel->enum` -/
def makreelEnum (o : List Char) : List Char :=
  match (o.splitOn '\'').reverse with
  | field :: enum :: _ => enum ++ ':' :: field
  | _ => o

/-- `event->prefix`; `none` is the programming error. -/
def eventPrefix (event : List Char) : Option (List Char) :=
  if (flushRegexp event).isSome then some "<flush>".toList
  else (inRegexp event).or <| (outRegexp event).or <| (boolRegexp event).or <|
    if (voidRegexp event).isSome then some "return".toList else (enumRegexp event).map makreelEnum

/-- The event in a label, by `trigger?`, `action?`, `reply?` and `flush?`. -/
def labelEvent (label : List Char) : Option (List Char) :=
  (triggerRegexp label).or <| (actionRegexp label).or <| (replyRegexp label).or (flushRegexp label)

/-- `edge->transition`; `none` is an error. -/
def edgeTransition (edge : Edge String) : Option (Edge String) := do
  let label ← labelEvent edge.label.toList
  let label ← eventPrefix label
  return { edge with label := String.ofList label }

/-- `state?` of `code:shared` -/
def sharedStateLabel (label : String) : Bool :=
  (stateRegexp2 label.toList).isSome || (stateRegexp1 label.toList).isSome

/-- `illegal-node-ids` -/
def illegalNodeIds (edges : List (Edge String)) : List Nat :=
  (edges.filter fun e => e.label = "declarative_illegal" && e.fromState = e.toState).map Edge.fromState

/-- The edges that a transition is made of. -/
def sharedEdges (lts : Lts) : List (Edge String) :=
  let edges := lts.flatMap Node.edges
  let edges := edges.filter fun e => !(illegalNodeIds (lts.flatMap Node.edges)).contains e.toState
  edges.filter fun e => !(sharedStateLabel e.label || e.label = "declarative_illegal")

/-- `code:shared`; the transitions are the same for each event. -/
def codeShared (lts : Lts) : Option (List (Edge String)) := (sharedEdges lts).mapM edgeTransition

/-! ## The cases -/

/-- `delete-adjacent-duplicates` -/
def deleteAdjacentDuplicates {α : Type} (same : α → α → Bool) : List α → List α
  | [] => []
  | [head] => [head]
  | head :: next :: rest =>
    if same head next then deleteAdjacentDuplicates same (next :: rest)
    else head :: deleteAdjacentDuplicates same (next :: rest)

/-- `transition<` -/
def transitionLess (a b : Edge String) : Bool :=
  a.fromState < b.fromState || (a.fromState = b.fromState && a.label < b.label)

/-- `transition=` -/
def transitionSame (a b : Edge String) : Bool := a.fromState = b.fromState && a.label = b.label

/-- `event->transitions` of the events of an interface -/
def eventTransitions (events : List String) (lts : Lts) : Option (List (Edge String)) :=
  (events.mapM fun _ => codeShared lts).map List.flatten

/-- The transitions of the cases. -/
def switchTransitions (transitions : List (Edge String)) : List (Edge String) :=
  deleteAdjacentDuplicates transitionSame (sortBy transitionLess transitions)

/-- The label of a case, by `event->sm:switch-case`. -/
def caseLabel (transition : Edge String) : Int := dznHash [transition.label] transition.fromState

/-- The case labels of the switch of an interface. -/
def caseLabels (events : List String) (lts : Lts) : Option (List Int) :=
  (eventTransitions events lts).map fun transitions => (switchTransitions transitions).map caseLabel

/-! ## Different transitions -/

/-- The state and the label of a transition. -/
def transitionKey (e : Edge String) : Lex (Nat × String) := toLex (e.fromState, e.label)

theorem transitionKey_eq {a b : Edge String} :
    transitionKey a = transitionKey b ↔ a.fromState = b.fromState ∧ a.label = b.label := by
  rw [transitionKey, transitionKey, toLex_inj, Prod.mk.injEq]

theorem transitionLess_eq : transitionLess = fun a b => decide (transitionKey a < transitionKey b) := by
  funext a b
  rw [transitionLess, transitionKey, transitionKey, Bool.eq_iff_iff]
  simp [Prod.Lex.toLex_lt_toLex]

theorem transitionSame_eq : transitionSame = fun a b => decide (transitionKey a = transitionKey b) := by
  funext a b
  rw [transitionSame, Bool.eq_iff_iff]
  simp [transitionKey_eq]

section
variable {α β : Type} [LinearOrder β] {f : α → β} {l : List α}

theorem deleteAdjacentDuplicates_subset (same : α → α → Bool) : deleteAdjacentDuplicates same l ⊆ l := by
  fun_induction deleteAdjacentDuplicates same l with
  | case1 => exact List.Subset.refl _
  | case2 head => exact List.Subset.refl _
  | case3 head next rest hsame ih => exact List.subset_cons_of_subset _ ih
  | case4 head next rest hsame ih => exact List.cons_subset_cons _ ih

/-- Every key is kept. -/
theorem exists_mem_deleteAdjacentDuplicates :
    ∀ a ∈ l, ∃ b ∈ deleteAdjacentDuplicates (fun a b => decide (f a = f b)) l, f b = f a := by
  fun_induction deleteAdjacentDuplicates (fun a b => decide (f a = f b)) l with
  | case1 =>
    intro a ha
    cases ha
  | case2 head =>
    intro a ha
    exact ⟨a, ha, rfl⟩
  | case3 head next rest hsame ih =>
    intro a ha
    rcases List.mem_cons.1 ha with rfl | ha
    · obtain ⟨b, hb, heq⟩ := ih next List.mem_cons_self
      exact ⟨b, hb, heq.trans (of_decide_eq_true hsame).symm⟩
    · exact ih a ha
  | case4 head next rest hsame ih =>
    intro a ha
    rcases List.mem_cons.1 ha with rfl | ha
    · exact ⟨a, List.mem_cons_self, rfl⟩
    · obtain ⟨b, hb, heq⟩ := ih a ha
      exact ⟨b, List.mem_cons_of_mem _ hb, heq⟩

/-- Of a sorted list, one element of each key is kept. -/
theorem pairwise_deleteAdjacentDuplicates (hl : l.Pairwise fun a b => f a ≤ f b) :
    (deleteAdjacentDuplicates (fun a b => decide (f a = f b)) l).Pairwise fun a b => f a < f b := by
  fun_induction deleteAdjacentDuplicates (fun a b => decide (f a = f b)) l with
  | case1 => exact List.Pairwise.nil
  | case2 head => exact List.pairwise_singleton _ _
  | case3 head next rest hsame ih => exact ih hl.of_cons
  | case4 head next rest hsame ih =>
    refine List.pairwise_cons.2 ⟨fun b hb => ?_, ih hl.of_cons⟩
    have hne : f head ≠ f next := fun h => hsame (decide_eq_true h)
    have hlt : f head < f next := lt_of_le_of_ne (List.rel_of_pairwise_cons hl List.mem_cons_self) hne
    have hnext : f next ≤ f b := by
      rcases List.mem_cons.1 (deleteAdjacentDuplicates_subset _ hb) with rfl | hb
      · exact le_refl _
      · exact List.rel_of_pairwise_cons hl.of_cons hb
    exact lt_of_lt_of_le hlt hnext

end

section
variable {transitions : List (Edge String)}

/-- The cases are of different states or labels. -/
theorem switchTransitions_pairwise :
    (switchTransitions transitions).Pairwise fun t u => transitionKey t < transitionKey u := by
  unfold switchTransitions
  rw [transitionLess_eq, transitionSame_eq]
  exact pairwise_deleteAdjacentDuplicates (pairwise_sortBy transitionKey _)

theorem switchTransitions_subset : switchTransitions transitions ⊆ transitions :=
  List.Subset.trans (deleteAdjacentDuplicates_subset _) (perm_sortBy _ _).subset

/-- There is a case for every transition. -/
theorem exists_mem_switchTransitions {t : Edge String} (ht : t ∈ transitions) :
    ∃ u ∈ switchTransitions transitions, transitionKey u = transitionKey t := by
  unfold switchTransitions
  rw [transitionSame_eq]
  exact exists_mem_deleteAdjacentDuplicates t ((perm_sortBy _ _).mem_iff.2 ht)

/-- The case labels are different when no two transitions collide. -/
theorem nodup_caseLabel_iff : ((switchTransitions transitions).map caseLabel).Nodup ↔
    ∀ t ∈ transitions, ∀ u ∈ transitions, transitionKey t ≠ transitionKey u → caseLabel t ≠ caseLabel u := by
  have hlabel : ∀ a b : Edge String, transitionKey a = transitionKey b → caseLabel a = caseLabel b := by
    intro a b hab
    obtain ⟨hfrom, hlab⟩ := transitionKey_eq.1 hab
    rw [caseLabel, caseLabel, hfrom, hlab]
  constructor
  · intro h t ht u hu hne heq
    obtain ⟨t', ht', hkt⟩ := exists_mem_switchTransitions ht
    obtain ⟨u', hu', hku⟩ := exists_mem_switchTransitions hu
    have heq' : caseLabel t' = caseLabel u' := by rw [hlabel t' t hkt, hlabel u' u hku, heq]
    have hsame : t' = u' := List.inj_on_of_nodup_map h ht' hu' heq'
    subst hsame
    exact hne (hkt.symm.trans hku)
  · intro h
    rw [List.Nodup, List.pairwise_map]
    refine switchTransitions_pairwise.imp_of_mem ?_
    intro t u ht hu hlt
    exact h t (switchTransitions_subset ht) u (switchTransitions_subset hu) hlt.ne

end

/-- The case labels of an interface are different if and only if the texts of no two transitions are
numbers that differ by a multiple of 2^32. -/
theorem caseLabels_nodup_iff (events : List String) (lts : Lts) (transitions : List (Edge String))
    (h : eventTransitions events lts = some transitions) :
    ∃ labels, caseLabels events lts = some labels ∧ (labels.Nodup ↔
      ∀ t ∈ transitions, ∀ u ∈ transitions, (t.fromState, t.label) ≠ (u.fromState, u.label) → ∀ k : Int,
        textNumber (hashText u.label u.fromState) ≠ textNumber (hashText t.label t.fromState) + k * 4294967296) := by
  refine ⟨_, by rw [caseLabels, h]; rfl, ?_⟩
  rw [nodup_caseLabel_iff]
  have hpair : ∀ t u : Edge String, (transitionKey t ≠ transitionKey u → caseLabel t ≠ caseLabel u) ↔
      ((t.fromState, t.label) ≠ (u.fromState, u.label) → ∀ k : Int,
        textNumber (hashText u.label u.fromState) ≠ textNumber (hashText t.label t.fromState) + k * 4294967296) := by
    intro t u
    have hkey : (t.fromState, t.label) = (u.fromState, u.label) ↔ transitionKey t = transitionKey u := by
      rw [transitionKey_eq, Prod.mk.injEq]
    rw [ne_eq _ (u.fromState, u.label), hkey, caseLabel, caseLabel, ne_eq (dznHash _ _), dznHash_eq_iff, not_exists]
  exact forall₂_congr fun t _ => forall₂_congr fun u _ => hpair t u

/-- Case labels are different when the texts of the transitions are short, and no label starts with a digit. -/
theorem caseLabels_nodup_of_short {events : List String} {lts : Lts} {transitions : List (Edge String)}
    (h : eventTransitions events lts = some transitions)
    (hchars : ∀ t ∈ transitions, ∀ c ∈ hashText t.label t.fromState, LabelChar c)
    (hhead : ∀ t ∈ transitions, ∀ c ∈ t.label.toList.head?, ¬ c.isDigit = true)
    (hshort : ∀ t ∈ transitions, (hashText t.label t.fromState).length ≤ 5) :
    ∃ labels, caseLabels events lts = some labels ∧ labels.Nodup := by
  refine ⟨_, by rw [caseLabels, h]; rfl, ?_⟩
  apply nodup_caseLabel_iff.2
  intro t ht u hu hne
  apply dznHash_ne_of_short (hchars t ht) (hchars u hu) (hshort t ht) (hshort u hu)
  intro htext
  exact hne (transitionKey_eq.2 (hashText_inj (hhead t ht) (hhead u hu) htext))

/-- The LTS of an interface with two void events, that may always occur. -/
def collidingAut : Aut :=
  ⟨0, 2, [makeEdge 0 "I'in(I'action(I'in'push_next_node))" 1 false,
      makeEdge 0 "I'in(I'action(I'in'turn_right_port))" 1 false, makeEdge 0 "I'state(I'Void)" 0 false,
      makeEdge 1 "I'reply(I'Void(void))" 0 false], Nat.two_pos, by decide⟩

def collidingLts : Lts := (constructLts collidingAut).getD []

def collidingEvents : List String := ["push_next_node", "turn_right_port"]

theorem caseLabels_nodup_iff_colliding :
    ∃ labels, caseLabels collidingEvents collidingLts = some labels ∧ (labels.Nodup ↔
      ∀ t ∈ (eventTransitions collidingEvents collidingLts).getD [],
      ∀ u ∈ (eventTransitions collidingEvents collidingLts).getD [],
        (t.fromState, t.label) ≠ (u.fromState, u.label) → ∀ k : Int,
        textNumber (hashText u.label u.fromState) ≠ textNumber (hashText t.label t.fromState) + k * 4294967296) :=
  caseLabels_nodup_iff collidingEvents collidingLts _ (by decide)

theorem collidingLts_deterministic : Deterministic collidingLts := by
  have hlabels : ∀ s, s < 2 → ((node collidingLts s).edges.map Edge.label).Nodup := by decide
  intro s e he e' he' heq
  refine List.inj_on_of_nodup_map (hlabels s ?_) he he' heq
  by_contra hge
  have hlen : collidingLts.length = 2 := by decide
  rw [node_of_le (by omega)] at he
  cases he

/-- The two events have the same case label in the initial state. -/
theorem caseLabels_collide : ¬ ∀ (events : List String) (lts : Lts) (labels : List Int),
    Deterministic lts → lts.length < 2 ^ 32 → caseLabels events lts = some labels → labels.Nodup := by
  intro h
  have hlabels : caseLabels collidingEvents collidingLts = some [1108698070, 1108698070, 632232382] := by decide
  exact absurd (h _ _ _ collidingLts_deterministic (by decide) hlabels) (by decide)

end Dezyne
