import Dezyne.Assert
/-!
# Failures

`add-failures` lets a node with optional edges step by `tau` to a copy of it
without them. The copies are added twice: with a state of their own, which the
`tau` edges go to, and once more as they were. In the first kind a state
self-loop goes back to the original, so only the second kind shows a node to
be a deadlock that has nothing else.
-/

namespace Dezyne

open Lts

/-! ## The pass -/

/-- The label of a modeling event, with or without its port. -/
def modelingLabel (event label : String) : Bool :=
  label = event || stringSuffix ("." ++ event) label || stringSuffix ("'" ++ event) label ||
    stringSuffix ("'" ++ event ++ ")") label

/-- `optional?` -/
def Edge.optional (e : Edge String) : Bool := modelingLabel "optional" e.label

/-- `inevitable?` -/
def Edge.inevitable (e : Edge String) : Bool := modelingLabel "inevitable" e.label

/-- `modeling?` -/
def Edge.modeling (e : Edge String) : Bool := e.optional || e.inevitable

/-- `modeling->tau` -/
def Edge.modelingToTau (e : Edge String) : Edge String :=
  if e.modeling then makeEdge e.fromState tauLabel e.toState false else e

/-- `remove-optional` -/
def Node.removeOptional (n : Node) : Node := { n with edges := n.edges.filter fun e => !e.optional }

/-- `node:modeling->tau` -/
def Node.modelingToTau (n : Node) : Node := { n with edges := n.edges.map Edge.modelingToTau }

/-- A copy of a node with a state of its own, where its edges start. -/
def Node.restart (state : Nat) (n : Node) : Node :=
  { n with state := state, edges := n.edges.map fun e => { e with fromState := state } }

/-- `add-failure`; the vector grows by one where the state is just beyond it. -/
def addFailure (lts : Lts) (n : Node) (state : Nat) : Lts :=
  let original := node lts n.state
  let edges := makeEdge original.state tauLabel state false :: original.edges
  let lts := lts.set original.state { original with edges := edges }
  let n := n.restart state
  let lts := if state = lts.length then lts ++ [n] else lts
  if state < lts.length then lts.set state n else lts

/-- The nodes with an optional edge, without those edges. -/
def failures (lts : Lts) : List Node :=
  (lts.filter fun n => n.edges.any Edge.optional).map Node.removeOptional

/-- `add-failures` -/
def addFailures (lts : Lts) : Lts :=
  let add := failures lts
  let r := add.foldl (fun (r : Lts × Nat) n => (addFailure r.1 n r.2, r.2 + 1)) (lts, lts.length)
  (r.1 ++ add).map Node.modelingToTau

/-! ## Which nodes are wrong -/

/-- A state self-loop; what the model calls inevitable is not a state. -/
def Edge.plainStateLoop (e : Edge String) : Bool := e.stateLoop && !e.inevitable

/-- No edge is left without the optional ones, the state self-loops and those to excluded nodes. -/
def IsFailure (lts : Lts) (s : Nat) : Prop := ¬ IsExcluded lts s ∧
  ∀ e ∈ (node lts s).edges, e.optional = true ∨ e.plainStateLoop = true ∨ IsExcluded lts e.toState

/-! ## The nodes of the result -/

section
variable {lts : Lts}

theorem addFailure_eq {n : Node} (hstate : (node lts n.state).state = n.state) :
    addFailure lts n lts.length =
      lts.set n.state { node lts n.state with
        edges := makeEdge n.state tauLabel lts.length false :: (node lts n.state).edges } ++ [n.restart lts.length] := by
  unfold addFailure
  dsimp only
  simp only [hstate, List.length_set, if_true, List.length_append, List.length_singleton, Nat.lt_add_one]
  rw [List.set_append_right _ _ (by simp)]
  simp

/-- The `tau` edges from a state to its failures, the first of which gets the state `first`. -/
def failureEdges (state : Nat) (add : List Node) (first : Nat) : List (Edge String) :=
  ((add.zipIdx first).filter fun x => x.1.state = state).map fun x => makeEdge state tauLabel x.2 false

theorem failureEdges_cons {state first : Nat} (n : Node) (add : List Node) :
    failureEdges state (n :: add) first =
      (if n.state = state then [makeEdge state tauLabel first false] else []) ++ failureEdges state add (first + 1) := by
  rw [failureEdges, List.zipIdx_cons, List.filter_cons]
  by_cases h : n.state = state <;> simp [h, failureEdges]

theorem failureEdges_nil {state first : Nat} {add : List Node} (h : ∀ n ∈ add, n.state ≠ state) :
    failureEdges state add first = [] := by
  induction add generalizing first with
  | nil => rfl
  | cons n add ih =>
    rw [failureEdges_cons, if_neg (h n (by simp)), ih fun m hm => h m (by simp [hm])]
    rfl

/-- Every failure gets a state of its own after the others, and an edge to it. -/
theorem foldl_addFailure (add : List Node) : ∀ lts : Lts,
    (∀ n ∈ add, n.state < lts.length ∧ (node lts n.state).state = n.state) →
    ∃ lts' : Lts, add.foldl (fun (r : Lts × Nat) n => (addFailure r.1 n r.2, r.2 + 1)) (lts, lts.length) =
        (lts', lts'.length) ∧ lts'.length = lts.length + add.length ∧
      (∀ i, i < lts.length → node lts' i =
        { node lts i with edges := (failureEdges i add lts.length).reverse ++ (node lts i).edges }) ∧
      ∀ j n, add[j]? = some n → node lts' (lts.length + j) = n.restart (lts.length + j) := by
  induction add with
  | nil => intro lts _; exact ⟨lts, rfl, rfl, fun i _ => rfl, fun j n h => by cases h⟩
  | cons n add ih =>
    intro lts h
    obtain ⟨hn, hstate⟩ := h n (by simp)
    rw [List.foldl_cons, addFailure_eq hstate]
    generalize hl : lts.set n.state { node lts n.state with
      edges := makeEdge n.state tauLabel lts.length false :: (node lts n.state).edges } ++ [n.restart lts.length] = lts₁
    have hlen : lts₁.length = lts.length + 1 := by rw [← hl, List.length_append, List.length_set]; rfl
    have hold : ∀ i, i < lts.length → node lts₁ i = { node lts i with
        edges := (if n.state = i then [makeEdge i tauLabel lts.length false] else []) ++ (node lts i).edges } := by
      intro i hi
      have happ : node lts₁ i = node (lts.set n.state { node lts n.state with
          edges := makeEdge n.state tauLabel lts.length false :: (node lts n.state).edges }) i := by
        rw [node, node, ← hl, List.getElem?_append_left (by rwa [List.length_set])]
      rw [happ]
      by_cases hni : n.state = i
      · subst hni
        rw [node_set_self hn, if_pos rfl]
        rfl
      · rw [node_set_ne hni, if_neg hni]
        rfl
    have hnew : node lts₁ lts.length = n.restart lts.length := by
      rw [node, ← hl, List.getElem?_append_right (by simp)]
      simp
    -- the other failures are old nodes still, with the new edge
    have hadd : ∀ m ∈ add, m.state < lts₁.length ∧ (node lts₁ m.state).state = m.state := by
      intro m hm
      obtain ⟨hlt, hms⟩ := h m (by simp [hm])
      rw [hlen, hold _ hlt]
      exact ⟨by omega, hms⟩
    obtain ⟨lts', heq, hlen', hnodes, hcopies⟩ := ih lts₁ hadd
    rw [hlen] at heq hlen' hnodes hcopies
    refine ⟨lts', heq, by rw [hlen', List.length_cons]; omega, fun i hi => ?_, fun j m hj => ?_⟩
    · rw [hnodes i (by omega), hold i hi, failureEdges_cons, List.reverse_append, List.append_assoc]
      by_cases hni : n.state = i <;> simp [hni]
    · cases j with
      | zero =>
        obtain rfl : n = m := by simpa using hj
        rw [Nat.add_zero, hnodes _ (by omega), hnew, failureEdges_nil]
        · rfl
        · intro m hm
          have := (h m (by simp [hm])).1
          omega
      | succ j =>
        have := hcopies j m (by simpa using hj)
        rw [show lts.length + (j + 1) = lts.length + 1 + j by omega]
        exact this

/-- The failures of a well-formed vector. -/
theorem mem_failures (hw : WellFormed lts) {n : Node} (hn : n ∈ failures lts) :
    n.state < lts.length ∧ n = (node lts n.state).removeOptional ∧
      (node lts n.state).edges.any Edge.optional = true := by
  obtain ⟨m, hm, rfl⟩ := List.mem_map.1 hn
  obtain ⟨hm, ho⟩ := List.mem_filter.1 hm
  obtain ⟨i, hi, rfl⟩ := List.getElem_of_mem hm
  have hstate := hw.state i hi
  rw [node_eq hi] at hstate
  have : node lts lts[i].removeOptional.state = lts[i] := by
    rw [show lts[i].removeOptional.state = i from hstate, node_eq hi]
  rw [this]
  exact ⟨by rw [show lts[i].removeOptional.state = i from hstate]; exact hi, rfl, ho⟩

theorem exists_failure {i : Nat} (hi : i < lts.length)
    (ho : (node lts i).edges.any Edge.optional = true) : ∃ j : Nat, (failures lts)[j]? = some (node lts i).removeOptional := by
  have hmem : (node lts i).removeOptional ∈ failures lts := by
    rw [node_eq hi] at ho ⊢
    exact List.mem_map_of_mem (List.mem_filter.2 ⟨List.getElem_mem hi, ho⟩)
  obtain ⟨j, hj, he⟩ := List.getElem_of_mem hmem
  exact ⟨j, by rw [List.getElem?_eq_getElem hj, he]⟩

/-- The three kinds of nodes of the result: those there were, the failures, and the failures as they were. -/
theorem addFailures_nodes (hw : WellFormed lts) :
    (addFailures lts).length = lts.length + (failures lts).length + (failures lts).length ∧
    (∀ i, i < lts.length → node (addFailures lts) i = Node.modelingToTau
      { node lts i with edges := (failureEdges i (failures lts) lts.length).reverse ++ (node lts i).edges }) ∧
    ∀ j n, (failures lts)[j]? = some n →
      node (addFailures lts) (lts.length + j) = (n.restart (lts.length + j)).modelingToTau ∧
      node (addFailures lts) (lts.length + (failures lts).length + j) = n.modelingToTau := by
  obtain ⟨lts', heq, hlen, hnodes, hcopies⟩ := foldl_addFailure (failures lts) lts fun n hn =>
    ⟨(mem_failures hw hn).1, hw.state _ (mem_failures hw hn).1⟩
  have hresult : addFailures lts = (lts' ++ failures lts).map Node.modelingToTau := by
    rw [addFailures, heq]
  have hleft : ∀ i, i < lts'.length → node (addFailures lts) i = (node lts' i).modelingToTau := by
    intro i hi
    rw [hresult, node_map _ (by rw [List.length_append]; omega), node, List.getElem?_append_left hi, ← node]
  refine ⟨by rw [hresult, List.length_map, List.length_append, hlen], fun i hi => ?_, fun j n hj => ⟨?_, ?_⟩⟩
  · rw [hleft i (by omega), hnodes i hi]
  · have := (List.getElem?_eq_some_iff.1 hj).1
    rw [hleft _ (by omega), hcopies j n hj]
  · have := (List.getElem?_eq_some_iff.1 hj).1
    rw [hresult, node_map _ (by rw [List.length_append]; omega), node,
      List.getElem?_append_right (by omega), hlen, Nat.add_sub_cancel_left, hj]
    rfl

/-! ## Relabelled edges -/

theorem modelingToTau_toState (e : Edge String) : e.modelingToTau.toState = e.toState := by
  rw [Edge.modelingToTau]
  split <;> rfl

theorem modelingToTau_label (e : Edge String) :
    e.modelingToTau.label = declarativeIllegal ↔ e.label = declarativeIllegal := by
  rw [Edge.modelingToTau]
  split
  · rename_i hm
    have htau : tauLabel ≠ declarativeIllegal := by decide
    refine ⟨fun h => absurd h htau, fun h => ?_⟩
    rw [Edge.modeling, Edge.optional, Edge.inevitable, h] at hm
    exact absurd hm (by decide)
  · rfl

theorem modelingToTau_stateLoop (e : Edge String) :
    e.modelingToTau.stateLoop = (e.stateLoop && !e.modeling) := by
  rw [Edge.modelingToTau]
  split
  · rename_i hm
    have htau : stringContains tauLabel stateLabel = false := by decide
    simp [Edge.stateLoop, makeEdge, htau, hm]
  · rename_i hm
    simp [hm]

theorem optional_label {e : Edge String} (h : e.label = declarativeIllegal) : e.optional = false := by
  rw [Edge.optional, h]
  decide

/-! ## Excluded nodes of the result -/

/-- Has an edge `<declarative-illegal>`. -/
def Node.Excluded (n : Node) : Prop := ∃ e ∈ n.edges, e.label = declarativeIllegal

theorem excluded_modelingToTau (n : Node) : n.modelingToTau.Excluded ↔ n.Excluded := by
  constructor
  · rintro ⟨e, he, hl⟩
    obtain ⟨e', he', rfl⟩ := List.mem_map.1 he
    exact ⟨e', he', (modelingToTau_label e').1 hl⟩
  · rintro ⟨e, he, hl⟩
    exact ⟨e.modelingToTau, List.mem_map_of_mem he, (modelingToTau_label e).2 hl⟩

theorem excluded_restart (state : Nat) (n : Node) : (n.restart state).Excluded ↔ n.Excluded := by
  constructor
  · rintro ⟨e, he, hl⟩
    obtain ⟨e', he', rfl⟩ := List.mem_map.1 he
    exact ⟨e', he', hl⟩
  · rintro ⟨e, he, hl⟩
    exact ⟨_, List.mem_map_of_mem he, hl⟩

theorem excluded_removeOptional (n : Node) : n.removeOptional.Excluded ↔ n.Excluded := by
  constructor
  · rintro ⟨e, he, hl⟩
    exact ⟨e, (List.mem_filter.1 he).1, hl⟩
  · rintro ⟨e, he, hl⟩
    exact ⟨e, List.mem_filter.2 ⟨he, by rw [optional_label hl]; rfl⟩, hl⟩

theorem mem_failureEdges {state first : Nat} {add : List Node} {e : Edge String}
    (h : e ∈ failureEdges state add first) :
    ∃ j n, add[j]? = some n ∧ n.state = state ∧ e = makeEdge state tauLabel (first + j) false := by
  obtain ⟨⟨n, i⟩, hx, rfl⟩ := List.mem_map.1 h
  obtain ⟨hx, hs⟩ := List.mem_filter.1 hx
  obtain ⟨hle, hlt, hn⟩ := List.mem_zipIdx hx
  refine ⟨i - first, n, ?_, by simpa using hs, by rw [Nat.add_sub_cancel' hle]⟩
  rw [hn, List.getElem?_eq_getElem]

section
variable (hw : WellFormed lts)
include hw

theorem isExcluded_old {i : Nat} (hi : i < lts.length) :
    IsExcluded (addFailures lts) i ↔ IsExcluded lts i := by
  show (node (addFailures lts) i).Excluded ↔ (node lts i).Excluded
  rw [(addFailures_nodes hw).2.1 i hi, excluded_modelingToTau]
  constructor
  · rintro ⟨e, he, hl⟩
    rcases List.mem_append.1 he with he | he
    · obtain ⟨j, n, -, -, rfl⟩ := mem_failureEdges (List.mem_reverse.1 he)
      exact absurd hl (show tauLabel ≠ declarativeIllegal by decide)
    · exact ⟨e, he, hl⟩
  · rintro ⟨e, he, hl⟩
    exact ⟨e, List.mem_append_right _ he, hl⟩

theorem isExcluded_copy {j : Nat} {n : Node} (hj : (failures lts)[j]? = some n) :
    (IsExcluded (addFailures lts) (lts.length + j) ↔ IsExcluded lts n.state) ∧
    (IsExcluded (addFailures lts) (lts.length + (failures lts).length + j) ↔ IsExcluded lts n.state) := by
  obtain ⟨-, hn, -⟩ := mem_failures hw (List.mem_of_getElem? hj)
  have hex : n.Excluded ↔ (node lts n.state).Excluded := by
    conv_lhs => rw [hn]
    exact excluded_removeOptional _
  obtain ⟨h1, h2⟩ := (addFailures_nodes hw).2.2 j n hj
  constructor
  · show (node (addFailures lts) _).Excluded ↔ _
    rw [h1, excluded_modelingToTau, excluded_restart]
    exact hex
  · show (node (addFailures lts) _).Excluded ↔ _
    rw [h2, excluded_modelingToTau]
    exact hex

/-! ## Deadlocks of the result -/

theorem isFailure_of_old {i : Nat} (hi : i < lts.length) (h : IsDeadlock (addFailures lts) i) :
    IsFailure lts i := by
  obtain ⟨hex, hedges⟩ := h
  rw [isExcluded_old hw hi] at hex
  refine ⟨hex, fun e he => ?_⟩
  have hmem : e.modelingToTau ∈ (node (addFailures lts) i).edges := by
    rw [(addFailures_nodes hw).2.1 i hi]
    exact List.mem_map_of_mem (List.mem_append_right _ he)
  rcases hedges _ hmem with hl | hx
  · rw [modelingToTau_stateLoop, Edge.modeling, Bool.not_or] at hl
    simp only [Bool.and_eq_true] at hl
    exact .inr (.inl (by rw [Edge.plainStateLoop, hl.1, hl.2.2]; rfl))
  · rw [modelingToTau_toState, isExcluded_old hw (hw.toState i e he)] at hx
    exact .inr (.inr hx)

theorem isFailure_of_copy {j : Nat} {n : Node} (hj : (failures lts)[j]? = some n)
    (h : IsDeadlock (addFailures lts) (lts.length + j)) : IsFailure lts n.state := by
  obtain ⟨hlt, hn, -⟩ := mem_failures hw (List.mem_of_getElem? hj)
  obtain ⟨hex, hedges⟩ := h
  rw [(isExcluded_copy hw hj).1] at hex
  refine ⟨hex, fun e he => ?_⟩
  by_cases ho : e.optional = true
  · exact .inl ho
  · have hto := hw.toState _ e he
    have hmem : Edge.modelingToTau { e with fromState := lts.length + j } ∈ (node (addFailures lts) (lts.length + j)).edges := by
      rw [((addFailures_nodes hw).2.2 j n hj).1]
      refine List.mem_map_of_mem (List.mem_map_of_mem (f := fun e : Edge String => { e with fromState := lts.length + j }) ?_)
      rw [hn]
      exact List.mem_filter.2 ⟨he, by simpa using ho⟩
    rcases hedges _ hmem with hl | hx
    · -- the copy starts beyond the nodes its edges go to
      rw [modelingToTau_stateLoop, Edge.stateLoop] at hl
      simp only [Bool.and_eq_true, decide_eq_true_eq] at hl
      omega
    · rw [modelingToTau_toState] at hx
      exact .inr (.inr ((isExcluded_old hw hto).1 hx))

theorem isDeadlock_spare {j : Nat} {n : Node} (hj : (failures lts)[j]? = some n) :
    IsDeadlock (addFailures lts) (lts.length + (failures lts).length + j) ↔ IsFailure lts n.state := by
  obtain ⟨hlt, hn, -⟩ := mem_failures hw (List.mem_of_getElem? hj)
  have hmem : ∀ e, e ∈ (node lts n.state).edges → e.optional = false →
      e.modelingToTau ∈ (node (addFailures lts) (lts.length + (failures lts).length + j)).edges := by
    intro e he ho
    rw [((addFailures_nodes hw).2.2 j n hj).2, hn]
    exact List.mem_map_of_mem (List.mem_filter.2 ⟨he, by simpa using ho⟩)
  rw [IsDeadlock, IsFailure, (isExcluded_copy hw hj).2]
  refine and_congr_right fun _ => ⟨fun h e he => ?_, fun h e he => ?_⟩
  · by_cases ho : e.optional = true
    · exact .inl ho
    · rcases h _ (hmem e he (by simpa using ho)) with hl | hx
      · rw [modelingToTau_stateLoop, Edge.modeling, Bool.not_or] at hl
        simp only [Bool.and_eq_true] at hl
        exact .inr (.inl (by rw [Edge.plainStateLoop, hl.1, hl.2.2]; rfl))
      · rw [modelingToTau_toState, isExcluded_old hw (hw.toState _ e he)] at hx
        exact .inr (.inr hx)
  · rw [((addFailures_nodes hw).2.2 j n hj).2, hn] at he
    obtain ⟨e, hmem, rfl⟩ := List.mem_map.1 he
    obtain ⟨he, ho⟩ := List.mem_filter.1 hmem
    have ho : e.optional = false := by simpa using ho
    rcases h e he with hopt | hl | hx
    · rw [ho] at hopt
      cases hopt
    · rw [Edge.plainStateLoop, Bool.and_eq_true] at hl
      exact .inl (by rw [modelingToTau_stateLoop, Edge.modeling, ho, hl.1, Bool.false_or, hl.2]; rfl)
    · exact .inr (by rw [modelingToTau_toState, isExcluded_old hw (hw.toState _ e he)]; exact hx)

/-- A failure shows: at the node itself, or at its spare copy. -/
theorem exists_isDeadlock {s : Nat} (hs : s < lts.length) (h : IsFailure lts s) :
    ∃ i, i < (addFailures lts).length ∧ IsDeadlock (addFailures lts) i := by
  by_cases ho : (node lts s).edges.any Edge.optional = true
  · obtain ⟨j, hj⟩ := exists_failure hs ho
    have hlt := (List.getElem?_eq_some_iff.1 hj).1
    refine ⟨_, ?_, (isDeadlock_spare hw hj).2 ?_⟩
    · rw [(addFailures_nodes hw).1]
      omega
    · rw [show (node lts s).removeOptional.state = s from hw.state s hs]
      exact h
  · have hnone : failureEdges s (failures lts) lts.length = [] := by
      apply failureEdges_nil
      rintro n hn rfl
      exact ho (mem_failures hw hn).2.2
    have hopt : ∀ e ∈ (node lts s).edges, e.optional = false := by
      intro e he
      have := List.any_eq_false.1 (by simpa using ho) e he
      simpa using this
    refine ⟨s, by rw [(addFailures_nodes hw).1]; omega, by rw [isExcluded_old hw hs]; exact h.1, fun e he => ?_⟩
    rw [(addFailures_nodes hw).2.1 s hs, hnone] at he
    obtain ⟨e, hmem, rfl⟩ := List.mem_map.1 he
    have he : e ∈ (node lts s).edges := hmem
    rcases h.2 e he with ho | hl | hx
    · rw [hopt e he] at ho
      cases ho
    · rw [Edge.plainStateLoop, Bool.and_eq_true] at hl
      exact .inl (by rw [modelingToTau_stateLoop, Edge.modeling, hopt e he, hl.1, Bool.false_or, hl.2]; rfl)
    · exact .inr (by rw [modelingToTau_toState, isExcluded_old hw (hw.toState _ e he)]; exact hx)

/-! ## Traces of the result -/

/-- Every node of the result stands for one there was, with its parent and its distance. -/
theorem addFailures_origin {i : Nat} (hi : i < (addFailures lts).length) : ∃ s, s < lts.length ∧
    (i < lts.length → s = i) ∧ (node (addFailures lts) i).parent = (node lts s).parent ∧
    (node (addFailures lts) i).distance = (node lts s).distance ∧ (node (addFailures lts) i).state ≤ i ∧
    (∀ e ∈ (node (addFailures lts) i).edges, e.toState < (addFailures lts).length) ∧
    (IsDeadlock (addFailures lts) i → IsFailure lts s) := by
  obtain ⟨hlen, hold, hcopy⟩ := addFailures_nodes hw
  have hto : ∀ s, ∀ e ∈ (node lts s).edges, e.toState < (addFailures lts).length := by
    intro s e he
    have := hw.toState s e he
    rw [hlen]
    omega
  -- an old node, a copy of a failure, or a spare one
  by_cases h1 : i < lts.length
  · refine ⟨i, h1, fun _ => rfl, by rw [hold i h1]; rfl, by rw [hold i h1]; rfl, ?_, fun e he => ?_, isFailure_of_old hw h1⟩
    · rw [hold i h1]
      exact Nat.le_of_eq (hw.state i h1)
    · rw [hold i h1] at he
      obtain ⟨e, hmem, rfl⟩ := List.mem_map.1 he
      rw [modelingToTau_toState]
      rcases List.mem_append.1 hmem with he | he
      · obtain ⟨j, n, hj, -, rfl⟩ := mem_failureEdges (List.mem_reverse.1 he)
        have := (List.getElem?_eq_some_iff.1 hj).1
        rw [hlen]
        show lts.length + j < _
        omega
      · exact hto i e he
  · by_cases h2 : i < lts.length + (failures lts).length
    · obtain ⟨j, rfl⟩ := Nat.exists_eq_add_of_le (Nat.le_of_not_lt h1)
      have hj : (failures lts)[j]? = some (failures lts)[j] := List.getElem?_eq_getElem (by omega)
      obtain ⟨hlt, hn, -⟩ := mem_failures hw (List.mem_of_getElem? hj)
      refine ⟨_, hlt, fun h => absurd h h1, ?_, ?_, ?_, fun e he => ?_, isFailure_of_copy hw hj⟩
      · rw [(hcopy j _ hj).1]
        show (failures lts)[j].parent = _
        conv_lhs => rw [hn]
        rfl
      · rw [(hcopy j _ hj).1]
        show (failures lts)[j].distance = _
        conv_lhs => rw [hn]
        rfl
      · rw [(hcopy j _ hj).1]
        exact Nat.le_refl _
      · rw [(hcopy j _ hj).1] at he
        obtain ⟨e', he', rfl⟩ := List.mem_map.1 he
        obtain ⟨e, hmem, rfl⟩ := List.mem_map.1 he'
        rw [hn] at hmem
        rw [modelingToTau_toState]
        exact hto _ e (List.mem_filter.1 hmem).1
    · obtain ⟨j, rfl⟩ := Nat.exists_eq_add_of_le (Nat.le_of_not_lt h2)
      have hj : (failures lts)[j]? = some (failures lts)[j] := List.getElem?_eq_getElem (by omega)
      obtain ⟨hlt, hn, -⟩ := mem_failures hw (List.mem_of_getElem? hj)
      refine ⟨_, hlt, fun h => absurd h h1, ?_, ?_, ?_, fun e he => ?_, (isDeadlock_spare hw hj).1⟩
      · rw [(hcopy j _ hj).2]
        show (failures lts)[j].parent = _
        conv_lhs => rw [hn]
        rfl
      · rw [(hcopy j _ hj).2]
        show (failures lts)[j].distance = _
        conv_lhs => rw [hn]
        rfl
      · rw [(hcopy j _ hj).2]
        show (failures lts)[j].state ≤ _
        omega
      · rw [(hcopy j _ hj).2] at he
        obtain ⟨e, hmem, rfl⟩ := List.mem_map.1 he
        rw [hn] at hmem
        rw [modelingToTau_toState]
        exact hto _ e (List.mem_filter.1 hmem).1

end

/-- A trace depends on the parents from its node back to the initial one. -/
theorem trace_congr {lts' : Lts} (hfrom : ∀ s e, (node lts s).parent = some e → e.fromState < lts.length)
    (hparent : ∀ s, s < lts.length → (node lts' s).parent = (node lts s).parent) {i s : Nat}
    (hp : (node lts' i).parent = (node lts s).parent) (hd : (node lts' i).distance = (node lts s).distance) :
    trace lts' i = trace lts s := by
  have hrun : ∀ fuel s es, s < lts.length →
      Loop.run (traceStep lts') fuel (s, es) = Loop.run (traceStep lts) fuel (s, es) := by
    intro fuel
    induction fuel with
    | zero => intro s es _; rfl
    | succ fuel ih =>
      intro s es hs
      rw [Loop.run, Loop.run, traceStep, traceStep, hparent s hs]
      cases he : (node lts s).parent with
      | none => rfl
      | some e => exact ih _ _ (hfrom s e he)
  rw [trace, trace, hd, Loop.run, Loop.run, traceStep, traceStep, hp]
  cases he : (node lts s).parent with
  | none => rfl
  | some e => exact congrArg (Option.map Prod.snd) (hrun _ _ _ (hfrom s e he))

end

/-! ## The systems the checks run on -/

/-- The LTS of an AUT file, with labels hidden and state self-loops removed. -/
inductive Built : Lts → Prop
  | construct {aut : Aut} {lts : Lts} : constructLts aut = some lts → Built lts
  | hide {lts : Lts} (tau excludeTau : List String) : Built lts → Built (ltsHide lts tau excludeTau)
  | removeStateLoops {lts : Lts} : Built lts → Built (removeStateLoops lts)
  | hideState {lts : Lts} : Built lts → Built (ltsHideState lts)

/-- An edge of a node as it is, but that a state label may be hidden. -/
def Follows (lts : Lts) (s : Nat) (e : Edge String) (t : Nat) : Prop :=
  ∃ e' ∈ (node lts s).edges, e'.toState = t ∧
    (e'.label = e.label ∨ stringContains e.label stateLabel = true ∧ e'.label = tauLabel)

section
variable {lts : Lts} {f : Edge String → Edge String} {keep : Edge String → Bool}

/-- The nodes of a vector with some edges left out and the others relabelled. -/
def mapEdges (f : Edge String → Edge String) (keep : Edge String → Bool) (lts : Lts) : Lts :=
  lts.map fun n => { n with edges := (n.edges.filter keep).map f }

theorem mapEdges_node (f : Edge String → Edge String) (keep : Edge String → Bool) (i : Nat) :
    node (mapEdges f keep lts) i = { node lts i with edges := ((node lts i).edges.filter keep).map f } := by
  by_cases hi : i < lts.length
  · rw [mapEdges, node_map _ hi]
  · rw [node, node, List.getElem?_eq_none (by rw [mapEdges, List.length_map]; omega), List.getElem?_eq_none (by omega)]
    rfl

theorem mapEdges_initial : Lts.initial (mapEdges f keep lts) = lts.initial := by
  apply initial_congr
  rw [mapEdges, List.map_map]
  rfl

theorem mapEdges_wellFormed (hf : ∀ e, (f e).fromState = e.fromState ∧ (f e).toState = e.toState)
    (h : WellFormed lts) : WellFormed (mapEdges f keep lts) := by
  have hlen : (mapEdges f keep lts).length = lts.length := List.length_map _
  refine ⟨by rw [mapEdges_initial, hlen]; exact h.initial, fun i hi => ?_, fun i e he => ?_, fun i e he => ?_⟩
  · rw [mapEdges_node]
    exact h.state i (by omega)
  · rw [mapEdges_node] at he
    obtain ⟨d, hd, rfl⟩ := List.mem_map.1 he
    rw [(hf d).1]
    exact h.fromState i d (List.mem_filter.1 hd).1
  · rw [mapEdges_node] at he
    obtain ⟨d, hd, rfl⟩ := List.mem_map.1 he
    rw [(hf d).2, hlen]
    exact h.toState i d (List.mem_filter.1 hd).1

/-- Relabelling, and leaving out self-loops, keeps distances and parents right. -/
theorem mapEdges_annotated {edge edge' : Nat → Edge String → Nat → Prop}
    (hf : ∀ e, (f e).toState = e.toState) (hedge : ∀ s e t, s ≠ t → edge s e t → edge' s e t)
    (h : Annotated edge lts) : Annotated edge' (mapEdges f keep lts) := by
  refine ⟨?_, fun i e hp => ?_, fun i hi hp => ?_, fun p i hwalk => ?_⟩
  · rw [mapEdges_initial, mapEdges_node]
    exact h.start
  · rw [mapEdges_node] at hp ⊢
    rw [mapEdges_node]
    obtain ⟨he, h0, hd⟩ := h.parent i e hp
    have hne : e.fromState ≠ i := by
      intro heq
      rw [heq] at hd
      omega
    exact ⟨hedge _ _ _ hne he, h0, hd⟩
  · rw [mapEdges_node] at hi hp
    rw [mapEdges_initial]
    exact h.root i hi hp
  · have hold : ∀ {p s t}, Trace (mapEdges f keep lts) s p t → ∃ q, Trace lts s q t ∧ q.length = p.length := by
      intro p s t hp
      induction hp with
      | nil s => exact ⟨[], .nil s, rfl⟩
      | cons he _ ih =>
        obtain ⟨q, hq, hlen⟩ := ih
        obtain ⟨hmem, rfl⟩ := he
        rw [mapEdges_node] at hmem
        obtain ⟨d, hd, rfl⟩ := List.mem_map.1 hmem
        rw [hf] at hq
        exact ⟨d :: q, .cons ⟨(List.mem_filter.1 hd).1, rfl⟩ hq, by simp [hlen]⟩
    obtain ⟨q, hq, hlen⟩ := hold hwalk
    rw [mapEdges_initial] at hq
    rw [mapEdges_node, ← hlen]
    exact h.shortest q i hq

theorem ltsHide_eq (tau excludeTau : List String) :
    ltsHide lts tau excludeTau = mapEdges (setEdgeTau tau excludeTau) (fun _ => true) lts := by
  simp [ltsHide, mapEdges]

theorem removeStateLoops_eq : removeStateLoops lts = mapEdges id (fun e => !e.stateLoop) lts := by
  simp [removeStateLoops, mapEdges]

theorem ltsHideState_eq : ltsHideState lts = mapEdges setStateEdgeTau (fun _ => true) lts := by
  simp [ltsHideState, mapEdges]

theorem setStateEdgeTau_ends (e : Edge String) :
    (setStateEdgeTau e).fromState = e.fromState ∧ (setStateEdgeTau e).toState = e.toState := by
  unfold setStateEdgeTau
  split <;> exact ⟨rfl, rfl⟩

theorem Built.wellFormed (h : Built lts) : WellFormed lts := by
  induction h with
  | @construct aut lts h =>
    obtain ⟨lts', he, -, hw, -⟩ := constructLts_annotated aut
    obtain rfl := Option.some.inj (he.symm.trans h)
    exact hw
  | hide tau excludeTau _ ih =>
    rw [ltsHide_eq]
    exact mapEdges_wellFormed (fun _ => ⟨rfl, rfl⟩) ih
  | removeStateLoops _ ih =>
    rw [removeStateLoops_eq]
    exact mapEdges_wellFormed (fun _ => ⟨rfl, rfl⟩) ih
  | hideState _ ih =>
    rw [ltsHideState_eq]
    exact mapEdges_wellFormed setStateEdgeTau_ends ih

theorem Built.annotated (h : Built lts) : Annotated (Follows lts) lts := by
  induction h with
  | @construct aut lts h =>
    obtain ⟨lts', he, -, -, ha, -⟩ := constructLts_annotated aut
    obtain rfl := Option.some.inj (he.symm.trans h)
    exact ha.mono fun s e t he => ⟨e, he.1, he.2, .inl rfl⟩
  | @hide lts tau excludeTau _ ih =>
    rw [ltsHide_eq]
    refine mapEdges_annotated (fun _ => rfl) (fun s e t _ he => ?_) ih
    obtain ⟨e', he', ht, hl⟩ := he
    refine ⟨setEdgeTau tau excludeTau e', ?_, ht, hl⟩
    rw [mapEdges_node]
    exact List.mem_map_of_mem (List.mem_filter.2 ⟨he', rfl⟩)
  | @removeStateLoops lts hb ih =>
    rw [removeStateLoops_eq]
    refine mapEdges_annotated (fun _ => rfl) (fun s e t hst he => ?_) ih
    obtain ⟨e', he', ht, hl⟩ := he
    refine ⟨e', ?_, ht, hl⟩
    have hfrom := hb.wellFormed.fromState s e' he'
    rw [mapEdges_node, List.map_id]
    refine List.mem_filter.2 ⟨he', ?_⟩
    have : decide (e'.fromState = e'.toState) = false := by simp [hfrom, ht, hst]
    rw [Edge.stateLoop, this, Bool.and_false]
    rfl
  | @hideState lts _ ih =>
    rw [ltsHideState_eq]
    refine mapEdges_annotated (fun e => (setStateEdgeTau_ends e).2) (fun s e t _ he => ?_) ih
    obtain ⟨e', he', ht, hl⟩ := he
    refine ⟨setStateEdgeTau e', ?_, (setStateEdgeTau_ends e').2.trans ht, ?_⟩
    · rw [mapEdges_node]
      exact List.mem_map_of_mem (List.mem_filter.2 ⟨he', rfl⟩)
    · rw [setStateEdgeTau]
      split
      · rename_i hs
        rcases hl with hl | ⟨hl, -⟩
        · exact .inr ⟨hl ▸ hs, rfl⟩
        · exact .inr ⟨hl, rfl⟩
      · exact hl

end

/-! ## The theorem -/

/-- `assert-deadlock` of an LTS with failures finds nothing exactly if no node is a failure, and else its
trace, followed in the LTS without them, leads to one. -/
theorem assertDeadlock_addFailures {lts : Lts} (h : Built lts) (hr : ∀ s, s < lts.length → Reachable lts s) :
    ∃ r, assertDeadlock (addFailures lts) = some r ∧
      (r = none ↔ ∀ s, s < lts.length → ¬ IsFailure lts s) ∧
      ∀ p, r = some p → ∃ s, s < lts.length ∧ IsFailure lts s ∧ Walk (Follows lts) lts.initial p s := by
  have hw := h.wellFormed
  have ha := h.annotated
  have hdist : ∀ s, s < lts.length → 0 ≤ (node lts s).distance := by
    intro s hs
    obtain ⟨p, hp⟩ := hr s hs
    exact (ha.shortest p s hp).1
  have hfrom : ∀ s e, (node lts s).parent = some e → e.fromState < lts.length := by
    intro s e he
    obtain ⟨-, h0, -⟩ := ha.parent s e he
    by_contra hlt
    rw [node, List.getElem?_eq_none (by omega)] at h0
    exact absurd h0 (by simp)
  have hlen := (addFailures_nodes hw).1
  have horigin := fun i hi => addFailures_origin hw (i := i) hi
  have hparent : ∀ s, s < lts.length → (node (addFailures lts) s).parent = (node lts s).parent := by
    intro s hs
    obtain ⟨s', -, heq, hp, -⟩ := horigin s (by omega)
    rw [hp, heq hs]
  have hto : ∀ i, ∀ e ∈ (node (addFailures lts) i).edges, e.toState < (addFailures lts).length := by
    intro i e he
    by_cases hi : i < (addFailures lts).length
    · obtain ⟨-, -, -, -, -, -, hto, -⟩ := horigin i hi
      exact hto e he
    · rw [node_of_le (by omega)] at he
      cases he
  obtain ⟨P, heq, hP⟩ := deadlockNodes_eq (fun i hi => (horigin i hi).choose_spec.2.2.2.2.1) hto
  rw [assertDeadlock, heq]
  cases hl : (iotaDistanceSorted (addFailures lts)).filter P with
  | nil =>
    refine ⟨none, rfl, ⟨fun _ s hs hfail => ?_, fun _ => rfl⟩, fun p hp => by cases hp⟩
    obtain ⟨i, hi, hdead⟩ := exists_isDeadlock hw hs hfail
    have := filter_iotaDistanceSorted_nil.1 hl i hi
    rw [(hP i hi).2 hdead] at this
    cases this
  | cons i rest =>
    obtain ⟨hi, hPi, -⟩ := filter_iotaDistanceSorted_cons hl
    obtain ⟨s, hs, -, hpar, hdis, -, -, hfail⟩ := horigin i hi
    have hfail := hfail ((hP i hi).1 hPi)
    obtain ⟨p, hp, hwalk, -⟩ := trace_walk ha (hdist s hs)
    refine ⟨some p, ?_, ⟨fun hn => (by cases hn), fun hn => absurd hfail (hn s hs)⟩, fun q hq => ?_⟩
    · rw [traceToFirst, trace_congr hfrom hparent hpar hdis, hp]
      rfl
    · obtain rfl := Option.some.inj hq
      exact ⟨s, hs, hfail, hwalk⟩

/-- `0 -p.optional-> 1`, `0 -<state>-> 0`, `1 -a-> 0`: without the optional event only the state loop is left. -/
def optionalAut : Aut :=
  ⟨0, 2, [makeEdge 0 "p.optional" 1 false, makeEdge 0 "p.<state>" 0 false, makeEdge 1 "a" 0 false],
    Nat.two_pos, by decide⟩

def optionalLts : Lts := (constructLts optionalAut).getD []

theorem assertDeadlock_addFailures_optional :
    ∃ r, assertDeadlock (addFailures optionalLts) = some r ∧
      (r = none ↔ ∀ s, s < optionalLts.length → ¬ IsFailure optionalLts s) ∧
      ∀ p, r = some p → ∃ s, s < optionalLts.length ∧ IsFailure optionalLts s ∧
        Walk (Follows optionalLts) optionalLts.initial p s := by
  have h : constructLts optionalAut = some optionalLts := by decide
  exact assertDeadlock_addFailures (.construct h) (reachable_of_distance h (by decide))

example : assertDeadlock (addFailures optionalLts) = some (some []) := by decide

end Dezyne
