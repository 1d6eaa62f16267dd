import Dezyne.Distance
/-!
# What `construct-lts` makes

Every node has the edges that start at it, sorted by their canonical label,
and without `#:pred?` the distances and parents of its shortest walks.
-/

namespace Dezyne

open Lts

section
variable {pred : Bool} {aut : Aut} {lts : Lts} {es : List (Edge String)} {i : Nat}

/-! ## Sorting -/

theorem perm_sortBy {α : Type} (less : α → α → Bool) (l : List α) : (sortBy less l).Perm l :=
  List.perm_insertionSort _ l

/-- Sorting by a key. -/
theorem pairwise_sortBy {α β : Type} [LinearOrder β] (f : α → β) (l : List α) :
    (sortBy (fun a b => decide (f a < f b)) l).Pairwise fun a b => f a ≤ f b := by
  have htotal : Std.Total fun a b : α => (!decide (f b < f a)) = true := ⟨fun a b => by simpa using le_total (f a) (f b)⟩
  have htrans : IsTrans α fun a b : α => (!decide (f b < f a)) = true :=
    ⟨fun a b c hab hbc => by simp only [Bool.not_eq_true', decide_eq_false_iff_not, not_lt] at *; exact hab.trans hbc⟩
  have := List.pairwise_insertionSort (fun a b : α => (!decide (f b < f a)) = true) l
  exact this.imp fun h => by simpa using h

/-! ## Nodes and edges -/

theorem foldl_setEdge_length : (es.foldl (setEdge pred) lts).length = lts.length := by
  induction es generalizing lts with
  | nil => rfl
  | cons e es ih =>
    rw [List.foldl_cons, ih]
    cases pred <;> simp [setEdge]

/-- A node gets its edges, and with `pred` those to it, the last one first. -/
theorem foldl_setEdge (h : i < lts.length) : node (es.foldl (setEdge pred) lts) i =
    { node lts i with
      edges := (es.filter fun e => e.fromState = i).reverse ++ (node lts i).edges
      pred := (if pred then (es.filter fun e => e.toState = i).reverse else []) ++ (node lts i).pred } := by
  induction es generalizing lts with
  | nil => simp
  | cons e es ih =>
    have hfrom : node (lts.modify e.fromState fun node => { node with edges := e :: node.edges }) i =
        if e.fromState = i then { node lts i with edges := e :: (node lts i).edges } else node lts i := by
      split
      · rename_i he
        subst he
        exact node_modify_self _ h
      · rename_i he
        exact node_modify_ne _ he
    have hto : ∀ l : Lts, i < l.length → node (l.modify e.toState fun node => { node with pred := e :: node.pred }) i =
        if e.toState = i then { node l i with pred := e :: (node l i).pred } else node l i := by
      intro l hl
      split
      · rename_i he
        subst he
        exact node_modify_self _ hl
      · rename_i he
        exact node_modify_ne _ he
    rw [List.foldl_cons, ih (by cases pred <;> simpa [setEdge] using h)]
    cases pred with
    | false =>
      simp only [setEdge, Bool.false_eq_true, if_false, hfrom, List.filter_cons]
      by_cases he : e.fromState = i <;> simp [he]
    | true =>
      simp only [setEdge, if_true, List.filter_cons]
      rw [hto _ (by simpa using h), hfrom]
      by_cases he : e.fromState = i <;> by_cases ht : e.toState = i <;> simp [he, ht]

theorem constructNodes_length : (constructNodes pred aut).length = aut.stateCount := by
  rw [constructNodes, List.length_map, foldl_setEdge_length, List.length_map, List.length_range]

/-- The node of a state. -/
theorem constructNodes_node (h : i < aut.stateCount) : node (constructNodes pred aut) i =
    { stateNode aut.firstState i with
      edges := sortBy (fun e0 e1 => e0.canonicalLabel < e1.canonicalLabel)
        (aut.edges.filter fun e => e.fromState = i).reverse
      pred := if pred then (aut.edges.filter fun e => e.toState = i).reverse else [] } := by
  have hlen : i < ((List.range aut.stateCount).map (stateNode aut.firstState)).length := by simpa using h
  have hnode : node ((List.range aut.stateCount).map (stateNode aut.firstState)) i = stateNode aut.firstState i := by
    rw [node_eq hlen, List.getElem_map, List.getElem_range]
  rw [constructNodes, node_map _ (by rw [foldl_setEdge_length]; exact hlen), foldl_setEdge hlen, hnode]
  simp [setNodeEdges, stateNode]

theorem mem_constructNodes {e : Edge String} :
    e ∈ (node (constructNodes pred aut) i).edges ↔ e ∈ aut.edges ∧ e.fromState = i := by
  by_cases h : i < aut.stateCount
  · rw [constructNodes_node h]
    show e ∈ sortBy _ _ ↔ _
    rw [(perm_sortBy _ _).mem_iff, List.mem_reverse, List.mem_filter]
    simp
  · rw [node_of_le (by rw [constructNodes_length]; omega)]
    constructor
    · intro he
      cases he
    · rintro ⟨he, rfl⟩
      exact absurd (aut.inRange e he).1 h

theorem initial_lt (h : 0 < lts.length) : lts.initial < lts.length := by
  rw [Lts.initial]
  split
  · rename_i hany
    obtain ⟨n, hn, hi⟩ := List.any_eq_true.1 hany
    exact List.findIdx_lt_length_of_exists ⟨n, hn, hi⟩
  · exact h

theorem constructNodes_wellFormed : WellFormed (constructNodes pred aut) where
  initial := initial_lt (by rw [constructNodes_length]; exact aut.nonempty)
  state i hi := by
    rw [constructNodes_length] at hi
    rw [constructNodes_node hi]
    rfl
  fromState i e he := (mem_constructNodes.1 he).2
  toState i e he := by
    rw [constructNodes_length]
    exact (aut.inRange e (mem_constructNodes.1 he).1).2

theorem constructNodes_blank : Blank (constructNodes pred aut) := by
  intro i
  by_cases h : i < aut.stateCount
  · rw [constructNodes_node h]
    exact ⟨rfl, rfl⟩
  · rw [node, List.getElem?_eq_none (by rw [constructNodes_length]; omega)]
    exact ⟨rfl, rfl⟩

/-! ## The annotated vector -/

/-- A vector with the same nodes but for distances and parents is as well-formed. -/
theorem Lts.WellFormed.of_bare {lts' : Lts} (hlen : lts'.length = lts.length)
    (hbare : ∀ i, (node lts' i).bare = (node lts i).bare) (h : WellFormed lts) : WellFormed lts' := by
  have hedges : ∀ i, (node lts' i).edges = (node lts i).edges := fun i => bare_edges (hbare i)
  refine ⟨?_, ?_, ?_, ?_⟩
  · rw [initial_congr (map_initial_of_bare hlen hbare), hlen]
    exact h.initial
  · intro i hi
    have : (node lts' i).bare.state = (node lts i).bare.state := by rw [hbare]
    exact this.trans (h.state i (by rwa [← hlen]))
  · intro i e he
    exact h.fromState i e (by rwa [← hedges])
  · intro i e he
    rw [hlen]
    exact h.toState i e (by rwa [← hedges])

/-- `construct-lts` makes a well-formed vector of the edges, annotated with distances and parents. -/
theorem constructLts_annotated (aut : Aut) : ∃ lts, constructLts aut = some lts ∧
    lts.length = aut.stateCount ∧ WellFormed lts ∧ Annotated (Step lts) lts ∧
    (∀ i, (node lts i).bare = (node (constructNodes false aut) i).bare) := by
  obtain ⟨lts, he, hlen, hbare, ha⟩ := annotateParent_annotated (constructNodes_wellFormed )
    constructNodes_blank
  exact ⟨lts, he, hlen.trans constructNodes_length, constructNodes_wellFormed.of_bare hlen hbare, ha, hbare⟩

/-- A node that got a distance is reachable. -/
theorem reachable_of_distance {aut : Aut} {lts : Lts} (h : constructLts aut = some lts)
    (hd : ∀ s, s < lts.length → 0 ≤ (node lts s).distance) : ∀ s, s < lts.length → Reachable lts s := by
  obtain ⟨lts', he, -, -, ha, -⟩ := constructLts_annotated aut
  obtain rfl := Option.some.inj (he.symm.trans h)
  intro s hs
  obtain ⟨p, -, hp, -⟩ := trace_walk ha (hd s hs)
  exact ⟨p, hp⟩

end

end Dezyne
