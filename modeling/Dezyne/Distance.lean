import Mathlib.Algebra.Order.BigOperators.Group.List
import Mathlib.Data.Finset.Card
import Mathlib.Order.Interval.Finset.Nat
import Mathlib.Tactic.Ring
import Dezyne.Lts
/-!
# Distances and parents

`annotate-parent` goes through the nodes by their distance from the initial
one. Every node it reaches has a parent at the distance before, and the nodes
a finished one has edges to are at most one further, so the distance it ends
with is that of a shortest walk, which `trace` reads back.
-/

namespace Dezyne

namespace Lts

variable {lts : Lts} {i j : Nat}

/-! ## Vectors -/

theorem node_eq (h : i < lts.length) : node lts i = lts[i] := by
  rw [node, List.getElem?_eq_getElem h, Option.getD_some]

theorem node_of_le (h : lts.length ≤ i) : (node lts i).edges = [] := by
  rw [node, List.getElem?_eq_none h, Option.getD_none]

theorem node_set_self (h : i < lts.length) (n : Node) : node (lts.set i n) i = n := by
  rw [node_eq (by simpa using h), List.getElem_set_self]

theorem node_set_ne (h : i ≠ j) (n : Node) : node (lts.set i n) j = node lts j := by
  simp only [node, List.getElem?_set_ne h]

theorem node_map (f : Node → Node) (h : i < lts.length) : node (lts.map f) i = f (node lts i) := by
  rw [node_eq (by simpa using h), List.getElem_map, node_eq h]

theorem node_modify_self (f : Node → Node) (h : i < lts.length) :
    node (lts.modify i f) i = f (node lts i) := by
  rw [node_eq (by simpa using h), List.getElem_modify_eq, node_eq h]

theorem node_modify_ne (f : Node → Node) (h : i ≠ j) : node (lts.modify i f) j = node lts j := by
  simp only [node, List.getElem?_modify_ne f _ h]

/-! ## Well-formed vectors -/

/-- Every node knows its index, and the edges of a node start there and end in the vector. -/
structure WellFormed (lts : Lts) : Prop where
  initial : lts.initial < lts.length
  state : ∀ i, i < lts.length → (node lts i).state = i
  fromState : ∀ i, ∀ e ∈ (node lts i).edges, e.fromState = i
  toState : ∀ i, ∀ e ∈ (node lts i).edges, e.toState < lts.length

/-- An edge of a node. -/
def Step (lts : Lts) (s : Nat) (e : Edge String) (t : Nat) : Prop :=
  e ∈ (node lts s).edges ∧ e.toState = t

/-- The walks of an LTS. -/
abbrev Trace (lts : Lts) : Nat → List (Edge String) → Nat → Prop := Walk (Step lts)

/-- A walk leads there from the initial node. -/
def Reachable (lts : Lts) (s : Nat) : Prop := ∃ p, Trace lts lts.initial p s

theorem WellFormed.lt_of_step (h : WellFormed lts) {s t : Nat} {e : Edge String} (he : Step lts s e t) :
    t < lts.length := by
  obtain ⟨he, rfl⟩ := he
  exact h.toState s e he

end Lts

/-- A node without what `annotate-parent` sets. -/
def Node.bare (n : Node) : Node := { n with distance := -1, parent := none }

/-! ## One node of the frontier -/

open Lts

section
variable {lts : Lts} {d : Int} {es : List (Edge String)} {next : List Nat}

/-- The fold over the edges to nodes without a distance. -/
def updateAll (d : Int) (es : List (Edge String)) (lts : Lts) (next : List Nat) : Lts × List Nat :=
  es.foldl (fun r e => updateFrontier d e r.1 r.2) (lts, next)

theorem updateAll_cons (e : Edge String) : updateAll d (e :: es) lts next =
    updateAll d es (updateFrontier d e lts next).1 (updateFrontier d e lts next).2 := rfl

theorem updateAll_length : (updateAll d es lts next).1.length = lts.length := by
  induction es generalizing lts next with
  | nil => rfl
  | cons e es ih => rw [updateAll_cons, ih, updateFrontier, List.length_set]

theorem mem_updateAll {i : Nat} : i ∈ (updateAll d es lts next).2 ↔ i ∈ next ∨ ∃ e ∈ es, e.toState = i := by
  induction es generalizing lts next with
  | nil => simp [updateAll]
  | cons e es ih =>
    rw [updateAll_cons, ih, updateFrontier, List.mem_cons, List.exists_mem_cons_iff]
    tauto

theorem updateAll_length_next : (updateAll d es lts next).2.length = es.length + next.length := by
  induction es generalizing lts next with
  | nil => simp [updateAll]
  | cons e es ih =>
    rw [updateAll_cons, ih, updateFrontier, List.length_cons, List.length_cons]
    omega

theorem updateAll_bare (i : Nat) : (node (updateAll d es lts next).1 i).bare = (node lts i).bare := by
  induction es generalizing lts next with
  | nil => rfl
  | cons e es ih =>
    rw [updateAll_cons, ih, updateFrontier]
    by_cases hi : e.toState = i
    · subst hi
      by_cases hlt : e.toState < lts.length
      · rw [node_set_self hlt]
        rfl
      · rw [List.set_eq_of_length_le (by omega)]
    · rw [node_set_ne hi]

/-- A node no edge goes to stays. -/
theorem updateAll_other {i : Nat} (h : ∀ e ∈ es, e.toState ≠ i) :
    node (updateAll d es lts next).1 i = node lts i := by
  induction es generalizing lts next with
  | nil => rfl
  | cons e es ih =>
    rw [updateAll_cons, ih fun e he => h e (by simp [he]), updateFrontier, node_set_ne (h e (by simp))]

/-- A node an edge goes to gets the next distance, and such an edge as its parent. -/
theorem updateAll_target (d : Int) (next : List Nat) {i : Nat} (h : ∃ e ∈ es, e.toState = i)
    (hi : i < lts.length) : (node (updateAll d es lts next).1 i).distance = d + 1 ∧
      ∃ e ∈ es, e.toState = i ∧ (node (updateAll d es lts next).1 i).parent = some e := by
  induction es generalizing lts next with
  | nil => obtain ⟨e, he, -⟩ := h; cases he
  | cons e es ih =>
    rw [updateAll_cons]
    by_cases hes : ∃ e ∈ es, e.toState = i
    · have hlt : i < (updateFrontier d e lts next).1.length := by rwa [updateFrontier, List.length_set]
      obtain ⟨hd, e', he', ht, hp⟩ := @ih _ (updateFrontier d e lts next).2 hes hlt
      exact ⟨hd, e', by simp [he'], ht, hp⟩
    · have hnone : ∀ e ∈ es, e.toState ≠ i := fun e he hei => hes ⟨e, he, hei⟩
      have hei : e.toState = i := by
        obtain ⟨e', he', ht⟩ := h
        rcases List.mem_cons.1 he' with rfl | he'
        · exact ht
        · exact absurd ht (hnone e' he')
      subst hei
      rw [updateAll_other hnone, updateFrontier, node_set_self hi]
      exact ⟨rfl, e, by simp, rfl, rfl⟩

end

/-! ## The invariant -/

/-- What holds while the frontier is at distance `d` of the initial node. -/
structure Frontier (initial : Nat) (d : Int) (lts : Lts) (curr next : List Nat) : Prop where
  nonneg : 0 ≤ d
  start : (node lts initial).distance = 0 ∧ (node lts initial).parent = none
  inCurr : ∀ i ∈ curr, i < lts.length ∧ (node lts i).distance = d
  inNext : ∀ i ∈ next, i < lts.length ∧ (node lts i).distance = d + 1
  lower : ∀ i, -1 ≤ (node lts i).distance
  upper : ∀ i, (node lts i).distance ≤ d + 1
  parent : ∀ i e, (node lts i).parent = some e → Step lts e.fromState e i ∧
    0 ≤ (node lts e.fromState).distance ∧
    (node lts i).distance = (node lts e.fromState).distance + 1
  root : ∀ i, 0 ≤ (node lts i).distance → (node lts i).parent = none → i = initial
  closed : ∀ i, 0 ≤ (node lts i).distance → i ∈ curr ∨ i ∈ next ∨
    ∀ e ∈ (node lts i).edges, 0 ≤ (node lts e.toState).distance ∧
      (node lts e.toState).distance ≤ (node lts i).distance + 1

/-- The edges of a vector are those it had. -/
theorem bare_edges {n n' : Node} (h : n.bare = n'.bare) : n.edges = n'.edges := by
  have : n.bare.edges = n'.bare.edges := by rw [h]
  exact this

/-- What taking the node `state` of distance `d` from the frontier does to the node `i`. -/
structure Visits (d : Int) (state : Nat) (lts lts' : Lts) (next' : List Nat) (i : Nat) : Prop where
  bare : (node lts' i).bare = (node lts i).bare
  cases : ((node lts i).distance = -1 ∧ (node lts' i).distance = d + 1 ∧ i ∈ next' ∧
      ∃ e, Step lts state e i ∧ (node lts' i).parent = some e) ∨
    ((∀ e, Step lts state e i → (node lts i).distance ≠ -1) ∧ node lts' i = node lts i)

theorem updateAll_visits (d : Int) (state : Nat) {lts : Lts} (next : List Nat)
    (hto : ∀ i, ∀ e ∈ (node lts i).edges, e.toState < lts.length) (i : Nat) :
    Visits d state lts (updateAll d (newEdges lts state) lts next).1
      (updateAll d (newEdges lts state) lts next).2 i := by
  refine ⟨updateAll_bare i, ?_⟩
  by_cases hi : ∃ e ∈ newEdges lts state, e.toState = i
  · obtain ⟨e, he, rfl⟩ := hi
    obtain ⟨hmem, hnew⟩ := List.mem_filter.1 he
    obtain ⟨hdist, e', he', ht, hp⟩ := updateAll_target d next ⟨e, he, rfl⟩ (hto state e hmem)
    exact .inl ⟨by simpa using hnew, hdist, mem_updateAll.2 (.inr ⟨e, he, rfl⟩), e', ⟨(List.mem_filter.1 he').1, ht⟩, hp⟩
  · refine .inr ⟨?_, updateAll_other fun e he hei => hi ⟨e, he, hei⟩⟩
    rintro e ⟨he, rfl⟩ hnew
    exact hi ⟨e, List.mem_filter.2 ⟨he, by simpa using hnew⟩, rfl⟩

/-- Taking a node from the frontier keeps the invariant. -/
theorem Frontier.visit {initial state : Nat} {d : Int} {lts lts' : Lts} {curr next next' : List Nat}
    (hlen : lts'.length = lts.length) (hfrom : ∀ i, ∀ e ∈ (node lts i).edges, e.fromState = i)
    (hnext : ∀ i, i ∈ next' → i ∈ next ∨ i < lts.length ∧ (node lts' i).distance = d + 1)
    (hnext' : ∀ i ∈ next, i ∈ next') (hv : ∀ i, Visits d state lts lts' next' i)
    (h : Frontier initial d lts (state :: curr) next) :
    Frontier initial d lts' curr next' := by
  have hd : (node lts state).distance = d := (h.inCurr state (by simp)).2
  have hd0 := h.nonneg
  -- a node that had a distance stays
  have hold : ∀ i, 0 ≤ (node lts i).distance → node lts' i = node lts i := by
    intro i hi
    rcases (hv i).cases with ⟨hnew, -⟩ | ⟨-, hsame⟩
    · omega
    · exact hsame
  have hedges : ∀ i, (node lts' i).edges = (node lts i).edges := fun i => bare_edges (hv i).bare
  have hstate : node lts' state = node lts state := hold state (by omega)
  constructor
  case nonneg => exact hd0
  case start =>
    rw [show node lts' initial = node lts initial from hold initial (by rw [h.start.1])]
    exact h.start
  case inCurr =>
    intro i hi
    obtain ⟨hlt, hdist⟩ := h.inCurr i (List.mem_cons_of_mem _ hi)
    exact ⟨by rw [hlen]; exact hlt, by rw [show node lts' i = node lts i from hold i (by omega)]; exact hdist⟩
  case inNext =>
    intro i hi
    rcases hnext i hi with hi | ⟨hlt, hdist⟩
    · obtain ⟨hlt, hdist⟩ := h.inNext i hi
      exact ⟨by rw [hlen]; exact hlt, by rw [show node lts' i = node lts i from hold i (by omega)]; exact hdist⟩
    · exact ⟨by rw [hlen]; exact hlt, hdist⟩
  case lower =>
    intro i
    rcases (hv i).cases with ⟨-, hdist, -⟩ | ⟨-, hsame⟩
    · omega
    · rw [hsame]
      exact h.lower i
  case upper =>
    intro i
    rcases (hv i).cases with ⟨-, hdist, -⟩ | ⟨-, hsame⟩
    · omega
    · rw [hsame]
      exact h.upper i
  case parent =>
    intro i e hp
    rw [Step, hedges]
    rcases (hv i).cases with ⟨-, hdist, -, e', hstep, hp'⟩ | ⟨-, hsame⟩
    · obtain rfl : e' = e := Option.some.inj (hp'.symm.trans hp)
      rw [hfrom state e' hstep.1, hstate, hdist, hd]
      exact ⟨hstep, hd0, rfl⟩
    · obtain ⟨hstep, hpos, hdist⟩ := h.parent i e (by rw [← hsame]; exact hp)
      rw [hsame, show node lts' e.fromState = node lts e.fromState from hold _ hpos]
      exact ⟨hstep, hpos, hdist⟩
  case root =>
    intro i hpos hnone
    rcases (hv i).cases with ⟨-, -, -, e', -, hp'⟩ | ⟨-, hsame⟩
    · exact absurd (hp'.symm.trans hnone) (by simp)
    · exact h.root i (by rw [← hsame]; exact hpos) (by rw [← hsame]; exact hnone)
  case closed =>
    intro i hpos
    rcases (hv i).cases with ⟨-, -, hi, -⟩ | ⟨-, hsame⟩
    · exact .inr (.inl hi)
    · have hpos : 0 ≤ (node lts i).distance := by rw [← hsame]; exact hpos
      by_cases hi : i = state
      · -- the node that is finished: its edges go to nodes that have a distance now
        subst hi
        refine .inr (.inr fun e he => ?_)
        rw [hedges] at he
        rw [hstate, hd]
        rcases (hv e.toState).cases with ⟨-, hdist, -⟩ | ⟨hnew, hsame⟩
        · omega
        · have hne := hnew e ⟨he, rfl⟩
          have hlow := h.lower e.toState
          have hup := h.upper e.toState
          rw [hsame]
          omega
      · rcases h.closed i hpos with hc | hn | hclosed
        · rcases List.mem_cons.1 hc with rfl | hc
          · exact absurd rfl hi
          · exact .inl hc
        · exact .inr (.inl (hnext' i hn))
        · refine .inr (.inr fun e he => ?_)
          rw [hedges] at he
          obtain ⟨h0, h1⟩ := hclosed e he
          rw [hsame, show node lts' e.toState = node lts e.toState from hold _ h0]
          exact ⟨h0, h1⟩

/-- The next frontier becomes the frontier. -/
theorem Frontier.swap {initial : Nat} {d : Int} {lts : Lts} {next : List Nat}
    (h : Frontier initial d lts [] next) : Frontier initial (d + 1) lts next [] where
  nonneg := by have := h.nonneg; omega
  start := h.start
  inCurr := h.inNext
  inNext := by simp
  lower := h.lower
  upper i := by have := h.upper i; omega
  parent := h.parent
  root := h.root
  closed i hi := by
    rcases h.closed i hi with hc | hn | hclosed
    · cases hc
    · exact .inl hn
    · exact .inr (.inr hclosed)

/-! ## The run -/

/-- The nodes without a distance. -/
def unreached (lts : Lts) : Finset Nat := (Finset.range lts.length).filter fun i => (node lts i).distance = -1

/-- How much `annotate-parent-it` has to do still, where there are `E` edges at most at a node. -/
def Frontiers.measure (E : Nat) (f : Frontiers) : Nat :=
  (unreached f.lts).card * (2 * E + 1) + 2 * (f.curr.length + f.next.length) + if f.curr = [] then 1 else 0

/-- What `annotate-parent-it` keeps of the vector it starts with. -/
structure Frontiers.Invariant (start : Lts) (f : Frontiers) : Prop where
  length : f.lts.length = start.length
  bare : ∀ i, (node f.lts i).bare = (node start i).bare
  frontier : ∃ d, Frontier start.initial d f.lts f.curr f.next

theorem annotateParentStep_decreases {start : Lts} (hw : WellFormed start) {E : Nat}
    (hE : ∀ i, (node start i).edges.length ≤ E) :
    ∀ f f' : Frontiers, f.Invariant start → annotateParentStep f = some f' →
      f'.Invariant start ∧ f'.measure E < f.measure E := by
  rintro ⟨lts, curr, next⟩ f' ⟨hlen, hbare, d, hf⟩ hstep
  have hlen : lts.length = start.length := hlen
  have hedges : ∀ i, (node lts i).edges = (node start i).edges := fun i => bare_edges (hbare i)
  have hto : ∀ i, ∀ e ∈ (node lts i).edges, e.toState < lts.length := by
    intro i e he
    rw [hedges] at he
    rw [hlen]
    exact hw.toState i e he
  have hfrom : ∀ i, ∀ e ∈ (node lts i).edges, e.fromState = i := by
    intro i e he
    rw [hedges] at he
    exact hw.fromState i e he
  cases curr with
  | nil =>
    cases next with
    | nil => cases hstep
    | cons i next =>
      obtain rfl := Option.some.inj hstep
      exact ⟨⟨hlen, hbare, d + 1, hf.swap⟩, by simp [Frontiers.measure]⟩
  | cons state curr =>
    have hstep : f' = ⟨(updateAll (node lts state).distance (newEdges lts state) lts next).1, curr,
        (updateAll (node lts state).distance (newEdges lts state) lts next).2⟩ := (Option.some.inj hstep).symm
    have hd : (node lts state).distance = d := (hf.inCurr state (by simp)).2
    have hv := updateAll_visits d state next hto
    have hlen' : (updateAll d (newEdges lts state) lts next).1.length = lts.length := updateAll_length
    have hnext : (updateAll d (newEdges lts state) lts next).2.length = (newEdges lts state).length + next.length :=
      updateAll_length_next
    have hinNext : ∀ i, i ∈ (updateAll d (newEdges lts state) lts next).2 → i ∈ next ∨ i < lts.length ∧
        (node (updateAll d (newEdges lts state) lts next).1 i).distance = d + 1 := by
      intro i hi
      rcases mem_updateAll.1 hi with hi | ⟨e, he, rfl⟩
      · exact .inl hi
      · have hlt := hto state e (List.mem_filter.1 he).1
        exact .inr ⟨hlt, (updateAll_target d next ⟨e, he, rfl⟩ hlt).1⟩
    have hvisit := Frontier.visit hlen' hfrom hinNext (fun i hi => mem_updateAll.2 (.inl hi)) hv hf
    rw [hd] at hstep
    subst hstep
    refine ⟨⟨hlen'.trans hlen, fun i => (hv i).bare.trans (hbare i), d, hvisit⟩, ?_⟩
    -- a node that was reached stays reached
    have hsub : unreached (updateAll d (newEdges lts state) lts next).1 ⊆ unreached lts := by
      intro i hi
      rw [unreached, Finset.mem_filter, Finset.mem_range, hlen'] at hi
      rw [unreached, Finset.mem_filter, Finset.mem_range]
      refine ⟨hi.1, ?_⟩
      rcases (hv i).cases with ⟨hnew, -⟩ | ⟨-, hsame⟩
      · exact hnew
      · rw [← hsame]; exact hi.2
    have hcount : (newEdges lts state).length ≤ E := by
      have := hE state
      rw [← hedges] at this
      exact (List.length_filter_le _ _).trans this
    simp only [Frontiers.measure, hnext, List.length_cons]
    -- without new edges the frontier shrinks, and otherwise the nodes that are not reached do
    by_cases hnone : newEdges lts state = []
    · have := Finset.card_le_card hsub
      have := Nat.mul_le_mul_right (2 * E + 1) this
      rw [hnone] at this ⊢
      split <;> simp <;> omega
    · -- a node is reached
      obtain ⟨e, he⟩ := List.exists_mem_of_ne_nil _ hnone
      have hlt := hto state e (List.mem_filter.1 he).1
      have hmem : e.toState ∈ unreached lts := by
        have : (node lts e.toState).distance = -1 := by simpa using (List.mem_filter.1 he).2
        simp [unreached, hlt, this]
      have hnot : e.toState ∉ unreached (updateAll d (newEdges lts state) lts next).1 := by
        have := (updateAll_target d next ⟨e, he, rfl⟩ hlt).1
        have hd0 := hf.nonneg
        simp only [unreached, Finset.mem_filter, this]
        omega
      have hcard : (unreached (updateAll d (newEdges lts state) lts next).1).card < (unreached lts).card :=
        Finset.card_lt_card ⟨hsub, fun hsup => hnot (hsup hmem)⟩
      have := Nat.mul_le_mul_right (2 * E + 1) (Nat.succ_le_of_lt hcard)
      rw [Nat.succ_mul] at this
      split <;> simp <;> omega

/-! ## Annotated vectors -/

/-- The distance of every node is that of a shortest walk, and its parent, over the edges `edge`, is the
last edge of one. -/
structure Annotated (edge : Nat → Edge String → Nat → Prop) (lts : Lts) : Prop where
  start : (node lts lts.initial).distance = 0 ∧ (node lts lts.initial).parent = none
  parent : ∀ i e, (node lts i).parent = some e → edge e.fromState e i ∧
    0 ≤ (node lts e.fromState).distance ∧ (node lts i).distance = (node lts e.fromState).distance + 1
  root : ∀ i, 0 ≤ (node lts i).distance → (node lts i).parent = none → i = lts.initial
  shortest : ∀ p i, Trace lts lts.initial p i → 0 ≤ (node lts i).distance ∧ (node lts i).distance ≤ p.length

theorem Annotated.mono {edge edge' : Nat → Edge String → Nat → Prop} {lts : Lts}
    (he : ∀ s e t, edge s e t → edge' s e t) (h : Annotated edge lts) : Annotated edge' lts :=
  ⟨h.start, fun i e hp => ⟨he _ _ _ (h.parent i e hp).1, (h.parent i e hp).2⟩, h.root, h.shortest⟩

/-- No node has a distance or a parent. -/
def Blank (lts : Lts) : Prop := ∀ i, (node lts i).distance = -1 ∧ (node lts i).parent = none

theorem initial_congr {lts lts' : Lts} (h : lts'.map Node.initial = lts.map Node.initial) :
    Lts.initial lts' = Lts.initial lts := by
  have hid : ∀ l : Lts, Lts.initial l = if (l.map Node.initial).any id then (l.map Node.initial).findIdx id else 0 := by
    intro l
    rw [Lts.initial, List.any_map, List.findIdx_map]
    rfl
  rw [hid, hid, h]

theorem map_initial_of_bare {lts lts' : Lts} (hlen : lts'.length = lts.length)
    (hbare : ∀ i, (node lts' i).bare = (node lts i).bare) : lts'.map Node.initial = lts.map Node.initial := by
  apply List.ext_getElem
  · simpa using hlen
  · intro i h h'
    have hi : (node lts' i).bare.initial = (node lts i).bare.initial := by rw [hbare]
    have hi : (node lts' i).initial = (node lts i).initial := hi
    rw [node_eq (by simpa using h), node_eq (by simpa using h')] at hi
    simpa using hi

/-- `annotate-parent` ends, and annotates. -/
theorem annotateParent_annotated {lts : Lts} (hw : WellFormed lts) (hb : Blank lts) :
    ∃ lts', annotateParent lts = some lts' ∧ lts'.length = lts.length ∧
      (∀ i, (node lts' i).bare = (node lts i).bare) ∧ Annotated (Step lts') lts' := by
  have hE : ∀ i, (node lts i).edges.length ≤ lts.edgeCount := by
    intro i
    by_cases hi : i < lts.length
    · rw [node_eq hi]
      exact List.le_sum_of_mem (List.mem_map_of_mem (List.getElem_mem hi))
    · rw [node_of_le (Nat.le_of_not_lt hi)]
      exact Nat.zero_le _
  let first : Lts := lts.set lts.initial { node lts lts.initial with distance := 0, parent := none }
  have hself : node first lts.initial = { node lts lts.initial with distance := 0, parent := none } :=
    node_set_self hw.initial _
  have hother : ∀ i, i ≠ lts.initial → node first i = node lts i := fun i hi => node_set_ne (Ne.symm hi) _
  have hlen : first.length = lts.length := List.length_set
  have hbare : ∀ i, (node first i).bare = (node lts i).bare := by
    intro i
    by_cases hi : i = lts.initial
    · subst hi
      rw [hself]
      rfl
    · rw [hother i hi]
  have hdist : ∀ i, i ≠ lts.initial → (node first i).distance = -1 := fun i hi => by rw [hother i hi]; exact (hb i).1
  have hdist0 : (node first lts.initial).distance = 0 := by rw [hself]
  have hparent : ∀ i, (node first i).parent = none := by
    intro i
    by_cases hi : i = lts.initial
    · subst hi
      rw [hself]
    · rw [hother i hi]
      exact (hb i).2
  have hinit : Lts.initial first = lts.initial := initial_congr (map_initial_of_bare hlen hbare)
  -- the loop starts with the initial node as the only node of the frontier
  have hinv : Frontiers.Invariant lts ⟨first, [lts.initial], []⟩ := by
    refine ⟨hlen, hbare, 0, (?_ : Frontier lts.initial 0 first [lts.initial] [])⟩
    have hrange : ∀ i, (node first i).distance = -1 ∨ i = lts.initial ∧ (node first i).distance = 0 := by
      intro i
      by_cases hi : i = lts.initial
      · exact .inr ⟨hi, by rw [hi, hdist0]⟩
      · exact .inl (hdist i hi)
    refine ⟨Int.le_refl 0, ⟨hdist0, hparent _⟩, ?_, by simp, ?_, ?_, ?_, ?_, ?_⟩
    · intro i hi
      obtain rfl := List.mem_singleton.1 hi
      exact ⟨by rw [hlen]; exact hw.initial, hdist0⟩
    · intro i
      rcases hrange i with h | ⟨-, h⟩ <;> omega
    · intro i
      rcases hrange i with h | ⟨-, h⟩ <;> omega
    · intro i e he
      rw [hparent] at he
      cases he
    · intro i hi _
      rcases hrange i with h | ⟨h, -⟩
      · omega
      · exact h
    · intro i hi
      rcases hrange i with h | ⟨h, -⟩
      · omega
      · exact .inl (by simp [h])
  -- the fuel covers all nodes and all edges
  have hmeasure : Frontiers.measure lts.edgeCount ⟨first, [lts.initial], []⟩ <
      2 * (first.length + 1) * (first.edgeCount + 1) := by
    have hcount : first.edgeCount = lts.edgeCount := by
      have hmap : first.map (·.edges.length) = lts.map (·.edges.length) := by
        apply List.ext_getElem
        · simpa using hlen
        · intro i h h'
          have hi := bare_edges (hbare i)
          rw [node_eq (by simpa using h), node_eq (by simpa using h')] at hi
          simp [hi]
      rw [Lts.edgeCount, hmap, Lts.edgeCount]
    have hcard : (unreached first).card ≤ first.length := by
      have := Finset.card_filter_le (Finset.range first.length) fun i => (node first i).distance = -1
      simpa [unreached] using this
    have hpos : 0 < first.length := by rw [hlen]; have := hw.initial; omega
    have := Nat.mul_le_mul_right (2 * lts.edgeCount + 1) hcard
    rw [hcount]
    simp only [Frontiers.measure, List.length_singleton, List.length_nil]
    rw [if_neg (by simp)]
    have hexpand : 2 * (first.length + 1) * (lts.edgeCount + 1) =
        first.length * (2 * lts.edgeCount + 1) + first.length + 2 * lts.edgeCount + 2 := by ring
    omega
  obtain ⟨r, hrun, ⟨hrlen, hrbare, d, hf⟩, hdone⟩ :=
    Loop.run_ends _ (annotateParentStep_decreases hw hE) hinv hmeasure
  obtain ⟨lts', curr, next⟩ := r
  have hempty : curr = [] ∧ next = [] := by
    cases curr <;> cases next <;> first | exact ⟨rfl, rfl⟩ | cases hdone
  obtain ⟨rfl, rfl⟩ := hempty
  have hf : Frontier lts.initial d lts' [] [] := hf
  have hinit' : Lts.initial lts' = lts.initial := initial_congr (map_initial_of_bare hrlen hrbare)
  refine ⟨lts', ?_, hrlen, hrbare, ?_, ?_, ?_, ?_⟩
  · show (Loop.run annotateParentStep (2 * (first.length + 1) * (first.edgeCount + 1))
      ⟨first, [Lts.initial first], []⟩).map Frontiers.lts = some lts'
    rw [hinit, hrun]
    rfl
  · rw [hinit']
    exact hf.start
  · exact hf.parent
  · rw [hinit']
    exact hf.root
  · -- no node is left to visit, so the distance grows by one at most along every edge
    have hwalk : ∀ {p s t}, Trace lts' s p t → 0 ≤ (node lts' s).distance →
        0 ≤ (node lts' t).distance ∧ (node lts' t).distance ≤ (node lts' s).distance + p.length := by
      intro p s t hp
      induction hp with
      | nil => intro hs; exact ⟨hs, by simp⟩
      | @cons s t u e p he _ ih =>
        intro hs
        obtain ⟨hmem, rfl⟩ := he
        rcases hf.closed s hs with hc | hn | hclosed
        · cases hc
        · cases hn
        · obtain ⟨h0, h1⟩ := hclosed e hmem
          obtain ⟨hu0, hu1⟩ := ih h0
          refine ⟨hu0, ?_⟩
          rw [List.length_cons]
          push_cast
          omega
    intro p i hp
    rw [hinit'] at hp
    have hstart := hf.start.1
    obtain ⟨h0, h1⟩ := hwalk hp (by rw [hstart])
    exact ⟨h0, by omega⟩

/-! ## Traces -/

/-- `trace` reads a shortest walk back. -/
theorem trace_walk {edge : Nat → Edge String → Nat → Prop} {lts : Lts} (h : Annotated edge lts) {s : Nat}
    (hs : 0 ≤ (node lts s).distance) :
    ∃ p, trace lts s = some p ∧ Walk edge lts.initial p s ∧ (p.length : Int) = (node lts s).distance := by
  let inv : Nat × List (Edge String) → Prop := fun x => 0 ≤ (node lts x.1).distance ∧
    Walk edge x.1 x.2 s ∧ (node lts x.1).distance + x.2.length = (node lts s).distance
  have hstep : ∀ x y, inv x → traceStep lts x = some y →
      inv y ∧ (node lts y.1).distance.toNat < (node lts x.1).distance.toNat := by
    rintro ⟨state, edges⟩ y ⟨-, hwalk, hsum⟩ hstep
    obtain ⟨e, he, rfl⟩ := Option.map_eq_some_iff.1 hstep
    obtain ⟨hedge, h0, hdist⟩ := h.parent state e he
    have hsum : (node lts state).distance + edges.length = (node lts s).distance := hsum
    refine ⟨⟨h0, .cons hedge hwalk, ?_⟩, ?_⟩
    · show (node lts e.fromState).distance + (e :: edges).length = (node lts s).distance
      rw [List.length_cons]
      push_cast
      omega
    · show (node lts e.fromState).distance.toNat < (node lts state).distance.toNat
      omega
  obtain ⟨⟨state, p⟩, hrun, ⟨h0, hwalk, hsum⟩, hdone⟩ :=
    Loop.run_ends (fun x : Nat × List (Edge String) => (node lts x.1).distance.toNat) hstep
      (s := (s, [])) ⟨hs, .nil s, by simp⟩ (Nat.lt_succ_self _)
  have hroot : state = lts.initial := h.root state h0 (by simpa [traceStep] using hdone)
  subst hroot
  refine ⟨p, by rw [trace, hrun]; rfl, hwalk, ?_⟩
  have hstart := h.start.1
  have hsum : (node lts lts.initial).distance + p.length = (node lts s).distance := hsum
  omega

end Dezyne
