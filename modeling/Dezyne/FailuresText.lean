import Dezyne.Failures
import Dezyne.LtsText
/-!
# What `add-failures` adds

Every node with optional edges should get one copy without them, in a state
after those there were, and one `tau` edge to it. The copies are put into the
vector while it grows, and then appended once more.
-/

namespace Dezyne

open Lts

/-! ## What it is for -/

/-- A node has optional edges. -/
def Node.hasOptional (n : Node) : Bool := n.edges.any Edge.optional

/-- The number of nodes with optional edges. -/
def Lts.optionalCount (lts : Lts) : Nat := lts.countP Node.hasOptional

/-- The result has the nodes there were and one copy for every node with optional edges. -/
structure WithFailures (lts result : Lts) : Prop where
  count : result.length = lts.length + lts.optionalCount
  state : ∀ i, i < result.length → (node result i).state = i
  fromState : ∀ i, i < result.length → ∀ e ∈ (node result i).edges, e.fromState = i
  /-- The other nodes have their edges, relabelled. -/
  plain : ∀ i, i < lts.length → (node lts i).hasOptional = false →
    (node result i).edges = (node lts i).edges.map Edge.modelingToTau
  /-- A node with optional edges has its edges, and one to its own copy, which has the others of them. -/
  copies : ∃ copy : Nat → Nat,
    (∀ i, i < lts.length → (node lts i).hasOptional = true → lts.length ≤ copy i ∧ copy i < result.length) ∧
    (∀ i j, i < lts.length → j < lts.length → (node lts i).hasOptional = true → (node lts j).hasOptional = true →
      copy i = copy j → i = j) ∧
    ∀ i, i < lts.length → (node lts i).hasOptional = true →
      (node result i).edges.Perm (makeEdge i tauLabel (copy i) false :: (node lts i).edges.map Edge.modelingToTau) ∧
      (node result (copy i)).edges.Perm
        ((((node lts i).edges.filter fun e => !e.optional).map Edge.modelingToTau).map
          fun e => { e with fromState := copy i })
  /-- `display-lts` prints a header with these counts, and the edges. -/
  printed : displayLts result =
    headerLine lts.initial
      (lts.edgeCount + lts.optionalCount +
        ((lts.filter Node.hasOptional).map fun n => (n.edges.filter fun e => !e.optional).length).sum)
      (lts.length + lts.optionalCount) ++ '\n' :: (result.flatMap Node.edges).flatMap displayEdge

/-! ## Without optional edges -/

section
variable {lts : Lts}

theorem length_failures (lts : Lts) : (failures lts).length = lts.optionalCount := by
  rw [failures, List.length_map, Lts.optionalCount, List.countP_eq_length_filter]
  rfl

theorem optionalCount_eq_zero_iff :
    lts.optionalCount = 0 ↔ ∀ n ∈ lts, ∀ e ∈ n.edges, e.optional = false := by
  simp [Lts.optionalCount, Node.hasOptional, List.countP_eq_zero]

/-- When no node has optional edges, the edges are relabelled and that is all. -/
theorem addFailures_none (h : lts.optionalCount = 0) : addFailures lts = lts.map Node.modelingToTau := by
  have hnil : failures lts = [] := List.eq_nil_of_length_eq_zero (by rw [length_failures, h])
  simp [addFailures, hnil]

theorem mem_of_node {i : Nat} (hi : i < lts.length) : node lts i ∈ lts := by
  rw [node, List.getElem?_eq_getElem hi]
  exact List.getElem_mem hi

theorem modelingToTau_fromState (e : Edge String) : e.modelingToTau.fromState = e.fromState := by
  rw [Edge.modelingToTau]
  split <;> rfl

theorem initial_modelingToTau (lts : Lts) : Lts.initial (lts.map Node.modelingToTau) = lts.initial := by
  apply initial_congr
  simp [Node.modelingToTau]

theorem withFailures_none (hw : WellFormed lts) (h : lts.optionalCount = 0) :
    WithFailures lts (lts.map Node.modelingToTau) := by
  have hplain : ∀ i, i < lts.length → (node lts i).hasOptional = false := by
    intro i hi
    have := optionalCount_eq_zero_iff.1 h (node lts i) (mem_of_node hi)
    simpa [Node.hasOptional] using this
  have hnode : ∀ i, i < lts.length → node (lts.map Node.modelingToTau) i = (node lts i).modelingToTau :=
    fun i hi => node_map _ hi
  refine ⟨by simp [h], fun i hi => ?_, fun i hi e he => ?_, fun i hi _ => by rw [hnode i hi]; rfl, ⟨id, ?_, ?_, ?_⟩, ?_⟩
  · rw [List.length_map] at hi
    rw [hnode i hi]
    exact hw.state i hi
  · rw [List.length_map] at hi
    rw [hnode i hi] at he
    obtain ⟨e, hmem, rfl⟩ := List.mem_map.1 he
    rw [modelingToTau_fromState]
    exact hw.fromState i e hmem
  · intro i hi ho
    simp [hplain i hi] at ho
  · intro i _ hi _ ho
    simp [hplain i hi] at ho
  · intro i hi ho
    simp [hplain i hi] at ho
  · have hnil : lts.filter Node.hasOptional = [] :=
      List.eq_nil_of_length_eq_zero (by rw [← List.countP_eq_length_filter, ← Lts.optionalCount, h])
    have hedges : ((lts.map Node.modelingToTau).flatMap Node.edges).length = lts.edgeCount := by
      simp [List.length_flatMap, Lts.edgeCount, Node.modelingToTau, Function.comp_def]
    have hinitial := initial_modelingToTau lts
    simp only [displayLts, headerLine, hedges, hinitial, h, hnil, List.length_map]
    simp

/-- `add-failures` adds one copy for every node with optional edges, and nothing else, if and only if there is none. -/
theorem addFailures_withFailures_iff (hw : WellFormed lts) :
    WithFailures lts (addFailures lts) ↔ ∀ n ∈ lts, ∀ e ∈ n.edges, e.optional = false := by
  rw [← optionalCount_eq_zero_iff]
  constructor
  · intro h
    have hcount := h.count
    rw [(addFailures_nodes hw).1, length_failures] at hcount
    omega
  · intro h
    rw [addFailures_none h]
    exact withFailures_none hw h

end

/-! ## One state -/

/-- One state with an edge to itself. -/
def oneStateLts (label : String) : Lts := [⟨0, [makeEdge 0 label 0 false], [], true, .white, none, -1, none⟩]

theorem oneStateLts_wellFormed (label : String) : WellFormed (oneStateLts label) := by
  have hedges : ∀ i, ∀ e ∈ (node (oneStateLts label) i).edges, i = 0 ∧ e = makeEdge 0 label 0 false := by
    intro i e he
    cases i with
    | zero => exact ⟨rfl, List.mem_singleton.1 he⟩
    | succ i => simp [node, oneStateLts] at he
  refine ⟨by simp [Lts.initial, oneStateLts], fun i hi => ?_, fun i e he => ?_, fun i e he => ?_⟩
  · obtain rfl : i = 0 := by simpa [oneStateLts] using hi
    rfl
  · obtain ⟨rfl, rfl⟩ := hedges i e he
    rfl
  · obtain ⟨rfl, rfl⟩ := hedges i e he
    simp [makeEdge, oneStateLts]

theorem addFailures_inevitable :
    WithFailures (oneStateLts "inevitable") (addFailures (oneStateLts "inevitable")) ↔
      ∀ n ∈ oneStateLts "inevitable", ∀ e ∈ n.edges, e.optional = false :=
  addFailures_withFailures_iff (oneStateLts_wellFormed "inevitable")

/-- A state with an optional edge gets two copies. -/
theorem addFailures_optional_twice : ¬ WithFailures (oneStateLts "optional") (addFailures (oneStateLts "optional")) := by
  intro h
  have hcount := h.count
  revert hcount
  decide

end Dezyne
