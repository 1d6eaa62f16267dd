import Mathlib.Data.List.Lattice
import Mathlib.Data.List.Nodup
import Mathlib.Data.List.Perm.Subperm
import Mathlib.Logic.Relation
/-!
# What a finite graph reaches

The successors of a list of nodes are added to it, as many times as there are
nodes. `mem_closure`: the nodes of the list are then those that are reached.
-/

namespace Closure

variable {V : Type} [DecidableEq V] (succ : V → List V)

/-- The nodes and their successors. -/
def expand (l : List V) : List V := l.flatMap succ ∪ l

/-- The nodes after `n` expansions. -/
def closure : Nat → List V → List V
  | 0, l => l
  | n + 1, l => closure n (expand succ l)

/-- An edge of the graph. -/
def Edge (v w : V) : Prop := w ∈ succ v

/-- Every successor of a node of the list is in the list. -/
def Closed (l : List V) : Prop := ∀ v ∈ l, ∀ w ∈ succ v, w ∈ l

variable {succ} {l nodes : List V} {v w : V} {n : Nat}

theorem mem_expand : v ∈ expand succ l ↔ (∃ u ∈ l, v ∈ succ u) ∨ v ∈ l := by
  rw [expand, List.mem_union_iff, List.mem_flatMap]

theorem Closed.mem_expand (h : Closed succ l) : v ∈ expand succ l ↔ v ∈ l := by
  rw [Closure.mem_expand]
  constructor
  · rintro (⟨u, hu, hv⟩ | hv)
    · exact h u hu v hv
    · exact hv
  · exact Or.inr

theorem Closed.expand (h : Closed succ l) : Closed succ (expand succ l) := by
  intro v hv w hw
  rw [h.mem_expand] at hv ⊢
  exact h v hv w hw

theorem Closed.closure (h : Closed succ l) : Closed succ (closure succ n l) := by
  induction n generalizing l with
  | zero => exact h
  | succ n ih => exact ih h.expand

omit [DecidableEq V] in
theorem Closed.reaches (h : Closed succ l) (hv : v ∈ l) (hr : Relation.ReflTransGen (Edge succ) v w) :
    w ∈ l := by
  induction hr with
  | refl => exact hv
  | tail _ hw ih => exact h _ ih _ hw

theorem subset_closure : l ⊆ closure succ n l := by
  induction n generalizing l with
  | zero => exact List.Subset.refl l
  | succ n ih => exact fun v hv => ih (mem_expand.2 (.inr hv))

/-- Only what is reached is added. -/
theorem reached_of_mem (h : w ∈ closure succ n l) : ∃ v ∈ l, Relation.ReflTransGen (Edge succ) v w := by
  induction n generalizing l with
  | zero => exact ⟨w, h, .refl⟩
  | succ n ih =>
    obtain ⟨v, hv, hr⟩ := ih h
    rcases mem_expand.1 hv with ⟨u, hu, huv⟩ | hv
    · exact ⟨u, hu, .head huv hr⟩
    · exact ⟨v, hv, hr⟩

/-- An expansion adds a node as long as one is missing. -/
theorem length_lt_expand (hl : l.Nodup) (h : ¬Closed succ l) : l.length < (expand succ l).length := by
  obtain ⟨v, hv, w, hw, hnot⟩ : ∃ v ∈ l, ∃ w ∈ succ v, w ∉ l := by
    simpa [Closed] using h
  have hsub : w :: l ⊆ expand succ l := by
    intro u hu
    rcases List.mem_cons.1 hu with rfl | hu
    · exact mem_expand.2 (.inl ⟨v, hv, hw⟩)
    · exact mem_expand.2 (.inr hu)
  have hnodup : (w :: l).Nodup := List.nodup_cons.2 ⟨hnot, hl⟩
  exact Nat.lt_of_lt_of_le (Nat.lt_succ_self _) (hnodup.subperm hsub).length_le

/-- With as many expansions as there are nodes nothing is missing. -/
theorem closed_closure (hnodes : Closed succ nodes) (hl : l.Nodup) (hsub : l ⊆ nodes)
    (hn : nodes.length ≤ n + l.length) : Closed succ (closure succ n l) := by
  induction n generalizing l with
  | zero =>
    have hperm : l.Perm nodes := (hl.subperm hsub).perm_of_length_le (by omega)
    intro v hv w hw
    exact hperm.mem_iff.2 (hnodes v (hperm.mem_iff.1 hv) w hw)
  | succ n ih =>
    by_cases hc : Closed succ l
    · exact hc.expand.closure
    · apply ih
      · exact List.Nodup.union _ hl
      · intro v hv
        rcases mem_expand.1 hv with ⟨u, hu, huv⟩ | hv
        · exact hnodes u (hsub hu) v huv
        · exact hsub hv
      · have hlt := length_lt_expand hl hc
        omega

theorem mem_closure (hnodes : Closed succ nodes) (hl : l.Nodup) (hsub : l ⊆ nodes) :
    w ∈ closure succ nodes.length l ↔ ∃ v ∈ l, Relation.ReflTransGen (Edge succ) v w := by
  constructor
  · exact reached_of_mem
  · rintro ⟨v, hv, hr⟩
    exact (closed_closure hnodes hl hsub (Nat.le_add_right _ _)).reaches (subset_closure hv) hr

end Closure
