import Mathlib.Data.Nat.Find
import Dezyne.Lib.Walk
/-!
# The lengths of shortest walks

Every state that a walk leads to has a distance, and the states of a shortest
walk have all the distances before it. An edge to a state is not on a walk that
is shorter than its distance.
-/

variable {σ ε : Type*}

/-- A shortest walk from `s` to `t` has `d` edges. -/
structure Nearest (edge : σ → ε → σ → Prop) (s : σ) (d : Nat) (t : σ) : Prop where
  walk : ∃ p, Walk edge s p t ∧ p.length = d
  le : ∀ p, Walk edge s p t → d ≤ p.length

namespace Nearest

variable {edge : σ → ε → σ → Prop} {s t u : σ} {e : ε} {p : List ε} {d : Nat}

theorem exists_of_walk (hp : Walk edge s p t) : ∃ d, Nearest edge s d t := by
  classical
  have hex : ∃ d, ∃ p, Walk edge s p t ∧ p.length = d := ⟨p.length, p, hp, rfl⟩
  exact ⟨Nat.find hex, Nat.find_spec hex, fun q hq => Nat.find_min' hex ⟨q, hq, rfl⟩⟩

/-- The state before the last edge of a shortest walk is one nearer. -/
theorem pred (h : Nearest edge s (d + 1) t) : ∃ u e, Nearest edge s d u ∧ edge u e t := by
  obtain ⟨p, hp, hlen⟩ := h.walk
  rcases List.eq_nil_or_concat p with rfl | ⟨q, e, rfl⟩
  · cases hlen
  · rw [List.concat_eq_append] at hp hlen
    rw [List.length_append, List.length_singleton, Nat.add_right_cancel_iff] at hlen
    obtain ⟨u, hq, he⟩ := hp.of_snoc
    refine ⟨u, e, ⟨⟨q, hq, hlen⟩, fun q' hq' => ?_⟩, he⟩
    have hle := h.le _ (hq'.snoc he)
    rw [List.length_append, List.length_singleton] at hle
    exact Nat.le_of_add_le_add_right hle

/-- There are states at all distances up to the one of a state. -/
theorem exists_of_le {c : Nat} (h : Nearest edge s d t) (hle : c ≤ d) : ∃ u, Nearest edge s c u := by
  induction d generalizing t with
  | zero =>
    obtain rfl := Nat.le_zero.1 hle
    exact ⟨t, h⟩
  | succ d ih =>
    rcases Nat.lt_or_eq_of_le hle with hlt | rfl
    · obtain ⟨u, _, hu, -⟩ := h.pred
      exact ih hu (Nat.le_of_lt_succ hlt)
    · exact ⟨t, h⟩

/-- No shorter walk goes over an edge to a state. -/
theorem not_mem (h : Nearest edge s d t) (hp : Walk edge s p u) (hlt : p.length < d) (he : ∀ a b, edge a e b → b = t) :
    e ∉ p := by
  intro hmem
  obtain ⟨a, b, rfl⟩ := List.append_of_mem hmem
  obtain ⟨v, ha, hb⟩ := hp.of_append
  cases hb with
  | cons hstep _ =>
    obtain rfl := he _ _ hstep
    have hle := h.le _ (ha.snoc hstep)
    rw [List.length_append, List.length_cons] at hlt
    rw [List.length_append, List.length_singleton] at hle
    omega

end Nearest
