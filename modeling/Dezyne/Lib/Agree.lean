import Mathlib.Data.List.Basic
/-!
# When two lists are the same

`Agree bad V O K` relates a list `V` that is computed, the list `O` it should
be and a condition `K`: under `K` they are the same, and without it `V` has a
bad element or is too short. The relation is kept by `++` and `flatMap`, so it
can be proved along a tree, and where `O` has no bad element it makes `K` the
exact condition for the two lists to be the same.
-/

variable {α β : Type*}

def Agree (bad : α → Prop) (V O : List α) (K : Prop) : Prop :=
  (K → V = O) ∧ ((∃ h ∈ V, bad h) ∨ V.length ≤ O.length ∧ (V.length = O.length → K))

namespace Agree

variable {bad : α → Prop} {V V' O O' : List α} {K K' : Prop}

theorem of_eq (h : V = O) (hK : K) : Agree bad V O K :=
  ⟨fun _ => h, .inr ⟨Nat.le_of_eq (congrArg List.length h), fun _ => hK⟩⟩

theorem congr (h : K ↔ K') (ha : Agree bad V O K) : Agree bad V O K' :=
  ⟨fun hK => ha.1 (h.2 hK), ha.2.imp id fun ⟨hl, hk⟩ => ⟨hl, fun he => h.1 (hk he)⟩⟩

theorem append (h : Agree bad V O K) (h' : Agree bad V' O' K') : Agree bad (V ++ V') (O ++ O') (K ∧ K') := by
  refine ⟨fun hK => by rw [h.1 hK.1, h'.1 hK.2], ?_⟩
  rcases h.2 with ⟨x, hx, he⟩ | ⟨hl, hk⟩
  · exact .inl ⟨x, List.mem_append_left _ hx, he⟩
  rcases h'.2 with ⟨x, hx, he⟩ | ⟨hl', hk'⟩
  · exact .inl ⟨x, List.mem_append_right _ hx, he⟩
  simp only [List.length_append]
  exact .inr ⟨by omega, fun he => ⟨hk (by omega), hk' (by omega)⟩⟩

theorem flatMap {l : List β} {V O : β → List α} {K : β → Prop} (h : ∀ b ∈ l, Agree bad (V b) (O b) (K b)) :
    Agree bad (l.flatMap V) (l.flatMap O) (∀ b ∈ l, K b) := by
  induction l with
  | nil => exact of_eq rfl (by simp)
  | cons b l ih =>
    rw [List.flatMap_cons, List.flatMap_cons]
    exact ((h b (by simp)).append (ih fun c hc => h c (by simp [hc]))).congr (by simp)

/-- Without bad elements the condition is exact, also for what a map makes of the lists. -/
theorem of_map_eq {γ : Type*} (h : Agree bad V O K) (f : α → γ) (hf : ∀ x ∈ V, bad x → ∀ y ∈ O, f x ≠ f y)
    (he : V.map f = O.map f) : K := by
  rcases h.2 with ⟨x, hx, hb⟩ | ⟨-, hK⟩
  · have hm : f x ∈ O.map f := he ▸ List.mem_map_of_mem hx
    obtain ⟨y, hy, hxy⟩ := List.mem_map.1 hm
    exact absurd hxy.symm (hf x hx hb y hy)
  · exact hK (by simpa using congrArg List.length he)

end Agree
