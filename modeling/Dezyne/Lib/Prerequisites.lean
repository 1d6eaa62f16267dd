import Mathlib.Data.List.Nodup
/-!
# Orders in which everything comes after what it needs

`Ready` is a list whose elements have what they need before them, or in a list of
what is done. Leaving out all but the first of the elements with one key keeps it,
and then no element needs one that comes later.
-/

namespace Prerequisites

variable {α V : Type*} (needs : V → V → Prop) (key : α → V)

/-- What an element needs is done, or comes before it. -/
def Ready : List V → List α → Prop
  | _, [] => True
  | done, a :: l => (∀ d, needs (key a) d → d ∈ done) ∧ Ready (key a :: done) l

/-- The first elements with their keys. -/
def deleteDuplicates [DecidableEq V] : List α → List α
  | [] => []
  | a :: l => a :: (deleteDuplicates l).filter fun b => key b ≠ key a

variable {needs key} {done done' : List V} {l l' : List α}

theorem Ready.mono (hsub : done ⊆ done') (h : Ready needs key done l) : Ready needs key done' l := by
  induction l generalizing done done' with
  | nil => trivial
  | cons a l ih => exact ⟨fun d hd => hsub (h.1 d hd), ih (List.cons_subset_cons _ hsub) h.2⟩

theorem ready_append :
    Ready needs key done (l ++ l') ↔ Ready needs key done l ∧ Ready needs key (l.map key ++ done) l' := by
  induction l generalizing done with
  | nil => simp [Ready]
  | cons a l ih =>
    have hsame : (l.map key ++ key a :: done) ⊆ ((a :: l).map key ++ done) ∧
        ((a :: l).map key ++ done) ⊆ (l.map key ++ key a :: done) := by
      constructor
      · intro v hv
        simpa [or_left_comm] using hv
      · intro v hv
        simpa [or_left_comm] using hv
    rw [List.cons_append, Ready, Ready, ih, and_assoc]
    exact and_congr_right fun _ => and_congr_right fun _ => ⟨Ready.mono hsame.1, Ready.mono hsame.2⟩

section
variable [DecidableEq V]

/-- An element that is done can be left out. -/
theorem Ready.filter {v : V} (hv : v ∈ done) (h : Ready needs key done l) :
    Ready needs key done (l.filter fun b => key b ≠ v) := by
  induction l generalizing done with
  | nil => trivial
  | cons a l ih =>
    by_cases ha : key a = v
    · have hsub : key a :: done ⊆ done := List.cons_subset.2 ⟨ha ▸ hv, fun _ h => h⟩
      rw [List.filter_cons_of_neg (by simpa using ha)]
      exact ih hv (h.2.mono hsub)
    · rw [List.filter_cons_of_pos (by simpa using ha)]
      exact ⟨h.1, ih (List.mem_cons_of_mem _ hv) h.2⟩

theorem Ready.deleteDuplicates (h : Ready needs key done l) : Ready needs key done (deleteDuplicates key l) := by
  induction l generalizing done with
  | nil => trivial
  | cons a l ih => exact ⟨h.1, (ih h.2).filter (by simp)⟩

theorem mem_map_deleteDuplicates {v : V} : v ∈ (deleteDuplicates key l).map key ↔ v ∈ l.map key := by
  induction l with
  | nil => rfl
  | cons a l ih =>
    have hfilter : v ∈ ((deleteDuplicates key l).filter fun b => key b ≠ key a).map key ↔
        v ∈ (deleteDuplicates key l).map key ∧ v ≠ key a := by
      simp only [List.mem_map, List.mem_filter, decide_eq_true_eq]
      constructor
      · rintro ⟨b, ⟨hb, hne⟩, rfl⟩
        exact ⟨⟨b, hb, rfl⟩, hne⟩
      · rintro ⟨⟨b, hb, rfl⟩, hne⟩
        exact ⟨b, ⟨hb, hne⟩, rfl⟩
    rw [deleteDuplicates, List.map_cons, List.map_cons, List.mem_cons, List.mem_cons, hfilter, ih]
    tauto

theorem nodup_deleteDuplicates : ((deleteDuplicates key l).map key).Nodup := by
  induction l with
  | nil => exact List.nodup_nil
  | cons a l ih =>
    rw [deleteDuplicates, List.map_cons, List.nodup_cons]
    refine ⟨?_, ih.sublist (List.filter_sublist.map key)⟩
    simp

/-- The last element stays the last one when its key occurs nowhere else. -/
theorem deleteDuplicates_snoc {a : α} (h : key a ∉ l.map key) :
    deleteDuplicates key (l ++ [a]) = deleteDuplicates key l ++ [a] := by
  induction l with
  | nil => rfl
  | cons b l ih =>
    rw [List.map_cons, List.mem_cons, not_or] at h
    rw [List.cons_append, deleteDuplicates, deleteDuplicates, ih h.2, List.filter_append, List.cons_append]
    simp [h.1]

end

/-- No element needs one that comes later. -/
theorem Ready.pairwise (h : Ready needs key done l) (hnodup : (l.map key).Nodup) (hdone : ∀ a ∈ l, key a ∉ done) :
    l.Pairwise fun a b => ¬ needs (key a) (key b) := by
  induction l generalizing done with
  | nil => exact .nil
  | cons a l ih =>
    rw [List.map_cons, List.nodup_cons] at hnodup
    refine List.pairwise_cons.2 ⟨fun b hb hneeds => hdone b (by simp [hb]) (h.1 _ hneeds), ih h.2 hnodup.2 ?_⟩
    intro b hb hmem
    rcases List.mem_cons.1 hmem with heq | hmem
    · exact hnodup.1 (heq ▸ List.mem_map_of_mem hb)
    · exact hdone b (by simp [hb]) hmem

end Prerequisites
