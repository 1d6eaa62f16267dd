import Mathlib.Data.List.Basic
/-!
# `append-map` of what may fail

The results of all elements one after the other, where there is none when an
element has none.
-/

namespace AppendMap

variable {α β : Type*}

def appendMap (f : α → Option (List β)) : List α → Option (List β)
  | [] => some []
  | a :: as =>
    match f a with
    | none => none
    | some r => (appendMap f as).map (r ++ ·)

variable {f : α → Option (List β)} {l : List α} {r : List β} {a : α} {b : β}

theorem appendMap_cons_eq_some {as : List α} :
    appendMap f (a :: as) = some r ↔ ∃ ra rs, f a = some ra ∧ appendMap f as = some rs ∧ r = ra ++ rs := by
  rw [appendMap]
  cases f a with
  | none => simp
  | some ra => simp [eq_comm]

theorem exists_appendMap : (∃ r, appendMap f l = some r) ↔ ∀ a ∈ l, ∃ r, f a = some r := by
  induction l with
  | nil => simp [appendMap]
  | cons a as ih =>
    simp only [List.forall_mem_cons, ← ih]
    constructor
    · rintro ⟨r, hr⟩
      obtain ⟨ra, rs, ha, hs, -⟩ := appendMap_cons_eq_some.1 hr
      exact ⟨⟨ra, ha⟩, rs, hs⟩
    · rintro ⟨⟨ra, ha⟩, rs, hs⟩
      exact ⟨ra ++ rs, appendMap_cons_eq_some.2 ⟨ra, rs, ha, hs, rfl⟩⟩

theorem mem_appendMap (h : appendMap f l = some r) : b ∈ r ↔ ∃ a ∈ l, ∃ s, f a = some s ∧ b ∈ s := by
  induction l generalizing r with
  | nil =>
    cases h
    simp
  | cons a as ih =>
    obtain ⟨ra, rs, ha, hs, rfl⟩ := appendMap_cons_eq_some.1 h
    rw [List.mem_append, ih hs]
    simp [ha]

theorem subset_appendMap (h : appendMap f l = some r) (ha : a ∈ l) : ∃ s, f a = some s ∧ s ⊆ r := by
  obtain ⟨s, hs⟩ := exists_appendMap.1 ⟨r, h⟩ a ha
  exact ⟨s, hs, fun b hb => (mem_appendMap h).2 ⟨a, ha, s, hs, hb⟩⟩

end AppendMap
