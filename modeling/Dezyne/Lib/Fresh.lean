import Mathlib.Data.List.Nodup
import Mathlib.Logic.Function.Iterate
import Mathlib.Data.List.Perm.Subperm
/-!
# Fresh names

Looking for a name that is not occupied by changing it as long as it is. When
every change makes the name larger by some measure, as many steps as there are
occupied names are enough. A list of names is made fresh one by one, each new
name being occupied from then on.
-/

namespace Fresh

variable {α β : Type*}

section
variable [DecidableEq α]

/-- Goes on to the next name while the name is occupied, at most `n` times. -/
def search (next : α → α) (occupied : List α) : Nat → α → α
  | 0, a => a
  | n + 1, a => if a ∈ occupied then search next occupied n (next a) else a

/-- A search that ends at an occupied name has seen as many of them as it took steps. -/
theorem search_mem {next : α → α} {size : α → Nat} (h : ∀ a, size a < size (next a)) {occupied : List α}
    {n : Nat} : ∀ {a}, search next occupied n a ∈ occupied →
      ∃ seen : List α, seen.Nodup ∧ seen ⊆ occupied ∧ seen.length = n + 1 ∧ ∀ b ∈ seen, size a ≤ size b := by
  induction n with
  | zero =>
    intro a ha
    rw [search] at ha
    exact ⟨[a], List.nodup_singleton a, by simpa using ha, rfl, by simp⟩
  | succ n ih =>
    intro a ha
    rw [search] at ha
    split at ha
    · rename_i hmem
      obtain ⟨seen, hn, hs, hl, hb⟩ := ih ha
      refine ⟨a :: seen, List.nodup_cons.2 ⟨fun hm => ?_, hn⟩, List.cons_subset.2 ⟨hmem, hs⟩, by simp [hl], ?_⟩
      · have := hb a hm
        have := h a
        omega
      · intro b hb'
        rcases List.mem_cons.1 hb' with rfl | hb'
        · exact Nat.le_refl _
        · have := hb b hb'
          have := h a
          omega
    · contradiction

theorem search_not_mem {next : α → α} (size : α → Nat) (h : ∀ a, size a < size (next a))
    {occupied : List α} {n : Nat} (hn : occupied.length ≤ n) (a : α) :
    search next occupied n a ∉ occupied := by
  intro ha
  obtain ⟨seen, hnodup, hs, hl, -⟩ := search_mem h ha
  have := List.Nodup.length_le_of_subset hnodup hs
  omega

/-- A search goes on to the next name a number of times. -/
theorem search_iterate (next : α → α) (occupied : List α) (n : Nat) (a : α) :
    ∃ k, search next occupied n a = next^[k] a := by
  induction n generalizing a with
  | zero => exact ⟨0, rfl⟩
  | succ n ih =>
    rw [search]
    split
    · obtain ⟨k, hk⟩ := ih (next a)
      exact ⟨k + 1, hk⟩
    · exact ⟨0, rfl⟩

end

/-- Puts a new name in front of the occupied ones for every name of a list, the last one first. -/
def extend (fresh : List α → β → α) (occupied : List α) (names : List β) : List α :=
  names.foldr (fun name o => fresh o name :: o) occupied

/-- The new names are different from each other and not occupied. -/
theorem extend_eq {fresh : List α → β → α} (h : ∀ o b, fresh o b ∉ o) (occupied : List α) (names : List β) :
    ∃ new : List α, extend fresh occupied names = new ++ occupied ∧ new.length = names.length ∧ new.Nodup ∧
      ∀ a ∈ new, a ∉ occupied := by
  induction names with
  | nil => exact ⟨[], rfl, rfl, List.nodup_nil, by simp⟩
  | cons b names ih =>
    obtain ⟨new, he, hl, hn, ho⟩ := ih
    have hb := h (extend fresh occupied names) b
    have hcons : extend fresh occupied (b :: names) =
        fresh (extend fresh occupied names) b :: extend fresh occupied names := rfl
    rw [he] at hb hcons
    rw [List.mem_append, not_or] at hb
    refine ⟨fresh (new ++ occupied) b :: new, hcons, by simp [hl], List.nodup_cons.2 ⟨hb.1, hn⟩, ?_⟩
    intro a ha
    rcases List.mem_cons.1 ha with rfl | ha
    exacts [hb.2, ho a ha]

/-- Each new name is one for the name in its place. -/
theorem extend_forall₂ {fresh : List α → β → α} {R : α → β → Prop} (h : ∀ o b, R (fresh o b) b) (occupied : List α)
    (names : List β) : ∃ new, extend fresh occupied names = new ++ occupied ∧ List.Forall₂ R new names := by
  induction names with
  | nil => exact ⟨[], rfl, .nil⟩
  | cons b names ih =>
    obtain ⟨new, he, hR⟩ := ih
    have hcons : extend fresh occupied (b :: names) =
        fresh (extend fresh occupied names) b :: extend fresh occupied names := rfl
    exact ⟨fresh (extend fresh occupied names) b :: new, by rw [hcons, he]; rfl, .cons (h _ b) hR⟩

end Fresh
