import Mathlib.Data.List.Basic
import Mathlib.Tactic.Common
/-!
# Linked cells in a memory

A chain of cells is read from an address: each cell has an item and the address
of the next one, and address 0 ends the chain. A cell is added behind the last one
by one write, and taken off the front without a write to the others.
-/

namespace Dezyne.Cells

variable {α : Type}

structure Cell (α : Type) where
  item : α
  next : Nat

/-- The cells that are allocated. -/
abbrev Heap (α : Type) := Nat → Option (Cell α)

/-- One address gets another content; `none` frees it. -/
def Heap.set (h : Heap α) (a : Nat) (c : Option (Cell α)) : Heap α := fun b => if b = a then c else h b

@[simp] theorem set_same (h : Heap α) (a : Nat) (c : Option (Cell α)) : h.set a c a = c := by
  simp [Heap.set]

theorem set_other (h : Heap α) {a b : Nat} (c : Option (Cell α)) (hb : b ≠ a) : h.set a c b = h b := by
  simp [Heap.set, hb]

/-- The chain from `p` has these addresses and items. -/
def Linked (h : Heap α) : Nat → List (Nat × α) → Prop
  | p, [] => p = 0
  | p, (a, e) :: cells => p = a ∧ a ≠ 0 ∧ ∃ next, h a = some ⟨e, next⟩ ∧ Linked h next cells

/-- The addresses of the cells. -/
def addresses (cells : List (Nat × α)) : List Nat := cells.map Prod.fst

@[simp] theorem addresses_nil : addresses ([] : List (Nat × α)) = [] := rfl

@[simp] theorem addresses_cons (c : Nat × α) (cells : List (Nat × α)) :
    addresses (c :: cells) = c.1 :: addresses cells := rfl

@[simp] theorem addresses_append (cells more : List (Nat × α)) :
    addresses (cells ++ more) = addresses cells ++ addresses more := by
  simp [addresses]

/-! ## Reading a chain -/

theorem linked_null {h : Heap α} {cells : List (Nat × α)} (hl : Linked h 0 cells) : cells = [] := by
  cases cells with
  | nil => rfl
  | cons c cells =>
    obtain ⟨h0, hne, _⟩ := hl
    exact absurd h0.symm hne

theorem linked_congr {h h' : Heap α} :
    ∀ {cells : List (Nat × α)} {p : Nat}, (∀ a ∈ addresses cells, h' a = h a) → Linked h p cells → Linked h' p cells := by
  intro cells
  induction cells with
  | nil => intro p _ hl; exact hl
  | cons c cells ih =>
    intro p heq hl
    obtain ⟨hp, hne, next, hc, hl⟩ := hl
    refine ⟨hp, hne, next, ?_, ih (fun a ha => heq a (by simp [ha])) hl⟩
    rw [heq _ (by simp)]
    exact hc

/-- The last cell of a chain is allocated, and has no next. -/
theorem linked_last {h : Heap α} :
    ∀ {cells : List (Nat × α)} {p : Nat} {t : Nat} {x : α},
      Linked h p (cells ++ [(t, x)]) → t ≠ 0 ∧ h t = some ⟨x, 0⟩ := by
  intro cells
  induction cells with
  | nil =>
    intro p t x hl
    obtain ⟨-, hne, next, hc, hn⟩ := hl
    obtain rfl : next = 0 := hn
    exact ⟨hne, hc⟩
  | cons c cells ih =>
    intro p t x hl
    obtain ⟨-, -, next, -, hl⟩ := hl
    exact ih hl

/-! ## Writing -/

/-- The one cell of a chain is followed by a new one. -/
theorem linked_snoc {h : Heap α} {n : Nat} {e : α} (hn : n ≠ 0) :
    ∀ {cells : List (Nat × α)} {p t : Nat} {x : α}, Linked h p (cells ++ [(t, x)]) →
      (addresses (cells ++ [(t, x)])).Nodup → n ∉ addresses (cells ++ [(t, x)]) →
      Linked ((h.set n (some ⟨e, 0⟩)).set t (some ⟨x, n⟩)) p (cells ++ [(t, x)] ++ [(n, e)]) := by
  intro cells
  induction cells with
  | nil =>
    intro p t x hl _ hnew
    obtain ⟨hp, hne, next, -, -⟩ := hl
    have htn : n ≠ t := by
      intro h
      apply hnew
      simp [h]
    refine ⟨hp, hne, n, by simp, rfl, hn, 0, ?_, rfl⟩
    rw [set_other _ _ htn]
    simp
  | cons c cells ih =>
    intro p t x hl hnd hnew
    obtain ⟨hp, hne, next, hc, hl⟩ := hl
    have hnd' := List.nodup_cons.mp hnd
    have hct : c.1 ≠ t := by
      intro h
      apply hnd'.1
      simp [h]
    have hcn : c.1 ≠ n := by
      intro h
      apply hnew
      simp [h]
    refine ⟨hp, hne, next, ?_, ih hl hnd'.2 (fun h => hnew (by simp only [List.cons_append, addresses_cons]; exact List.mem_cons_of_mem _ h))⟩
    rw [set_other _ _ hct, set_other _ _ hcn]
    exact hc

/-- The first cell is freed. -/
theorem linked_tail {h : Heap α} {p a : Nat} {e : α} {cells : List (Nat × α)}
    (hl : Linked h p ((a, e) :: cells)) (hnd : (addresses ((a, e) :: cells)).Nodup) :
    ∃ next, h a = some ⟨e, next⟩ ∧ Linked (h.set a none) next cells := by
  obtain ⟨-, -, next, hc, hl⟩ := hl
  refine ⟨next, hc, linked_congr ?_ hl⟩
  intro b hb
  apply set_other
  rintro rfl
  exact (List.nodup_cons.mp hnd).1 hb

end Dezyne.Cells
