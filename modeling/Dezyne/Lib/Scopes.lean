import Mathlib.Data.List.Basic
import Mathlib.Data.List.Forall2
/-!
# Names in nested scopes

A name is looked up in frames of names, the innermost first, and found at a
place. A renaming gives every name in the frames a new one; when no two names
get the same new one, a new name is found where the name was, just when the
name at that place got it.
-/

namespace Scopes

variable {α β : Type*}

/-- The frame that a name is found in, and where it is first in that frame. -/
def find [BEq α] : List (List α) → α → Option (Nat × Nat)
  | [], _ => none
  | f :: fs, x => match f.idxOf? x with
    | some i => some (0, i)
    | none => (find fs x).map fun p => (p.1 + 1, p.2)

/-- The name at a place. -/
def entry (fs : List (List α)) (p : Nat × Nat) : Option α := fs[p.1]?.bind fun f => f[p.2]?

/-! ## Frames -/

section
variable {f : List α} {fs : List (List α)} {x : α} {p : Nat × Nat}

theorem mem_of_entry (h : entry fs p = some x) : ∃ f ∈ fs, x ∈ f := by
  obtain ⟨f, hf, hx⟩ := Option.bind_eq_some_iff.1 h
  exact ⟨f, List.mem_of_getElem? hf, List.mem_of_getElem? hx⟩

theorem entry_snoc {y : α} (h : entry (f :: fs) p = some x) : entry ((f ++ [y]) :: fs) p = some x := by
  obtain ⟨i, j⟩ := p
  cases i with
  | zero =>
    have hj : f[j]? = some x := h
    have hlt : j < f.length := (List.getElem?_eq_some_iff.1 hj).1
    have hsnoc : (f ++ [y])[j]? = some x := by rw [List.getElem?_append_left hlt, hj]
    exact hsnoc
  | succ i => exact h

theorem entry_append (fs gs : List (List α)) (i j : Nat) :
    entry (fs ++ gs) (fs.length + i, j) = entry gs (i, j) := by
  unfold entry
  rw [List.getElem?_append_right (Nat.le_add_right _ _), Nat.add_sub_cancel_left]

variable [BEq α] [LawfulBEq α]

theorem find_cons_of_not_mem (h : x ∉ f) : find (f :: fs) x = (find fs x).map fun p => (p.1 + 1, p.2) := by
  rw [find, List.idxOf?_eq_none_iff.2 h]

theorem find_eq_none_iff : find fs x = none ↔ ∀ f ∈ fs, x ∉ f := by
  induction fs with
  | nil => simp [find]
  | cons f fs ih =>
    rw [List.forall_mem_cons, ← ih, find]
    cases h : f.idxOf? x with
    | none => simp [List.idxOf?_eq_none_iff.1 h]
    | some i =>
      have hmem : x ∈ f := by
        by_contra hmem
        rw [List.idxOf?_eq_none_iff.2 hmem] at h
        cases h
      simp [hmem]

theorem getElem?_of_idxOf? {i : Nat} (h : f.idxOf? x = some i) : f[i]? = some x := by
  obtain ⟨hi, heq, -⟩ := List.idxOf?_eq_some_iff.1 h
  rw [List.getElem?_eq_getElem hi, heq]

/-- A name is at the place where it is found. -/
theorem entry_of_find (h : find fs x = some p) : entry fs p = some x := by
  induction fs generalizing p with
  | nil => cases h
  | cons f fs ih =>
    rw [find] at h
    cases hf : f.idxOf? x with
    | some i =>
      rw [hf] at h
      obtain rfl := Option.some.inj h
      exact getElem?_of_idxOf? hf
    | none =>
      rw [hf] at h
      obtain ⟨q, hq, rfl⟩ := Option.map_eq_some_iff.1 h
      exact ih hq

theorem find_lt (h : find fs x = some p) : p.1 < fs.length := by
  obtain ⟨f, hf, -⟩ := Option.bind_eq_some_iff.1 (entry_of_find h)
  exact (List.getElem?_eq_some_iff.1 hf).1

/-- The frames inside that of a name do not have it. -/
theorem not_mem_of_find (h : find fs x = some p) {f : List α} {i : Nat} (hi : i < p.1)
    (hf : fs[i]? = some f) : x ∉ f := by
  induction fs generalizing p i with
  | nil => cases h
  | cons g fs ih =>
    rw [find] at h
    cases hg : g.idxOf? x with
    | some j =>
      rw [hg] at h
      obtain rfl := Option.some.inj h
      cases hi
    | none =>
      rw [hg] at h
      obtain ⟨q, hq, rfl⟩ := Option.map_eq_some_iff.1 h
      cases i with
      | zero =>
        obtain rfl := Option.some.inj hf
        exact List.idxOf?_eq_none_iff.1 hg
      | succ i => exact ih hq (Nat.lt_of_succ_lt_succ hi) hf

/-- A name that is new in the innermost frame is found at its end. -/
theorem find_snoc (h : x ∉ f) : find ((f ++ [x]) :: fs) x = some (0, f.length) := by
  have hidx : (f ++ [x]).idxOf? x = some f.length := by
    rw [List.idxOf?_eq_some_iff]
    refine ⟨by simp, by simp, fun j hj => ?_⟩
    rw [List.getElem_append_left hj]
    intro heq
    exact h (heq ▸ List.getElem_mem hj)
  rw [find, hidx]

/-- The other names are found where they were. -/
theorem find_snoc_ne {y : α} (hne : x ≠ y) : find ((f ++ [y]) :: fs) x = find (f :: fs) x := by
  by_cases hmem : x ∈ f
  · obtain ⟨i, hi⟩ : ∃ i, f.idxOf? x = some i := by
      cases h : f.idxOf? x with
      | some i => exact ⟨i, rfl⟩
      | none => exact absurd hmem (List.idxOf?_eq_none_iff.1 h)
    obtain ⟨hlt, heq, hfirst⟩ := List.idxOf?_eq_some_iff.1 hi
    have hsnoc : (f ++ [y]).idxOf? x = some i := by
      rw [List.idxOf?_eq_some_iff]
      refine ⟨by simp; omega, ?_, fun j hj => ?_⟩
      · rwa [List.getElem_append_left hlt]
      · rw [List.getElem_append_left (by omega)]
        exact hfirst j hj
    rw [find, find, hi, hsnoc]
  · have hsnoc : x ∉ f ++ [y] := by simp [hmem, hne]
    rw [find_cons_of_not_mem hmem, find_cons_of_not_mem hsnoc]

end

/-! ## Renamings -/

section
variable {R : α → β → Prop} {f : List α} {g : List β} {fs : List (List α)} {gs : List (List β)} {x : α} {z : β}
  {p : Nat × Nat}

/-- Every name is renamed. -/
abbrev Renamed (R : α → β → Prop) (fs : List (List α)) (gs : List (List β)) : Prop :=
  List.Forall₂ (List.Forall₂ R) fs gs

theorem exists_of_mem_left (h : List.Forall₂ R f g) (hx : x ∈ f) : ∃ z ∈ g, R x z := by
  induction h with
  | nil => cases hx
  | @cons a b f g hab h ih =>
    rcases List.mem_cons.1 hx with rfl | hx
    · exact ⟨b, List.mem_cons_self, hab⟩
    · obtain ⟨z, hz, hR⟩ := ih hx
      exact ⟨z, List.mem_cons_of_mem _ hz, hR⟩

theorem exists_of_mem_right {α β : Type*} {R : α → β → Prop} {f : List α} {g : List β} {z : β}
    (h : List.Forall₂ R f g) (hz : z ∈ g) : ∃ x ∈ f, R x z := exists_of_mem_left h.flip hz

theorem Renamed.exists_of_mem_left (h : Renamed R fs gs) (hf : ∃ f ∈ fs, x ∈ f) : ∃ z, R x z := by
  obtain ⟨f, hf, hx⟩ := hf
  obtain ⟨g, -, hfg⟩ := Scopes.exists_of_mem_left h hf
  obtain ⟨z, -, hR⟩ := Scopes.exists_of_mem_left hfg hx
  exact ⟨z, hR⟩

theorem Renamed.exists_of_mem (h : Renamed R fs gs) (hg : ∃ g ∈ gs, z ∈ g) :
    ∃ x, (∃ f ∈ fs, x ∈ f) ∧ R x z := by
  obtain ⟨g, hg, hz⟩ := hg
  obtain ⟨f, hf, hfg⟩ := exists_of_mem_right h hg
  obtain ⟨x, hx, hR⟩ := exists_of_mem_right hfg hz
  exact ⟨x, ⟨f, hf, hx⟩, hR⟩

variable [BEq α] [LawfulBEq α] [BEq β] [LawfulBEq β]

/-- In a frame, a new name is where the name was first, just when it is there at all. -/
theorem idxOf?_renamed (hR : ∀ x y z, R x z → R y z → x = y) (h : List.Forall₂ R f g) (hx : R x z) {i : Nat}
    (hi : f.idxOf? x = some i) : g.idxOf? z = some i ↔ g[i]? = some z := by
  refine ⟨getElem?_of_idxOf?, fun hz => ?_⟩
  obtain ⟨hlt, heq⟩ := List.getElem?_eq_some_iff.1 hz
  obtain ⟨hlt', -, hfirst⟩ := List.idxOf?_eq_some_iff.1 hi
  rw [List.idxOf?_eq_some_iff]
  refine ⟨hlt, heq, fun j hj => ?_⟩
  have hij := List.Forall₂.get h (by omega : j < f.length) (by omega : j < g.length)
  intro hz'
  refine hfirst j hj (hR _ _ z ?_ hx)
  rw [← hz']
  exact hij

variable (hR : ∀ x y z, R x z → R y z → x = y)
include hR

/-- A new name of a name that is not found is not found. -/
theorem Renamed.find_none (h : Renamed R fs gs) (hx : R x z) (hnone : find fs x = none) :
    find gs z = none := by
  rw [find_eq_none_iff] at hnone ⊢
  intro g hg hz
  obtain ⟨y, ⟨f, hf, hy⟩, hyz⟩ := h.exists_of_mem ⟨g, hg, hz⟩
  obtain rfl := hR y x z hyz hx
  exact hnone f hf hy

/-- A new name is found where the name was, just when it is there. -/
theorem Renamed.find_iff (h : Renamed R fs gs) (hx : R x z) (hp : find fs x = some p) :
    find gs z = some p ↔ entry gs p = some z := by
  refine ⟨entry_of_find, fun hz => ?_⟩
  induction h generalizing p with
  | nil => cases hp
  | @cons f g fs gs hfg h ih =>
    rw [find] at hp
    cases hf : f.idxOf? x with
    | some i =>
      rw [hf] at hp
      obtain rfl := Option.some.inj hp
      rw [find, (idxOf?_renamed hR hfg hx hf).2 hz]
    | none =>
      rw [hf] at hp
      obtain ⟨q, hq, rfl⟩ := Option.map_eq_some_iff.1 hp
      have hnot : z ∉ g := by
        intro hmem
        obtain ⟨y, hy, hyz⟩ := exists_of_mem_right hfg hmem
        obtain rfl := hR y x z hyz hx
        exact List.idxOf?_eq_none_iff.1 hf hy
      rw [find_cons_of_not_mem hnot, ih hq hz]
      rfl

end

/-! ## Renaming by a function -/

section
variable {f : α → β} {fs gs : List (List α)} {x : α} {p : Nat × Nat} {D : α → Prop}

/-- A name is looked up in the frames one after the other. -/
theorem find_append [BEq α] (fs gs : List (List α)) (x : α) :
    find (fs ++ gs) x = (find fs x).or ((find gs x).map fun p => (p.1 + fs.length, p.2)) := by
  induction fs with
  | nil => simp [find]
  | cons g fs ih =>
    rw [List.cons_append, find, find]
    cases g.idxOf? x with
    | some i => rfl
    | none =>
      dsimp only
      rw [ih]
      cases find fs x with
      | some p => rfl
      | none =>
        rw [Option.none_or, Option.map_none, Option.none_or, Option.map_map]
        rfl

theorem entry_map (f : α → β) (fs : List (List α)) (p : Nat × Nat) :
    entry (fs.map (List.map f)) p = (entry fs p).map f := by
  unfold entry
  rw [List.getElem?_map]
  cases fs[p.1]? with
  | none => rfl
  | some g => exact List.getElem?_map

variable [BEq α] [LawfulBEq α] [BEq β] [LawfulBEq β]

/-- When no two names get the same new one, a new name is found where the name was. -/
theorem find_map (hinj : ∀ x y, D x → D y → f x = f y → x = y) (hfs : ∀ g ∈ fs, ∀ y ∈ g, D y) (hx : D x) :
    find (fs.map (List.map f)) (f x) = find fs x := by
  have hrenamed : Renamed (fun x z => D x ∧ z = f x) fs (fs.map (List.map f)) := by
    rw [Renamed, List.forall₂_map_right_iff, List.forall₂_same]
    intro g hg
    rw [List.forall₂_map_right_iff, List.forall₂_same]
    exact fun y hy => ⟨hfs g hg y hy, rfl⟩
  have hunique : ∀ x y z, (D x ∧ z = f x) → (D y ∧ z = f y) → x = y := by
    rintro x y z ⟨hx, rfl⟩ ⟨hy, heq⟩
    exact hinj x y hx hy heq
  cases hfind : find fs x with
  | none => exact hrenamed.find_none hunique ⟨hx, rfl⟩ hfind
  | some p =>
    rw [hrenamed.find_iff hunique ⟨hx, rfl⟩ hfind, entry_map, entry_of_find hfind]
    rfl

end

end Scopes
