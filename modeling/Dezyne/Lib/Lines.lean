import Mathlib.Data.List.Basic
/-!
# Texts that are joined from parts

A property of what comes after a character survives joining texts, and a text of
parts with a separator between them has the lines of the parts.
-/

namespace Lines

variable {α : Type*} {c d sep : α} {P : List α → Prop} {s t : List α}

/-! ## What follows a character -/

/-- After every `c` comes what has the property. -/
def Follows (c : α) (P : List α → Prop) (s : List α) : Prop := ∀ x y, s = x ++ c :: y → P y

/-- More text does not spoil the property. -/
def Stable (P : List α → Prop) : Prop := ∀ y t, P y → P (y ++ t)

theorem Follows.of_not_mem (h : c ∉ s) : Follows c P s := by
  rintro x y rfl
  simp at h

@[simp] theorem follows_nil : Follows c P [] := .of_not_mem (by simp)

theorem follows_cons (hd : d ≠ c) : Follows c P (d :: s) ↔ Follows c P s := by
  constructor
  · rintro h x y rfl
    exact h (d :: x) y rfl
  · intro h x y heq
    cases x with
    | nil => exact absurd (List.cons.inj heq).1 hd
    | cons e x => exact h x y (List.cons.inj heq).2

theorem Follows.cons_self (h : Follows c P s) (hs : P s) : Follows c P (c :: s) := by
  intro x y heq
  cases x with
  | nil =>
    obtain rfl := (List.cons.inj heq).2
    exact hs
  | cons e x => exact h x y (List.cons.inj heq).2

theorem Follows.append (hP : Stable P) (hs : Follows c P s) (ht : Follows c P t) : Follows c P (s ++ t) := by
  intro x y heq
  rcases List.append_eq_append_iff.1 heq with ⟨a, -, ha⟩ | ⟨b, hb, hy⟩
  · exact ht a y ha
  · cases b with
    | nil => exact ht [] y hy.symm
    | cons e b =>
      obtain ⟨rfl, rfl⟩ := List.cons.inj hy
      exact hP b t (hs x b hb)

theorem Follows.intercalate (hP : Stable P) (hsep : Follows c P t) {l : List (List α)}
    (hl : ∀ s ∈ l, Follows c P s) : Follows c P (t.intercalate l) := by
  induction l with
  | nil => simp
  | cons s l ih =>
    have hs := hl s List.mem_cons_self
    cases l with
    | nil => rwa [List.intercalate_singleton]
    | cons s' l =>
      rw [List.intercalate_cons_cons]
      exact .append hP (.append hP hs hsep) (ih fun x hx => hl x (List.mem_cons_of_mem s hx))

/-- What holds of a text holds of its end. -/
theorem Follows.suffix (h : Follows c P (s ++ t)) : Follows c P t := by
  rintro x y rfl
  exact h (s ++ x) y (by simp)

/-- A joined text ends with its last part. -/
theorem intercalate_concat (l : List (List α)) : ∃ x, t.intercalate (l ++ [s]) = x ++ s := by
  induction l with
  | nil => exact ⟨[], by simp⟩
  | cons a l ih =>
    obtain ⟨x, hx⟩ := ih
    refine ⟨a ++ t ++ x, ?_⟩
    rw [List.cons_append, List.intercalate_cons_of_ne_nil (by simp), hx, List.append_assoc (a ++ t)]

theorem mem_of_mem_intercalate {l : List (List α)} (h : c ∈ t.intercalate l) : c ∈ t ∨ ∃ s ∈ l, c ∈ s := by
  induction l with
  | nil => simp at h
  | cons s l ih =>
    cases l with
    | nil => exact .inr ⟨s, List.mem_cons_self, by simpa using h⟩
    | cons s' l =>
      rw [List.intercalate_cons_cons, List.mem_append, List.mem_append] at h
      rcases h with (h | h) | h
      · exact .inr ⟨s, List.mem_cons_self, h⟩
      · exact .inl h
      · rcases ih h with h | ⟨x, hx, hc⟩
        · exact .inl h
        · exact .inr ⟨x, List.mem_cons_of_mem s hx, hc⟩

/-! ## Lines -/

variable [DecidableEq α]

/-- The first line begins the text. -/
theorem first_splitOn {first : List α} {rest : List (List α)} (h : s.splitOn sep = first :: rest) :
    ∃ y, s = first ++ y ∧ (y = [] ∨ y.head? = some sep) := by
  induction s generalizing first rest with
  | nil =>
    rw [List.splitOn_nil] at h
    obtain ⟨rfl, -⟩ := List.cons.inj h
    exact ⟨[], rfl, .inl rfl⟩
  | cons e s ih =>
    rw [List.splitOn_cons_eq_if_modifyHead] at h
    split at h
    · rename_i he
      obtain ⟨rfl, -⟩ := List.cons.inj h
      exact ⟨e :: s, rfl, .inr (by simpa using he)⟩
    · cases hsplit : s.splitOn sep with
      | nil => exact absurd hsplit (List.splitOn_ne_nil sep s)
      | cons first' rest' =>
        rw [hsplit, List.modifyHead_cons] at h
        obtain ⟨rfl, -⟩ := List.cons.inj h
        obtain ⟨y, rfl, hy⟩ := ih hsplit
        exact ⟨y, rfl, hy⟩

/-- A line is between separators, or at an end. -/
theorem exists_of_mem_splitOn {line : List α} (h : line ∈ s.splitOn sep) :
    ∃ x y, s = x ++ line ++ y ∧ (y = [] ∨ y.head? = some sep) := by
  induction s generalizing line with
  | nil => exact ⟨[], [], by simpa using h, .inl rfl⟩
  | cons e s ih =>
    rw [List.splitOn_cons_eq_if_modifyHead] at h
    split at h
    · rename_i he
      rcases List.mem_cons.1 h with rfl | h
      · exact ⟨[], e :: s, rfl, .inr (by simpa using he)⟩
      · obtain ⟨x, y, rfl, hy⟩ := ih h
        exact ⟨e :: x, y, rfl, hy⟩
    · cases hsplit : s.splitOn sep with
      | nil => exact absurd hsplit (List.splitOn_ne_nil sep s)
      | cons first rest =>
        rw [hsplit, List.modifyHead_cons] at h
        rcases List.mem_cons.1 h with rfl | h
        · obtain ⟨y, hs, hy⟩ := first_splitOn hsplit
          exact ⟨[], y, by simp [hs], hy⟩
        · obtain ⟨x, y, rfl, hy⟩ := ih (by rw [hsplit]; exact List.mem_cons_of_mem first h)
          exact ⟨e :: x, y, rfl, hy⟩

/-- The lines of parts that are joined. -/
theorem splitOn_intercalate {l : List (List α)} (h : l ≠ []) :
    ([sep].intercalate l).splitOn sep = l.flatMap (List.splitOn sep) := by
  induction l with
  | nil => exact absurd rfl h
  | cons s l ih =>
    cases l with
    | nil => simp
    | cons s' l =>
      rw [List.intercalate_cons_cons, List.append_assoc, List.singleton_append, List.splitOn_append_cons_self,
        ih (by simp)]
      rfl

end Lines
