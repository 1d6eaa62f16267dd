import Mathlib.Data.List.Basic
import Mathlib.Tactic.Cases
/-!
# Unfolding steps that have words

A step with a word becomes one with a letter at a time, over nodes for the
prefixes of the word. Steps from one state share the nodes of a common prefix.
When no other nodes are shared, nothing is added or lost between states.
-/

namespace Unfold

variable {N A : Type*}

/-- Steps one after the other, with all their letters. -/
inductive WordPath (step : N → List A → N → Prop) : N → List A → N → Prop
  | nil (a : N) : WordPath step a [] a
  | cons {a b c : N} {l w : List A} : step a l b → WordPath step b w c → WordPath step a (l ++ w) c

/-- Letters one after the other. -/
inductive LetterPath (letter : N → A → N → Prop) : N → List A → N → Prop
  | nil (a : N) : LetterPath letter a [] a
  | cons {a b c : N} {x : A} {w : List A} : letter a x b → LetterPath letter b w c → LetterPath letter a (x :: w) c

section
variable {letter letter' : N → A → N → Prop} {step step' : N → List A → N → Prop} {a b c : N} {w w' : List A}

theorem LetterPath.append (h : LetterPath letter a w b) (h' : LetterPath letter b w' c) :
    LetterPath letter a (w ++ w') c := by
  induction h with
  | nil a => exact h'
  | cons hletter _ ih => exact .cons hletter (ih h')

theorem LetterPath.mono (h : LetterPath letter a w b) (hsub : ∀ a x b, letter a x b → letter' a x b) :
    LetterPath letter' a w b := by
  induction h with
  | nil a => exact .nil a
  | cons hletter _ ih => exact .cons (hsub _ _ _ hletter) ih

end

/-- The node of a state after a prefix of a word. -/
def node (inner : N → List A → N) (a : N) (p : List A) : N := if p = [] then a else inner a p

/-- The letters of a word, with the nodes between them. -/
def chain (a b : N) (f : List A → N) (l : List A) : List (N × A × N) :=
  let inner := ((List.range' 1 (l.length - 1)).map fun n => f (l.take n)) ++ [b]
  (a :: inner).zip (l.zip inner)

section
variable {a b c d : N} {x : A} {l : List A} {f : List A → N}

theorem getElem?_inner {i : Nat} (hi : i < l.length) :
    (((List.range' 1 (l.length - 1)).map fun n => f (l.take n)) ++ [b])[i]? =
      some (if i + 1 = l.length then b else f (l.take (i + 1))) := by
  by_cases hlast : i + 1 = l.length
  · rw [if_pos hlast, List.getElem?_append_right (by simp; omega)]
    have hlen : i - (l.length - 1) = 0 := by omega
    simp [hlen]
  · rw [if_neg hlast, List.getElem?_append_left (by simp; omega), List.getElem?_map,
      List.getElem?_range' (by omega)]
    simp [Nat.add_comm 1 i]

theorem mem_chain : (c, x, d) ∈ chain a b f l ↔
    ∃ p r, l = p ++ x :: r ∧ c = node (fun _ => f) a p ∧ d = if r = [] then b else f (p ++ [x]) := by
  rw [chain, List.mem_iff_getElem?]
  constructor
  · rintro ⟨i, hi⟩
    rw [List.getElem?_zip_eq_some, List.getElem?_zip_eq_some] at hi
    obtain ⟨hc, hx, hd⟩ := hi
    obtain ⟨hlen, rfl⟩ := List.getElem?_eq_some_iff.1 hx
    refine ⟨l.take i, l.drop (i + 1), ?_, ?_, ?_⟩
    · rw [List.getElem_cons_drop, List.take_append_drop]
    · cases i with
      | zero => simpa [node] using hc.symm
      | succ i =>
        rw [List.getElem?_cons_succ, getElem?_inner (by omega)] at hc
        have hne : l.take (i + 1) ≠ [] := by simp; rintro rfl; simp at hlen
        rw [if_neg (by omega)] at hc
        rw [node, if_neg hne]
        exact (Option.some.inj hc).symm
    · rw [getElem?_inner hlen] at hd
      have hnil : l.drop (i + 1) = [] ↔ i + 1 = l.length := by simp; omega
      simp only [hnil, List.take_append_getElem hlen]
      exact (Option.some.inj hd).symm
  · rintro ⟨p, r, rfl, rfl, rfl⟩
    refine ⟨p.length, ?_⟩
    have hlen : p.length < (p ++ x :: r).length := by simp
    rw [List.getElem?_zip_eq_some, List.getElem?_zip_eq_some, getElem?_inner hlen]
    refine ⟨?_, by simp, ?_⟩
    · cases hp : p.length with
      | zero => simp [List.length_eq_zero_iff.1 hp, node]
      | succ i =>
        have hne : p ≠ [] := by rintro rfl; cases hp
        rw [List.getElem?_cons_succ, getElem?_inner (by simp; omega), if_neg (by simp; omega), ← hp, node, if_neg hne]
        simp
    · have hr : p.length + 1 = (p ++ x :: r).length ↔ r = [] := by simp
      simp only [hr]
      rw [show p ++ x :: r = (p ++ [x]) ++ r by simp, List.take_append_of_le_length (by simp), List.take_of_length_le (by simp)]

end

variable (IsState : N → Prop) (step : N → List A → N → Prop) (inner : N → List A → N)

/-- The letters of the words. -/
inductive Letter : N → A → N → Prop
  | mk {a b : N} {p r : List A} {x : A} : step a (p ++ x :: r) b →
    Letter (node inner a p) x (if r = [] then b else inner a (p ++ [x]))

/-- Nodes inside words are not states, and are shared with a common prefix from one state only. -/
structure Separate : Prop where
  nonempty : ∀ {a l b}, step a l b → l ≠ []
  source : ∀ {a l b}, step a l b → IsState a
  target : ∀ {a l b}, step a l b → IsState b
  fresh : ∀ {a p x r b}, step a (p ++ x :: r) b → p ≠ [] → ¬ IsState (inner a p)
  apart : ∀ {a p x r b a' p' x' r' b'}, step a (p ++ x :: r) b → step a' (p' ++ x' :: r') b' → p ≠ [] → p' ≠ [] →
    inner a p = inner a' p' → a = a' ∧ p = p'

variable {IsState} {step} {inner} {a b n : N} {w : List A}

/-- From a node inside a word, its letters that are left come first. -/
theorem Separate.follow (h : Separate IsState step inner) (hpath : LetterPath (Letter step inner) n w b)
    (hb : IsState b) : (IsState n → WordPath step n w b) ∧
    ∀ {a p x r c}, step a (p ++ x :: r) c → p ≠ [] → n = inner a p →
      ∃ rest c' w', rest ≠ [] ∧ step a (p ++ rest) c' ∧ w = rest ++ w' ∧ WordPath step c' w' b := by
  induction hpath with
  | nil b =>
    refine ⟨fun _ => .nil b, ?_⟩
    rintro a p x r c hstep hp rfl
    exact absurd hb (h.fresh hstep hp)
  | @cons n m b y w hletter _ ih =>
    obtain ⟨ih, ih'⟩ := ih hb
    cases hletter with
    | @mk a₀ b₀ p₀ r₀ _ hstep₀ =>
      -- what comes after this letter, from the state that the word is of
      have hgo : ∃ rest c' w', rest ≠ [] ∧ step a₀ (p₀ ++ rest) c' ∧ y :: w = rest ++ w' ∧ WordPath step c' w' b := by
        by_cases hr : r₀ = []
        · subst hr
          rw [if_pos rfl] at ih
          exact ⟨[y], b₀, w, by simp, hstep₀, rfl, ih (h.target hstep₀)⟩
        · obtain ⟨z, r, rfl⟩ := List.exists_cons_of_ne_nil hr
          have hstep : step a₀ (p₀ ++ [y] ++ z :: r) b₀ := by simpa using hstep₀
          obtain ⟨rest, c', w', -, hstep', rfl, hpath⟩ := ih' hstep (by simp) (if_neg hr)
          exact ⟨y :: rest, c', w', by simp, by simpa using hstep', rfl, hpath⟩
      obtain ⟨rest, c', w', hne, hstep', hw, hpath⟩ := hgo
      constructor
      · intro hn
        by_cases hp : p₀ = []
        · subst hp
          rw [hw]
          exact .cons hstep' hpath
        · rw [node, if_neg hp] at hn
          exact absurd hn (h.fresh hstep₀ hp)
      · intro a p x r c hstep hp heq
        by_cases hp₀ : p₀ = []
        · rw [node, if_pos hp₀] at heq
          have hsource := h.source hstep₀
          rw [heq] at hsource
          exact absurd hsource (h.fresh hstep hp)
        · rw [node, if_neg hp₀] at heq
          obtain ⟨rfl, rfl⟩ := h.apart hstep₀ hstep hp₀ hp heq
          exact ⟨rest, c', w', hne, hstep', hw, hpath⟩

/-- The letters of a word from one of its nodes. -/
theorem letterPath_of_step {p r : List A} (hr : r ≠ []) (h : step a (p ++ r) b) :
    LetterPath (Letter step inner) (node inner a p) r b := by
  induction r generalizing p with
  | nil => exact absurd rfl hr
  | cons x r ih =>
    have hletter : Letter step inner (node inner a p) x (if r = [] then b else inner a (p ++ [x])) := .mk h
    by_cases hnil : r = []
    · rw [if_pos hnil] at hletter
      subst hnil
      exact .cons hletter (.nil b)
    · rw [if_neg hnil] at hletter
      have hrest := ih (p := p ++ [x]) hnil (by simpa using h)
      rw [node, if_neg (by simp)] at hrest
      exact .cons hletter hrest

/-- Between states the letters give the same words. -/
theorem Separate.path_iff (h : Separate IsState step inner) (ha : IsState a) (hb : IsState b) :
    LetterPath (Letter step inner) a w b ↔ WordPath step a w b := by
  constructor
  · intro hpath
    exact (h.follow hpath hb).1 ha
  · intro hpath
    clear ha hb
    induction hpath with
    | nil a => exact .nil a
    | @cons a b c l w hstep _ ih =>
      have hfirst : LetterPath (Letter step inner) (node inner a []) l b := letterPath_of_step (h.nonempty hstep) hstep
      exact hfirst.append ih

end Unfold
