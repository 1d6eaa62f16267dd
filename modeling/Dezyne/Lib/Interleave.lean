import Mathlib.Order.Basic
/-!
# Runs of interleaved steps

A system takes one action at a time from a state. What every action keeps holds of every state
that is reached. When the system's own actions lower a measure, they end, whatever their order.
-/

namespace Interleave

variable {σ α : Type} {step : σ → α → Option σ} {own : α → Prop} {s t u : σ}

/-- The states that the actions lead to from `s`. -/
inductive Reach (step : σ → α → Option σ) (s : σ) : σ → Prop
  | refl : Reach step s s
  | tail {t u : σ} {a : α} : Reach step s t → step t a = some u → Reach step s u

theorem Reach.trans (h : Reach step s t) (h' : Reach step t u) : Reach step s u := by
  induction h' with
  | refl => exact h
  | tail _ ha ih => exact .tail ih ha

/-- An invariant that holds at first holds from then on. -/
theorem Reach.invariant {P : σ → Prop} (hstep : ∀ {s a t}, P s → step s a = some t → P t) (h : Reach step s t)
    (hs : P s) : P t := by
  induction h with
  | refl => exact hs
  | tail _ ha ih => exact hstep ih ha

/-- What a list of actions leads to is reached. -/
theorem Reach.of_foldlM {l : List α} (h : l.foldlM step s = some t) : Reach step s t := by
  induction l generalizing s with
  | nil =>
    cases h
    exact .refl
  | cons a l ih =>
    obtain ⟨u, ha, hu⟩ := Option.bind_eq_some_iff.mp h
    exact Reach.trans (.tail .refl ha) (ih hu)

/-- `n` own actions, one after the other. -/
inductive Run (step : σ → α → Option σ) (own : α → Prop) (s : σ) : Nat → σ → Prop
  | refl : Run step own s 0 s
  | tail {n : Nat} {t u : σ} {a : α} : Run step own s n t → own a → step t a = some u → Run step own s (n + 1) u

/-- No own action can be taken. -/
def Quiet (step : σ → α → Option σ) (own : α → Prop) (s : σ) : Prop := ∀ a, own a → step s a = none

theorem Run.reach {n : Nat} (h : Run step own s n t) : Reach step s t := by
  induction h with
  | refl => exact .refl
  | tail _ _ ha ih => exact .tail ih ha

theorem Run.append {n : Nat} {a : α} (ha : own a) (hst : step s a = some t) (h : Run step own t n u) :
    Run step own s (n + 1) u := by
  induction h with
  | refl => exact .tail .refl ha hst
  | tail _ hb hstep ih => exact .tail ih hb hstep

theorem Run.of_foldlM {l : List α} (h : l.foldlM step s = some t) (hown : ∀ a ∈ l, own a) :
    Run step own s l.length t := by
  induction l generalizing s with
  | nil =>
    cases h
    exact .refl
  | cons a l ih =>
    obtain ⟨u, ha, hu⟩ := Option.bind_eq_some_iff.mp h
    exact (ih hu fun b hb => hown b (List.mem_cons_of_mem a hb)).append (hown a List.mem_cons_self) ha

/-- A run of own actions is not longer than what the measure has lost. -/
theorem Run.le_measure {P : σ → Prop} {m : σ → Nat} {n : Nat} (hP : ∀ {s a t}, P s → step s a = some t → P t)
    (hm : ∀ {s a t}, P s → own a → step s a = some t → m t < m s) (h : Run step own s n t) (hs : P s) :
    n + m t ≤ m s := by
  induction h with
  | refl => exact Nat.le_of_eq (Nat.zero_add _)
  | tail hr ha hstep ih =>
    have hlt := hm (hr.reach.invariant hP hs) ha hstep
    omega

end Interleave
