import Mathlib.Data.List.Basic
import Mathlib.Logic.Function.Basic
/-!
# Memoised calls

A function that is memoised looks its argument up by a key. The table may lose
entries at any time, as one with weak keys does. What the function returns is a
relation, so that it may depend on more than its argument, or not return.
-/

variable {α κ ρ : Type*}

/-- A table of results. -/
abbrev Memo (κ ρ : Type*) := κ → Option ρ

namespace Memo

/-- The entries of the second table are those of the first that it did not lose. -/
def Forgets (m m' : Memo κ ρ) : Prop := ∀ k r, m' k = some r → m k = some r

variable [DecidableEq κ]

/-- The calls so far, each with its result, and the table. A call without a key is not memoised. -/
inductive Run (key : α → Option κ) (returns : α → ρ → Prop) : List (α × ρ) → Memo κ ρ → Prop where
  | start : Run key returns [] fun _ => none
  | forget {calls : List (α × ρ)} {m m' : Memo κ ρ} (h : Run key returns calls m) (hm : m.Forgets m') :
    Run key returns calls m'
  | pass {calls : List (α × ρ)} {m : Memo κ ρ} {a : α} {r : ρ} (h : Run key returns calls m) (hkey : key a = none)
    (hr : returns a r) : Run key returns (calls ++ [(a, r)]) m
  | hit {calls : List (α × ρ)} {m : Memo κ ρ} {a : α} {k : κ} {r : ρ} (h : Run key returns calls m)
    (hkey : key a = some k) (hm : m k = some r) : Run key returns (calls ++ [(a, r)]) m
  | miss {calls : List (α × ρ)} {m : Memo κ ρ} {a : α} {k : κ} {r : ρ} (h : Run key returns calls m)
    (hkey : key a = some k) (hm : m k = none) (hr : returns a r) :
    Run key returns (calls ++ [(a, r)]) (Function.update m k (some r))

variable {key : α → Option κ} {returns : α → ρ → Prop} {calls : List (α × ρ)} {m : Memo κ ρ} {S : α → Prop}

/-- What the table holds was returned by a call with the key. -/
theorem Run.entry (h : Run key returns calls m) {k : κ} {r : ρ} (hk : m k = some r) :
    ∃ b, (b, r) ∈ calls ∧ key b = some k ∧ returns b r := by
  induction h with
  | start => cases hk
  | forget _ hm ih => exact ih (hm k r hk)
  | pass _ _ _ ih =>
    obtain ⟨b, hb, hkey, hr⟩ := ih hk
    exact ⟨b, List.mem_append_left _ hb, hkey, hr⟩
  | hit _ _ _ ih =>
    obtain ⟨b, hb, hkey, hr⟩ := ih hk
    exact ⟨b, List.mem_append_left _ hb, hkey, hr⟩
  | @miss calls m a k' r' _ hkey' _ hr' ih =>
    by_cases heq : k = k'
    · subst heq
      rw [Function.update_self] at hk
      cases hk
      exact ⟨a, List.mem_append_right _ (List.mem_singleton.2 rfl), hkey', hr'⟩
    · rw [Function.update_of_ne heq] at hk
      obtain ⟨b, hb, hkey, hr⟩ := ih hk
      exact ⟨b, List.mem_append_left _ hb, hkey, hr⟩

/-- Calls that share a key return the same. -/
def Agrees (key : α → Option κ) (returns : α → ρ → Prop) (S : α → Prop) : Prop :=
  ∀ a b k r, S a → S b → key a = some k → key b = some k → returns a r → returns b r

theorem Run.right (hagrees : Agrees key returns S) (h : Run key returns calls m) (hS : ∀ x ∈ calls, S x.1) :
    ∀ x ∈ calls, returns x.1 x.2 := by
  induction h with
  | start => exact fun x hx => absurd hx List.not_mem_nil
  | forget _ _ ih => exact ih hS
  | pass _ _ hr ih =>
    obtain ⟨hS, -⟩ := List.forall_mem_append.1 hS
    exact List.forall_mem_append.2 ⟨ih hS, List.forall_mem_singleton.2 hr⟩
  | hit h hkey hm ih =>
    obtain ⟨hS, ha⟩ := List.forall_mem_append.1 hS
    obtain ⟨b, hb, hkey', hr⟩ := h.entry hm
    have hright := hagrees b _ _ _ (hS _ hb) (ha _ (List.mem_singleton.2 rfl)) hkey' hkey hr
    exact List.forall_mem_append.2 ⟨ih hS, List.forall_mem_singleton.2 hright⟩
  | miss _ _ _ hr ih =>
    obtain ⟨hS, -⟩ := List.forall_mem_append.1 hS
    exact List.forall_mem_append.2 ⟨ih hS, List.forall_mem_singleton.2 hr⟩

/-- The second of two calls that share a key returns what the first does. -/
theorem run_shared {a b : α} {k : κ} {r : ρ} (ha : key a = some k) (hb : key b = some k) (hr : returns a r) :
    Run key returns [(a, r), (b, r)] (Function.update (fun _ => none) k (some r)) :=
  .hit (.miss .start ha rfl hr) hb (by rw [Function.update_self])

/-- Every run is right just when calls that share a key return the same. -/
theorem right_iff : (∀ calls m, Run key returns calls m → (∀ x ∈ calls, S x.1) → ∀ x ∈ calls, returns x.1 x.2) ↔
    Agrees key returns S := by
  constructor
  · intro h a b k r ha hb hka hkb hr
    have hS : ∀ x ∈ [(a, r), (b, r)], S x.1 := by
      rw [List.forall_mem_cons, List.forall_mem_singleton]
      exact ⟨ha, hb⟩
    exact h _ _ (run_shared hka hkb hr) hS (b, r) (List.mem_cons_of_mem _ List.mem_cons_self)
  · exact fun hagrees calls m h hS => h.right hagrees hS

end Memo
