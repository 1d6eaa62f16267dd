import Mathlib.Data.List.Perm.Basic
import Mathlib.Logic.Relation
/-!
# Loops

A loop repeats a step until there is none. How often is bounded by fuel; an
invariant with a measure that every step lowers gives a bound that is enough.
-/

namespace Loop

variable {σ : Type*} {step : σ → Option σ}

/-- Repeats the step until there is none, at most `fuel` times less one. -/
def run (step : σ → Option σ) : Nat → σ → Option σ
  | 0, _ => none
  | fuel + 1, s =>
    match step s with
    | none => some s
    | some s' => run step fuel s'

theorem run_done {s : σ} (h : step s = none) (fuel : Nat) : run step (fuel + 1) s = some s := by
  rw [run, h]

theorem run_step {s s' : σ} (h : step s = some s') (fuel : Nat) :
    run step (fuel + 1) s = run step fuel s' := by
  rw [run, h]

/-- With more fuel than the measure the loop ends, in a state that keeps the invariant. -/
theorem run_ends {inv : σ → Prop} (measure : σ → Nat)
    (h : ∀ s s', inv s → step s = some s' → inv s' ∧ measure s' < measure s) :
    ∀ {fuel s}, inv s → measure s < fuel → ∃ r, run step fuel s = some r ∧ inv r ∧ step r = none := by
  intro fuel
  induction fuel with
  | zero => intro s _ hf; omega
  | succ fuel ih =>
    intro s hs hf
    cases hstep : step s with
    | none => exact ⟨s, run_done hstep fuel, hs, hstep⟩
    | some s' =>
      obtain ⟨hinv, hlt⟩ := h s s' hs hstep
      rw [run_step hstep]
      exact ih hinv (by omega)

/-- What every step preserves is preserved by a run. -/
theorem run_inv (inv : σ → Prop) (h : ∀ s s', inv s → step s = some s' → inv s') :
    ∀ {fuel s r}, run step fuel s = some r → inv s → inv r := by
  intro fuel
  induction fuel with
  | zero => intro s r hrun; cases hrun
  | succ fuel ih =>
    intro s r hrun hs
    cases hstep : step s with
    | none =>
      rw [run_done hstep] at hrun
      cases hrun
      exact hs
    | some s' =>
      rw [run_step hstep] at hrun
      exact ih hrun (h s s' hs hstep)

/-- A run to a state without a step. -/
theorem run_of_reaches {s r : σ} (h : Relation.ReflTransGen (fun s s' => step s = some s') s r) (hr : step r = none) :
    ∃ fuel, run step fuel s = some r := by
  induction h using Relation.ReflTransGen.head_induction_on with
  | refl => exact ⟨1, run_done hr 0⟩
  | head hstep _ ih =>
    obtain ⟨fuel, hrun⟩ := ih
    exact ⟨fuel + 1, by rw [run_step hstep, hrun]⟩

/-! ## Enough fuel -/

theorem run_mono {r : σ} : ∀ {fuel fuel' : Nat} {s : σ}, run step fuel s = some r → fuel ≤ fuel' →
    run step fuel' s = some r := by
  intro fuel
  induction fuel with
  | zero => intro _ _ h; cases h
  | succ fuel ih =>
    intro fuel' s h hle
    obtain ⟨fuel', rfl⟩ : ∃ k, fuel' = k + 1 := ⟨fuel' - 1, by omega⟩
    cases hstep : step s with
    | none =>
      rw [run_done hstep] at h ⊢
      exact h
    | some s' =>
      rw [run_step hstep] at h ⊢
      exact ih h (by omega)

/-- The loop ends after a number of steps. -/
inductive Takes (step : σ → Option σ) : σ → Nat → Prop
  | done {s : σ} : step s = none → Takes step s 0
  | next {s s' : σ} {n : Nat} : step s = some s' → Takes step s' n → Takes step s (n + 1)

theorem Takes.unique {s : σ} {n m : Nat} (hn : Takes step s n) (hm : Takes step s m) : n = m := by
  induction hn generalizing m with
  | done hnone =>
    cases hm with
    | done => rfl
    | next hsome => rw [hnone] at hsome; cases hsome
  | next hsome _ ih =>
    cases hm with
    | done hnone => rw [hnone] at hsome; cases hsome
    | next hsome' hm =>
      obtain rfl := Option.some.inj (hsome.symm.trans hsome')
      rw [ih hm]

theorem takes_of_run {r : σ} : ∀ {fuel : Nat} {s : σ}, run step fuel s = some r → ∃ n, n < fuel ∧
    Takes step s n := by
  intro fuel
  induction fuel with
  | zero => intro s h; cases h
  | succ fuel ih =>
    intro s h
    cases hstep : step s with
    | none => exact ⟨0, by omega, .done hstep⟩
    | some s' =>
      rw [run_step hstep] at h
      obtain ⟨n, hn, ht⟩ := ih h
      exact ⟨n + 1, by omega, .next hstep ht⟩

theorem run_of_takes {s : σ} {n fuel : Nat} (h : Takes step s n) (hf : n < fuel) :
    ∃ r, run step fuel s = some r := by
  induction h generalizing fuel with
  | @done s hstep =>
    obtain ⟨k, rfl⟩ : ∃ k, fuel = k + 1 := ⟨fuel - 1, by omega⟩
    exact ⟨s, run_done hstep k⟩
  | next hstep _ ih =>
    obtain ⟨k, rfl⟩ : ∃ k, fuel = k + 1 := ⟨fuel - 1, by omega⟩
    rw [run_step hstep]
    exact ih (by omega)

section
variable {κ : Type*} {key : σ → κ}

theorem Takes.congr (hkey : ∀ s t s', key s = key t → step s = some s' → ∃ t', step t = some t' ∧ key s' = key t')
    {s t : σ} {n : Nat} (h : Takes step s n) (hst : key s = key t) : Takes step t n := by
  induction h generalizing t with
  | @done s hnone =>
    cases hstep : step t with
    | none => exact .done hstep
    | some t' =>
      obtain ⟨s', hs', -⟩ := hkey t s t' hst.symm hstep
      rw [hnone] at hs'
      cases hs'
  | @next s s' n hstep _ ih =>
    obtain ⟨t', ht', hs't'⟩ := hkey s t s' hst hstep
    exact .next ht' (ih hs't')

/-- No key comes twice in a loop that ends, where the key says what the steps are. -/
theorem Takes.le_length [DecidableEq κ]
    (hkey : ∀ s t s', key s = key t → step s = some s' → ∃ t', step t = some t' ∧ key s' = key t') :
    ∀ {n : Nat} {s : σ} {U : List κ}, (∀ t m, 0 < m → m ≤ n → Takes step t m → key t ∈ U) → Takes step s n →
      n ≤ U.length := by
  intro n
  induction n with
  | zero => intro _ _ _ _; exact Nat.zero_le _
  | succ n ih =>
    intro s U hU h
    have hmem : key s ∈ U := hU s (n + 1) (by omega) (Nat.le_refl _) h
    have hpos := List.length_pos_of_mem hmem
    cases h with
    | next hstep h =>
      have hle := ih (U := U.erase (key s)) (fun t m hpos hm ht => by
        have hne : key t ≠ key s := by
          intro heq
          have := (ht.congr hkey heq).unique (.next hstep h)
          omega
        exact (List.mem_erase_of_ne hne).2 (hU t m hpos (by omega) ht)) h
      rw [List.length_erase_of_mem hmem] at hle
      omega

/-- If the loop ends at all, it does so with fuel for all keys. -/
theorem run_enough [DecidableEq κ] (key : σ → κ)
    (hkey : ∀ s t s', key s = key t → step s = some s' → ∃ t', step t = some t' ∧ key s' = key t')
    {U : List κ} (hU : ∀ s s', step s = some s' → key s ∈ U) {fuel : Nat} {s r : σ} (h : run step fuel s = some r) :
    run step (U.length + 1) s = some r := by
  obtain ⟨n, -, ht⟩ := takes_of_run h
  have hle : n ≤ U.length := Takes.le_length hkey (fun t m hpos _ ht => by
    cases ht with
    | done => omega
    | next hstep => exact hU _ _ hstep) ht
  obtain ⟨r', hr'⟩ : ∃ r', run step (U.length + 1) s = some r' := run_of_takes ht (by omega)
  have h1 := run_mono h (Nat.le_max_left fuel (U.length + 1))
  have h2 := run_mono hr' (Nat.le_max_right fuel (U.length + 1))
  rw [hr', ← h1, h2]

end

/-! ## Guarded runs -/

/-- What every step that meets its condition preserves is preserved by a run of such steps. -/
theorem guarded_inv {ι : Type*} {meets : σ → ι → Bool} {step : σ → ι → Option σ}
    {run : σ → List ι → Option σ} (hnil : ∀ s, run s [] = some s)
    (hcons : ∀ s op ops, run s (op :: ops) = if meets s op then (step s op).bind fun s => run s ops else none)
    {inv : σ → Prop} (hstep : ∀ s op s', inv s → meets s op = true → step s op = some s' → inv s') :
    ∀ {ops : List ι} {s s' : σ}, inv s → run s ops = some s' → inv s' := by
  intro ops
  induction ops with
  | nil =>
    intro s s' hs h
    rw [hnil] at h
    cases h
    exact hs
  | cons op ops ih =>
    intro s s' hs h
    rw [hcons] at h
    split at h
    · next hm =>
      obtain ⟨s'', hop, h⟩ := Option.bind_eq_some_iff.mp h
      exact ih (hstep s op s'' hs hm hop) h
    · cases h

end Loop
