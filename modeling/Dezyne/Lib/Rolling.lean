import Mathlib.Data.Int.ModEq
import Mathlib.RingTheory.Coprime.Basic
import Mathlib.Tactic.Ring
import Mathlib.Tactic.Linarith
/-!
# Rolling hashes

A rolling hash reads the digits of a text as a number, the first digit with the
least weight, and keeps its remainder. Two texts have the same hash when a
multiple of the modulus is between their numbers. Digits that differ modulo the
base, and that are not zero modulo the base, give every text its own number.
-/

namespace Dezyne.Rolling

/-- The number with these digits; the first one has the least weight. -/
def number (b : Int) : List Int → Int
  | [] => 0
  | d :: ds => d + b * number b ds

/-- The hash so far and the weight of the last digit, after one digit more. -/
def step (b m : Int) (s : Int × Int) (d : Int) : Int × Int :=
  ((s.1 + d * (s.2 * b % m) % m) % m, s.2 * b % m)

section
variable {b m : Int} {ds ds' : List Int}

@[simp] theorem number_nil : number b [] = 0 := rfl

@[simp] theorem number_cons (d : Int) : number b (d :: ds) = d + b * number b ds := rfl

theorem step_modEq (b m : Int) (s : Int × Int) (d : Int) :
    (step b m s d).1 ≡ s.1 + d * (s.2 * b) [ZMOD m] ∧ (step b m s d).2 ≡ s.2 * b [ZMOD m] := by
  have hpow : s.2 * b % m ≡ s.2 * b [ZMOD m] := Int.mod_modEq _ _
  refine ⟨?_, hpow⟩
  calc (s.1 + d * (s.2 * b % m) % m) % m
      ≡ s.1 + d * (s.2 * b % m) % m [ZMOD m] := Int.mod_modEq _ _
    _ ≡ s.1 + d * (s.2 * b % m) [ZMOD m] := (Int.mod_modEq _ _).add_left s.1
    _ ≡ s.1 + d * (s.2 * b) [ZMOD m] := (hpow.mul_left d).add_left s.1

/-- The hash of a text is its number, times the weight of its first digit. -/
theorem foldl_step_modEq (s : Int × Int) :
    (ds.foldl (step b m) s).1 ≡ s.1 + s.2 * (b * number b ds) [ZMOD m] := by
  induction ds generalizing s with
  | nil => simp
  | cons d ds ih =>
    obtain ⟨hh, hpow⟩ := step_modEq b m s d
    calc (ds.foldl (step b m) (step b m s d)).1
        ≡ (step b m s d).1 + (step b m s d).2 * (b * number b ds) [ZMOD m] := ih _
      _ ≡ s.1 + d * (s.2 * b) + s.2 * b * (b * number b ds) [ZMOD m] := hh.add (hpow.mul_right _)
      _ = s.1 + s.2 * (b * number b (d :: ds)) := by
        rw [number_cons]
        ring

/-- The hash is reduced. -/
theorem foldl_step_emod (s : Int × Int) (hs : s.1 % m = s.1) :
    (ds.foldl (step b m) s).1 % m = (ds.foldl (step b m) s).1 := by
  induction ds generalizing s with
  | nil => exact hs
  | cons d ds ih => exact ih _ (Int.emod_emod _ _)

/-- The hash of a text from the initial state. -/
theorem foldl_step_init : (ds.foldl (step b m) (0, 1)).1 = b * number b ds % m := by
  rw [← foldl_step_emod (0, 1) (Int.zero_emod m)]
  have h : (ds.foldl (step b m) (0, 1)).1 ≡ 0 + 1 * (b * number b ds) [ZMOD m] := foldl_step_modEq (0, 1)
  rw [zero_add, one_mul] at h
  exact h

/-- Two texts collide if and only if the modulus divides the difference of their numbers. -/
theorem collide_iff (hb : IsCoprime m b) :
    b * number b ds % m = b * number b ds' % m ↔ m ∣ number b ds' - number b ds := by
  have hdvd : b * number b ds % m = b * number b ds' % m ↔ m ∣ b * (number b ds' - number b ds) := by
    rw [mul_sub]
    exact Int.modEq_iff_dvd
  rw [hdvd]
  exact ⟨hb.dvd_of_dvd_mul_left, fun h => h.mul_left b⟩

/-- Digits that are not zero modulo the base, and that differ modulo the base when they differ. -/
structure Digits (b : Int) (digit : Int → Prop) : Prop where
  base : b ≠ 0
  nonzero : ∀ {d}, digit d → ¬ b ∣ d
  separate : ∀ {d d'}, digit d → digit d' → b ∣ d - d' → d = d'

/-- A number has one text. -/
theorem Digits.number_inj {digit : Int → Prop} (hd : Digits b digit) (h : ∀ d ∈ ds, digit d)
    (h' : ∀ d ∈ ds', digit d) (heq : number b ds = number b ds') : ds = ds' := by
  induction ds generalizing ds' with
  | nil =>
    cases ds' with
    | nil => rfl
    | cons d' ds' =>
      refine absurd ⟨-number b ds', ?_⟩ (hd.nonzero (h' d' List.mem_cons_self))
      rw [number_nil, number_cons] at heq
      linarith
  | cons d ds ih =>
    cases ds' with
    | nil =>
      refine absurd ⟨-number b ds, ?_⟩ (hd.nonzero (h d List.mem_cons_self))
      rw [number_nil, number_cons] at heq
      linarith
    | cons d' ds' =>
      rw [number_cons, number_cons] at heq
      have hdd : d = d' := by
        refine hd.separate (h d List.mem_cons_self) (h' d' List.mem_cons_self) ⟨number b ds' - number b ds, ?_⟩
        rw [mul_sub]
        linarith
      subst hdd
      have hrest : number b ds = number b ds' := mul_left_cancel₀ hd.base (add_left_cancel heq)
      rw [ih (fun x hx => h x (List.mem_cons_of_mem _ hx)) (fun x hx => h' x (List.mem_cons_of_mem _ hx)) hrest]

end

end Dezyne.Rolling
