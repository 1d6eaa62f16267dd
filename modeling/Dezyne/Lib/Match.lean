import Mathlib.Logic.Relation
import Mathlib.Data.List.Infix
/-!
# Two machines that observe the same

A machine takes at most one step from a state, and what it has observed only
grows. When related states have observed the same, and either both machines go on
to related states or one of them goes on alone, which a rank bounds, then neither
machine observes anything that the other one does not.
-/

namespace Dezyne.Match

variable {A B L : Type*}

/-- A run of a machine. -/
abbrev Runs (next : A → Option A) : A → A → Prop := Relation.ReflTransGen fun a a' => next a = some a'

/-- A run of at least one step. -/
abbrev Advances (next : A → Option A) : A → A → Prop := Relation.TransGen fun a a' => next a = some a'

/-- `n` steps. -/
def steps (next : A → Option A) : Nat → A → Option A
  | 0, a => some a
  | n + 1, a => (next a).bind (steps next n)

/-- What is observed is kept by every step. -/
def Grows (next : A → Option A) (log : A → List L) : Prop := ∀ a a', next a = some a' → log a <+: log a'

variable {nextA : A → Option A} {nextB : B → Option B} {logA : A → List L} {logB : B → List L}

theorem runs_of_steps {n : Nat} : ∀ {a a' : A}, steps nextA n a = some a' → Runs nextA a a' := by
  induction n with
  | zero =>
    intro a a' h
    cases h
    exact .refl
  | succ n ih =>
    intro a a' h
    obtain ⟨a₁, ha₁, h⟩ := Option.bind_eq_some_iff.mp h
    exact .head ha₁ (ih h)

theorem Grows.run (hg : Grows nextA logA) {a a' : A} (h : Runs nextA a a') : logA a <+: logA a' := by
  induction h with
  | refl => exact List.prefix_refl _
  | tail _ hstep ih => exact ih.trans (hg _ _ hstep)

/-- Both machines stop, or both go on, or the first one goes on to a state of a lower rank. -/
structure Matched (nextA : A → Option A) (nextB : B → Option B) (logA : A → List L) (logB : B → List L)
    (R : A → B → Prop) (rank : A → Nat) : Prop where
  grows : Grows nextB logB
  logs : ∀ a b, R a b → logA a = logB b
  step : ∀ a b, R a b → (nextA a = none ∧ nextB b = none) ∨
    (∃ a' b', nextA a = some a' ∧ Advances nextB b b' ∧ R a' b') ∨
    (∃ a', nextA a = some a' ∧ R a' b ∧ rank a' < rank a)

variable {R : A → B → Prop} {rank : A → Nat}

/-- The second machine reaches a state that is related to any one that the first one reaches. -/
theorem Matched.forward (hm : Matched nextA nextB logA logB R rank) {a a' : A} {b : B} (hr : R a b)
    (h : Runs nextA a a') : ∃ b', Runs nextB b b' ∧ R a' b' := by
  induction h with
  | refl => exact ⟨b, .refl, hr⟩
  | tail _ hstep ih =>
    obtain ⟨b', hb, hr'⟩ := ih
    rcases hm.step _ _ hr' with ⟨hstop, -⟩ | ⟨a₁, b₁, ha, hb₁, hr₁⟩ | ⟨a₁, ha, hr₁, -⟩
    · rw [hstop] at hstep
      cases hstep
    · obtain rfl := Option.some.inj (ha.symm.trans hstep)
      exact ⟨b₁, hb.trans hb₁.to_reflTransGen, hr₁⟩
    · obtain rfl := Option.some.inj (ha.symm.trans hstep)
      exact ⟨b', hb, hr₁⟩

/-- The first machine goes on until the second one does, or both stop. -/
theorem Matched.catch_up (hm : Matched nextA nextB logA logB R rank) {b : B} :
    ∀ (n : Nat) {a : A}, rank a = n → R a b →
      ∃ a', Runs nextA a a' ∧ R a' b ∧ (nextB b = none ∨ ∃ a'' b', nextA a' = some a'' ∧ Advances nextB b b' ∧ R a'' b') := by
  intro n
  induction n using Nat.strong_induction_on with
  | _ n ih =>
    intro a hn hr
    rcases hm.step _ _ hr with ⟨-, hstop⟩ | ⟨a', b', ha, hb, hr'⟩ | ⟨a₁, ha, hr₁, hlt⟩
    · exact ⟨a, .refl, hr, .inl hstop⟩
    · exact ⟨a, .refl, hr, .inr ⟨a', b', ha, hb, hr'⟩⟩
    · obtain ⟨a', hrun, hr', hor⟩ := ih (rank a₁) (by omega) rfl hr₁
      exact ⟨a', .head ha hrun, hr', hor⟩

/-- From any state of the second machine a related pair is ahead. -/
theorem Matched.ahead (hm : Matched nextA nextB logA logB R rank) {a : A} {b b' : B} (hr : R a b)
    (h : Runs nextB b b') : ∃ a₁ b₁, Runs nextA a a₁ ∧ R a₁ b₁ ∧ Runs nextB b' b₁ := by
  induction h with
  | refl => exact ⟨a, b, .refl, hr, .refl⟩
  | @tail b₂ b₃ _ hstep ih =>
    obtain ⟨a₁, b₁, ha, hr₁, hb⟩ := ih
    rcases Relation.ReflTransGen.cases_head hb with rfl | ⟨c, hc, hcb⟩
    · obtain ⟨a₂, ha₂, hr₂, hstop | ⟨a₃, b₄, ha₃, hb₄, hr₃⟩⟩ := hm.catch_up (rank a₁) rfl hr₁
      · rw [hstop] at hstep
        cases hstep
      · obtain ⟨d, hd, hdb⟩ := Relation.TransGen.head'_iff.mp hb₄
        obtain rfl := Option.some.inj (hd.symm.trans hstep)
        exact ⟨a₃, b₄, (ha.trans ha₂).tail ha₃, hr₃, hdb⟩
    · obtain rfl := Option.some.inj (hc.symm.trans hstep)
      exact ⟨a₁, b₁, ha, hr₁, hcb⟩

/-- Neither machine observes anything that the other one does not observe in the same order, and where the first
one stops, so does the second one. -/
theorem Matched.same (hm : Matched nextA nextB logA logB R rank) {a : A} {b : B} (hr : R a b) :
    (∀ a', Runs nextA a a' → ∃ b', Runs nextB b b' ∧ R a' b') ∧
    (∀ b', Runs nextB b b' → ∃ a', Runs nextA a a' ∧ logB b' <+: logA a') ∧
    (∀ a', Runs nextA a a' → nextA a' = none → ∃ b', Runs nextB b b' ∧ nextB b' = none ∧ R a' b') := by
  refine ⟨fun a' h => hm.forward hr h, fun b' h => ?_, fun a' h hstop => ?_⟩
  · obtain ⟨a₁, b₁, ha, hr₁, hb⟩ := hm.ahead hr h
    refine ⟨a₁, ha, ?_⟩
    rw [hm.logs _ _ hr₁]
    exact hm.grows.run hb
  · obtain ⟨b', hb, hr'⟩ := hm.forward hr h
    rcases hm.step _ _ hr' with ⟨-, hstopB⟩ | ⟨a₁, _, ha, -⟩ | ⟨a₁, ha, -⟩
    · exact ⟨b', hb, hstopB, hr'⟩
    · rw [hstop] at ha
      cases ha
    · rw [hstop] at ha
      cases ha

end Dezyne.Match
