import Mathlib.Data.List.Basic
/-!
# Process terms

Sequential processes with prefixes, sums and process names, as a tree printed
with brackets around each sum. A run leaves out the hidden actions, and the
branches that end at once in one of the processes that mark them as wrong.
-/

namespace Process

variable {α ν : Type}

/-- `delta`, a process name, `a . t`, and `(t + ... + u)`. -/
inductive Term (α ν : Type) where
  | delta
  | process (name : ν)
  | seq (action : α) (t : Term α ν)
  | group (ts : List (Term α ν))

/-- The steps of a term, where processes have the summands `defs` gives. -/
inductive Step (defs : ν → Option (List (Term α ν))) : Term α ν → α → Term α ν → Prop
  | seq (a : α) (t : Term α ν) : Step defs (.seq a t) a t
  | process {name : ν} {ts : List (Term α ν)} {t u : Term α ν} {a : α} : defs name = some ts → t ∈ ts →
      Step defs t a u → Step defs (.process name) a u
  | group {ts : List (Term α ν)} {t u : Term α ν} {a : α} : t ∈ ts → Step defs t a u → Step defs (.group ts) a u

/-- The runs of a term: the actions that are not hidden, without the branches to a process of `wrong`. -/
inductive Run (defs : ν → Option (List (Term α ν))) (hidden : α → Prop) (wrong : ν → Prop) :
    Term α ν → List α → Term α ν → Prop
  | nil (t : Term α ν) : Run defs hidden wrong t [] t
  | hide {t u v : Term α ν} {a : α} {w : List α} : Step defs t a u → hidden a → Run defs hidden wrong u w v →
      Run defs hidden wrong t w v
  | act {t u v : Term α ν} {a : α} {w : List α} : Step defs t a u → ¬ hidden a →
      (∀ name, wrong name → u ≠ .process name) → Run defs hidden wrong u w v → Run defs hidden wrong t (a :: w) v

/-- A term after some actions. -/
def after (actions : List α) (t : Term α ν) : Term α ν := actions.foldr .seq t

section
variable {defs : ν → Option (List (Term α ν))} {hidden : α → Prop} {wrong : ν → Prop} {t u v : Term α ν} {a b : α}
  {w w' actions : List α} {ts : List (Term α ν)} {name : ν}

theorem step_delta : ¬ Step defs .delta a u := by
  intro h
  cases h

theorem step_seq : Step defs (.seq b t) a u ↔ a = b ∧ u = t := by
  constructor
  · intro h
    cases h
    exact ⟨rfl, rfl⟩
  · rintro ⟨rfl, rfl⟩
    exact .seq a u

theorem step_process : Step defs (.process name) a u ↔ ∃ ts, defs name = some ts ∧
    ∃ t ∈ ts, Step defs t a u := by
  constructor
  · intro h
    cases h with
    | process hd ht h => exact ⟨_, hd, _, ht, h⟩
  · rintro ⟨ts, hd, t, ht, h⟩
    exact .process hd ht h

theorem step_group : Step defs (.group ts) a u ↔ ∃ t ∈ ts, Step defs t a u := by
  constructor
  · intro h
    cases h with
    | group ht h => exact ⟨_, ht, h⟩
  · rintro ⟨t, ht, h⟩
    exact .group ht h

theorem Run.append (h : Run defs hidden wrong t w u) (h' : Run defs hidden wrong u w' v) :
    Run defs hidden wrong t (w ++ w') v := by
  induction h with
  | nil => exact h'
  | hide hs hh _ ih => exact .hide hs hh (ih h')
  | act hs hh hw _ ih => exact .act hs hh hw (ih h')

/-- Hidden actions in front of a term are passed. -/
theorem run_after (h : ∀ a ∈ actions, hidden a) : Run defs hidden wrong (after actions t) [] t := by
  induction actions with
  | nil => exact .nil t
  | cons a actions ih => exact .hide (.seq a _) (h a (by simp)) (ih fun b hb => h b (by simp [hb]))

end

end Process
