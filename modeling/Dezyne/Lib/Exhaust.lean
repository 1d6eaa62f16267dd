import Dezyne.Lib.AppendMap
import Mathlib.Logic.Relation
import Mathlib.Order.WellFounded
/-!
# Exhausting what is left

From a state there are traces, each ending in a state. A trace whose last state
has nothing left to do is a result; every other one is extended from there. This
ends just when no sequence of traces goes on for ever (`exists_exhaust`), and the
results are the sequences of traces up to a state with nothing left
(`mem_exhaust`).
-/

namespace Exhaust

open AppendMap Relation

/-- Some states one after the other, the last one first. -/
structure Trace (S : Type*) where
  head : S
  rest : List S

variable {S : Type*}

/-- The states of one trace after those of another. -/
def Trace.extend (t u : Trace S) : Trace S := ⟨u.head, u.rest ++ t.head :: t.rest⟩

@[simp] theorem Trace.extend_head (t u : Trace S) : (t.extend u).head = u.head := rfl

variable (traces : S → List (Trace S)) (done : S → Bool)

/-- The results, with the traces that are extended until nothing is left. -/
def exhaust : Nat → S → Option (List (Trace S))
  | 0, _ => none
  | fuel + 1, s =>
    (appendMap (fun t => (exhaust fuel t.head).map (List.map t.extend)) ((traces s).filter (!done ·.head))).map
      ((traces s).filter (done ·.head) ++ ·)

/-- A state with something left, at the end of a trace. -/
def Next (a s : S) : Prop := ∃ t ∈ traces s, t.head = a ∧ done a = false

/-- The traces go on for ever. -/
def Endless (s : S) : Prop := ∃ f : ℕ → S, f 0 = s ∧ ∀ n, Next traces done (f (n + 1)) (f n)

/-- Traces one after the other, up to a state with nothing left. -/
inductive Path : S → Trace S → Prop where
  | last {s : S} {t : Trace S} : t ∈ traces s → done t.head = true → Path s t
  | more {s : S} {t u : Trace S} : t ∈ traces s → done t.head = false → Path t.head u → Path s (t.extend u)

variable {traces done} {s : S} {t : Trace S} {fuel fuel' : Nat} {results : List (Trace S)}

/-! ## When it ends -/

theorem exhaust_succ : exhaust traces done (fuel + 1) s = some results ↔ ∃ rest,
    appendMap (fun t => (exhaust traces done fuel t.head).map (List.map t.extend))
      ((traces s).filter (!done ·.head)) = some rest ∧ (traces s).filter (done ·.head) ++ rest = results := by
  rw [exhaust, Option.map_eq_some_iff]

theorem exists_exhaust_succ : (∃ results, exhaust traces done (fuel + 1) s = some results) ↔
    ∀ t ∈ traces s, done t.head = false → ∃ results, exhaust traces done fuel t.head = some results := by
  have hrest : (∃ results, exhaust traces done (fuel + 1) s = some results) ↔ ∃ rest,
      appendMap (fun t => (exhaust traces done fuel t.head).map (List.map t.extend))
        ((traces s).filter (!done ·.head)) = some rest := by
    simp only [exhaust_succ]
    exact ⟨fun ⟨_, rest, h, _⟩ => ⟨rest, h⟩, fun ⟨rest, h⟩ => ⟨_, rest, h, rfl⟩⟩
  rw [hrest, exists_appendMap]
  simp [Option.map_eq_some_iff]

/-- More fuel does no harm. -/
theorem exists_exhaust_le (hle : fuel ≤ fuel') (h : ∃ results, exhaust traces done fuel s = some results) :
    ∃ results, exhaust traces done fuel' s = some results := by
  induction fuel generalizing s fuel' with
  | zero =>
    obtain ⟨_, h⟩ := h
    cases h
  | succ fuel ih =>
    obtain ⟨fuel', rfl⟩ : ∃ n, fuel' = n + 1 := ⟨fuel' - 1, by omega⟩
    rw [exists_exhaust_succ] at h ⊢
    exact fun t ht hleft => ih (by omega) (h t ht hleft)

/-- What is enough for every one of some states. -/
theorem exists_fuel {l : List (Trace S)}
    (h : ∀ t ∈ l, ∃ fuel results, exhaust traces done fuel t.head = some results) :
    ∃ fuel, ∀ t ∈ l, ∃ results, exhaust traces done fuel t.head = some results := by
  induction l with
  | nil => exact ⟨0, by simp⟩
  | cons t l ih =>
    obtain ⟨n, hn⟩ := h t (by simp)
    obtain ⟨m, hm⟩ := ih fun u hu => h u (by simp [hu])
    refine ⟨max n m, ?_⟩
    rw [List.forall_mem_cons]
    exact ⟨exists_exhaust_le (Nat.le_max_left n m) hn, fun u hu => exists_exhaust_le (Nat.le_max_right n m) (hm u hu)⟩

theorem acc_of_exhaust (h : ∃ results, exhaust traces done fuel s = some results) : Acc (Next traces done) s := by
  induction fuel generalizing s with
  | zero =>
    obtain ⟨_, h⟩ := h
    cases h
  | succ fuel ih =>
    refine ⟨_, ?_⟩
    rintro a ⟨t, ht, rfl, hleft⟩
    exact ih (exists_exhaust_succ.1 h t ht hleft)

theorem exhaust_of_acc (h : Acc (Next traces done) s) : ∃ fuel results, exhaust traces done fuel s = some results := by
  induction h with
  | intro s _ ih =>
    obtain ⟨fuel, hfuel⟩ := exists_fuel (l := (traces s).filter (!done ·.head)) fun t ht => by
      obtain ⟨ht, hleft⟩ := List.mem_filter.1 ht
      exact ih t.head ⟨t, ht, rfl, by simpa using hleft⟩
    refine ⟨fuel + 1, exists_exhaust_succ.2 fun t ht hleft => ?_⟩
    exact hfuel t (List.mem_filter.2 ⟨ht, by simp [hleft]⟩)

theorem exists_exhaust : (∃ fuel results, exhaust traces done fuel s = some results) ↔ ¬Endless traces done s := by
  have hacc : (∃ fuel results, exhaust traces done fuel s = some results) ↔ Acc (Next traces done) s :=
    ⟨fun ⟨_, h⟩ => acc_of_exhaust h, exhaust_of_acc⟩
  rw [hacc, acc_iff_isEmpty_descending_chain, ← not_nonempty_iff, nonempty_subtype]
  rfl

/-! ## What it gives -/

theorem mem_exhaust (h : exhaust traces done fuel s = some results) : t ∈ results ↔ Path traces done s t := by
  induction fuel generalizing s t results with
  | zero => cases h
  | succ fuel ih =>
    obtain ⟨rest, hrest, rfl⟩ := exhaust_succ.1 h
    rw [List.mem_append, mem_appendMap hrest]
    constructor
    · rintro (ht | ⟨u, hu, us, hus, ht⟩)
      · obtain ⟨ht, hdone⟩ := List.mem_filter.1 ht
        exact .last ht hdone
      · obtain ⟨hu, hleft⟩ := List.mem_filter.1 hu
        obtain ⟨vs, hvs, rfl⟩ := Option.map_eq_some_iff.1 hus
        obtain ⟨v, hv, rfl⟩ := List.mem_map.1 ht
        exact .more hu (by simpa using hleft) ((ih hvs).1 hv)
    · rintro (⟨ht, hdone⟩ | @⟨_, u, v, hu, hleft, hv⟩)
      · exact .inl (List.mem_filter.2 ⟨ht, hdone⟩)
      · have hmem : u ∈ (traces s).filter (!done ·.head) := List.mem_filter.2 ⟨hu, by simp [hleft]⟩
        obtain ⟨us, hus⟩ := exists_appendMap.1 ⟨rest, hrest⟩ u hmem
        obtain ⟨vs, hvs, -⟩ := Option.map_eq_some_iff.1 hus
        refine .inr ⟨u, hmem, vs.map u.extend, by rw [hvs]; rfl, ?_⟩
        exact List.mem_map_of_mem ((ih hvs).2 hv)

theorem Path.done_head (h : Path traces done s t) : done t.head = true := by
  induction h with
  | last _ hdone => exact hdone
  | more _ _ _ ih => exact ih

end Exhaust
