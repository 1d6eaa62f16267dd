import Mathlib.Data.List.Basic
import Mathlib.Data.List.Induction
import Mathlib.Tactic.Common
/-!
# Open addressing with probe chains

A table has slots that are free or hold a key with its value. A key has a chain
of slots, and is looked up along the whole of it. As long as every key is on its
chain and in one slot only, a lookup finds what the table holds; storing a key
keeps this when the slot that is picked is the one of the key, if it has one.
-/

namespace Dezyne.Probe

variable {K V : Type}

/-- The slots of a table. -/
abbrev Table (K V : Type) := List (Option (K × V))

/-- A slot that is free. -/
def free (t : Table K V) (j : Nat) : Bool := t[j]?.any Option.isNone

section
variable [DecidableEq K]

/-- The value in a slot, if it is one of this key. -/
def valueAt (t : Table K V) (k : K) (j : Nat) : Option V :=
  match t[j]? with
  | some (some (k', v)) => if k' = k then some v else none
  | _ => none

/-- The value of a key along its chain. -/
def find (t : Table K V) (chain : List Nat) (k : K) : Option V := chain.findSome? (valueAt t k)

/-- The first slot of the chain that is free or one of the key. -/
def pick (t : Table K V) (chain : List Nat) (k : K) : Option Nat :=
  chain.find? fun j => free t j || (valueAt t k j).isSome

end

/-- A slot holds a key with its value. -/
def Holds (t : Table K V) (j : Nat) (k : K) (v : V) : Prop := t[j]? = some (some (k, v))

/-- A key is on its chain, and in one slot. -/
structure Probed (chain : K → List Nat) (t : Table K V) : Prop where
  placed : ∀ {j k v}, Holds t j k v → j ∈ chain k
  unique : ∀ {j j' k v v'}, Holds t j k v → Holds t j' k v' → j = j'

/-- No slot of the chain before the one of the key is free. -/
def Reached (chain : List Nat) (t : Table K V) (k : K) : Prop :=
  ∀ j v, Holds t j k v → ∃ before after, chain = before ++ j :: after ∧ ∀ i ∈ before, free t i = false

/-! ## Slots -/

section
variable {t : Table K V} {j j' : Nat} {k : K} {v : V}

theorem free_iff : free t j = true ↔ t[j]? = some none := by
  unfold free
  cases h : t[j]? with
  | none => simp
  | some x => cases x <;> simp

theorem lt_of_holds (h : Holds t j k v) : j < t.length := (List.getElem?_eq_some_iff.1 h).1

theorem lt_of_free (h : free t j = true) : j < t.length := (List.getElem?_eq_some_iff.1 (free_iff.1 h)).1

theorem not_free_of_holds (h : Holds t j k v) : free t j = false := by
  unfold free Holds at *
  rw [h]
  rfl

theorem holds_set {x : Option (K × V)} (hj : j < t.length) :
    Holds (t.set j x) j' k v ↔ if j' = j then x = some (k, v) else Holds t j' k v := by
  unfold Holds
  by_cases h : j' = j
  · subst h
    rw [List.getElem?_set_self hj, if_pos rfl, Option.some_inj]
  · rw [List.getElem?_set_ne (Ne.symm h), if_neg h]

/-- Only the slot that is stored to may become used. -/
theorem free_set_some {x : K × V} (h : free (t.set j (some x)) j' = true) : free t j' = true := by
  rw [free_iff] at h ⊢
  by_cases hj : j' = j
  · subst hj
    have hlt : j' < t.length := by
      rw [← List.length_set]
      exact (List.getElem?_eq_some_iff.1 h).1
    rw [List.getElem?_set_self hlt] at h
    cases h
  · rwa [List.getElem?_set_ne (Ne.symm hj)] at h

end

/-! ## Lookup -/

section
variable [DecidableEq K] {chain : K → List Nat} {t : Table K V} {j : Nat} {k k' : K} {v v' : V}

theorem valueAt_eq_some : valueAt t k j = some v ↔ Holds t j k v := by
  unfold valueAt Holds
  split
  · rename_i k' v' h
    rw [h]
    by_cases hk : k' = k
    · subst hk
      simp
    · simp [hk]
  · rename_i h
    constructor
    · intro heq
      cases heq
    · intro heq
      exact absurd heq (h k v)

/-- A lookup finds what the table holds. -/
theorem Probed.find_iff (h : Probed chain t) : find t (chain k) k = some v ↔ ∃ j, Holds t j k v := by
  constructor
  · intro hfind
    obtain ⟨j, -, hj⟩ := List.exists_of_findSome?_eq_some hfind
    exact ⟨j, valueAt_eq_some.1 hj⟩
  · rintro ⟨j, hj⟩
    cases hfind : find t (chain k) k with
    | none =>
      have hnone := List.findSome?_eq_none_iff.1 hfind j (h.placed hj)
      rw [valueAt_eq_some.2 hj] at hnone
      cases hnone
    | some v' =>
      obtain ⟨j', -, hj'⟩ := List.exists_of_findSome?_eq_some hfind
      have hj'' := valueAt_eq_some.1 hj'
      obtain rfl := h.unique hj hj''
      rw [Holds, hj] at hj''
      cases hj''
      rfl

/-! ## Storing and removing -/

/-- The picked slot is on the chain, and free or the one of the key. -/
theorem pick_spec (h : pick t (chain k) k = some j) :
    j ∈ chain k ∧ j < t.length ∧ (free t j = true ∨ ∃ v, Holds t j k v) := by
  have hpos := List.find?_some h
  refine ⟨List.mem_of_find?_eq_some h, ?_⟩
  rw [Bool.or_eq_true] at hpos
  rcases hpos with hfree | hvalue
  · exact ⟨lt_of_free hfree, .inl hfree⟩
  · obtain ⟨v, hv⟩ := Option.isSome_iff_exists.1 hvalue
    have hj := valueAt_eq_some.1 hv
    exact ⟨lt_of_holds hj, .inr ⟨v, hj⟩⟩

/-- Before the picked slot there is no free one. -/
theorem pick_before (h : pick t (chain k) k = some j) :
    ∃ before after, chain k = before ++ j :: after ∧ ∀ i ∈ before, free t i = false := by
  obtain ⟨-, before, after, hchain, hbefore⟩ := List.find?_eq_some_iff_append.1 h
  refine ⟨before, after, hchain, fun i hi => ?_⟩
  have hnot := hbefore i hi
  rw [Bool.not_eq_true', Bool.or_eq_false_iff] at hnot
  exact hnot.1

/-- When no slot before that of the key is free, that one is picked. -/
theorem Probed.pick_eq (h : Probed chain t) (hr : Reached (chain k) t k) (hpick : pick t (chain k) k = some j)
    {i : Nat} (hi : Holds t i k v) : i = j := by
  obtain ⟨-, -, hj⟩ := pick_spec hpick
  rcases hj with hfree | ⟨v', hj⟩
  · obtain ⟨before, after, hchain, hbefore⟩ := hr i v hi
    have hmem : ∀ c ∈ before, (free t c || (valueAt t k c).isSome) = true → c = i := by
      intro c hc hcond
      rw [hbefore c hc, Bool.false_or] at hcond
      obtain ⟨w, hw⟩ := Option.isSome_iff_exists.1 hcond
      exact h.unique (valueAt_eq_some.1 hw) hi
    unfold pick at hpick
    rw [hchain, List.find?_append] at hpick
    cases hfind : before.find? (fun c => free t c || (valueAt t k c).isSome) with
    | some c =>
      rw [hfind] at hpick
      cases hpick
      have hcond := List.find?_some hfind
      exact (hmem j (List.mem_of_find?_eq_some hfind) hcond).symm
    | none =>
      rw [hfind, List.find?_cons_of_pos (by rw [valueAt_eq_some.2 hi, Option.isSome_some, Bool.or_true])] at hpick
      cases hpick
      rfl
  · exact h.unique hi hj

/-- What is stored, with the others, is what the table holds. -/
theorem Probed.store (h : Probed chain t) (hr : Reached (chain k) t k) (hpick : pick t (chain k) k = some j)
    (v : V) : Probed chain (t.set j (some (k, v))) ∧
    ∀ k' v', (∃ i, Holds (t.set j (some (k, v))) i k' v') ↔ if k' = k then v' = v else ∃ i, Holds t i k' v' := by
  obtain ⟨hmem, hlt, hslot⟩ := pick_spec hpick
  -- a key is only in the slot that is stored to if it is this key
  have hsame : ∀ {k' v'}, Holds t j k' v' → k' = k := by
    intro k' v' hj
    rcases hslot with hfree | ⟨w, hw⟩
    · rw [not_free_of_holds hj] at hfree
      cases hfree
    · rw [Holds, hj] at hw
      cases hw
      rfl
  have hother : ∀ {i k' v'}, i ≠ j → Holds t i k' v' → k' ≠ k := by
    rintro i k' v' hne hi rfl
    exact hne (h.pick_eq hr hpick hi)
  refine ⟨⟨?_, ?_⟩, ?_⟩
  · intro i k' v' hi
    rw [holds_set hlt] at hi
    split at hi
    · rename_i hij
      cases hi
      exact hij ▸ hmem
    · exact h.placed hi
  · intro i i' k' v₁ v₂ hi hi'
    rw [holds_set hlt] at hi hi'
    split at hi <;> split at hi'
    · rename_i hij hij'
      rw [hij, hij']
    · rename_i hne
      cases hi
      exact absurd rfl (hother hne hi')
    · rename_i hne _
      cases hi'
      exact absurd rfl (hother hne hi)
    · exact h.unique hi hi'
  · intro k' v'
    constructor
    · rintro ⟨i, hi⟩
      rw [holds_set hlt] at hi
      split at hi
      · cases hi
        rw [if_pos rfl]
      · rename_i hne
        rw [if_neg (hother hne hi)]
        exact ⟨i, hi⟩
    · intro hcond
      split at hcond
      · rename_i hk
        subst hk hcond
        exact ⟨j, (holds_set hlt).2 (by rw [if_pos rfl])⟩
      · rename_i hk
        obtain ⟨i, hi⟩ := hcond
        refine ⟨i, (holds_set hlt).2 ?_⟩
        rw [if_neg ?_]
        · exact hi
        · rintro rfl
          exact hk (hsame hi)

omit [DecidableEq K] in
/-- A slot is made free. -/
theorem Probed.erase (h : Probed chain t) (hj : Holds t j k v) :
    Probed chain (t.set j none) ∧
    ∀ k' v', (∃ i, Holds (t.set j none) i k' v') ↔ k' ≠ k ∧ ∃ i, Holds t i k' v' := by
  have hlt := lt_of_holds hj
  have hold : ∀ {i k' v'}, Holds (t.set j none) i k' v' ↔ i ≠ j ∧ Holds t i k' v' := by
    intro i k' v'
    rw [holds_set hlt]
    by_cases hi : i = j
    · simp [hi]
    · simp [hi]
  refine ⟨⟨fun hi => h.placed (hold.1 hi).2, fun hi hi' => h.unique (hold.1 hi).2 (hold.1 hi').2⟩, ?_⟩
  intro k' v'
  constructor
  · rintro ⟨i, hi⟩
    obtain ⟨hne, hi⟩ := hold.1 hi
    refine ⟨?_, i, hi⟩
    rintro rfl
    exact hne (h.unique hi hj)
  · rintro ⟨hk, i, hi⟩
    refine ⟨i, hold.2 ⟨?_, hi⟩⟩
    rintro rfl
    rw [Holds, hj] at hi
    cases hi
    exact hk rfl

/-! ## Lookups in any table -/

theorem valueAt_set (hj : j < t.length) (v : V) (i : Nat) :
    valueAt (t.set j (some (k, v))) k' i = if i = j then if k = k' then some v else none else valueAt t k' i := by
  unfold valueAt
  by_cases h : i = j
  · simp [h, hj]
  · simp [h, List.getElem?_set_ne (Ne.symm h)]

/-- Storing to the picked slot changes the lookup of that key only, also when other slots have the key. -/
theorem find_store (hpick : pick t (chain k) k = some j) (v : V) (k' : K) :
    find (t.set j (some (k, v))) (chain k') k' = if k' = k then some v else find t (chain k') k' := by
  obtain ⟨-, hlt, hslot⟩ := pick_spec hpick
  unfold find
  split
  · rename_i hk
    subst hk
    obtain ⟨hcond, before, after, hchain, hbefore⟩ := List.find?_eq_some_iff_append.1 hpick
    have hnone : before.findSome? (valueAt (t.set j (some (k', v))) k') = none := by
      refine List.findSome?_eq_none_iff.2 fun i hi => ?_
      have hnot := hbefore i hi
      have hne : i ≠ j := by
        rintro rfl
        rw [hcond] at hnot
        cases hnot
      rw [Bool.not_eq_true', Bool.or_eq_false_iff] at hnot
      rw [valueAt_set hlt, if_neg hne]
      simpa using hnot.2
    simp [hchain, List.findSome?_append, hnone, valueAt_set hlt]
  · rename_i hk
    have hat : valueAt t k' j = none := by
      by_contra hsome
      obtain ⟨w, hw⟩ := Option.ne_none_iff_exists'.1 hsome
      have hholds := valueAt_eq_some.1 hw
      rcases hslot with hfree | ⟨w', hw'⟩
      · rw [not_free_of_holds hholds] at hfree
        cases hfree
      · rw [Holds, hholds] at hw'
        cases hw'
        exact hk rfl
    congr 1
    funext i
    rw [valueAt_set hlt]
    split
    · rename_i hi
      rw [if_neg (Ne.symm hk), hi, hat]
    · rfl

/-! ## Tables without removals -/

/-- Storing leaves no free slot before that of a key, if there was none. -/
theorem Reached.store (hr : ∀ k, Reached (chain k) t k) (hpick : pick t (chain k) k = some j) (v : V) :
    ∀ k', Reached (chain k') (t.set j (some (k, v))) k' := by
  intro k' i v' hi
  have hkeep : ∀ c, free t c = false → free (t.set j (some (k, v))) c = false := by
    intro c hc
    by_contra hfree
    rw [Bool.not_eq_false] at hfree
    rw [free_set_some hfree] at hc
    cases hc
  rw [holds_set (pick_spec hpick).2.1] at hi
  split at hi
  · rename_i hij
    cases hi
    obtain ⟨before, after, hchain, hbefore⟩ := pick_before hpick
    exact ⟨before, after, hij ▸ hchain, fun c hc => hkeep c (hbefore c hc)⟩
  · obtain ⟨before, after, hchain, hbefore⟩ := hr k' i v' hi
    exact ⟨before, after, hchain, fun c hc => hkeep c (hbefore c hc)⟩

end

/-- What the slots that are used hold, in their order. -/
def entries (t : Table K V) : List (K × V) := t.filterMap id

section
variable {chain : K → List Nat} {t : Table K V} {k : K} {v : V}

theorem length_entries (t : Table K V) : (entries t).length = t.countP Option.isSome :=
  List.length_filterMap_eq_countP

theorem mem_entries : (k, v) ∈ entries t ↔ ∃ j, Holds t j k v := by
  unfold entries Holds
  rw [List.mem_filterMap]
  constructor
  · rintro ⟨x, hx, rfl⟩
    exact List.mem_iff_getElem?.1 hx
  · rintro ⟨j, hj⟩
    exact ⟨some (k, v), List.mem_of_getElem? hj, rfl⟩

theorem Probed.nodup_entries (h : Probed chain t) : ((entries t).map Prod.fst).Nodup := by
  unfold entries
  rw [List.Nodup, List.pairwise_map, List.pairwise_filterMap, List.pairwise_iff_getElem]
  rintro i j hi hj hij ⟨k, v⟩ hik ⟨k', v'⟩ hjk rfl
  have hholds : ∀ {i : Nat} {v : V} (hi : i < t.length), t[i] = some (k, v) → Holds t i k v := by
    intro i v hi heq
    rw [Holds, List.getElem?_eq_getElem hi, heq]
  have := h.unique (hholds hi hik) (hholds hj hjk)
  omega

theorem entries_take_some {i : Nat} (h : Holds t i k v) :
    entries (t.take (i + 1)) = entries (t.take i) ++ [(k, v)] := by
  unfold entries
  rw [List.take_add_one, h, List.filterMap_append]
  rfl

theorem entries_take_none {i : Nat} (h : t[i]? = some none) : entries (t.take (i + 1)) = entries (t.take i) := by
  unfold entries
  rw [List.take_add_one, h, List.filterMap_append]
  exact List.append_nil _

section
variable [DecidableEq K]

/-- The value that the last entry of a key has. -/
def latest (l : List (K × V)) (k : K) : Option V :=
  l.foldl (fun o e => if e.1 = k then some e.2 else o) none

@[simp] theorem latest_nil (k : K) : latest ([] : List (K × V)) k = none := rfl

theorem latest_append (l : List (K × V)) (k' : K) :
    latest (l ++ [(k, v)]) k' = if k' = k then some v else latest l k' := by
  unfold latest
  rw [List.foldl_append]
  simp [eq_comm]

/-- The last entry of a key is in a slot after which there is no other. -/
theorem latest_entries (h : latest (entries t) k = some v) :
    ∃ j, Holds t j k v ∧ ∀ j' v', j < j' → ¬ Holds t j' k v' := by
  induction t using List.reverseRecOn with
  | nil => cases h
  | append_singleton t x ih =>
    have hlast : ∀ {j' v'}, Holds (t ++ [x]) j' k v' → Holds t j' k v' ∨ j' = t.length ∧ x = some (k, v') := by
      intro j' v' hj'
      have hlt := lt_of_holds hj'
      rw [List.length_append, List.length_singleton] at hlt
      rw [Holds, List.getElem?_append] at hj'
      split at hj'
      · exact .inl hj'
      · obtain rfl : j' = t.length := by omega
        exact .inr ⟨rfl, by simpa using hj'⟩
    have hbefore : latest (entries t) k = some v → (∀ w, x ≠ some (k, w)) →
        ∃ j, Holds (t ++ [x]) j k v ∧ ∀ j' v', j < j' → ¬ Holds (t ++ [x]) j' k v' := by
      intro hin hne
      obtain ⟨j, hj, hlater⟩ := ih hin
      refine ⟨j, ?_, fun j' v' hjj' hj' => ?_⟩
      · rw [Holds, List.getElem?_append_left (lt_of_holds hj)]
        exact hj
      · rcases hlast hj' with hj'' | ⟨-, hx⟩
        · exact hlater j' v' hjj' hj''
        · exact hne v' hx
    unfold entries at h hbefore
    rw [List.filterMap_append] at h
    cases x with
    | none => exact hbefore (by simpa using h) (by simp)
    | some e =>
      obtain ⟨k', v'⟩ := e
      have hsingle : List.filterMap id [some (k', v')] = [(k', v')] := rfl
      rw [hsingle, latest_append] at h
      split at h
      · rename_i hk
        subst hk
        cases h
        refine ⟨t.length, by simp [Holds], fun j' v' hj hj' => ?_⟩
        have hlt := lt_of_holds hj'
        rw [List.length_append, List.length_singleton] at hlt
        omega
      · rename_i hk
        refine hbefore h fun w hw => ?_
        cases hw
        exact hk rfl

theorem latest_none {l : List (K × V)} : latest l k = none ↔ ∀ v, (k, v) ∉ l := by
  induction l using List.reverseRecOn with
  | nil => simp
  | append_singleton l e ih =>
    obtain ⟨k', v'⟩ := e
    rw [latest_append]
    by_cases hk : k = k'
    · subst hk
      simp only [if_true, reduceCtorEq, false_iff, not_forall, not_not]
      exact ⟨v', List.mem_append_right l List.mem_cons_self⟩
    · simp [hk, ih]

end

/-- A table whose slots are all free. -/
theorem not_holds_replicate {n j : Nat} : ¬ Holds (List.replicate n (none : Option (K × V))) j k v := by
  intro h
  have hmem := List.eq_of_mem_replicate (List.mem_of_getElem? h)
  cases hmem

theorem probed_replicate (n : Nat) : Probed chain (List.replicate n (none : Option (K × V))) :=
  ⟨fun h => absurd h not_holds_replicate, fun h => absurd h not_holds_replicate⟩

end

end Dezyne.Probe
