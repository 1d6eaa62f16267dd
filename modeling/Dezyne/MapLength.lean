import Dezyne.MapMemory
import Mathlib.Data.Set.Card
/-!
# The length of a map and its iteration

`size` goes up with every element that is stored, also when its key was there
already, and is returned as a `uint8_t`. The iteration is over the slots, with a
`uint16_t`, and not at all when the length is zero.
-/

namespace Dezyne

open Probe

variable {Value : Type}

/-- `dzn_map_length` -/
def dznMapLength (self : DznMap Value) : Nat := self.size % 256

/-! ## Iteration -/

section
variable {Item : Type}

/-- The loop of `dzn_map_iterate`: its index until the loop is left, the item as the function leaves it, and the
response once it is set. -/
structure IterateState (Item : Type) where
  index : Option Nat
  item : Item
  response : Option Int

/-- `dzn_map_iterate` goes on from a slot. -/
def IterateState.next (self : DznMap Value) (i : Nat) (item : Item) (response : Option Int) : IterateState Item :=
  ⟨some ((i + 1) % 65536), item, if i = self.data.length - 1 then some 0 else response⟩

/-- An iteration of the loop of `dzn_map_iterate`; 0 is `DZN_MAP_OK`. -/
def iterateStep (self : DznMap Value) (f : MapKey × Value → Item → Int × Item) (s : IterateState Item) :
    Option (IterateState Item) :=
  match s.index with
  | none => none
  | some i =>
    if i < self.data.length then
      match self.data[i]?.join with
      | some element =>
        let (status, item) := f element s.item
        if status = 0 then some (.next self i item s.response) else some ⟨none, item, some status⟩
      | none => some (.next self i s.item s.response)
    else none

/-- `dzn_map_iterate`; -3 is `DZN_MAP_MISSING`. The result is the response and the item. -/
def dznMapIterate (fuel : Nat) (self : DznMap Value) (f : MapKey × Value → Item → Int × Item) (item : Item) :
    Option (Option Int × Item) :=
  if dznMapLength self ≤ 0 then some (some (-3), item)
  else (Loop.run (iterateStep self f) fuel ⟨some 0, item, none⟩).map fun s => (s.response, s.item)

end

/-- The iteration ends, and calls a function that always returns `DZN_MAP_OK` with these elements. -/
def IterateVisits (self : DznMap Value) (visits : List (MapKey × Value)) : Prop :=
  ∀ {Item : Type} (f : MapKey × Value → Item → Int × Item) (item : Item),
    (∀ element item, (f element item).1 = 0) → ∃ fuel response, dznMapIterate fuel self f item =
      some (response, visits.foldl (fun item element => (f element item).2) item)

/-- Each key that is found is visited once, and no other. -/
def IteratesOnce (self : DznMap Value) : Prop :=
  ∃ visits, IterateVisits self visits ∧
    ∀ key, (visits.map Prod.fst).count key = if (dznMapGet self key).isSome then 1 else 0

/-- The keys that are found. -/
def foundKeys (self : DznMap Value) : Set MapKey := {key | (dznMapGet self key).isSome}

/-! ## Runs that store no key twice -/

/-- A put stores only a key that is not found, and a rehash begins only with a table that its index can count. -/
def StoresOnce (calloc : Nat → Bool) (s : PutState Value) : Prop :=
  match s.point with
  | .put key _ => if (dznMapHash s.map key).isSome then s.frames = [] → dznMapGet s.map key = none
    else calloc s.calls = true → s.map.data.length < 65536
  | _ => True

/-- A run of puts and removes; the allocations of each put give memory or do not. -/
inductive StoresOnceRun : DznMap Value → Prop
  | init : StoresOnceRun dznMapInit
  | put {self self' key value calloc response} : StoresOnceRun self →
    (∀ s, PutReaches calloc (putStart self key value) s → StoresOnce calloc s) →
    PutReturns calloc self key value response self' → StoresOnceRun self'
  | remove {self} (key : MapKey) : StoresOnceRun self → StoresOnceRun (dznMapRemove self key)

/-- Every key is in one slot, and `size` is the number of used slots. -/
structure Counted (m : DznMap Value) : Prop where
  probed : Probed (keyChain m.data.length) m.data
  count : m.size = m.data.countP Option.isSome

section
variable {m : DznMap Value} {key : MapKey} {value : Value} {index : Nat}

theorem counted_freshMap (n : Nat) : Counted (freshMap n : DznMap Value) where
  probed := probed_replicate _
  count := by simp [freshMap, List.countP_replicate]

theorem Counted.get_isSome (h : Counted m) : (dznMapGet m key).isSome ↔ ∃ j value, Holds m.data j key value := by
  rw [Option.isSome_iff_exists, exists_comm]
  exact exists_congr fun value => h.probed.find_iff

theorem Counted.get_eq_none (h : Counted m) : dznMapGet m key = none ↔ ∀ j value, ¬ Holds m.data j key value := by
  rw [← Option.not_isSome_iff_eq_none, h.get_isSome]
  simp

/-- A key that is not in the map is stored in a slot that was free. -/
theorem Counted.store (h : Counted m) (hindex : dznMapHash m key = some index)
    (hmissing : ∀ j value, ¬ Holds m.data j key value) (value : Value) : Counted (m.store index key value) := by
  obtain ⟨-, hpick⟩ := dznMapHash_eq_some hindex
  obtain ⟨-, hlt, hslot⟩ := pick_spec hpick
  have hlen : (m.store index key value).data.length = m.data.length := List.length_set
  have hfree : m.data[index] = none := by
    rcases hslot with hfree | ⟨v, hv⟩
    · rw [free_iff, List.getElem?_eq_getElem hlt] at hfree
      exact Option.some.inj hfree
    · exact absurd hv (hmissing index v)
  refine ⟨?_, ?_⟩
  · rw [hlen]
    exact (h.probed.store (fun j v hj => absurd hj (hmissing j v)) hpick value).1
  · simp [DznMap.store, List.countP_set hlt, hfree, h.count]

theorem Counted.remove (h : Counted m) (key : MapKey) : Counted (dznMapRemove m key) := by
  unfold dznMapRemove
  cases hfind : (keyChain m.data.length key).find? fun curr => (valueAt m.data key curr).isSome with
  | none => exact h
  | some curr =>
    have hsome := List.find?_some hfind
    obtain ⟨w, hw⟩ := Option.isSome_iff_exists.1 hsome
    have hcurr := valueAt_eq_some.1 hw
    have hlt := lt_of_holds hcurr
    have hused : m.data[curr] = some (key, w) := by
      rw [Holds, List.getElem?_eq_getElem hlt] at hcurr
      exact Option.some.inj hcurr
    refine ⟨?_, ?_⟩
    · rw [List.length_set]
      exact (h.probed.erase hcurr).1
    · simp [List.countP_set hlt, hused, h.count]

/-! ## A rehash stores no key twice -/

/-- The keys of a table are among those of a list. -/
def KeysAmong (t : Table MapKey Value) (l : List (MapKey × Value)) : Prop :=
  ∀ j key value, Holds t j key value → key ∈ l.map Prod.fst

/-- A rehash that puts its next element has put only those before, and so has each that waits. -/
inductive Moving : Table MapKey Value → MapKey → List (RehashFrame Value) → Prop
  | first {t key} : Moving t key []
  | element {t key value f frames} : Probed (keyChain f.curr.length) f.curr → f.curr.length < 65536 →
    Holds f.curr f.i key value → KeysAmong t (entries (f.curr.take f.i)) → Moving f.curr f.key frames →
    Moving t key (f :: frames)

/-- The invariant. -/
structure PutCounted (s : PutState Value) : Prop where
  counted : Counted s.map
  moving : match s.point with
    | .put key _ => Moving s.map.data key s.frames
    | .rehash f => Probed (keyChain f.curr.length) f.curr ∧ f.curr.length < 65536 ∧
      KeysAmong s.map.data (entries (f.curr.take f.i)) ∧ Moving f.curr f.key s.frames
    | .done _ => True

/-- The element that a rehash is at is not in the new table yet. -/
theorem missing_of_among {f : RehashFrame Value} {t : Table MapKey Value}
    (hprobed : Probed (keyChain f.curr.length) f.curr) (hholds : Holds f.curr f.i key value)
    (hamong : KeysAmong t (entries (f.curr.take f.i))) (j : Nat) (v : Value) : ¬ Holds t j key v := by
  intro hj
  obtain ⟨⟨k, w⟩, hmem, rfl⟩ := List.mem_map.1 (hamong j key v hj)
  obtain ⟨j', hj'⟩ := mem_entries.1 hmem
  have hlt := lt_of_holds hj'
  rw [List.length_take] at hlt
  rw [Holds, List.getElem?_take_of_lt (by omega)] at hj'
  have := hprobed.unique hj' hholds
  omega

theorem KeysAmong.store {l : List (MapKey × Value)} (h : KeysAmong m.data l) (hindex : dznMapHash m key = some index)
    (value : Value) : KeysAmong (m.store index key value).data (l ++ [(key, value)]) := by
  intro j k v hj
  rw [DznMap.store, holds_set (pick_spec (dznMapHash_eq_some hindex).2).2.1] at hj
  split at hj
  · cases hj
    simp
  · have := h j k v hj
    simp only [List.map_append, List.mem_append]
    exact .inl this

/-- When all of its elements are moved, the new table can take the place of the old one. -/
theorem Moving.moved {t t' : Table MapKey Value} {frames : List (RehashFrame Value)} (h : Moving t key frames)
    (hmoved : KeysAmong t' (entries t)) : Moving t' key frames := by
  cases h with
  | first => exact .first
  | element hprobed hsmall hholds hamong hmoving =>
    refine .element hprobed hsmall hholds (fun j k v hj => ?_) hmoving
    obtain ⟨⟨k', w⟩, hmem, rfl⟩ := List.mem_map.1 (hmoved j k v hj)
    obtain ⟨j', hj'⟩ := mem_entries.1 hmem
    exact hamong j' k' w hj'

/-- A step keeps the invariant. -/
theorem PutCounted.step {calloc : Nat → Bool} {s s' : PutState Value} (hs : PutCounted s)
    (hmeets : StoresOnce calloc s) (h : putStep calloc s = some s') : PutCounted s' := by
  obtain ⟨map, frames, point, calls⟩ := s
  obtain ⟨hcounted, hmoving⟩ := hs
  cases point with
  | put key value =>
    simp only [StoresOnce] at hmeets
    cases hhash : dznMapHash map key with
    | some index =>
      rw [hhash, Option.isSome_some, if_pos rfl] at hmeets
      rw [putStep_index hhash] at h
      obtain rfl := Option.some.inj h
      cases hmoving with
      | first => exact ⟨hcounted.store hhash (hcounted.get_eq_none.1 (hmeets rfl)) value, trivial⟩
      | @element _ _ value' f frames hprobed hsmall hholds hamong hmoving =>
        refine ⟨hcounted.store hhash (missing_of_among hprobed hholds hamong) value, hprobed, hsmall, ?_, hmoving⟩
        rw [RehashFrame.next_i (lt_of_holds hholds) hsmall, RehashFrame.next, entries_take_some hholds]
        intro j k v hj
        have := hamong.store hhash value j k v hj
        simpa using this
    | none =>
      rw [hhash, Option.isSome_none] at hmeets
      by_cases hcalloc : calloc calls = true
      · simp only [putStep, hhash, hcalloc, if_true, Option.some.injEq] at h
        subst h
        exact ⟨counted_freshMap _, hcounted.probed, hmeets hcalloc,
          fun j k v hj => absurd hj not_holds_replicate, hmoving⟩
      · simp only [putStep, hhash, hcalloc] at h
        obtain rfl := Option.some.inj h
        exact ⟨hcounted, trivial⟩
  | rehash f =>
    obtain ⟨hprobed, hsmall, hamong, hwaiting⟩ := hmoving
    by_cases hi : f.i < f.curr.length
    · cases hslot : f.curr[f.i] with
      | some e =>
        obtain ⟨key, value⟩ := e
        have hholds : Holds f.curr f.i key value := by rw [Holds, List.getElem?_eq_getElem hi, hslot]
        rw [putStep_element hholds] at h
        obtain rfl := Option.some.inj h
        exact ⟨hcounted, .element hprobed hsmall hholds hamong hwaiting⟩
      | none =>
        have hfree : f.curr[f.i]? = some none := by rw [List.getElem?_eq_getElem hi, hslot]
        rw [putStep_free hfree] at h
        obtain rfl := Option.some.inj h
        refine ⟨hcounted, hprobed, hsmall, ?_, hwaiting⟩
        rw [RehashFrame.next_i hi hsmall, RehashFrame.next, entries_take_none hfree]
        exact hamong
    · rw [putStep_end hi] at h
      obtain rfl := Option.some.inj h
      rw [List.take_of_length_le (by omega)] at hamong
      exact ⟨hcounted, hwaiting.moved hamong⟩
  | done response => cases h

/-- In every run that stores no key twice, each key is in one slot and counted once. -/
theorem StoresOnceRun.counted (h : StoresOnceRun m) : Counted m := by
  induction h with
  | init => exact counted_freshMap 256
  | @put self self' key value calloc response _ honce hput ih =>
    obtain ⟨fuel, s, hrun, -, rfl⟩ := hput
    have hstart : PutCounted (putStart self key value) := ⟨ih, .first⟩
    have hstep : ∀ s s', PutCounted s ∧ PutReaches calloc (putStart self key value) s →
        putStep calloc s = some s' → PutCounted s' ∧ PutReaches calloc (putStart self key value) s' := by
      rintro s s' ⟨hs, hreach⟩ hs'
      exact ⟨hs.step (honce s hreach) hs', hreach.tail hs'⟩
    exact (Loop.run_inv (fun s => PutCounted s ∧ PutReaches calloc (putStart self key value) s) hstep hrun
      ⟨hstart, .refl⟩).1.counted
  | remove key _ ih => exact ih.remove key

/-! ## The length -/

theorem Counted.mem_keys (h : Counted m) : key ∈ (entries m.data).map Prod.fst ↔ (dznMapGet m key).isSome := by
  rw [h.get_isSome, List.mem_map]
  constructor
  · rintro ⟨⟨k, v⟩, hmem, rfl⟩
    obtain ⟨j, hj⟩ := mem_entries.1 hmem
    exact ⟨j, v, hj⟩
  · rintro ⟨j, v, hj⟩
    exact ⟨(key, v), mem_entries.2 ⟨j, hj⟩, rfl⟩

/-- `size` is the number of keys that are found. -/
theorem Counted.size_eq (h : Counted m) : m.size = (foundKeys m).ncard := by
  have hset : foundKeys m = ↑((entries m.data).map Prod.fst).toFinset := by
    ext key
    simp only [List.coe_toFinset, Set.mem_setOf_eq]
    exact h.mem_keys.symm
  rw [hset, Set.ncard_coe_finset, List.toFinset_card_of_nodup h.probed.nodup_entries, List.length_map,
    length_entries, h.count]

/-- Each key that is found is in the elements once. -/
theorem Counted.count_keys (h : Counted m) (key : MapKey) :
    ((entries m.data).map Prod.fst).count key = if (dznMapGet m key).isSome then 1 else 0 := by
  rw [h.probed.nodup_entries.count]
  simp only [h.mem_keys]

/-! ## The iteration -/

section
variable {Item : Type} {f : MapKey × Value → Item → Int × Item}

/-- The loop goes on with every slot. -/
theorem iterateStep_slot (hf : ∀ element item, (f element item).1 = 0) {i : Nat} (hi : i < m.data.length)
    (item : Item) (response : Option Int) : iterateStep m f ⟨some i, item, response⟩ =
      some (.next m i ((entries [m.data[i]]).foldl (fun item element => (f element item).2) item) response) := by
  cases hslot : m.data[i] with
  | none => simp [iterateStep, hi, hslot, entries]
  | some element => simp [iterateStep, hi, hslot, entries, hf]

/-- From a slot on the loop visits all elements. -/
theorem iterate_from (hf : ∀ element item, (f element item).1 = 0) (hsmall : m.data.length < 65536) {n i : Nat}
    (hn : i + n = m.data.length) (item : Item) (response : Option Int) :
    ∃ index response', Loop.run (iterateStep m f) (n + 1) ⟨some i, item, response⟩ =
      some ⟨index, (entries (m.data.drop i)).foldl (fun item element => (f element item).2) item, response'⟩ := by
  induction n generalizing i item response with
  | zero =>
    have hend : iterateStep m f ⟨some i, item, response⟩ = none := by
      simp [iterateStep, show ¬ i < m.data.length by omega]
    rw [Loop.run_done hend, List.drop_of_length_le (by omega)]
    exact ⟨some i, response, rfl⟩
  | succ n ih =>
    have hi : i < m.data.length := by omega
    rw [Loop.run_step (iterateStep_slot hf hi item response), IterateState.next, Nat.mod_eq_of_lt (by omega)]
    have hdrop : entries (m.data.drop i) = entries [m.data[i]] ++ entries (m.data.drop (i + 1)) := by
      unfold entries
      rw [← List.filterMap_append, List.drop_eq_getElem_cons hi]
      rfl
    rw [hdrop, List.foldl_append]
    exact ih (by omega) _ _

/-- A `uint16_t` does not reach the end of a larger table. -/
theorem iterate_endless (hf : ∀ element item, (f element item).1 = 0) (hlarge : 65536 ≤ m.data.length)
    (fuel : Nat) : ∀ i item response, i < 65536 → Loop.run (iterateStep m f) fuel ⟨some i, item, response⟩ = none := by
  induction fuel with
  | zero => intro i item response _; rfl
  | succ fuel ih =>
    intro i item response hi
    rw [Loop.run_step (iterateStep_slot hf (by omega) item response)]
    exact ih _ _ _ (Nat.mod_lt _ (by omega))

end

/-- The iteration visits the elements. -/
theorem iterateVisits_entries (hlength : dznMapLength m ≠ 0) (hsmall : m.data.length < 65536) :
    IterateVisits m (entries m.data) := by
  intro Item f item hf
  obtain ⟨index, response, hrun⟩ := iterate_from hf hsmall (Nat.zero_add _) item none
  refine ⟨m.data.length + 1, response, ?_⟩
  rw [dznMapIterate, if_neg (by omega), hrun]
  rfl

/-- With length zero nothing is visited. -/
theorem iterateVisits_nil (hlength : dznMapLength m = 0) : IterateVisits m [] := by
  intro Item f item hf
  exact ⟨0, some (-3), by rw [dznMapIterate, if_pos (by omega)]; rfl⟩

theorem not_iterateVisits (hlength : dznMapLength m ≠ 0) (hlarge : 65536 ≤ m.data.length)
    (visits : List (MapKey × Value)) : ¬ IterateVisits m visits := by
  intro h
  obtain ⟨fuel, response, hrun⟩ := h (fun _ _ => (0, ())) () (fun _ _ => rfl)
  rw [dznMapIterate, if_neg (by omega), iterate_endless (fun _ _ => rfl) hlarge fuel 0 _ _ (by omega)] at hrun
  cases hrun

/-! ## Both, over every run -/

/-- In every run that stores no key twice, the length is the number of keys that are found, and the iteration visits
each of them once, if and only if there are fewer than 256 and the table has fewer than 65536 slots, or is empty. -/
theorem dznMapLength_iterate_iff (self : DznMap Value) (h : StoresOnceRun self) :
    dznMapLength self = (foundKeys self).ncard ∧ IteratesOnce self ↔
      (foundKeys self).ncard < 256 ∧ (self.data.length < 65536 ∨ foundKeys self = ∅) := by
  have hcounted := h.counted
  have hsize := hcounted.size_eq
  have hlen : dznMapLength self = (foundKeys self).ncard % 256 := by rw [dznMapLength, hsize]
  have hfinite : (foundKeys self).Finite := by
    refine (List.finite_toSet ((entries self.data).map Prod.fst)).subset fun key hkey => ?_
    exact hcounted.mem_keys.2 hkey
  constructor
  · rintro ⟨hlength, visits, hvisits, -⟩
    have hlt : (foundKeys self).ncard < 256 := by omega
    refine ⟨hlt, ?_⟩
    by_contra hnot
    rw [not_or, Nat.not_lt] at hnot
    have hpos := (Set.ncard_pos hfinite).2 (Set.nonempty_iff_ne_empty.2 hnot.2)
    exact not_iterateVisits (by omega) hnot.1 visits hvisits
  · rintro ⟨hlt, htable⟩
    refine ⟨by omega, ?_⟩
    by_cases hempty : foundKeys self = ∅
    · have hzero : dznMapLength self = 0 := by rw [hlen, hempty, Set.ncard_empty]
      refine ⟨[], iterateVisits_nil hzero, fun key => ?_⟩
      have hnot : key ∉ foundKeys self := by
        rw [hempty]
        exact Set.notMem_empty key
      exact (if_neg hnot).symm
    · have hsmall := htable.resolve_right hempty
      have hpos := (Set.ncard_pos hfinite).2 (Set.nonempty_iff_ne_empty.2 hempty)
      exact ⟨entries self.data, iterateVisits_entries (by omega) hsmall, hcounted.count_keys⟩

end

theorem dznMapLength_iterate_one : ∃ self : DznMap Nat, StoresOnceRun self ∧
    (dznMapLength self = (foundKeys self).ncard ∧ IteratesOnce self ↔
      (foundKeys self).ncard < 256 ∧ (self.data.length < 65536 ∨ foundKeys self = ∅)) := by
  obtain ⟨index, hindex⟩ : ∃ index, dznMapHash (dznMapInit : DznMap Nat) keyK = some index :=
    Option.isSome_iff_exists.1 (by decide +kernel)
  have hfirst : putStep (fun _ => true) ⟨dznMapInit, [], .put keyK 1, 0⟩ = _ := putStep_index hindex
  have hrun : StoresOnceRun (dznMapInit.store index keyK 1) := by
    refine .put .init (fun s hs => ?_) ⟨2, _, by rw [putStart, Loop.run_step hfirst]; rfl, rfl, rfl⟩
    rcases Relation.ReflTransGen.cases_head hs with rfl | ⟨s', hstep, hs⟩
    · simp only [StoresOnce, putStart, hindex, Option.isSome_some, if_true]
      exact fun _ => congrFun (lookup_replicate 256) keyK
    · rw [putStart, hfirst] at hstep
      cases hstep
      rcases Relation.ReflTransGen.cases_head hs with rfl | ⟨s', hstep, -⟩
      · exact trivial
      · cases hstep
  exact ⟨_, hrun, dznMapLength_iterate_iff _ hrun⟩

/-- A key that is put twice is counted twice. -/
theorem dznMapLength_overwritten : ∃ self : DznMap Nat, MapReachable self ∧
    dznMapLength self = 2 ∧ (foundKeys self).ncard = 1 := by
  obtain ⟨index, hindex⟩ : ∃ index, dznMapHash (dznMapInit : DznMap Nat) keyK = some index :=
    Option.isSome_iff_exists.1 (by decide +kernel)
  obtain ⟨index', hindex'⟩ : ∃ index', dznMapHash (dznMapInit.store index keyK 1) keyK = some index' := by
    have hboth : ((dznMapHash (dznMapInit : DznMap Nat) keyK).bind fun index =>
        dznMapHash (dznMapInit.store index keyK 1) keyK).isSome := by decide +kernel
    rw [hindex] at hboth
    exact Option.isSome_iff_exists.1 hboth
  refine ⟨_, (MapReachable.init.store hindex 1).store hindex' 2, rfl, ?_⟩
  have hinit : lookup (dznMapInit : DznMap Nat).data = fun _ => none := lookup_replicate 256
  have hfound : foundKeys ((dznMapInit.store index keyK 1).store index' keyK 2) = {keyK} := by
    ext key
    rw [foundKeys, Set.mem_setOf_eq, dznMapGet_eq_lookup, lookup_store hindex', lookup_store hindex, hinit]
    by_cases hkey : key = keyK <;> simp [hkey]
  rw [hfound, Set.ncard_singleton]

end Dezyne
