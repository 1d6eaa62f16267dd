import Dezyne.Lib.Loop
import Dezyne.Map
/-!
# A put that runs out of memory

A put that finds no slot calls for a rehash, and a rehash puts: while it moves
the elements the map has the new table, and so have the puts that it calls. Here
the calls that wait are explicit, and any allocation may fail. We prove what a
put keeps when none fails inside a rehash.
-/

namespace Dezyne

open Probe

variable {Value : Type}

/-! ## Calls that wait -/

/-- `DZN_MAP_OK` or `DZN_MAP_OMEM` -/
inductive PutResponse where
  | ok
  | omem
deriving DecidableEq

/-- A `dzn_map_rehash`: the old table and the index of its loop, with the key and value of the put that called it. -/
structure RehashFrame (Value : Type) where
  curr : Table MapKey Value
  i : Nat
  key : MapKey
  value : Value

/-- `i++` of a `uint16_t` -/
def RehashFrame.next (f : RehashFrame Value) : RehashFrame Value := { f with i := (f.i + 1) % 65536 }

/-- Where the innermost call is. -/
inductive PutPoint (Value : Type) where
  | put (key : MapKey) (value : Value)
  | rehash (frame : RehashFrame Value)
  | done (response : PutResponse)

/-- A put under way: the rehashes that wait for it, the innermost first, and the number of allocations so far. -/
structure PutState (Value : Type) where
  map : DznMap Value
  frames : List (RehashFrame Value)
  point : PutPoint Value
  calls : Nat

def putStart (self : DznMap Value) (key : MapKey) (value : Value) : PutState Value := ⟨self, [], .put key value, 0⟩

/-- A step of `dzn_map_put` and `dzn_map_rehash`; `calloc` says which allocations give memory. -/
def putStep (calloc : Nat → Bool) (s : PutState Value) : Option (PutState Value) :=
  match s.point with
  | .put key value =>
    match dznMapHash s.map key with
    | some index =>
      let map := s.map.store index key value
      match s.frames with
      | [] => some { s with map, point := .done .ok }
      | f :: frames => some { s with map, frames, point := .rehash f.next }
    | none =>
      if calloc s.calls then
        some ⟨freshMap (2 * s.map.data.length), s.frames, .rehash ⟨s.map.data, 0, key, value⟩, s.calls + 1⟩
      else
        -- each of the calls that wait returns the same
        some ⟨s.map, [], .done .omem, s.calls + 1⟩
  | .rehash f =>
    if f.i < f.curr.length then
      match f.curr[f.i]?.join with
      | some (key, value) => some { s with frames := f :: s.frames, point := .put key value }
      | none => some { s with point := .rehash f.next }
    else some { s with point := .put f.key f.value }
  | .done _ => none

/-- A put gets from one state to the other. -/
abbrev PutReaches (calloc : Nat → Bool) : PutState Value → PutState Value → Prop :=
  Relation.ReflTransGen fun s s' => putStep calloc s = some s'

/-- A put returns this, with this map. -/
def PutReturns (calloc : Nat → Bool) (self : DznMap Value) (key : MapKey) (value : Value) (response : PutResponse)
    (self' : DznMap Value) : Prop :=
  ∃ fuel s, Loop.run (putStep calloc) fuel (putStart self key value) = some s ∧ s.point = .done response ∧
    s.map = self'

/-- Any run of puts and removes; the allocations of each put give memory or do not. -/
inductive MapReachable : DznMap Value → Prop
  | init : MapReachable dznMapInit
  | put {self self' key value calloc response} : MapReachable self →
    PutReturns calloc self key value response self' → MapReachable self'
  | remove {self} (key : MapKey) : MapReachable self → MapReachable (dznMapRemove self key)

/-! ## With memory for all allocations -/

section
variable {m m' : DznMap Value} {key : MapKey} {value : Value} {frames : List (RehashFrame Value)}
  {f : RehashFrame Value} {c : Nat}

theorem RehashFrame.next_i (hi : f.i < f.curr.length) (h : f.curr.length < 65536) : f.next.i = f.i + 1 :=
  Nat.mod_eq_of_lt (by omega)

/-- What a put goes on to when the innermost one has returned. -/
def putReturn (m : DznMap Value) (frames : List (RehashFrame Value)) (calls : Nat) : PutState Value :=
  match frames with
  | [] => ⟨m, [], .done .ok, calls⟩
  | f :: frames => ⟨m, frames, .rehash f.next, calls⟩

theorem putStep_index {calloc : Nat → Bool} {index : Nat} (h : dznMapHash m key = some index) :
    putStep calloc ⟨m, frames, .put key value, c⟩ = some (putReturn (m.store index key value) frames c) := by
  simp only [putStep, h]
  cases frames <;> rfl

theorem putStep_full (h : dznMapHash m key = none) : putStep (fun _ => true) ⟨m, frames, .put key value, c⟩ =
    some ⟨freshMap (2 * m.data.length), frames, .rehash ⟨m.data, 0, key, value⟩, c + 1⟩ := by
  simp [putStep, h]

theorem putStep_end {calloc : Nat → Bool} (h : ¬ f.i < f.curr.length) :
    putStep calloc ⟨m, frames, .rehash f, c⟩ = some ⟨m, frames, .put f.key f.value, c⟩ := by
  simp [putStep, h]

theorem putStep_free {calloc : Nat → Bool} (h : f.curr[f.i]? = some none) :
    putStep calloc ⟨m, frames, .rehash f, c⟩ = some ⟨m, frames, .rehash f.next, c⟩ := by
  obtain ⟨hi, hslot⟩ := List.getElem?_eq_some_iff.1 h
  simp [putStep, hi, hslot]

theorem putStep_element {calloc : Nat → Bool} (h : Holds f.curr f.i key value) :
    putStep calloc ⟨m, frames, .rehash f, c⟩ = some ⟨m, f :: frames, .put key value, c⟩ := by
  obtain ⟨hi, hslot⟩ := List.getElem?_eq_some_iff.1 h
  simp [putStep, hi, hslot]

/-- What a rehash still has to put. -/
def RehashFrame.rest (f : RehashFrame Value) : List (MapKey × Value) := entries (f.curr.drop f.i)

/-- A rehash goes on to its next element, or to the put that called it. -/
theorem rehash_reaches (calloc : Nat → Bool) (m : DznMap Value) (frames : List (RehashFrame Value)) (c : Nat)
    (h : f.curr.length < 65536) :
    match f.rest with
    | [] => PutReaches calloc ⟨m, frames, .rehash f, c⟩ ⟨m, frames, .put f.key f.value, c⟩
    | (key, value) :: rest => ∃ f', f'.curr = f.curr ∧ f'.key = f.key ∧ f'.value = f.value ∧
        f'.i < f'.curr.length ∧ f'.next.rest = rest ∧
        PutReaches calloc ⟨m, frames, .rehash f, c⟩ ⟨m, f' :: frames, .put key value, c⟩ := by
  induction hn : f.curr.length - f.i generalizing f with
  | zero =>
    have hrest : f.rest = [] := by
      rw [RehashFrame.rest, List.drop_of_length_le (by omega)]
      rfl
    rw [hrest]
    exact .single (putStep_end (by omega))
  | succ n ih =>
    have hi : f.i < f.curr.length := by omega
    have hnext := RehashFrame.next_i hi h
    have hdrop : f.rest = entries (f.curr[f.i] :: f.next.curr.drop f.next.i) := by
      rw [RehashFrame.rest, List.drop_eq_getElem_cons hi, hnext]
      rfl
    cases hslot : f.curr[f.i] with
    | some e =>
      obtain ⟨key, value⟩ := e
      rw [hslot] at hdrop
      rw [hdrop]
      have hholds : Holds f.curr f.i key value := by
        rw [Holds, List.getElem?_eq_getElem hi, hslot]
      exact ⟨f, rfl, rfl, rfl, hi, rfl, .single (putStep_element hholds)⟩
    | none =>
      rw [hslot] at hdrop
      have hrest : f.rest = f.next.rest := hdrop
      have hfree : f.curr[f.i]? = some none := by rw [List.getElem?_eq_getElem hi, hslot]
      have hlength : f.next.curr.length - f.next.i = n := by
        rw [hnext]
        exact (by omega : f.curr.length - (f.i + 1) = n)
      have hgo := @ih f.next h hlength
      rw [hrest]
      cases hfrom : f.next.rest with
      | nil =>
        rw [hfrom] at hgo
        exact .head (putStep_free hfree) hgo
      | cons e rest =>
        rw [hfrom] at hgo
        obtain ⟨f', hcurr, hkey, hvalue, hi', hrest', hreach⟩ := hgo
        exact ⟨f', hcurr, hkey, hvalue, hi', hrest', .head (putStep_free hfree) hreach⟩

/-- What is put after the innermost put. -/
def leftOver : List (RehashFrame Value) → List (MapKey × Value)
  | [] => []
  | f :: _ => f.next.rest

/-- Where the puts get when the innermost rehash has put all, or all is done. -/
def afterAll (m : DznMap Value) (frames : List (RehashFrame Value)) (calls : Nat) : PutState Value :=
  match frames with
  | [] => ⟨m, [], .done .ok, calls⟩
  | f :: frames => ⟨m, frames, .put f.key f.value, calls⟩

/-- The puts that `dznMapPuts` does with this fuel are reached. -/
def PutsReach (Value : Type) (fuel : Nat) : Prop :=
  ∀ {m m' : DznMap Value} {key value rest} frames c, dznMapPuts fuel m ((key, value) :: rest) = some m' →
    leftOver frames = rest → (∀ f ∈ frames.head?, f.curr.length < 65536) →
    ∃ c', PutReaches (fun _ => true) ⟨m, frames, .put key value, c⟩ (afterAll m' frames c')

theorem PutsReach.rehash {fuel : Nat} (ih : PutsReach Value fuel) (f : RehashFrame Value)
    (frames : List (RehashFrame Value)) (c : Nat) (h : f.curr.length < 65536)
    (hputs : dznMapPuts fuel m f.rest = some m') :
    ∃ c', PutReaches (fun _ => true) ⟨m, frames, .rehash f, c⟩ ⟨m', frames, .put f.key f.value, c'⟩ := by
  have hgo := rehash_reaches (fun _ => true) m frames c h
  cases hrest : f.rest with
  | nil =>
    rw [hrest] at hgo hputs
    obtain rfl : m = m' := by cases fuel <;> exact Option.some.inj hputs
    exact ⟨c, hgo⟩
  | cons e rest =>
    rw [hrest] at hgo hputs
    obtain ⟨f', hcurr, hkey, hvalue, -, hrest', hreach⟩ := hgo
    obtain ⟨c', hreach'⟩ := ih (f' :: frames) c hputs hrest' (by simpa [hcurr] using h)
    refine ⟨c', hreach.trans ?_⟩
    rw [← hkey, ← hvalue]
    exact hreach'

theorem PutsReach.putReturn {fuel : Nat} (ih : PutsReach Value fuel) (c : Nat)
    (h : ∀ f ∈ frames.head?, f.curr.length < 65536) (hputs : dznMapPuts fuel m (leftOver frames) = some m') :
    ∃ c', PutReaches (fun _ => true) (putReturn m frames c) (afterAll m' frames c') := by
  cases frames with
  | nil =>
    obtain rfl : m = m' := by cases fuel <;> exact Option.some.inj hputs
    exact ⟨c, .refl⟩
  | cons f frames => exact ih.rehash f.next frames c (h f rfl) hputs

theorem putsReach (fuel : Nat) : PutsReach Value fuel := by
  induction fuel with
  | zero =>
    intro m m' key value rest frames c h
    cases h
  | succ fuel ih =>
    intro m m' key value rest frames c h hrest hsmall
    cases hhash : dznMapHash m key with
    | some index =>
      rw [dznMapPuts_index hhash, ← hrest] at h
      obtain ⟨c', hreach⟩ := ih.putReturn c hsmall h
      exact ⟨c', .head (putStep_index hhash) hreach⟩
    | none =>
      by_cases hdouble : 2 * m.data.length < 65536
      · rw [dznMapPuts_full hhash hdouble] at h
        obtain ⟨rehashed, hrehash, hput⟩ := Option.bind_eq_some_iff.1 h
        have hlength : m.data.length < 65536 := by omega
        obtain ⟨c', hreach⟩ := ih.rehash ⟨m.data, 0, key, value⟩ frames (c + 1) hlength hrehash
        obtain ⟨c'', hreach'⟩ := ih frames c' hput hrest hsmall
        exact ⟨c'', .head (putStep_full hhash) (hreach.trans hreach')⟩
      · rw [dznMapPuts_large hhash hdouble] at h
        cases h

/-- With memory for all allocations a put returns what `dznMapPut` computes. -/
theorem dznMapPut_returns (h : dznMapPut m key value = some m') :
    PutReturns (fun _ => true) m key value .ok m' := by
  obtain ⟨c, hreach⟩ := putsReach putFuel [] 0 h rfl (by simp)
  obtain ⟨fuel, hrun⟩ := Loop.run_of_reaches hreach rfl
  exact ⟨fuel, _, hrun, rfl, rfl⟩

end

/-! ## When nothing is lost -/

/-- Of the slots with a key, the last has the value that is found. -/
def SameDuplicates (t : Table MapKey Value) : Prop :=
  ∀ j key value, Holds t j key value → (∀ j' value', j < j' → ¬ Holds t j' key value') →
    find t (keyChain t.length key) key = some value

/-- No rehash is under way when an allocation fails, and a rehash that begins has a table that its index can
count, whose duplicates agree. -/
def KeepsAll (calloc : Nat → Bool) (s : PutState Value) : Prop :=
  match s.point with
  | .put key _ => dznMapHash s.map key = none →
    if calloc s.calls then s.map.data.length < 65536 ∧ SameDuplicates s.map.data else s.frames = []
  | _ => True

/-- What is found in a table. -/
def lookup (t : Table MapKey Value) (key : MapKey) : Option Value := find t (keyChain t.length key) key

theorem dznMapGet_eq_lookup (self : DznMap Value) : dznMapGet self = lookup self.data := rfl

theorem lookup_replicate (n : Nat) : lookup (List.replicate n (none : Option (MapKey × Value))) = fun _ => none := by
  funext key
  refine List.findSome?_eq_none_iff.2 fun j _ => ?_
  by_contra hsome
  obtain ⟨v, hv⟩ := Option.ne_none_iff_exists'.1 hsome
  exact not_holds_replicate (valueAt_eq_some.1 hv)

theorem lookup_store {self : DznMap Value} {key : MapKey} {index : Nat} (h : dznMapHash self key = some index)
    (value : Value) : lookup (self.store index key value).data =
      fun k => if k = key then some value else lookup self.data k := by
  funext k
  obtain ⟨-, hpick⟩ := dznMapHash_eq_some h
  have hlen : (self.store index key value).data.length = self.data.length := List.length_set
  unfold lookup
  rw [hlen]
  exact find_store hpick value k

/-- What a rehash finds is what was found before. -/
theorem SameDuplicates.latest_eq {t : Table MapKey Value} (h : SameDuplicates t) : latest (entries t) = lookup t := by
  funext key
  cases hlatest : latest (entries t) key with
  | some value =>
    obtain ⟨j, hj, hlater⟩ := latest_entries hlatest
    exact (h j key value hj hlater).symm
  | none =>
    refine (List.findSome?_eq_none_iff.2 fun j _ => ?_).symm
    by_contra hsome
    obtain ⟨v, hv⟩ := Option.ne_none_iff_exists'.1 hsome
    exact latest_none.1 hlatest v (mem_entries.2 ⟨j, valueAt_eq_some.1 hv⟩)

/-! ## What holds while a put is under way -/

section
variable {before : MapKey → Option Value} {key0 : MapKey} {value0 : Value}

/-- The element to put is the one that the innermost rehash is at, what is found are the elements that it has
moved, and the same of each put that waits; what was found when the first put began is `before`. -/
inductive Waiting (before : MapKey → Option Value) (key0 : MapKey) (value0 : Value) :
    (MapKey → Option Value) → MapKey → Value → List (RehashFrame Value) → Prop
  | first : Waiting before key0 value0 before key0 value0 []
  | element {f frames key value} : Holds f.curr f.i key value → f.curr.length < 65536 → SameDuplicates f.curr →
    Waiting before key0 value0 (lookup f.curr) f.key f.value frames →
    Waiting before key0 value0 (latest (entries (f.curr.take f.i))) key value (f :: frames)

/-- The invariant. -/
def PutKeeps (before : MapKey → Option Value) (key0 : MapKey) (value0 : Value) (s : PutState Value) : Prop :=
  match s.point with
  | .put key value => Waiting before key0 value0 (lookup s.map.data) key value s.frames
  | .rehash f => lookup s.map.data = latest (entries (f.curr.take f.i)) ∧ f.i ≤ f.curr.length ∧
    f.curr.length < 65536 ∧ SameDuplicates f.curr ∧
    Waiting before key0 value0 (lookup f.curr) f.key f.value s.frames
  | .done .ok => lookup s.map.data = fun k => if k = key0 then some value0 else before k
  | .done .omem => lookup s.map.data = before

/-- A step keeps the invariant. -/
theorem PutKeeps.step {calloc : Nat → Bool} {s s' : PutState Value} (hs : PutKeeps before key0 value0 s)
    (hmeets : KeepsAll calloc s) (h : putStep calloc s = some s') : PutKeeps before key0 value0 s' := by
  obtain ⟨map, frames, point, calls⟩ := s
  cases point with
  | put key value =>
    simp only [PutKeeps] at hs
    simp only [KeepsAll] at hmeets
    simp only [putStep] at h
    cases hhash : dznMapHash map key with
    | some index =>
      rw [hhash] at h
      have hstore := lookup_store hhash value
      generalize lookup map.data = found at hs hstore
      cases hs with
      | first =>
        cases h
        exact hstore
      | @element f frames _ _ hholds hsmall hsame hwaiting =>
        cases h
        have hlt := lt_of_holds hholds
        have hnext := RehashFrame.next_i hlt hsmall
        refine ⟨?_, ?_, hsmall, hsame, hwaiting⟩
        · rw [hstore, hnext]
          funext k
          rw [RehashFrame.next, entries_take_some hholds, latest_append]
        · rw [hnext]
          exact hlt
    | none =>
      rw [hhash] at h
      specialize hmeets hhash
      split at hmeets
      · rename_i hcalloc
        rw [if_pos hcalloc] at h
        cases h
        obtain ⟨hsmall, hsame⟩ := hmeets
        exact ⟨lookup_replicate _, Nat.zero_le _, hsmall, hsame, hs⟩
      · rename_i hcalloc
        rw [if_neg hcalloc] at h
        cases h
        subst hmeets
        generalize hfound : lookup map.data = found at hs
        cases hs
        exact hfound
  | rehash f =>
    obtain ⟨hfound, hle, hsmall, hsame, hwaiting⟩ := hs
    simp only [putStep] at h
    split at h
    · rename_i hi
      cases hslot : f.curr[f.i]?.join with
      | some e =>
        obtain ⟨key, value⟩ := e
        rw [hslot] at h
        cases h
        have hholds : Holds f.curr f.i key value := Option.join_eq_some_iff.1 hslot
        simp only [PutKeeps]
        simp only at hfound
        rw [hfound]
        exact .element hholds hsmall hsame hwaiting
      | none =>
        rw [hslot] at h
        cases h
        have hnone : f.curr[f.i]? = some none := by
          rw [List.getElem?_eq_getElem hi] at hslot ⊢
          rw [Option.join_some] at hslot
          rw [hslot]
        have hnext := RehashFrame.next_i hi hsmall
        refine ⟨?_, by rw [hnext]; exact hi, hsmall, hsame, hwaiting⟩
        rw [hnext, RehashFrame.next, entries_take_none hnone]
        exact hfound
    · cases h
      simp only [PutKeeps]
      simp only at hfound
      rw [hfound, List.take_of_length_le (by omega), hsame.latest_eq]
      exact hwaiting
  | done response => cases h

end

/-! ## Termination -/

/-- What is left of a rehash. -/
def RehashFrame.work (f : RehashFrame Value) : Nat := 2 * (f.curr.length - f.i) + 2

def PutPoint.work : PutPoint Value → Nat
  | .put _ _ => 1
  | .rehash f => f.work + 2
  | .done _ => 0

/-- The tables that are still to come, each with more than what a rehash takes, and what is left of those
under way. -/
def PutState.work (s : PutState Value) : Nat :=
  (131072 - s.map.data.length) * 262144 + (s.frames.map RehashFrame.work).sum + s.point.work

theorem RehashFrame.next_work {f : RehashFrame Value} (hi : f.i < f.curr.length) (h : f.curr.length < 65536) :
    f.next.work + 2 = f.work := by
  have hnext := f.next_i hi h
  have hcurr : f.next.curr = f.curr := rfl
  unfold work
  rw [hcurr, hnext]
  omega

/-- The table does not shrink. -/
theorem putStep_length {calloc : Nat → Bool} {s s' : PutState Value} (h : putStep calloc s = some s') :
    s.map.data.length ≤ s'.map.data.length := by
  unfold putStep at h
  split at h
  · split at h
    · have hlen : ∀ {m : DznMap Value} {index key value}, (m.store index key value).data.length = m.data.length :=
        List.length_set
      split at h <;> cases h <;> exact hlen.ge
    · split at h <;> cases h
      · simp only [freshMap, List.length_replicate]
        omega
      · exact le_refl _
  · split at h
    · split at h <;> cases h <;> exact le_refl _
    · cases h
      exact le_refl _
  · cases h

theorem double_work {n w l : Nat} (hpos : 0 < n) (hn : n < 65536) (hl : l = 2 * n) :
    (131072 - l) * 262144 + w + (2 * (n - 0) + 2 + 2) < (131072 - n) * 262144 + w + 1 := by
  omega

/-- Each step leaves less to do. -/
theorem PutKeeps.work_lt {before : MapKey → Option Value} {key0 : MapKey} {value0 : Value} {calloc : Nat → Bool}
    {s s' : PutState Value} (hs : PutKeeps before key0 value0 s) (hpos : 0 < s.map.data.length)
    (hmeets : KeepsAll calloc s) (h : putStep calloc s = some s') : s'.work < s.work := by
  obtain ⟨map, frames, point, calls⟩ := s
  cases point with
  | put key value =>
    simp only [PutKeeps] at hs
    simp only [KeepsAll] at hmeets
    simp only [putStep] at h
    cases hhash : dznMapHash map key with
    | some index =>
      rw [hhash] at h
      have hlen : (map.store index key value).data.length = map.data.length := List.length_set
      generalize lookup map.data = found at hs
      cases hs with
      | first =>
        cases h
        simp only [PutState.work, PutPoint.work, hlen]
        omega
      | @element f frames _ _ hholds hsmall hsame hwaiting =>
        cases h
        have hnext := f.next_work (lt_of_holds hholds) hsmall
        simp only [PutState.work, PutPoint.work, hlen, List.map_cons, List.sum_cons]
        omega
    | none =>
      rw [hhash] at h
      specialize hmeets hhash
      split at hmeets
      · rename_i hcalloc
        rw [if_pos hcalloc] at h
        cases h
        exact double_work hpos hmeets.1 List.length_replicate
      · rename_i hcalloc
        rw [if_neg hcalloc] at h
        cases h
        simp only [PutState.work, PutPoint.work, List.map_nil, List.sum_nil]
        omega
  | rehash f =>
    obtain ⟨-, hle, hsmall, -, -⟩ := hs
    simp only [putStep] at h
    split at h
    · rename_i hi
      have hnext := f.next_work hi hsmall
      split at h <;> cases h <;>
        simp only [PutState.work, PutPoint.work, List.map_cons, List.sum_cons] <;> omega
    · cases h
      simp only [PutState.work, PutPoint.work, RehashFrame.work]
      omega
  | done response => cases h

/-! ## Every reachable map -/

theorem PutReturns.length {calloc : Nat → Bool} {self self' : DznMap Value} {key : MapKey} {value : Value}
    {response : PutResponse} (h : PutReturns calloc self key value response self') :
    self.data.length ≤ self'.data.length := by
  obtain ⟨fuel, s, hrun, -, rfl⟩ := h
  exact Loop.run_inv (fun s => self.data.length ≤ s.map.data.length)
    (fun s s' hs hstep => hs.trans (putStep_length hstep)) hrun (le_refl _)

theorem length_dznMapRemove (self : DznMap Value) (key : MapKey) :
    (dznMapRemove self key).data.length = self.data.length := by
  unfold dznMapRemove
  split <;> simp

theorem MapReachable.large {self : DznMap Value} (h : MapReachable self) : 256 ≤ self.data.length := by
  induction h with
  | init => exact List.length_replicate.ge
  | put _ hput ih => exact ih.trans hput.length
  | remove key _ ih => rwa [length_dznMapRemove]

/-- Only a put that has returned has no step. -/
theorem putStep_eq_none {calloc : Nat → Bool} {s : PutState Value} (h : putStep calloc s = none) :
    ∃ response, s.point = .done response := by
  unfold putStep at h
  split at h
  · split at h
    · split at h <;> cases h
    · split at h <;> cases h
  · split at h
    · split at h <;> cases h
    · cases h
  · rename_i response hpoint
    exact ⟨response, hpoint⟩

/-- A put that finds a slot returns. -/
theorem MapReachable.store {self : DznMap Value} {key : MapKey} {index : Nat} (h : MapReachable self)
    (hindex : dznMapHash self key = some index) (value : Value) : MapReachable (self.store index key value) := by
  have hfirst : putStep (fun _ => true) (putStart self key value) =
      some ⟨self.store index key value, [], .done .ok, 0⟩ := by
    simp only [putStep, putStart, hindex]
  have hrun : Loop.run (putStep fun _ => true) 2 (putStart self key value) =
      some ⟨self.store index key value, [], .done .ok, 0⟩ := by
    rw [Loop.run_step hfirst, Loop.run_done rfl]
  exact h.put ⟨2, _, hrun, rfl, rfl⟩

/-- Puts that find a slot. -/
def storeAll (self : DznMap Nat) (keys : List MapKey) : Option (DznMap Nat) :=
  keys.foldlM (fun self key => (dznMapHash self key).map fun index => self.store index key 1) self

theorem MapReachable.storeAll {keys : List MapKey} {self self' : DznMap Nat} (h : MapReachable self)
    (hstore : storeAll self keys = some self') : MapReachable self' := by
  induction keys generalizing self with
  | nil =>
    cases hstore
    exact h
  | cons key keys ih =>
    obtain ⟨m, hm, hrest⟩ := Option.bind_eq_some_iff.1 hstore
    obtain ⟨index, hindex, rfl⟩ := Option.map_eq_some_iff.1 hm
    exact ih (h.store hindex 1) hrest

def twoBytes (a b : UInt8) (h : 0 ∉ [a, b]) : MapKey := ⟨[a, b], h, by simp⟩

/-- `"3f"` -/
def key3f : MapKey := twoBytes 51 102 (by decide)

/-- `"mI"` -/
def keyMI : MapKey := twoBytes 109 73 (by decide)

/-- `"3f"`, and others that fill its chain in a table of 256 slots, and with it in one of 512. -/
def crowd : List MapKey := [key3f, twoBytes 53 50 (by decide), twoBytes 101 97 (by decide),
  twoBytes 108 102 (by decide), twoBytes 117 115 (by decide), twoBytes 50 83 (by decide),
  twoBytes 72 51 (by decide), twoBytes 80 105 (by decide), twoBytes 53 113 (by decide)]

end Dezyne
