import Dezyne.PcText
import Mathlib.Logic.Equiv.List
import Mathlib.Logic.Function.Basic
/-!
# Going back to where a block began

Compliance of a blocked program counter is checked from where its trace began to
block. `blocked-prefix` goes back along traces between blocked states: it takes
the first trace it finds to a state, avoids the states on its way, and keeps what
it found for a state for later. We prove what it returns when no way back gets
stuck.
-/

namespace Dezyne.Explore

/-! ## The search -/

/-- What the table of a run-to-completion LTS has of a state: its number, its program counter and its traces. -/
structure RtcEntry where
  source : Nat
  pc : ProgramCounter
  traces : List Trace

/-- The prefixes that were found, by the number of a state. -/
abbrev PrefixCache := Nat → Option Trace

def emptyCache : PrefixCache := fun _ => none

section
variable (number : String → Nat)

/-- The traces that `follow-blocked` looks for: to this state while it is blocked, from one that was not seen. -/
def followable (target : Nat) (seen : List Nat) : Trace → Bool
  | [] => false
  | pc :: trace => !pc.blocked.isEmpty && number pc.text == target &&
    !seen.contains (number ((pc :: trace).getLast (List.cons_ne_nil pc trace)).text)

/-- The first of them. -/
def findTrace (alist : List RtcEntry) (target : Nat) (seen : List Nat) : Option Trace :=
  alist.findSome? fun entry => entry.traces.find? (followable number target seen)

/-- `follow-blocked`, with its cache -/
def followBlocked (alist : List RtcEntry) : Nat → PrefixCache → ProgramCounter → List Nat →
    Option (Trace × PrefixCache)
  | 0, _, _, _ => none
  | fuel + 1, cache, pc, seen =>
    let target := number pc.text
    match cache target with
    | some trace => some (trace, cache)
    | none =>
      let trace := findTrace number alist target seen
      match trace.bind List.getLast? with
      | none => some (trace.getD [], Function.update cache target (trace.getD []))
      | some pc' =>
        let source := number pc'.text
        if source = 1 then some (trace.getD [], Function.update cache target (trace.getD []))
        else
          (followBlocked alist fuel cache pc' (source :: seen)).map fun (tail, cache) =>
            (trace.getD [] ++ tail, Function.update cache target (trace.getD [] ++ tail))

/-- The numbers of the states that traces are from. -/
def startNumbers (table : List RtcEntry) : List Nat :=
  table.flatMap fun entry => entry.traces.filterMap fun trace => trace.getLast?.map fun pc => number pc.text

/-- `blocked-prefix`; each call of `follow-blocked` in another has one more state that was seen. -/
def blockedPrefix (alist : List RtcEntry) (cache : PrefixCache) (pc : ProgramCounter) : Option (Trace × PrefixCache) :=
  if number pc.text = 1 then some ([], cache)
  else followBlocked number alist ((startNumbers number alist).length + 1) cache pc [number pc.text]

/-! ## What it is for -/

/-- Traces of the table one after the other, each from where the one before it is to; from the last state back. -/
inductive Connected (table : List RtcEntry) : ProgramCounter → Trace → ProgramCounter → Prop
  | nil (pc : ProgramCounter) : Connected table pc [] pc
  | trace {pc head start : ProgramCounter} {trace rest : Trace} {entry : RtcEntry} : entry ∈ table →
    head :: trace ∈ entry.traces → head.text = pc.text →
    Connected table ((head :: trace).getLast (List.cons_ne_nil head trace)) rest start →
    Connected table pc (head :: trace ++ rest) start

/-- A prefix of a program counter: it ends in it, and begins in one that is initial or not blocked. -/
def RightPrefix (table : List RtcEntry) (pc : ProgramCounter) (result : Trace) : Prop :=
  ∃ start, Connected table pc result start ∧ (number start.text = 1 ∨ start.blocked = [])

/-- The ways back from a program counter along traces to blocked states, with the states on them. -/
inductive Backward (table : List RtcEntry) (pc : ProgramCounter) : List Nat → ProgramCounter → Prop
  | start : Backward table pc [number pc.text] pc
  | back {seen : List Nat} {target source : ProgramCounter} {entry : RtcEntry} {trace : Trace} :
    Backward table pc seen target → entry ∈ table → trace ∈ entry.traces →
    followable number (number target.text) seen trace = true → trace.getLast? = some source → number source.text ≠ 1 →
    Backward table pc (number source.text :: seen) source

/-- No way back ends in a blocked state. -/
def NeverStuck (table : List RtcEntry) (pc : ProgramCounter) : Prop :=
  ∀ seen target, Backward number table pc seen target → target.blocked ≠ [] →
    ∃ entry ∈ table, ∃ trace ∈ entry.traces, followable number (number target.text) seen trace = true

/-- A program counter that is explored. -/
structure Explored (pc : ProgramCounter) : Prop where
  status : pc.status = none
  named : pc.Named

/-- Traces are from program counters that are explored. -/
def FromExplored (table : List RtcEntry) : Prop :=
  ∀ entry ∈ table, ∀ trace ∈ entry.traces, ∀ pc ∈ trace.getLast?, Explored pc

/-- The table grows, and `blocked-prefix` is called with it in any order. -/
inductive PrefixRun : List RtcEntry → PrefixCache → Prop
  | start : PrefixRun [] emptyCache
  | grow {table table' : List RtcEntry} {cache : PrefixCache} : PrefixRun table cache → table ⊆ table' →
    FromExplored table' → PrefixRun table' cache
  | query {table alist : List RtcEntry} {cache cache' : PrefixCache} {pc : ProgramCounter} {result : Trace} :
    PrefixRun table cache → alist.Perm table → Explored pc → NeverStuck number table pc →
    blockedPrefix number alist cache pc = some (result, cache') → PrefixRun table cache'

end

/-! ## The search is right -/

section
variable {number : String → Nat} {table table' alist : List RtcEntry} {cache cache' : PrefixCache}
  {pc pc' target : ProgramCounter} {seen : List Nat} {trace result : Trace}

theorem Connected.mono (h : Connected table pc result pc') (hsub : table ⊆ table') :
    Connected table' pc result pc' := by
  induction h with
  | nil pc => exact .nil pc
  | trace hentry htrace hhead _ ih => exact .trace (hsub hentry) htrace hhead ih

theorem RightPrefix.mono (h : RightPrefix number table pc result) (hsub : table ⊆ table') :
    RightPrefix number table' pc result := by
  obtain ⟨start, hconnected, hstart⟩ := h
  exact ⟨start, hconnected.mono hsub, hstart⟩

/-- A prefix is one of every program counter with the same text. -/
theorem RightPrefix.congr (h : RightPrefix number table pc result) (hpc : Explored pc) (hpc' : Explored pc')
    (htext : pc.text = pc'.text) : RightPrefix number table pc' result := by
  obtain ⟨start, hconnected, hstart⟩ := h
  cases hconnected with
  | nil =>
    refine ⟨pc', .nil pc', ?_⟩
    rw [← htext, ← text_blocked hpc.named hpc'.named hpc.status hpc'.status htext]
    exact hstart
  | trace hentry htrace hhead hrest => exact ⟨start, .trace hentry htrace (hhead.trans htext) hrest, hstart⟩

/-- What the cache has is right. -/
def CacheRight (number : String → Nat) (table : List RtcEntry) (cache : PrefixCache) : Prop :=
  ∀ n result, cache n = some result → ∀ pc, Explored pc → number pc.text = n → RightPrefix number table pc result

theorem CacheRight.update (h : CacheRight number table cache) (hnumber : Function.Injective number)
    (hpc : Explored pc) (hright : RightPrefix number table pc result) :
    CacheRight number table (Function.update cache (number pc.text) result) := by
  intro n result' hn pc' hpc' hnum
  by_cases heq : n = number pc.text
  · subst heq
    rw [Function.update_self] at hn
    obtain rfl := Option.some.inj hn
    exact hright.congr hpc hpc' (hnumber hnum).symm
  · rw [Function.update_of_ne heq] at hn
    exact h n result' hn pc' hpc' hnum

theorem followable_cons {head : ProgramCounter}
    (h : followable number (number target.text) seen (head :: trace) = true) :
    number head.text = number target.text ∧
      number ((head :: trace).getLast (List.cons_ne_nil head trace)).text ∉ seen := by
  simp only [followable, Bool.and_eq_true, beq_iff_eq, Bool.not_eq_true', List.contains_eq_mem,
    decide_eq_false_iff_not] at h
  exact ⟨h.1.2, h.2⟩

theorem findTrace_some (h : findTrace number alist (number target.text) seen = some trace) :
    ∃ entry ∈ alist, trace ∈ entry.traces ∧ followable number (number target.text) seen trace = true := by
  obtain ⟨entry, hentry, hfind⟩ := List.exists_of_findSome?_eq_some h
  exact ⟨entry, hentry, List.mem_of_find?_eq_some hfind, List.find?_some hfind⟩

theorem findTrace_none (h : findTrace number alist (number target.text) seen = none) {entry : RtcEntry}
    (hentry : entry ∈ alist) (htrace : trace ∈ entry.traces) :
    followable number (number target.text) seen trace = false := by
  have hnone := List.findSome?_eq_none_iff.1 h entry hentry
  simpa using List.find?_eq_none.1 hnone trace htrace

section
variable (fuel : Nat)

theorem followBlocked_hit (h : cache (number target.text) = some trace) :
    followBlocked number alist (fuel + 1) cache target seen = some (trace, cache) := by
  simp only [followBlocked, h]

theorem followBlocked_none (h : cache (number target.text) = none)
    (hfind : findTrace number alist (number target.text) seen = none) :
    followBlocked number alist (fuel + 1) cache target seen =
      some ([], Function.update cache (number target.text) (some [])) := by
  simp only [followBlocked, h, hfind]
  rfl

theorem followBlocked_some (h : cache (number target.text) = none)
    (hfind : findTrace number alist (number target.text) seen = some trace) {source : ProgramCounter}
    (hlast : trace.getLast? = some source) :
    followBlocked number alist (fuel + 1) cache target seen =
      if number source.text = 1 then some (trace, Function.update cache (number target.text) (some trace))
      else (followBlocked number alist fuel cache source (number source.text :: seen)).map fun x =>
        (trace ++ x.1, Function.update x.2 (number target.text) (some (trace ++ x.1))) := by
  simp only [followBlocked, h, hfind, Option.bind_some, hlast, Option.getD_some]

end

/-- The states that were not seen get fewer. -/
theorem unseen_lt {n : Nat} {l seen : List Nat} (hn : n ∈ l) (hseen : n ∉ seen) :
    (l.filter fun m => m ∉ n :: seen).length < (l.filter fun m => m ∉ seen).length := by
  have hsub : (l.filter fun m => m ∉ n :: seen) = (l.filter fun m => m ∉ seen).filter fun m => m ≠ n := by
    rw [List.filter_filter]
    congr 1
    funext m
    simp [not_or]
  rw [hsub, List.length_filter_lt_length_iff_exists]
  exact ⟨n, List.mem_filter.2 ⟨hn, by simpa using hseen⟩, by simp⟩

/-- On a way back from a program counter that never gets stuck, `follow-blocked` returns, and what it returns and
keeps is right. -/
theorem followBlocked_right (hnumber : Function.Injective number) (hfrom : FromExplored table)
    (halist : alist.Perm table) (hmeets : NeverStuck number table pc) (fuel : Nat) :
    ∀ {cache target seen}, CacheRight number table cache → Backward number table pc seen target → Explored target →
      ((startNumbers number alist).filter fun n => n ∉ seen).length < fuel →
      ∃ result cache', followBlocked number alist fuel cache target seen = some (result, cache') ∧
        RightPrefix number table target result ∧ CacheRight number table cache' := by
  induction fuel with
  | zero => intro cache target seen _ _ _ hfuel; omega
  | succ fuel ih =>
    intro cache target seen hcache hback hto hfuel
    cases hhit : cache (number target.text) with
    | some trace => exact ⟨trace, cache, followBlocked_hit fuel hhit, hcache _ _ hhit target hto rfl, hcache⟩
    | none =>
      cases hfind : findTrace number alist (number target.text) seen with
      | none =>
        have hopen : target.blocked = [] := by
          by_contra hblocked
          obtain ⟨entry, hentry, trace, htrace, hfollow⟩ := hmeets seen target hback hblocked
          rw [findTrace_none hfind (halist.mem_iff.2 hentry) htrace] at hfollow
          cases hfollow
        have hright : RightPrefix number table target [] := ⟨target, .nil target, .inr hopen⟩
        exact ⟨[], _, followBlocked_none fuel hhit hfind, hright, hcache.update hnumber hto hright⟩
      | some trace =>
        obtain ⟨entry, hentry, htrace, hfollow⟩ := findTrace_some hfind
        have hentry' := halist.mem_iff.1 hentry
        cases trace with
        | nil => cases hfollow
        | cons head trace =>
          obtain ⟨hhead, hunseen⟩ := followable_cons hfollow
          have hlast : (head :: trace).getLast? = some ((head :: trace).getLast (List.cons_ne_nil head trace)) :=
            List.getLast?_eq_some_getLast _
          have hexplored := hfrom entry hentry' _ htrace _ hlast
          generalize hfromPc : (head :: trace).getLast (List.cons_ne_nil head trace) = source at *
          have hconnect : ∀ {rest start}, Connected table source rest start →
              Connected table target (head :: trace ++ rest) start := by
            intro rest start hrest
            rw [← hfromPc] at hrest
            exact .trace hentry' htrace (hnumber hhead) hrest
          rw [followBlocked_some fuel hhit hfind hlast]
          by_cases hinitial : number source.text = 1
          · rw [if_pos hinitial]
            have hright : RightPrefix number table target (head :: trace) := by
              have := hconnect (.nil source)
              rw [List.append_nil] at this
              exact ⟨source, this, .inl hinitial⟩
            exact ⟨_, _, rfl, hright, hcache.update hnumber hto hright⟩
          · rw [if_neg hinitial]
            have hstart : number source.text ∈ startNumbers number alist := by
              refine List.mem_flatMap.2 ⟨entry, hentry, List.mem_filterMap.2 ⟨head :: trace, htrace, ?_⟩⟩
              rw [hlast]
              rfl
            have hless := unseen_lt hstart hunseen
            obtain ⟨tail, cache', htail, ⟨start, hconnected, hgood⟩, hcache'⟩ := ih hcache
              (hback.back hentry' htrace hfollow hlast hinitial) hexplored (by omega)
            have hright : RightPrefix number table target (head :: trace ++ tail) :=
              ⟨start, hconnect hconnected, hgood⟩
            rw [htail]
            exact ⟨_, _, rfl, hright, hcache'.update hnumber hto hright⟩

/-- What a call returns and keeps is right. -/
theorem blockedPrefix_returns (hnumber : Function.Injective number) (hfrom : FromExplored table)
    (hcache : CacheRight number table cache) (halist : alist.Perm table) (hpc : Explored pc)
    (hmeets : NeverStuck number table pc) :
    ∃ result cache', blockedPrefix number alist cache pc = some (result, cache') ∧
      RightPrefix number table pc result ∧ CacheRight number table cache' := by
  unfold blockedPrefix
  by_cases hinitial : number pc.text = 1
  · rw [if_pos hinitial]
    exact ⟨[], cache, rfl, ⟨pc, .nil pc, .inl hinitial⟩, hcache⟩
  · rw [if_neg hinitial]
    exact followBlocked_right hnumber hfrom halist hmeets _ hcache .start hpc
      (Nat.lt_succ_of_le (List.length_filter_le _ _))

theorem PrefixRun.right (h : PrefixRun number table cache) (hnumber : Function.Injective number) :
    FromExplored table ∧ CacheRight number table cache := by
  induction h with
  | start => exact ⟨by rintro entry ⟨⟩, by rintro n result ⟨⟩⟩
  | grow _ hsub hfrom ih =>
    exact ⟨hfrom, fun n result hn pc hpc hnum => (ih.2 n result hn pc hpc hnum).mono hsub⟩
  | query _ halist hpc hmeets hcall ih =>
    obtain ⟨result, cache', hreturns, -, hcache'⟩ := blockedPrefix_returns hnumber ih.1 ih.2 halist hpc hmeets
    rw [hcall] at hreturns
    cases hreturns
    exact ⟨ih.1, hcache'⟩

/-- When no way back from a program counter that is asked for gets stuck, `blocked-prefix` returns a prefix of it, for
every order of the table and after every run of calls. -/
theorem blockedPrefix_right (number : String → Nat) (hnumber : Function.Injective number) (table alist : List RtcEntry)
    (cache : PrefixCache) (h : PrefixRun number table cache) (halist : alist.Perm table) (pc : ProgramCounter)
    (hpc : Explored pc) (hmeets : NeverStuck number table pc) :
    ∃ result cache', blockedPrefix number alist cache pc = some (result, cache') ∧
      RightPrefix number table pc result := by
  obtain ⟨hfrom, hcache⟩ := h.right hnumber
  obtain ⟨result, cache', hreturns, hright, -⟩ := blockedPrefix_returns hnumber hfrom hcache halist hpc hmeets
  exact ⟨result, cache', hreturns, hright⟩

end

/-! ## A way back that gets stuck -/

/-- Nothing is blocked. -/
def idlePc : ProgramCounter :=
  ⟨none, none, none, [], none, none, [], none, [], false, 0, [], [], [], none, [], []⟩

/-- A port is blocked. -/
def blockedPc (port : String) : ProgramCounter := { idlePc with blocked := [(⟨.component, [port], false, 0⟩, idlePc)] }

/-- A numbering with the initial state as the first. -/
def numberText (s : String) : Nat := if s = "" then 1 else Encodable.encode (s.toList.map Char.toNat) + 2

theorem numberText_injective : Function.Injective numberText := by
  intro s s' h
  unfold numberText at h
  split at h <;> split at h
  · rename_i hs hs'
    rw [hs, hs']
  · omega
  · omega
  · have hmap := Encodable.encode_injective (Nat.add_right_cancel h)
    have hchar : Function.Injective Char.toNat := Function.LeftInverse.injective Char.ofNat_toNat
    exact String.toList_inj.1 (List.map_injective_iff.2 hchar hmap)

theorem idlePc_text : idlePc.text = "" := by
  simp [ProgramCounter.text, idlePc, ProgramCounter.textWith, stateText, ProgramCounter.statementTexts,
    ProgramCounter.rtcTriggers, stack_eq_nil, heading, callerTexts, locationTexts,
    ProgramCounter.blockedOnBoundaryEntries]

theorem blockedPc_text (port : String) : (blockedPc port).text = "\nblocked:\n" ++ port := by
  have htext : (blockedPc port).text = "\n" ++ ("blocked:\n" ++ port) := by
    simp [ProgramCounter.text, blockedPc, idlePc, ProgramCounter.textWith, stateText, ProgramCounter.statementTexts,
      ProgramCounter.rtcTriggers, stack_eq_nil, heading, callerTexts, locationTexts,
      ProgramCounter.blockedOnBoundaryEntries, Instance.dottedName]
  rw [htext, ← String.append_assoc]
  rfl

theorem explored_idlePc : Explored idlePc where
  status := rfl
  named := by
    refine ⟨?_, ?_, ?_, ?_, ?_, ?_, ?_, ?_, ?_, ?_⟩
    all_goals simp [idlePc, ProgramCounter.rtcTriggers, stack_eq_nil]

theorem explored_blockedPc (port : String) (h : Word port) : Explored (blockedPc port) where
  status := rfl
  named := by
    have hport : Instance.Named ⟨.component, [port], false, 0⟩ := ⟨by simpa using h⟩
    have hblocked : CoroutineNamed (⟨.component, [port], false, 0⟩, idlePc) :=
      ⟨hport, by simp [idlePc], by simp [idlePc], by simp [idlePc, stack_eq_nil], by simp [idlePc]⟩
    refine ⟨?_, ?_, ?_, ?_, by simpa [blockedPc] using hblocked, ?_, ?_, ?_, ?_, ?_⟩
    all_goals simp [blockedPc, idlePc, ProgramCounter.rtcTriggers, stack_eq_nil]

theorem blockedPc_number (port port' : String) (h : port ≠ port') :
    numberText (blockedPc port).text ≠ numberText (blockedPc port').text := by
  rw [numberText_injective.ne_iff, blockedPc_text, blockedPc_text]
  simpa using h

theorem blockedPc_initial (port : String) : numberText (blockedPc port).text ≠ 1 := by
  rw [blockedPc_text, numberText, if_neg (by simp)]
  omega

theorem idlePc_number : numberText idlePc.text = 1 := by
  rw [idlePc_text, numberText, if_pos rfl]

theorem blockedPrefix_right_one : ∃ table result cache', PrefixRun numberText table emptyCache ∧
    blockedPrefix numberText table emptyCache (blockedPc "p") = some (result, cache') ∧
    RightPrefix numberText table (blockedPc "p") result := by
  let table : List RtcEntry := [⟨1, idlePc, [[blockedPc "p", idlePc]]⟩]
  have hp := explored_blockedPc "p" ⟨by decide, by decide, by decide⟩
  have hfrom : FromExplored table := by
    simpa [FromExplored, table] using explored_idlePc
  have hrun : PrefixRun numberText table emptyCache := .grow .start (by simp) hfrom
  have hfollow : followable numberText (numberText (blockedPc "p").text) [numberText (blockedPc "p").text]
      [blockedPc "p", idlePc] = true := by
    have hne := (blockedPc_initial "p").symm
    have hblocked : (blockedPc "p").blocked.isEmpty = false := rfl
    simp [followable, idlePc_number, hne, hblocked]
  have hmeets : NeverStuck numberText table (blockedPc "p") := by
    intro seen target hback hblocked
    cases hback with
    | start => exact ⟨_, List.mem_singleton_self _, _, List.mem_singleton_self _, hfollow⟩
    | back _ hentry htrace _ hlast hinitial =>
      rw [List.mem_singleton.1 hentry] at htrace
      rw [List.mem_singleton.1 htrace] at hlast
      cases hlast
      exact absurd idlePc_number hinitial
  obtain ⟨result, cache', hreturns, hright⟩ := blockedPrefix_right numberText numberText_injective table table
    emptyCache hrun (.refl table) (blockedPc "p") hp hmeets
  exact ⟨table, result, cache', hrun, hreturns, hright⟩

theorem Connected.getLast {table : List RtcEntry} {pc start : ProgramCounter} {result : Trace}
    (h : Connected table pc result start) : result = [] ∧ start = pc ∨ result.getLast? = some start := by
  induction h with
  | nil pc => exact .inl ⟨rfl, rfl⟩
  | @trace pc head start trace rest entry _ _ _ _ ih =>
    right
    rcases ih with ⟨rfl, rfl⟩ | hlast
    · rw [List.append_nil]
      exact List.getLast?_eq_some_getLast _
    · rw [List.getLast?_append, hlast]
      rfl

/-- Two states that block each other, and a third that is reached from the first of them. -/
def stuckTable : List RtcEntry := [⟨1, idlePc, [[blockedPc "p", idlePc]]⟩,
  ⟨2, blockedPc "p", [[blockedPc "q", blockedPc "p"], [blockedPc "r", blockedPc "p"]]⟩,
  ⟨3, blockedPc "q", [[blockedPc "p", blockedPc "q"]]⟩]

theorem stuckTable_explored : FromExplored stuckTable := by
  have hp := explored_blockedPc "p" ⟨by decide, by decide, by decide⟩
  have hq := explored_blockedPc "q" ⟨by decide, by decide, by decide⟩
  simpa [FromExplored, stuckTable] using ⟨explored_idlePc, hp, hq⟩

/-- The way back from the third goes to the first, from there to the second, and there it ends. -/
theorem stuckTable_search : ∃ cache', blockedPrefix numberText stuckTable.reverse emptyCache (blockedPc "r") =
    some ([blockedPc "r", blockedPc "p", blockedPc "p", blockedPc "q"], cache') := by
  have hpq := blockedPc_number "p" "q" (by decide)
  have hpr := blockedPc_number "p" "r" (by decide)
  have hqr := blockedPc_number "q" "r" (by decide)
  have hblocked : ∀ port, (blockedPc port).blocked.isEmpty = false := fun port => rfl
  have hr : findTrace numberText stuckTable.reverse (numberText (blockedPc "r").text)
      [numberText (blockedPc "r").text] = some [blockedPc "r", blockedPc "p"] := by
    simp [findTrace, stuckTable, followable, hpr, hqr, hblocked]
  have hp : findTrace numberText stuckTable.reverse (numberText (blockedPc "p").text)
      [numberText (blockedPc "p").text, numberText (blockedPc "r").text] = some [blockedPc "p", blockedPc "q"] := by
    simp [findTrace, stuckTable, followable, hpq.symm, hqr, hblocked]
  have hq : findTrace numberText stuckTable.reverse (numberText (blockedPc "q").text)
      [numberText (blockedPc "q").text, numberText (blockedPc "p").text, numberText (blockedPc "r").text] = none := by
    simp [findTrace, stuckTable, followable, hpq, hblocked]
  have hlength : (startNumbers numberText stuckTable.reverse).length = 4 := by
    simp [startNumbers, stuckTable]
  have hlast : ∀ a b : ProgramCounter, [a, b].getLast? = some b := fun a b => rfl
  have hmiss : ∀ n, emptyCache n = none := fun n => rfl
  have hstep := followBlocked_some 4 (hmiss _) hr (hlast _ _)
  have hstep' := followBlocked_some 3 (hmiss _) hp (hlast _ _)
  have hstep'' := followBlocked_none 2 (hmiss _) hq
  rw [if_neg (blockedPc_initial "p")] at hstep
  rw [if_neg (blockedPc_initial "q"), hstep''] at hstep'
  rw [hstep'] at hstep
  rw [blockedPrefix, if_neg (blockedPc_initial "r"), hlength, hstep]
  exact ⟨_, rfl⟩

/-- A single trace between two states. -/
theorem Connected.two {table : List RtcEntry} {pc pc' start : ProgramCounter} {rest : Trace} {entry : RtcEntry}
    (hentry : entry ∈ table) (htrace : [pc, pc'] ∈ entry.traces) (hrest : Connected table pc' rest start) :
    Connected table pc (pc :: pc' :: rest) start :=
  .trace hentry htrace rfl hrest

/-- When the search takes the way to the second, what it returns begins in a blocked state. -/
theorem blockedPrefix_stuck : ∃ table alist result cache', PrefixRun numberText table emptyCache ∧
    alist.Perm table ∧ Connected table (blockedPc "r") [blockedPc "r", blockedPc "p", blockedPc "p", idlePc] idlePc ∧
    blockedPrefix numberText alist emptyCache (blockedPc "r") = some (result, cache') ∧
    ¬ RightPrefix numberText table (blockedPc "r") result := by
  obtain ⟨cache', hcall⟩ := stuckTable_search
  have hconnected : Connected stuckTable (blockedPc "p") [blockedPc "p", idlePc] idlePc :=
    .two List.mem_cons_self List.mem_cons_self (.nil idlePc)
  have hconnected' : Connected stuckTable (blockedPc "r")
      [blockedPc "r", blockedPc "p", blockedPc "p", idlePc] idlePc :=
    .two (List.mem_cons_of_mem _ List.mem_cons_self) (List.mem_cons_of_mem _ List.mem_cons_self) hconnected
  refine ⟨stuckTable, stuckTable.reverse, _, cache', .grow .start (by simp) stuckTable_explored,
    List.reverse_perm stuckTable, hconnected', hcall, ?_⟩
  rintro ⟨start, hstart, hgood⟩
  have hlast : start = blockedPc "q" := by
    rcases hstart.getLast with ⟨hnil, -⟩ | hlast
    · cases hnil
    · exact (Option.some.inj hlast).symm
  subst hlast
  rcases hgood with hinitial | hopen
  · exact blockedPc_initial "q" hinitial
  · cases hopen

end Dezyne.Explore
