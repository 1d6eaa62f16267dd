import Dezyne.Lib.Unfold
import Dezyne.BlockedPrefix
import Mathlib.Data.List.Dedup
import Mathlib.Logic.Function.Basic
/-!
# The LTS of a run-to-completion LTS

A transition of a run-to-completion LTS has a list of labels. In the LTS that is
written, it is one transition for each label. The states between are numbered by
the text of the program counter and the labels so far, in the table that also
numbers the program counters.
-/

namespace Dezyne.Explore

open Lines Unfold

/-! ## Numbers of states -/

/-- `state-number-table` and `state-number-count` -/
structure StateNumbers where
  table : String → Option Nat
  count : Nat

/-- The key of a program counter, and of labels that come after it. -/
def pcKey (pc : ProgramCounter) (trail : Option String) : String :=
  match trail with
  | none => pc.text
  | some trail => pc.text ++ " t:" ++ trail

/-- `pc->state-number` -/
def StateNumbers.number (numbers : StateNumbers) (pc : ProgramCounter) (trail : Option String) :
    Nat × StateNumbers :=
  let pcString := pcKey pc trail
  match numbers.table pcString with
  | some next => (next, numbers)
  | none => (numbers.count, ⟨Function.update numbers.table pcString (some numbers.count), numbers.count + 1⟩)

/-- `pc->rtc-lts` begins with this. -/
def StateNumbers.initial : StateNumbers := ⟨Function.update (fun _ => none) "<illegal>" (some 0), 1⟩

/-! ## Unfolding -/

/-- A state of a run-to-completion LTS: its number, its program counter, and for each of its traces the labels of the
trail and the program counter it ends in. -/
structure RtcState where
  number : Nat
  pc : ProgramCounter
  transitions : List (List String × ProgramCounter)

/-- `(from label to)` -/
abbrev Triple := Nat × String × Nat

/-- `map`, with the numbers of the states -/
def StateNumbers.numberAll (numbers : StateNumbers) (pc : ProgramCounter) : List String → List Nat × StateNumbers
  | [] => ([], numbers)
  | trail :: trails =>
    let (n, numbers) := numbers.number pc (some trail)
    let (ns, numbers) := numbers.numberAll pc trails
    (n :: ns, numbers)

/-- The prefixes of a trail, but for the empty and the whole one, as strings. -/
def trailPrefixes (trail : List String) : List String :=
  (List.range' 1 (trail.length - 1)).map fun n => " ".intercalate (trail.take n)

/-- `trail->state-numbers` -/
def trailStateNumbers (numbers : StateNumbers) (pc : ProgramCounter) (trail : List String) (target : Nat) :
    List Nat × StateNumbers :=
  let (inner, numbers) := numbers.numberAll pc (trailPrefixes trail)
  (inner ++ [target], numbers)

/-- A transition without labels has this one. -/
def stepLabels (labels : List String) : List String := if labels = [] then ["tau"] else labels

/-- `trace->lts-triples` -/
def traceLtsTriples (numbers : StateNumbers) (pc : ProgramCounter) (source : Nat)
    (trace : List String × ProgramCounter) : List Triple × StateNumbers :=
  let labels := stepLabels trace.1
  let (target, numbers) := numbers.number trace.2 none
  let (inner, numbers) := trailStateNumbers numbers pc labels target
  ((source :: inner).zip (labels.zip inner), numbers)

/-- `append-map`, with the numbers of the states -/
def tracesLtsTriples (numbers : StateNumbers) (pc : ProgramCounter) (source : Nat) :
    List (List String × ProgramCounter) → List Triple × StateNumbers
  | [] => ([], numbers)
  | trace :: traces =>
    let (triples, numbers) := traceLtsTriples numbers pc source trace
    let (rest, numbers) := tracesLtsTriples numbers pc source traces
    (triples ++ rest, numbers)

/-- `transition->aut`, for all states -/
def transitionsAut (numbers : StateNumbers) : List RtcState → List Triple × StateNumbers
  | [] => ([], numbers)
  | state :: lts =>
    let (triples, numbers) := tracesLtsTriples numbers state.pc state.number state.transitions
    let (rest, numbers) := transitionsAut numbers lts
    (triples.eraseDups ++ rest, numbers)

/-- `rtc-lts->lts`, with the states of the table in the order that they are visited; also the table after it. -/
def rtcLtsLts (numbers : StateNumbers) (lts : List RtcState) : List Triple × StateNumbers :=
  let (triples, numbers) := transitionsAut numbers lts
  ((0, "<illegal>", 0) :: triples, numbers)

/-- The header of `lts->aut`: the initial state, the number of transitions and the number of states. -/
def autHeader (lts : List Triple) (stateCount : Nat) : Nat × Nat × Nat := (1, lts.length, stateCount)

/-- The lines of `lts->aut` -/
def ltsAut (lts : List Triple) (stateCount : Nat) : List String :=
  let (initial, transitions, states) := autHeader lts stateCount
  ("des (" ++ toString initial ++ "," ++ toString transitions ++ "," ++ toString states ++ ")") ::
    lts.map fun (source, step, target) => "(" ++ toString source ++ "," ++ reprStr step ++ "," ++ toString target ++ ")"

/-! ## Numbers are given once -/

/-- The numbers below the count are given, each to one key. -/
structure StateNumbers.Ok (numbers : StateNumbers) : Prop where
  below : ∀ {s n}, numbers.table s = some n → n < numbers.count
  once : ∀ {s s' n}, numbers.table s = some n → numbers.table s' = some n → s = s'
  given : ∀ {n}, n < numbers.count → ∃ s, numbers.table s = some n

/-- The keys that have numbers keep them. -/
def StateNumbers.Extends (numbers numbers' : StateNumbers) : Prop :=
  ∀ s n, numbers.table s = some n → numbers'.table s = some n

section
variable {numbers numbers' numbers'' : StateNumbers} {pc : ProgramCounter} {trail : Option String} {s : String} {n : Nat}

theorem StateNumbers.Extends.trans (h : numbers.Extends numbers') (h' : numbers'.Extends numbers'') :
    numbers.Extends numbers'' := fun s n hs => h' s n (h s n hs)

theorem initial_ok : StateNumbers.initial.Ok where
  below := by
    intro s n h
    by_cases hs : s = "<illegal>"
    · simp [StateNumbers.initial, hs] at h
      simp [StateNumbers.initial, ← h]
    · simp [StateNumbers.initial, hs] at h
  once := by
    intro s s' n h h'
    by_cases hs : s = "<illegal>" <;> by_cases hs' : s' = "<illegal>" <;> simp_all [StateNumbers.initial]
  given := by
    intro n hn
    exact ⟨"<illegal>", by simp [StateNumbers.initial] at hn ⊢; exact hn.symm⟩

/-- The keys have numbers, and no other keys are new. -/
structure StateNumbers.Adds (numbers : StateNumbers) (keys : List String) (numbers' : StateNumbers) : Prop where
  ok : numbers.Ok → numbers'.Ok
  extend : numbers.Extends numbers'
  has : ∀ s ∈ keys, ∃ n, numbers'.table s = some n
  new : ∀ {s n}, numbers'.table s = some n → numbers.table s = some n ∨ s ∈ keys

theorem StateNumbers.Adds.nil (numbers : StateNumbers) : numbers.Adds [] numbers :=
  ⟨id, fun _ _ h => h, by simp, .inl⟩

theorem StateNumbers.Adds.append {keys keys' : List String} (h : numbers.Adds keys numbers')
    (h' : numbers'.Adds keys' numbers'') : numbers.Adds (keys ++ keys') numbers'' where
  ok := h'.ok ∘ h.ok
  extend := h.extend.trans h'.extend
  has := by
    intro s hs
    rcases List.mem_append.1 hs with hs | hs
    · obtain ⟨n, hn⟩ := h.has s hs
      exact ⟨n, h'.extend s n hn⟩
    · exact h'.has s hs
  new := by
    intro s n hs
    rcases h'.new hs with hs | hs
    · rcases h.new hs with hs | hs
      · exact .inl hs
      · exact .inr (List.mem_append_left _ hs)
    · exact .inr (List.mem_append_right _ hs)

/-- What `pc->state-number` does. -/
theorem StateNumbers.number_adds (hcall : numbers.number pc trail = (n, numbers')) :
    numbers.Adds [pcKey pc trail] numbers' ∧ numbers'.table (pcKey pc trail) = some n := by
  unfold StateNumbers.number at hcall
  cases htable : numbers.table (pcKey pc trail) with
  | some next =>
    simp only [htable] at hcall
    cases hcall
    exact ⟨⟨id, fun s n hs => hs, by simpa using ⟨n, htable⟩, .inl⟩, htable⟩
  | none =>
    simp only [htable] at hcall
    cases hcall
    have hself := Function.update_self (pcKey pc trail) (some numbers.count) numbers.table
    have hnew : ∀ {s n}, Function.update numbers.table (pcKey pc trail) (some numbers.count) s = some n →
        s = pcKey pc trail ∧ n = numbers.count ∨ s ≠ pcKey pc trail ∧ numbers.table s = some n := by
      intro s n hs
      by_cases heq : s = pcKey pc trail
      · subst heq
        rw [hself] at hs
        exact .inl ⟨rfl, (Option.some.inj hs).symm⟩
      · rw [Function.update_of_ne heq] at hs
        exact .inr ⟨heq, hs⟩
    have hold : ∀ {s n}, numbers.table s = some n →
        Function.update numbers.table (pcKey pc trail) (some numbers.count) s = some n := by
      intro s n hs
      rw [Function.update_of_ne]
      · exact hs
      · rintro rfl
        rw [htable] at hs
        cases hs
    refine ⟨⟨fun h => ⟨?_, ?_, ?_⟩, fun s n hs => hold hs, by simp, ?_⟩, hself⟩
    · intro s n hs
      rcases hnew hs with ⟨-, rfl⟩ | ⟨-, hs⟩
      · exact Nat.lt_succ_self _
      · exact Nat.lt_succ_of_lt (h.below hs)
    · intro s s' n hs hs'
      rcases hnew hs with ⟨rfl, rfl⟩ | ⟨-, hs⟩ <;> rcases hnew hs' with ⟨rfl, hn⟩ | ⟨-, hs'⟩
      · rfl
      · exact absurd (h.below hs') (Nat.lt_irrefl _)
      · subst hn
        exact absurd (h.below hs) (Nat.lt_irrefl _)
      · exact h.once hs hs'
    · intro n hn
      rcases Nat.lt_succ_iff_lt_or_eq.1 hn with hn | rfl
      · obtain ⟨s, hs⟩ := h.given hn
        exact ⟨s, hold hs⟩
      · exact ⟨_, hself⟩
    · intro s n hs
      rcases hnew hs with ⟨rfl, -⟩ | ⟨-, hs⟩
      · exact .inr List.mem_cons_self
      · exact .inl hs

/-- The number of a key. -/
def StateNumbers.numberOf (numbers : StateNumbers) (key : String) : Nat := (numbers.table key).getD 0

theorem StateNumbers.numberOf_eq (h : numbers.table s = some n) : numbers.numberOf s = n := by
  rw [StateNumbers.numberOf, h, Option.getD_some]

theorem StateNumbers.table_numberOf (h : ∃ n, numbers.table s = some n) :
    numbers.table s = some (numbers.numberOf s) := by
  obtain ⟨n, h⟩ := h
  rw [numberOf_eq h, h]

theorem StateNumbers.Extends.numberOf (hext : numbers.Extends numbers') (h : ∃ n, numbers.table s = some n) :
    numbers'.numberOf s = numbers.numberOf s :=
  numberOf_eq (hext s _ (table_numberOf h))

end

/-! ## Keys are told apart -/

/-- A label has no space or bracket, and no digit after a colon: an event, a value, a field of an enum or a status. -/
structure Label (s : String) : Prop where
  space : ' ' ∉ s.toList
  bracket : ']' ∉ s.toList
  colon : ∀ a d b, s.toList = a ++ ':' :: d :: b → d.isDigit = false

/-- A text of program counters, where a space is marked. -/
def Plain (s : String) : Prop := Lines.Follows ' ' Marked s.toList

/-- What is after a colon does not begin with a digit. -/
def NotDigit (s : List Char) : Prop := ∃ d t, s = d :: t ∧ d.isDigit = false

theorem notDigit_stable : Stable NotDigit := by
  rintro y t ⟨d, s, rfl, hd⟩
  exact ⟨d, s ++ t, rfl, hd⟩

/-- Labels with a space between them. -/
structure Labels (w : List Char) : Prop where
  bracket : ']' ∉ w
  colon : Lines.Follows ':' NotDigit (w ++ [' '])

theorem Label.labels {s : String} (h : Label s) : Labels s.toList where
  bracket := h.bracket
  colon := by
    intro x y heq
    rcases List.append_eq_append_iff.1 heq with ⟨a, -, ha⟩ | ⟨b, hb, hy⟩
    · cases a with
      | nil => cases ha
      | cons c a =>
        obtain ⟨-, ha⟩ := List.cons.inj ha
        simp at ha
    · cases b with
      | nil => cases hy
      | cons c b =>
        obtain ⟨rfl, rfl⟩ := List.cons.inj hy
        cases b with
        | nil => exact ⟨' ', [], rfl, rfl⟩
        | cons d b => exact ⟨d, b ++ [' '], rfl, h.colon x d b hb⟩

theorem labels_intercalate {p : List String} (hp : ∀ s ∈ p, Label s) (hne : p ≠ []) :
    Labels (" ".intercalate p).toList := by
  induction p with
  | nil => exact absurd rfl hne
  | cons s p ih =>
    have hs := (hp s List.mem_cons_self).labels
    cases p with
    | nil => simpa using hs
    | cons s' p =>
      have hrest := ih (fun x hx => hp x (List.mem_cons_of_mem s hx)) (by simp)
      rw [String.intercalate_cons_cons]
      refine ⟨?_, ?_⟩
      · have hbracket := hrest.bracket
        simp only [String.toList_append, List.mem_append, not_or]
        exact ⟨⟨hs.bracket, by decide⟩, hbracket⟩
      · have h := hs.colon.append notDigit_stable hrest.colon
        simpa using h

section
variable {t t' w w' u : List Char}

/-- In a text of program counters no space has labels behind it. -/
theorem Labels.not_marked (h : Labels (u ++ w)) : ¬ Marked ('t' :: ':' :: u) := by
  rintro (hhead | hhead | hbracket | ⟨a, c, d, b, heq, hc, hd⟩)
  · cases hhead
  · cases hhead
  · have hmem : ']' ∈ u := by simpa using hbracket
    exact h.bracket (List.mem_append_left w hmem)
  · have hu : ∃ a', u = a' ++ c :: ':' :: d :: b := by
      cases a with
      | nil =>
        obtain ⟨rfl, -⟩ := List.cons.inj heq
        cases hc
      | cons e a =>
        obtain ⟨-, heq⟩ := List.cons.inj heq
        cases a with
        | nil =>
          obtain ⟨rfl, -⟩ := List.cons.inj heq
          cases hc
        | cons e' a => exact ⟨a, (List.cons.inj heq).2⟩
    obtain ⟨a', rfl⟩ := hu
    obtain ⟨e, s, hes, he⟩ := h.colon (a' ++ [c]) (d :: b ++ w ++ [' ']) (by simp)
    obtain ⟨rfl, -⟩ := List.cons.inj hes
    rw [hd] at he
    cases he

/-- The text of a key is not longer than another. -/
theorem key_text (ht : Lines.Follows ' ' Marked t') (hw : Labels w) {a : List Char} (ha : t' = t ++ a)
    (heq : ' ' :: 't' :: ':' :: w = a ++ ' ' :: 't' :: ':' :: w') : a = [] := by
  rcases a with _ | ⟨c, _ | ⟨c', _ | ⟨c'', u⟩⟩⟩
  · rfl
  · simp at heq
  · simp at heq
  · simp only [List.cons_append, List.cons.injEq] at heq
    obtain ⟨rfl, rfl, rfl, rfl⟩ := heq
    exact absurd (ht t _ ha) hw.not_marked

theorem key_inj (ht : Lines.Follows ' ' Marked t) (ht' : Lines.Follows ' ' Marked t') (hw : Labels w) (hw' : Labels w')
    (heq : t ++ ' ' :: 't' :: ':' :: w = t' ++ ' ' :: 't' :: ':' :: w') : t = t' ∧ w = w' := by
  rcases List.append_eq_append_iff.1 heq with ⟨a, ha, hrest⟩ | ⟨b, hb, hrest⟩
  · obtain rfl := key_text ht' hw ha hrest
    rw [List.append_nil] at ha
    subst ha
    simpa using heq
  · obtain rfl := key_text ht hw' hb hrest
    rw [List.append_nil] at hb
    subst hb
    simpa using heq

end

section
variable {pc pc' : ProgramCounter} {p p' : List String}

theorem toList_pcKey (pc : ProgramCounter) (trail : String) :
    (pcKey pc (some trail)).toList = pc.text.toList ++ ' ' :: 't' :: ':' :: trail.toList := by
  simp [pcKey]

/-- A key with labels is not that of a program counter. -/
theorem pcKey_not_plain (hp : ∀ s ∈ p, Label s) (hne : p ≠ []) : ¬ Plain (pcKey pc (some (" ".intercalate p))) := by
  intro hplain
  have hlabels := labels_intercalate hp hne
  have hmarked := hplain _ _ (toList_pcKey pc _)
  exact Labels.not_marked (w := []) (by simpa using hlabels) hmarked

/-- Keys with labels differ when the text or the labels do. -/
theorem pcKey_inj (hpc : pc.WellNamed) (hpc' : pc'.WellNamed) (hp : ∀ s ∈ p, Label s) (hne : p ≠ [])
    (hp' : ∀ s ∈ p', Label s) (hne' : p' ≠ [])
    (heq : pcKey pc (some (" ".intercalate p)) = pcKey pc' (some (" ".intercalate p'))) :
    pc.text = pc'.text ∧ p = p' := by
  have hlist := congrArg String.toList heq
  rw [toList_pcKey, toList_pcKey] at hlist
  obtain ⟨htext, hw⟩ := key_inj hpc.text_marked hpc'.text_marked (labels_intercalate hp hne)
    (labels_intercalate hp' hne') hlist
  refine ⟨String.toList_inj.1 htext, ?_⟩
  have hsplit : ∀ {q : List String}, (∀ s ∈ q, Label s) → q ≠ [] →
      (" ".intercalate q).toList.splitOn ' ' = q.map String.toList := by
    intro q hq hqne
    rw [String.toList_intercalate]
    exact List.splitOn_intercalate ' ' (by simpa using fun s hs => (hq s hs).space) (by simpa using hqne)
  have hmap := hsplit hp hne
  rw [hw, hsplit hp' hne'] at hmap
  exact (List.map_injective_iff.2 (fun _ _ h => String.toList_inj.1 h) hmap).symm

end

/-! ## The triples, by the table after them -/

/-- The key of a state inside a trace of a program counter, after the labels. -/
def innerKey (pc : ProgramCounter) (p : List String) : String := pcKey pc (some (" ".intercalate p))

/-- The keys that a trace needs. -/
def traceKeys (pc : ProgramCounter) (trace : List String × ProgramCounter) : List String :=
  pcKey trace.2 none :: (trailPrefixes (stepLabels trace.1)).map fun trail => pcKey pc (some trail)

/-- `trace->lts-triples`, when the keys have numbers. -/
def traceTriples (numbers : StateNumbers) (pc : ProgramCounter) (source : Nat)
    (trace : List String × ProgramCounter) : List Triple :=
  Unfold.chain source (numbers.numberOf (pcKey trace.2 none)) (fun p => numbers.numberOf (innerKey pc p)) (stepLabels trace.1)

/-- `transition->aut`, when the keys have numbers. -/
def stateTriples (numbers : StateNumbers) (state : RtcState) : List Triple :=
  (state.transitions.flatMap (traceTriples numbers state.pc state.number)).eraseDups

section
variable {numbers numbers' numbers'' : StateNumbers} {pc : ProgramCounter} {source : Nat}
  {trace : List String × ProgramCounter} {triples : List Triple}

theorem numberAll_adds {trails : List String} {ns : List Nat} (hcall : numbers.numberAll pc trails = (ns, numbers')) :
    numbers.Adds (trails.map fun trail => pcKey pc (some trail)) numbers' ∧
      ns = trails.map fun trail => numbers'.numberOf (pcKey pc (some trail)) := by
  induction trails generalizing numbers ns with
  | nil =>
    cases hcall
    exact ⟨.nil _, rfl⟩
  | cons trail trails ih =>
    rw [StateNumbers.numberAll] at hcall
    obtain ⟨n, numbers₁, hnumber⟩ : ∃ n numbers₁, numbers.number pc (some trail) = (n, numbers₁) := ⟨_, _, rfl⟩
    obtain ⟨ns', numbers₂, hall⟩ : ∃ ns' numbers₂, numbers₁.numberAll pc trails = (ns', numbers₂) := ⟨_, _, rfl⟩
    simp only [hnumber, hall] at hcall
    cases hcall
    obtain ⟨hadds, htable⟩ := StateNumbers.number_adds hnumber
    obtain ⟨hadds', rfl⟩ := ih hall
    refine ⟨hadds.append hadds', ?_⟩
    rw [List.map_cons, StateNumbers.numberOf_eq (hadds'.extend _ _ htable)]

theorem trailPrefixes_map {α : Type} (g : String → α) (l : List String) :
    (trailPrefixes l).map g = (List.range' 1 (l.length - 1)).map fun n => g (" ".intercalate (l.take n)) := by
  rw [trailPrefixes, List.map_map]
  rfl

theorem traceLtsTriples_adds (hcall : traceLtsTriples numbers pc source trace = (triples, numbers')) :
    numbers.Adds (traceKeys pc trace) numbers' ∧ triples = traceTriples numbers' pc source trace := by
  rw [traceLtsTriples] at hcall
  obtain ⟨target, numbers₁, hnumber⟩ : ∃ n numbers₁, numbers.number trace.2 none = (n, numbers₁) := ⟨_, _, rfl⟩
  obtain ⟨inner, numbers₂, hall⟩ : ∃ ns numbers₂,
    numbers₁.numberAll pc (trailPrefixes (stepLabels trace.1)) = (ns, numbers₂) := ⟨_, _, rfl⟩
  simp only [hnumber, trailStateNumbers, hall] at hcall
  cases hcall
  obtain ⟨hadds, htable⟩ := StateNumbers.number_adds hnumber
  obtain ⟨hadds', rfl⟩ := numberAll_adds hall
  refine ⟨hadds.append hadds', ?_⟩
  rw [traceTriples, Unfold.chain, StateNumbers.numberOf_eq (hadds'.extend _ _ htable), trailPrefixes_map]
  rfl

/-- More numbers do not change the triples. -/
theorem traceTriples_extends (hext : numbers.Extends numbers')
    (hkeys : ∀ s ∈ traceKeys pc trace, ∃ n, numbers.table s = some n) :
    traceTriples numbers' pc source trace = traceTriples numbers pc source trace := by
  have hinner : ∀ n ∈ List.range' 1 ((stepLabels trace.1).length - 1),
      numbers'.numberOf (innerKey pc ((stepLabels trace.1).take n)) =
        numbers.numberOf (innerKey pc ((stepLabels trace.1).take n)) := by
    intro n hn
    refine hext.numberOf (hkeys _ (List.mem_cons_of_mem _ ?_))
    rw [trailPrefixes_map]
    exact List.mem_map_of_mem hn
  rw [traceTriples, traceTriples, Unfold.chain, Unfold.chain, hext.numberOf (hkeys _ List.mem_cons_self), List.map_congr_left hinner]

theorem tracesLtsTriples_adds {traces : List (List String × ProgramCounter)}
    (hcall : tracesLtsTriples numbers pc source traces = (triples, numbers')) :
    numbers.Adds (traces.flatMap (traceKeys pc)) numbers' ∧
      triples = traces.flatMap (traceTriples numbers' pc source) := by
  induction traces generalizing numbers triples with
  | nil =>
    cases hcall
    exact ⟨.nil _, rfl⟩
  | cons trace traces ih =>
    rw [tracesLtsTriples] at hcall
    obtain ⟨first, numbers₁, hfirst⟩ : ∃ t n, traceLtsTriples numbers pc source trace = (t, n) := ⟨_, _, rfl⟩
    obtain ⟨rest, numbers₂, hrest⟩ : ∃ t n, tracesLtsTriples numbers₁ pc source traces = (t, n) := ⟨_, _, rfl⟩
    simp only [hfirst, hrest] at hcall
    cases hcall
    obtain ⟨hadds, rfl⟩ := traceLtsTriples_adds hfirst
    obtain ⟨hadds', rfl⟩ := ih hrest
    refine ⟨hadds.append hadds', ?_⟩
    rw [List.flatMap_cons, traceTriples_extends hadds'.extend hadds.has]

theorem stateTriples_extends {state : RtcState} (hext : numbers.Extends numbers')
    (hkeys : ∀ s ∈ state.transitions.flatMap (traceKeys state.pc), ∃ n, numbers.table s = some n) :
    stateTriples numbers' state = stateTriples numbers state := by
  rw [stateTriples, stateTriples, List.flatMap_congr fun trace htrace =>
    traceTriples_extends hext fun s hs => hkeys s (List.mem_flatMap_of_mem htrace hs)]

theorem transitionsAut_adds {lts : List RtcState} (hcall : transitionsAut numbers lts = (triples, numbers')) :
    numbers.Adds (lts.flatMap fun state => state.transitions.flatMap (traceKeys state.pc)) numbers' ∧
      triples = lts.flatMap (stateTriples numbers') := by
  induction lts generalizing numbers triples with
  | nil =>
    cases hcall
    exact ⟨.nil _, rfl⟩
  | cons state lts ih =>
    rw [transitionsAut] at hcall
    obtain ⟨first, numbers₁, hfirst⟩ : ∃ t n,
      tracesLtsTriples numbers state.pc state.number state.transitions = (t, n) := ⟨_, _, rfl⟩
    obtain ⟨rest, numbers₂, hrest⟩ : ∃ t n, transitionsAut numbers₁ lts = (t, n) := ⟨_, _, rfl⟩
    simp only [hfirst, hrest] at hcall
    cases hcall
    obtain ⟨hadds, rfl⟩ := tracesLtsTriples_adds hfirst
    obtain ⟨hadds', rfl⟩ := ih hrest
    refine ⟨hadds.append hadds', ?_⟩
    rw [List.flatMap_cons, stateTriples_extends hadds'.extend hadds.has]
    rfl

end

/-! ## The same words -/

/-- A transition of a run-to-completion LTS, by the table of numbers. -/
inductive RtcTransition (numbers : StateNumbers) (lts : List RtcState) : Nat → List String → Nat → Prop
  | mk {state : RtcState} {trace : List String × ProgramCounter} {target : Nat} : state ∈ lts →
    trace ∈ state.transitions → numbers.table (pcKey trace.2 none) = some target →
    RtcTransition numbers lts state.number trace.1 target

/-- A step between states: a transition without labels has one, and state 0 has a loop. -/
inductive RtcStep (numbers : StateNumbers) (lts : List RtcState) : Nat → List String → Nat → Prop
  | illegal : RtcStep numbers lts 0 ["<illegal>"] 0
  | labels {a b : Nat} {l : List String} : RtcTransition numbers lts a l b → RtcStep numbers lts a (stepLabels l) b

/-- A state that is no state inside a trace: one that is numbered before, or where a transition ends. -/
def IsRtcState (before after : StateNumbers) (lts : List RtcState) (n : Nat) : Prop :=
  n < before.count ∨ ∃ a l, RtcTransition after lts a l n

/-- The states inside the traces of a state. -/
def innerNode (numbers : StateNumbers) (lts : List RtcState) (a : Nat) (p : List String) : Nat :=
  ((lts.find? fun state => state.number == a).map fun state => numbers.numberOf (innerKey state.pc p)).getD 0

/-- A map of rtc states, with the table of their numbers. -/
structure RtcLtsOk (numbers : StateNumbers) (lts : List RtcState) : Prop where
  ok : numbers.Ok
  illegal : numbers.table "<illegal>" = some 0
  plain : ∀ {s n}, numbers.table s = some n → Plain s
  number : ∀ state ∈ lts, state.number < numbers.count
  numbers : (lts.map RtcState.number).Nodup
  texts : (lts.map fun state => state.pc.text).Nodup
  named : ∀ state ∈ lts, state.pc.WellNamed
  targets : ∀ state ∈ lts, ∀ trace ∈ state.transitions, trace.2.WellNamed
  labels : ∀ state ∈ lts, ∀ trace ∈ state.transitions, ∀ s ∈ trace.1, Label s

theorem label_tau : Label "tau" where
  space := by decide
  bracket := by decide
  colon := by
    intro a d b heq
    have hmem : ':' ∈ "tau".toList := by rw [heq]; simp
    exact absurd hmem (by decide)

theorem stepLabels_ne (l : List String) : stepLabels l ≠ [] := by
  rw [stepLabels]
  split
  · simp
  · assumption

theorem label_stepLabels {l : List String} (h : ∀ s ∈ l, Label s) : ∀ s ∈ stepLabels l, Label s := by
  rw [stepLabels]
  split
  · simpa using label_tau
  · exact h

section
variable {numbers after : StateNumbers} {lts : List RtcState} {triples : List Triple} {state state' : RtcState}
  {trace trace' : List String × ProgramCounter} {a b n : Nat} {x : String} {p r p' r' : List String}

theorem RtcLtsOk.find (h : RtcLtsOk numbers lts) (hstate : state ∈ lts) :
    innerNode after lts state.number p = after.numberOf (innerKey state.pc p) := by
  have hfind : lts.find? (fun s => s.number == state.number) = some state := by
    have hsome : (lts.find? fun s => s.number == state.number).isSome :=
      List.find?_isSome.2 ⟨state, hstate, beq_self_eq_true state.number⟩
    obtain ⟨found, hfound⟩ := Option.isSome_iff_exists.1 hsome
    have hnumber : found.number = state.number := by simpa using List.find?_some hfound
    have heq := List.inj_on_of_nodup_map h.numbers (List.mem_of_find?_eq_some hfound) hstate hnumber
    rw [hfound, heq]
  rw [innerNode, hfind]
  rfl

/-- What is needed of the table after all triples. -/
structure Unfolding (numbers after : StateNumbers) (lts : List RtcState) : Prop where
  ok : RtcLtsOk numbers lts
  adds : numbers.Adds (lts.flatMap fun state => state.transitions.flatMap (traceKeys state.pc)) after

theorem Unfolding.table_key (h : Unfolding numbers after lts) (hstate : state ∈ lts) (htrace : trace ∈ state.transitions)
    {s : String} (hs : s ∈ traceKeys state.pc trace) : after.table s = some (after.numberOf s) :=
  StateNumbers.table_numberOf (h.adds.has s (List.mem_flatMap_of_mem hstate (List.mem_flatMap_of_mem htrace hs)))

theorem mem_traceKeys (h : stepLabels trace.1 = p ++ x :: r) (hp : p ≠ []) :
    innerKey state.pc p ∈ traceKeys state.pc trace := by
  refine List.mem_cons_of_mem _ ?_
  rw [trailPrefixes_map]
  have hpos := List.length_pos_iff.2 hp
  refine List.mem_map.2 ⟨p.length, List.mem_range'_1.2 ⟨hpos, ?_⟩, ?_⟩
  · simp [h]
    omega
  · simp [h, innerKey]

/-- A key in the table is that of a state inside a trace, or has no labels. -/
theorem Unfolding.plain (h : Unfolding numbers after lts) {s : String} (hn : IsRtcState numbers after lts n)
    (hs : after.table s = some n) : Plain s := by
  rcases hn with hn | ⟨a, l, ⟨hstate, htrace, htarget⟩⟩
  · obtain ⟨s', hs'⟩ := h.ok.ok.given hn
    obtain rfl := (h.adds.ok h.ok.ok).once hs (h.adds.extend _ _ hs')
    exact h.ok.plain hs'
  · obtain rfl := (h.adds.ok h.ok.ok).once hs htarget
    exact (h.ok.targets _ hstate _ htrace).text_marked

theorem Unfolding.source (h : Unfolding numbers after lts) {l : List String} (hstep : RtcStep after lts a l b) :
    a < numbers.count := by
  cases hstep with
  | illegal => exact h.ok.ok.below h.ok.illegal
  | labels htransition =>
    obtain ⟨hstate, -, -⟩ := htransition
    exact h.ok.number _ hstate

/-- Steps with inner states are transitions. -/
theorem RtcStep.inner {l : List String} (hstep : RtcStep after lts a l b) (hl : l = p ++ x :: r) (hp : p ≠ []) :
    ∃ state ∈ lts, ∃ trace ∈ state.transitions, a = state.number ∧ stepLabels trace.1 = p ++ x :: r := by
  cases hstep with
  | illegal =>
    obtain ⟨y, p, rfl⟩ := List.exists_cons_of_ne_nil hp
    simp at hl
  | labels htransition =>
    obtain ⟨hstate, htrace, -⟩ := htransition
    exact ⟨_, hstate, _, htrace, rfl, hl⟩

theorem Unfolding.labels (h : Unfolding numbers after lts) (hstate : state ∈ lts) (htrace : trace ∈ state.transitions)
    (hl : stepLabels trace.1 = p ++ x :: r) : ∀ s ∈ p, Label s := by
  intro s hs
  refine label_stepLabels (h.ok.labels _ hstate _ htrace) s ?_
  rw [hl]
  exact List.mem_append_left _ hs

/-- A state inside a trace is not one between traces. -/
theorem Unfolding.fresh (h : Unfolding numbers after lts) (hstate : state ∈ lts) (htrace : trace ∈ state.transitions)
    (hl : stepLabels trace.1 = p ++ x :: r) (hp : p ≠ []) :
    ¬ IsRtcState numbers after lts (after.numberOf (innerKey state.pc p)) := by
  intro hn
  exact pcKey_not_plain (h.labels hstate htrace hl) hp
    (h.plain hn (h.table_key hstate htrace (mem_traceKeys hl hp)))

/-- States inside traces are shared with a common prefix from one state. -/
theorem Unfolding.apart (h : Unfolding numbers after lts) (hstate : state ∈ lts) (htrace : trace ∈ state.transitions)
    (hl : stepLabels trace.1 = p ++ x :: r) (hp : p ≠ []) (hstate' : state' ∈ lts)
    (htrace' : trace' ∈ state'.transitions) {x' : String} (hl' : stepLabels trace'.1 = p' ++ x' :: r') (hp' : p' ≠ [])
    (heq : after.numberOf (innerKey state.pc p) = after.numberOf (innerKey state'.pc p')) :
    state = state' ∧ p = p' := by
  have hkey := h.table_key hstate htrace (mem_traceKeys hl hp)
  have hkey' := h.table_key hstate' htrace' (mem_traceKeys hl' hp')
  rw [heq] at hkey
  have hsame := (h.adds.ok h.ok.ok).once hkey hkey'
  obtain ⟨htext, rfl⟩ := pcKey_inj (h.ok.named _ hstate) (h.ok.named _ hstate') (h.labels hstate htrace hl) hp
    (h.labels hstate' htrace' hl') hp' hsame
  exact ⟨List.inj_on_of_nodup_map h.ok.texts hstate hstate' htext, rfl⟩

theorem Unfolding.separate (h : Unfolding numbers after lts) :
    Separate (IsRtcState numbers after lts) (RtcStep after lts) (innerNode after lts) where
  nonempty := by
    intro a l b hstep
    cases hstep with
    | illegal => simp
    | labels _ => exact stepLabels_ne _
  source hstep := .inl (h.source hstep)
  target := by
    intro a l b hstep
    cases hstep with
    | illegal => exact .inl (h.source .illegal)
    | labels htransition => exact .inr ⟨_, _, htransition⟩
  fresh := by
    intro a p x r b hstep hp
    obtain ⟨state, hstate, trace, htrace, rfl, hl⟩ := hstep.inner rfl hp
    rw [h.ok.find hstate]
    exact h.fresh hstate htrace hl hp
  apart := by
    intro a p x r b a' p' x' r' b' hstep hstep' hp hp' heq
    obtain ⟨state, hstate, trace, htrace, rfl, hl⟩ := hstep.inner rfl hp
    obtain ⟨state', hstate', trace', htrace', rfl, hl'⟩ := hstep'.inner rfl hp'
    rw [h.ok.find hstate, h.ok.find hstate'] at heq
    obtain ⟨rfl, rfl⟩ := h.apart hstate htrace hl hp hstate' htrace' hl' hp' heq
    exact ⟨rfl, rfl⟩

theorem mem_stateTriples {triple : Triple} : triple ∈ stateTriples after state ↔
    ∃ trace ∈ state.transitions, triple ∈ traceTriples after state.pc state.number trace := by
  rw [stateTriples, List.mem_eraseDups, List.mem_flatMap]

/-- The triples are the letters of the steps. -/
theorem Unfolding.mem_iff (h : Unfolding numbers after lts) :
    (a, x, b) ∈ (0, "<illegal>", 0) :: lts.flatMap (stateTriples after) ↔
      Letter (RtcStep after lts) (innerNode after lts) a x b := by
  have hnode : ∀ {state : RtcState} {p : List String}, state ∈ lts →
      node (fun _ p => after.numberOf (innerKey state.pc p)) state.number p =
        node (innerNode after lts) state.number p := by
    intro state p hstate
    rw [node, node, h.ok.find hstate]
  constructor
  · intro hmem
    rcases List.mem_cons.1 hmem with heq | hmem
    · cases heq
      exact .mk (p := []) (r := []) .illegal
    · obtain ⟨state, hstate, hmem⟩ := List.mem_flatMap.1 hmem
      obtain ⟨trace, htrace, hmem⟩ := mem_stateTriples.1 hmem
      obtain ⟨p, r, hl, rfl, rfl⟩ := mem_chain.1 hmem
      have htransition : RtcTransition after lts state.number trace.1 (after.numberOf (pcKey trace.2 none)) :=
        .mk hstate htrace (h.table_key hstate htrace List.mem_cons_self)
      have hstep := RtcStep.labels htransition
      rw [hl] at hstep
      rw [hnode hstate, ← h.ok.find hstate]
      exact .mk hstep
  · rintro ⟨hstep⟩
    rename_i a b p r
    generalize hl : p ++ x :: r = l at hstep
    cases hstep with
    | illegal =>
      obtain ⟨rfl, rfl, rfl⟩ : p = [] ∧ x = "<illegal>" ∧ r = [] := by
        cases p with
        | nil => simpa using hl
        | cons y p => simp at hl
      exact List.mem_cons_self
    | labels htransition =>
      obtain ⟨hstate, htrace, htarget⟩ := htransition
      refine List.mem_cons_of_mem _ (List.mem_flatMap_of_mem hstate (mem_stateTriples.2 ⟨_, htrace, ?_⟩))
      refine mem_chain.2 ⟨p, r, hl.symm, (hnode hstate).symm, ?_⟩
      rw [StateNumbers.numberOf_eq htarget, h.ok.find hstate]

/-- Every key that a trace needs is that of a target. -/
theorem target_mem_chain {s : String} (hs : s ∈ traceKeys state.pc trace) :
    ∃ c x, (c, x, after.numberOf s) ∈ traceTriples after state.pc state.number trace := by
  rcases List.mem_cons.1 hs with rfl | hs
  · obtain ⟨l, x, hl⟩ := (List.eq_nil_or_concat' (stepLabels trace.1)).resolve_left (stepLabels_ne _)
    exact ⟨_, x, mem_chain.2 ⟨l, [], hl, rfl, (if_pos rfl).symm⟩⟩
  · rw [trailPrefixes_map] at hs
    obtain ⟨n, hn, rfl⟩ := List.mem_map.1 hs
    obtain ⟨hpos, hlt⟩ := List.mem_range'_1.1 hn
    have hlen : n - 1 < (stepLabels trace.1).length := by omega
    have htake : (stepLabels trace.1).take (n - 1) ++ [(stepLabels trace.1)[n - 1]] = (stepLabels trace.1).take n := by
      rw [List.take_append_getElem hlen, Nat.sub_add_cancel hpos]
    have hrest : (stepLabels trace.1).drop n ≠ [] := by
      rw [ne_eq, List.drop_eq_nil_iff]
      omega
    refine ⟨_, (stepLabels trace.1)[n - 1],
      mem_chain.2 ⟨(stepLabels trace.1).take (n - 1), (stepLabels trace.1).drop n, ?_, rfl, ?_⟩⟩
    · rw [← List.singleton_append, ← List.append_assoc, htake, List.take_append_drop]
    · rw [if_neg hrest, htake]
      rfl

theorem Unfolding.before (h : Unfolding numbers after lts) (hn : n < numbers.count) : n < after.count := by
  obtain ⟨s, hs⟩ := h.ok.ok.given hn
  exact (h.adds.ok h.ok.ok).below (h.adds.extend s n hs)

theorem Unfolding.below (h : Unfolding numbers after lts)
    (hmem : (a, x, b) ∈ (0, "<illegal>", 0) :: lts.flatMap (stateTriples after)) :
    a < after.count ∧ b < after.count := by
  have hok := h.adds.ok h.ok.ok
  have hinner : ∀ {state trace p x r}, state ∈ lts → trace ∈ state.transitions → stepLabels trace.1 = p ++ x :: r →
      p ≠ [] → after.numberOf (innerKey state.pc p) < after.count := fun hstate htrace hl hp =>
    hok.below (h.table_key hstate htrace (mem_traceKeys hl hp))
  rcases List.mem_cons.1 hmem with heq | hmem
  · cases heq
    exact ⟨h.before (h.source .illegal), h.before (h.source .illegal)⟩
  · obtain ⟨state, hstate, hmem⟩ := List.mem_flatMap.1 hmem
    obtain ⟨trace, htrace, hmem⟩ := mem_stateTriples.1 hmem
    obtain ⟨p, r, hl, rfl, rfl⟩ := mem_chain.1 hmem
    constructor
    · rw [node]
      split
      · exact h.before (h.ok.number _ hstate)
      · exact hinner hstate htrace hl ‹_›
    · split
      · exact hok.below (h.table_key hstate htrace List.mem_cons_self)
      · obtain ⟨y, r, rfl⟩ := List.exists_cons_of_ne_nil ‹_›
        exact hinner (x := y) (r := r) hstate htrace (by simp [hl]) (by simp)

end

/-- What an LTS and its table are, for a run-to-completion LTS. -/
structure Unfolded (numbers : StateNumbers) (lts : List RtcState) (lts' : List Triple) (after : StateNumbers) : Prop where
  /-- Between states there are the same words. -/
  words : ∀ {a b w}, IsRtcState numbers after lts a → IsRtcState numbers after lts b →
    (LetterPath (fun a x b => (a, x, b) ∈ lts') a w b ↔ WordPath (RtcStep after lts) a w b)
  /-- A transition is a chain of its labels. -/
  chains : ∀ state ∈ lts, ∀ trace ∈ state.transitions, ∃ target, RtcTransition after lts state.number trace.1 target ∧
    Unfold.chain state.number target (fun p => after.numberOf (innerKey state.pc p)) (stepLabels trace.1) ⊆ lts'
  /-- The states inside a chain are new. -/
  fresh : ∀ state ∈ lts, ∀ trace ∈ state.transitions, ∀ p x r, stepLabels trace.1 = p ++ x :: r → p ≠ [] →
    ¬ IsRtcState numbers after lts (after.numberOf (innerKey state.pc p))
  /-- They are shared with the same prefix from the same state only. -/
  apart : ∀ state ∈ lts, ∀ trace ∈ state.transitions, ∀ p x r, stepLabels trace.1 = p ++ x :: r → p ≠ [] →
    ∀ state' ∈ lts, ∀ trace' ∈ state'.transitions, ∀ p' x' r', stepLabels trace'.1 = p' ++ x' :: r' → p' ≠ [] →
      after.numberOf (innerKey state.pc p) = after.numberOf (innerKey state'.pc p') → state = state' ∧ p = p'
  /-- The states are those that were numbered before, and those of the triples. -/
  states : ∀ n, n < after.count ↔ n < numbers.count ∨ ∃ triple ∈ lts', n = triple.1 ∨ n = triple.2.2
  /-- The header has the number of the other lines and of the states. -/
  header : autHeader lts' after.count = (1, (ltsAut lts' after.count).tail.length, after.count)

/-- The initial state and one where `p` is blocked, in the table. -/
def twoNumbers : StateNumbers where
  table s := if s = "<illegal>" then some 0 else if s = idlePc.text then some 1
    else if s = (blockedPc "p").text then some 2 else none
  count := 3

/-- A transition with two labels, and one that has none. -/
def twoTransitions : List RtcState := [⟨1, idlePc, [(["p.hello", "r.a"], blockedPc "p"), ([], blockedPc "p")]⟩]

theorem twoNumbers_table {s : String} {n : Nat} : twoNumbers.table s = some n ↔
    s = "<illegal>" ∧ n = 0 ∨ s = idlePc.text ∧ n = 1 ∨ s = (blockedPc "p").text ∧ n = 2 := by
  have hidle : idlePc.text ≠ "<illegal>" := by simp [idlePc_text]
  have hblocked : (blockedPc "p").text ≠ "<illegal>" := by simp [blockedPc_text]
  have hne : (blockedPc "p").text ≠ idlePc.text := by simp [blockedPc_text, idlePc_text]
  simp only [twoNumbers]
  split_ifs with h h' h''
  · subst h
    simp only [Option.some.injEq, true_and, hidle.symm, hblocked.symm, false_and, or_false]
    exact eq_comm
  · subst h'
    simp only [Option.some.injEq, true_and, h, hne.symm, false_and, false_or, or_false]
    exact eq_comm
  · subst h''
    simp only [Option.some.injEq, true_and, h, h', false_and, false_or]
    exact eq_comm
  · simp only [h, h', h'', false_and, or_false]

theorem twoNumbers_ok : twoNumbers.Ok where
  below := by
    intro s n h
    rcases twoNumbers_table.1 h with ⟨-, rfl⟩ | ⟨-, rfl⟩ | ⟨-, rfl⟩ <;> simp [twoNumbers]
  once := by
    intro s s' n h h'
    rcases twoNumbers_table.1 h with ⟨rfl, rfl⟩ | ⟨rfl, rfl⟩ | ⟨rfl, rfl⟩ <;>
      rcases twoNumbers_table.1 h' with ⟨rfl, hn⟩ | ⟨rfl, hn⟩ | ⟨rfl, hn⟩ <;> simp at hn ⊢
  given := by
    intro n hn
    obtain rfl | rfl | rfl : n = 0 ∨ n = 1 ∨ n = 2 := by
      simp only [twoNumbers] at hn
      omega
    · exact ⟨_, twoNumbers_table.2 (.inl ⟨rfl, rfl⟩)⟩
    · exact ⟨_, twoNumbers_table.2 (.inr (.inl ⟨rfl, rfl⟩))⟩
    · exact ⟨_, twoNumbers_table.2 (.inr (.inr ⟨rfl, rfl⟩))⟩

theorem label_of_letters {s : String} (h : ∀ c ∈ s.toList, c ≠ ' ' ∧ c ≠ ']' ∧ c ≠ ':') : Label s where
  space hs := (h _ hs).1 rfl
  bracket hs := (h _ hs).2.1 rfl
  colon := by
    intro a d b heq
    exact absurd rfl (h ':' (by simp [heq])).2.2

theorem wellNamed_of_explored {pc : ProgramCounter} (h : Explored pc) (hdefer : pc.defer = []) : pc.WellNamed :=
  ⟨h.named, by simp [hdefer]⟩

theorem word_p : Word "p" := word_of_plain (by simp)

theorem twoTransitions_ok : RtcLtsOk twoNumbers twoTransitions where
  ok := twoNumbers_ok
  illegal := rfl
  plain := by
    intro s n h
    rcases twoNumbers_table.1 h with ⟨rfl, -⟩ | ⟨rfl, -⟩ | ⟨rfl, -⟩
    · exact .of_not_mem (by simp)
    · exact (wellNamed_of_explored explored_idlePc rfl).text_marked
    · exact (wellNamed_of_explored (explored_blockedPc "p" word_p) rfl).text_marked
  number := by simp [twoTransitions, twoNumbers]
  numbers := by simp [twoTransitions]
  texts := by simp [twoTransitions]
  named := by simpa [twoTransitions] using wellNamed_of_explored explored_idlePc rfl
  targets := by
    have hblocked := wellNamed_of_explored (explored_blockedPc "p" word_p) rfl
    intro state hstate trace htrace
    obtain rfl := List.mem_singleton.1 hstate
    rcases List.mem_pair.1 htrace with rfl | rfl <;> exact hblocked
  labels := by
    have hhello : Label "p.hello" := label_of_letters (by simp)
    have ha : Label "r.a" := label_of_letters (by simp)
    intro state hstate trace htrace
    obtain rfl := List.mem_singleton.1 hstate
    rcases List.mem_pair.1 htrace with rfl | rfl
    · simp [hhello, ha]
    · simp

end Dezyne.Explore
