import Dezyne.Lib.Datum
import Dezyne.Stream
/-!
# The LTS of the test driver

`lts->aut` writes the transitions of the test driver as an AUT file, and
`aut->lts` reads one: it puts a blank for every comma and reads each line as a
list of three data. So a label that has a comma comes back with a blank, and
`lts->aut` counts the states by the ones that transitions start from.
-/

namespace Dezyne.Test

/-- `<transition>` -/
structure Transition (σ α : Type) where
  fromState : σ
  label : α
  toState : σ
  deriving DecidableEq

/-! ## Writing -/

/-- `transition->aut` -/
def transitionAut (g : Graphic) (t : Transition Nat (List Char)) : List Char :=
  '(' :: Nat.toDigits 10 t.fromState ++ ',' :: '"' :: writeString g t.label ++ '"' :: ',' :: Nat.toDigits 10 t.toState ++
    [')', '\n']

/-- The number of states in the header. -/
def stateCount (lts : List (Transition Nat (List Char))) : Nat :=
  1 + lts.foldl (fun states t => max states t.fromState) 0

/-- `lts->aut` -/
def ltsAut (g : Graphic) (lts : List (Transition Nat (List Char))) (start : Nat) : List Char :=
  ['d', 'e', 's', ' ', '('] ++ Nat.toDigits 10 start ++ ',' :: Nat.toDigits 10 lts.length ++
    ',' :: Nat.toDigits 10 (stateCount lts) ++ [')', '\n'] ++ lts.flatMap (transitionAut g)

/-! ## Reading -/

/-- `comma->space` -/
def commaSpace (c : Char) : Char := if c = ',' then ' ' else c

/-- `string->scm` of a line with blanks for its commas; `none` is an error. -/
def lineScm (line : List Char) : Option Datum := Datum.read (line.map commaSpace)

/-- The lines that are left, each with its newline. -/
def readLines : List Char → List (List Char)
  | [] => []
  | c :: text =>
    if c = '\n' then ['\n'] :: readLines text
    else
      match readLines text with
      | [] => [[c]]
      | line :: lines => (c :: line) :: lines

/-- A transition is whatever three data are on a line. -/
def lineTransition (line : List Char) : Option (Transition Datum Datum) :=
  match lineScm line with
  | some (.list [fromState, label, toState]) => some ⟨fromState, label, toState⟩
  | _ => none

/-- The size in the first line of a file. -/
def autSize (text : List Char) : Option Datum :=
  let des := text.takeWhile (· ≠ '\n')
  if des.length < 4 then none else lineScm (des.drop 4)

/-- `aut->lts`: the transitions and the start. -/
def autLts (text : List Char) : Option (List (Transition Datum Datum) × Datum) :=
  match autSize text with
  | some (.list [start, _, _]) =>
    ((readLines ((text.dropWhile (· ≠ '\n')).drop 1)).mapM lineTransition).map fun lts => (lts, start)
  | _ => none

/-! ## Lines -/

section
variable {g : Graphic} {line rest s : List Char} {n : Nat} {lts : List (Transition Nat (List Char))}

theorem readLines_append (hline : '\n' ∉ line) :
    readLines (line ++ '\n' :: rest) = (line ++ ['\n']) :: readLines rest := by
  induction line with
  | nil => rfl
  | cons c line ih =>
    rw [List.mem_cons, not_or] at hline
    rw [List.cons_append, readLines, if_neg (Ne.symm hline.1), ih hline.2]
    rfl

theorem readLines_flatMap {α : Type} (line : α → List Char) (l : List α) (h : ∀ a ∈ l, '\n' ∉ line a) :
    readLines (l.flatMap fun a => line a ++ ['\n']) = l.map fun a => line a ++ ['\n'] := by
  induction l with
  | nil => rfl
  | cons a l ih =>
    rw [List.forall_mem_cons] at h
    rw [List.flatMap_cons, List.append_assoc, List.singleton_append, readLines_append h.1, ih h.2]
    rfl

/-- The first line, and what is from its newline on. -/
theorem takeWhile_line (hline : '\n' ∉ line) : (line ++ '\n' :: rest).takeWhile (· ≠ '\n') = line ∧
    (line ++ '\n' :: rest).dropWhile (· ≠ '\n') = '\n' :: rest := by
  have hpos : ∀ c ∈ line, decide (c ≠ '\n') = true := by
    intro c hc
    refine decide_eq_true fun heq => hline ?_
    rwa [← heq]
  rw [List.takeWhile_append_of_pos hpos, List.dropWhile_append_of_pos hpos, List.takeWhile_cons_of_neg (by simp),
    List.dropWhile_cons_of_neg (by simp), List.append_nil]
  exact ⟨rfl, rfl⟩

theorem not_mem_toDigits {c : Char} (hc : c.isDigit = false) : c ∉ Nat.toDigits 10 n := by
  intro hmem
  rw [Nat.isDigit_of_mem_toDigits (by decide) (by decide) hmem] at hc
  cases hc

/-! ## Commas -/

theorem map_commaSpace (h : ',' ∉ s) : s.map commaSpace = s := by
  refine (List.map_congr_left fun c hc => ?_).trans (List.map_id s)
  refine if_neg fun heq : c = ',' => h ?_
  rwa [← heq]

theorem map_commaSpace_eq_self : s.map commaSpace = s ↔ ',' ∉ s := by
  refine ⟨fun h hmem => ?_, map_commaSpace⟩
  rw [← h] at hmem
  obtain ⟨c, -, hc⟩ := List.mem_map.1 hmem
  unfold commaSpace at hc
  split at hc
  · cases hc
  · exact absurd hc ‹_›

@[simp] theorem map_toDigits : (Nat.toDigits 10 n).map commaSpace = Nat.toDigits 10 n :=
  map_commaSpace (not_mem_toDigits (by decide))

/-! ## Strings that are read back -/

theorem hexValue_digitChar {n : Nat} (hn : n < 16) : Datum.hexValue (Nat.digitChar n) = some n := by
  have h : ∀ n : Fin 16, Datum.hexValue (Nat.digitChar n) = some n.1 := by decide
  exact h ⟨n, hn⟩

theorem escapeDigits_succ (width n : Nat) :
    escapeDigits (width + 1) n = Nat.digitChar (n / 16 ^ width % 16) :: escapeDigits width n := by
  rw [escapeDigits, List.range_succ, List.reverse_append]
  rfl

theorem readHex_escapeDigits (width m n : Nat) :
    Datum.readHex width m (escapeDigits width n ++ rest) = some (16 ^ width * m + n % 16 ^ width, rest) := by
  induction width generalizing m with
  | zero =>
    rw [Nat.pow_zero, Nat.mod_one, Nat.one_mul]
    rfl
  | succ width ih =>
    rw [escapeDigits_succ, List.cons_append, Datum.readHex, hexValue_digitChar (Nat.mod_lt _ (by decide)),
      Option.bind_some, ih, Nat.mod_pow_succ, Nat.pow_succ]
    congr 2
    rw [Nat.mul_add, Nat.mul_assoc, Nat.add_assoc, Nat.add_comm (n % 16 ^ width)]

theorem readHexChar_escapeDigits {width : Nat} {c : Char} (hc : c.toNat < 16 ^ width) :
    Datum.readHexChar width (escapeDigits width c.toNat ++ rest) = some (c, rest) := by
  rw [Datum.readHexChar, readHex_escapeDigits, Nat.mul_zero, Nat.zero_add, Nat.mod_eq_of_lt hc, Option.map_some,
    Char.ofNat_toNat]

theorem readEscape_writeEscape (c : Char) : Datum.readEscape (writeEscape c ++ rest) = some (c, rest) := by
  have hlt : c.toNat < 16 ^ 6 := by
    rcases c.valid with h | h
    · exact Nat.lt_trans h (by decide)
    · exact Nat.lt_trans h.2 (by decide)
  have hof : Char.ofNat c.toNat = c := Char.ofNat_toNat c
  unfold writeEscape
  split
  iterate 7
    rename_i heq
    rw [← hof, heq]
    rfl
  split
  · exact readHexChar_escapeDigits (by omega)
  · split
    · exact readHexChar_escapeDigits (by omega)
    · exact readHexChar_escapeDigits hlt

/-- What is written of a string is read as the string with blanks for its commas. -/
theorem quoted_writeString (hcomma : g.graphic ',' = true) (s : List Char) :
    Datum.Quoted ((writeString g s).map commaSpace) (s.map commaSpace) := by
  induction s with
  | nil => exact .nil
  | cons c s ih =>
    rw [writeString_cons, List.map_append, List.map_cons]
    unfold writeChar
    split
    · rename_i hc
      rcases hc with rfl | rfl
      · exact .escape (e := ['"']) (fun _ => rfl) ih
      · exact .escape (e := ['\\']) (fun _ => rfl) ih
    · rename_i hc
      rw [not_or] at hc
      split
      · refine .char ?_ ih
        unfold commaSpace
        split
        · decide
        · exact hc
      · rename_i hgraphic
        have hne : c ≠ ',' := by
          rintro rfl
          exact hgraphic hcomma
        have hescape : ',' ∉ '\\' :: writeEscape c := by
          rw [List.mem_cons, not_or]
          exact ⟨by decide, fun hmem => by cases isAlphanum_writeEscape hmem⟩
        rw [map_commaSpace hescape, commaSpace, if_neg hne]
        exact .escape (fun _ => readEscape_writeEscape c) ih

/-! ## Reading what is written -/

/-- A transition as it is read. -/
def Transition.data (t : Transition Nat (List Char)) : Transition Datum Datum :=
  ⟨.number t.fromState, .string t.label, .number t.toState⟩

/-- A transition with blanks for the commas of its label. -/
def Transition.blanked (t : Transition Nat (List Char)) : Transition Nat (List Char) :=
  { t with label := t.label.map commaSpace }

/-- The text of a transition without its newline. -/
def transitionLine (g : Graphic) (t : Transition Nat (List Char)) : List Char :=
  '(' :: Nat.toDigits 10 t.fromState ++ ',' :: '"' :: writeString g t.label ++ '"' :: ',' :: Nat.toDigits 10 t.toState ++ [')']

theorem transitionAut_eq (t : Transition Nat (List Char)) : transitionAut g t = transitionLine g t ++ ['\n'] := by
  simp [transitionAut, transitionLine]

theorem not_mem_transitionLine {t : Transition Nat (List Char)} (h : '\n' ∉ t.label) : '\n' ∉ transitionLine g t := by
  have hlabel : '\n' ∉ writeString g t.label := not_mem_writeString rfl (by decide) h
  simp [transitionLine, not_mem_toDigits, hlabel]

theorem lineTransition_transitionAut (hcomma : g.graphic ',' = true) (t : Transition Nat (List Char)) :
    lineTransition (transitionAut g t) = some t.blanked.data := by
  have hreads := Datum.Reads.list (.cons (.number t.fromState) (.cons (.string (quoted_writeString hcomma t.label))
    (.cons (.number t.toState) .nil)))
  have hline : (transitionAut g t).map commaSpace = '(' :: ([' '].intercalate [Nat.toDigits 10 t.fromState,
      '"' :: ((writeString g t.label).map commaSpace ++ ['"']), Nat.toDigits 10 t.toState] ++ [')']) ++ ['\n'] := by
    simp [transitionAut, commaSpace]
  rw [lineTransition, lineScm, hline, hreads.read_append (Datum.ends_cons rfl)]
  rfl

/-- The first line of a file without its newline. -/
def desLine (start transitions states : Nat) : List Char :=
  ['d', 'e', 's', ' '] ++ '(' :: Nat.toDigits 10 start ++ ',' :: Nat.toDigits 10 transitions ++
    ',' :: Nat.toDigits 10 states ++ [')']

theorem not_mem_desLine (start transitions states : Nat) : '\n' ∉ desLine start transitions states := by
  simp [desLine, not_mem_toDigits]

theorem ltsAut_eq (lts : List (Transition Nat (List Char))) (start : Nat) :
    ltsAut g lts start = desLine start lts.length (stateCount lts) ++ '\n' :: lts.flatMap (transitionAut g) := by
  simp [ltsAut, desLine]

theorem autSize_ltsAut (lts : List (Transition Nat (List Char))) (start : Nat) :
    autSize (ltsAut g lts start) = some (.list [.number start, .number lts.length, .number (stateCount lts)]) := by
  have hreads := Datum.Reads.list (.cons (.number start) (.cons (.number lts.length) (.cons (.number (stateCount lts)) .nil)))
  have hsize : ((desLine start lts.length (stateCount lts)).drop 4).map commaSpace =
      '(' :: ([' '].intercalate [Nat.toDigits 10 start, Nat.toDigits 10 lts.length, Nat.toDigits 10 (stateCount lts)] ++ [')']) ++
        [] := by
    simp [desLine, commaSpace]
  rw [autSize, ltsAut_eq, (takeWhile_line (not_mem_desLine _ _ _)).1, if_neg (by simp [desLine]), lineScm, hsize,
    hreads.read_append Datum.ends_nil]

/-- Labels without newlines come back with blanks for commas. -/
theorem autLts_ltsAut (hcomma : g.graphic ',' = true) (start : Nat) (hlabel : ∀ t ∈ lts, '\n' ∉ t.label) :
    autLts (ltsAut g lts start) = some (lts.map fun t => t.blanked.data, .number start) := by
  have hlines : readLines (lts.flatMap (transitionAut g)) = lts.map (transitionAut g) := by
    have heq : transitionAut g = fun t => transitionLine g t ++ ['\n'] := funext transitionAut_eq
    rw [heq]
    exact readLines_flatMap _ lts fun t ht => not_mem_transitionLine (hlabel t ht)
  have hmap : (lts.map (transitionAut g)).mapM lineTransition = some (lts.map fun t => t.blanked.data) := by
    clear hlines hlabel
    induction lts with
    | nil => rfl
    | cons t lts ih =>
      rw [List.map_cons, List.mapM_cons, lineTransition_transitionAut hcomma, ih]
      rfl
  rw [autLts, autSize_ltsAut, ltsAut_eq, (takeWhile_line (not_mem_desLine _ _ _)).2, List.drop_one, List.tail_cons,
    hlines, hmap]
  rfl

/-! ## The states of the header -/

theorem le_foldl_max (lts : List (Transition Nat (List Char))) (m : Nat) :
    n ≤ lts.foldl (fun states t => max states t.fromState) m ↔ n ≤ m ∨ ∃ t ∈ lts, n ≤ t.fromState := by
  induction lts generalizing m with
  | nil => simp
  | cons t lts ih =>
    have hmax : n ≤ max m t.fromState ↔ n ≤ m ∨ n ≤ t.fromState := by omega
    rw [List.foldl_cons, ih, hmax, List.exists_mem_cons_iff, or_assoc]

theorem lt_stateCount : n < stateCount lts ↔ n = 0 ∨ ∃ t ∈ lts, n ≤ t.fromState := by
  rw [stateCount, Nat.add_comm, Nat.lt_succ_iff, le_foldl_max, Nat.le_zero]

end

/-- A file has the start and the transitions it was written from, and a number of states above all of theirs. -/
structure ReadBack (g : Graphic) (lts : List (Transition Nat (List Char))) (start : Nat) : Prop where
  transitions : autLts (ltsAut g lts start) = some (lts.map Transition.data, .number start)
  states : ∃ count, autSize (ltsAut g lts start) = some (.list [.number start, .number lts.length, .number count]) ∧
    ∀ t ∈ lts, t.fromState < count ∧ t.toState < count

section
variable {lts : List (Transition Nat (List Char))}

theorem transitions_iff {g : Graphic} (hcomma : g.graphic ',' = true) (start : Nat) (hlabel : ∀ t ∈ lts, '\n' ∉ t.label) :
    autLts (ltsAut g lts start) = some (lts.map Transition.data, .number start) ↔ ∀ t ∈ lts, ',' ∉ t.label := by
  rw [autLts_ltsAut hcomma start hlabel, Option.some.injEq, Prod.mk.injEq, and_iff_left rfl, List.map_inj_left]
  refine forall₂_congr fun t _ => ?_
  rw [← map_commaSpace_eq_self]
  simp [Transition.data, Transition.blanked]

theorem states_iff (g : Graphic) (start : Nat) :
    (∃ count, autSize (ltsAut g lts start) = some (.list [.number start, .number lts.length, .number count]) ∧
      ∀ t ∈ lts, t.fromState < count ∧ t.toState < count) ↔ ∀ t ∈ lts, ∃ t' ∈ lts, t.toState ≤ t'.fromState := by
  rw [autSize_ltsAut]
  constructor
  · rintro ⟨count, heq, hall⟩ t ht
    simp only [Option.some.injEq, Datum.list.injEq, List.cons.injEq, Datum.number.injEq, and_true, true_and] at heq
    subst heq
    rcases lt_stateCount.1 (hall t ht).2 with hzero | hle
    · exact ⟨t, ht, hzero ▸ Nat.zero_le t.fromState⟩
    · exact hle
  · intro h
    exact ⟨stateCount lts, rfl, fun t ht => ⟨lt_stateCount.2 (.inr ⟨t, ht, Nat.le_refl _⟩), lt_stateCount.2 (.inr (h t ht))⟩⟩

end

/-- An LTS is read back exactly when its labels have no commas, and every state that a transition leads to is at
most one that a transition starts from. -/
theorem readBack_iff (g : Graphic) (hcomma : g.graphic ',' = true) (lts : List (Transition Nat (List Char)))
    (hlabel : ∀ t ∈ lts, '\n' ∉ t.label ∧ '"' ∉ t.label ∧ '\\' ∉ t.label) (start : Nat) :
    ReadBack g lts start ↔ (∀ t ∈ lts, ',' ∉ t.label) ∧ ∀ t ∈ lts, ∃ t' ∈ lts, t.toState ≤ t'.fromState := by
  rw [← transitions_iff hcomma start fun t ht => (hlabel t ht).1, ← states_iff g start]
  exact ⟨fun h => ⟨h.transitions, h.states⟩, fun h => ⟨h.1, h.2⟩⟩

/-- The blank and the printable characters of ASCII. -/
def printable : Graphic := ⟨fun c => 32 ≤ c.toNat && c.toNat ≤ 126, rfl⟩

theorem readBack_loop : ReadBack printable [⟨0, ['p', '.', 'e'], 1⟩, ⟨1, ['p', '.', 'r', 'e', 't', 'u', 'r', 'n'], 0⟩] 0 :=
  (readBack_iff printable rfl _ (by decide) 0).2 (by decide)

/-- A label with a comma, and a state without transitions. -/
theorem not_readBack : ¬ ReadBack printable [⟨0, ['p', '.', 'e', '(', '1', ',', '2', ')'], 0⟩] 0 ∧
    ¬ ReadBack printable [⟨0, ['p', '.', 'e'], 1⟩] 0 := by
  refine ⟨fun h => ?_, fun h => ?_⟩
  · have hcomma := (transitions_iff rfl 0 (by decide)).1 h.transitions
    exact absurd hcomma (by decide)
  · have hstates := (states_iff printable 0).1 h.states
    exact absurd hstates (by decide)

end Dezyne.Test
