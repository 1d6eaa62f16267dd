import Mathlib.Data.List.Basic
/-!
# Reading data

Numbers, strings, symbols and lists in parentheses, read from a text. `Reads` is
the texts of a datum: they are read as it, whatever comes after them, and the
texts of data with blanks between them make the text of a list. The syntax of
other data is left out.
-/

inductive Datum where
  | number (n : Nat)
  | string (s : List Char)
  | symbol (s : List Char)
  | list (l : List Datum)

namespace Datum

/-! ## Strings -/

def hexValue (c : Char) : Option Nat :=
  if '0' ≤ c ∧ c ≤ '9' then some (c.toNat - 48)
  else if 'a' ≤ c ∧ c ≤ 'f' then some (c.toNat - 87)
  else if 'A' ≤ c ∧ c ≤ 'F' then some (c.toNat - 55)
  else none

/-- So many hexadecimal digits, after the ones of `n`. -/
def readHex : Nat → Nat → List Char → Option (Nat × List Char)
  | 0, n, text => some (n, text)
  | _ + 1, _, [] => none
  | width + 1, n, c :: text => (hexValue c).bind fun d => readHex width (16 * n + d) text

/-- A character by its hexadecimal digits. -/
def readHexChar (width : Nat) (text : List Char) : Option (Char × List Char) :=
  (readHex width 0 text).map fun r => (Char.ofNat r.1, r.2)

/-- What is after a backslash. -/
def readEscape : List Char → Option (Char × List Char)
  | [] => none
  | c :: text =>
    match c with
    | '"' | '\\' => some (c, text)
    | '0' => some (Char.ofNat 0, text)
    | 'a' => some (Char.ofNat 7, text)
    | 'b' => some (Char.ofNat 8, text)
    | 't' => some (Char.ofNat 9, text)
    | 'n' => some (Char.ofNat 10, text)
    | 'v' => some (Char.ofNat 11, text)
    | 'f' => some (Char.ofNat 12, text)
    | 'r' => some (Char.ofNat 13, text)
    | 'x' => readHexChar 2 text
    | 'u' => readHexChar 4 text
    | 'U' => readHexChar 6 text
    | _ => none

/-- What is after the first quote. -/
def readString : Nat → List Char → Option (List Char × List Char)
  | 0, _ => none
  | _ + 1, [] => none
  | fuel + 1, c :: text =>
    if c = '"' then some ([], text)
    else (if c = '\\' then readEscape text else some (c, text)).bind fun r =>
      (readString fuel r.2).map fun s => (r.1 :: s.1, s.2)

/-- A text between quotes that is read as the string. -/
inductive Quoted : List Char → List Char → Prop
  | nil : Quoted [] []
  | char {c : Char} {text s : List Char} (hc : c ≠ '"' ∧ c ≠ '\\') : Quoted text s → Quoted (c :: text) (c :: s)
  | escape {c : Char} {e text s : List Char} (he : ∀ rest, readEscape (e ++ rest) = some (c, rest)) :
    Quoted text s → Quoted ('\\' :: (e ++ text)) (c :: s)

theorem Quoted.read {text s rest : List Char} (h : Quoted text s) {fuel : Nat} (hfuel : text.length < fuel) :
    readString fuel (text ++ '"' :: rest) = some (s, rest) := by
  induction h generalizing fuel with
  | nil =>
    obtain ⟨fuel, rfl⟩ := Nat.exists_eq_add_of_lt hfuel
    rfl
  | char hc _ ih =>
    cases fuel with
    | zero => cases hfuel
    | succ fuel =>
      rw [List.cons_append, readString, if_neg hc.1, if_neg hc.2, Option.bind_some, ih (Nat.lt_of_succ_lt_succ hfuel)]
      rfl
  | escape he _ ih =>
    cases fuel with
    | zero => cases hfuel
    | succ fuel =>
      rw [List.length_cons, List.length_append] at hfuel
      rw [List.cons_append, List.append_assoc, readString, if_neg (by decide), if_pos rfl, he, Option.bind_some,
        ih (by omega)]
      rfl

/-! ## Data -/

def isBlank (c : Char) : Bool := c = ' ' || c = '\t' || c = '\n' || c = '\r' || c = '\x0c'

def isDelimiter (c : Char) : Bool := isBlank c || c = '(' || c = ')' || c = '"' || c = ';'

/-- What is after blanks and comments; the first argument tells whether a comment has begun. -/
def skipBlanks : Bool → List Char → List Char
  | _, [] => []
  | true, c :: text => skipBlanks (c ≠ '\n') text
  | false, c :: text => if c = ';' then skipBlanks true text else if isBlank c then skipBlanks false text else c :: text

/-- A number or else a symbol. -/
def atom (token : List Char) : Datum :=
  if token.all Char.isDigit then number (Nat.ofDigitChars 10 token 0) else symbol token

mutual

/-- The first datum of a text, and what is after it. -/
def readDatum : Nat → List Char → Option (Datum × List Char)
  | 0, _ => none
  | fuel + 1, text =>
    match skipBlanks false text with
    | [] => none
    | c :: text =>
      if c = '(' then (readList fuel text).map fun r => (list r.1, r.2)
      else if c = ')' then none
      else if c = '"' then (readString fuel text).map fun r => (string r.1, r.2)
      else some (atom (c :: text.takeWhile (!isDelimiter ·)), text.dropWhile (!isDelimiter ·))

/-- The data up to a closing parenthesis. -/
def readList : Nat → List Char → Option (List Datum × List Char)
  | 0, _ => none
  | fuel + 1, text =>
    match skipBlanks false text with
    | ')' :: text => some ([], text)
    | text => (readDatum fuel text).bind fun r => (readList fuel r.2).map fun l => (r.1 :: l.1, l.2)

end

/-- `read`: the first datum of a text. -/
def read (text : List Char) : Option Datum := (readDatum (2 * text.length + 2) text).map (·.1)

/-- A token ends here. -/
def Ends (text : List Char) : Prop := ∀ c, text.head? = some c → isDelimiter c = true

/-- The text is read as the datum, whatever comes after it, and its first character is not skipped. -/
structure Reads (text : List Char) (d : Datum) : Prop where
  head : ∃ c t, text = c :: t ∧ isBlank c = false ∧ c ≠ ';' ∧ c ≠ ')'
  read : ∀ {fuel rest}, Ends rest → 2 * text.length ≤ fuel → readDatum fuel (text ++ rest) = some (d, rest)

section
variable {c : Char} {fuel : Nat} {word text rest s : List Char} {d : Datum} {texts : List (List Char)} {l : List Datum}

theorem ends_nil : Ends [] := fun _ h => nomatch h

theorem ends_cons (hc : isDelimiter c = true) : Ends (c :: text) := by
  rintro d hd
  cases hd
  exact hc

theorem skipBlanks_cons (hblank : isBlank c = false) (hc : c ≠ ';') : skipBlanks false (c :: text) = c :: text := by
  rw [skipBlanks, if_neg hc, hblank, if_neg Bool.false_ne_true]

theorem takeWhile_token (htoken : ∀ c ∈ word, isDelimiter c = false) (hrest : Ends rest) :
    (word ++ rest).takeWhile (!isDelimiter ·) = word ∧ (word ++ rest).dropWhile (!isDelimiter ·) = rest := by
  have hpos : ∀ c ∈ word, (!isDelimiter c) = true := fun c hc => by rw [htoken c hc]; rfl
  rw [List.takeWhile_append_of_pos hpos, List.dropWhile_append_of_pos hpos]
  cases rest with
  | nil => exact ⟨List.append_nil word, rfl⟩
  | cons c rest =>
    have hc : ¬ (!isDelimiter c) = true := by simp [hrest c rfl]
    rw [List.takeWhile_cons_of_neg (p := (!isDelimiter ·)) hc, List.dropWhile_cons_of_neg (p := (!isDelimiter ·)) hc,
      List.append_nil]
    exact ⟨rfl, rfl⟩

/-- A token is read as an atom. -/
theorem Reads.token (htoken : ∀ d ∈ c :: word, isDelimiter d = false) : Reads (c :: word) (atom (c :: word)) := by
  rw [List.forall_mem_cons] at htoken
  have hc := htoken.1
  simp only [isDelimiter, Bool.or_eq_false_iff, decide_eq_false_iff_not] at hc
  obtain ⟨⟨⟨⟨hblank, hopen⟩, hclose⟩, hquote⟩, hcomment⟩ := hc
  refine ⟨⟨c, word, rfl, hblank, hcomment, hclose⟩, fun {fuel rest} hrest hfuel => ?_⟩
  cases fuel with
  | zero => cases hfuel
  | succ fuel =>
    obtain ⟨htake, hdrop⟩ := takeWhile_token htoken.2 hrest
    rw [List.cons_append, readDatum, skipBlanks_cons hblank hcomment]
    dsimp only
    rw [if_neg hopen, if_neg hclose, if_neg hquote, htake, hdrop]

theorem not_isDelimiter_of_isDigit (hc : c.isDigit = true) : isDelimiter c = false := by
  cases h : isDelimiter c with
  | false => rfl
  | true =>
    simp only [isDelimiter, isBlank, Bool.or_eq_true, decide_eq_true_eq] at h
    rcases h with (((((((rfl | rfl) | rfl) | rfl) | rfl) | rfl) | rfl) | rfl) | rfl
    all_goals cases hc

theorem Reads.number (n : Nat) : Reads (Nat.toDigits 10 n) (number n) := by
  have hdigits : ∀ d ∈ Nat.toDigits 10 n, d.isDigit = true :=
    fun d hd => Nat.isDigit_of_mem_toDigits (by decide) (by decide) hd
  have hatom : atom (Nat.toDigits 10 n) = Datum.number n := by
    rw [atom, if_pos (List.all_eq_true.2 hdigits), Nat.ofDigitChars_ten_toDigits]
  rw [← hatom]
  cases htext : Nat.toDigits 10 n with
  | nil => exact absurd htext Nat.toDigits_ne_nil
  | cons c word =>
    rw [htext] at hdigits
    exact .token fun d hd => not_isDelimiter_of_isDigit (hdigits d hd)

theorem Reads.string (h : Quoted text s) : Reads ('"' :: (text ++ ['"'])) (string s) := by
  refine ⟨⟨'"', _, rfl, rfl, by decide, by decide⟩, fun {fuel rest} _ hfuel => ?_⟩
  rw [List.length_cons, List.length_append] at hfuel
  cases fuel with
  | zero => cases hfuel
  | succ fuel =>
    rw [List.cons_append, List.append_assoc, List.singleton_append, readDatum]
    show (readString fuel _).map _ = _
    rw [h.read (by omega)]
    rfl

theorem readList_blank : readList fuel (' ' :: text) = readList fuel text := by
  cases fuel with
  | zero => rfl
  | succ fuel => rw [readList, readList]; rfl

/-- A datum of a list, and then the others. -/
theorem Reads.readList (h : Reads text d) (hrest : Ends rest) (hfuel : 2 * text.length ≤ fuel) :
    readList (fuel + 1) (text ++ rest) = (readList fuel rest).map fun l => (d :: l.1, l.2) := by
  have hread := h.read hrest hfuel
  obtain ⟨c, t, rfl, hblank, hcomment, hclose⟩ := h.head
  rw [List.cons_append] at hread ⊢
  rw [Datum.readList, skipBlanks_cons hblank hcomment]
  split
  · rename_i heq
    exact absurd (List.cons.inj heq).1 hclose
  · rw [hread, Option.bind_some]

theorem readList_intercalate (h : List.Forall₂ Reads texts l) (hfuel : 2 * ([' '].intercalate texts).length < fuel) :
    readList fuel ([' '].intercalate texts ++ ')' :: rest) = some (l, rest) := by
  induction h generalizing fuel with
  | nil =>
    obtain ⟨fuel, rfl⟩ := Nat.exists_eq_add_of_lt hfuel
    rfl
  | @cons text d texts l hd hl ih =>
    cases fuel with
    | zero => cases hfuel
    | succ fuel =>
      cases texts with
      | nil =>
        rw [List.intercalate_singleton] at hfuel ⊢
        cases hl
        rw [hd.readList (ends_cons rfl) (Nat.le_of_lt_succ hfuel)]
        obtain ⟨c, t, rfl, -⟩ := hd.head
        obtain ⟨fuel, rfl⟩ := Nat.exists_eq_add_of_le' (show 1 ≤ fuel by rw [List.length_cons] at hfuel; omega)
        rfl
      | cons text' texts =>
        rw [List.intercalate_cons_cons, List.length_append, List.length_append, List.length_singleton] at hfuel
        rw [List.intercalate_cons_cons, List.append_assoc, List.append_assoc, List.singleton_append,
          hd.readList (ends_cons rfl) (by omega), readList_blank, ih (by omega)]
        rfl

/-- The texts of data with a blank between them, in parentheses. -/
theorem Reads.list (h : List.Forall₂ Reads texts l) : Reads ('(' :: ([' '].intercalate texts ++ [')'])) (list l) := by
  refine ⟨⟨'(', _, rfl, rfl, by decide, by decide⟩, fun {fuel rest} _ hfuel => ?_⟩
  rw [List.length_cons, List.length_append] at hfuel
  cases fuel with
  | zero => cases hfuel
  | succ fuel =>
    rw [List.cons_append, List.append_assoc, List.singleton_append, readDatum]
    show (Datum.readList fuel _).map _ = _
    rw [readList_intercalate h (by omega)]
    rfl

theorem Reads.read_append (h : Reads text d) (hrest : Ends rest) : Datum.read (text ++ rest) = some d := by
  rw [Datum.read, h.read hrest (by rw [List.length_append]; omega)]
  rfl

end

end Datum
