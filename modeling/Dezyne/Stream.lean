import Mathlib.Algebra.Group.Nat.Defs
import Mathlib.Data.List.DropRight
/-!
# The preprocessed stream

`parse:file->stream` writes a main file and its imports after each other, each
below a directive with its name. `parse:stream->content-alist` splits the stream
at what looks like a directive, and that is searched for anywhere in the text.
-/

namespace Dezyne

/-! ## Writing -/

/-- `char-set:whitespace` -/
def charWhitespace (c : Char) : Bool :=
  c.toNat ∈ [9, 10, 11, 12, 13, 32, 160, 5760, 8192, 8193, 8194, 8195, 8196, 8197, 8198, 8199, 8200, 8201, 8202,
    8232, 8233, 8239, 8287, 12288]

/-- `string-trim-right` -/
def stringTrimRight (s : List Char) : List Char := s.rdropWhile charWhitespace

/-- The characters that `write` prints as they are; a newline is written as an escape. -/
structure Graphic where
  graphic : Char → Bool
  newline : graphic '\n' = false

/-- The hexadecimal digits of an escape that has `width` of them. -/
def escapeDigits (width n : Nat) : List Char :=
  (List.range width).reverse.map fun i => Nat.digitChar (n / 16 ^ i % 16)

/-- What `write` prints after the backslash of a character that is not graphic. -/
def writeEscape (c : Char) : List Char :=
  match c.toNat with
  | 7 => ['a']
  | 8 => ['b']
  | 9 => ['t']
  | 10 => ['n']
  | 11 => ['v']
  | 12 => ['f']
  | 13 => ['r']
  | n => if n ≤ 0xff then 'x' :: escapeDigits 2 n else if n ≤ 0xffff then 'u' :: escapeDigits 4 n else 'U' :: escapeDigits 6 n

/-- What `write` prints of a character of a string. -/
def writeChar (g : Graphic) (c : Char) : List Char :=
  if c = '"' ∨ c = '\\' then ['\\', c] else if g.graphic c then [c] else '\\' :: writeEscape c

/-- What `write` prints between the quotes of a string. -/
def writeString (g : Graphic) (s : List Char) : List Char := s.flatMap (writeChar g)

/-- The first group of the file regexp. -/
def fileWord : List Char := ['f', 'i', 'l', 'e']

/-- The first group of the file regexp. -/
def importedWord : List Char := ['i', 'm', 'p', 'o', 'r', 't', 'e', 'd']

/-- A directive up to its first quote. -/
def opening (word : List Char) : List Char := '#' :: word ++ [' ', '"']

/-- `(format #f "#file ~s\n" file-name)` -/
def directive (g : Graphic) (word fileName : List Char) : List Char :=
  opening word ++ (writeString g fileName ++ ['"', '\n'])

/-! ## Matching -/

/-- A match of `#(file|imported) "([^"]*)"\n`. -/
structure FileMatch where
  start : Nat
  stop : Nat
  word : List Char
  name : List Char
deriving DecidableEq

/-- The match in a string that has `k` characters more in front of it. -/
def FileMatch.shift (k : Nat) (m : FileMatch) : FileMatch :=
  { m with start := k + m.start, stop := k + m.stop }

/-- A match at the front, for one of the words. -/
def directiveAt (word s : List Char) : Option FileMatch :=
  if opening word <+: s then
    let rest := s.drop (opening word).length
    let name := rest.takeWhile (· ≠ '"')
    if ['"', '\n'] <+: rest.dropWhile (· ≠ '"') then
      some ⟨0, (opening word).length + name.length + 2, word, name⟩
    else none
  else none

/-- A match at the front. -/
def matchHere (s : List Char) : Option FileMatch := (directiveAt fileWord s).or (directiveAt importedWord s)

/-- `parse:file-match`: the first match. -/
def fileMatch : List Char → Option FileMatch
  | [] => none
  | c :: s => (matchHere (c :: s)).or ((fileMatch s).map (FileMatch.shift 1))

/-- `parse:preprocessed?` -/
def preprocessed (stream : List Char) : Bool :=
  match fileMatch stream with
  | some m => m.word = fileWord
  | none => false

/-! ## The stream -/

/-- A file name with its content. -/
abbrev FileContent := List Char × List Char

/-- What is written of a content. -/
def streamContent (file : FileContent) : List Char := stringTrimRight file.2 ++ ['\n']

/-- `import+content->stream-lines` -/
def importLines (g : Graphic) (file : FileContent) : List Char :=
  directive g importedWord file.1 ++ streamContent file

/-- `file+content->stream-lines` -/
def fileLines (g : Graphic) (file : FileContent) : List Char :=
  if preprocessed (streamContent file) then streamContent file else directive g fileWord file.1 ++ streamContent file

/-- `stream->file-name+stream` -/
def streamFileName (stream : List Char) : Option (List Char × List Char) :=
  (fileMatch stream).map fun m => (m.name, stream.drop m.stop)

/-- `stream->content+stream`; a substring that ends before the start is an error. -/
def streamContentRest (stream : List Char) : Option (List Char × List Char) :=
  match fileMatch stream with
  | none => some (stream, [])
  | some m => if m.start = 0 then none else some (stream.take (m.start - 1), stream.drop m.start)

/-- The loop of `parse:stream->content-alist`. -/
def streamLoop : Nat → List Char → Option (List FileContent)
  | _, [] => some []
  | 0, _ :: _ => none
  | fuel + 1, stream => do
    let (fileName, stream) ← streamFileName stream
    let (content, stream) ← streamContentRest stream
    let alist ← streamLoop fuel stream
    return (fileName, content) :: alist

/-- `parse:stream->content-alist`; `none` is an error. -/
def streamContentAlist (stream : List Char) : Option (List FileContent) :=
  if preprocessed stream then streamLoop stream.length stream else none

/-- `parse:file->content-alist`, for a main file and the files that its imports resolve to. -/
def fileContentAlist (main : FileContent) (imports : List FileContent) : Option (List FileContent) :=
  if preprocessed main.2 then streamContentAlist main.2 else some (main :: imports)

/-- The lines of the files. -/
def contentLines (g : Graphic) (main : FileContent) (imports : List FileContent) : List Char :=
  fileLines g main ++ imports.flatMap (importLines g)

/-- `parse:file->stream`; `none` is an error. -/
def fileStream (g : Graphic) (main : FileContent) (imports : List FileContent) : Option (List Char) := do
  match ← fileContentAlist main imports with
  | main :: imports => some (contentLines g main imports)
  | [] => none

/-- Name and content up to trailing white space. -/
def trimContent (file : FileContent) : FileContent := (file.1, stringTrimRight file.2)

/-- Splitting the stream gives back the files. -/
def GivesBack (g : Graphic) (main : FileContent) (imports : List FileContent) : Prop :=
  ∃ stream alist, fileStream g main imports = some stream ∧ streamContentAlist stream = some alist ∧
    alist.map trimContent = (main :: imports).map trimContent

/-- A name is written as it is, and nothing in the content is read as a directive. -/
def Unmarked (g : Graphic) (file : FileContent) : Prop :=
  (∀ c ∈ file.1, g.graphic c = true) ∧ fileMatch (streamContent file) = none

/-- No line starts with a directive. -/
def NoDirectiveLine (content : List Char) : Prop :=
  ∀ line ∈ content.splitOn '\n', ¬ '#' :: fileWord <+: line ∧ ¬ '#' :: importedWord <+: line

instance (g : Graphic) (file : FileContent) : Decidable (Unmarked g file) :=
  decidable_of_iff (file.1.all g.graphic = true ∧ fileMatch (streamContent file) = none) (by rw [List.all_eq_true]; rfl)

instance (content : List Char) : Decidable (NoDirectiveLine content) :=
  inferInstanceAs (Decidable (∀ line ∈ content.splitOn '\n', _))

/-! ## What is written -/

section
variable {g : Graphic} {name s t : List Char}

theorem isAlphanum_digitChar {n : Nat} (hn : n < 16) : (Nat.digitChar n).isAlphanum = true := by
  have h : ∀ n : Fin 16, (Nat.digitChar n).isAlphanum = true := by decide
  exact h ⟨n, hn⟩

theorem isAlphanum_escapeDigits {d : Char} {width n : Nat} (hd : d ∈ escapeDigits width n) : d.isAlphanum = true := by
  obtain ⟨i, -, rfl⟩ := List.mem_map.1 hd
  exact isAlphanum_digitChar (Nat.mod_lt _ (by decide))

/-- An escape has letters and digits. -/
theorem isAlphanum_writeEscape {c d : Char} (hd : d ∈ writeEscape c) : d.isAlphanum = true := by
  unfold writeEscape at hd
  split at hd
  iterate 7
    obtain rfl := List.mem_singleton.1 hd
    rfl
  have hdigits : ∀ letter width, letter.isAlphanum = true → d ∈ letter :: escapeDigits width c.toNat →
      d.isAlphanum = true := by
    intro letter width hletter hmem
    rcases List.mem_cons.1 hmem with rfl | hmem
    · exact hletter
    · exact isAlphanum_escapeDigits hmem
  split at hd
  · exact hdigits 'x' 2 rfl hd
  · split at hd
    · exact hdigits 'u' 4 rfl hd
    · exact hdigits 'U' 6 rfl hd

/-- What is written of a character has no other ones that `write` has no use for. -/
theorem not_mem_writeChar {c d : Char} (hd : d.isAlphanum = false) (hslash : d ≠ '\\') (hne : d ≠ c) : d ∉ writeChar g c := by
  have hescape : d ∉ writeEscape c := fun hmem => by
    rw [isAlphanum_writeEscape hmem] at hd
    cases hd
  unfold writeChar
  split
  · simp [hslash, hne]
  · split
    · simp [hne]
    · simp [hslash, hescape]

theorem not_mem_writeString {d : Char} (hd : d.isAlphanum = false) (hslash : d ≠ '\\') (hname : d ∉ name) :
    d ∉ writeString g name := by
  intro hmem
  obtain ⟨c, hc, hcd⟩ := List.mem_flatMap.1 hmem
  refine not_mem_writeChar hd hslash (fun heq => ?_) hcd
  exact hname (by rwa [heq])

/-- What is written never starts with a newline. -/
theorem head_writeChar (c : Char) : ∃ d rest, writeChar g c = d :: rest ∧ d ≠ '\n' := by
  unfold writeChar
  split
  · exact ⟨'\\', [c], rfl, by decide⟩
  · split
    · rename_i hc
      refine ⟨c, [], rfl, fun heq => ?_⟩
      rw [heq, g.newline] at hc
      cases hc
    · exact ⟨'\\', _, rfl, by decide⟩

theorem writeString_cons (c : Char) : writeString g (c :: name) = writeChar g c ++ writeString g name :=
  List.flatMap_cons

theorem writeString_eq (hname : '"' ∉ name ∧ '\\' ∉ name) :
    writeString g name = name ↔ ∀ c ∈ name, g.graphic c = true := by
  induction name with
  | nil => simp [writeString]
  | cons c name ih =>
    simp only [List.mem_cons, not_or] at hname
    have hc : ¬ (c = '"' ∨ c = '\\') := not_or.2 ⟨Ne.symm hname.1.1, Ne.symm hname.2.1⟩
    rw [writeString_cons, List.forall_mem_cons, ← ih ⟨hname.1.2, hname.2.2⟩]
    unfold writeChar
    rw [if_neg hc]
    by_cases hg : g.graphic c = true
    · simp [hg]
    · rw [if_neg hg]
      refine iff_of_false (fun heq => ?_) fun h => hg h.1
      -- an escape starts with a backslash, and the name has none
      have hhead := congrArg List.head? heq
      simp only [List.cons_append, List.head?_cons, Option.some.injEq] at hhead
      exact hname.2.1 hhead

/-! ## Trimming -/

theorem stringTrimRight_append_space {c : Char} (hc : charWhitespace c = true) :
    stringTrimRight (s ++ [c]) = stringTrimRight s :=
  List.rdropWhile_concat_pos _ _ _ hc

@[simp]
theorem stringTrimRight_trim : stringTrimRight (stringTrimRight s) = stringTrimRight s :=
  List.rdropWhile_idempotent _ _

theorem length_stringTrimRight_le : (stringTrimRight s).length ≤ s.length :=
  (List.rdropWhile_prefix _ _).length_le

theorem stringTrimRight_append_char {c : Char} (hc : charWhitespace c = false) :
    stringTrimRight (s ++ [c]) = s ++ [c] :=
  List.rdropWhile_concat_neg _ _ _ (by rw [hc]; exact Bool.false_ne_true)

/-- White space is trimmed after the last character that is none. -/
theorem stringTrimRight_append_cons {c : Char} (hc : charWhitespace c = false) :
    stringTrimRight (s ++ c :: t) = s ++ c :: stringTrimRight t := by
  induction t using List.reverseRecOn with
  | nil => exact stringTrimRight_append_char hc
  | append_singleton t d ih =>
    have hassoc : s ++ c :: (t ++ [d]) = s ++ c :: t ++ [d] := by simp
    rw [hassoc]
    by_cases hd : charWhitespace d = true
    · rw [stringTrimRight_append_space hd, stringTrimRight_append_space hd, ih]
    · have hd' := Bool.eq_false_iff.2 hd
      rw [stringTrimRight_append_char hd', stringTrimRight_append_char hd', hassoc]

theorem length_stringTrimRight_append_left :
    (stringTrimRight t).length ≤ (stringTrimRight (s ++ t)).length := by
  induction t using List.reverseRecOn with
  | nil => exact Nat.zero_le _
  | append_singleton t d ih =>
    rw [← List.append_assoc]
    by_cases hd : charWhitespace d = true
    · rw [stringTrimRight_append_space hd, stringTrimRight_append_space hd]
      exact ih
    · have hd' := Bool.eq_false_iff.2 hd
      rw [stringTrimRight_append_char hd', stringTrimRight_append_char hd', List.append_assoc]
      exact (List.suffix_append s _).length_le

theorem length_stringTrimRight_prefix (h : s <+: t) :
    (stringTrimRight s).length ≤ (stringTrimRight t).length := by
  obtain ⟨d, rfl⟩ := h
  induction d using List.reverseRecOn with
  | nil => rw [List.append_nil]
  | append_singleton t c ih =>
    rw [← List.append_assoc]
    by_cases hc : charWhitespace c = true
    · rw [stringTrimRight_append_space hc]
      exact ih
    · rw [stringTrimRight_append_char (Bool.eq_false_iff.2 hc), List.append_assoc, List.length_append]
      exact Nat.le_trans length_stringTrimRight_le (Nat.le_add_right _ _)

theorem stringTrimRight_streamContent (file : FileContent) :
    stringTrimRight (streamContent file) = stringTrimRight file.2 := by
  unfold streamContent
  rw [stringTrimRight_append_space (by decide), stringTrimRight_trim]

end

/-! ## Matches -/

section
variable {g : Graphic} {word name s c r : List Char} {m : FileMatch}

/-- A text of whole lines. -/
def EndsLine (s : List Char) : Prop := ∀ b ∈ s.getLast?, b = '\n'

/-- No name that starts before the text ends in it: no newline follows its first quote. -/
def Uncrossed (s : List Char) : Prop := ¬ ['"', '\n'] <+: s.dropWhile (· ≠ '"')

theorem EndsLine.of_suffix (hs : EndsLine s) (h : c <:+ s) : EndsLine c := by
  obtain ⟨a, rfl⟩ := h
  intro b hb
  refine hs b ?_
  rw [List.getLast?_append, hb]
  rfl

theorem endsLine_streamContent (file : FileContent) : EndsLine (streamContent file) := by
  intro b hb
  unfold streamContent at hb
  rw [List.getLast?_append] at hb
  simpa [eq_comm] using hb

theorem EndsLine.not_prefix (hs : EndsLine s) (hne : s ≠ []) (hr : '\n' ∉ r) : ¬ s <+: r := by
  intro h
  have hlast : s.getLast hne = '\n' := hs _ (List.getLast?_eq_getLast_of_ne_nil hne)
  exact hr (h.subset (hlast ▸ List.getLast_mem hne))

theorem newline_not_mem_opening (hword : '\n' ∉ word) : '\n' ∉ opening word := by
  simp [opening, hword]

theorem takeWhile_quote (h : '"' ∉ s) : (s ++ '"' :: r).takeWhile (· ≠ '"') = s := by
  have hall : ∀ d ∈ s, decide (d ≠ '"') = true := fun d hd => decide_eq_true fun heq => h (heq ▸ hd)
  rw [List.takeWhile_append_of_pos hall, List.takeWhile_cons_of_neg (by decide), List.append_nil]

theorem dropWhile_quote (h : '"' ∉ s) : (s ++ '"' :: r).dropWhile (· ≠ '"') = '"' :: r := by
  have hall : ∀ d ∈ s, decide (d ≠ '"') = true := fun d hd => decide_eq_true fun heq => h (heq ▸ hd)
  rw [List.dropWhile_append_of_pos hall, List.dropWhile_cons_of_neg (by decide)]

/-- A name ends in the text of whole lines in which it starts, or it does not end. -/
theorem closing_append (hs : EndsLine s) (hr : Uncrossed r) :
    (['"', '\n'] <+: (s ++ r).dropWhile (· ≠ '"') ↔ ['"', '\n'] <+: s.dropWhile (· ≠ '"')) ∧
    (['"', '\n'] <+: s.dropWhile (· ≠ '"') → (s ++ r).takeWhile (· ≠ '"') = s.takeWhile (· ≠ '"')) := by
  by_cases hq : '"' ∈ s
  · obtain ⟨a, b, rfl, ha⟩ := List.eq_append_cons_of_mem hq
    rw [List.append_assoc, List.cons_append, dropWhile_quote ha, dropWhile_quote ha, takeWhile_quote ha,
      takeWhile_quote ha]
    refine ⟨?_, fun _ => rfl⟩
    cases b with
    | nil => exact absurd (hs '"' (by simp)) (by decide)
    | cons d b => simp [List.cons_prefix_cons]
  · have hall : ∀ d ∈ s, decide (d ≠ '"') = true := fun d hd => decide_eq_true fun heq => hq (heq ▸ hd)
    rw [List.dropWhile_append_of_pos hall, List.dropWhile_eq_nil_iff.2 hall]
    exact ⟨iff_of_false hr (by simp), fun h => absurd h (by simp)⟩

theorem directiveAt_append (hword : '\n' ∉ word) (hc : EndsLine c) (hne : c ≠ []) (hr : Uncrossed r) :
    directiveAt word (c ++ r) = directiveAt word c := by
  have hopening : opening word <+: c ++ r ↔ opening word <+: c := by
    refine ⟨fun h => ?_, fun h => h.trans (List.prefix_append c r)⟩
    apply (List.prefix_or_prefix_of_prefix h (List.prefix_append c r)).resolve_right
    exact hc.not_prefix hne (newline_not_mem_opening hword)
  unfold directiveAt
  by_cases h : opening word <+: c
  · rw [if_pos h, if_pos (hopening.2 h)]
    obtain ⟨t, rfl⟩ := h
    have ht : EndsLine t := hc.of_suffix (List.suffix_append _ _)
    rw [List.append_assoc, List.drop_left, List.drop_left]
    obtain ⟨hclosing, htake⟩ := closing_append ht hr
    by_cases hend : ['"', '\n'] <+: t.dropWhile (· ≠ '"')
    · simp only [if_pos hend, if_pos (hclosing.2 hend), htake hend]
    · simp only [if_neg hend, if_neg fun h => hend (hclosing.1 h)]
  · rw [if_neg h, if_neg fun h' => h (hopening.1 h')]

theorem matchHere_append (hc : EndsLine c) (hne : c ≠ []) (hr : Uncrossed r) :
    matchHere (c ++ r) = matchHere c := by
  unfold matchHere
  rw [directiveAt_append (by decide) hc hne hr, directiveAt_append (by decide) hc hne hr]

/-- What matches in whole lines matches there whatever follows, and nothing matches across their end. -/
theorem fileMatch_append (hc : EndsLine c) (hr : Uncrossed r) :
    fileMatch (c ++ r) = (fileMatch c).or ((fileMatch r).map (FileMatch.shift c.length)) := by
  induction c with
  | nil =>
    have hshift : FileMatch.shift 0 = id := by
      funext m
      simp [FileMatch.shift]
    rw [List.nil_append, fileMatch, List.length_nil, hshift]
    simp
  | cons a c ih =>
    have hshift : FileMatch.shift 1 ∘ FileMatch.shift c.length = FileMatch.shift (a :: c).length := by
      funext m
      simp only [FileMatch.shift, Function.comp_apply, List.length_cons]
      congr 1 <;> omega
    have hhere := matchHere_append hc (List.cons_ne_nil a c) hr
    rw [List.cons_append] at hhere ⊢
    rw [fileMatch, fileMatch, hhere, ih (hc.of_suffix (List.suffix_cons a c)), ← hshift]
    cases matchHere (a :: c) with
    | some m => rfl
    | none => cases fileMatch c <;> simp

/-- A match in a text, with what is in front of it and after it. -/
structure FileMatch.At (m : FileMatch) (s a b : List Char) : Prop where
  word : m.word = fileWord ∨ m.word = importedWord
  name : '"' ∉ m.name
  text : s = a ++ (opening m.word ++ (m.name ++ '"' :: '\n' :: b))
  start : m.start = a.length
  stop : m.stop = a.length + (opening m.word).length + m.name.length + 2

theorem FileMatch.At.drop_stop {a b : List Char} (hat : m.At s a b) : s.drop m.stop = b := by
  have hsplit : s = (a ++ (opening m.word ++ (m.name ++ ['"', '\n']))) ++ b := by
    rw [hat.text]
    simp
  have hlen : m.stop = (a ++ (opening m.word ++ (m.name ++ ['"', '\n']))).length := by
    rw [hat.stop]
    simp
    omega
  rw [hlen, hsplit, List.drop_left]

theorem directiveAt_opening (hname : '"' ∉ name) : directiveAt word (opening word ++ (name ++ '"' :: '\n' :: s)) =
    some ⟨0, (opening word).length + name.length + 2, word, name⟩ := by
  have hclosing : ['"', '\n'] <+: '"' :: '\n' :: s := List.prefix_append ['"', '\n'] s
  unfold directiveAt
  rw [if_pos (List.prefix_append _ _), List.drop_left]
  simp only [dropWhile_quote hname, takeWhile_quote hname, if_pos hclosing]

theorem matchHere_opening (hword : word = fileWord ∨ word = importedWord) (hname : '"' ∉ name) :
    matchHere (opening word ++ (name ++ '"' :: '\n' :: s)) =
      some ⟨0, (opening word).length + name.length + 2, word, name⟩ := by
  unfold matchHere
  obtain rfl | rfl := hword
  · rw [directiveAt_opening hname]
    rfl
  · have hfile : directiveAt fileWord (opening importedWord ++ (name ++ '"' :: '\n' :: s)) = none := by
      unfold directiveAt
      rw [if_neg]
      simp [opening, fileWord, importedWord, List.cons_prefix_cons]
    rw [hfile, directiveAt_opening hname]
    rfl

theorem directiveAt_at (hword : word = fileWord ∨ word = importedWord) (h : directiveAt word s = some m) :
    ∃ b, m.At s [] b := by
  unfold directiveAt at h
  split at h
  · rename_i hopening
    obtain ⟨t, rfl⟩ := hopening
    simp only [List.drop_left] at h
    split at h
    · rename_i hclosing
      obtain ⟨b, hb⟩ := hclosing
      have ht := List.takeWhile_append_dropWhile (p := (· ≠ '"')) (l := t)
      rw [← hb] at ht
      obtain rfl := Option.some.inj h
      refine ⟨b, hword, fun hmem => ?_, ?_, rfl, ?_⟩
      · simpa using List.mem_takeWhile_imp hmem
      · exact congrArg (opening word ++ ·) ht.symm
      · simp
    · cases h
  · cases h

theorem matchHere_at (h : matchHere s = some m) : ∃ b, m.At s [] b := by
  unfold matchHere at h
  obtain h | ⟨-, h⟩ := Option.or_eq_some_iff.1 h
  · exact directiveAt_at (.inl rfl) h
  · exact directiveAt_at (.inr rfl) h

theorem fileMatch_at (h : fileMatch s = some m) : ∃ a b, m.At s a b := by
  induction s generalizing m with
  | nil => cases h
  | cons d s ih =>
    rw [fileMatch] at h
    obtain hhere | ⟨-, hlater⟩ := Option.or_eq_some_iff.1 h
    · exact ⟨[], matchHere_at hhere⟩
    · obtain ⟨n, hn, rfl⟩ := Option.map_eq_some_iff.1 hlater
      obtain ⟨a, b, hat⟩ := ih hn
      refine ⟨d :: a, b, hat.word, hat.name, congrArg (d :: ·) hat.text, ?_, ?_⟩
      · rw [List.length_cons, ← hat.start, Nat.add_comm]
        rfl
      · have hstop := hat.stop
        simp only [FileMatch.shift, List.length_cons]
        omega

/-- A text has a match where it has a directive. -/
theorem fileMatch_ne_none {a b : List Char} (hword : word = fileWord ∨ word = importedWord) (hname : '"' ∉ name) :
    fileMatch (a ++ (opening word ++ (name ++ '"' :: '\n' :: b))) ≠ none := by
  induction a with
  | nil =>
    rw [List.nil_append]
    unfold opening
    rw [List.cons_append, List.cons_append, fileMatch]
    have hhere := matchHere_opening (s := b) hword hname
    unfold opening at hhere
    rw [List.cons_append, List.cons_append] at hhere
    rw [hhere]
    simp
  | cons d a ih =>
    rw [List.cons_append, fileMatch, Ne, Option.or_eq_none_iff, Option.map_eq_none_iff]
    exact fun h => ih h.2

theorem fileMatch_of_matchHere (h : matchHere s = some m) : fileMatch s = some m := by
  cases s with
  | nil => cases h
  | cons a s => rw [fileMatch, h]; rfl

/-- Where a match is, and that it is also the match of what is left from there. -/
theorem fileMatch_eq_some (h : fileMatch s = some m) : m.start + 5 ≤ m.stop ∧ m.stop ≤ s.length ∧
    fileMatch (s.drop m.start) = some ⟨0, m.stop - m.start, m.word, m.name⟩ := by
  obtain ⟨a, b, hat⟩ := fileMatch_at h
  have hlen := congrArg List.length hat.text
  have hstart := hat.start
  have hstop := hat.stop
  have hopening : 3 ≤ (opening m.word).length := by simp [opening]
  simp only [List.length_append, List.length_cons] at hlen
  refine ⟨by omega, by omega, ?_⟩
  have hdrop : s.drop m.start = opening m.word ++ (m.name ++ '"' :: '\n' :: b) := by
    rw [hat.start, hat.text, List.drop_left]
  have hsize : m.stop - m.start = (opening m.word).length + m.name.length + 2 := by omega
  rw [hdrop, hsize]
  exact fileMatch_of_matchHere (matchHere_opening hat.word hat.name)

/-! ## Directives -/

theorem matchHere_directive (hword : word = fileWord ∨ word = importedWord) (hname : '"' ∉ name) :
    matchHere (directive g word name ++ s) = some ⟨0, (directive g word name).length, word, writeString g name⟩ := by
  have hshape : directive g word name ++ s = opening word ++ (writeString g name ++ '"' :: '\n' :: s) := by
    simp [directive]
  have hlen : (directive g word name).length = (opening word).length + (writeString g name).length + 2 := by
    simp [directive]
    omega
  rw [hshape, hlen]
  exact matchHere_opening hword (not_mem_writeString rfl (by decide) hname)

theorem uncrossed_directive (hword : '"' ∉ word) : Uncrossed (directive g word name ++ s) := by
  have hfront : '"' ∉ '#' :: (word ++ [' ']) := by simp [hword]
  have hshape : directive g word name ++ s =
      ('#' :: (word ++ [' '])) ++ '"' :: (writeString g name ++ '"' :: '\n' :: s) := by
    simp [directive, opening]
  unfold Uncrossed
  rw [hshape, dropWhile_quote hfront]
  cases name with
  | nil => simp [writeString, List.cons_prefix_cons]
  | cons c name =>
    obtain ⟨d, rest, hd, hne⟩ := head_writeChar (g := g) c
    rw [writeString_cons, hd]
    simp [List.cons_prefix_cons, Ne.symm hne]

theorem uncrossed_importLines (imports : List FileContent) : Uncrossed (imports.flatMap (importLines g)) := by
  cases imports with
  | nil => simp [Uncrossed]
  | cons file imports =>
    rw [List.flatMap_cons, importLines, List.append_assoc]
    exact uncrossed_directive (by decide)

/-! ## The names that are read -/

/-- The names of the matches, each searched for after the one before. -/
def matchNames (s : List Char) : List (List Char) :=
  match _h : fileMatch s with
  | none => []
  | some m => m.name :: matchNames (s.drop m.stop)
termination_by s.length
decreasing_by
  have hm := fileMatch_eq_some _h
  rw [List.length_drop]
  omega

theorem matchNames_of_none (h : fileMatch s = none) : matchNames s = [] := by
  rw [matchNames]
  split
  · rfl
  · rename_i hm
    cases h.symm.trans hm

theorem matchNames_of_some (h : fileMatch s = some m) :
    matchNames s = m.name :: matchNames (s.drop m.stop) := by
  rw [matchNames]
  split
  · rename_i hm
    cases h.symm.trans hm
  · rename_i m' hm
    cases h.symm.trans hm
    rfl

theorem matchNames_eq_nil : matchNames s = [] ↔ fileMatch s = none := by
  constructor
  · intro h
    cases hm : fileMatch s with
    | none => rfl
    | some m =>
      rw [matchNames_of_some hm] at h
      cases h
  · exact matchNames_of_none

theorem quote_not_mem_matchNames (s : List Char) : ∀ name ∈ matchNames s, '"' ∉ name := by
  induction s using matchNames.induct with
  | case1 s h =>
    rw [matchNames_of_none h]
    simp
  | case2 s m h ih =>
    obtain ⟨a, b, hat⟩ := fileMatch_at h
    rw [matchNames_of_some h, List.forall_mem_cons]
    exact ⟨hat.name, ih⟩

theorem matchNames_append {c : List Char} (hc : EndsLine c) (hr : Uncrossed r) :
    matchNames (c ++ r) = matchNames c ++ matchNames r := by
  have happend := fileMatch_append hc hr
  cases hm : fileMatch c with
  | some m =>
    rw [hm] at happend
    have hstop := fileMatch_eq_some hm
    have ih := matchNames_append (hc.of_suffix (List.drop_suffix m.stop c)) hr
    rw [matchNames_of_some happend, matchNames_of_some hm, List.drop_append_of_le_length hstop.2.1, ih]
    rfl
  | none =>
    rw [hm] at happend
    rw [matchNames_of_none hm, List.nil_append]
    cases hm' : fileMatch r with
    | none =>
      rw [hm'] at happend
      rw [matchNames_of_none happend, matchNames_of_none hm']
    | some m' =>
      rw [hm'] at happend
      rw [matchNames_of_some happend, matchNames_of_some hm']
      simp only [FileMatch.shift]
      rw [← List.drop_drop, List.drop_left]
termination_by c.length
decreasing_by
  rw [List.length_drop]
  omega

/-- A search from a match on finds the same names. -/
theorem matchNames_drop_start (h : fileMatch s = some m) : matchNames (s.drop m.start) = matchNames s := by
  obtain ⟨htwo, hstop, hdrop⟩ := fileMatch_eq_some h
  rw [matchNames_of_some h, matchNames_of_some hdrop, List.drop_drop]
  congr 3
  simp only
  omega

/-- The names of the files of a stream. -/
theorem streamLoop_names {fuel : Nat} {alist : List FileContent} (h : streamLoop fuel s = some alist) :
    alist.map Prod.fst = matchNames s := by
  induction fuel generalizing s alist with
  | zero =>
    cases s with
    | nil =>
      cases h
      exact (matchNames_of_none rfl).symm
    | cons => cases h
  | succ fuel ih =>
    cases s with
    | nil =>
      cases h
      exact (matchNames_of_none rfl).symm
    | cons a s =>
      obtain ⟨⟨fileName, stream⟩, hname, h⟩ := Option.bind_eq_some_iff.1 h
      obtain ⟨⟨content, stream'⟩, hcontent, h⟩ := Option.bind_eq_some_iff.1 h
      obtain ⟨alist', hloop, h⟩ := Option.bind_eq_some_iff.1 h
      obtain rfl := Option.some.inj h
      obtain ⟨m, hm, heq⟩ := Option.map_eq_some_iff.1 hname
      obtain ⟨rfl, rfl⟩ := Prod.mk.inj heq
      rw [matchNames_of_some hm, List.map_cons, ih hloop]
      congr 1
      unfold streamContentRest at hcontent
      split at hcontent
      · rename_i hnone
        cases hcontent
        rw [matchNames_of_none hnone, matchNames_of_none rfl]
      · rename_i m' hsome
        split at hcontent
        · cases hcontent
        · cases hcontent
          exact matchNames_drop_start hsome

end

/-! ## The files that are read -/

section
variable {g : Graphic} {word : List Char} {file main : FileContent} {imports : List FileContent} {fuel : Nat}

/-- The names that the lines of a file add. -/
def lineNames (g : Graphic) (file : FileContent) : List (List Char) :=
  writeString g file.1 :: matchNames (streamContent file)

/-- A directive with its content. -/
def markedLines (g : Graphic) (word : List Char) (file : FileContent) : List Char :=
  directive g word file.1 ++ streamContent file

theorem fileMatch_markedLines {r : List Char} (hword : word = fileWord ∨ word = importedWord) (hname : '"' ∉ file.1) :
    fileMatch (markedLines g word file ++ r) =
      some ⟨0, (directive g word file.1).length, word, writeString g file.1⟩ := by
  unfold markedLines
  rw [List.append_assoc]
  exact fileMatch_of_matchHere (matchHere_directive hword hname)

theorem drop_markedLines {r : List Char} :
    (markedLines g word file ++ r).drop (directive g word file.1).length = streamContent file ++ r := by
  unfold markedLines
  rw [List.append_assoc, List.drop_left]

theorem matchNames_markedLines {r : List Char} (hword : word = fileWord ∨ word = importedWord) (hname : '"' ∉ file.1)
    (hr : Uncrossed r) : matchNames (markedLines g word file ++ r) = lineNames g file ++ matchNames r := by
  rw [matchNames_of_some (fileMatch_markedLines hword hname)]
  simp only [drop_markedLines]
  rw [matchNames_append (endsLine_streamContent file) hr]
  rfl

theorem flatMap_importLines_cons : (file :: imports).flatMap (importLines g) =
    markedLines g importedWord file ++ imports.flatMap (importLines g) :=
  List.flatMap_cons

theorem matchNames_imports (hnames : ∀ f ∈ imports, '"' ∉ f.1) :
    matchNames (imports.flatMap (importLines g)) = imports.flatMap (lineNames g) := by
  induction imports with
  | nil => exact matchNames_of_none rfl
  | cons file imports ih =>
    rw [List.forall_mem_cons] at hnames
    rw [flatMap_importLines_cons, List.flatMap_cons,
      matchNames_markedLines (.inr rfl) hnames.1 (uncrossed_importLines imports), ih hnames.2]

theorem length_le_flatMap_lineNames (files : List FileContent) :
    files.length ≤ (files.flatMap (lineNames g)).length := by
  induction files with
  | nil => exact Nat.le_refl 0
  | cons file files ih =>
    rw [List.flatMap_cons, List.length_append, lineNames, List.length_cons, List.length_cons]
    omega

/-- When only the names of the files are read, the names are written as they are and no content has a directive. -/
theorem unmarked_of_lineNames {files : List FileContent} (hnames : ∀ f ∈ files, '"' ∉ f.1 ∧ '\\' ∉ f.1)
    (h : files.flatMap (lineNames g) = files.map Prod.fst) : ∀ f ∈ files, Unmarked g f := by
  induction files with
  | nil => simp
  | cons file files ih =>
    rw [List.forall_mem_cons] at hnames
    rw [List.flatMap_cons, lineNames, List.map_cons, List.cons_append] at h
    obtain ⟨hwritten, hrest⟩ := List.cons.inj h
    have hlen := congrArg List.length hrest
    have hle := length_le_flatMap_lineNames (g := g) files
    rw [List.length_append, List.length_map] at hlen
    have hnone : matchNames (streamContent file) = [] := List.length_eq_zero_iff.1 (by omega)
    rw [hnone, List.nil_append] at hrest
    rw [List.forall_mem_cons]
    exact ⟨⟨(writeString_eq hnames.1).1 hwritten, matchNames_eq_nil.1 hnone⟩, ih hnames.2 hrest⟩

theorem length_markedLines_pos : 0 < (markedLines g word file).length := by
  simp [markedLines, directive, opening]

theorem length_imports_le (imports : List FileContent) :
    imports.length ≤ (imports.flatMap (importLines g)).length := by
  induction imports with
  | nil => exact Nat.le_refl 0
  | cons file imports ih =>
    have hpos : 0 < (markedLines g importedWord file).length := length_markedLines_pos
    rw [flatMap_importLines_cons, List.length_append, List.length_cons]
    omega

theorem streamLoop_succ {s : List Char} (hne : s ≠ []) : streamLoop (fuel + 1) s = (do
    let (fileName, stream) ← streamFileName s
    let (content, stream) ← streamContentRest stream
    let alist ← streamLoop fuel stream
    return (fileName, content) :: alist) := by
  cases s with
  | nil => exact absurd rfl hne
  | cons => rfl

theorem streamLoop_cons {s fileName stream content rest : List Char} {alist : List FileContent} (hne : s ≠ [])
    (hname : streamFileName s = some (fileName, stream)) (hcontent : streamContentRest stream = some (content, rest))
    (hloop : streamLoop fuel rest = some alist) :
    streamLoop (fuel + 1) s = some ((fileName, content) :: alist) := by
  rw [streamLoop_succ hne]
  simp [hname, hcontent, hloop]

theorem length_streamContentRest {s content rest : List Char}
    (h : streamContentRest s = some (content, rest)) : rest.length ≤ s.length := by
  unfold streamContentRest at h
  split at h
  · cases h
    exact Nat.zero_le _
  · split at h
    · cases h
    · cases h
      rw [List.length_drop]
      exact Nat.sub_le _ _

/-- The loop never runs out of fuel: what is left of the stream gets shorter. -/
theorem streamLoop_enough {s : List Char} {fuel' : Nat} (h : s.length ≤ fuel) (h' : s.length ≤ fuel') :
    streamLoop fuel s = streamLoop fuel' s := by
  induction fuel generalizing s fuel' with
  | zero =>
    obtain rfl := List.length_eq_zero_iff.1 (Nat.le_zero.1 h)
    cases fuel' <;> rfl
  | succ fuel ih =>
    by_cases hne : s = []
    · subst hne
      cases fuel' <;> rfl
    · have hpos : 0 < s.length := List.length_pos_iff.2 hne
      obtain ⟨fuel', rfl⟩ := Nat.exists_eq_succ_of_ne_zero (Nat.ne_of_gt (Nat.lt_of_lt_of_le hpos h'))
      rw [streamLoop_succ hne, Nat.succ_eq_add_one, streamLoop_succ hne]
      unfold streamFileName
      cases hm : fileMatch s with
      | none => rfl
      | some m =>
        have hstop := fileMatch_eq_some hm
        simp only [Option.map_some, Option.bind_eq_bind, Option.bind_some]
        cases hrest : streamContentRest (s.drop m.stop) with
        | none => rfl
        | some p =>
          have hshort := length_streamContentRest hrest
          rw [List.length_drop] at hshort
          simp only [Option.bind_some]
          have hsame : streamLoop fuel p.2 = streamLoop fuel' p.2 := ih (by omega) (by omega)
          rw [hsame]

/-- Where the imports start, a directive starts. -/
theorem fileMatch_imports (hnames : ∀ f ∈ imports, '"' ∉ f.1) :
    match fileMatch (imports.flatMap (importLines g)) with
    | none => imports = []
    | some m => m.start = 0 ∧ imports ≠ [] := by
  cases imports with
  | nil => rfl
  | cons file imports =>
    rw [flatMap_importLines_cons, fileMatch_markedLines (.inr rfl) (List.forall_mem_cons.1 hnames).1]
    exact ⟨rfl, List.cons_ne_nil _ _⟩

/-- Whole lines without a directive are cut at the first import, without their last newline. -/
theorem streamContentRest_append {c : List Char} (hc : EndsLine c) (hnone : fileMatch c = none)
    (hnames : ∀ f ∈ imports, '"' ∉ f.1) : streamContentRest (c ++ imports.flatMap (importLines g)) =
      if imports = [] then some (c, []) else if c = [] then none
      else some (c.dropLast, imports.flatMap (importLines g)) := by
  have hmatch := fileMatch_append hc (uncrossed_importLines (g := g) imports)
  have himports := fileMatch_imports (g := g) hnames
  rw [hnone, Option.none_or] at hmatch
  unfold streamContentRest
  cases hm : fileMatch (imports.flatMap (importLines g)) with
  | none =>
    rw [hm] at hmatch himports
    obtain rfl := himports
    rw [hmatch, if_pos rfl]
    simp
  | some m =>
    rw [hm] at hmatch himports
    rw [hmatch, if_neg himports.2]
    simp only [Option.map_some, FileMatch.shift, himports.1, Nat.add_zero, List.drop_left, List.length_eq_zero_iff]
    by_cases hempty : c = []
    · rw [if_pos hempty, if_pos hempty]
    · have hlt : c.length - 1 ≤ c.length := by omega
      rw [if_neg hempty, if_neg hempty, List.take_append_of_le_length hlt, ← List.dropLast_eq_take]

theorem streamContent_ne_nil (file : FileContent) : streamContent file ≠ [] := by
  simp [streamContent]

theorem trimContent_streamContent (file : FileContent) :
    trimContent (file.1, streamContent file) = trimContent file :=
  congrArg (Prod.mk file.1) (stringTrimRight_streamContent file)

theorem trimContent_dropLast (file : FileContent) :
    trimContent (file.1, (streamContent file).dropLast) = trimContent file := by
  unfold streamContent trimContent
  simp

/-- The name of a file whose name is written as it is, and what is after its directive. -/
theorem streamFileName_marked {r : List Char} (hword : word = fileWord ∨ word = importedWord)
    (hname : '"' ∉ file.1 ∧ '\\' ∉ file.1) (h : ∀ c ∈ file.1, g.graphic c = true) :
    streamFileName (markedLines g word file ++ r) = some (file.1, streamContent file ++ r) := by
  unfold streamFileName
  rw [fileMatch_markedLines hword hname.1, Option.map_some, drop_markedLines, (writeString_eq hname).2 h]

theorem markedLines_append_ne_nil {r : List Char} : markedLines g word file ++ r ≠ [] := by
  simp [markedLines, directive]

/-- Files that are not marked are read back. -/
theorem streamLoop_marked (hword : word = fileWord ∨ word = importedWord)
    (hnames : ∀ f ∈ file :: imports, '"' ∉ f.1 ∧ '\\' ∉ f.1) (h : ∀ f ∈ file :: imports, Unmarked g f)
    (hfuel : imports.length < fuel) :
    ∃ alist, streamLoop fuel (markedLines g word file ++ imports.flatMap (importLines g)) = some alist ∧
      alist.map trimContent = (file :: imports).map trimContent := by
  induction imports generalizing file word fuel with
  | nil =>
    obtain ⟨fuel, rfl⟩ := Nat.exists_eq_succ_of_ne_zero (Nat.ne_zero_of_lt hfuel)
    obtain ⟨hgraphic, hnone⟩ := h file List.mem_cons_self
    have hname := streamFileName_marked hword (hnames file List.mem_cons_self) hgraphic (r := [])
    have hrest := streamContentRest_append (g := g) (endsLine_streamContent file) hnone (List.forall_mem_nil _)
    have hloop : streamLoop fuel [] = some [] := by cases fuel <;> rfl
    refine ⟨_, streamLoop_cons markedLines_append_ne_nil hname hrest hloop, ?_⟩
    rw [List.map_singleton, List.map_singleton, trimContent_streamContent]
  | cons next imports ih =>
    obtain ⟨fuel, rfl⟩ := Nat.exists_eq_succ_of_ne_zero (Nat.ne_zero_of_lt hfuel)
    obtain ⟨hgraphic, hnone⟩ := h file List.mem_cons_self
    have hquotes : ∀ f ∈ next :: imports, '"' ∉ f.1 := fun f hf => (hnames f (List.mem_cons_of_mem _ hf)).1
    have hrest := streamContentRest_append (g := g) (endsLine_streamContent file) hnone hquotes
    rw [if_neg (List.cons_ne_nil next imports), if_neg (streamContent_ne_nil file)] at hrest
    obtain ⟨alist, hloop, hmap⟩ := ih (.inr rfl) (List.forall_mem_cons.1 hnames).2
      (List.forall_mem_cons.1 h).2 (Nat.lt_of_succ_lt_succ hfuel)
    have hname := streamFileName_marked hword (hnames file List.mem_cons_self) hgraphic
      (r := (next :: imports).flatMap (importLines g))
    rw [← flatMap_importLines_cons] at hloop
    refine ⟨_, streamLoop_cons markedLines_append_ne_nil hname hrest hloop, ?_⟩
    rw [List.map_cons, hmap, trimContent_dropLast]
    rfl

/-- The first file that is read. -/
theorem streamLoop_first {s : List Char} {alist : List FileContent} {m : FileMatch}
    (hm : fileMatch s = some m)
    (h : streamLoop fuel s = some alist) : ∃ content rest alist', alist = (m.name, content) :: alist' ∧
      streamContentRest (s.drop m.stop) = some (content, rest) := by
  have hne : s ≠ [] := by
    rintro rfl
    cases hm
  cases fuel with
  | zero =>
    cases s with
    | nil => exact absurd rfl hne
    | cons => cases h
  | succ fuel =>
    rw [streamLoop_succ hne, streamFileName, hm, Option.map_some] at h
    obtain ⟨_, hname, h⟩ := Option.bind_eq_some_iff.1 h
    obtain rfl := Option.some.inj hname
    obtain ⟨⟨content, rest⟩, hcontent, h⟩ := Option.bind_eq_some_iff.1 h
    obtain ⟨alist', hloop, h⟩ := Option.bind_eq_some_iff.1 h
    exact ⟨content, rest, alist', (Option.some.inj h).symm, hcontent⟩

/-- What is read of lines is not longer than they are, when the rest starts with a directive. -/
theorem length_streamContentRest_le {c content rest : List Char} (hc : EndsLine c) (hnames : ∀ f ∈ imports, '"' ∉ f.1)
    (h : streamContentRest (c ++ imports.flatMap (importLines g)) = some (content, rest)) :
    content.length ≤ c.length := by
  cases hm : fileMatch c with
  | none =>
    rw [streamContentRest_append hc hm hnames] at h
    split at h
    · cases h
      exact Nat.le_refl _
    · split at h
      · cases h
      · cases h
        rw [List.length_dropLast]
        exact Nat.sub_le _ _
  | some m =>
    have hmatch := fileMatch_append hc (uncrossed_importLines (g := g) imports)
    have hstop := fileMatch_eq_some hm
    unfold streamContentRest at h
    rw [hmatch, hm] at h
    simp only [Option.some_or] at h
    split at h
    · cases h
    · cases h
      rw [List.length_take]
      omega

/-- The content that is read first is not longer than what is written of the first file. It is shorter when the file
looks preprocessed: then it starts after the first match. -/
theorem first_of_contentLines {alist : List FileContent} (hmain : '"' ∉ main.1) (hnames : ∀ f ∈ imports, '"' ∉ f.1)
    (h : streamLoop fuel (contentLines g main imports) = some alist) : ∃ file alist', alist = file :: alist' ∧
      file.2.length ≤ (streamContent main).length ∧
      (preprocessed (streamContent main) = true → file.2.length + 5 ≤ (streamContent main).length) := by
  have hc := endsLine_streamContent main
  unfold contentLines fileLines at h
  by_cases hpre : preprocessed (streamContent main) = true
  · rw [if_pos hpre] at h
    cases hm : fileMatch (streamContent main) with
    | none =>
      rw [preprocessed, hm] at hpre
      cases hpre
    | some m =>
      have hstop := fileMatch_eq_some hm
      have hfirst := fileMatch_append hc (uncrossed_importLines (g := g) imports)
      rw [hm, Option.some_or] at hfirst
      obtain ⟨content, rest, alist', rfl, hrest⟩ := streamLoop_first hfirst h
      rw [List.drop_append_of_le_length hstop.2.1] at hrest
      have hle := length_streamContentRest_le (hc.of_suffix (List.drop_suffix m.stop _)) hnames hrest
      rw [List.length_drop] at hle
      refine ⟨_, alist', rfl, ?_, fun _ => ?_⟩
      · simp only
        omega
      · simp only
        omega
  · rw [if_neg hpre] at h
    have h : streamLoop fuel (markedLines g fileWord main ++ imports.flatMap (importLines g)) = some alist := h
    obtain ⟨content, rest, alist', rfl, hrest⟩ := streamLoop_first (fileMatch_markedLines (.inl rfl) hmain) h
    simp only [drop_markedLines] at hrest
    exact ⟨_, alist', rfl, length_streamContentRest_le hc hnames hrest, fun h => absurd h hpre⟩

/-! ## The round trip -/

theorem streamLoop_of_alist {s : List Char} {alist : List FileContent}
    (h : streamContentAlist s = some alist) : streamLoop s.length s = some alist := by
  unfold streamContentAlist at h
  split at h
  · exact h
  · cases h

theorem map_fst_trimContent (files : List FileContent) :
    (files.map trimContent).map Prod.fst = files.map Prod.fst := by
  rw [List.map_map]
  rfl

/-- The length of a content that is read back. -/
theorem length_of_trimContent {file file' : FileContent} (h : trimContent file = trimContent file') :
    (stringTrimRight file'.2).length ≤ file.2.length := by
  have heq : stringTrimRight file.2 = stringTrimRight file'.2 := congrArg Prod.snd h
  rw [← heq]
  exact length_stringTrimRight_le

/-- The lines of the files are read back exactly when none is marked. -/
theorem contentLines_iff (hnames : ∀ f ∈ main :: imports, '"' ∉ f.1 ∧ '\\' ∉ f.1) :
    (∃ alist, streamContentAlist (contentLines g main imports) = some alist ∧
      alist.map trimContent = (main :: imports).map trimContent) ↔ ∀ f ∈ main :: imports, Unmarked g f := by
  have hquotes : ∀ f ∈ imports, '"' ∉ f.1 := fun f hf => (hnames f (List.mem_cons_of_mem _ hf)).1
  have hmain := hnames main List.mem_cons_self
  by_cases hpre : preprocessed (streamContent main) = true
  · refine iff_of_false ?_ fun h => ?_
    · rintro ⟨alist, halist, hmap⟩
      obtain ⟨file, alist', rfl, -, hshort⟩ := first_of_contentLines hmain.1 hquotes (streamLoop_of_alist halist)
      have hle := length_of_trimContent (List.cons.inj hmap).1
      have hlen : (streamContent main).length = (stringTrimRight main.2).length + 1 := List.length_append
      have hshort := hshort hpre
      omega
    · rw [preprocessed, (h main List.mem_cons_self).2] at hpre
      cases hpre
  · have hstream : contentLines g main imports = markedLines g fileWord main ++ imports.flatMap (importLines g) := by
      unfold contentLines fileLines
      rw [if_neg hpre]
      rfl
    constructor
    · rintro ⟨alist, halist, hmap⟩
      have hread := streamLoop_names (streamLoop_of_alist halist)
      rw [hstream, matchNames_markedLines (.inl rfl) hmain.1 (uncrossed_importLines imports),
        matchNames_imports hquotes, ← map_fst_trimContent, hmap, map_fst_trimContent] at hread
      exact unmarked_of_lineNames hnames hread.symm
    · intro h
      have hlong : imports.length < (contentLines g main imports).length := by
        have hpos : 0 < (markedLines g fileWord main).length := length_markedLines_pos
        have hle := length_imports_le (g := g) imports
        rw [hstream, List.length_append]
        omega
      obtain ⟨alist, hloop, hmap⟩ := streamLoop_marked (.inl rfl) hnames h hlong
      refine ⟨alist, ?_, hmap⟩
      rw [← hstream] at hloop
      unfold streamContentAlist
      rw [if_pos, hloop]
      rw [hstream, preprocessed, fileMatch_markedLines (.inl rfl) hmain.1]
      rfl

/-- Trimming keeps a match, but for the newline at its end. -/
theorem trim_of_at {m : FileMatch} {s a b : List Char} (hat : m.At s a b) :
    stringTrimRight s = a ++ (opening m.word ++ m.name) ++ '"' :: stringTrimRight ('\n' :: b) := by
  rw [← stringTrimRight_append_cons (by decide), hat.text]
  simp

theorem length_trim_of_streamContentRest {s content rest : List Char}
    (h : streamContentRest s = some (content, rest)) :
    (stringTrimRight content).length ≤ (stringTrimRight s).length := by
  unfold streamContentRest at h
  split at h
  · cases h
    exact Nat.le_refl _
  · rename_i m hm
    split at h
    · cases h
    · cases h
      exact length_stringTrimRight_prefix (List.take_prefix _ _)

theorem fileStream_of_not_preprocessed (h : preprocessed main.2 = false) :
    fileStream g main imports = some (contentLines g main imports) := by
  unfold fileStream fileContentAlist
  rw [h]
  rfl

/-- A directive that is in a content is also in what is written of it. -/
theorem not_unmarked_of_preprocessed (h : preprocessed main.2 = true) : ¬ Unmarked g main := by
  rintro ⟨-, hnone⟩
  unfold preprocessed at h
  cases hm : fileMatch main.2 with
  | none =>
    rw [hm] at h
    cases h
  | some m =>
    obtain ⟨a, b, hat⟩ := fileMatch_at hm
    obtain ⟨b', hb⟩ : ∃ b', stringTrimRight ('\n' :: b) ++ ['\n'] = '\n' :: b' := by
      obtain ⟨d, hd⟩ := List.rdropWhile_prefix charWhitespace ('\n' :: b)
      cases ht : stringTrimRight ('\n' :: b) with
      | nil => exact ⟨[], rfl⟩
      | cons c t =>
        rw [← stringTrimRight, ht, List.cons_append, List.cons.injEq] at hd
        exact ⟨t ++ ['\n'], by rw [hd.1]; rfl⟩
    refine fileMatch_ne_none (a := a) (b := b') hat.word hat.name ?_
    rw [← hb, ← hnone]
    unfold streamContent
    rw [trim_of_at hat]
    simp

/-- A content that is read as a stream of its own is not read back: what is read of it starts after its first match. -/
theorem not_givesBack_of_preprocessed (h : preprocessed main.2 = true) : ¬ GivesBack g main imports := by
  rintro ⟨stream, alist, hstream, halist, hmap⟩
  unfold fileStream fileContentAlist at hstream
  rw [if_pos h] at hstream
  obtain ⟨files, hfiles, hstream⟩ := Option.bind_eq_some_iff.1 hstream
  cases files with
  | nil => cases hstream
  | cons first rest =>
    obtain rfl := Option.some.inj hstream
    have hloop := streamLoop_of_alist hfiles
    have hnames := streamLoop_names hloop
    have hquotes : ∀ f ∈ first :: rest, '"' ∉ f.1 := by
      intro f hf
      refine quote_not_mem_matchNames main.2 f.1 ?_
      rw [← hnames]
      exact List.mem_map_of_mem hf
    unfold preprocessed at h
    cases hm : fileMatch main.2 with
    | none =>
      rw [hm] at h
      cases h
    | some m =>
      obtain ⟨a, b, hat⟩ := fileMatch_at hm
      obtain ⟨content, stream', alist', heq, hrest⟩ := streamLoop_first hm hloop
      obtain ⟨rfl, -⟩ := List.cons.inj heq
      rw [List.forall_mem_cons] at hquotes
      obtain ⟨file, alist', rfl, hshort, -⟩ := first_of_contentLines hquotes.1 hquotes.2 (streamLoop_of_alist halist)
      have hle := length_of_trimContent (List.cons.inj hmap).1
      have hmain := congrArg List.length (trim_of_at hat)
      have hcontent := length_trim_of_streamContentRest hrest
      have hlong : (stringTrimRight (main.2.drop m.stop)).length ≤ (stringTrimRight ('\n' :: b)).length := by
        rw [hat.drop_stop]
        exact length_stringTrimRight_append_left (s := ['\n'])
      have hopening : 3 ≤ (opening m.word).length := by simp [opening]
      simp only [streamContent, List.length_append, List.length_cons, List.length_nil] at hmain hshort
      omega

/-- Splitting the stream gives back the files, exactly when none is marked. -/
theorem givesBack_iff (g : Graphic) (main : FileContent) (imports : List FileContent)
    (hnames : ∀ f ∈ main :: imports, '"' ∉ f.1 ∧ '\\' ∉ f.1) :
    GivesBack g main imports ↔ ∀ f ∈ main :: imports, Unmarked g f := by
  cases hpre : preprocessed main.2 with
  | true =>
    refine iff_of_false (not_givesBack_of_preprocessed hpre) fun h => ?_
    exact not_unmarked_of_preprocessed hpre (h main List.mem_cons_self)
  | false =>
    rw [← contentLines_iff hnames]
    unfold GivesBack
    rw [fileStream_of_not_preprocessed hpre]
    simp

end

/-! ## A stream that is read back, and one that is not -/

/-- The graphic characters of ASCII. -/
def asciiGraphic : Graphic := ⟨fun c => 32 ≤ c.toNat && c.toNat < 127, rfl⟩

/-- A main file and an import; the import has a directive that is not closed. -/
def markedFiles : FileContent × FileContent :=
  (("m.dzn".toList, "import i.dzn;\n".toList), ("i.dzn".toList, "//#file \"\n".toList))

set_option maxRecDepth 4096 in
theorem givesBack_markedFiles : GivesBack asciiGraphic markedFiles.1 [markedFiles.2] :=
  (givesBack_iff asciiGraphic markedFiles.1 [markedFiles.2] (by decide)).2 (by decide)

/-- An imported file with a comment in which a directive is quoted. -/
def quotingFile : FileContent := ("i.dzn".toList, "//#file \"x\"\n".toList)

set_option maxRecDepth 4096 in
theorem not_givesBack : ¬ ∀ (g : Graphic) (main : FileContent) (imports : List FileContent),
    (∀ f ∈ main :: imports, '"' ∉ f.1 ∧ '\\' ∉ f.1) → (∀ f ∈ main :: imports, NoDirectiveLine f.2) →
    GivesBack g main imports := by
  intro h
  obtain ⟨stream, alist, hstream, halist, hmap⟩ := h asciiGraphic (['m'], []) [quotingFile] (by decide) (by decide)
  obtain rfl := Option.some.inj (hstream.symm.trans (fileStream_of_not_preprocessed (by decide)))
  have hlen := congrArg List.length hmap
  have hread : streamContentAlist (contentLines asciiGraphic (['m'], []) [quotingFile]) =
    some [(['m'], []), ("i.dzn".toList, ['/']), (['x'], [])] := by decide
  obtain rfl := Option.some.inj (hread.symm.trans halist)
  exact absurd hlen (by decide)

end Dezyne
