import Dezyne.LtsText
import Dezyne.Stream
import Dezyne.Switch
/-!
# The labels of the LTS of an interface

An interface is printed with a tick after each name of its scope. Its LTS has a
label for each trigger, action and reply, for the end of what a modeling event
does, and for its state. The regular expressions of `code:shared` find in it
what the runtime calls the event, unless a name starts with `flush`.
-/

namespace Dezyne

/-! ## Names and values -/

/-- `KEYWORD` -/
def dznKeywords : List (List Char) :=
  ["behavior", "behaviour", "blocking", "component", "defer", "else", "enum", "extern", "external", "false", "if",
    "illegal", "import", "in", "inevitable", "injected", "inout", "interface", "invariant", "namespace", "on",
    "optional", "otherwise", "out", "provides", "reply", "requires", "return", "subint", "system", "true"].map
      String.toList

/-- The first character of an identifier. -/
def identifierStart (c : Char) : Bool := c.isAlpha || c = '_'

/-- The other characters of an identifier. -/
def identifierRest (c : Char) : Bool := c.isAlphanum || c = '_'

/-- `identifier` -/
def isIdentifier (s : List Char) : Bool :=
  match s with
  | [] => false
  | c :: rest => identifierStart c && rest.all identifierRest && !dznKeywords.contains s

/-- An identifier. -/
structure Name where
  val : List Char
  ok : isIdentifier val = true

/-- A scope with the name of an interface or of an enum in it. -/
structure FullName where
  names : List Name
  ne_nil : names ≠ []

/-- `makreel:full-name`, after names were ticked. -/
def makreelFullName (f : FullName) : List Char := f.names.flatMap fun n => n.val ++ ['\'']

/-- The last name. -/
def FullName.last (f : FullName) : Name := f.names.getLast f.ne_nil

/-- `number->string` of an integer -/
def integerText : Int → List Char
  | .ofNat n => numberString n
  | .negSucc n => '-' :: numberString (n + 1)

/-- The value of a variable or a reply. -/
inductive PortValue where
  | bool (value : Bool)
  | int (value : Int)
  | enum (type : FullName) (field : Name)

/-- A value as mCRL2 prints it. -/
def PortValue.text : PortValue → List Char
  | .bool true => ['t', 'r', 'u', 'e']
  | .bool false => ['f', 'a', 'l', 's', 'e']
  | .int n => integerText n
  | .enum type field => makreelFullName type ++ field.val

/-! ## Labels -/

/-- A trigger, an action or a reply. -/
inductive PortEvent where
  | trigger (event : Name)
  | action (event : Name)
  | void
  | value (v : PortValue)

/-- A label of the LTS of an interface. -/
inductive PortLabel where
  | event (e : PortEvent)
  | flush
  | state (values : List PortValue)
  | illegal

/-- `model-prefix` -/
def modelPrefix (i : FullName) (s : List Char) : List Char := makreelFullName i ++ s

/-- The action of mCRL2 that an event is, without its model. -/
def PortEvent.kind : PortEvent → List Char
  | .trigger _ => ['i', 'n']
  | .action _ => ['o', 'u', 't']
  | .void | .value _ => ['r', 'e', 'p', 'l', 'y']

/-- The constructor of the argument of the action. -/
def PortEvent.constructor (i : FullName) : PortEvent → List Char
  | .trigger _ | .action _ => modelPrefix i ['a', 'c', 't', 'i', 'o', 'n']
  | .void => modelPrefix i ['V', 'o', 'i', 'd']
  | .value (.bool _) => modelPrefix i ['B', 'o', 'o', 'l']
  | .value (.int _) => modelPrefix i ['I', 'n', 't']
  | .value (.enum type _) => makreelFullName type

/-- What the constructor has. -/
def PortEvent.argument (i : FullName) : PortEvent → List Char
  | .trigger e => modelPrefix i (['i', 'n', '\''] ++ e.val)
  | .action e => modelPrefix i (['o', 'u', 't', '\''] ++ e.val)
  | .void => ['v', 'o', 'i', 'd']
  | .value v => v.text

/-- What is in the parentheses of the action. -/
def PortEvent.payload (i : FullName) (e : PortEvent) : List Char :=
  e.constructor i ++ '(' :: (e.argument i ++ [')'])

/-- The arguments of a term, as mCRL2 prints them. -/
def valuesText (values : List PortValue) : List Char := [',', ' '].intercalate (values.map PortValue.text)

/-- The values of the variables in a state. -/
def statePayload (i : FullName) : List PortValue → List Char
  | [] => modelPrefix i ['V', 'o', 'i', 'd']
  | values => modelPrefix i ['v', 'a', 'r', 'i', 'a', 'b', 'l', 'e', 's'] ++ '(' :: (valuesText values ++ [')'])

/-- A label as it is in the LTS. -/
def PortLabel.text (i : FullName) : PortLabel → List Char
  | .event e => modelPrefix i e.kind ++ '(' :: (e.payload i ++ [')'])
  | .flush => modelPrefix i ['f', 'l', 'u', 's', 'h']
  | .state values => modelPrefix i ['s', 't', 'a', 't', 'e'] ++ '(' :: (statePayload i values ++ [')'])
  | .illegal => "declarative_illegal".toList

/-- What the runtime calls a value: `dzn::to_string`. -/
def PortValue.runtime : PortValue → List Char
  | .enum type field => type.last.val ++ ':' :: field.val
  | v => v.text

/-- What the runtime calls an event. -/
def PortEvent.runtime : PortEvent → List Char
  | .trigger e | .action e => e.val
  | .void => ['r', 'e', 't', 'u', 'r', 'n']
  | .value v => v.runtime

/-- What the runtime passes to `port_update`; nothing is passed for a state or an illegal. -/
def PortLabel.runtime : PortLabel → Option (List Char)
  | .event e => some e.runtime
  | .flush => some ['<', 'f', 'l', 'u', 's', 'h', '>']
  | .state _ | .illegal => none

/-! ## Matching -/

section
variable {opening closing o w a b r s : List Char}

/-- The group and the closing text, after the opening text. -/
def closeAt (closing s : List Char) : Option (List Char) :=
  let group := s.takeWhile (· ≠ ')')
  if closing.isPrefixOf (s.drop group.length) then some group else none

theorem closeAt_append (ha : ')' ∉ a) (hr :
    closing <+: ')' :: r) : closeAt closing (a ++ ')' :: r) = some a := by
  have htake : (a ++ ')' :: r).takeWhile (· ≠ ')') = a := takeWhile_ne_append ha
  unfold closeAt
  simp only [htake, List.drop_left]
  rw [if_pos (List.isPrefixOf_iff_prefix.2 hr)]

theorem closeAt_eq_none (ha : ')' ∉ a) (hr :
    ¬ closing <+: ')' :: r) : closeAt closing (a ++ ')' :: r) = none := by
  have htake : (a ++ ')' :: r).takeWhile (· ≠ ')') = a := takeWhile_ne_append ha
  unfold closeAt
  simp only [htake, List.drop_left]
  rw [if_neg fun h => hr (List.isPrefixOf_iff_prefix.1 h)]

theorem matchAt_append : matchAt opening closing (opening ++ r) = closeAt closing r := by
  unfold matchAt closeAt
  rw [if_pos (List.isPrefixOf_iff_prefix.2 (List.prefix_append opening r)), List.drop_left]

theorem matchAt_eq_none (h : ¬ opening <+: s) : matchAt opening closing s = none :=
  if_neg fun hpre => h (List.isPrefixOf_iff_prefix.1 hpre)

theorem regexpGroup_cons (d : Char) : regexpGroup opening closing (d :: s) =
    (matchAt opening closing (d :: s)).or (regexpGroup opening closing s) := by
  unfold regexpGroup
  rw [List.tails_cons, List.findSome?_cons]
  cases matchAt opening closing (d :: s) <;> rfl

theorem regexpLastGroup_cons (d : Char) : regexpLastGroup opening closing (d :: s) =
    (regexpLastGroup opening closing s).or (matchAt opening closing (d :: s)) := by
  unfold regexpLastGroup
  rw [List.tails_cons, List.reverse_cons, List.findSome?_append]
  simp

/-! ### An opening parenthesis -/

/-- The first place of a character in a text is that in its start. -/
theorem marker_first {p : Char} (ho : p ∉ o) (ha : p ∉ a) : o ++ [p] <+: a ++ p :: r ↔ o = a := by
  induction o generalizing a with
  | nil =>
    cases a with
    | nil => simp
    | cons e a => simp [List.cons_prefix_cons, Ne.symm (List.ne_of_not_mem_cons ha).symm]
  | cons d o ih =>
    cases a with
    | nil => simp [List.cons_prefix_cons, (List.ne_of_not_mem_cons ho).symm]
    | cons e a =>
      rw [List.cons_append, List.cons_append, List.cons_prefix_cons,
        ih (List.not_mem_of_not_mem_cons ho) (List.not_mem_of_not_mem_cons ha), List.cons.injEq]

theorem matchAt_paren (ho : '(' ∉ o) (ha : '(' ∉ a) :
    matchAt (o ++ ['(']) closing (a ++ '(' :: r) = if o = a then closeAt closing r else none := by
  by_cases h : o = a
  · subst h
    rw [if_pos rfl]
    have hsplit : o ++ '(' :: r = (o ++ ['(']) ++ r := by simp
    rw [hsplit, matchAt_append]
  · rw [if_neg h]
    exact matchAt_eq_none fun hpre => h ((marker_first ho ha).1 hpre)

theorem suffix_cons_or (d : Char) (x : Option (List Char)) : (if o <:+ d :: a then x else none) =
    (if o = d :: a then x else none).or (if o <:+ a then x else none) := by
  by_cases h : o = d :: a
  · rw [if_pos h, if_pos (List.suffix_cons_iff.2 (.inl h))]
    cases x with
    | none => simp
    | some v => rfl
  · rw [if_neg h]
    simp [List.suffix_cons_iff, h]

/-- The first match is at the first parenthesis whose text ends with what is searched for. -/
theorem regexpGroup_paren (ho : '(' ∉ o) (ha : '(' ∉ a) : regexpGroup (o ++ ['(']) closing (a ++ '(' :: r) =
    (if o <:+ a then closeAt closing r else none).or (regexpGroup (o ++ ['(']) closing r) := by
  induction a with
  | nil =>
    rw [List.nil_append, regexpGroup_cons, ← List.nil_append ('(' :: r), matchAt_paren ho List.not_mem_nil]
    simp only [List.suffix_nil]
  | cons d a ih =>
    rw [List.cons_append, regexpGroup_cons, ih (List.not_mem_of_not_mem_cons ha), ← List.cons_append,
      matchAt_paren ho ha, suffix_cons_or, Option.or_assoc]

/-- The last match is at the last parenthesis whose text ends with what is searched for. -/
theorem regexpLastGroup_paren (ho : '(' ∉ o) (ha : '(' ∉ a) :
    regexpLastGroup (o ++ ['(']) closing (a ++ '(' :: r) =
      (regexpLastGroup (o ++ ['(']) closing r).or (if o <:+ a then closeAt closing r else none) := by
  induction a with
  | nil =>
    rw [List.nil_append, regexpLastGroup_cons, ← List.nil_append ('(' :: r), matchAt_paren ho List.not_mem_nil]
    simp only [List.suffix_nil]
  | cons d a ih =>
    rw [List.cons_append, regexpLastGroup_cons, ih (List.not_mem_of_not_mem_cons ha), ← List.cons_append,
      matchAt_paren ho ha, suffix_cons_or, Option.or_assoc]
    congr 1
    by_cases h : o = d :: a
    · have hlong : ¬ o <:+ a := fun hs => absurd hs.length_le (by rw [h, List.length_cons]; omega)
      rw [if_pos h, if_neg hlong]
      simp
    · rw [if_neg h]
      simp

theorem regexpGroup_no_paren (hs : '(' ∉ s) : regexpGroup (o ++ ['(']) closing s = none := by
  unfold regexpGroup
  rw [List.findSome?_eq_none_iff]
  intro t ht
  refine matchAt_eq_none fun hpre => hs ?_
  exact ((List.mem_tails _ _).1 ht).subset (hpre.subset (by simp))

theorem regexpLastGroup_no_paren (hs : '(' ∉ s) : regexpLastGroup (o ++ ['(']) closing s = none := by
  unfold regexpLastGroup
  rw [List.findSome?_eq_none_iff]
  intro t ht
  refine matchAt_eq_none fun hpre => hs ?_
  exact ((List.mem_tails _ _).1 (List.mem_reverse.1 ht)).subset (hpre.subset (by simp))

/-! ### Ticks -/

theorem regexpLastGroup_skip (ha : '\'' ∉ a) :
    regexpLastGroup ('\'' :: o) closing (a ++ s) = regexpLastGroup ('\'' :: o) closing s := by
  induction a with
  | nil => rfl
  | cons d a ih =>
    have hno : ¬ '\'' :: o <+: d :: (a ++ s) := by
      rw [List.cons_prefix_cons]
      exact fun h => List.ne_of_not_mem_cons ha h.1
    rw [List.cons_append, regexpLastGroup_cons, matchAt_eq_none hno, Option.or_none,
      ih (List.not_mem_of_not_mem_cons ha)]

theorem regexpLastGroup_tick (hw : '\'' ∉ w) (hb : '\'' ∉ b) :
    regexpLastGroup ('\'' :: (w ++ ['\''])) closing ('\'' :: (b ++ '\'' :: s)) =
      (regexpLastGroup ('\'' :: (w ++ ['\''])) closing ('\'' :: s)).or
        (if w = b then closeAt closing s else none) := by
  rw [regexpLastGroup_cons, regexpLastGroup_skip hb]
  congr 1
  by_cases h : w = b
  · subst h
    have hsplit : '\'' :: (w ++ '\'' :: s) = ('\'' :: (w ++ ['\''])) ++ s := by simp
    rw [if_pos rfl, hsplit, matchAt_append]
  · rw [if_neg h]
    refine matchAt_eq_none fun hpre => h ?_
    exact (marker_first hw hb).1 (List.cons_prefix_cons.1 hpre).2

theorem regexpLastGroup_last_tick (hb : '\'' ∉ b) :
    regexpLastGroup ('\'' :: (w ++ ['\''])) closing ('\'' :: b) = none := by
  have hnil : regexpLastGroup ('\'' :: (w ++ ['\''])) closing [] = none := by
    unfold regexpLastGroup
    simp [matchAt]
  have hskip : regexpLastGroup ('\'' :: (w ++ ['\''])) closing (b ++ []) =
      regexpLastGroup ('\'' :: (w ++ ['\''])) closing [] := regexpLastGroup_skip hb
  have hno : ¬ '\'' :: (w ++ ['\'']) <+: '\'' :: b := by
    intro hpre
    exact hb ((List.cons_prefix_cons.1 hpre).2.subset (by simp))
  rw [List.append_nil, hnil] at hskip
  rw [regexpLastGroup_cons, hskip, matchAt_eq_none hno]
  rfl

end

/-! ### Names -/

section
variable {closing w a b r s : List Char} {n : Name} {c : Char}

theorem identifierRest_of_mem (hc : c ∈ n.val) : identifierRest c = true := by
  obtain ⟨t, ht⟩ := n
  cases t with
  | nil => cases hc
  | cons d rest =>
    simp only [isIdentifier, Bool.and_eq_true, List.all_eq_true] at ht
    obtain hc | hc := List.mem_cons.1 hc
    · subst hc
      have hstart := ht.1.1
      unfold identifierStart at hstart
      unfold identifierRest Char.isAlphanum
      rw [Bool.or_right_comm, hstart]
      rfl
    · exact ht.1.2 c hc

theorem Name.not_mem (hc : identifierRest c = false) : c ∉ n.val := by
  intro hmem
  rw [identifierRest_of_mem hmem] at hc
  cases hc

theorem Name.not_keyword (hw : w ∈ dznKeywords) : w ≠ n.val := by
  obtain ⟨t, ht⟩ := n
  rintro rfl
  cases w with
  | nil => cases ht
  | cons d rest =>
    simp only [isIdentifier, Bool.and_eq_true, Bool.not_eq_true', List.contains_eq_mem, decide_eq_false_iff_not] at ht
    exact ht.2 hw

/-- The names of a scope have no place for a keyword between ticks. -/
theorem regexpLastGroup_names (hw : w ∈ dznKeywords) (hw' : '\'' ∉ w) (names : List Name) :
    regexpLastGroup ('\'' :: (w ++ ['\''])) closing ('\'' :: (names.flatMap (fun n => n.val ++ ['\'']) ++ s)) =
      regexpLastGroup ('\'' :: (w ++ ['\''])) closing ('\'' :: s) := by
  induction names with
  | nil => rfl
  | cons n names ih =>
    have hn : '\'' ∉ n.val := Name.not_mem (by decide)
    rw [List.flatMap_cons, List.append_assoc, List.append_assoc, List.singleton_append, regexpLastGroup_tick hw' hn, ih,
      if_neg (Name.not_keyword hw), Option.or_none]

theorem makreelFullName_cons (i : FullName) : ∃ n names, i.names = n :: names ∧
    makreelFullName i = n.val ++ '\'' :: names.flatMap fun n => n.val ++ ['\''] := by
  obtain ⟨names, hne⟩ := i
  cases names with
  | nil => exact absurd rfl hne
  | cons n names => exact ⟨n, names, rfl, by simp [makreelFullName]⟩

theorem regexpLastGroup_fullName (hw : w ∈ dznKeywords) (hw' : '\'' ∉ w) (i : FullName) :
    regexpLastGroup ('\'' :: (w ++ ['\''])) closing (makreelFullName i ++ s) =
      regexpLastGroup ('\'' :: (w ++ ['\''])) closing ('\'' :: s) := by
  obtain ⟨n, names, -, hi⟩ := makreelFullName_cons i
  have hn : '\'' ∉ n.val := Name.not_mem (by decide)
  rw [hi, List.append_assoc, regexpLastGroup_skip hn, List.cons_append, regexpLastGroup_names hw hw']

/-- What is between a tick and a name has a parenthesis, and is no keyword. -/
theorem regexpLastGroup_tick_fullName (hw : w ∈ dznKeywords)
    (hw' : '\'' ∉ w ∧ '(' ∉ w) (ha : '\'' ∉ a ∧ '(' ∈ a)
    (i : FullName) : regexpLastGroup ('\'' :: (w ++ ['\''])) closing ('\'' :: (a ++ (makreelFullName i ++ s))) =
      regexpLastGroup ('\'' :: (w ++ ['\''])) closing ('\'' :: s) := by
  obtain ⟨n, names, -, hi⟩ := makreelFullName_cons i
  have hn : '\'' ∉ n.val := Name.not_mem (by decide)
  have hb : '\'' ∉ a ++ n.val := by simp [ha.1, hn]
  have hne : w ≠ a ++ n.val := by
    rintro rfl
    exact hw'.2 (List.mem_append_left _ ha.2)
  have hsplit : a ++ (makreelFullName i ++ s) =
      (a ++ n.val) ++ '\'' :: (names.flatMap (fun n => n.val ++ ['\'']) ++ s) := by
    rw [hi]
    simp
  rw [hsplit, regexpLastGroup_tick hw'.1 hb, if_neg hne, Option.or_none, regexpLastGroup_names hw hw'.1]

end

/-! ### The texts of a label -/

section
variable {closing o w a b r s : List Char} {n : Name} {c : Char} {i : FullName} {v : PortValue} {e : PortEvent}

theorem not_mem_fullName (hc : identifierRest c = false) (htick : c ≠ '\'') : c ∉ makreelFullName i := by
  unfold makreelFullName
  intro hmem
  obtain ⟨n, -, hn⟩ := List.mem_flatMap.1 hmem
  obtain hn | hn := List.mem_append.1 hn
  · exact Name.not_mem hc hn
  · exact htick (List.mem_singleton.1 hn)

theorem not_mem_integerText (hc : identifierRest c = false) (hminus : c ≠ '-') (n : Int) :
    c ∉ integerText n := by
  have hdigit : c.isDigit = false := by
    unfold identifierRest Char.isAlphanum at hc
    simp only [Bool.or_eq_false_iff] at hc
    exact hc.1.2
  cases n with
  | ofNat n => exact not_mem_numberString hdigit
  | negSucc n =>
    intro hmem
    obtain hmem | hmem := List.mem_cons.1 hmem
    · exact hminus hmem
    · exact not_mem_numberString hdigit hmem

theorem not_mem_valueText (hc : identifierRest c = false) (htick : c ≠ '\'') (hminus : c ≠ '-') :
    c ∉ v.text := by
  cases v with
  | bool b =>
    have hall : ∀ d ∈ (PortValue.bool b).text, identifierRest d = true := by cases b <;> decide
    intro hmem
    rw [hall c hmem] at hc
    cases hc
  | int n => exact not_mem_integerText hc hminus n
  | enum type field =>
    intro hmem
    obtain hmem | hmem := List.mem_append.1 hmem
    · exact not_mem_fullName hc htick hmem
    · exact Name.not_mem hc hmem

/-- The characters of words in labels. -/
theorem not_mem_of_word (hw : ∀ d ∈ w, identifierRest d = true ∨ d = '\'') (hc : identifierRest c = false)
    (htick : c ≠ '\'') : c ∉ w := by
  intro hmem
  obtain h | h := hw c hmem
  · rw [h] at hc
    cases hc
  · exact htick h

theorem not_mem_modelPrefix (hw : ∀ d ∈ w, identifierRest d = true ∨ d = '\'') (hc : identifierRest c = false)
    (htick : c ≠ '\'') : c ∉ modelPrefix i w := by
  unfold modelPrefix
  rw [List.mem_append, not_or]
  exact ⟨not_mem_fullName hc htick, not_mem_of_word hw hc htick⟩

theorem not_mem_constructor (hc : identifierRest c = false) (htick : c ≠ '\'') : c ∉ e.constructor i := by
  cases e with
  | trigger => exact not_mem_modelPrefix (by decide) hc htick
  | action => exact not_mem_modelPrefix (by decide) hc htick
  | void => exact not_mem_modelPrefix (by decide) hc htick
  | value v =>
    cases v with
    | bool => exact not_mem_modelPrefix (by decide) hc htick
    | int => exact not_mem_modelPrefix (by decide) hc htick
    | enum => exact not_mem_fullName hc htick

theorem not_mem_argument (hc : identifierRest c = false) (htick : c ≠ '\'') (hminus : c ≠ '-') :
    c ∉ e.argument i := by
  have hname : ∀ n : Name, ∀ d ∈ n.val, identifierRest d = true ∨ d = '\'' := fun n d hd => .inl (identifierRest_of_mem hd)
  cases e with
  | trigger e =>
    refine not_mem_modelPrefix ?_ hc htick
    rw [List.forall_mem_append]
    exact ⟨by decide, hname e⟩
  | action e =>
    refine not_mem_modelPrefix ?_ hc htick
    rw [List.forall_mem_append]
    exact ⟨by decide, hname e⟩
  | void => exact not_mem_of_word (w := ['v', 'o', 'i', 'd']) (by decide) hc htick
  | value v => exact not_mem_valueText hc htick hminus

theorem not_mem_kind (hc : identifierRest c = false) (htick : c ≠ '\'') : c ∉ e.kind := by
  cases e with
  | trigger => exact not_mem_of_word (w := ['i', 'n']) (by decide) hc htick
  | action => exact not_mem_of_word (w := ['o', 'u', 't']) (by decide) hc htick
  | void => exact not_mem_of_word (w := ['r', 'e', 'p', 'l', 'y']) (by decide) hc htick
  | value => exact not_mem_of_word (w := ['r', 'e', 'p', 'l', 'y']) (by decide) hc htick

/-- Two texts have different characters at one place from the end. -/
def mismatch (o w : List Char) : Bool := (o.reverse.zip w.reverse).any fun p => p.1 ≠ p.2

theorem not_suffix (h : mismatch o w = true) : ¬ o <:+ a ++ w := by
  intro hs
  rw [← List.reverse_prefix, List.reverse_append] at hs
  unfold mismatch at h
  generalize o.reverse = p at h hs
  generalize w.reverse = q at h hs
  induction p generalizing q with
  | nil => cases h
  | cons d p ih =>
    cases q with
    | nil => simp at h
    | cons d' q =>
      rw [List.cons_append, List.cons_prefix_cons] at hs
      obtain ⟨rfl, hs⟩ := hs
      exact ih q (by simpa using h) hs

theorem makreelFullName_last (i : FullName) : makreelFullName i =
    (i.names.dropLast.flatMap fun n => n.val ++ ['\'']) ++ (i.last.val ++ ['\'']) := by
  have hsplit := List.dropLast_concat_getLast i.ne_nil
  unfold makreelFullName
  rw [← hsplit, List.flatMap_append]
  simp [FullName.last]

/-- A word after the names of a scope is after a tick. -/
theorem tick_suffix (i : FullName) (w : List Char) : '\'' :: w <:+ modelPrefix i w := by
  unfold modelPrefix
  rw [makreelFullName_last]
  exact ⟨(i.names.dropLast.flatMap fun n => n.val ++ ['\'']) ++ i.last.val, by simp⟩

theorem not_suffix_fullName (h : mismatch o ['\''] = true) (i : FullName) : ¬ o <:+ makreelFullName i := by
  rw [makreelFullName_last, ← List.append_assoc]
  exact not_suffix h

/-! ### The parts of an event -/

/-- The groups that are found in the label of an event. -/
theorem regexpGroup_event (ho : '(' ∉ o) (e : PortEvent) :
    regexpGroup (o ++ ['(']) [')', ')'] ((PortLabel.event e).text i) =
      if o <:+ modelPrefix i e.kind then some (e.constructor i ++ '(' :: e.argument i)
      else if o <:+ e.constructor i then some (e.argument i) else none := by
  have hkind : '(' ∉ modelPrefix i e.kind := by
    unfold modelPrefix
    rw [List.mem_append, not_or]
    exact ⟨not_mem_fullName (by decide) (by decide), not_mem_kind (by decide) (by decide)⟩
  have hconstructor : '(' ∉ e.constructor i := not_mem_constructor (by decide) (by decide)
  have hclose : ')' ∉ e.constructor i := not_mem_constructor (by decide) (by decide)
  have hopen' : '(' ∉ e.argument i := not_mem_argument (by decide) (by decide) (by decide)
  have hclose' : ')' ∉ e.argument i := not_mem_argument (by decide) (by decide) (by decide)
  have hgroup : ')' ∉ e.constructor i ++ '(' :: e.argument i := by simp [hclose, hclose']
  have hno : '(' ∉ e.argument i ++ ')' :: [')'] := by simp [hopen']
  have hpayload : e.payload i ++ [')'] = (e.constructor i ++ '(' :: e.argument i) ++ ')' :: [')'] := by
    simp [PortEvent.payload]
  have hpayload' : e.payload i ++ [')'] = e.constructor i ++ '(' :: (e.argument i ++ ')' :: [')']) := by
    simp [PortEvent.payload]
  unfold PortLabel.text
  rw [regexpGroup_paren ho hkind]
  by_cases h : o <:+ modelPrefix i e.kind
  · rw [if_pos h, if_pos h, hpayload, closeAt_append hgroup List.prefix_rfl]
    rfl
  · rw [if_neg h, if_neg h, Option.none_or, hpayload', regexpGroup_paren ho hconstructor,
      regexpGroup_no_paren hno, Option.or_none]
    by_cases h' : o <:+ e.constructor i
    · rw [if_pos h', if_pos h', closeAt_append hclose' List.prefix_rfl]
    · rw [if_neg h', if_neg h']

/-- What the constructors end with. -/
def constructorEnds : List (List Char) :=
  [['a', 'c', 't', 'i', 'o', 'n'], ['V', 'o', 'i', 'd'], ['B', 'o', 'o', 'l'], ['I', 'n', 't'], ['\'']]

theorem not_suffix_constructor (h : ∀ w ∈ constructorEnds, mismatch o w = true) (e : PortEvent) :
    ¬ o <:+ e.constructor i := by
  cases e with
  | trigger => exact not_suffix (h _ (by decide))
  | action => exact not_suffix (h _ (by decide))
  | void => exact not_suffix (h _ (by decide))
  | value v =>
    cases v with
    | bool => exact not_suffix (h _ (by decide))
    | int => exact not_suffix (h _ (by decide))
    | enum => exact not_suffix_fullName (h _ (by decide)) _

theorem group_event_of_kind (ho : '(' ∉ o) (h : o = '\'' :: e.kind) :
    (regexpGroup (o ++ ['(']) [')', ')'] ((PortLabel.event e).text i)).map (· ++ [')']) = some (e.payload i) := by
  rw [regexpGroup_event ho, if_pos (h ▸ tick_suffix i e.kind)]
  simp [PortEvent.payload]

theorem group_event_of_not_kind (ho : '(' ∉ o) (h : mismatch o e.kind = true)
    (h' : ∀ w ∈ constructorEnds, mismatch o w = true) :
    (regexpGroup (o ++ ['(']) [')', ')'] ((PortLabel.event e).text i)).map (· ++ [')']) = none := by
  have hkind : ¬ o <:+ modelPrefix i e.kind := not_suffix h
  rw [regexpGroup_event ho, if_neg hkind, if_neg (not_suffix_constructor h' e)]
  rfl

theorem triggerRegexp_eq : triggerRegexp s =
    (regexpGroup (['\'', 'i', 'n'] ++ ['(']) [')', ')'] s).map (· ++ [')']) := rfl

theorem actionRegexp_eq : actionRegexp s =
    (regexpGroup (['\'', 'o', 'u', 't'] ++ ['(']) [')', ')'] s).map (· ++ [')']) := rfl

theorem replyRegexp_eq : replyRegexp s =
    (regexpGroup (['\'', 'r', 'e', 'p', 'l', 'y'] ++ ['(']) [')', ')'] s).map (· ++ [')']) := rfl

/-- The event in the label of an event. -/
theorem labelEvent_event (i : FullName) (e : PortEvent) :
    labelEvent ((PortLabel.event e).text i) = some (e.payload i) := by
  unfold labelEvent
  rw [triggerRegexp_eq, actionRegexp_eq, replyRegexp_eq]
  cases e with
  | trigger e =>
    have htrigger := group_event_of_kind (i := i) (e := .trigger e) (o := ['\'', 'i', 'n']) (by decide) rfl
    rw [htrigger]
    rfl
  | action e =>
    have haction := group_event_of_kind (i := i) (e := .action e) (o := ['\'', 'o', 'u', 't']) (by decide) rfl
    rw [group_event_of_not_kind (by decide) (by rfl) (by decide), haction]
    rfl
  | void =>
    have hreply := group_event_of_kind (i := i) (e := .void) (o := ['\'', 'r', 'e', 'p', 'l', 'y']) (by decide) rfl
    rw [group_event_of_not_kind (by decide) (by rfl) (by decide),
      group_event_of_not_kind (by decide) (by rfl) (by decide), hreply]
    rfl
  | value v =>
    have hreply := group_event_of_kind (i := i) (e := .value v) (o := ['\'', 'r', 'e', 'p', 'l', 'y']) (by decide) rfl
    rw [group_event_of_not_kind (by decide) (by rfl) (by decide),
      group_event_of_not_kind (by decide) (by rfl) (by decide), hreply]
    rfl

theorem inRegexp_eq : inRegexp s = regexpLastGroup ('\'' :: (['i', 'n'] ++ ['\''])) [')'] s := rfl

theorem outRegexp_eq : outRegexp s = regexpLastGroup ('\'' :: (['o', 'u', 't'] ++ ['\''])) [')'] s := rfl

theorem boolRegexp_eq : boolRegexp s = regexpLastGroup (['\'', 'B', 'o', 'o', 'l'] ++ ['(']) [')'] s := rfl

theorem voidRegexp_eq : voidRegexp s = regexpLastGroup (['\'', 'V', 'o', 'i', 'd'] ++ ['(']) [')'] s := rfl

theorem enumRegexp_eq : enumRegexp s = regexpGroup ([] ++ ['(']) [')'] s := rfl

/-- What is found between ticks in the payload of a trigger or an action. -/
theorem regexpLastGroup_direction (hw : w ∈ dznKeywords)
    (hw' : '\'' ∉ w ∧ '(' ∉ w) (ha : '\'' ∉ a) (n : Name) : regexpLastGroup ('\'' :: (w ++ ['\''])) [')']
      (modelPrefix i ['a', 'c', 't', 'i', 'o', 'n'] ++ '(' :: (modelPrefix i (a ++ '\'' :: n.val) ++ [')'])) =
        if w = a then some n.val else none := by
  have hclose : ')' ∉ n.val := Name.not_mem (by decide)
  have htick : '\'' ∉ n.val ++ [')'] := by simp [Name.not_mem (n := n) (c := '\'') (by decide)]
  have hsplit : modelPrefix i ['a', 'c', 't', 'i', 'o', 'n'] ++ '(' :: (modelPrefix i (a ++ '\'' :: n.val) ++ [')']) =
      makreelFullName i ++ (['a', 'c', 't', 'i', 'o', 'n', '('] ++ (makreelFullName i ++ (a ++ '\'' :: (n.val ++ [')'])))) := by
    simp [modelPrefix]
  rw [hsplit, regexpLastGroup_fullName hw hw'.1, regexpLastGroup_tick_fullName hw hw' (by decide),
    regexpLastGroup_tick hw'.1 ha, regexpLastGroup_last_tick htick, closeAt_append hclose List.prefix_rfl, Option.none_or]

/-- Nothing is found between ticks in the payload of a reply. -/
theorem regexpLastGroup_reply (hw : w ∈ dznKeywords) (hw' : '\'' ∉ w ∧ '(' ∉ w) (hs : '\'' ∉ s) :
    regexpLastGroup ('\'' :: (w ++ ['\''])) [')'] (modelPrefix i s) = none := by
  unfold modelPrefix
  rw [regexpLastGroup_fullName hw hw'.1, regexpLastGroup_last_tick hs]

theorem open_not_mem_argument (e : PortEvent) {closing : List Char} (h : '(' ∉ closing) :
    '(' ∉ e.argument i ++ closing := by
  rw [List.mem_append, not_or]
  exact ⟨not_mem_argument (by decide) (by decide) (by decide), h⟩

/-- The group that is found in a payload. -/
theorem regexpGroup_payload (ho : '(' ∉ o) (e : PortEvent) : regexpGroup (o ++ ['(']) [')'] (e.payload i) =
    if o <:+ e.constructor i then some (e.argument i) else none := by
  have hopen : '(' ∉ e.constructor i := not_mem_constructor (by decide) (by decide)
  have hclose : ')' ∉ e.argument i := not_mem_argument (by decide) (by decide) (by decide)
  have hno := open_not_mem_argument (i := i) e (by decide : '(' ∉ [')'])
  unfold PortEvent.payload
  rw [regexpGroup_paren ho hopen, regexpGroup_no_paren hno, Option.or_none, closeAt_append hclose List.prefix_rfl]

theorem regexpLastGroup_payload (ho : '(' ∉ o) (e : PortEvent) : regexpLastGroup (o ++ ['(']) [')'] (e.payload i) =
    if o <:+ e.constructor i then some (e.argument i) else none := by
  have hopen : '(' ∉ e.constructor i := not_mem_constructor (by decide) (by decide)
  have hclose : ')' ∉ e.argument i := not_mem_argument (by decide) (by decide) (by decide)
  have hno := open_not_mem_argument (i := i) e (by decide : '(' ∉ [')'])
  unfold PortEvent.payload
  rw [regexpLastGroup_paren ho hopen, regexpLastGroup_no_paren hno, Option.none_or,
    closeAt_append hclose List.prefix_rfl]

theorem splitOn_fullName (i : FullName) (hs : '\'' ∉ s) :
    (makreelFullName i ++ s).splitOn '\'' = i.names.map Name.val ++ [s] := by
  unfold makreelFullName
  induction i.names with
  | nil => exact List.splitOn_eq_singleton hs
  | cons n names ih =>
    have hn : '\'' ∉ n.val := Name.not_mem (by decide)
    rw [List.flatMap_cons, List.append_assoc, List.append_assoc, List.singleton_append, List.splitOn_append_cons_self,
      ih, List.splitOn_eq_singleton hn]
    rfl

theorem makreelEnum_enum (type : FullName) (field : Name) :
    makreelEnum (PortValue.enum type field).text = (PortValue.enum type field).runtime := by
  have hsplit := List.dropLast_concat_getLast type.ne_nil
  have hrev : (type.names.map Name.val ++ [field.val]).reverse =
      field.val :: type.last.val :: (type.names.dropLast.map Name.val).reverse := by
    conv_lhs => rw [← hsplit]
    rw [List.reverse_append, List.map_append, List.reverse_append]
    rfl
  unfold makreelEnum PortValue.text
  rw [splitOn_fullName type (Name.not_mem (by decide)), hrev]
  rfl

theorem makreelEnum_of_not_tick (hs : '\'' ∉ s) : makreelEnum s = s := by
  unfold makreelEnum
  rw [List.splitOn_eq_singleton hs]
  rfl

/-- Nothing is found between ticks in the payload of a reply. -/
theorem regexpLastGroup_value (hw : w ∈ dznKeywords) (hw' : '\'' ∉ w ∧ '(' ∉ w) (v : PortValue) :
    regexpLastGroup ('\'' :: (w ++ ['\''])) [')'] ((PortEvent.value v).payload i) = none := by
  cases v with
  | bool b =>
    have hshape : (PortEvent.value (.bool b)).payload i =
        modelPrefix i (['B', 'o', 'o', 'l', '('] ++ ((PortValue.bool b).text ++ [')'])) := by
      simp [PortEvent.payload, PortEvent.constructor, PortEvent.argument, modelPrefix]
    rw [hshape]
    exact regexpLastGroup_reply hw hw' (by cases b <;> decide)
  | int n =>
    have hshape : (PortEvent.value (.int n)).payload i = modelPrefix i (['I', 'n', 't', '('] ++ (integerText n ++ [')'])) := by
      simp [PortEvent.payload, PortEvent.constructor, PortEvent.argument, modelPrefix, PortValue.text]
    rw [hshape]
    exact regexpLastGroup_reply hw hw' (by simp [not_mem_integerText (c := '\'') (by decide) (by decide)])
  | enum type field =>
    have htick : '\'' ∉ field.val ++ [')'] := by simp [Name.not_mem (n := field) (c := '\'') (by decide)]
    have hshape : (PortEvent.value (.enum type field)).payload i =
        makreelFullName type ++ (['('] ++ (makreelFullName type ++ (field.val ++ [')']))) := by
      simp [PortEvent.payload, PortEvent.constructor, PortEvent.argument, PortValue.text]
    rw [hshape, regexpLastGroup_fullName hw hw'.1, regexpLastGroup_tick_fullName hw hw' (by decide),
      regexpLastGroup_last_tick htick]

/-- What is made of the payload of an event, when nothing in it is taken for a flush. -/
theorem eventPrefix_event (i : FullName) (e : PortEvent) (hflush : flushRegexp (e.payload i) = none) :
    eventPrefix (e.payload i) = some e.runtime := by
  have hin : ['i', 'n'] ∈ dznKeywords := by decide
  have hout : ['o', 'u', 't'] ∈ dznKeywords := by decide
  unfold eventPrefix
  rw [hflush, inRegexp_eq, outRegexp_eq, boolRegexp_eq, voidRegexp_eq, enumRegexp_eq]
  rw [if_neg (by decide)]
  cases e with
  | trigger e =>
    have hfound := regexpLastGroup_direction (i := i) (a := ['i', 'n']) hin (by decide) (by decide) e
    have hshape : (PortEvent.trigger e).payload i = modelPrefix i ['a', 'c', 't', 'i', 'o', 'n'] ++
      '(' :: (modelPrefix i (['i', 'n'] ++ '\'' :: e.val) ++ [')']) := rfl
    rw [hshape, hfound]
    rfl
  | action e =>
    have hnot := regexpLastGroup_direction (i := i) (a := ['o', 'u', 't']) hin (by decide) (by decide) e
    have hfound := regexpLastGroup_direction (i := i) (a := ['o', 'u', 't']) hout (by decide) (by decide) e
    have hshape : (PortEvent.action e).payload i = modelPrefix i ['a', 'c', 't', 'i', 'o', 'n'] ++
      '(' :: (modelPrefix i (['o', 'u', 't'] ++ '\'' :: e.val) ++ [')']) := rfl
    rw [hshape, hnot, hfound]
    rfl
  | void =>
    have hshape : PortEvent.void.payload i = modelPrefix i ['V', 'o', 'i', 'd', '(', 'v', 'o', 'i', 'd', ')'] := by
      simp [PortEvent.payload, PortEvent.constructor, PortEvent.argument, modelPrefix]
    have hbool : ¬ ['\'', 'B', 'o', 'o', 'l'] <:+ PortEvent.void.constructor i := not_suffix (by decide)
    have hvoid : ['\'', 'V', 'o', 'i', 'd'] <:+ PortEvent.void.constructor i := tick_suffix i _
    rw [regexpLastGroup_payload (by decide), regexpLastGroup_payload (by decide), if_neg hbool, if_pos hvoid, hshape,
      regexpLastGroup_reply hin (by decide) (by decide), regexpLastGroup_reply hout (by decide) (by decide)]
    rfl
  | value v =>
    rw [regexpLastGroup_payload (by decide), regexpLastGroup_payload (by decide), regexpGroup_payload List.not_mem_nil,
      regexpLastGroup_value hin (by decide), regexpLastGroup_value hout (by decide), if_pos (List.nil_suffix)]
    cases v with
    | bool b =>
      have hbool : ['\'', 'B', 'o', 'o', 'l'] <:+ (PortEvent.value (.bool b)).constructor i := tick_suffix i _
      rw [if_pos hbool]
      cases b <;> rfl
    | int n =>
      have hbool : ¬ ['\'', 'B', 'o', 'o', 'l'] <:+ (PortEvent.value (.int n)).constructor i := not_suffix (by decide)
      have hvoid : ¬ ['\'', 'V', 'o', 'i', 'd'] <:+ (PortEvent.value (.int n)).constructor i := not_suffix (by decide)
      have hnot : '\'' ∉ integerText n := not_mem_integerText (by decide) (by decide) n
      rw [if_neg hbool, if_neg hvoid]
      exact congrArg some (makreelEnum_of_not_tick hnot)
    | enum type field =>
      have hbool : ¬ ['\'', 'B', 'o', 'o', 'l'] <:+ (PortEvent.value (.enum type field)).constructor i :=
        not_suffix_fullName (by decide) type
      have hvoid : ¬ ['\'', 'V', 'o', 'i', 'd'] <:+ (PortEvent.value (.enum type field)).constructor i :=
        not_suffix_fullName (by decide) type
      rw [if_neg hbool, if_neg hvoid]
      exact congrArg some (makreelEnum_enum type field)

theorem flushRegexp_eq_some (s : List Char) : flushRegexp s = none ∨ flushRegexp s = some "'flush".toList := by
  unfold flushRegexp
  split
  · exact .inr rfl
  · exact .inl rfl

/-- An event with a name in its payload that starts with `flush`, after a tick, is taken for a flush. -/
theorem eventPrefix_of_flush (h : flushRegexp s ≠ none) :
    eventPrefix s = some ['<', 'f', 'l', 'u', 's', 'h', '>'] := by
  have hsome := (flushRegexp_eq_some s).resolve_left h
  unfold eventPrefix
  rw [hsome]
  rfl

theorem not_mem_flushText (hc : identifierRest c = false) (htick : c ≠ '\'') : c ∉ PortLabel.flush.text i :=
  not_mem_modelPrefix (by decide) hc htick

theorem labelEvent_flush (i : FullName) : labelEvent (PortLabel.flush.text i) = some "'flush".toList := by
  have hopen : '(' ∉ PortLabel.flush.text i := not_mem_flushText (by decide) (by decide)
  have hflush : flushRegexp (PortLabel.flush.text i) = some "'flush".toList := by
    unfold flushRegexp
    rw [if_pos]
    rw [List.any_eq_true]
    obtain ⟨a, ha⟩ := tick_suffix i ['f', 'l', 'u', 's', 'h']
    refine ⟨_, (List.mem_tails _ _).2 ⟨a, ha⟩, by decide⟩
  unfold labelEvent
  rw [triggerRegexp_eq, actionRegexp_eq, replyRegexp_eq, regexpGroup_no_paren hopen, regexpGroup_no_paren hopen,
    regexpGroup_no_paren hopen, hflush]
  rfl

/-! ### States -/

theorem stateRegexp1_eq : stateRegexp1 s =
    (regexpGroup (['\'', 's', 't', 'a', 't', 'e'] ++ ['(']) [')', ')'] s).map (· ++ [')']) := rfl

theorem stateRegexp2_eq : stateRegexp2 s = regexpGroup (['\'', 's', 't', 'a', 't', 'e'] ++ ['(']) [')'] s :=
  rfl

theorem variableValueRegexp_eq : variableValueRegexp s =
    regexpGroup (['\'', 'v', 'a', 'r', 'i', 'a', 'b', 'l', 'e', 's'] ++ ['(']) [')'] s := rfl

theorem not_mem_valuesText {values : List PortValue} (hc : identifierRest c = false) (htick : c ≠ '\'')
    (hminus : c ≠ '-') (hcomma : c ≠ ',') (hspace : c ≠ ' ') : c ∉ valuesText values := by
  unfold valuesText
  intro hmem
  induction values with
  | nil => simp at hmem
  | cons v values ih =>
    cases values with
    | nil =>
      simp only [List.map_singleton, List.intercalate_singleton] at hmem
      exact not_mem_valueText hc htick hminus hmem
    | cons v' values =>
      rw [List.map_cons, List.map_cons, List.intercalate_cons_cons, List.mem_append, List.mem_append] at hmem
      obtain (hmem | hmem) | hmem := hmem
      · exact not_mem_valueText hc htick hminus hmem
      · simp [hcomma, hspace] at hmem
      · exact ih hmem

/-- What a state label has in its parentheses. -/
theorem stateRegexp_state (i : FullName) (values : List PortValue) :
    (stateRegexp1 ((PortLabel.state values).text i)).or (stateRegexp2 ((PortLabel.state values).text i)) =
      some (statePayload i values) := by
  have hopen : '(' ∉ modelPrefix i ['s', 't', 'a', 't', 'e'] := not_mem_modelPrefix (by decide) (by decide) (by decide)
  have hstate : ['\'', 's', 't', 'a', 't', 'e'] <:+ modelPrefix i ['s', 't', 'a', 't', 'e'] := tick_suffix i _
  unfold PortLabel.text
  rw [stateRegexp1_eq, stateRegexp2_eq, regexpGroup_paren (by decide) hopen, if_pos hstate,
    regexpGroup_paren (by decide) hopen, if_pos hstate]
  cases values with
  | nil =>
    have hvoid : '(' ∉ modelPrefix i ['V', 'o', 'i', 'd'] := not_mem_modelPrefix (by decide) (by decide) (by decide)
    have hclose : ')' ∉ modelPrefix i ['V', 'o', 'i', 'd'] := not_mem_modelPrefix (by decide) (by decide) (by decide)
    have hno : '(' ∉ modelPrefix i ['V', 'o', 'i', 'd'] ++ [')'] := by simp [hvoid]
    unfold statePayload
    rw [closeAt_eq_none hclose (by decide), closeAt_append hclose List.prefix_rfl, regexpGroup_no_paren hno]
    rfl
  | cons v values =>
    have hvariables : ')' ∉ modelPrefix i ['v', 'a', 'r', 'i', 'a', 'b', 'l', 'e', 's'] :=
      not_mem_modelPrefix (by decide) (by decide) (by decide)
    have hvalues : ')' ∉ valuesText (v :: values) :=
      not_mem_valuesText (by decide) (by decide) (by decide) (by decide) (by decide)
    have hgroup : ')' ∉ modelPrefix i ['v', 'a', 'r', 'i', 'a', 'b', 'l', 'e', 's'] ++ '(' :: valuesText (v :: values) := by
      simp [hvariables, hvalues]
    have hshape : statePayload i (v :: values) ++ [')'] =
        (modelPrefix i ['v', 'a', 'r', 'i', 'a', 'b', 'l', 'e', 's'] ++ '(' :: valuesText (v :: values)) ++
          ')' :: [')'] := by
      simp [statePayload]
    rw [hshape, closeAt_append hgroup List.prefix_rfl]
    simp [statePayload]

/-- The values in the parentheses of a state label. -/
theorem variableValueRegexp_state (i : FullName) (values : List PortValue) :
    variableValueRegexp (statePayload i values) = if values = [] then none else some (valuesText values) := by
  rw [variableValueRegexp_eq]
  cases values with
  | nil =>
    have hvoid : '(' ∉ modelPrefix i ['V', 'o', 'i', 'd'] := not_mem_modelPrefix (by decide) (by decide) (by decide)
    exact regexpGroup_no_paren hvoid
  | cons v values =>
    have hopen : '(' ∉ modelPrefix i ['v', 'a', 'r', 'i', 'a', 'b', 'l', 'e', 's'] :=
      not_mem_modelPrefix (by decide) (by decide) (by decide)
    have hvariables : ['\'', 'v', 'a', 'r', 'i', 'a', 'b', 'l', 'e', 's'] <:+
      modelPrefix i ['v', 'a', 'r', 'i', 'a', 'b', 'l', 'e', 's'] := tick_suffix i _
    have hclose : ')' ∉ valuesText (v :: values) :=
      not_mem_valuesText (by decide) (by decide) (by decide) (by decide) (by decide)
    unfold statePayload
    rw [regexpGroup_paren (by decide) hopen, if_pos hvariables, closeAt_append hclose List.prefix_rfl]
    rfl

/-- No other label has a state. -/
theorem stateRegexp_event (closing : List Char) (i : FullName) (e : PortEvent) :
    regexpGroup (['\'', 's', 't', 'a', 't', 'e'] ++ ['(']) closing ((PortLabel.event e).text i) = none := by
  have hkind : '(' ∉ modelPrefix i e.kind := by
    unfold modelPrefix
    rw [List.mem_append, not_or]
    exact ⟨not_mem_fullName (by decide) (by decide), not_mem_kind (by decide) (by decide)⟩
  have hconstructor : '(' ∉ e.constructor i := not_mem_constructor (by decide) (by decide)
  have hargument := open_not_mem_argument (i := i) e (by decide : '(' ∉ [')', ')'])
  have hnot : ¬ ['\'', 's', 't', 'a', 't', 'e'] <:+ modelPrefix i e.kind := by
    refine not_suffix ?_
    cases e <;> rfl
  have hpayload : e.payload i ++ [')'] = e.constructor i ++ '(' :: (e.argument i ++ [')', ')']) := by
    simp [PortEvent.payload]
  have htext : (PortLabel.event e).text i = modelPrefix i e.kind ++ '(' :: (e.payload i ++ [')']) := rfl
  rw [htext, hpayload, regexpGroup_paren (by decide) hkind, if_neg hnot, regexpGroup_paren (by decide) hconstructor,
    if_neg (not_suffix_constructor (by decide) e), regexpGroup_no_paren hargument]
  rfl

end

end Dezyne
