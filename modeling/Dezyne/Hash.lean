import Dezyne.Lib.Rolling
import Mathlib.Tactic.NormNum
/-!
# The hash of a case label

The switch in `dzn_update_state` is over the hash of the state and the label.
The generator computes the hash of each case with `dzn:hash`, the runtime that
of the event that came with `dzn::hash`: the first with integers and a remainder
at each step, the second in 32 bits.
-/

namespace Dezyne

/-! ## The generator -/

/-- A step of `string-fold` in `dzn:hash`. -/
def hashChar (hPow : Int × Int) (c : Char) : Int × Int :=
  let c := (c.toNat : Int) - 47
  let (h, pow) := hPow
  let pow := pow * 79 % 4294967296
  let h := (h + c * pow % 4294967296) % 4294967296
  (h, pow)

/-- `dzn:hash` -/
def dznHash (r : List String) (h : Nat) : Int :=
  ((toString h :: r).foldl (fun hPow s => s.toList.foldl hashChar hPow) (0, 1)).1

/-! ## The runtime -/

/-- What a `char const*` points at, up to the NUL that ends it. -/
def cString (s : List Char) : List UInt8 := (s.flatMap String.utf8EncodeChar).takeWhile (· ≠ 0)

/-- A `char` as an operand: it is signed. -/
def charValue (c : UInt8) : UInt32 := c.toInt8.toInt32.toUInt32

/-- A step of the loops of `dzn::hash`. -/
def Runtime.hashChar (hPower : UInt32 × UInt32) (c : UInt8) : UInt32 × UInt32 :=
  let (h, power) := hPower
  let power := power * 79
  (h + (charValue c - 47) * power, power)

/-- `dzn::hash` -/
def Runtime.hash (label : String) (state : UInt32) : UInt32 :=
  let n := toString state.toNat
  ((cString label.toList).foldl Runtime.hashChar ((cString n.toList).foldl Runtime.hashChar (0, 1))).1

/-! ## The two agree -/

/-- The characters a `char const*` can hold as they are. -/
def IsAscii (c : Char) : Prop := c.toNat < 128

/-- What holds of the characters of a text is decided along the text. -/
instance (priority := high) decidableText (s : List Char) (p : Char → Prop) [DecidablePred p] :
    Decidable (∀ c ∈ s, p c) := List.decidableBAll p s

def AsciiText (s : String) : Prop := ∀ c ∈ s.toList, IsAscii c

/-- The generator's numbers are those of the runtime. -/
def SameHash (hPow : Int × Int) (hPower : UInt32 × UInt32) : Prop :=
  hPow.1 = hPower.1.toNat ∧ hPow.2 = hPower.2.toNat

theorem utf8EncodeChar_ascii {c : Char} (hc : IsAscii c) :
    String.utf8EncodeChar c = [UInt8.ofNat c.toNat] := by
  have hle : c.val.toNat ≤ 0x7f := Nat.le_of_lt_succ hc
  unfold String.utf8EncodeChar
  rw [if_pos hle]
  rfl

/-- A text of ASCII characters is its own C string, when none of them is NUL. -/
theorem cString_ascii {s : List Char} (hs : ∀ c ∈ s, IsAscii c) (h0 : '\x00' ∉ s) :
    cString s = s.map fun c => UInt8.ofNat c.toNat := by
  induction s with
  | nil => rfl
  | cons c s ih =>
    have hc : IsAscii c := hs c List.mem_cons_self
    have hne : UInt8.ofNat c.toNat ≠ 0 := by
      intro heq
      have h : c.toNat % 256 = 0 := by simpa using congrArg UInt8.toNat heq
      have hnul : c.toNat = 0 := by
        unfold IsAscii at hc
        omega
      exact h0 (List.mem_cons.2 (.inl (Char.toNat_inj.1 hnul).symm))
    have hrest := ih (fun c hc => hs c (List.mem_cons_of_mem _ hc)) (fun h => h0 (List.mem_cons_of_mem _ h))
    unfold cString at hrest ⊢
    rw [List.flatMap_cons, utf8EncodeChar_ascii hc, List.singleton_append,
      List.takeWhile_cons_of_pos (by simpa using hne), hrest, List.map_cons]

/-- The 32-bit difference wraps below the base. -/
theorem toNat_charValue {c : Char} (hc : IsAscii c) :
    (((charValue (UInt8.ofNat c.toNat) - 47).toNat : Nat) : Int) = ((c.toNat : Int) - 47) % 4294967296 := by
  have hall : ∀ n : Fin 128,
      (((charValue (UInt8.ofNat n) - 47).toNat : Nat) : Int) = ((n : Int) - 47) % 4294967296 := by
    decide
  exact hall ⟨c.toNat, hc⟩

theorem toNat_mulAdd (a b c : UInt32) :
    ((a + b * c).toNat : Int) = ((a.toNat : Int) + (b.toNat : Int) * c.toNat % 4294967296) % 4294967296 := by
  rw [UInt32.toNat_add, UInt32.toNat_mul]
  norm_cast

theorem hashChar_same {hPow : Int × Int} {hPower : UInt32 × UInt32} {c : Char} (hc : IsAscii c)
    (h : SameHash hPow hPower) :
    SameHash (hashChar hPow c) (Runtime.hashChar hPower (UInt8.ofNat c.toNat)) := by
  obtain ⟨hh, hpow⟩ := h
  have hpower : hPow.2 * 79 % 4294967296 = ((hPower.2 * 79).toNat : Int) := by
    rw [UInt32.toNat_mul, hpow]
    rfl
  refine ⟨?_, hpower⟩
  show (hPow.1 + ((c.toNat : Int) - 47) * (hPow.2 * 79 % 4294967296) % 4294967296) % 4294967296 =
    ((hPower.1 + (charValue (UInt8.ofNat c.toNat) - 47) * (hPower.2 * 79)).toNat : Int)
  have hmul : ∀ a b : Int, a * b ≡ a % 4294967296 * b [ZMOD 4294967296] := fun a b =>
    ((Int.mod_modEq a 4294967296).mul_right b).symm
  rw [toNat_mulAdd, toNat_charValue hc, hpower, hh, hmul]

/-- A loop of the runtime computes a `string-fold` of the generator. -/
theorem foldl_same {s : List Char} (hs : ∀ c ∈ s, IsAscii c) {hPow : Int × Int} {hPower : UInt32 × UInt32}
    (h : SameHash hPow hPower) : SameHash (s.foldl hashChar hPow)
      ((s.map fun c => UInt8.ofNat c.toNat).foldl Runtime.hashChar hPower) := by
  induction s generalizing hPow hPower with
  | nil => exact h
  | cons c s ih =>
    exact ih (fun c hc => hs c (List.mem_cons_of_mem _ hc)) (hashChar_same (hs c List.mem_cons_self) h)

theorem isDigit_of_mem_toString {n : Nat} {c : Char} (hc : c ∈ (toString n).toList) : c.isDigit = true :=
  Nat.isDigit_of_mem_toDigits (by decide) (by decide) (Nat.toList_repr ▸ hc)

theorem IsAscii.of_digit {c : Char} (hc : c.isDigit = true) : IsAscii c ∧ c ≠ '\x00' := by
  obtain ⟨hlo, hhi⟩ := Char.isDigit_iff_toNat.1 hc
  have h0 : '0'.toNat = 48 := rfl
  have h9 : '9'.toNat = 57 := rfl
  refine ⟨?_, ?_⟩
  · unfold IsAscii
    omega
  · rintro rfl
    exact absurd hlo (by decide)

theorem dznHash_toNat {label : String} (hl : AsciiText label) (h0 : '\x00' ∉ label.toList) {state : Nat}
    (hstate : state < 2 ^ 32) : dznHash [label] state = (Runtime.hash label (UInt32.ofNat state)).toNat := by
  have hn : (UInt32.ofNat state).toNat = state := UInt32.toNat_ofNat_of_lt' hstate
  have hdigits : ∀ c ∈ (toString state).toList, c.isDigit = true := fun c hc => isDigit_of_mem_toString hc
  have hascii : ∀ c ∈ (toString state).toList, IsAscii c := fun c hc => (IsAscii.of_digit (hdigits c hc)).1
  have hnul : '\x00' ∉ (toString state).toList := fun h => (IsAscii.of_digit (hdigits _ h)).2 rfl
  have hinit : SameHash (0, 1) (0, 1) := ⟨rfl, rfl⟩
  have h := (foldl_same hl (foldl_same hascii hinit)).1
  rw [← cString_ascii hascii hnul, ← cString_ascii hl h0] at h
  unfold Runtime.hash
  rw [hn]
  exact h

/-- The generator and the runtime compute the same hash of a label and a state. -/
theorem dznHash_eq (label : String) (hl : AsciiText label) (h0 : '\x00' ∉ label.toList) (state : Nat)
    (hstate : state < 2 ^ 32) : dznHash [label] state = (Runtime.hash label (UInt32.ofNat state)).toNat :=
  dznHash_toNat hl h0 hstate

theorem dznHash_eq_return : dznHash ["return"] 1 = (Runtime.hash "return" 1).toNat :=
  dznHash_eq "return" (by unfold AsciiText IsAscii; decide) (by decide) 1 (by decide)

/-- The runtime stops at a NUL, the generator does not. -/
theorem dznHash_ne_nul : ¬ ∀ label : String, AsciiText label → ∀ state < 2 ^ 32,
    dznHash [label] state = (Runtime.hash label (UInt32.ofNat state)).toNat := by
  intro h
  exact absurd (h "\x00" (by unfold AsciiText IsAscii; decide) 0 (by decide)) (by decide)

/-! ## Collisions -/

/-- What `dzn:hash` hashes. -/
def hashText (label : String) (state : Nat) : List Char := (toString state).toList ++ label.toList

/-- The number that a text is in base 79, its first character with the least weight. -/
def textNumber (text : List Char) : Int := Rolling.number 79 (text.map fun c => (c.toNat : Int) - 47)

theorem foldl_hashChar (s : List Char) (hPow : Int × Int) : s.foldl hashChar hPow =
    (s.map fun c => (c.toNat : Int) - 47).foldl (Rolling.step 79 4294967296) hPow := by
  rw [List.foldl_map]
  rfl

/-- The hash is the remainder of the number of the text, times the base. -/
theorem dznHash_eq_number (label : String) (state : Nat) :
    dznHash [label] state = 79 * textNumber (hashText label state) % 4294967296 := by
  unfold textNumber hashText
  rw [← Rolling.foldl_step_init, ← foldl_hashChar, List.foldl_append]
  rfl

/-- Two hashes are the same if and only if the numbers of the texts differ by a multiple of 2^32. -/
theorem dznHash_eq_iff (label label' : String) (state state' : Nat) :
    dznHash [label] state = dznHash [label'] state' ↔
      ∃ k : Int, textNumber (hashText label' state') = textNumber (hashText label state) + k * 4294967296 := by
  have hcoprime : IsCoprime (4294967296 : Int) 79 := ⟨-30, 1631000239, by decide⟩
  rw [dznHash_eq_number, dznHash_eq_number]
  unfold textNumber
  rw [Rolling.collide_iff hcoprime]
  constructor
  · rintro ⟨k, hk⟩
    exact ⟨k, by linarith⟩
  · rintro ⟨k, hk⟩
    exact ⟨k, by linarith⟩

/-- The characters of names, numbers, `<flush>` and the `:` of an enum literal. -/
def LabelChar (c : Char) : Prop := 45 ≤ c.toNat ∧ c.toNat ≤ 122 ∧ c ≠ '/'

theorem labelChar_digits : Rolling.Digits 79 fun d => -2 ≤ d ∧ d ≤ 75 ∧ d ≠ 0 where
  base := by decide
  nonzero := by
    rintro d ⟨hlo, hhi, hne⟩ hd
    omega
  separate := by
    rintro d d' ⟨hlo, hhi, -⟩ ⟨hlo', hhi', -⟩ hd
    omega

theorem LabelChar.digit {c : Char} (hc : LabelChar c) :
    -2 ≤ (c.toNat : Int) - 47 ∧ (c.toNat : Int) - 47 ≤ 75 ∧ (c.toNat : Int) - 47 ≠ 0 := by
  obtain ⟨hlo, hhi, hne⟩ := hc
  have h47 : c.toNat ≠ 47 := fun h => hne (Char.toNat_inj.1 h)
  omega

/-- Labels with the same number have the same text. -/
theorem textNumber_inj {text text' : List Char} (h : ∀ c ∈ text, LabelChar c) (h' : ∀ c ∈ text', LabelChar c)
    (heq : textNumber text = textNumber text') : text = text' := by
  have hdigits : ∀ t : List Char, (∀ c ∈ t, LabelChar c) →
      ∀ d ∈ t.map fun c => (c.toNat : Int) - 47, -2 ≤ d ∧ d ≤ 75 ∧ d ≠ 0 := by
    intro t ht d hd
    obtain ⟨c, hc, rfl⟩ := List.mem_map.1 hd
    exact (ht c hc).digit
  have hmap := labelChar_digits.number_inj (hdigits text h) (hdigits text' h') heq
  refine (List.map_inj_right ?_).1 hmap
  intro c c' hcc
  exact Char.toNat_inj.1 (by omega)

/-- The bounds of the number of a label. -/
theorem textNumber_bounds {text : List Char} (h : ∀ c ∈ text, LabelChar c) :
    -2 * (79 ^ text.length - 1) ≤ 78 * textNumber text ∧ 78 * textNumber text ≤ 75 * (79 ^ text.length - 1) := by
  induction text with
  | nil => exact ⟨le_refl _, le_refl _⟩
  | cons c text ih =>
    obtain ⟨hlo, hhi⟩ := ih fun c hc => h c (List.mem_cons_of_mem _ hc)
    obtain ⟨hclo, hchi, -⟩ := (h c List.mem_cons_self).digit
    have hcons : textNumber (c :: text) = ((c.toNat : Int) - 47) + 79 * textNumber text := rfl
    rw [hcons, List.length_cons, pow_succ]
    constructor <;> linarith

/-- The digits of the state end where the label starts. -/
theorem hashText_inj {label label' : String} {state state' : Nat}
    (h : ∀ c ∈ label.toList.head?, ¬ c.isDigit = true) (h' : ∀ c ∈ label'.toList.head?, ¬ c.isDigit = true)
    (heq : hashText label state = hashText label' state') : state = state' ∧ label = label' := by
  have htake : ∀ (l : String) (n : Nat), (∀ c ∈ l.toList.head?, ¬ c.isDigit = true) →
      (hashText l n).takeWhile Char.isDigit = (toString n).toList := by
    intro l n hl
    have hlabel : l.toList.takeWhile Char.isDigit = [] := by
      cases hlist : l.toList with
      | nil => rfl
      | cons c cs => exact List.takeWhile_cons_of_neg (hl c (by rw [hlist]; rfl))
    rw [hashText, List.takeWhile_append_of_pos fun c hc => isDigit_of_mem_toString hc, hlabel, List.append_nil]
  have hdigits : (toString state).toList = (toString state').toList := by
    rw [← htake label state h, heq, htake label' state' h']
  rw [hashText, hashText, hdigits, List.append_cancel_left_eq, String.toList_inj] at heq
  have hvalue : ∀ n : Nat, Nat.ofDigitChars 10 (toString n).toList 0 = n := fun n =>
    (congrArg (fun l => Nat.ofDigitChars 10 l 0) Nat.toList_repr).trans Nat.ofDigitChars_ten_toDigits
  exact ⟨by rw [← hvalue state, hdigits, hvalue], heq⟩

/-- Short texts do not collide. -/
theorem dznHash_ne_of_short {label label' : String} {state state' : Nat}
    (h : ∀ c ∈ hashText label state, LabelChar c) (h' : ∀ c ∈ hashText label' state', LabelChar c)
    (hlen : (hashText label state).length ≤ 5) (hlen' : (hashText label' state').length ≤ 5)
    (hne : hashText label state ≠ hashText label' state') : dznHash [label] state ≠ dznHash [label'] state' := by
  intro heq
  obtain ⟨k, hk⟩ := (dznHash_eq_iff label label' state state').1 heq
  have hpow : ∀ n ≤ 5, (79 : Int) ^ n ≤ 3077056399 := by decide
  obtain ⟨hlo, hhi⟩ := textNumber_bounds h
  obtain ⟨hlo', hhi'⟩ := textNumber_bounds h'
  have hle := hpow _ hlen
  have hle' := hpow _ hlen'
  have hzero : k = 0 := by omega
  rw [hzero, zero_mul, add_zero] at hk
  exact hne (textNumber_inj h h' hk.symm)

end Dezyne
