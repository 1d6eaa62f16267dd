import Dezyne.Hash
import Dezyne.Lib.Probe
/-!
# The map of the C runtime

A hash table with linear probing over chains of eight slots. A get and a remove
look along the whole chain; a put takes the first slot that is free or has the
key. When half of the slots are used, or a chain is, all is put into a table of
twice the size.
-/

namespace Dezyne

open Probe

/-! ## Keys and their hash -/

/-- A C string, without the NUL that ends it. -/
structure MapKey where
  bytes : List UInt8
  noNul : 0 ∉ bytes
  short : bytes.length < 65536
deriving DecidableEq

/-- `crc32_tab` -/
def crc32Tab : List UInt32 := [
  0x00000000, 0x77073096, 0xee0e612c, 0x990951ba, 0x076dc419, 0x706af48f, 0xe963a535, 0x9e6495a3,
  0x0edb8832, 0x79dcb8a4, 0xe0d5e91e, 0x97d2d988, 0x09b64c2b, 0x7eb17cbd, 0xe7b82d07, 0x90bf1d91,
  0x1db71064, 0x6ab020f2, 0xf3b97148, 0x84be41de, 0x1adad47d, 0x6ddde4eb, 0xf4d4b551, 0x83d385c7,
  0x136c9856, 0x646ba8c0, 0xfd62f97a, 0x8a65c9ec, 0x14015c4f, 0x63066cd9, 0xfa0f3d63, 0x8d080df5,
  0x3b6e20c8, 0x4c69105e, 0xd56041e4, 0xa2677172, 0x3c03e4d1, 0x4b04d447, 0xd20d85fd, 0xa50ab56b,
  0x35b5a8fa, 0x42b2986c, 0xdbbbc9d6, 0xacbcf940, 0x32d86ce3, 0x45df5c75, 0xdcd60dcf, 0xabd13d59,
  0x26d930ac, 0x51de003a, 0xc8d75180, 0xbfd06116, 0x21b4f4b5, 0x56b3c423, 0xcfba9599, 0xb8bda50f,
  0x2802b89e, 0x5f058808, 0xc60cd9b2, 0xb10be924, 0x2f6f7c87, 0x58684c11, 0xc1611dab, 0xb6662d3d,
  0x76dc4190, 0x01db7106, 0x98d220bc, 0xefd5102a, 0x71b18589, 0x06b6b51f, 0x9fbfe4a5, 0xe8b8d433,
  0x7807c9a2, 0x0f00f934, 0x9609a88e, 0xe10e9818, 0x7f6a0dbb, 0x086d3d2d, 0x91646c97, 0xe6635c01,
  0x6b6b51f4, 0x1c6c6162, 0x856530d8, 0xf262004e, 0x6c0695ed, 0x1b01a57b, 0x8208f4c1, 0xf50fc457,
  0x65b0d9c6, 0x12b7e950, 0x8bbeb8ea, 0xfcb9887c, 0x62dd1ddf, 0x15da2d49, 0x8cd37cf3, 0xfbd44c65,
  0x4db26158, 0x3ab551ce, 0xa3bc0074, 0xd4bb30e2, 0x4adfa541, 0x3dd895d7, 0xa4d1c46d, 0xd3d6f4fb,
  0x4369e96a, 0x346ed9fc, 0xad678846, 0xda60b8d0, 0x44042d73, 0x33031de5, 0xaa0a4c5f, 0xdd0d7cc9,
  0x5005713c, 0x270241aa, 0xbe0b1010, 0xc90c2086, 0x5768b525, 0x206f85b3, 0xb966d409, 0xce61e49f,
  0x5edef90e, 0x29d9c998, 0xb0d09822, 0xc7d7a8b4, 0x59b33d17, 0x2eb40d81, 0xb7bd5c3b, 0xc0ba6cad,
  0xedb88320, 0x9abfb3b6, 0x03b6e20c, 0x74b1d29a, 0xead54739, 0x9dd277af, 0x04db2615, 0x73dc1683,
  0xe3630b12, 0x94643b84, 0x0d6d6a3e, 0x7a6a5aa8, 0xe40ecf0b, 0x9309ff9d, 0x0a00ae27, 0x7d079eb1,
  0xf00f9344, 0x8708a3d2, 0x1e01f268, 0x6906c2fe, 0xf762575d, 0x806567cb, 0x196c3671, 0x6e6b06e7,
  0xfed41b76, 0x89d32be0, 0x10da7a5a, 0x67dd4acc, 0xf9b9df6f, 0x8ebeeff9, 0x17b7be43, 0x60b08ed5,
  0xd6d6a3e8, 0xa1d1937e, 0x38d8c2c4, 0x4fdff252, 0xd1bb67f1, 0xa6bc5767, 0x3fb506dd, 0x48b2364b,
  0xd80d2bda, 0xaf0a1b4c, 0x36034af6, 0x41047a60, 0xdf60efc3, 0xa867df55, 0x316e8eef, 0x4669be79,
  0xcb61b38c, 0xbc66831a, 0x256fd2a0, 0x5268e236, 0xcc0c7795, 0xbb0b4703, 0x220216b9, 0x5505262f,
  0xc5ba3bbe, 0xb2bd0b28, 0x2bb45a92, 0x5cb36a04, 0xc2d7ffa7, 0xb5d0cf31, 0x2cd99e8b, 0x5bdeae1d,
  0x9b64c2b0, 0xec63f226, 0x756aa39c, 0x026d930a, 0x9c0906a9, 0xeb0e363f, 0x72076785, 0x05005713,
  0x95bf4a82, 0xe2b87a14, 0x7bb12bae, 0x0cb61b38, 0x92d28e9b, 0xe5d5be0d, 0x7cdcefb7, 0x0bdbdf21,
  0x86d3d2d4, 0xf1d4e242, 0x68ddb3f8, 0x1fda836e, 0x81be16cd, 0xf6b9265b, 0x6fb077e1, 0x18b74777,
  0x88085ae6, 0xff0f6a70, 0x66063bca, 0x11010b5c, 0x8f659eff, 0xf862ae69, 0x616bffd3, 0x166ccf45,
  0xa00ae278, 0xd70dd2ee, 0x4e048354, 0x3903b3c2, 0xa7672661, 0xd06016f7, 0x4969474d, 0x3e6e77db,
  0xaed16a4a, 0xd9d65adc, 0x40df0b66, 0x37d83bf0, 0xa9bcae53, 0xdebb9ec5, 0x47b2cf7f, 0x30b5ffe9,
  0xbdbdf21c, 0xcabac28a, 0x53b39330, 0x24b4a3a6, 0xbad03605, 0xcdd70693, 0x54de5729, 0x23d967bf,
  0xb3667a2e, 0xc4614ab8, 0x5d681b02, 0x2a6f2b94, 0xb40bbe37, 0xc30c8ea1, 0x5a05df1b, 0x2d02ef8d]

/-- `crc32` -/
def crc32 (s : List UInt8) : UInt32 :=
  s.foldl (fun crc32val c => crc32Tab.getD ((crc32val ^^^ charValue c) &&& 0xff).toNat 0 ^^^ (crc32val >>> 8)) 0

/-- `dzn_map_hash_int`, before the remainder by the size of the table -/
def mixKey (key : UInt32) : UInt32 :=
  let key := key + (key <<< 12)
  let key := key ^^^ (key >>> 22)
  let key := key + (key <<< 4)
  let key := key ^^^ (key >>> 9)
  let key := key + (key <<< 10)
  let key := key ^^^ (key >>> 2)
  let key := key + (key <<< 7)
  let key := key ^^^ (key >>> 12)
  (key >>> 3) * 2654435761

/-- `dzn_map_hash_int` -/
def dznMapHashInt (tableSize : Nat) (keystring : MapKey) : Nat :=
  (mixKey (crc32 keystring.bytes)).toNat % tableSize

/-- The slots that a loop over a chain visits. -/
def probeFrom (tableSize : Nat) : Nat → Nat → List Nat
  | 0, _ => []
  | i + 1, curr => curr :: probeFrom tableSize i ((curr + 1) % tableSize)

/-- The chain of a key, of `MAX_CHAIN_LENGTH` slots. -/
def keyChain (tableSize : Nat) (key : MapKey) : List Nat :=
  probeFrom tableSize 8 (dznMapHashInt tableSize key)

/-! ## The map -/

section
variable {Value : Type}

/-- `dzn_map`; the size of the table is the length of its data. -/
structure DznMap (Value : Type) where
  size : Nat
  data : Table MapKey Value

/-- `dzn_calloc` of a table -/
def freshMap (tableSize : Nat) : DznMap Value := ⟨0, List.replicate tableSize none⟩

/-- `dzn_map_init` -/
def dznMapInit : DznMap Value := freshMap 256

/-- `dzn_map_hash`; `none` is `DZN_MAP_FULL`. -/
def dznMapHash (self : DznMap Value) (key : MapKey) : Option Nat :=
  if self.size ≥ self.data.length / 2 then none else pick self.data (keyChain self.data.length key) key

/-- What `dzn_map_put` does with the slot that was found. -/
def DznMap.store (self : DznMap Value) (index : Nat) (key : MapKey) (value : Value) : DznMap Value :=
  ⟨self.size + 1, self.data.set index (some (key, value))⟩

/-- `dzn_map_put` of a list of elements, one after the other; `dzn_map_rehash` puts the elements of the table
into a new one. `none` is a table of 65536 slots or more. -/
def dznMapPuts : Nat → DznMap Value → List (MapKey × Value) → Option (DznMap Value)
  | _, self, [] => some self
  | 0, _, _ :: _ => none
  | fuel + 1, self, (key, value) :: rest =>
    match dznMapHash self key with
    | some index => dznMapPuts fuel (self.store index key value) rest
    | none =>
      if 2 * self.data.length < 65536 then
        (dznMapPuts fuel (freshMap (2 * self.data.length)) (entries self.data)).bind fun rehashed =>
          dznMapPuts fuel rehashed ((key, value) :: rest)
      else none

/-- More than a put takes: there are at most sixteen doublings, and fewer than 65536 elements to put for each. -/
def putFuel : Nat := 16 * 65537 + 2

/-- `dzn_map_put` -/
def dznMapPut (self : DznMap Value) (key : MapKey) (value : Value) : Option (DznMap Value) :=
  dznMapPuts putFuel self [(key, value)]

/-- `dzn_map_get`; `none` is `DZN_MAP_MISSING`. -/
def dznMapGet (self : DznMap Value) (key : MapKey) : Option Value :=
  find self.data (keyChain self.data.length key) key

/-- `dzn_map_remove` -/
def dznMapRemove (self : DznMap Value) (key : MapKey) : DznMap Value :=
  match (keyChain self.data.length key).find? fun curr => (valueAt self.data key curr).isSome with
  | some curr => ⟨self.size - 1, self.data.set curr none⟩
  | none => self

inductive MapOp (Value : Type) where
  | put (key : MapKey) (value : Value)
  | get (key : MapKey)
  | remove (key : MapKey)

/-- The map after an operation. -/
def mapStep (self : DznMap Value) : MapOp Value → Option (DznMap Value)
  | .put key value => dznMapPut self key value
  | .get _ => some self
  | .remove key => some (dznMapRemove self key)

/-- The value of the last put of a key that was not followed by a remove of it. -/
def lastPut (key : MapKey) : List (MapOp Value) → Option Value :=
  List.foldl (fun value op => match op with
    | .put key' value' => if key' = key then some value' else value
    | .get _ => value
    | .remove key' => if key' = key then none else value) none

/-- When the table is not full, no slot of the chain is free before the one of the key that is put. -/
def PutsInPlace (self : DznMap Value) : MapOp Value → Prop
  | .put key _ => self.size < self.data.length / 2 → Reached (keyChain self.data.length key) self.data key
  | .get _ => True
  | .remove _ => True

/-- A run from an empty map, with the table below 65536 slots. -/
inductive InPlaceRun : List (MapOp Value) → DznMap Value → Prop
  | init : InPlaceRun [] dznMapInit
  | step {ops self op self'} : InPlaceRun ops self → PutsInPlace self op → mapStep self op = some self' →
    InPlaceRun (ops ++ [op]) self'

/-! ## What the operations do -/

/-- A key is in the map with a value. -/
def Stored (self : DznMap Value) (key : MapKey) (value : Value) : Prop := ∃ j, Holds self.data j key value

/-- The table is not too large, a key is on its chain and in one slot, and `size` counts at least the used slots. -/
structure MapOk (m : DznMap Value) : Prop where
  probed : Probed (keyChain m.data.length) m.data
  count : m.data.countP Option.isSome ≤ m.size
  large : 256 ≤ m.data.length
  small : m.data.length < 65536

/-- There is no free slot before that of a key. -/
def Filled (self : DznMap Value) : Prop := ∀ key, Reached (keyChain self.data.length key) self.data key

variable {self self' : DznMap Value} {key key' : MapKey} {value value' : Value} {index : Nat}

theorem freshMap_ok {n : Nat} (h : 256 ≤ n) (h' : n < 65536) : MapOk (freshMap n : DznMap Value) where
  probed := probed_replicate n
  count := by
    rw [freshMap, List.countP_replicate]
    exact Nat.le_refl 0
  large := by
    rw [freshMap, List.length_replicate]
    exact h
  small := by
    rw [freshMap, List.length_replicate]
    exact h'

theorem freshMap_filled (n : Nat) : Filled (freshMap n : DznMap Value) :=
  fun _ _ _ h => absurd h not_holds_replicate

theorem not_stored_freshMap (n : Nat) : ¬ Stored (freshMap n) key value := fun ⟨_, h⟩ => not_holds_replicate h

theorem dznMapHash_eq_some (h : dznMapHash self key = some index) :
    self.size < self.data.length / 2 ∧ pick self.data (keyChain self.data.length key) key = some index := by
  unfold dznMapHash at h
  split at h
  · cases h
  · rename_i hsize
    exact ⟨by omega, h⟩

theorem MapOk.store (value : Value) (hok : MapOk self) (h : dznMapHash self key = some index)
    (hr : Reached (keyChain self.data.length key) self.data key) :
    MapOk (self.store index key value) ∧
    ∀ k v, Stored (self.store index key value) k v ↔ if k = key then v = value else Stored self k v := by
  obtain ⟨-, hpick⟩ := dznMapHash_eq_some h
  obtain ⟨hprobed, hstored⟩ := hok.probed.store hr hpick value
  have hlt := (pick_spec hpick).2.1
  have hlen : (self.store index key value).data.length = self.data.length := List.length_set
  refine ⟨⟨by rw [hlen]; exact hprobed, ?_, by rw [hlen]; exact hok.large, by rw [hlen]; exact hok.small⟩, hstored⟩
  have hcount := hok.count
  unfold DznMap.store
  rw [List.countP_set hlt]
  simp only [Option.isSome_some, if_true]
  omega

theorem Filled.store (hf : Filled self) (h : dznMapHash self key = some index) :
    Filled (self.store index key value) := by
  have hlen : (self.store index key value).data.length = self.data.length := List.length_set
  unfold Filled
  rw [hlen]
  exact Reached.store hf (dznMapHash_eq_some h).2 value

section
variable {fuel : Nat} {rest : List (MapKey × Value)}

theorem dznMapPuts_index (h : dznMapHash self key = some index) :
    dznMapPuts (fuel + 1) self ((key, value) :: rest) = dznMapPuts fuel (self.store index key value) rest := by
  rw [dznMapPuts, h]

theorem dznMapPuts_full (h : dznMapHash self key = none) (hsmall : 2 * self.data.length < 65536) :
    dznMapPuts (fuel + 1) self ((key, value) :: rest) =
      (dznMapPuts fuel (freshMap (2 * self.data.length)) (entries self.data)).bind fun rehashed =>
        dznMapPuts fuel rehashed ((key, value) :: rest) := by
  rw [dznMapPuts, h]
  exact if_pos hsmall

theorem dznMapPuts_large (h : dznMapHash self key = none) (hlarge : ¬ 2 * self.data.length < 65536) :
    dznMapPuts (fuel + 1) self ((key, value) :: rest) = none := by
  rw [dznMapPuts, h]
  exact if_neg hlarge

end

/-! ## The fuel is enough -/

/-- Puts keep the table or make it larger. -/
theorem dznMapPuts_length {fuel : Nat} {l : List (MapKey × Value)} (h : dznMapPuts fuel self l = some self')
    (hsmall : self.data.length < 65536) : self.data.length ≤ self'.data.length ∧ self'.data.length < 65536 := by
  induction fuel generalizing self self' l with
  | zero =>
    cases l with
    | nil =>
      cases h
      exact ⟨le_refl _, hsmall⟩
    | cons => cases h
  | succ fuel ih =>
    cases l with
    | nil =>
      cases h
      exact ⟨le_refl _, hsmall⟩
    | cons e rest =>
      obtain ⟨key, value⟩ := e
      cases hhash : dznMapHash self key with
      | some index =>
        rw [dznMapPuts_index hhash] at h
        have hlen : (self.store index key value).data.length = self.data.length := List.length_set
        rw [← hlen] at hsmall ⊢
        exact ih h hsmall
      | none =>
        by_cases hdouble : 2 * self.data.length < 65536
        · rw [dznMapPuts_full hhash hdouble] at h
          obtain ⟨rehashed, hrehash, hput⟩ := Option.bind_eq_some_iff.1 h
          have hfresh : (freshMap (2 * self.data.length) : DznMap Value).data.length = 2 * self.data.length :=
            List.length_replicate
          obtain ⟨hle, hlt⟩ := ih hrehash (by rw [hfresh]; exact hdouble)
          obtain ⟨hle', hlt'⟩ := ih hput hlt
          rw [hfresh] at hle
          exact ⟨by omega, hlt'⟩
        · rw [dznMapPuts_large hhash hdouble] at h
          cases h

theorem length_entries_le (t : Table MapKey Value) : (entries t).length ≤ t.length :=
  List.length_filterMap_le _ _

theorem fuel_rehash {d e l n fuel : Nat} (h : (d + 1) * 65537 + (l + 1) + 1 ≤ fuel + 1) (he : e ≤ n)
    (hn : n < 65536) : d * 65537 + e + 1 ≤ fuel ∧ d * 65537 + (l + 1) + 1 ≤ fuel := by
  omega

/-- With at most `d` doublings left, this fuel is enough: more gives the same. -/
theorem dznMapPuts_enough {fuel d : Nat} {l : List (MapKey × Value)} (hsmall : self.data.length < 65536)
    (hd : 65536 ≤ self.data.length * 2 ^ (d + 1)) (hfuel : d * 65537 + l.length + 1 ≤ fuel) :
    dznMapPuts fuel self l = dznMapPuts (fuel + 1) self l := by
  induction fuel generalizing self d l with
  | zero => omega
  | succ fuel ih =>
    cases l with
    | nil => rfl
    | cons e rest =>
      obtain ⟨key, value⟩ := e
      rw [List.length_cons] at hfuel
      cases hhash : dznMapHash self key with
      | some index =>
        have hlen : (self.store index key value).data.length = self.data.length := List.length_set
        rw [dznMapPuts_index hhash, dznMapPuts_index hhash]
        exact ih (by rw [hlen]; exact hsmall) (by rw [hlen]; exact hd) (by omega)
      | none =>
        by_cases hdouble : 2 * self.data.length < 65536
        · cases d with
          | zero => omega
          | succ d =>
            have hfresh : (freshMap (2 * self.data.length) : DznMap Value).data.length = 2 * self.data.length :=
              List.length_replicate
            have hleft : 65536 ≤ 2 * self.data.length * 2 ^ (d + 1) := by
              rw [pow_succ 2 (d + 1)] at hd
              calc 65536 ≤ self.data.length * (2 ^ (d + 1) * 2) := hd
                _ = 2 * self.data.length * 2 ^ (d + 1) := by ring
            have hsmall' : (freshMap (2 * self.data.length) : DznMap Value).data.length < 65536 := by
              rw [hfresh]
              exact hdouble
            obtain ⟨hfuel', hfuel''⟩ := fuel_rehash hfuel (length_entries_le self.data) hsmall
            have hrehash : dznMapPuts fuel (freshMap (2 * self.data.length)) (entries self.data) =
                dznMapPuts (fuel + 1) (freshMap (2 * self.data.length)) (entries self.data) := by
              refine ih hsmall' ?_ hfuel'
              rw [hfresh]
              exact hleft
            rw [dznMapPuts_full hhash hdouble, dznMapPuts_full hhash hdouble, ← hrehash]
            cases hresult : dznMapPuts fuel (freshMap (2 * self.data.length)) (entries self.data) with
            | none => rfl
            | some rehashed =>
              obtain ⟨hle, hlt⟩ := dznMapPuts_length hresult hsmall'
              rw [hfresh] at hle
              have hput : dznMapPuts fuel rehashed ((key, value) :: rest) =
                  dznMapPuts (fuel + 1) rehashed ((key, value) :: rest) := by
                refine ih hlt (hleft.trans (Nat.mul_le_mul_right _ hle)) ?_
                rw [List.length_cons]
                exact hfuel''
              exact hput
        · rw [dznMapPuts_large hhash hdouble, dznMapPuts_large hhash hdouble]

/-- More fuel does not change a put: without a result, the table does not stay below 65536 slots. -/
theorem dznMapPut_enough (hpos : 0 < self.data.length) (hsmall : self.data.length < 65536) {fuel : Nat}
    (hfuel : putFuel ≤ fuel) : dznMapPuts fuel self [(key, value)] = dznMapPut self key value := by
  induction fuel, hfuel using Nat.le_induction with
  | base => rfl
  | succ fuel hfuel ih =>
    have hd : 65536 ≤ self.data.length * 2 ^ (16 + 1) := by omega
    have henough : 16 * 65537 + [(key, value)].length + 1 ≤ fuel := hfuel
    rw [← ih, ← dznMapPuts_enough hsmall hd henough]

/-- What puts of different keys leave in the map. -/
def Replaces (self self' : DznMap Value) (l : List (MapKey × Value)) : Prop :=
  MapOk self' ∧ Filled self' ∧ ∀ k v, Stored self' k v ↔ (k, v) ∈ l ∨ k ∉ l.map Prod.fst ∧ Stored self k v

theorem Replaces.nil (hok : MapOk self) (hf : Filled self) : Replaces self self [] :=
  ⟨hok, hf, by simp⟩

/-- Putting what is in a map into a new one gives the same map. -/
theorem Replaces.rehashed {n : Nat} (h : Replaces (freshMap n) self' (entries self.data)) :
    Stored self' key value ↔ Stored self key value := by
  rw [h.2.2]
  constructor
  · rintro (hmem | ⟨-, hfresh⟩)
    · exact mem_entries.1 hmem
    · exact absurd hfresh (not_stored_freshMap n)
  · intro hstored
    exact .inl (mem_entries.2 hstored)

/-- Putting different keys replaces their values, when no slot before that of a key is free. -/
theorem dznMapPuts_spec {fuel : Nat} {l : List (MapKey × Value)} (h : dznMapPuts fuel self l = some self')
    (hok : MapOk self) (hf : Filled self) (hkeys : (l.map Prod.fst).Nodup) : Replaces self self' l := by
  induction fuel generalizing self self' l with
  | zero =>
    cases l with
    | nil =>
      cases h
      exact .nil hok hf
    | cons => cases h
  | succ fuel ih =>
    cases l with
    | nil =>
      cases h
      exact .nil hok hf
    | cons e rest =>
      obtain ⟨key, value⟩ := e
      cases hhash : dznMapHash self key with
      | some index =>
        rw [dznMapPuts_index hhash] at h
        obtain ⟨hnot, hnodup⟩ := List.nodup_cons.1 hkeys
        obtain ⟨hok', hstored⟩ := hok.store value hhash (hf key)
        obtain ⟨hok'', hf'', hall⟩ := ih h hok' (hf.store hhash) hnodup
        refine ⟨hok'', hf'', fun k v => ?_⟩
        rw [hall, hstored, List.mem_cons, Prod.mk.injEq, List.map_cons, List.mem_cons, not_or]
        by_cases hk : k = key
        · subst hk
          rw [if_pos rfl, and_iff_right hnot]
          simp [or_comm]
        · simp [hk]
      | none =>
        by_cases hsmall : 2 * self.data.length < 65536
        · rw [dznMapPuts_full hhash hsmall] at h
          obtain ⟨rehashed, hrehash, hput⟩ := Option.bind_eq_some_iff.1 h
          have hlarge := hok.large
          have hrehashed := ih hrehash (freshMap_ok (by omega) hsmall) (freshMap_filled _) hok.probed.nodup_entries
          obtain ⟨hok', hf', hall⟩ := ih hput hrehashed.1 hrehashed.2.1 hkeys
          exact ⟨hok', hf', fun k v => by rw [hall, hrehashed.rehashed]⟩
        · rw [dznMapPuts_large hhash hsmall] at h
          cases h

/-- What `dzn_map_put` does. -/
theorem dznMapPut_spec (h : dznMapPut self key value = some self') (hok : MapOk self)
    (hplace : PutsInPlace self (.put key value)) :
    MapOk self' ∧ ∀ k v, Stored self' k v ↔ if k = key then v = value else Stored self k v := by
  have hkeys : ([(key, value)].map Prod.fst).Nodup := by simp
  unfold dznMapPut putFuel at h
  cases hhash : dznMapHash self key with
  | some index =>
    rw [dznMapPuts_index hhash] at h
    cases h
    exact hok.store value hhash (hplace (dznMapHash_eq_some hhash).1)
  | none =>
    by_cases hsmall : 2 * self.data.length < 65536
    · rw [dznMapPuts_full hhash hsmall] at h
      obtain ⟨rehashed, hrehash, hput⟩ := Option.bind_eq_some_iff.1 h
      have hlarge := hok.large
      have hrehashed := dznMapPuts_spec hrehash (freshMap_ok (by omega) hsmall) (freshMap_filled _)
        hok.probed.nodup_entries
      obtain ⟨hok', -, hall⟩ := dznMapPuts_spec hput hrehashed.1 hrehashed.2.1 hkeys
      refine ⟨hok', fun k v => ?_⟩
      rw [hall, hrehashed.rehashed]
      by_cases hk : k = key
      · simp [hk]
      · simp [hk]
    · rw [dznMapPuts_large hhash hsmall] at h
      cases h

/-- What `dzn_map_remove` does. -/
theorem dznMapRemove_spec (key : MapKey) (hok : MapOk self) :
    MapOk (dznMapRemove self key) ∧ ∀ k v, Stored (dznMapRemove self key) k v ↔ k ≠ key ∧ Stored self k v := by
  unfold dznMapRemove
  cases hfind : (keyChain self.data.length key).find? fun curr => (valueAt self.data key curr).isSome with
  | some curr =>
    have hsome := List.find?_some hfind
    obtain ⟨w, hw⟩ := Option.isSome_iff_exists.1 hsome
    have hcurr := valueAt_eq_some.1 hw
    have hlt := lt_of_holds hcurr
    obtain ⟨hprobed, hstored⟩ := hok.probed.erase hcurr
    have hlen : (self.data.set curr none).length = self.data.length := List.length_set
    refine ⟨⟨by rw [hlen]; exact hprobed, ?_, by rw [hlen]; exact hok.large, by rw [hlen]; exact hok.small⟩, hstored⟩
    have hused : self.data[curr] = some (key, w) := Option.some.inj (by rw [← List.getElem?_eq_getElem hlt]; exact hcurr)
    have hcount := hok.count
    rw [List.countP_set hlt, hused]
    simp only [Option.isSome_some, if_true]
    simp
    omega
  | none =>
    refine ⟨hok, fun k v => (and_iff_right_of_imp ?_).symm⟩
    rintro ⟨j, hj⟩ rfl
    have hnot := List.find?_eq_none.1 hfind j (hok.probed.placed hj)
    rw [valueAt_eq_some.2 hj] at hnot
    exact hnot rfl

/-! ## Runs -/

theorem lastPut_append (ops : List (MapOp Value)) (op : MapOp Value) :
    lastPut key (ops ++ [op]) = match op with
    | .put key' value' => if key' = key then some value' else lastPut key ops
    | .get _ => lastPut key ops
    | .remove key' => if key' = key then none else lastPut key ops := by
  unfold lastPut
  rw [List.foldl_append]
  rfl

/-- The map holds the last values. -/
theorem InPlaceRun.stored {ops : List (MapOp Value)} (h : InPlaceRun ops self) :
    MapOk self ∧ ∀ k v, Stored self k v ↔ lastPut k ops = some v := by
  induction h with
  | init =>
    refine ⟨freshMap_ok (Nat.le_refl 256) (by omega), fun k v => ?_⟩
    exact iff_of_false (not_stored_freshMap 256) (by simp [lastPut])
  | @step ops self op self' hrun hplace hstep ih =>
    obtain ⟨hok, hstored⟩ := ih
    cases op with
    | put key value =>
      obtain ⟨hok', hall⟩ := dznMapPut_spec hstep hok hplace
      refine ⟨hok', fun k v => ?_⟩
      rw [hall, lastPut_append, hstored]
      by_cases hk : key = k
      · subst hk
        simp [eq_comm]
      · simp [hk, Ne.symm hk]
    | get key =>
      cases hstep
      exact ⟨hok, fun k v => by rw [hstored, lastPut_append]⟩
    | remove key =>
      cases hstep
      obtain ⟨hok', hall⟩ := dznMapRemove_spec key hok
      refine ⟨hok', fun k v => ?_⟩
      rw [hall, lastPut_append, hstored]
      by_cases hk : key = k
      · simp [hk]
      · simp [hk, Ne.symm hk]

/-- In a run whose puts are in place, a get returns the value of the last put that was not removed. -/
theorem dznMapGet_eq (ops : List (MapOp Value)) (self : DznMap Value) (h : InPlaceRun ops self)
    (key : MapKey) : dznMapGet self key = lastPut key ops := by
  obtain ⟨hok, hstored⟩ := h.stored
  ext v
  rw [← hstored]
  exact hok.probed.find_iff

end

/-! ## Two keys of one chain -/

/-- `"k"` -/
def keyK : MapKey := ⟨[107], by decide, by decide⟩

/-- `"x"`, which has the chain of `"k"` in a table of 256 slots -/
def keyX : MapKey := ⟨[120], by decide, by decide⟩

set_option maxRecDepth 4096 in
theorem dznMapGet_eq_put : ∃ self : DznMap Nat, InPlaceRun [.put keyK 1] self ∧
    dznMapGet self keyK = lastPut keyK [.put keyK 1] := by
  obtain ⟨self, h⟩ := Option.isSome_iff_exists.1 (by decide : (dznMapPut dznMapInit keyK 1).isSome)
  have hrun : InPlaceRun [.put keyK 1] self := .step .init (fun _ => freshMap_filled 256 keyK) h
  exact ⟨self, hrun, dznMapGet_eq [.put keyK 1] self hrun keyK⟩

/-- `"x"` is put behind `"k"`, and again when `"k"` is removed. -/
def staleOps : List (MapOp Nat) := [.put keyK 1, .put keyX 2, .remove keyK, .put keyX 3, .remove keyX]

set_option maxRecDepth 4096 in
/-- After the last remove of `"x"` its first value is found. -/
theorem dznMapGet_stale :
    (staleOps.foldlM mapStep dznMapInit).map (fun self => dznMapGet self keyX) = some (some 2) ∧
    lastPut keyX staleOps = none := by
  decide

end Dezyne
