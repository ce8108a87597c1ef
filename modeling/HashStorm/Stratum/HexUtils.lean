import HashStorm.Blockchain.Bitcoin.SubmitValidation
import Mathlib.Data.Nat.Digits.Lemmas

/-!
# Hex digits of either case

`HexUtils` admits digits of either case, and duplicates are looked up without
regard to case. Two texts of digits that denote the same bytes, or the same
number, differ only in case.
-/

namespace HashStorm.Stratum

open Bitcoin

/-- The digits that `IsFixedLengthHex` lets pass. -/
def isHexDigit (char : UInt16) : Bool :=
  let c := char.toUInt32
  c - 48 ≤ 9 || (c ||| 0x20) - 97 ≤ 5

/-- `IsFixedLengthHex`. -/
def isFixedLengthHex (value : Text) (length : Nat) : Bool :=
  value.length = length && value.all isHexDigit

/-- `HexToReverseByteArray`. -/
def hexToReverseByteArray (str : Text) : List UInt8 := (hexToByteArray str).reverse

/-- `ToLower` of an ASCII character. -/
def lowerChar (c : UInt16) : UInt16 := if 65 ≤ c ∧ c ≤ 90 then c + 32 else c

/-- `ToLower` of an ASCII text. -/
def toLower (value : Text) : Text := value.map lowerChar

/-- The number that hex digits denote, the most significant digit first. -/
def hexNumber (value : Text) : Nat :=
  Nat.ofDigits 16 (value.reverse.map fun c => (getHexVal c).toNat)

/-- `TryParse` with `NumberStyles.HexNumber`, for numbers of the given width in bits. -/
def tryParseHexNumber (bits : Nat) (value : Text) : Option Nat :=
  if value ≠ [] ∧ value.all isHexDigit ∧ hexNumber value < 2 ^ bits then some (hexNumber value)
  else none

/-- `IsLowercaseHex`. -/
def isLowercaseHex (value : Text) (length : Nat) : Bool :=
  value.length = length && value.all fun c => LowerHexDigit c

/-- `IsMatch` of the expression `^[0-9a-f]{length}$`, whose end is also before a last line
feed. -/
def matchesLowerHex (value : Text) (length : Nat) : Bool :=
  isLowercaseHex (value.take length) length && (value.drop length = [] || value.drop length = [10])

section Digits

variable {c : UInt16}

theorem isHexDigit_eq (c : UInt16) : isHexDigit c = (hexNibble c).isSome := by
  simp only [isHexDigit, hexNibble]
  by_cases hdigit : c.toUInt32 - 48 ≤ 9
  · simp [hdigit]
  · by_cases hlower : (c.toUInt32 ||| 32) - 97 ≤ 5
    · rw [if_neg hdigit, if_neg (UInt32.not_lt.mpr hlower)]
      simp [hlower]
    · rw [if_neg hdigit, if_pos (UInt32.not_le.mp hlower)]
      simp only [hdigit, hlower, decide_false, Bool.or_self, Option.isSome_none]

/-- A digit has a letter of upper case or is in lower case. -/
theorem isHexDigit_cases (h : isHexDigit c = true) : LowerHexDigit c ∨ 65 ≤ c ∧ c ≤ 70 := by
  rw [isHexDigit_eq] at h
  exact (lower_or_upper_of_hexNibble h).imp_right isUpperHexDigit_iff.mp

theorem lowerChar_of_lower (h : LowerHexDigit c) : lowerChar c = c := by
  rw [lowerChar, if_neg]
  simp only [LowerHexDigit, UInt16.le_iff_toNat_le, UInt16.reduceToNat] at h ⊢
  omega

theorem toNat_lowerChar_of_upper (h : 65 ≤ c ∧ c ≤ 70) : (lowerChar c).toNat = c.toNat + 32 := by
  simp only [UInt16.le_iff_toNat_le, UInt16.reduceToNat] at h
  rw [lowerChar, if_pos]
  · simp only [UInt16.toNat_add, UInt16.reduceToNat]
    omega
  · simp only [UInt16.le_iff_toNat_le, UInt16.reduceToNat]
    omega

theorem lowerHexDigit_lowerChar (h : isHexDigit c = true) : LowerHexDigit (lowerChar c) := by
  rcases isHexDigit_cases h with hlower | hupper
  · rwa [lowerChar_of_lower hlower]
  · have hnat := toNat_lowerChar_of_upper hupper
    simp only [LowerHexDigit, UInt16.le_iff_toNat_le, UInt16.reduceToNat] at hupper ⊢
    omega

/-- The value of a digit does not depend on its case. -/
theorem getHexVal_lowerChar (h : isHexDigit c = true) :
    getHexVal (lowerChar c) = getHexVal c := by
  rcases isHexDigit_cases h with hlower | hupper
  · rw [lowerChar_of_lower hlower]
  · have hnat := toNat_lowerChar_of_upper hupper
    simp only [UInt16.le_iff_toNat_le, UInt16.reduceToNat] at hupper
    simp only [getHexVal, hnat]
    split <;> split <;> omega

/-- A lower-case digit is read back from its value. -/
theorem hexDigit_getHexVal (h : LowerHexDigit c) : hexDigit (getHexVal c).toNat = c := by
  simp only [LowerHexDigit, UInt16.le_iff_toNat_le, UInt16.reduceToNat] at h
  refine UInt16.toNat_inj.mp ?_
  rcases h with hdigit | hletter
  · have hval : (getHexVal c).toNat = c.toNat - 48 := by
      simp only [getHexVal]
      omega
    rw [hexDigit, hval, if_pos (by omega), UInt16.toNat_ofNat']
    omega
  · have hval : (getHexVal c).toNat = c.toNat - 87 := by
      simp only [getHexVal]
      omega
    rw [hexDigit, hval, if_neg (by omega), UInt16.toNat_ofNat']
    omega

end Digits

section Texts

variable {s t : Text}

theorem isFixedLengthHex_iff {length : Nat} :
    isFixedLengthHex s length = true ↔ s.length = length ∧ ∀ c ∈ s, isHexDigit c = true := by
  simp [isFixedLengthHex]

theorem isLowercaseHex_iff {length : Nat} :
    isLowercaseHex s length = true ↔ s.length = length ∧ ∀ c ∈ s, LowerHexDigit c := by
  simp [isLowercaseHex]

/-- Without a line feed at the end, a match is a text of digits. -/
theorem isLowercaseHex_of_matches {length : Nat} (h : matchesLowerHex s length = true)
    (hlength : s.length ≤ length) : isLowercaseHex s length = true := by
  simp only [matchesLowerHex, Bool.and_eq_true] at h
  simpa only [List.take_of_length_le hlength] using h.1

theorem tryParseHexNumber_eq_some {bits n : Nat} (h : tryParseHexNumber bits s = some n) :
    n < 2 ^ bits ∧ hexNumber s = n := by
  unfold tryParseHexNumber at h
  split at h
  · rename_i hvalid
    cases h
    exact ⟨hvalid.2.2, rfl⟩
  · cases h

@[simp] theorem length_toLower (s : Text) : (toLower s).length = s.length :=
  List.length_map lowerChar

@[simp] theorem toLower_append (s t : Text) : toLower (s ++ t) = toLower s ++ toLower t :=
  List.map_append

theorem toLower_of_lowerHexDigit (h : ∀ c ∈ s, LowerHexDigit c) : toLower s = s :=
  (List.map_congr_left fun c hc => lowerChar_of_lower (h c hc)).trans (List.map_id _)

theorem lowerHexDigit_toLower (h : ∀ c ∈ s, isHexDigit c = true) :
    ∀ c ∈ toLower s, LowerHexDigit c := by
  intro c hc
  obtain ⟨d, hd, rfl⟩ := List.mem_map.mp hc
  exact lowerHexDigit_lowerChar (h d hd)

theorem hexPairs_toLower : ∀ {s : Text}, (∀ c ∈ s, isHexDigit c = true) →
    hexPairs (toLower s) = hexPairs s
  | [], _ => rfl
  | [_], _ => rfl
  | a :: b :: s, h => by
    simp only [List.forall_mem_cons] at h
    have hs := hexPairs_toLower h.2.2
    simp only [toLower, List.map_cons, hexPairs] at hs ⊢
    rw [getHexVal_lowerChar h.1, getHexVal_lowerChar h.2.1, hs]

theorem hexToByteArray_of_isHexDigit (h : ∀ c ∈ s, isHexDigit c = true) :
    hexToByteArray s = hexPairs s :=
  hexToByteArray_of_not_mem fun hx => absurd (h 120 hx) (by decide)

/-- Texts of digits with the same bytes differ only in case. -/
theorem toLower_eq_of_bytes_eq (hs : ∀ c ∈ s, isHexDigit c = true)
    (ht : ∀ c ∈ t, isHexDigit c = true) (hlength : s.length = t.length)
    (heven : s.length % 2 = 0) (h : hexToByteArray s = hexToByteArray t) :
    toLower s = toLower t := by
  rw [hexToByteArray_of_isHexDigit hs, hexToByteArray_of_isHexDigit ht, ← hexPairs_toLower hs,
    ← hexPairs_toLower ht] at h
  exact hexPairs_inj (lowerHexDigit_toLower hs) (lowerHexDigit_toLower ht) (by simpa using hlength)
    (by simpa using heven) h

/-- The number does not depend on the case of its digits. -/
theorem hexNumber_toLower (h : ∀ c ∈ s, isHexDigit c = true) :
    hexNumber (toLower s) = hexNumber s := by
  rw [hexNumber, hexNumber, toLower, ← List.map_reverse, List.map_map]
  congr 1
  refine List.map_congr_left fun c hc => ?_
  rw [Function.comp_apply, getHexVal_lowerChar (h c (List.mem_reverse.mp hc))]

/-- Lower-case digits are known by the number and by how many they are. -/
theorem hexNumber_inj (hs : ∀ c ∈ s, LowerHexDigit c) (ht : ∀ c ∈ t, LowerHexDigit c)
    (hlength : s.length = t.length) (h : hexNumber s = hexNumber t) : s = t := by
  have hlt : ∀ {u : Text}, (∀ c ∈ u, LowerHexDigit c) →
      ∀ d ∈ u.reverse.map fun c => (getHexVal c).toNat, d < 16 := by
    intro u hu d hd
    obtain ⟨c, hc, rfl⟩ := List.mem_map.mp hd
    have := getHexVal_mem (hu c (List.mem_reverse.mp hc))
    omega
  have hread : ∀ {u : Text}, (∀ c ∈ u, LowerHexDigit c) →
      (u.reverse.map fun c => (getHexVal c).toNat).map hexDigit = u.reverse := by
    intro u hu
    rw [List.map_map]
    refine (List.map_congr_left fun c hc => ?_).trans (List.map_id _)
    exact hexDigit_getHexVal (hu c (List.mem_reverse.mp hc))
  have hdigits := Nat.ofDigits_inj_of_len_eq (by decide) (by simpa using hlength) (hlt hs)
    (hlt ht) h
  rw [← List.reverse_inj, ← hread hs, ← hread ht, hdigits]

/-- Texts of as many digits with the same number differ only in case. -/
theorem toLower_eq_of_hexNumber_eq (hs : ∀ c ∈ s, isHexDigit c = true)
    (ht : ∀ c ∈ t, isHexDigit c = true) (hlength : s.length = t.length)
    (h : hexNumber s = hexNumber t) : toLower s = toLower t := by
  rw [← hexNumber_toLower hs, ← hexNumber_toLower ht] at h
  exact hexNumber_inj (lowerHexDigit_toLower hs) (lowerHexDigit_toLower ht) (by simpa using hlength)
    h

theorem getHexVal_hexDigit : ∀ d < 16, getHexVal (hexDigit d) = d := by
  decide

/-- A number that fits is read back from its digits. -/
theorem hexNumber_toStringX {width value : Nat} (h : value < 16 ^ width) :
    hexNumber (toStringX width value) = value := by
  induction width generalizing value with
  | zero =>
    rw [pow_zero, Nat.lt_one_iff] at h
    rw [h]
    rfl
  | succ width ih =>
    have hhigh : value / 16 < 16 ^ width := by
      rw [Nat.div_lt_iff_lt_mul (by decide), ← pow_succ]
      exact h
    have hdigit : (getHexVal (hexDigit (value % 16))).toNat = value % 16 := by
      rw [getHexVal_hexDigit _ (Nat.mod_lt _ (by decide)), Int.toNat_natCast]
    have hconcat (s : Text) (c : UInt16) :
        hexNumber (s ++ [c]) = (getHexVal c).toNat + 16 * hexNumber s := by
      simp [hexNumber, Nat.ofDigits_cons]
    rw [toStringX, hconcat, hdigit, ih hhigh]
    exact Nat.mod_add_div value 16

theorem lowerHexDigit_toHexString (bytes : List UInt8) :
    ∀ c ∈ toHexString bytes, LowerHexDigit c := by
  intro c hc
  obtain ⟨b, -, hb⟩ := List.mem_flatMap.mp hc
  have hlt := b.toNat_lt
  simp only [List.mem_cons, List.not_mem_nil, or_false] at hb
  rcases hb with rfl | rfl
  · exact lowerHexDigit_hexDigit _ (by omega)
  · exact lowerHexDigit_hexDigit _ (by omega)

/-- Bytes are read back from their digits. -/
theorem hexToByteArray_toHexString (bytes : List UInt8) :
    hexToByteArray (toHexString bytes) = bytes := by
  rw [hexToByteArray_of_lowerHexDigit (lowerHexDigit_toHexString bytes)]
  induction bytes with
  | nil => rfl
  | cons b bytes ih =>
    have hlt := b.toNat_lt
    have hbyte : UInt8.ofInt ((b.toNat / 16 : Nat) * 16 + (b.toNat % 16 : Nat)) = b := by
      refine UInt8.toNat_inj.mp ?_
      simp only [UInt8.ofInt, UInt8.toNat_ofNat']
      omega
    rw [toHexString, List.flatMap_cons, ← toHexString]
    simp only [List.cons_append, List.nil_append, hexPairs]
    rw [getHexVal_hexDigit _ (by omega), getHexVal_hexDigit _ (by omega), hbyte, ih]

end Texts

end HashStorm.Stratum
