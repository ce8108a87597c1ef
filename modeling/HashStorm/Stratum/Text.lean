import Mathlib.Data.List.Basic
import Mathlib.Tactic.Ring

/-!
# Texts of the Stratum protocol

A text is the list of its UTF-16 code units, so that a length is what `Length`
returns and a character is compared as the number it is. Bytes are exchanged as
hex digits; decoding two texts of lower-case digits gives the same bytes only if
the texts are the same.
-/

namespace HashStorm.Stratum

/-- A string, by its UTF-16 code units. -/
abbrev Text := List UInt16

/-- The text of a literal. -/
def text (s : String) : Text := s.toList.map fun c => UInt16.ofNat c.toNat

/-- `StratumError`. -/
inductive StratumError where
  | other
  | jobNotFound
  | duplicateShare
  | lowDifficultyShare
  | unauthorizedWorker
  | notSubscribed
  | minusOne
  deriving DecidableEq, Repr

/-- A call ends in a `StratumException`, or in an exception of the runtime. -/
inductive Failure where
  | stratum (code : StratumError) (message : String)
  | nullReference
  | divideByZero
  | argumentNull
  | argumentOutOfRange
  deriving DecidableEq, Repr

section Hex

/-- `GetHexVal`. -/
def getHexVal (hex : UInt16) : Int :=
  let val : Int := hex.toNat
  val - (if val < 58 then 48 else if val < 97 then 55 else 87)

/-- The bytes of a text without a prefix; a last single digit is dropped. -/
def hexPairs : Text → List UInt8
  | high :: low :: rest => UInt8.ofInt (getHexVal high * 16 + getHexVal low) :: hexPairs rest
  | _ => []

/-- `HexToByteArray`. -/
def hexToByteArray (str : Text) : List UInt8 :=
  hexPairs (if str.take 2 = text "0x" then str.drop 2 else str)

/-- The lower-case digit of a number below sixteen. -/
def hexDigit (d : Nat) : UInt16 := UInt16.ofNat (if d < 10 then 48 + d else 87 + d)

/-- `ToHexString`. -/
def toHexString (bytes : List UInt8) : Text :=
  bytes.flatMap fun b => [hexDigit (b.toNat / 16), hexDigit (b.toNat % 16)]

/-- `ToString("x" + width)` of a number that fits the width. -/
def toStringX : Nat → Nat → Text
  | 0, _ => []
  | width + 1, value => toStringX width (value / 16) ++ [hexDigit (value % 16)]

/-- A digit as `ToString("x")` writes it. -/
def LowerHexDigit (c : UInt16) : Prop := 48 ≤ c ∧ c ≤ 57 ∨ 97 ≤ c ∧ c ≤ 102

instance : DecidablePred LowerHexDigit := fun c => by unfold LowerHexDigit; infer_instance

theorem lowerHexDigit_hexDigit : ∀ d < 16, LowerHexDigit (hexDigit d) := by
  decide

@[simp] theorem length_toStringX (width value : Nat) : (toStringX width value).length = width := by
  induction width generalizing value with
  | zero => rfl
  | succ width ih => simp [toStringX, ih]

theorem lowerHexDigit_toStringX {width value : Nat} :
    ∀ c ∈ toStringX width value, LowerHexDigit c := by
  induction width generalizing value with
  | zero => simp [toStringX]
  | succ width ih =>
    simp only [toStringX, List.mem_append, List.mem_singleton]
    rintro c (hc | rfl)
    · exact ih c hc
    · exact lowerHexDigit_hexDigit _ (Nat.mod_lt _ (by decide))

/-- A lower-case digit has a value below sixteen. -/
theorem getHexVal_mem {c : UInt16} (h : LowerHexDigit c) : 0 ≤ getHexVal c ∧ getHexVal c < 16 := by
  simp only [LowerHexDigit, UInt16.le_iff_toNat_le, UInt16.reduceToNat] at h
  simp only [getHexVal]
  split <;> [skip; split] <;> omega

/-- A lower-case digit is known by its value. -/
theorem getHexVal_inj {c d : UInt16} (hc : LowerHexDigit c) (hd : LowerHexDigit d)
    (h : getHexVal c = getHexVal d) : c = d := by
  simp only [LowerHexDigit, UInt16.le_iff_toNat_le, UInt16.reduceToNat] at hc hd
  refine UInt16.toNat_inj.mp ?_
  simp only [getHexVal] at h
  omega

/-- Two pairs of lower-case digits are the same if their bytes are. -/
theorem hexPair_inj {a b c d : UInt16} (ha : LowerHexDigit a) (hb : LowerHexDigit b)
    (hc : LowerHexDigit c) (hd : LowerHexDigit d)
    (h : UInt8.ofInt (getHexVal a * 16 + getHexVal b) =
      UInt8.ofInt (getHexVal c * 16 + getHexVal d)) : a = c ∧ b = d := by
  have hbyte := congrArg UInt8.toNat h
  simp only [UInt8.ofInt, UInt8.toNat_ofNat'] at hbyte
  obtain ⟨ha0, ha16⟩ := getHexVal_mem ha
  obtain ⟨hb0, hb16⟩ := getHexVal_mem hb
  obtain ⟨hc0, hc16⟩ := getHexVal_mem hc
  obtain ⟨hd0, hd16⟩ := getHexVal_mem hd
  exact ⟨getHexVal_inj ha hc (by omega), getHexVal_inj hb hd (by omega)⟩

/-- Lower-case digits are known by their bytes, except for a last single one. -/
theorem hexPairs_inj : ∀ {s t : Text}, (∀ c ∈ s, LowerHexDigit c) → (∀ c ∈ t, LowerHexDigit c) →
    s.length = t.length → s.length % 2 = 0 → hexPairs s = hexPairs t → s = t
  | [], [], _, _, _, _, _ => rfl
  | [_], _, _, _, _, heven, _ => by simp at heven
  | a :: b :: s, c :: d :: t, hs, ht, hlength, heven, h => by
    simp only [List.forall_mem_cons] at hs ht
    simp only [hexPairs, List.cons.injEq] at h
    simp only [List.length_cons, Nat.add_right_cancel_iff] at hlength heven
    obtain ⟨rfl, rfl⟩ := hexPair_inj hs.1 hs.2.1 ht.1 ht.2.1 h.1
    rw [hexPairs_inj hs.2.2 ht.2.2 hlength (by omega) h.2]

theorem length_hexPairs : ∀ s : Text, (hexPairs s).length = s.length / 2
  | [] => rfl
  | [_] => by simp [hexPairs]
  | _ :: _ :: s => by
    simp only [hexPairs, List.length_cons, length_hexPairs s]
    omega

/-- A text without an `x` has no prefix. -/
theorem hexToByteArray_of_not_mem {s : Text} (h : 120 ∉ s) : hexToByteArray s = hexPairs s := by
  rw [hexToByteArray, if_neg]
  intro hhead
  have hx : 120 ∈ s.take 2 := by
    rw [hhead]
    decide
  exact h (List.mem_of_mem_take hx)

theorem hexToByteArray_of_lowerHexDigit {s : Text} (h : ∀ c ∈ s, LowerHexDigit c) :
    hexToByteArray s = hexPairs s :=
  hexToByteArray_of_not_mem fun hx => absurd (h 120 hx) (by decide)

end Hex

end HashStorm.Stratum
