import HashStorm.Lib.Bech32
import HashStorm.Stratum.Casing

/-!
# Kaspa addresses

`KaspaBech32` writes a version and a payload in symbols of five bits behind a prefix
and a colon, with a checksum of eight symbols. Its decoder regroups the symbols to
bytes and drops the bits that are left over, whatever they are and however many.
-/

namespace HashStorm.Kaspa.KaspaBech32

open Stratum Bitcoin Regroup LinearChecksum HashStorm.Bech32

/-- The exceptions, with what their texts name. -/
inductive Error where
  /-- Invalid bech32 string length -/
  | invalidLength (length : Nat)
  /-- Invalid character in string -/
  | invalidCharacter (c : UInt16)
  /-- String not all lowercase or all uppercase -/
  | mixedCase
  /-- Invalid index of ':' -/
  | invalidColon
  /-- Invalid character not part of charset -/
  | notInCharset (c : UInt16)
  /-- Checksum failed -/
  | checksumFailed (expected got : Text)
  | indexOutOfRange
  deriving DecidableEq, Repr

/-- `Charset`. -/
def charset : Text := text "qpzry9x8gf2tvdw0s3jn54khce6mua7l"

/-- `ChecksumLength`. -/
def checksumLength : Nat := 8

/-- `ConversionType`. -/
structure ConversionType where
  fromBits : Nat
  toBits : Nat
  pad : Bool
  deriving DecidableEq, Repr

/-- `FiveToEightBits`. -/
def fiveToEightBits : ConversionType := ⟨5, 8, false⟩

/-- `EightToFiveBits`. -/
def eightToFiveBits : ConversionType := ⟨8, 5, true⟩

/-- `Generator`. -/
def generator : List (BitVec 64) :=
  [0x98f2bc8e61, 0x79b76d99e2, 0xf33e5fb3c4, 0xae2eabe2a8, 0x1e4f43e470]

/-- A round of the outer loop of `PolyMod`, for a value that is not negative. -/
def polyModRound (checksum : BitVec 64) (value : Nat) : BitVec 64 :=
  let topBits := checksum.sshiftRight 35
  let checksum := ((checksum &&& 0x07ffffffff) <<< 5) ^^^ BitVec.ofNat 64 value
  generator.zipIdx.foldl
    (fun checksum g => if (topBits.sshiftRight g.2) &&& 1 = 1 then checksum ^^^ g.1 else checksum)
    checksum

/-- `PolyMod`; a `long` is its bits. -/
def polyMod (values : List Nat) : BitVec 64 := values.foldl polyModRound 1 ^^^ 1

/-- `PrefixToUint5Array`. -/
def prefixToUint5Array (hrp : Text) : List Nat := hrp.map fun c => (c &&& 31).toNat

/-- `PayloadToInts`. -/
def payloadToInts (payload : List UInt8) : List Nat := payload.map UInt8.toNat

/-- `CalculateChecksum`. -/
def calculateChecksum (hrp : Text) (payload : List UInt8) : List UInt8 :=
  let polyModResult := polyMod
    (prefixToUint5Array hrp ++ [0] ++ payloadToInts payload ++ [0, 0, 0, 0, 0, 0, 0, 0])
  (List.range checksumLength).map fun i =>
    UInt8.ofNat ((polyModResult.sshiftRight (5 * (checksumLength - 1 - i))) &&& 31).toNat

/-- `VerifyChecksum`. -/
def verifyChecksum (hrp : Text) (payload : List UInt8) : Bool :=
  polyMod (prefixToUint5Array hrp ++ [0] ++ payloadToInts payload) = 0

/-- The locals of `ConvertBits` between the bytes. -/
structure Regrouping where
  regrouped : List UInt8
  nextByte : UInt8
  filledBits : Nat
  deriving DecidableEq, Repr

/-- The inner loop of `ConvertBits`, of at most `fuel` rounds. -/
def extract (conversionType : ConversionType) :
    Nat → UInt8 → Nat → Regrouping → Regrouping
  | 0, _, _, r => r
  | fuel + 1, shiftedB, remainingFromBits, r =>
    if 0 < remainingFromBits then
      let remainingToBits := conversionType.toBits - r.filledBits
      let toExtract :=
        if remainingFromBits < remainingToBits then remainingFromBits else remainingToBits
      let nextByte := UInt8.ofNat
        ((r.nextByte.toNat <<< toExtract) ||| (shiftedB.toNat >>> (8 - toExtract)))
      let filledBits := r.filledBits + toExtract
      extract conversionType fuel (UInt8.ofNat (shiftedB.toNat <<< toExtract))
        (remainingFromBits - toExtract)
        (if filledBits = conversionType.toBits then ⟨r.regrouped ++ [nextByte], 0, 0⟩
        else ⟨r.regrouped, nextByte, filledBits⟩)
    else r

/-- A round of the outer loop of `ConvertBits`. A round of the inner loop takes at least one
bit, as the next byte is never full. -/
def convertByte (conversionType : ConversionType) (r : Regrouping) (b : UInt8) : Regrouping :=
  extract conversionType conversionType.fromBits
    (UInt8.ofNat (b.toNat <<< (8 - conversionType.fromBits))) conversionType.fromBits r

/-- `ConvertBits`. -/
def convertBits (data : List UInt8) (conversionType : ConversionType) : List UInt8 :=
  let r := data.foldl (convertByte conversionType) ⟨[], 0, 0⟩
  if conversionType.pad ∧ 0 < r.filledBits then
    r.regrouped ++
      [UInt8.ofNat (r.nextByte.toNat <<< (conversionType.toBits - r.filledBits))]
  else r.regrouped

/-- `EncodeToBase32`. -/
def encodeToBase32 (data : List UInt8) : Text :=
  if data.any fun b => charset.length ≤ b.toNat then []
  else data.map fun b => charset.getD b.toNat 0

/-- `DecodeFromBase32`. -/
def decodeFromBase32 : Text → Except Error (List UInt8)
  | [] => .ok []
  | c :: rest =>
    match charset.idxOf? c with
    | none => .error (.notInCharset c)
    | some index => do
      let decoded ← decodeFromBase32 rest
      return UInt8.ofNat index :: decoded

/-- `EncodeInternal`. -/
def encodeInternal (hrp : Text) (data : List UInt8) : Text :=
  hrp ++ text ":" ++ encodeToBase32 (data ++ calculateChecksum hrp data)

/-- `Encode`. -/
def encode (hrp : Text) (payload : List UInt8) (version : UInt8) : Text :=
  encodeInternal hrp (convertBits (version :: payload) eightToFiveBits)

/-- `LastIndexOf`. -/
def lastIndexOf (c : UInt16) (s : Text) : Int :=
  match s.reverse.idxOf? c with
  | none => -1
  | some i => s.length - 1 - i

/-- The first character that is not printable is an error. -/
def checkCharacters : Text → Except Error Unit
  | [] => .ok ()
  | c :: rest => if c < 33 ∨ 126 < c then .error (.invalidCharacter c) else checkCharacters rest

/-- `DecodeInternal`. -/
def decodeInternal (encoded : Text) : Except Error (Text × List UInt8) := do
  if encoded.length < checksumLength + 2 then
    throw (.invalidLength encoded.length)
  let _ ← checkCharacters encoded
  let lower := toLower encoded
  let upper := toUpper encoded
  if encoded ≠ lower ∧ encoded ≠ upper then
    throw .mixedCase
  let encoded := lower
  let colonIndex := lastIndexOf 58 encoded
  if colonIndex < 1 ∨ encoded.length < colonIndex + checksumLength + 1 then
    throw .invalidColon
  let hrp := encoded.take colonIndex.toNat
  let data := encoded.drop (colonIndex.toNat + 1)
  let decoded ← decodeFromBase32 data
  if ¬verifyChecksum hrp decoded then
    throw (.checksumFailed
      (encodeToBase32 (calculateChecksum hrp (decoded.take (decoded.length - checksumLength))))
      (encoded.drop (encoded.length - checksumLength)))
  return (hrp, decoded.take (decoded.length - checksumLength))

/-- `Decode`; the exception in place of the tuple that holds it. -/
def decode (encoded : Text) : Except Error (Text × List UInt8 × UInt8) := do
  let (hrp, decoded) ← decodeInternal encoded
  match convertBits decoded fiveToEightBits with
  | [] => throw .indexOutOfRange
  | version :: payload => return (hrp, payload, version)

theorem width_pos : 0 < 5 := by decide

theorem symbols_pos : 0 < 8 := by decide

theorem generators_lt :
    ∀ g ∈ [0x98f2bc8e61, 0x79b76d99e2, 0xf33e5fb3c4, 0xae2eabe2a8, 0x1e4f43e470],
      g < 2 ^ (5 * 8) := by decide

/-- The checksum over symbols of five bits that is eight symbols long. -/
def code : Code :=
  ofGenerators 5 8 [0x98f2bc8e61, 0x79b76d99e2, 0xf33e5fb3c4, 0xae2eabe2a8, 0x1e4f43e470]
    width_pos symbols_pos generators_lt

section Checksum

variable {hrp : Text} {data payload : List UInt8} {values : List Nat}

theorem toNat_sshiftRight {x : BitVec 64} (hx : x.toNat < 2 ^ 63) (i : Nat) :
    (x.sshiftRight i).toNat = x.toNat / 2 ^ i := by
  rw [BitVec.sshiftRight_eq_of_msb_false (BitVec.msb_eq_false_iff_two_mul_lt.mpr (by omega)),
    BitVec.toNat_ushiftRight, Nat.shiftRight_eq_div_pow]

/-- The inner loop of `PolyMod` takes the generators that the top bits select. -/
theorem toNat_foldl_generators (gs : List (BitVec 64)) (i : Nat) {topBits : BitVec 64}
    (htop : topBits.toNat < 2 ^ 63) (checksum : BitVec 64) :
    ((gs.zipIdx i).foldl
      (fun checksum g =>
        if (topBits.sshiftRight g.2) &&& 1 = 1 then checksum ^^^ g.1 else checksum)
      checksum).toNat = checksum.toNat ^^^ reduce (gs.map BitVec.toNat) (topBits.toNat / 2 ^ i) := by
  induction gs generalizing i checksum with
  | nil => simp [reduce]
  | cons g gs ih =>
    have hbit : (topBits.sshiftRight i) &&& 1 = 1 ↔ topBits.toNat / 2 ^ i % 2 = 1 := by
      rw [← BitVec.toNat_inj, BitVec.toNat_and, toNat_sshiftRight htop]
      simp [Nat.and_one_is_mod]
    rw [List.zipIdx_cons, List.foldl_cons, ih, List.map_cons, reduce, Nat.div_div_eq_div_mul,
      ← Nat.pow_succ, ← Nat.xor_assoc]
    simp only [hbit]
    split
    · rw [BitVec.toNat_xor]
    · rw [Nat.xor_zero]

theorem toNat_polyModRound {checksum : BitVec 64} {value : Nat}
    (hchecksum : checksum.toNat < 2 ^ 40) (hvalue : value < 32) :
    (polyModRound checksum value).toNat = code.step checksum.toNat ^^^ value := by
  have hlow : (checksum &&& 0x07ffffffff).toNat = checksum.toNat % 2 ^ 35 := by
    rw [BitVec.toNat_and]
    exact Nat.and_two_pow_sub_one_eq_mod _ 35
  have hshifted : ((checksum &&& 0x07ffffffff) <<< 5).toNat = checksum.toNat % 2 ^ 35 * 2 ^ 5 := by
    rw [BitVec.toNat_shiftLeft, hlow, Nat.shiftLeft_eq, Nat.mod_eq_of_lt (by omega)]
  have htop : (checksum.sshiftRight 35).toNat = checksum.toNat / 2 ^ 35 :=
    toNat_sshiftRight (by omega) 35
  have hvalue' : (BitVec.ofNat 64 value).toNat = value := by
    rw [BitVec.toNat_ofNat, Nat.mod_eq_of_lt (by omega)]
  simp only [polyModRound]
  rw [toNat_foldl_generators _ _ (by omega), BitVec.toNat_xor, hshifted, hvalue', htop,
    Nat.pow_zero, Nat.div_one, Nat.xor_assoc, Nat.xor_comm value, ← Nat.xor_assoc]
  rfl

theorem toNat_foldl_polyModRound {checksum : BitVec 64} (hchecksum : checksum.toNat < 2 ^ 40)
    (hvalues : ∀ v ∈ values, v < 32) :
    (values.foldl polyModRound checksum).toNat = code.feed checksum.toNat values := by
  induction values generalizing checksum with
  | nil => rfl
  | cons v values ih =>
    simp only [List.forall_mem_cons] at hvalues
    have hround := toNat_polyModRound hchecksum hvalues.1
    have hlt : (polyModRound checksum v).toNat < 2 ^ 40 := by
      rw [hround]
      exact Nat.xor_lt_two_pow (code.step_lt _) (hvalues.1.trans (by decide))
    rw [List.foldl_cons, ih hlt hvalues.2, hround, Code.feed_cons]

theorem toNat_polyMod (hvalues : ∀ v ∈ values, v < 32) :
    (polyMod values).toNat = code.feed 1 values ^^^ 1 := by
  rw [polyMod, BitVec.toNat_xor, toNat_foldl_polyModRound (by decide) hvalues]
  rfl

theorem lt_of_mem_prefixToUint5Array : ∀ v ∈ prefixToUint5Array hrp, v < 32 := by
  simp only [prefixToUint5Array, List.forall_mem_map, UInt16.toNat_and]
  exact fun c _ => Nat.lt_succ_of_le Nat.and_le_right

/-- What the checksum covers: the low bits of the prefix, a zero, and the symbols. -/
def covered (hrp : Text) (data : List UInt8) : List Nat :=
  prefixToUint5Array hrp ++ 0 :: data.map UInt8.toNat

theorem lt_of_mem_covered (hdata : ∀ b ∈ data, b.toNat < 32) : ∀ v ∈ covered hrp data, v < 32 := by
  simp only [covered, List.forall_mem_append, List.forall_mem_cons, List.forall_mem_map]
  exact ⟨lt_of_mem_prefixToUint5Array, by decide, hdata⟩

theorem feed_covered_lt (hdata : ∀ b ∈ data, b.toNat < 32) :
    code.feed 1 (covered hrp data) < 2 ^ 40 :=
  Code.feed_lt (by decide) (lt_of_mem_covered hdata)

/-- The symbols of the checksum are the tail that leads to one. -/
theorem calculateChecksum_eq (hdata : ∀ b ∈ data, b.toNat < 32) :
    (calculateChecksum hrp data).map UInt8.toNat =
      code.tail (code.feed 1 (covered hrp data)) 1 := by
  have hzeros : ∀ v ∈ List.replicate 8 0, v < 32 := by decide
  have hvalues : ∀ v ∈ covered hrp data ++ List.replicate 8 0, v < 32 :=
    List.forall_mem_append.mpr ⟨lt_of_mem_covered hdata, hzeros⟩
  have hsame : prefixToUint5Array hrp ++ [0] ++ payloadToInts data ++ [0, 0, 0, 0, 0, 0, 0, 0] =
      covered hrp data ++ List.replicate 8 0 := by
    simp [covered, payloadToInts]
  have hresult : (polyMod (covered hrp data ++ List.replicate 8 0)).toNat =
      code.feed (code.feed 1 (covered hrp data)) (List.replicate 8 0) ^^^ 1 := by
    rw [toNat_polyMod hvalues, Code.feed_append]
  have hlt : (polyMod (covered hrp data ++ List.replicate 8 0)).toNat < 2 ^ 63 := by
    have hfeed : code.feed (code.feed 1 (covered hrp data)) (List.replicate 8 0) < 2 ^ 40 :=
      Code.feed_lt (feed_covered_lt hdata) hzeros
    rw [hresult]
    exact (Nat.xor_lt_two_pow hfeed (by decide)).trans (by decide)
  have htail : code.tail (code.feed 1 (covered hrp data)) 1 =
      digits 32 8 (polyMod (covered hrp data ++ List.replicate 8 0)).toNat := by
    rw [hresult]
    rfl
  rw [calculateChecksum, hsame, htail, digits_eq_map_range, List.map_map]
  refine List.map_congr_left fun i _ => ?_
  have hsymbol : ((polyMod (covered hrp data ++ List.replicate 8 0)).sshiftRight
      (5 * (8 - 1 - i)) &&& 31).toNat =
        (polyMod (covered hrp data ++ List.replicate 8 0)).toNat / 32 ^ (8 - 1 - i) % 32 := by
    rw [BitVec.toNat_and, toNat_sshiftRight hlt, Nat.pow_mul]
    exact Nat.and_two_pow_sub_one_eq_mod _ 5
  rw [Function.comp_apply, checksumLength, hsymbol]
  exact UInt8.toNat_ofNat_of_lt' ((Nat.mod_lt _ (by decide)).trans (by decide))

theorem lt_of_mem_calculateChecksum (hdata : ∀ b ∈ data, b.toNat < 32) :
    ∀ b ∈ calculateChecksum hrp data, b.toNat < 32 := by
  intro b hb
  apply Code.lt_of_mem_tail code (code.feed 1 (covered hrp data)) 1
  rw [← calculateChecksum_eq hdata]
  exact List.mem_map_of_mem hb

@[simp] theorem length_calculateChecksum (hrp : Text) (data : List UInt8) :
    (calculateChecksum hrp data).length = 8 := by
  rw [calculateChecksum, List.length_map, List.length_range]
  rfl

/-- Symbols verify if and only if the last eight are the checksum of the others. -/
theorem verifyChecksum_append_iff {check : List UInt8} (hdata : ∀ b ∈ data, b.toNat < 32)
    (hcheck : ∀ b ∈ check, b.toNat < 32) (hlen : check.length = 8) :
    verifyChecksum hrp (data ++ check) = true ↔ check = calculateChecksum hrp data := by
  have hcheck' : ∀ v ∈ check.map UInt8.toNat, v < 32 := by
    simpa only [List.forall_mem_map] using hcheck
  have hsame : prefixToUint5Array hrp ++ [0] ++ payloadToInts (data ++ check) =
      covered hrp data ++ check.map UInt8.toNat := by
    simp [covered, payloadToInts]
  have hfeed : code.feed (code.feed 1 (covered hrp data)) (check.map UInt8.toNat) = 1 ↔
      check.map UInt8.toNat = code.tail (code.feed 1 (covered hrp data)) 1 :=
    Code.feed_eq_iff (feed_covered_lt hdata) hcheck' (by rw [List.length_map, hlen]; rfl)
      (by decide)
  rw [verifyChecksum, hsame, decide_eq_true_iff, ← BitVec.toNat_inj,
    toNat_polyMod (List.forall_mem_append.mpr ⟨lt_of_mem_covered hdata, hcheck'⟩),
    Code.feed_append]
  constructor
  · intro h
    apply map_toNat_inj
    rw [calculateChecksum_eq hdata]
    exact hfeed.mp (Nat.xor_eq_zero_iff.mp h)
  · intro h
    rw [hfeed.mpr (by rw [h, calculateChecksum_eq hdata])]
    rfl

end Checksum

end HashStorm.Kaspa.KaspaBech32
