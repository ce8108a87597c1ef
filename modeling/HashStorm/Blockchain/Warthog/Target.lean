import HashStorm.Blockchain.Warthog.CustomFloat
import Mathlib.Data.Nat.Bitwise

/-!
# Warthog targets

A target counts leading zeros and holds the bits behind them. The product of two hashes
and the floats of hashes are compared with it as numbers. A hash on its own is read from its
last byte on, except for the four bytes that meet the bits of the target, which are read in
the other order.
-/

namespace HashStorm.Warthog

open BinaryFloat LittleEndian WarthogCustomFloat

/-- A `WarthogTarget`. -/
structure WarthogTarget where
  data : UInt32
  isJanusHash : Bool
  deriving DecidableEq, Repr

namespace WarthogTarget

variable (wt : WarthogTarget)

/-- `Zeros8`. -/
def zeros8 : Nat := wt.data.toNat >>> 24

/-- `Zeros10`. -/
def zeros10 : Nat := wt.data.toNat >>> 22

/-- `Bits22`. -/
def bits22 : Nat := wt.data.toNat &&& 0x003FFFFF

/-- `Bits24`. -/
def bits24 : Nat := wt.data.toNat &&& 0x00FFFFFF

end WarthogTarget

/-- A `WarthogExponential`: the negative exponent and the bits. -/
structure WarthogExponential where
  negExp : Nat
  data : Nat
  deriving DecidableEq, Repr

/-- The loop in the constructor of a `WarthogExponential` with so many steps. -/
def exponentialLoop : Nat → Nat → Nat → Except FloatFailure (Nat × Nat)
  | 0, _, _ => .error .diverges
  | steps + 1, negExp, tmpData =>
    if tmpData &&& 0x80000000 = 0 then
      exponentialLoop steps ((negExp + 1) % 2 ^ 32) (tmpData * 2 % 2 ^ 64)
    else .ok (negExp, tmpData)

/-- The bits that are left when the shifted ones are multiplied with those of one half. -/
def WarthogExponential.ofShifted (negExp tmpData : Nat) : WarthogExponential :=
  let tmpData := tmpData * 0x80000000 % 2 ^ 64
  if 2 ^ 63 ≤ tmpData then ⟨negExp - 1, tmpData >>> 1 >>> 31 % 2 ^ 32⟩
  else ⟨negExp, tmpData >>> 31 % 2 ^ 32⟩

/-- The `WarthogExponential` of a hash. -/
def WarthogExponential.ofHash (hash : List UInt8) : Except FloatFailure WarthogExponential := do
  let zeros := (hash.takeWhile (· = 0)).length
  let (negExp, tmpData) ←
    exponentialLoop 32 (1 + 8 * zeros) (leadingBytes (hash.dropWhile (· = 0)))
  return .ofShifted negExp tmpData

/-- The comparison of a count of zeros and the bits behind them with a target. -/
def lessBits (zerosHashProduct bits : Nat) (wt : WarthogTarget) : Bool :=
  if zerosHashProduct < wt.zeros10 then false
  else if wt.zeros10 < zerosHashProduct then true
  else bits < wt.bits22 <<< 10 % 2 ^ 32

/-- `operator <` of a float and a target. -/
def floatLess (wcf : WarthogCustomFloat) (wt : WarthogTarget) : Bool :=
  if wt.isJanusHash then lessBits wcf.zeros wcf.mantissa wt else false

/-- The number that the hexadecimal text of bytes denotes. -/
def parseHex (bytes : List UInt8) : Nat := ofLE bytes.reverse

/-- A candidate below the threshold, or at it with nothing behind. -/
def below (threshold candidate : Nat) (rest : List UInt8) : Bool :=
  candidate < threshold || candidate = threshold && rest.all (· = 0)

/-- The bits of a target, moved to the bits of whole bytes. -/
def threshold (wt : WarthogTarget) : Nat := wt.bits24 <<< (8 - (wt.zeros8 &&& 7)) % 2 ^ 32

/-- The four bytes of a hash that meet the bits of a target. -/
def window (hash : List UInt8) (wt : WarthogTarget) : List UInt8 :=
  (hash.drop (28 - wt.zeros8 / 8)).take 4

/-- `operator <` of a hash of 32 bytes and a target. -/
def hashLess (hash : List UInt8) (wt : WarthogTarget) : Except FloatFailure Bool :=
  if wt.isJanusHash then do
    let we ← WarthogExponential.ofHash hash
    return lessBits (we.negExp - 1) we.data wt
  else
    let zeros := wt.zeros8
    if 256 - 4 * 8 < zeros then .ok false
    else if wt.bits24 &&& 0x00800000 = 0 then .ok false
    else
      let zeroBytes := zeros / 8
      if (hash.reverse.take zeroBytes).any (· ≠ 0) then .ok false
      else .ok (below (threshold wt) (parseHex (window hash wt)) (hash.take (28 - zeroBytes)))

section Bits

variable {n m steps shift : Nat}

theorem and_two_pow_eq_zero_iff (hlt : n < 2 ^ (m + 1)) : n &&& 2 ^ m = 0 ↔ n < 2 ^ m := by
  rw [Nat.land_comm, Nat.two_pow_and, Nat.testBit_eq_decide_div_mod_eq]
  have hpos : 0 < 2 ^ m := by positivity
  by_cases hlow : n < 2 ^ m
  · rw [Nat.div_eq_of_lt hlow]
    simp [hlow]
  · have hdiv : n / 2 ^ m = 1 := by
      rw [Nat.div_eq_iff hpos]
      rw [pow_succ] at hlt
      omega
    rw [hdiv]
    simp [hlow]

theorem bits22_lt (wt : WarthogTarget) : wt.bits22 < 2 ^ 22 :=
  lt_of_le_of_lt Nat.and_le_right (by decide)

theorem bits24_lt (wt : WarthogTarget) : wt.bits24 < 2 ^ 24 :=
  lt_of_le_of_lt Nat.and_le_right (by decide)

/-- The loop makes the shifts of `ShiftLeft`. -/
theorem exponentialLoop_eq (negExp : Nat) (hsteps : shift < steps)
    (hn : Normalised 32 (n * 2 ^ shift)) (hexp : negExp + shift < 2 ^ 32) :
    exponentialLoop steps negExp n = .ok (negExp + shift, n * 2 ^ shift) := by
  have htop (k : Nat) (hk : k < 2 ^ 32) : k &&& 0x80000000 = 0 ↔ k < 2 ^ 31 :=
    and_two_pow_eq_zero_iff (m := 31) hk
  induction shift generalizing steps negExp n with
  | zero =>
    obtain ⟨steps, rfl⟩ := Nat.exists_eq_succ_of_ne_zero hsteps.ne'
    have hlow := hn.two_pow_le
    have hlt := hn.lt_two_pow
    rw [pow_zero, mul_one] at hlow hlt
    rw [exponentialLoop, if_neg ((htop n hlt).not.mpr (by omega)), pow_zero, mul_one, add_zero]
  | succ shift ih =>
    obtain ⟨steps, rfl⟩ := Nat.exists_eq_succ_of_ne_zero (Nat.ne_zero_of_lt hsteps)
    have hdouble : n * 2 ^ (shift + 1) = n * 2 * 2 ^ shift := by ring
    have hlt := hn.lt_two_pow
    rw [hdouble] at hn hlt ⊢
    have hsmall : n * 2 < 2 ^ 32 :=
      (Nat.le_mul_of_pos_right (n * 2) (by positivity)).trans_lt hlt
    rw [exponentialLoop, if_pos ((htop n (by omega)).mpr (by omega)),
      Nat.mod_eq_of_lt (hsmall.trans (by decide)), Nat.mod_eq_of_lt (by omega),
      ih _ (Nat.lt_of_succ_lt_succ hsteps) hn (by omega), add_assoc, add_comm 1]

end Bits

section Janus

variable {wt : WarthogTarget} {wcf : WarthogCustomFloat} {hash : List UInt8}

/-- The number of a target for products of hashes. -/
def janusValue (wt : WarthogTarget) : Rat := wt.bits22 * 2 ^ (-22 - (wt.zeros10 : Int))

/-- A comparison with a target whose leading bit is set is one of numbers. -/
theorem lessBits_iff (hlead : 2 ^ 21 ≤ wt.bits22) (hwcf : wcf.Fraction) :
    lessBits wcf.zeros wcf.mantissa wt ↔ wcf.magnitude < janusValue wt := by
  have hbits := bits22_lt wt
  have hshift : wt.bits22 <<< 10 % 2 ^ 32 = wt.bits22 * 2 ^ 10 := by
    rw [Nat.shiftLeft_eq]
    omega
  have hvalue : janusValue wt = scaled 32 (wt.bits22 * 2 ^ 10) (-(wt.zeros10 : Int)) := by
    have hexponent : -22 - (wt.zeros10 : Int) = -(wt.zeros10 : Int) - 32 + 10 := by ring
    rw [janusValue, scaled, hexponent, zpow_exponent]
    push_cast
    ring
  have hnormal : Normalised 32 (wt.bits22 * 2 ^ 10) := ⟨by omega, by omega⟩
  have hexponent := hwcf.exponent_le
  rw [magnitude, hvalue, hwcf.normalised.scaled_lt_iff hnormal, lessBits, hshift, zeros]
  split
  · exact iff_of_false Bool.false_ne_true (by omega)
  · split
    · exact iff_of_true rfl (by omega)
    · rw [decide_eq_true_iff]
      omega

/-- Multiplying with one half leaves the bits. -/
theorem ofShifted_eq {negExp tmpData : Nat} (hlt : tmpData < 2 ^ 32) :
    WarthogExponential.ofShifted negExp tmpData = ⟨negExp, tmpData⟩ := by
  have hproduct : tmpData * 0x80000000 % 2 ^ 64 = tmpData * 0x80000000 := by omega
  have hback : (tmpData * 0x80000000) >>> 31 % 2 ^ 32 = tmpData := by
    rw [Nat.shiftRight_eq_div_pow]
    omega
  have hsmall : ¬2 ^ 63 ≤ tmpData * 0x80000000 := by omega
  rw [WarthogExponential.ofShifted, hproduct, if_neg hsmall, hback]

/-- A hash has as many zeros and the same bits as its float. -/
theorem ofHash_eq (hlength : hash.length = 32) :
    ∃ wcf we, WarthogCustomFloat.ofHash hash = .ok wcf ∧ wcf.Fraction ∧
      WarthogExponential.ofHash hash = .ok we ∧ we.negExp = wcf.zeros + 1 ∧
        we.data = wcf.mantissa := by
  obtain ⟨zeros, shift, m, hzeros, hshift, hn, hcount, hm, hfloat⟩ := ofHash_eq_ok hlength
  refine ⟨⟨-8 * zeros - shift, m * 2 ^ shift, true⟩, ⟨1 + 8 * zeros + shift, m * 2 ^ shift⟩,
    hfloat, ⟨rfl, hn, by dsimp only; omega⟩, ?_, ?_, rfl⟩
  · have hloop := exponentialLoop_eq (1 + 8 * zeros) (Nat.lt_succ_of_le hshift) hn (by omega)
    rw [WarthogExponential.ofHash, hcount, hm, hloop]
    exact congrArg Except.ok (ofShifted_eq hn.lt_two_pow)
  · rw [WarthogCustomFloat.zeros]
    dsimp only
    omega

end Janus

section Plain

variable {wt : WarthogTarget} {hash low middle high : List UInt8} {limit : Nat}

/-- The last bytes of a hash, which are to be zero. -/
def zeroBytes (hash : List UInt8) (wt : WarthogTarget) : List UInt8 :=
  hash.drop (32 - wt.zeros8 / 8)

/-- The bytes in front of the window. -/
def lowBytes (hash : List UInt8) (wt : WarthogTarget) : List UInt8 :=
  hash.take (28 - wt.zeros8 / 8)

/-- The number that the bytes of a hash denote is compared from its last bytes on. -/
theorem ofLE_le_iff (hmiddle : middle.length = 4) (hlimit : limit < 2 ^ 32) :
    ofLE (low ++ (middle ++ high)) ≤ limit * 256 ^ low.length ↔
      (∀ b ∈ high, b = 0) ∧ below limit (ofLE middle) low := by
  have hlow := ofLE_lt low
  have hbelow : below limit (ofLE middle) low ↔
      ofLE middle < limit ∨ ofLE middle = limit ∧ ofLE low = 0 := by
    rw [ofLE_eq_zero_iff]
    simp [below]
  rw [ofLE_append, ofLE_append, hmiddle, ← ofLE_eq_zero_iff, hbelow]
  set base := 256 ^ low.length
  rcases Nat.eq_zero_or_pos (ofLE high) with hzero | hpos
  · rw [hzero, Nat.mul_zero, Nat.add_zero]
    rcases lt_trichotomy (ofLE middle) limit with hlt | heq | hgt
    · have hmul := Nat.mul_le_mul_right base (Nat.succ_le_of_lt hlt)
      rw [Nat.succ_mul, mul_comm] at hmul
      exact iff_of_true (by omega) ⟨rfl, .inl hlt⟩
    · rw [heq, mul_comm]
      omega
    · have hmul := Nat.mul_le_mul_right base (Nat.succ_le_of_lt hgt)
      rw [Nat.succ_mul, mul_comm (ofLE middle)] at hmul
      exact iff_of_false (by omega) (by omega)
  · have hbig : limit < ofLE middle + 256 ^ 4 * ofLE high := by omega
    have hmul := Nat.mul_le_mul_right base (Nat.succ_le_of_lt hbig)
    rw [Nat.succ_mul, mul_comm (ofLE middle + _)] at hmul
    exact iff_of_false (by omega) fun h => hpos.ne' h.1

theorem hash_eq_append (hash : List UInt8) (hzeros : wt.zeros8 ≤ 224) :
    hash = lowBytes hash wt ++ (window hash wt ++ zeroBytes hash wt) := by
  have hcount : 32 - wt.zeros8 / 8 = 28 - wt.zeros8 / 8 + 4 := by omega
  rw [lowBytes, window, zeroBytes, hcount, ← List.drop_drop, List.take_append_drop,
    List.take_append_drop]

/-- The bits of the target in front of whole bytes. -/
theorem target_eq (hzeros : wt.zeros8 ≤ 224) :
    wt.bits24 * 2 ^ (232 - wt.zeros8) = threshold wt * 256 ^ (28 - wt.zeros8 / 8) ∧
      threshold wt < 2 ^ 32 := by
  have hbits := bits24_lt wt
  have hmask : wt.zeros8 &&& 7 = wt.zeros8 % 8 := Nat.and_two_pow_sub_one_eq_mod _ 3
  have hshift : wt.bits24 * 2 ^ (8 - wt.zeros8 % 8) < 2 ^ 32 := by
    calc wt.bits24 * 2 ^ (8 - wt.zeros8 % 8) ≤ wt.bits24 * 2 ^ 8 :=
          Nat.mul_le_mul_left _ (Nat.pow_le_pow_right (by decide) (Nat.sub_le _ _))
      _ < 2 ^ 32 := by omega
  have h256 : (256 : Nat) = 2 ^ 8 := by decide
  rw [threshold, hmask, Nat.shiftLeft_eq, Nat.mod_eq_of_lt hshift, h256, ← pow_mul, mul_assoc,
    ← pow_add]
  refine ⟨?_, hshift⟩
  congr 2
  omega

theorem hashLess_plain (hplain : wt.isJanusHash = false) (hlead : 2 ^ 23 ≤ wt.bits24)
    (hzeros : wt.zeros8 ≤ 224) (hlength : hash.length = 32) :
    hashLess hash wt = .ok ((zeroBytes hash wt).all (· = 0) &&
      below (threshold wt) (parseHex (window hash wt)) (lowBytes hash wt)) := by
  have hbit : wt.bits24 &&& 0x00800000 ≠ 0 :=
    (and_two_pow_eq_zero_iff (m := 23) (bits24_lt wt)).not.mpr hlead.not_gt
  have hany : (hash.reverse.take (wt.zeros8 / 8)).any (· ≠ 0) =
      !(zeroBytes hash wt).all (· = 0) := by
    rw [List.take_reverse, hlength, List.any_reverse, zeroBytes, List.not_all_eq_any_not]
    congr 1
    simp
  rw [hashLess, hplain]
  simp only [Bool.false_eq_true, if_false]
  rw [if_neg (by omega), if_neg hbit, hany]
  cases (zeroBytes hash wt).all (· = 0) <;> rfl

end Plain

section Tests

variable {wt : WarthogTarget} {wcf : WarthogCustomFloat} {hash : List UInt8}

/-- A target whose comparison without Janus is defined. -/
structure PlainTarget (wt : WarthogTarget) : Prop where
  isJanusHash : wt.isJanusHash = false
  bits24 : 2 ^ 23 ≤ wt.bits24
  zeros8 : wt.zeros8 ≤ 224

/-- The tests of a target compare numbers. -/
structure ComparesNumbers (wcf : WarthogCustomFloat) (hash : List UInt8) (wt : WarthogTarget) :
    Prop where
  floatLess : wt.isJanusHash → 2 ^ 21 ≤ wt.bits22 → wcf.Fraction →
    (floatLess wcf wt ↔ wcf.magnitude < janusValue wt)
  janus : wt.isJanusHash → 2 ^ 21 ≤ wt.bits22 → ∃ product, ofHash hash = .ok product ∧
    hashLess hash wt = .ok (Warthog.floatLess product wt)
  plain : PlainTarget wt → ∃ result, hashLess hash wt = .ok result ∧
    (result ↔ ofLE hash ≤ wt.bits24 * 2 ^ (232 - wt.zeros8))

/-- A byte that is to be zero is not, or the window compares with the threshold in one order of
its bytes as in the other. -/
def OrderIndependent (hash : List UInt8) (wt : WarthogTarget) : Prop :=
  (∃ b ∈ zeroBytes hash wt, b ≠ 0) ∨
    below (threshold wt) (parseHex (window hash wt)) (lowBytes hash wt) =
      below (threshold wt) (ofLE (window hash wt)) (lowBytes hash wt)

/-- The target of half of all hashes. -/
def exampleTarget : WarthogTarget := ⟨0x00800000, false⟩

end Tests

end HashStorm.Warthog
