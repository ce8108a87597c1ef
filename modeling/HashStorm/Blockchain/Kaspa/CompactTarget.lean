import HashStorm.Blockchain.AdvertisedTarget
import HashStorm.Blockchain.Kaspa.Job
import Mathlib.Data.Nat.Bitwise

/-!
# Compact targets of Kaspa

A compact target is a mantissa of 23 bits and a number of bytes, in which the sign may take one
of them. `BigToCompact` drops all bytes but three, so what `CompactToBig` reads back is less by
one part in 2^15 at most, and it has the same compact form. A number of more than 255 bytes has
none.
-/

namespace HashStorm.Kaspa

open Blockchain
open Zano (byteLength)

/-- What a conversion throws. -/
inductive ConversionFailure where
  | overflow
  deriving DecidableEq, Repr

section Conversions

/-- `CalculateTarget`; the shift is an unsigned difference before it is an `int`. -/
def calculateTarget (bits : UInt32) : Int :=
  let mantissa := bits &&& 0x007fffff
  let isNegative := bits &&& 0x00800000 ≠ 0
  let exponent := bits >>> 24
  if mantissa = 0 then 0
  else
    let target : Int := mantissa.toNat
    let shift := (8 * (exponent - 3)).toInt32.toInt
    let target :=
      if 0 < shift then target * 2 ^ shift.toNat
      else if shift < 0 then target / 2 ^ (-shift).toNat
      else target
    if isNegative then -target else target

/-- The length of `ToByteArray` of a `BigInteger`. -/
def byteArrayLength : Int → Nat
  | .ofNat n => byteLength n
  | .negSucc n => byteLength n

/-- The cast of a `BigInteger` to `uint`. -/
def toUInt32 (n : Int) : Except ConversionFailure UInt32 :=
  if 0 ≤ n ∧ n < 2 ^ 32 then .ok (UInt32.ofNat n.toNat) else .error .overflow

/-- The mantissa of `BigToCompact` before its sign bit is looked at. -/
def firstMantissa (n : Int) (exponent : Nat) : Except ConversionFailure UInt32 :=
  if exponent ≤ 3 then (toUInt32 n).map (· <<< UInt32.ofNat (8 * (3 - exponent)))
  else toUInt32 (n.tdiv (256 ^ (exponent - 3)))

/-- `BigToCompact`. -/
def bigToCompact (n : Int) : Except ConversionFailure UInt32 := do
  if n = 0 then return 0
  let exponent := byteArrayLength n
  let mantissa ← firstMantissa n exponent
  let (mantissa, exponent) :=
    if mantissa &&& 0x00800000 ≠ 0 then (mantissa >>> 8, exponent + 1) else (mantissa, exponent)
  let compact := UInt32.ofNat exponent <<< 24 ||| mantissa
  return if n < 0 then compact ||| 0x00800000 else compact

end Conversions

section Parts

variable {compact : UInt32} {exponent mantissa : Nat}

theorem toNat_mantissa (compact : UInt32) :
    (compact &&& 0x007fffff).toNat = compact.toNat % 2 ^ 23 := by
  rw [UInt32.toNat_and]
  exact Nat.and_two_pow_sub_one_eq_mod _ 23

theorem toNat_exponent (compact : UInt32) : (compact >>> 24).toNat = compact.toNat / 2 ^ 24 := by
  rw [UInt32.toNat_shiftRight, Nat.shiftRight_eq_div_pow]
  rfl

/-- The bit of the sign. -/
theorem sign_eq_zero_iff (compact : UInt32) :
    compact &&& 0x00800000 = 0 ↔ compact.toNat / 2 ^ 23 % 2 = 0 := by
  have hbit : (compact &&& 0x00800000).toNat = compact.toNat &&& 2 ^ 23 := UInt32.toNat_and _ _
  rw [← UInt32.toNat_inj, hbit, Nat.and_two_pow, Nat.testBit_eq_decide_div_mod_eq]
  simp

/-- The unsigned product is the signed number of bits. -/
theorem shift_eq {e : UInt32} (h : e.toNat < 256) :
    (8 * (e - 3)).toInt32.toInt = 8 * ((e.toNat : Int) - 3) := by
  have hcast : (8 * (e - 3)).toInt32.toInt = ((8 * (e - 3)).toNat : Int).bmod (2 ^ 32) :=
    BitVec.toInt_eq_toNat_bmod _
  rw [hcast, UInt32.toNat_mul, UInt32.toNat_sub, Int.bmod_def]
  simp only [UInt32.reduceToNat]
  omega

/-- The number of a mantissa of three bytes, of which all or the highest are kept. -/
def magnitudeOf (exponent mantissa : Nat) : Nat :=
  if exponent ≤ 3 then mantissa / 256 ^ (3 - exponent) else mantissa * 256 ^ (exponent - 3)

/-- The number a compact target denotes. -/
def denoted (compact : UInt32) : Int :=
  let magnitude := magnitudeOf (compact.toNat / 2 ^ 24) (compact.toNat % 2 ^ 23)
  if compact &&& 0x00800000 ≠ 0 then -magnitude else magnitude

theorem pow_bytes (bytes : Nat) : 2 ^ (8 * bytes) = 256 ^ bytes := pow_mul 2 8 bytes

theorem toNat_shiftRight_bytes {e mantissa : UInt32} (h : e.toNat ≤ 3) :
    (mantissa >>> (8 * (3 - e))).toNat = mantissa.toNat / 256 ^ (3 - e.toNat) := by
  have hsmall : e = 0 ∨ e = 1 ∨ e = 2 ∨ e = 3 := by
    simp only [← UInt32.toNat_inj, UInt32.reduceToNat]
    omega
  rcases hsmall with rfl | rfl | rfl | rfl <;>
    simp [UInt32.toNat_shiftRight, Nat.shiftRight_eq_div_pow]

theorem shifted_eq (e mantissa : UInt32) :
    (if e ≤ 3 then ((mantissa >>> (8 * (3 - e))).toNat : Int)
      else mantissa.toNat * 2 ^ (8 * (e.toNat - 3))) = magnitudeOf e.toNat mantissa.toNat := by
  rw [magnitudeOf]
  by_cases hle : e.toNat ≤ 3
  · rw [if_pos (UInt32.le_iff_toNat_le.mpr hle), if_pos hle, toNat_shiftRight_bytes hle]
  · rw [if_neg (mt UInt32.le_iff_toNat_le.mp hle), if_neg hle, ← pow_bytes]
    push_cast
    rfl

theorem compactToBig_eq (c : UInt32) : compactToBig c = denoted c := by
  rw [compactToBig, denoted, ← toNat_exponent, ← toNat_mantissa]
  simp only [shifted_eq]

theorem calculateTarget_eq_denoted (c : UInt32) : calculateTarget c = denoted c := by
  have hbound : (c >>> 24).toNat < 256 := by
    rw [toNat_exponent]
    have := c.toNat_lt
    omega
  have htarget (e mantissa : Nat) : (if 0 < 8 * ((e : Int) - 3) then
        (mantissa : Int) * 2 ^ (8 * ((e : Int) - 3)).toNat
      else if 8 * ((e : Int) - 3) < 0 then (mantissa : Int) / 2 ^ (-(8 * ((e : Int) - 3))).toNat
      else (mantissa : Int)) = magnitudeOf e mantissa := by
    rw [magnitudeOf]
    rcases lt_trichotomy e 3 with hlt | rfl | hgt
    · have hbits : (-(8 * ((e : Int) - 3))).toNat = 8 * (3 - e) := by omega
      rw [if_neg (by omega), if_pos (by omega), if_pos hlt.le, hbits, ← pow_bytes]
      push_cast
      rfl
    · simp
    · have hbits : (8 * ((e : Int) - 3)).toNat = 8 * (e - 3) := by omega
      rw [if_pos (by omega), if_neg hgt.not_ge, hbits, ← pow_bytes]
      push_cast
      rfl
  rw [calculateTarget, denoted, ← toNat_exponent, ← toNat_mantissa]
  simp only [shift_eq hbound, htarget]
  split
  · rename_i hzero
    simp [hzero, magnitudeOf]
  · rfl

/-- A compact target of its parts. -/
def compactOf (exponent mantissa : Nat) : UInt32 :=
  UInt32.ofNat exponent <<< 24 ||| UInt32.ofNat mantissa

theorem toNat_compactOf (he : exponent < 256) (hm : mantissa < 2 ^ 24) :
    (compactOf exponent mantissa).toNat = exponent * 2 ^ 24 + mantissa := by
  have hshift : (UInt32.ofNat exponent <<< 24).toNat = 2 ^ 24 * exponent := by
    have hcount : (24 : UInt32).toNat % 32 = 24 := rfl
    rw [UInt32.toNat_shiftLeft, UInt32.toNat_ofNat', Nat.shiftLeft_eq, hcount]
    omega
  have hsmall : (UInt32.ofNat mantissa).toNat = mantissa := by
    rw [UInt32.toNat_ofNat']
    omega
  rw [compactOf, UInt32.toNat_or, hshift, hsmall, ← Nat.two_pow_add_eq_or_of_lt hm, mul_comm]

/-- What is read back of a mantissa without the bit of the sign. -/
theorem compactToBig_compactOf (he : exponent < 256) (hm : mantissa < 2 ^ 23) :
    compactToBig (compactOf exponent mantissa) = magnitudeOf exponent mantissa := by
  have hword := toNat_compactOf he (hm.trans (by decide))
  have hsign : compactOf exponent mantissa &&& 0x00800000 = 0 := by
    rw [sign_eq_zero_iff, hword]
    omega
  have hexponent : (exponent * 2 ^ 24 + mantissa) / 2 ^ 24 = exponent := by omega
  have hmantissa : (exponent * 2 ^ 24 + mantissa) % 2 ^ 23 = mantissa := by omega
  rw [compactToBig_eq, denoted, hword, hexponent, hmantissa]
  exact if_neg (not_not.mpr hsign)

end Parts

section Positive

variable {n : Nat}

/-- The mantissa of a positive number. -/
def mantissaOf (n : Nat) : Nat :=
  if byteLength n ≤ 3 then n * 256 ^ (3 - byteLength n) else n / 256 ^ (byteLength n - 3)

theorem byteLength_pos (n : Nat) : 0 < byteLength n := by
  rw [byteLength]
  split <;> omega

/-- The highest byte of a number has a bit that is set, or is there for the sign. -/
theorem byteLength_bounds (hpos : 0 < n) :
    2 ^ (8 * byteLength n - 9) ≤ n ∧ n < 2 ^ (8 * byteLength n - 1) := by
  refine ⟨?_, (byteLength_le_iff (byteLength_pos n)).mp (le_refl _)⟩
  rcases (Nat.succ_le_of_lt (byteLength_pos n)).eq_or_lt with hone | hmore
  · rw [← hone]
    exact hpos
  · have hnot := mt (byteLength_le_iff (n := n) (Nat.sub_pos_of_lt hmore)).mpr (by omega)
    have hbits : 8 * (byteLength n - 1) - 1 = 8 * byteLength n - 9 := by omega
    rw [Nat.succ_eq_add_one, hbits] at hnot
    exact not_lt.mp hnot

theorem byteLength_eq {k : Nat} (hk : 1 < k) (hlow : 2 ^ (8 * k - 9) ≤ n)
    (hhigh : n < 2 ^ (8 * k - 1)) : byteLength n = k := by
  have hbits : 8 * (k - 1) - 1 = 8 * k - 9 := by omega
  have hle := (byteLength_le_iff (n := n) (by omega : 0 < k)).mpr hhigh
  have hlt := mt (byteLength_le_iff (n := n) (by omega : 0 < k - 1)).mp
    (by rw [hbits]; exact not_lt.mpr hlow)
  omega

/-- A number of more than three bytes has a mantissa of at least 2^15. -/
theorem mantissaOf_bounds (hpos : 0 < n) :
    mantissaOf n < 2 ^ 23 ∧ (3 < byteLength n → 2 ^ 15 ≤ mantissaOf n) := by
  obtain ⟨hlow, hhigh⟩ := byteLength_bounds hpos
  rw [mantissaOf]
  split
  · rename_i hle
    have hpow : 2 ^ (8 * byteLength n - 1) * 256 ^ (3 - byteLength n) = 2 ^ 23 := by
      have := byteLength_pos n
      rw [← pow_bytes, ← pow_add]
      congr 1
      omega
    refine ⟨?_, fun hlt => absurd hle (not_le.mpr hlt)⟩
    rw [← hpow]
    exact Nat.mul_lt_mul_of_pos_right hhigh (by positivity)
  · rename_i hgt
    have hpow : 256 ^ (byteLength n - 3) = 2 ^ (8 * (byteLength n - 3)) := (pow_bytes _).symm
    rw [hpow]
    constructor
    · rw [Nat.div_lt_iff_lt_mul (by positivity), ← pow_add]
      exact hhigh.trans_eq (congrArg _ (by omega))
    · intro _
      rw [Nat.le_div_iff_mul_le (by positivity), ← pow_add]
      exact (congrArg _ (by omega)).trans_le hlow

theorem toUInt32_natCast (h : n < 2 ^ 32) : toUInt32 n = .ok (UInt32.ofNat n) := by
  rw [toUInt32, if_pos (by omega), Int.toNat_natCast]

theorem firstMantissa_eq (hpos : 0 < n) :
    firstMantissa n (byteLength n) = .ok (UInt32.ofNat (mantissaOf n)) := by
  have hsmall := (mantissaOf_bounds hpos).1
  rw [mantissaOf] at hsmall
  rw [firstMantissa, mantissaOf]
  split
  · rename_i hle
    rw [if_pos hle] at hsmall
    have hn : n < 2 ^ 32 :=
      (Nat.le_mul_of_pos_right n (by positivity)).trans_lt (hsmall.trans (by decide))
    have hcount : (UInt32.ofNat (8 * (3 - byteLength n))).toNat % 32 = 8 * (3 - byteLength n) := by
      rw [UInt32.toNat_ofNat']
      omega
    rw [toUInt32_natCast hn]
    change Except.ok _ = Except.ok _
    rw [Except.ok.injEq, ← UInt32.toNat_inj, UInt32.toNat_shiftLeft, hcount, UInt32.toNat_ofNat',
      UInt32.toNat_ofNat', Nat.shiftLeft_eq, pow_bytes, Nat.mod_eq_of_lt hn]
  · rename_i hgt
    rw [if_neg hgt] at hsmall
    have hdiv : (n : Int).tdiv (256 ^ (byteLength n - 3)) =
        ((n / 256 ^ (byteLength n - 3) : Nat) : Int) := by
      rw [Int.tdiv_eq_ediv_of_nonneg (Int.natCast_nonneg n)]
      push_cast
      rfl
    rw [hdiv, toUInt32_natCast (hsmall.trans (by decide))]

/-- The sign bit of the first mantissa is never set: it has a byte of its own. -/
theorem bigToCompact_pos (hpos : 0 < n) :
    bigToCompact n = .ok (compactOf (byteLength n) (mantissaOf n)) := by
  have hsmall := (mantissaOf_bounds hpos).1
  have hzero : (n : Int) ≠ 0 := by exact_mod_cast hpos.ne'
  have hlength : byteArrayLength (n : Int) = byteLength n := rfl
  have hsign : UInt32.ofNat (mantissaOf n) &&& 0x00800000 = 0 := by
    rw [sign_eq_zero_iff, UInt32.toNat_ofNat']
    omega
  have hnonneg : ¬(n : Int) < 0 := not_lt.mpr (Int.natCast_nonneg n)
  rw [bigToCompact, if_neg hzero, hlength]
  simp only [firstMantissa_eq hpos, bind, Except.bind, pure, Except.pure, hsign, hnonneg, ne_eq,
    not_true_eq_false, if_false]
  rfl

/-- The bytes that are dropped. -/
theorem magnitudeOf_mantissaOf (n : Nat) :
    magnitudeOf (byteLength n) (mantissaOf n) =
      n / 256 ^ (byteLength n - 3) * 256 ^ (byteLength n - 3) := by
  rw [magnitudeOf, mantissaOf]
  by_cases hle : byteLength n ≤ 3
  · rw [if_pos hle, if_pos hle, Nat.mul_div_cancel _ (by positivity), Nat.sub_eq_zero_of_le hle,
      pow_zero, mul_one, Nat.div_one]
  · rw [if_neg hle, if_neg hle]

/-- The number without the bytes that are dropped. -/
def truncated (n : Nat) : Nat := n / 256 ^ (byteLength n - 3) * 256 ^ (byteLength n - 3)

theorem truncated_le (n : Nat) : truncated n ≤ n := Nat.div_mul_le_self n _

/-- A number that loses bytes has 2^15 times as much as it loses. -/
theorem lt_truncated_add (hpos : 0 < n) :
    (n - truncated n) * 2 ^ 15 < n := by
  by_cases hle : byteLength n ≤ 3
  · rw [truncated, Nat.sub_eq_zero_of_le hle]
    simpa using hpos
  · have hleading := (mantissaOf_bounds hpos).2 (not_le.mp hle)
    rw [mantissaOf, if_neg hle] at hleading
    rw [truncated]
    generalize 256 ^ (byteLength n - 3) = unit at hleading ⊢
    have hunit : 0 < unit := by
      by_contra hzero
      rw [Nat.eq_zero_of_not_pos hzero, Nat.div_zero] at hleading
      omega
    have hrest : n - n / unit * unit = n % unit := by
      have := Nat.mod_add_div n unit
      rw [mul_comm] at this
      omega
    calc (n - n / unit * unit) * 2 ^ 15 = n % unit * 2 ^ 15 := by rw [hrest]
      _ < unit * 2 ^ 15 := Nat.mul_lt_mul_of_pos_right (Nat.mod_lt _ hunit) (by decide)
      _ ≤ unit * (n / unit) := Nat.mul_le_mul_left unit hleading
      _ ≤ n := Nat.mul_div_le n unit

/-- What is left has as many bytes, and the same mantissa. -/
theorem byteLength_truncated (hpos : 0 < n) : byteLength (truncated n) = byteLength n := by
  by_cases hle : byteLength n ≤ 3
  · rw [truncated, Nat.sub_eq_zero_of_le hle, pow_zero, mul_one, Nat.div_one]
  · obtain ⟨-, hhigh⟩ := byteLength_bounds hpos
    have hleading := (mantissaOf_bounds hpos).2 (not_le.mp hle)
    rw [mantissaOf, if_neg hle] at hleading
    refine byteLength_eq (by omega) ?_ ((truncated_le n).trans_lt hhigh)
    calc 2 ^ (8 * byteLength n - 9) = 2 ^ 15 * 256 ^ (byteLength n - 3) := by
          rw [← pow_bytes, ← pow_add]
          congr 1
          omega
      _ ≤ truncated n := Nat.mul_le_mul_right _ hleading

theorem mantissaOf_truncated (hpos : 0 < n) : mantissaOf (truncated n) = mantissaOf n := by
  rw [mantissaOf, mantissaOf, byteLength_truncated hpos]
  split
  · rename_i hle
    rw [truncated, Nat.sub_eq_zero_of_le hle, pow_zero, mul_one, Nat.div_one]
  · rw [truncated, Nat.mul_div_cancel _ (by positivity)]

/-- **Compact targets are read back.** A positive number of at most 255 bytes has a compact target;
the number read back is less by a part of 2^-15 and has the same compact target. Both decoders
read every compact target alike. -/
theorem compact_reads_back :
    (∀ n : Nat, 0 < n → n < 2 ^ 2039 → ∃ c, bigToCompact n = .ok c ∧
      compactToBig c ≤ n ∧ (n : Rat) * (1 - 2 ^ (-15 : Int)) < compactToBig c ∧
        bigToCompact (compactToBig c) = .ok c) ∧
      ∀ c, calculateTarget c = compactToBig c := by
  refine ⟨fun n hpos hlt => ?_, fun c => ?_⟩
  · have hbits : 2039 = 8 * 255 - 1 := by decide
    rw [hbits, ← byteLength_le_iff (by decide)] at hlt
    have hlength : byteLength n < 256 := Nat.lt_succ_of_le hlt
    have hback : compactToBig (compactOf (byteLength n) (mantissaOf n)) = (truncated n : Nat) := by
      rw [compactToBig_compactOf hlength (mantissaOf_bounds hpos).1, magnitudeOf_mantissaOf,
        truncated]
    have hle := truncated_le n
    have hloss := lt_truncated_add hpos
    have hkept : 0 < truncated n := by omega
    refine ⟨_, bigToCompact_pos hpos, ?_⟩
    rw [hback]
    refine ⟨by exact_mod_cast hle, ?_, ?_⟩
    · have hcast : ((n : Rat) - truncated n) * 2 ^ 15 < n := by
        rw [← Nat.cast_sub hle]
        exact_mod_cast hloss
      rw [Int.cast_natCast]
      norm_num at hcast ⊢
      linarith
    · rw [bigToCompact_pos hkept, byteLength_truncated hpos, mantissaOf_truncated hpos]
  · rw [calculateTarget_eq_denoted, compactToBig_eq]

/-- A number of 256 bytes has a compact target that denotes zero. -/
theorem compact_of_256_bytes :
    bigToCompact (2 ^ 2039) = .ok 0x8000 ∧ compactToBig 0x8000 = 0 ∧
      bigToCompact (compactToBig 0x8000) ≠ .ok 0x8000 := by
  decide +kernel

end Positive

end HashStorm.Kaspa
