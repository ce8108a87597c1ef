import HashStorm.Lib.Rounding
import Mathlib.Algebra.Order.Archimedean.Basic
import Mathlib.Algebra.Order.Field.Power
import Mathlib.Data.Int.Bitwise
import Mathlib.Tactic.FieldSimp
import Mathlib.Tactic.Linarith
import Mathlib.Tactic.Positivity

/-!
# Packed difficulties

`BeamUtils` packs a difficulty into an order and 24 bits of a mantissa. The order is that of
the rounded difficulty and the mantissa that of the exact one, so a difficulty that is
rounded up to a power of two is packed as a negative number or as that power.
Difficulties are exact rationals in place of doubles.
-/

namespace HashStorm.Beam

open Rounding

/-- `UnpackedDifficulty`. -/
def unpackedDifficulty (packedDifficulty : Int) : Rat :=
  let leadingBit : Int := 2 ^ 24
  let order := packedDifficulty / 2 ^ 24
  let bits := Int.lor leadingBit (Int.land packedDifficulty (leadingBit - 1))
  let result := (bits : Rat) * 2 ^ (order - 24)
  |result|

/-- `Convert.ToUInt32` of a whole number, which throws outside its range. -/
def toUInt32 (value : Int) : Option UInt32 :=
  if 0 ≤ value ∧ value < 2 ^ 32 then some (.ofNat value.toNat) else none

/-- `BitOperations.LeadingZeroCount`. -/
def leadingZeroCount (value : UInt32) : Nat :=
  if value = 0 then 32 else 31 - value.toNat.log2

/-- `PackedDifficulty`. -/
def packedDifficulty (unpackedDifficulty : Rat) : Option Int := do
  let rounded ← toUInt32 (roundHalfEven unpackedDifficulty)
  let bits : Int := 32 - leadingZeroCount rounded
  let correctedOrder := bits - 24 - 1
  let mantissa := truncate (unpackedDifficulty * 2 ^ (-correctedOrder) - 2 ^ 24)
  let order := 24 + correctedOrder
  return Int.lor mantissa (order * 2 ^ 24)

/-- The packed form of an order and a mantissa. -/
def packed (order mantissa : Nat) : Int := order * 2 ^ 24 + mantissa

section Bits

variable {order mantissa : Nat}

theorem lor_order (order : Nat) (h : mantissa < 2 ^ 24) :
    Int.lor mantissa (order * 2 ^ 24) = packed order mantissa := by
  have hor : mantissa ||| order * 2 ^ 24 = order * 2 ^ 24 + mantissa := by
    rw [Nat.or_comm, ← Nat.shiftLeft_eq, ← Nat.shiftLeft_add_eq_or_of_lt h]
  have hcast : ((order : Int) * 2 ^ 24) = ((order * 2 ^ 24 : Nat) : Int) := by push_cast; rfl
  rw [hcast, packed, hcast]
  exact congrArg Int.ofNat hor

/-- The bits above a negative mantissa hide the order. -/
theorem lor_neg {m : Int} (h : m < 0) (n : Nat) : Int.lor m n < 0 := by
  cases m with
  | ofNat m => exact absurd h (Int.natCast_nonneg m).not_gt
  | negSucc m => exact Int.negSucc_lt_zero _

theorem unpackedDifficulty_packed (order : Nat) (h : mantissa < 2 ^ 24) :
    unpackedDifficulty (packed order mantissa) =
      (2 ^ 24 + (mantissa : Rat)) * 2 ^ ((order : Int) - 24) := by
  have hand : Int.land (packed order mantissa) (2 ^ 24 - 1) = mantissa := by
    have hnat : (order * 2 ^ 24 + mantissa) &&& (2 ^ 24 - 1) = mantissa := by
      rw [Nat.and_two_pow_sub_one_eq_mod]
      omega
    have hcast : packed order mantissa = ((order * 2 ^ 24 + mantissa : Nat) : Int) := by
      rw [packed]
      push_cast
      rfl
    rw [hcast]
    exact congrArg Int.ofNat hnat
  have hor : Int.lor (2 ^ 24) mantissa = 2 ^ 24 + mantissa := by
    have hnat : 2 ^ 24 ||| mantissa = 2 ^ 24 + mantissa := by
      have hone := Nat.shiftLeft_add_eq_or_of_lt h 1
      rw [Nat.shiftLeft_eq, Nat.one_mul] at hone
      exact hone.symm
    exact congrArg Int.ofNat hnat
  have hdiv : packed order mantissa / 2 ^ 24 = order := by
    rw [packed]
    omega
  rw [unpackedDifficulty, hand, hor, hdiv, abs_of_nonneg (by positivity)]
  push_cast
  rfl

end Bits

section Order

variable {d : Rat} {k : Nat}

/-- A difficulty that is not rounded up to a power of two. -/
def KeepsOrder (d : Rat) : Prop := ∀ k : Nat, ¬((2 : Rat) ^ k - 1 / 2 ≤ d ∧ d < 2 ^ k)

theorem roundHalfEven_of_keeps (hlow : 2 ^ k ≤ d) (hhigh : d < 2 ^ (k + 1) - 1 / 2) :
    2 ^ k ≤ roundHalfEven d ∧ roundHalfEven d < 2 ^ (k + 1) := by
  have hfloor : 2 ^ k ≤ ⌊d⌋ := Int.le_floor.mpr (by exact_mod_cast hlow)
  rw [roundHalfEven]
  split
  · refine ⟨hfloor, Int.floor_lt.mpr ?_⟩
    push_cast
    linarith
  · rename_i hup
    rw [not_or, not_lt] at hup
    have hlt : (⌊d⌋ + 1 : Rat) < 2 ^ (k + 1) := by linarith [hup.1]
    exact ⟨hfloor.trans (by omega), by exact_mod_cast hlt⟩

/-- What is in the middle below a power of two is rounded up, since the neighbour is odd. -/
theorem roundHalfEven_of_crosses (hlow : 2 ^ (k + 1) - 1 / 2 ≤ d) (hhigh : d < 2 ^ (k + 1)) :
    roundHalfEven d = 2 ^ (k + 1) := by
  have hfloor : ⌊d⌋ = 2 ^ (k + 1) - 1 := by
    rw [Int.floor_eq_iff]
    push_cast
    exact ⟨by linarith, by linarith⟩
  have hodd : ((2 : Int) ^ (k + 1) - 1) % 2 = 1 := by
    rw [pow_succ]
    omega
  rw [roundHalfEven, hfloor, if_neg, sub_add_cancel]
  push_cast
  rintro (h | ⟨-, h⟩)
  · linarith
  · omega

/-- The order is that of the rounded difficulty. -/
theorem packedDifficulty_eq (hlow : 2 ^ k ≤ roundHalfEven d)
    (hhigh : roundHalfEven d < 2 ^ (k + 1)) (hlt : roundHalfEven d < 2 ^ 32) :
    packedDifficulty d =
      some (Int.lor (truncate (d * 2 ^ (24 - (k : Int)) - 2 ^ 24)) (k * 2 ^ 24)) := by
  obtain ⟨n, hn⟩ := Int.eq_ofNat_of_zero_le ((by positivity : (0 : Int) ≤ 2 ^ k).trans hlow)
  rw [hn] at hlow hhigh hlt
  have hlow : 2 ^ k ≤ n := by exact_mod_cast hlow
  have hhigh : n < 2 ^ (k + 1) := by exact_mod_cast hhigh
  have hlt : n < 2 ^ 32 := by exact_mod_cast hlt
  have hzero : n ≠ 0 := (Nat.pos_of_ne_zero (by positivity) |>.trans_le hlow).ne'
  have hlog : n.log2 = k := (Nat.log2_eq_iff hzero).mpr ⟨hlow, hhigh⟩
  have hk : k < 32 := hlog ▸ (Nat.log2_lt hzero).mpr hlt
  have htoNat : (UInt32.ofNat n).toNat = n := UInt32.toNat_ofNat_of_lt' hlt
  have hrounded : toUInt32 (roundHalfEven d) = some (.ofNat n) := by
    rw [toUInt32, hn, if_pos ⟨Int.natCast_nonneg n, by exact_mod_cast hlt⟩, Int.toNat_natCast]
  have hcount : leadingZeroCount (.ofNat n) = 31 - k := by
    rw [leadingZeroCount, if_neg, htoNat, hlog]
    rintro h
    rw [h] at htoNat
    exact hzero htoNat.symm
  have hexponent : -(32 - ((31 - k : Nat) : Int) - 24 - 1) = 24 - k := by omega
  have horder : 24 + (32 - ((31 - k : Nat) : Int) - 24 - 1) = k := by omega
  rw [packedDifficulty, hrounded]
  simp only [Option.bind_eq_bind, Option.bind_some, hcount, hexponent, horder]
  rfl

theorem zpow_order (k : Nat) : (2 : Rat) ^ k * 2 ^ (24 - (k : Int)) = 2 ^ 24 := by
  rw [← zpow_natCast, ← zpow_add₀ two_ne_zero, add_sub_cancel]
  rfl

/-- The packed form of a difficulty that keeps its order. -/
theorem packedDifficulty_of_keeps (hlow : 2 ^ k ≤ d) (hhigh : d < 2 ^ (k + 1) - 1 / 2)
    (hlt : roundHalfEven d < 2 ^ 32) :
    ∃ mantissa < 2 ^ 24, packedDifficulty d = some (packed k mantissa) ∧
      (2 ^ 24 + mantissa : Int) = ⌊d * 2 ^ (24 - (k : Int))⌋ := by
  have hscale : (0 : Rat) < 2 ^ (24 - (k : Int)) := by positivity
  have hmin : (2 : Rat) ^ 24 ≤ d * 2 ^ (24 - (k : Int)) := by
    rw [← zpow_order k]
    exact mul_le_mul_of_nonneg_right hlow hscale.le
  have hmax : d * 2 ^ (24 - (k : Int)) < 2 ^ 25 := by
    have hpow : (2 : Rat) ^ 25 = 2 ^ (k + 1) * 2 ^ (24 - (k : Int)) := by
      rw [pow_succ 2 k, mul_right_comm, zpow_order]
      norm_num
    rw [hpow]
    exact mul_lt_mul_of_pos_right (hhigh.trans (by norm_num)) hscale
  have hfloor : 2 ^ 24 ≤ ⌊d * 2 ^ (24 - (k : Int))⌋ := Int.le_floor.mpr (by exact_mod_cast hmin)
  have hfloor' : ⌊d * 2 ^ (24 - (k : Int))⌋ < 2 ^ 25 := Int.floor_lt.mpr (by exact_mod_cast hmax)
  obtain ⟨mantissa, hmantissa⟩ := Int.eq_ofNat_of_zero_le (sub_nonneg.mpr hfloor)
  have hsmall : mantissa < 2 ^ 24 := by omega
  obtain ⟨hround, hround'⟩ := roundHalfEven_of_keeps hlow hhigh
  refine ⟨mantissa, hsmall, ?_, by omega⟩
  have htruncate : truncate (d * 2 ^ (24 - (k : Int)) - 2 ^ 24) = mantissa := by
    have hcast : (2 : Rat) ^ 24 = ((2 ^ 24 : Int) : Rat) := by norm_num
    rw [truncate, if_pos (sub_nonneg.mpr hmin), hcast, Int.floor_sub_intCast]
    exact hmantissa
  rw [packedDifficulty_eq hround hround' hlt, htruncate, lor_order k hsmall]

/-- A difficulty that is rounded up to a power of two is packed as that or as something
negative. -/
theorem packedDifficulty_of_crosses (hlow : 2 ^ (k + 1) - 1 / 2 ≤ d) (hhigh : d < 2 ^ (k + 1))
    (hlt : roundHalfEven d < 2 ^ 32) :
    ∃ p, packedDifficulty d = some p ∧ (p < 0 ∨ p = packed (k + 1) 0) := by
  have hround := roundHalfEven_of_crosses hlow hhigh
  have hnext : roundHalfEven d < 2 ^ (k + 1 + 1) := by
    rw [hround]
    exact pow_lt_pow_right₀ (by decide) (Nat.lt_succ_self _)
  refine ⟨_, packedDifficulty_eq hround.ge hnext hlt, ?_⟩
  have hneg : d * 2 ^ (24 - ((k + 1 : Nat) : Int)) - 2 ^ 24 < 0 := by
    rw [sub_neg, ← zpow_order (k + 1)]
    exact mul_lt_mul_of_pos_right hhigh (by positivity)
  have hceil : truncate (d * 2 ^ (24 - ((k + 1 : Nat) : Int)) - 2 ^ 24) ≤ 0 := by
    rw [truncate, if_neg hneg.not_ge]
    exact Int.ceil_le.mpr (by exact_mod_cast hneg.le)
  rcases hceil.lt_or_eq with hlt | heq
  · exact .inl (lor_neg hlt ((k + 1) * 2 ^ 24))
  · rw [heq]
    exact .inr (lor_order (k + 1) (by decide))

theorem keepsOrder_iff (hlow : 2 ^ k ≤ d) (hhigh : d < 2 ^ (k + 1)) :
    KeepsOrder d ↔ d < 2 ^ (k + 1) - 1 / 2 := by
  constructor
  · intro hkeeps
    exact not_le.mp fun hcrosses => hkeeps (k + 1) ⟨hcrosses, hhigh⟩
  · rintro hlt j ⟨hj, hj'⟩
    have hkj : k < j := (pow_lt_pow_iff_right₀ one_lt_two).mp (hlow.trans_lt hj')
    have hpow : (2 : Rat) ^ (k + 1) ≤ 2 ^ j := pow_le_pow_right₀ one_le_two hkj
    linarith

theorem roundHalfEven_lt (h : d ≤ 2 ^ 32 - 1) : roundHalfEven d < 2 ^ 32 := by
  have hfloor := Int.floor_le d
  rw [roundHalfEven]
  split
  · have hlt : (⌊d⌋ : Rat) < 2 ^ 32 := by linarith
    exact_mod_cast hlt
  · rename_i hup
    rw [not_or, not_lt] at hup
    have hlt : (⌊d⌋ + 1 : Rat) < 2 ^ 32 := by linarith [hup.1]
    exact_mod_cast hlt

theorem unpackedDifficulty_order (k : Nat) : unpackedDifficulty (packed k 0) = 2 ^ k := by
  rw [unpackedDifficulty_packed k (by decide), Nat.cast_zero, add_zero, zpow_sub₀ two_ne_zero,
    zpow_natCast, mul_div_assoc', mul_comm]
  exact mul_div_cancel_right₀ _ (by norm_num)

end Order

section RoundTrip

variable {d : Rat} {order mantissa : Nat}

/-- A difficulty is packed as an order and a mantissa, and what they unpack to is lower by less
than one unit in the last of 24 bits. -/
def Unpacks (d : Rat) : Prop :=
  ∃ order mantissa : Nat, order ≤ 31 ∧ mantissa < 2 ^ 24 ∧
    packedDifficulty d = some (packed order mantissa) ∧
      d * (1 - 2 ^ (-24 : Int)) < unpackedDifficulty (packed order mantissa) ∧
        unpackedDifficulty (packed order mantissa) ≤ d

theorem unpacks_iff (hmin : 1 ≤ d) (hmax : d ≤ 2 ^ 32 - 1) : Unpacks d ↔ KeepsOrder d := by
  obtain ⟨k, hlow, hhigh⟩ := exists_nat_pow_near hmin one_lt_two
  have hround := roundHalfEven_lt hmax
  rw [keepsOrder_iff hlow hhigh]
  constructor
  · rintro ⟨order, mantissa, -, -, hpacked, -, hle⟩
    by_contra hcrosses
    obtain ⟨p, hp, hcase⟩ := packedDifficulty_of_crosses (not_lt.mp hcrosses) hhigh hround
    obtain rfl := Option.some.inj (hpacked.symm.trans hp)
    rcases hcase with hneg | hnext
    · rw [packed] at hneg
      omega
    · rw [hnext, unpackedDifficulty_order] at hle
      exact hhigh.not_ge hle
  · intro hkeeps
    obtain ⟨mantissa, hmantissa, hpacked, hfloor⟩ := packedDifficulty_of_keeps hlow hkeeps hround
    have hk : k < 32 := (pow_lt_pow_iff_right₀ (one_lt_two (α := Rat))).mp (by linarith)
    refine ⟨k, mantissa, Nat.le_of_lt_succ hk, hmantissa, hpacked, ?_⟩
    have hunit : (0 : Rat) < 2 ^ ((k : Int) - 24) := by positivity
    have hinverse : (2 : Rat) ^ (24 - (k : Int)) * 2 ^ ((k : Int) - 24) = 1 := by
      rw [← zpow_add₀ two_ne_zero, sub_add_sub_cancel, sub_self, zpow_zero]
    have hcast : (2 ^ 24 + (mantissa : Rat)) = (⌊d * 2 ^ (24 - (k : Int))⌋ : Rat) := by
      rw [← hfloor]
      push_cast
      rfl
    have hd : d = d * 2 ^ (24 - (k : Int)) * 2 ^ ((k : Int) - 24) := by
      rw [mul_assoc, hinverse, mul_one]
    rw [unpackedDifficulty_packed k hmantissa, hcast]
    constructor
    · have hlt := mul_lt_mul_of_pos_right (Int.lt_floor_add_one (d * 2 ^ (24 - (k : Int)))) hunit
      have hsmall : (2 : Rat) ^ ((k : Int) - 24) ≤ d * 2 ^ (-24 : Int) := by
        rw [sub_eq_add_neg, zpow_add₀ two_ne_zero, zpow_natCast]
        exact mul_le_mul_of_nonneg_right hlow (by positivity)
      rw [← hd, add_mul, one_mul] at hlt
      linarith
    · have hle := mul_le_mul_of_nonneg_right (Int.floor_le (d * 2 ^ (24 - (k : Int)))) hunit.le
      rwa [← hd] at hle

/-- What was unpacked is packed again if and only if it keeps its order. -/
theorem packedDifficulty_unpackedDifficulty_iff (hmantissa : mantissa < 2 ^ 24)
    (hmax : unpackedDifficulty (packed order mantissa) ≤ 2 ^ 32 - 1) :
    packedDifficulty (unpackedDifficulty (packed order mantissa)) =
        some (packed order mantissa) ↔
      KeepsOrder (unpackedDifficulty (packed order mantissa)) := by
  have hd := unpackedDifficulty_packed order hmantissa
  have hround := roundHalfEven_lt hmax
  set d := unpackedDifficulty (packed order mantissa)
  have hscaled : d * 2 ^ (24 - (order : Int)) = 2 ^ 24 + (mantissa : Rat) := by
    rw [hd, mul_assoc, ← zpow_add₀ two_ne_zero, sub_add_sub_cancel, sub_self, zpow_zero, mul_one]
  have hscale : (0 : Rat) < 2 ^ (24 - (order : Int)) := by positivity
  have hlow : 2 ^ order ≤ d := by
    refine le_of_mul_le_mul_right ?_ hscale
    rw [hscaled, zpow_order]
    exact le_add_of_nonneg_right (Nat.cast_nonneg mantissa)
  have hhigh : d < 2 ^ (order + 1) := by
    have hcast : (mantissa : Rat) < 2 ^ 24 := by exact_mod_cast hmantissa
    refine lt_of_mul_lt_mul_right ?_ hscale.le
    rw [hscaled, pow_succ 2 order, mul_right_comm, zpow_order]
    linarith
  rw [keepsOrder_iff hlow hhigh]
  constructor
  · intro hpacked
    by_contra hcrosses
    obtain ⟨p, hp, hcase⟩ := packedDifficulty_of_crosses (not_lt.mp hcrosses) hhigh hround
    obtain rfl := Option.some.inj (hpacked.symm.trans hp)
    simp only [packed] at hcase
    omega
  · intro hkeeps
    obtain ⟨mantissa', hmantissa', hpacked, hfloor⟩ :=
      packedDifficulty_of_keeps hlow hkeeps hround
    have hcast : (2 : Rat) ^ 24 + (mantissa : Rat) = ((2 ^ 24 + mantissa : Int) : Rat) := by
      push_cast
      rfl
    rw [hscaled, hcast, Int.floor_intCast] at hfloor
    have hsame : mantissa' = mantissa := by omega
    rw [hpacked, hsame]

/-- **When packing is exact.** A difficulty is unpacked to itself up to the last bit, and what
was unpacked is packed again, if and only if it is not rounded up to a power of two. -/
theorem packed_exact_iff (hmin : 1 ≤ d) (hmax : d ≤ 2 ^ 32 - 1)
    (hmantissa : mantissa < 2 ^ 24)
    (hunpacked : unpackedDifficulty (packed order mantissa) ≤ 2 ^ 32 - 1) :
    (Unpacks d ↔ KeepsOrder d) ∧
      (packedDifficulty (unpackedDifficulty (packed order mantissa)) =
          some (packed order mantissa) ↔
        KeepsOrder (unpackedDifficulty (packed order mantissa))) :=
  ⟨unpacks_iff hmin hmax, packedDifficulty_unpackedDifficulty_iff hmantissa hunpacked⟩

theorem packed_exact_iff_ten :
    (Unpacks 10 ↔ KeepsOrder 10) ∧
      (packedDifficulty (unpackedDifficulty (packed 31 0)) = some (packed 31 0) ↔
        KeepsOrder (unpackedDifficulty (packed 31 0))) :=
  packed_exact_iff (by norm_num) (by norm_num) (by decide)
    (by rw [unpackedDifficulty_order]; norm_num)

/-- One half below two, a difficulty is packed as a negative number. -/
theorem packedDifficulty_one_half_more :
    packedDifficulty (3 / 2) = some (-4194304) ∧ ¬Unpacks (3 / 2) ∧
      packedDifficulty (unpackedDifficulty (packed 0 8388608)) ≠ some (packed 0 8388608) := by
  have hpacked : packedDifficulty (3 / 2) = some (-4194304) := by decide +kernel
  refine ⟨hpacked, ?_, by decide +kernel⟩
  rintro ⟨order, mantissa, -, -, h, -⟩
  rw [hpacked] at h
  have hneg := Option.some.inj h
  rw [packed] at hneg
  omega

end RoundTrip

end HashStorm.Beam
