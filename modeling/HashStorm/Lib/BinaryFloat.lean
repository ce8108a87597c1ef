import Mathlib.Algebra.Order.Field.Power
import Mathlib.Algebra.Order.Field.Rat
import Mathlib.Tactic.Linarith
import Mathlib.Tactic.Positivity
import Mathlib.Tactic.Ring

/-!
# Binary floating point

A mantissa of so many bits behind the point, scaled by a power of two. Numbers whose
leading bit is set are ordered by their exponents and then by their mantissas.
-/

namespace HashStorm.BinaryFloat

/-- The number of a mantissa and an exponent. -/
def scaled (precision mantissa : Nat) (exponent : Int) : Rat :=
  mantissa * 2 ^ (exponent - precision)

/-- A mantissa of the precision whose leading bit is set. -/
structure Normalised (precision mantissa : Nat) : Prop where
  two_pow_le : 2 ^ precision ≤ 2 * mantissa
  lt_two_pow : mantissa < 2 ^ precision

section Scaled

variable {p m n : Nat} {e f k : Int}

theorem zpow_exponent (e k : Int) : (2 : Rat) ^ (e + k) = 2 ^ e * 2 ^ k := zpow_add₀ two_ne_zero e k

theorem two_pow_mul (p : Nat) (e : Int) : (2 : Rat) ^ p * 2 ^ (e - p) = 2 ^ e := by
  rw [← zpow_natCast, ← zpow_exponent, add_sub_cancel]

theorem scaled_nonneg : 0 ≤ scaled p m e := by
  unfold scaled
  positivity

theorem scaled_add : scaled p (m + n) e = scaled p m e + scaled p n e := by
  rw [scaled, Nat.cast_add, add_mul]
  rfl

theorem scaled_mono (h : m ≤ n) : scaled p m e ≤ scaled p n e := by
  have hcast : (m : Rat) ≤ n := by exact_mod_cast h
  exact mul_le_mul_of_nonneg_right hcast (by positivity)

/-- Bits that are moved to the front are taken from the exponent. -/
theorem scaled_shift (shift : Nat) : scaled p (m * 2 ^ shift) (e - shift) = scaled p m e := by
  have hexponent : e - p = (e - shift - p) + shift := by ring
  rw [scaled, scaled, hexponent, zpow_exponent (e - shift - p), zpow_natCast]
  push_cast
  ring

theorem scaled_lt_two_pow (h : m < 2 ^ p) : scaled p m e < 2 ^ e := by
  have hcast : (m : Rat) < 2 ^ p := by exact_mod_cast h
  rw [← two_pow_mul p e]
  exact mul_lt_mul_of_pos_right hcast (by positivity)

theorem two_pow_le_scaled (h : 2 ^ p ≤ 2 * m) : 2 ^ (e - 1) ≤ scaled p m e := by
  have hcast : (2 : Rat) ^ p ≤ 2 * m := by exact_mod_cast h
  have hle := mul_le_mul_of_nonneg_right hcast (by positivity : (0 : Rat) ≤ 2 ^ (e - p))
  have htwo : (2 : Rat) ^ e = 2 * 2 ^ (e - 1) := by
    rw [mul_comm, ← zpow_add_one₀ two_ne_zero, sub_add_cancel]
  rw [two_pow_mul, htwo, mul_assoc] at hle
  exact le_of_mul_le_mul_left hle two_pos

theorem Normalised.pos (h : Normalised p m) : 0 < m := by
  have hpow : 0 < 2 ^ p := by positivity
  have hle := h.two_pow_le
  omega

theorem Normalised.scaled_pos (h : Normalised p m) : 0 < scaled p m e :=
  (by positivity : (0 : Rat) < 2 ^ (e - 1)).trans_le (two_pow_le_scaled h.two_pow_le)

/-- The exponent is bounded by the number. -/
theorem Normalised.exponent_le (h : Normalised p m) (hlt : scaled p m e < 2 ^ k) : e ≤ k := by
  have hpow := (two_pow_le_scaled h.two_pow_le).trans_lt hlt
  have hexponent := (zpow_lt_zpow_iff_right₀ (one_lt_two (α := Rat))).mp hpow
  omega

theorem Normalised.scaled_lt_of_exponent_lt (hn : Normalised p n) (hm : m < 2 ^ p)
    (h : e < f) : scaled p m e < scaled p n f := by
  have hpow : (2 : Rat) ^ e ≤ 2 ^ (f - 1) := zpow_le_zpow_right₀ one_le_two (by omega)
  exact (scaled_lt_two_pow hm).trans_le (hpow.trans (two_pow_le_scaled hn.two_pow_le))

theorem scaled_lt_scaled_iff : scaled p m e < scaled p n e ↔ m < n := by
  have hpow : (0 : Rat) < 2 ^ (e - p) := by positivity
  rw [scaled, scaled, mul_lt_mul_iff_left₀ hpow, Nat.cast_lt]

/-- Numbers with leading bits are compared by their exponents and then by their mantissas. -/
theorem Normalised.scaled_lt_iff (hm : Normalised p m) (hn : Normalised p n) :
    scaled p m e < scaled p n f ↔ e < f ∨ e = f ∧ m < n := by
  rcases lt_trichotomy e f with hlt | rfl | hgt
  · exact iff_of_true (hn.scaled_lt_of_exponent_lt hm.lt_two_pow hlt) (.inl hlt)
  · rw [scaled_lt_scaled_iff]
    simp
  · refine iff_of_false (hm.scaled_lt_of_exponent_lt hn.lt_two_pow hgt).not_gt ?_
    rintro (h | ⟨h, -⟩)
    · exact h.not_gt hgt
    · exact hgt.ne' h

theorem Normalised.scaled_eq_iff (hm : Normalised p m) (hn : Normalised p n) :
    scaled p m e = scaled p n f ↔ e = f ∧ m = n := by
  constructor
  · intro h
    have hlt := (hm.scaled_lt_iff hn).not.mp h.not_lt
    have hgt := (hn.scaled_lt_iff hm).not.mp h.symm.not_lt
    omega
  · rintro ⟨rfl, rfl⟩
    rfl

/-- Cutting off bits loses less than one unit of the last bit that stays. -/
theorem scaled_div (shift : Nat) :
    scaled p (m / 2 ^ shift) (e + shift) ≤ scaled p m e ∧
      scaled p m e < scaled p (m / 2 ^ shift) (e + shift) + 2 ^ (e + shift - p) := by
  have hback (n : Nat) : scaled p n (e + shift) = scaled p (n * 2 ^ shift) e := by
    rw [← scaled_shift shift, add_sub_cancel_right]
  have hunit : (2 : Rat) ^ (e + shift - p) = scaled p 1 (e + shift) := by
    rw [scaled, Nat.cast_one, one_mul]
  rw [hunit, ← scaled_add, hback, hback]
  refine ⟨scaled_mono (Nat.div_mul_le_self m _), scaled_lt_scaled_iff.mpr ?_⟩
  rw [add_mul, one_mul]
  exact Nat.lt_div_mul_add (by positivity)

end Scaled

end HashStorm.BinaryFloat
