import HashStorm.Blockchain.Warthog.FloatArithmetic
import Mathlib.Data.Sign.Basic

/-!
# Errors of truncated sums and products

A product of two floats loses less than one part in 2^31, and a sum less than two units of the
last bit at the higher exponent: one where the lower operand is cut, and one where the sum carries
into a bit of its own. Numbers of different signs are subtracted without a loss once they are
aligned, so that nothing is lost at all between equal exponents.
-/

namespace HashStorm.Warthog.WarthogCustomFloat

open BinaryFloat

variable {x y z : WarthogCustomFloat}

section Value

variable {b c : Bool} {r t : Rat}

/-- A number with a sign. -/
def signed (isPositive : Bool) (r : Rat) : Rat := if isPositive then r else -r

/-- The number of a float. -/
def value (x : WarthogCustomFloat) : Rat := signed x.isPositive x.magnitude

theorem abs_signed (b : Bool) (r : Rat) : |signed b r| = |r| := by
  cases b
  · exact abs_neg r
  · rfl

theorem signed_add (b : Bool) (r t : Rat) : signed b (r + t) = signed b r + signed b t := by
  cases b
  · exact neg_add r t
  · rfl

theorem signed_sub (b : Bool) (r t : Rat) : signed b (r - t) = signed b r - signed b t := by
  cases b
  · exact neg_sub' r t
  · rfl

theorem signed_mul (b c : Bool) (r t : Rat) :
    signed b r * signed c t = signed (b == c) (r * t) := by
  cases b <;> cases c <;> simp [signed]

theorem signed_of_ne (h : b ≠ c) (r : Rat) : signed c r = -signed b r := by
  cases b <;> cases c <;> simp [signed] at h ⊢

theorem sign_signed (b : Bool) (h : 0 < r) :
    SignType.sign (signed b r) = if b then 1 else -1 := by
  cases b
  · exact sign_neg (neg_neg_of_pos h)
  · exact sign_pos h

theorem abs_value (x : WarthogCustomFloat) : |x.value| = x.magnitude := by
  rw [value, abs_signed]
  exact abs_of_nonneg scaled_nonneg

theorem value_mul (x y : WarthogCustomFloat) :
    x.value * y.value = signed (x.isPositive == y.isPositive) (x.magnitude * y.magnitude) :=
  signed_mul _ _ _ _

end Value

section Mul

/-- A truncated product. -/
theorem mul_truncates (hx : x.Wide) (hy : y.Wide) :
    ∃ z, mul x y = .ok z ∧ Normalised 32 z.mantissa ∧
      SignType.sign z.value = SignType.sign (x.value * y.value) ∧
      |x.value * y.value| * (1 - 2 ^ (-31 : Int)) < |z.value| ∧
      |z.value| ≤ |x.value * y.value| := by
  obtain ⟨shift, -, hlow, hn, hz⟩ := mul_eq hx hy
  obtain ⟨hle, hlt⟩ := magnitude_of_shift (z := ⟨_, _, x.isPositive == y.isPositive⟩) shift hlow
    rfl rfl
  have hpos : 0 < x.magnitude * y.magnitude := mul_pos hx.magnitude_pos hy.magnitude_pos
  refine ⟨_, hz, hn, ?_, ?_, ?_⟩
  · rw [value_mul, sign_signed _ hpos, value]
    exact sign_signed _ hn.scaled_pos
  · rw [abs_mul, abs_value, abs_value, abs_value]
    exact hlt
  · rw [abs_mul, abs_value, abs_value, abs_value]
    exact hle

end Mul

section Add

variable {d : Nat}

/-- The unit of the last bit at an exponent, twice. -/
theorem two_units (e : Int) : (2 : Rat) ^ (e - 32) + 2 ^ (e - 32) = 2 ^ (e - 31) := by
  have hexponent : e - 31 = e - 32 + 1 := by ring
  rw [hexponent, zpow_add_one₀ two_ne_zero]
  ring

/-- A mantissa that carries loses its last bit. -/
theorem carried_spec {e : Int} {m : Nat} (b : Bool) (hlow : 2 ^ 31 ≤ m) (hhigh : m < 2 ^ 33) :
    Normalised 32 (carried e m b).mantissa ∧ (carried e m b).isPositive = b ∧
      (carried e m b).magnitude ≤ scaled 32 m e ∧
      scaled 32 m e ≤ (carried e m b).magnitude + 2 ^ (e - 32) := by
  have hunit : (0 : Rat) < 2 ^ (e - 32) := by positivity
  rw [carried]
  split
  · rename_i hsmall
    exact ⟨⟨by dsimp only; omega, hsmall⟩, rfl, le_refl _, le_add_of_nonneg_right hunit.le⟩
  · have hback : scaled 32 (m / 2) (e + 1) = scaled 32 (m / 2 * 2) e := by
      have hshift := scaled_shift (p := 32) (m := m / 2) (e := e + 1) 1
      rw [pow_one, Nat.cast_one, add_sub_cancel_right] at hshift
      exact hshift.symm
    have hone : scaled 32 1 e = 2 ^ (e - 32) := by
      rw [scaled, Nat.cast_one, one_mul]
      rfl
    refine ⟨⟨by dsimp only; omega, by dsimp only; omega⟩, rfl, ?_, ?_⟩
    · rw [magnitude, hback]
      exact scaled_mono (by omega)
    · rw [magnitude, hback, ← hone, ← scaled_add]
      exact scaled_mono (by omega)

/-- The lower operand loses less than one unit. -/
theorem operand_error (b : Bool) (hd : y.exponent + d = x.exponent) :
    |signed b (scaled 32 (y.mantissa / 2 ^ d) x.exponent) - signed b y.magnitude| <
      2 ^ (x.exponent - 32) := by
  obtain ⟨hle, hlt⟩ := operand_bounds hd.symm
  rw [← signed_sub, abs_signed, abs_lt]
  constructor <;> linarith

/-- Numbers of different signs are subtracted without a loss once they are aligned. -/
theorem addOrdered_aligned (hx : x.Wide) (hy : y.Wide) (hd : y.exponent + d = x.exponent)
    (hnear : d < 64) (hsign : x.isPositive ≠ y.isPositive) :
    ∃ z, addOrdered x y = .ok z ∧ (z.mantissa = 0 ∨ Normalised 32 z.mantissa) ∧
      z.value = x.value + signed y.isPositive (scaled 32 (y.mantissa / 2 ^ d) x.exponent) := by
  have hsub {m n : Nat} (h : n ≤ m) :
      scaled 32 (m - n) x.exponent = scaled 32 m x.exponent - scaled 32 n x.exponent := by
    rw [eq_sub_iff_add_eq, ← scaled_add, Nat.sub_add_cancel h]
  rcases lt_trichotomy (y.mantissa / 2 ^ d) x.mantissa with hlt | heq | hgt
  · obtain ⟨z, hz, hn, hpositive, -, -, hmagnitude⟩ := addOrdered_lower hx hy hd hnear hsign hlt
    refine ⟨z, hz, .inr hn, ?_⟩
    rw [value, hpositive, hmagnitude, hsub hlt.le, signed_sub, signed_of_ne hsign, sub_eq_add_neg]
    rfl
  · refine ⟨_, addOrdered_cancelled hx hy hd hnear hsign heq, .inl rfl, ?_⟩
    have hzero : value { x with mantissa := 0 } = 0 := by
      simp [value, signed, magnitude, scaled]
    rw [hzero, heq, signed_of_ne hsign]
    exact (add_neg_cancel _).symm
  · obtain ⟨z, hz, hn, hpositive, hmagnitude⟩ := addOrdered_higher hx hy hd hsign hgt
    refine ⟨z, hz, .inr hn, ?_⟩
    have hopposite := signed_of_ne hsign (scaled 32 x.mantissa x.exponent)
    rw [value, hpositive, hmagnitude, hsub hgt.le, signed_sub, hopposite, sub_neg_eq_add, add_comm]
    rfl

/-- An addition in the order of the exponents. -/
theorem addOrdered_error (hx : x.Wide) (hy : y.Wide) (hle : y.exponent ≤ x.exponent) :
    ∃ z, addOrdered x y = .ok z ∧ (z.mantissa = 0 ∨ Normalised 32 z.mantissa) ∧
      |z.value - (x.value + y.value)| < 2 ^ (x.exponent - 31) := by
  obtain ⟨d, hd⟩ := Int.le.dest hle
  have hunit : (0 : Rat) < 2 ^ (x.exponent - 32) := by positivity
  have htwo := two_units x.exponent
  rcases Nat.lt_or_ge d 64 with hnear | hfar
  · have hoperand := operand_error y.isPositive hd
    by_cases hsign : x.isPositive = y.isPositive
    · have hx1 := hx.normalised.two_pow_le
      have hx2 := hx.normalised.lt_two_pow
      have hy2 := hy.normalised.lt_two_pow
      have hsmall : y.mantissa / 2 ^ d ≤ y.mantissa := Nat.div_le_self _ _
      have hz := addOrdered_same hx hy hd hnear hsign
      obtain ⟨hn, hpositive, hlow, hhigh⟩ := carried_spec (e := x.exponent)
        (m := x.mantissa + y.mantissa / 2 ^ d) x.isPositive (le_add_right (by omega)) (by omega)
      refine ⟨_, hz, .inr hn, ?_⟩
      rw [scaled_add] at hlow hhigh
      obtain ⟨hle', hlt'⟩ := operand_bounds hd.symm
      have hmagnitude : x.magnitude = scaled 32 x.mantissa x.exponent := rfl
      rw [value, hpositive, value, value, ← hsign, ← signed_add, ← signed_sub, abs_signed, abs_lt]
      constructor <;> linarith
    · obtain ⟨z, hz, hn, hvalue⟩ := addOrdered_aligned hx hy hd hnear hsign
      refine ⟨z, hz, hn, ?_⟩
      rw [hvalue, add_sub_add_left_eq_sub]
      exact hoperand.trans (by linarith)
  · refine ⟨x, addOrdered_far hx hy hd hfar, .inr hx.normalised, ?_⟩
    have hpow : (2 : Rat) ^ y.exponent ≤ 2 ^ (x.exponent - 31) :=
      zpow_le_zpow_right₀ one_le_two (by omega)
    rw [sub_add_cancel_left, abs_neg, abs_value]
    exact (scaled_lt_two_pow hy.normalised.lt_two_pow).trans_le hpow

theorem add_eq_addOrdered (hx : x.Wide) (hy : y.Wide) (hle : y.exponent ≤ x.exponent) :
    add x y = addOrdered x y := by
  rw [add, if_neg hx.normalised.pos.ne', if_neg hy.normalised.pos.ne', if_neg hle.not_gt]

theorem add_eq_addOrdered_symm (hx : x.Wide) (hy : y.Wide) (hlt : x.exponent < y.exponent) :
    add x y = addOrdered y x := by
  rw [add, if_neg hx.normalised.pos.ne', if_neg hy.normalised.pos.ne', if_pos hlt]

/-- At one exponent, the order of the operands makes no difference. -/
theorem addOrdered_comm (hx : x.Wide) (hy : y.Wide) (heq : x.exponent = y.exponent) :
    ∃ z z', addOrdered x y = .ok z ∧ addOrdered y x = .ok z' ∧ z.value = z'.value := by
  have hd : y.exponent + (0 : Nat) = x.exponent := by rw [heq, Nat.cast_zero, add_zero]
  have hd' : x.exponent + (0 : Nat) = y.exponent := by rw [heq, Nat.cast_zero, add_zero]
  by_cases hsign : x.isPositive = y.isPositive
  · refine ⟨_, _, addOrdered_same hx hy hd (by decide) hsign,
      addOrdered_same hy hx hd' (by decide) hsign.symm, ?_⟩
    rw [pow_zero, Nat.div_one, Nat.div_one, add_comm, heq, hsign]
  · obtain ⟨z, hz, -, hvalue⟩ := addOrdered_aligned hx hy hd (by decide) hsign
    obtain ⟨z', hz', -, hvalue'⟩ := addOrdered_aligned hy hx hd' (by decide) (Ne.symm hsign)
    rw [pow_zero, Nat.div_one] at hvalue hvalue'
    rw [heq] at hvalue
    rw [← heq] at hvalue'
    exact ⟨z, z', hz, hz', hvalue.trans ((add_comm _ _).trans hvalue'.symm)⟩

/-- A truncated sum. -/
theorem add_truncates (hx : x.Wide) (hy : y.Wide) :
    ∃ z z', add x y = .ok z ∧ add y x = .ok z' ∧ z.value = z'.value ∧
      (z.mantissa = 0 ∨ Normalised 32 z.mantissa) ∧
      |z.value - (x.value + y.value)| < 2 ^ (max x.exponent y.exponent - 31) := by
  rcases lt_trichotomy x.exponent y.exponent with hlt | heq | hgt
  · obtain ⟨z, hz, hn, herror⟩ := addOrdered_error hy hx hlt.le
    rw [add_eq_addOrdered_symm hx hy hlt, add_eq_addOrdered hy hx hlt.le, max_eq_right hlt.le,
      add_comm]
    exact ⟨z, z, hz, hz, rfl, hn, herror⟩
  · obtain ⟨z, hz, hn, herror⟩ := addOrdered_error hx hy heq.ge
    obtain ⟨w, z', hw, hz', hvalue⟩ := addOrdered_comm hx hy heq
    obtain rfl : z = w := by simpa using hz.symm.trans hw
    rw [add_eq_addOrdered hx hy heq.ge, add_eq_addOrdered hy hx heq.le, max_eq_left heq.ge]
    exact ⟨z, z', hz, hz', hvalue, hn, herror⟩
  · obtain ⟨z, hz, hn, herror⟩ := addOrdered_error hx hy hgt.le
    rw [add_eq_addOrdered hx hy hgt.le, add_eq_addOrdered_symm hy hx hgt, max_eq_left hgt.le]
    exact ⟨z, z, hz, hz, rfl, hn, herror⟩

end Add

/-- **Products and sums are truncated within bounds.** For all floats with a leading bit and
exponents below 2^29, the product is normalised, has the sign of the exact one and loses less than
one part in 2^31; the sum does not depend on the order of its operands, is zero or normalised, and
is less than two units of the last bit at the higher exponent away from the exact one. -/
theorem arithmetic_truncates (hx : x.Wide) (hy : y.Wide) :
    (∃ z, mul x y = .ok z ∧ Normalised 32 z.mantissa ∧
      SignType.sign z.value = SignType.sign (x.value * y.value) ∧
      |x.value * y.value| * (1 - 2 ^ (-31 : Int)) < |z.value| ∧
        |z.value| ≤ |x.value * y.value|) ∧
    ∃ z z', add x y = .ok z ∧ add y x = .ok z' ∧ z.value = z'.value ∧
      (z.mantissa = 0 ∨ Normalised 32 z.mantissa) ∧
      |z.value - (x.value + y.value)| < 2 ^ (max x.exponent y.exponent - 31) :=
  ⟨mul_truncates hx hy, add_truncates hx hy⟩

/-- One, and a number of the other sign next to one quarter. -/
theorem arithmetic_truncates_one :
    (∃ z, mul ⟨1, 0x80000000, true⟩ ⟨-1, 0x80000001, false⟩ = .ok z ∧
      Normalised 32 z.mantissa) ∧
      ∃ z, add ⟨1, 0x80000000, true⟩ ⟨-1, 0x80000001, false⟩ = .ok z ∧
        (z.mantissa = 0 ∨ Normalised 32 z.mantissa) := by
  have hone : Wide ⟨1, 0x80000000, true⟩ := ⟨⟨by decide, by decide⟩, by decide, by decide⟩
  have hquarter : Wide ⟨-1, 0x80000001, false⟩ := ⟨⟨by decide, by decide⟩, by decide, by decide⟩
  obtain ⟨⟨z, hz, hn, -⟩, w, -, hw, -, -, hn', -⟩ := arithmetic_truncates hone hquarter
  exact ⟨⟨z, hz, hn⟩, w, hw, hn'⟩

end HashStorm.Warthog.WarthogCustomFloat
