import HashStorm.Blockchain.Warthog.CustomFloat

/-!
# Truncated sums and products

What the operations on floats with a leading bit give, as exact numbers: a product and a sum
are truncated, and a difference is cut where its second operand is. None of them throws while
the exponents are small.
-/

namespace HashStorm.Warthog.WarthogCustomFloat

open BinaryFloat

variable {x y z : WarthogCustomFloat}

/-- A float with a leading bit, whose exponent is far from overflow. -/
structure Normal (x : WarthogCustomFloat) : Prop where
  normalised : Normalised 32 x.mantissa
  le_exponent : -2 ^ 28 ≤ x.exponent
  exponent_le : x.exponent ≤ 2 ^ 28

/-- A float with a leading bit, whose exponent leaves room for that of a product. -/
structure Wide (x : WarthogCustomFloat) : Prop where
  normalised : Normalised 32 x.mantissa
  lt_exponent : -2 ^ 29 < x.exponent
  exponent_lt : x.exponent < 2 ^ 29

theorem Normal.wide (hx : x.Normal) : x.Wide := by
  have hlow := hx.le_exponent
  have hhigh := hx.exponent_le
  exact ⟨hx.normalised, by omega, by omega⟩

theorem Normal.magnitude_pos (hx : x.Normal) : 0 < x.magnitude := hx.normalised.scaled_pos

theorem Wide.magnitude_pos (hx : x.Wide) : 0 < x.magnitude := hx.normalised.scaled_pos

theorem toInt32_eq {value : Int} (hlow : -2 ^ 31 ≤ value) (hhigh : value < 2 ^ 31) :
    toInt32 value = value := by
  rw [toInt32, Int.bmod_def]
  split <;> omega

section Mul

/-- A product that is truncated. -/
structure IsProduct (x y z : WarthogCustomFloat) : Prop where
  normalised : Normalised 32 z.mantissa
  isPositive : z.isPositive = (x.isPositive == y.isPositive)
  le_exponent : x.exponent + y.exponent - 1 ≤ z.exponent
  exponent_le : z.exponent ≤ x.exponent + y.exponent
  magnitude_le : z.magnitude ≤ x.magnitude * y.magnitude
  le_magnitude : x.magnitude * y.magnitude * (1 - 2 ^ (-31 : Int)) ≤ z.magnitude

theorem magnitude_mul (x y : WarthogCustomFloat) :
    x.magnitude * y.magnitude =
      scaled 32 (x.mantissa * y.mantissa) (x.exponent + y.exponent - 32) := by
  have hexponent : x.exponent + y.exponent - 32 - (32 : Nat) =
      (x.exponent - (32 : Nat)) + (y.exponent - (32 : Nat)) := by
    push_cast
    ring
  rw [magnitude, magnitude, scaled, scaled, scaled, hexponent, zpow_exponent]
  push_cast
  ring

/-- The highest bits of a product of mantissas are the product up to one part in 2^31. -/
theorem magnitude_of_shift (shift : Nat) (hlow : 2 ^ (shift + 31) ≤ x.mantissa * y.mantissa)
    (hexponent : z.exponent = x.exponent + y.exponent - 32 + shift)
    (hmantissa : z.mantissa = x.mantissa * y.mantissa / 2 ^ shift) :
    z.magnitude ≤ x.magnitude * y.magnitude ∧
      x.magnitude * y.magnitude * (1 - 2 ^ (-31 : Int)) < z.magnitude := by
  obtain ⟨hle, hlt⟩ := scaled_div (p := 32) (m := x.mantissa * y.mantissa)
    (e := x.exponent + y.exponent - 32) shift
  rw [← hmantissa, ← hexponent, ← magnitude_mul] at hle hlt
  refine ⟨hle, ?_⟩
  have hunit : (2 : Rat) ^ (z.exponent - (32 : Nat)) * 2 ^ (31 : Int) ≤
      x.magnitude * y.magnitude := by
    rw [← zpow_exponent, magnitude_mul, scaled]
    have hcast : (2 : Rat) ^ ((shift + 31 : Nat) : Int) ≤ (x.mantissa * y.mantissa : Nat) := by
      rw [zpow_natCast]
      exact_mod_cast hlow
    have hsum : z.exponent - (32 : Nat) + 31 =
        ((shift + 31 : Nat) : Int) + (x.exponent + y.exponent - 32 - (32 : Nat)) := by
      push_cast
      omega
    rw [hsum, zpow_exponent]
    exact mul_le_mul_of_nonneg_right hcast (by positivity)
  have hinverse : (2 : Rat) ^ (31 : Int) * 2 ^ (-31 : Int) = 1 := by norm_num
  have hsmall := mul_le_mul_of_nonneg_right hunit (by positivity : (0 : Rat) ≤ 2 ^ (-31 : Int))
  rw [mul_assoc, hinverse, mul_one] at hsmall
  have hlt' : x.magnitude * y.magnitude < z.magnitude + 2 ^ (z.exponent - (32 : Nat)) := hlt
  linarith

/-- A product keeps the highest 32 bits. -/
theorem mul_eq (hx : x.Wide) (hy : y.Wide) :
    ∃ shift : Nat, (shift = 31 ∨ shift = 32) ∧
      2 ^ (shift + 31) ≤ x.mantissa * y.mantissa ∧
      Normalised 32 (x.mantissa * y.mantissa / 2 ^ shift) ∧
      mul x y = .ok ⟨x.exponent + y.exponent - 32 + shift, x.mantissa * y.mantissa / 2 ^ shift,
        x.isPositive == y.isPositive⟩ := by
  have hx1 := hx.normalised.two_pow_le
  have hx2 := hx.normalised.lt_two_pow
  have hy1 := hy.normalised.two_pow_le
  have hy2 := hy.normalised.lt_two_pow
  have hx3 := hx.lt_exponent
  have hx4 := hx.exponent_lt
  have hy3 := hy.lt_exponent
  have hy4 := hy.exponent_lt
  have hlow : 2 ^ 31 * 2 ^ 31 ≤ x.mantissa * y.mantissa :=
    Nat.mul_le_mul (by omega) (by omega)
  have hhigh : x.mantissa * y.mantissa < 2 ^ 32 * 2 ^ 32 := Nat.mul_lt_mul'' hx2 hy2
  have hexponent : toInt32 (x.exponent + y.exponent) = x.exponent + y.exponent :=
    toInt32_eq (by omega) (by omega)
  have hproduct : x.mantissa * y.mantissa % 2 ^ 64 = x.mantissa * y.mantissa :=
    Nat.mod_eq_of_lt (hhigh.trans_eq (by decide))
  rw [mul, if_neg (not_or.mpr ⟨hx.normalised.pos.ne', hy.normalised.pos.ne'⟩)]
  simp only [hexponent, hproduct, Nat.shiftRight_eq_div_pow]
  generalize x.mantissa * y.mantissa = product at hlow hhigh
  by_cases hhalf : product < 2 ^ 63
  · have hdouble : product * 2 % 2 ^ 64 / 2 ^ 32 = product / 2 ^ 31 := by omega
    have he : x.exponent + y.exponent - 1 = x.exponent + y.exponent - 32 + (31 : Nat) := by
      push_cast
      ring
    rw [if_pos hhalf, hdouble, he]
    exact ⟨31, .inl rfl, hlow, ⟨by omega, by omega⟩,
      setAssert_eq (by omega) (by omega) (by omega) (by omega)⟩
  · have he : x.exponent + y.exponent = x.exponent + y.exponent - 32 + (32 : Nat) := by
      push_cast
      ring
    rw [if_neg hhalf]
    refine ⟨32, .inr rfl, not_lt.mp hhalf, ⟨by omega, by omega⟩, ?_⟩
    rw [← he]
    exact setAssert_eq (by omega) (by omega) (by omega) (by omega)

theorem mul_isProduct (hx : x.Normal) (hy : y.Normal) :
    ∃ z, mul x y = .ok z ∧ IsProduct x y z := by
  obtain ⟨shift, hshift, hlow, hnormal, hz⟩ := mul_eq hx.wide hy.wide
  refine ⟨_, hz, ?_⟩
  obtain ⟨hle, hlt⟩ := magnitude_of_shift (z := ⟨_, _, _⟩) shift hlow rfl rfl
  exact ⟨hnormal, rfl, by dsimp only; omega, by dsimp only; omega, hle, hlt.le⟩

end Mul

section Add

/-- A sum of numbers of one sign that is truncated. -/
structure IsSum (x y z : WarthogCustomFloat) : Prop where
  normalised : Normalised 32 z.mantissa
  isPositive : z.isPositive = x.isPositive
  le_exponent : x.exponent ≤ z.exponent ∧ y.exponent ≤ z.exponent
  exponent_le : z.exponent ≤ x.exponent + 1 ∨ z.exponent ≤ y.exponent + 1
  magnitude_le : z.magnitude ≤ x.magnitude + y.magnitude

/-- The difference from a number to a lower one of the other sign, cut where the latter is. -/
structure IsDifference (x y z : WarthogCustomFloat) : Prop where
  normalised : Normalised 32 z.mantissa
  isPositive : z.isPositive = x.isPositive
  le_exponent : x.exponent - 31 ≤ z.exponent
  exponent_le : z.exponent ≤ x.exponent
  le_magnitude : x.magnitude - y.magnitude ≤ z.magnitude
  magnitude_le : z.magnitude ≤ x.magnitude - y.magnitude + 2 ^ (x.exponent - 32)
  magnitude_le_left : z.magnitude ≤ x.magnitude

theorem shiftRight_eq {wcf : WarthogCustomFloat} {e : Int} {m : Nat} (hlow : -2 ^ 30 ≤ e)
    (hhigh : e ≤ 2 ^ 30) (hpos : 2 ^ 31 ≤ m) (hlt : m < 2 ^ 33) :
    wcf.shiftRight e m =
      if m < 2 ^ 32 then .ok { wcf with exponent := e, mantissa := m }
      else .ok { wcf with exponent := e + 1, mantissa := m / 2 } := by
  by_cases hsmall : m < 2 ^ 32
  · rw [if_pos hsmall, shiftRight, shiftRightLoop, if_neg hsmall.not_ge]
    exact setAssert_eq (by omega) (by omega) (by omega) hsmall
  · rw [if_neg hsmall, shiftRight, shiftRightLoop, if_pos (not_lt.mp hsmall), shiftRightLoop,
      if_neg (by omega)]
    exact setAssert_eq (by omega) (by omega) (by omega) (by omega)

/-- An operand that is moved to a higher exponent. -/
theorem operand_bounds {d : Nat} (hd : x.exponent = y.exponent + d) :
    scaled 32 (y.mantissa / 2 ^ d) x.exponent ≤ y.magnitude ∧
      y.magnitude < scaled 32 (y.mantissa / 2 ^ d) x.exponent + 2 ^ (x.exponent - 32) := by
  rw [hd]
  exact scaled_div d

theorem distance_eq (hx : x.Wide) (hy : y.Wide) {d : Nat} (hd : y.exponent + d = x.exponent) :
    toInt32 (x.exponent - y.exponent) = d := by
  have hx4 := hx.exponent_lt
  have hy3 := hy.lt_exponent
  rw [toInt32_eq (by omega) (by omega)]
  omega

/-- A number that is too low for the distance of the exponents is left out. -/
theorem addOrdered_far (hx : x.Wide) (hy : y.Wide) {d : Nat} (hd : y.exponent + d = x.exponent)
    (hfar : 64 ≤ d) : addOrdered x y = .ok x := by
  simp only [addOrdered, distance_eq hx hy hd]
  rw [if_pos (by exact_mod_cast hfar)]

/-- A mantissa that may have carried into a bit of its own. -/
def carried (e : Int) (m : Nat) (isPositive : Bool) : WarthogCustomFloat :=
  if m < 2 ^ 32 then ⟨e, m, isPositive⟩ else ⟨e + 1, m / 2, isPositive⟩

/-- Numbers of one sign are added at the higher exponent. -/
theorem addOrdered_same (hx : x.Wide) (hy : y.Wide) {d : Nat} (hd : y.exponent + d = x.exponent)
    (hnear : d < 64) (hsign : x.isPositive = y.isPositive) :
    addOrdered x y =
      .ok (carried x.exponent (x.mantissa + y.mantissa / 2 ^ d) x.isPositive) := by
  have hx1 := hx.normalised.two_pow_le
  have hx2 := hx.normalised.lt_two_pow
  have hx3 := hx.lt_exponent
  have hx4 := hx.exponent_lt
  have hy2 := hy.normalised.lt_two_pow
  have hcount : ((d : Int) % 64).toNat = d := by omega
  have hsmall : y.mantissa / 2 ^ d ≤ y.mantissa := Nat.div_le_self _ _
  simp only [addOrdered, distance_eq hx hy hd, if_pos hsign, hcount, Nat.shiftRight_eq_div_pow]
  generalize y.mantissa / 2 ^ d = operand at hsmall
  rw [if_neg (by omega), Nat.mod_eq_of_lt (by omega),
    shiftRight_eq (by omega) (by omega) (by omega) (by omega), carried]
  split <;> rfl

theorem addOrdered_isSum (hx : x.Normal) (hy : y.Normal) (hle : y.exponent ≤ x.exponent)
    (hsign : x.isPositive = y.isPositive) : ∃ z, addOrdered x y = .ok z ∧ IsSum x y z := by
  obtain ⟨d, hd⟩ := Int.le.dest hle
  rcases Nat.lt_or_ge d 64 with hnear | hfar
  · have hx1 := hx.normalised.two_pow_le
    have hx2 := hx.normalised.lt_two_pow
    have hy2 := hy.normalised.lt_two_pow
    have hoperand := (operand_bounds hd.symm).1
    have hsmall : y.mantissa / 2 ^ d ≤ y.mantissa := Nat.div_le_self _ _
    refine ⟨_, addOrdered_same hx.wide hy.wide hd hnear hsign, ?_⟩
    generalize y.mantissa / 2 ^ d = operand at hoperand hsmall
    have htotal : scaled 32 (x.mantissa + operand) x.exponent ≤ x.magnitude + y.magnitude := by
      rw [scaled_add]
      exact add_le_add_right hoperand _
    rw [carried]
    split
    · exact ⟨⟨by dsimp only; omega, by assumption⟩, rfl, ⟨le_refl _, hle⟩,
        .inl (by dsimp only; omega), htotal⟩
    · refine ⟨⟨by dsimp only; omega, by dsimp only; omega⟩, rfl,
        ⟨by dsimp only; omega, by dsimp only; omega⟩, .inl (le_refl _), ?_⟩
      exact (scaled_div 1).1.trans htotal
  · exact ⟨x, addOrdered_far hx.wide hy.wide hd hfar, hx.normalised, rfl, ⟨le_refl _, hle⟩,
      .inl (by omega), le_add_of_nonneg_right hy.magnitude_pos.le⟩

theorem IsSum.symm (h : IsSum y x z) (hsign : x.isPositive = y.isPositive) : IsSum x y z :=
  ⟨h.normalised, h.isPositive.trans hsign.symm, h.le_exponent.symm, h.exponent_le.symm,
    h.magnitude_le.trans_eq (add_comm _ _)⟩

theorem add_isSum (hx : x.Normal) (hy : y.Normal) (hsign : x.isPositive = y.isPositive) :
    ∃ z, add x y = .ok z ∧ IsSum x y z := by
  rw [add, if_neg hx.normalised.pos.ne', if_neg hy.normalised.pos.ne']
  split
  · rename_i hlt
    obtain ⟨z, hz, hsum⟩ := addOrdered_isSum hy hx hlt.le hsign.symm
    exact ⟨z, hz, hsum.symm hsign⟩
  · rename_i hle
    exact addOrdered_isSum hx hy (not_lt.mp hle) hsign

/-- A difference is shifted back to its leading bit. -/
theorem addOrdered_lower (hx : x.Wide) (hy : y.Wide) {d : Nat} (hd : y.exponent + d = x.exponent)
    (hnear : d < 64) (hsign : x.isPositive ≠ y.isPositive)
    (hlt : y.mantissa / 2 ^ d < x.mantissa) :
    ∃ z, addOrdered x y = .ok z ∧ Normalised 32 z.mantissa ∧ z.isPositive = x.isPositive ∧
      x.exponent - 31 ≤ z.exponent ∧ z.exponent ≤ x.exponent ∧
      z.magnitude = scaled 32 (x.mantissa - y.mantissa / 2 ^ d) x.exponent := by
  have hx2 := hx.normalised.lt_two_pow
  have hx3 := hx.lt_exponent
  have hx4 := hx.exponent_lt
  have hcount : ((d : Int) % 64).toNat = d := by omega
  simp only [addOrdered, distance_eq hx hy hd, if_neg hsign, hcount, Nat.shiftRight_eq_div_pow]
  generalize y.mantissa / 2 ^ d = operand at hlt
  rw [if_neg (by omega), if_neg hlt.ne, if_neg hlt.not_gt]
  obtain ⟨shift, hshift, hn, hz⟩ := shiftLeft_eq x (e := x.exponent)
    (m := x.mantissa - operand) (by omega) (by omega) (by omega) (by omega)
  exact ⟨_, hz, hn, rfl, by dsimp only; omega, by dsimp only; omega, scaled_shift shift⟩

/-- The second operand is the higher one only at the same exponent. -/
theorem addOrdered_higher (hx : x.Wide) (hy : y.Wide) {d : Nat} (hd : y.exponent + d = x.exponent)
    (hsign : x.isPositive ≠ y.isPositive) (hlt : x.mantissa < y.mantissa / 2 ^ d) :
    ∃ z, addOrdered x y = .ok z ∧ Normalised 32 z.mantissa ∧ z.isPositive = y.isPositive ∧
      z.magnitude = scaled 32 (y.mantissa / 2 ^ d - x.mantissa) x.exponent := by
  have hx1 := hx.normalised.two_pow_le
  have hx3 := hx.lt_exponent
  have hx4 := hx.exponent_lt
  have hy2 := hy.normalised.lt_two_pow
  obtain rfl : d = 0 := by
    by_contra hne
    have hhalf : y.mantissa / 2 ^ d ≤ y.mantissa / 2 ^ 1 :=
      Nat.div_le_div_left (Nat.pow_le_pow_right (by decide) (by omega)) (by decide)
    omega
  rw [Nat.cast_zero, add_zero] at hd
  rw [pow_zero, Nat.div_one] at hlt ⊢
  have hdistance : toInt32 (x.exponent - y.exponent) = 0 := by
    rw [hd, sub_self]
    rfl
  simp only [addOrdered, hdistance, if_neg hsign, Int.zero_emod, Int.toNat_zero,
    Nat.shiftRight_zero]
  rw [if_neg (by decide), if_neg hlt.ne', if_pos hlt, hd]
  obtain ⟨shift, -, hn, hz⟩ := shiftLeft_eq { x with isPositive := y.isPositive }
    (e := x.exponent) (m := y.mantissa - x.mantissa) (by omega) (by omega) (by omega) (by omega)
  exact ⟨_, hz, hn, rfl, scaled_shift shift⟩

theorem addOrdered_cancelled (hx : x.Wide) (hy : y.Wide) {d : Nat}
    (hd : y.exponent + d = x.exponent) (hnear : d < 64) (hsign : x.isPositive ≠ y.isPositive)
    (heq : y.mantissa / 2 ^ d = x.mantissa) :
    addOrdered x y = .ok { x with mantissa := 0 } := by
  have hcount : ((d : Int) % 64).toNat = d := by omega
  simp only [addOrdered, distance_eq hx hy hd, if_neg hsign, hcount, Nat.shiftRight_eq_div_pow]
  rw [if_neg (by omega), if_pos heq]

theorem add_isDifference (hx : x.Normal) (hy : y.Normal) (hsign : x.isPositive ≠ y.isPositive)
    (hlt : y.magnitude < x.magnitude) : ∃ z, add x y = .ok z ∧ IsDifference x y z := by
  have hle : y.exponent ≤ x.exponent := by
    rcases (hy.normalised.scaled_lt_iff hx.normalised).mp hlt with h | ⟨h, -⟩
    · exact h.le
    · exact h.le
  obtain ⟨d, hd⟩ := Int.le.dest hle
  rw [add, if_neg hx.normalised.pos.ne', if_neg hy.normalised.pos.ne', if_neg hle.not_gt]
  rcases Nat.lt_or_ge d 64 with hnear | hfar
  · obtain ⟨hoperand, hoperand'⟩ := operand_bounds hd.symm
    have hsmall : y.mantissa / 2 ^ d < x.mantissa :=
      scaled_lt_scaled_iff.mp (hoperand.trans_lt hlt)
    obtain ⟨z, hz, hn, hpositive, hlow, hhigh, hexact⟩ :=
      addOrdered_lower hx.wide hy.wide hd hnear hsign hsmall
    have hrest : x.magnitude = z.magnitude + scaled 32 (y.mantissa / 2 ^ d) x.exponent := by
      rw [hexact, ← scaled_add, Nat.sub_add_cancel hsmall.le]
      rfl
    have hcut : 0 ≤ scaled 32 (y.mantissa / 2 ^ d) x.exponent := scaled_nonneg
    exact ⟨z, hz, hn, hpositive, hlow, hhigh, by linarith, by linarith, by linarith⟩
  · have hpow : (2 : Rat) ^ y.exponent ≤ 2 ^ (x.exponent - 32) :=
      zpow_le_zpow_right₀ one_le_two (by omega)
    have hfarther : y.magnitude < 2 ^ (x.exponent - 32) :=
      (scaled_lt_two_pow hy.normalised.lt_two_pow).trans_le hpow
    have hpos := hy.magnitude_pos
    exact ⟨x, addOrdered_far hx.wide hy.wide hd hfar, hx.normalised, rfl, by omega, le_refl _,
      by linarith, by linarith, le_refl _⟩

end Add

end HashStorm.Warthog.WarthogCustomFloat
