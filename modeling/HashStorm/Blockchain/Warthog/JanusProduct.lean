import HashStorm.Blockchain.Warthog.FloatArithmetic
import Mathlib.Tactic.NormNum

/-!
# The Janus product

The product of one hash and a power of another, by a logarithm and an exponential that are
cubic polynomials. What is cut off in the floats is far less than what keeps the first
polynomial below zero on fractions and the second between one and two.
-/

namespace HashStorm.Warthog.WarthogCustomFloat

open BinaryFloat

/-- The value of a header with a power, `verusFloat * Pow(sha256TFloat, k)`. -/
def janusProduct (verusHash sha256T : List UInt8) (k : WarthogCustomFloat) :
    Except FloatFailure WarthogCustomFloat := do
  let sha256TFloat ← ofHash sha256T
  let verusFloat ← ofHash verusHash
  mul verusFloat (← pow sha256TFloat k)

theorem ok_bind {α β : Type} {x : Except FloatFailure α} {a : α} {f : α → Except FloatFailure β}
    (h : x = .ok a) : x >>= f = f a := by
  rw [h]
  rfl

section Horner

variable {x t c : WarthogCustomFloat}

/-- The product in a step of Horner's scheme. -/
theorem horner_product (hx : x.Normal) (hpositive : x.isPositive = true)
    (hlow : -2 ^ 20 ≤ x.exponent) (hhigh : x.exponent ≤ 1) (ht : t.Normal)
    (htlow : -2 ^ 26 ≤ t.exponent) (hthigh : t.exponent ≤ 2 ^ 26) :
    ∃ p, mul x t = .ok p ∧ IsProduct x t p ∧ p.Normal ∧ p.isPositive = t.isPositive := by
  obtain ⟨p, hmul, hp⟩ := mul_isProduct hx ht
  have hle := hp.le_exponent
  have hge := hp.exponent_le
  refine ⟨p, hmul, hp, ⟨hp.normalised, by omega, by omega⟩, ?_⟩
  rw [hp.isPositive, hpositive, Bool.true_beq]

/-- A step that subtracts the product from a coefficient. -/
theorem horner_difference (hx : x.Normal) (hpositive : x.isPositive = true)
    (hlow : -2 ^ 20 ≤ x.exponent) (hhigh : x.exponent ≤ 1) (ht : t.Normal)
    (htlow : -2 ^ 26 ≤ t.exponent) (hthigh : t.exponent ≤ 2 ^ 26) (hc : c.Normal)
    (hsign : c.isPositive ≠ t.isPositive) (hlt : x.magnitude * t.magnitude < c.magnitude) :
    ∃ p s, mul x t = .ok p ∧ add c p = .ok s ∧ IsProduct x t p ∧ IsDifference c p s := by
  obtain ⟨p, hmul, hp, hnormal, hpsign⟩ := horner_product hx hpositive hlow hhigh ht htlow hthigh
  obtain ⟨s, hadd, hs⟩ := add_isDifference hc hnormal (by rwa [hpsign])
    (hp.magnitude_le.trans_lt hlt)
  exact ⟨p, s, hmul, hadd, hp, hs⟩

/-- A step that adds the product to a coefficient. -/
theorem horner_sum (hx : x.Normal) (hpositive : x.isPositive = true)
    (hlow : -2 ^ 20 ≤ x.exponent) (hhigh : x.exponent ≤ 1) (ht : t.Normal)
    (htlow : -2 ^ 26 ≤ t.exponent) (hthigh : t.exponent ≤ 2 ^ 26) (hc : c.Normal)
    (hsign : c.isPositive = t.isPositive) :
    ∃ p s, mul x t = .ok p ∧ add c p = .ok s ∧ IsProduct x t p ∧ IsSum c p s := by
  obtain ⟨p, hmul, hp, hnormal, hpsign⟩ := horner_product hx hpositive hlow hhigh ht htlow hthigh
  obtain ⟨s, hadd, hs⟩ := add_isSum hc hnormal (by rw [hpsign, hsign])
  exact ⟨p, s, hmul, hadd, hp, hs⟩

end Horner

section Logarithm

variable {w x : WarthogCustomFloat}

/-- A cubic polynomial that is increasing up to one, with what is cut off in its evaluation,
stays below a bound that is a little above its value at one. -/
theorem cubic_lt {a b c g W t1 t2 t3 t4 t5 : Rat} (ha : 0 ≤ a) (hab : a ≤ b) (hb : b ≤ 5)
    (hc : 2 * b ≤ c + 2 * a) (hg : c - b + a + 9 * 2 ^ (-31 : Int) < g) (hW : 0 ≤ W) (hW1 : W ≤ 1)
    (h1 : t1 ≤ W * a) (h2 : b - t1 ≤ t2) (h3 : W * t2 * (1 - 2 ^ (-31 : Int)) ≤ t3)
    (h4 : t4 ≤ c - t3 + 2 ^ ((3 : Int) - 32)) (h5 : t5 ≤ W * t4) : t5 < g := by
  norm_num at hg h3 h4
  have hWa : 0 ≤ W * a := mul_nonneg hW ha
  obtain ⟨u, hu⟩ : ∃ u, u = b - W * a := ⟨_, rfl⟩
  have hWu : W * u ≤ W * t2 := mul_le_mul_of_nonneg_left (by linarith) hW
  have hWub : W * u ≤ b :=
    (mul_le_mul_of_nonneg_left (by linarith : u ≤ b) hW).trans
      (mul_le_of_le_one_left (by linarith) hW1)
  -- what the truncations in front of the last product add
  have ht4 : t4 ≤ c - W * u + 9 / 2147483648 := by linarith
  have hvalue : W * (c - W * u) ≤ c - b + a := by
    have hslope : 0 ≤ c - b + a + W * (a - b) + W * (W * a) := by
      have hWb : W * (b - a) ≤ b - a := mul_le_of_le_one_left (by linarith) hW1
      have hWWa : 0 ≤ W * (W * a) := mul_nonneg hW hWa
      linarith
    have hfactor := mul_nonneg (sub_nonneg.mpr hW1) hslope
    have hexpand : (1 - W) * (c - b + a + W * (a - b) + W * (W * a)) =
        c - b + a - W * (c - W * u) := by
      rw [hu]
      ring
    linarith
  have ht5 := h5.trans (mul_le_mul_of_nonneg_left ht4 hW)
  have hsmall : W * (9 / 2147483648) ≤ 9 / 2147483648 := mul_le_of_le_one_left (by norm_num) hW1
  rw [mul_add] at ht5
  linarith

/-- On a fraction, the polynomial of `Log2` is a negative number above minus four. -/
theorem log2_polynomial (hw : w.Normal) (hpositive : w.isPositive = true)
    (hexponent : w.exponent = 0) :
    ∃ t1 t2 t3 t4 t5 d, mul w ⟨1, 2872373668, true⟩ = .ok t1 ∧
      add ⟨3, 2377545675, false⟩ t1 = .ok t2 ∧ mul w t2 = .ok t3 ∧
      add ⟨3, 3384280813, true⟩ t3 = .ok t4 ∧ mul w t4 = .ok t5 ∧
      add ⟨2, 3451338727, false⟩ t5 = .ok d ∧ Normalised 32 d.mantissa ∧
      d.isPositive = false ∧ -29 ≤ d.exponent ∧ d.exponent ≤ 2 := by
  have hc0 : Normal ⟨1, 2872373668, true⟩ := ⟨⟨by decide, by decide⟩, by decide, by decide⟩
  have hc1 : Normal ⟨3, 2377545675, false⟩ := ⟨⟨by decide, by decide⟩, by decide, by decide⟩
  have hc2 : Normal ⟨3, 3384280813, true⟩ := ⟨⟨by decide, by decide⟩, by decide, by decide⟩
  have hc3 : Normal ⟨2, 3451338727, false⟩ := ⟨⟨by decide, by decide⟩, by decide, by decide⟩
  have hm0 : magnitude ⟨1, 2872373668, true⟩ = 2872373668 / 2 ^ 31 := by
    norm_num [magnitude, scaled]
  have hm1 : magnitude ⟨3, 2377545675, false⟩ = 2377545675 / 2 ^ 29 := by
    norm_num [magnitude, scaled]
  have hm2 : magnitude ⟨3, 3384280813, true⟩ = 3384280813 / 2 ^ 29 := by
    norm_num [magnitude, scaled]
  have hm3 : magnitude ⟨2, 3451338727, false⟩ = 3451338727 / 2 ^ 30 := by
    norm_num [magnitude, scaled]
  have hW := hw.magnitude_pos.le
  have hW1 : w.magnitude ≤ 1 := by
    have hlt := scaled_lt_two_pow (e := w.exponent) hw.normalised.lt_two_pow
    rw [hexponent, zpow_zero, ← hexponent] at hlt
    exact hlt.le
  have hlow : -2 ^ 20 ≤ w.exponent := by omega
  have hhigh : w.exponent ≤ 1 := by omega
  have hfirst : w.magnitude * magnitude ⟨1, 2872373668, true⟩ <
      magnitude ⟨3, 2377545675, false⟩ := by
    refine (mul_le_of_le_one_left hc0.magnitude_pos.le hW1).trans_lt ?_
    rw [hm0, hm1]
    norm_num
  obtain ⟨t1, t2, h1, h2, p1, p2⟩ := horner_difference hw hpositive hlow hhigh hc0 (by decide)
    (by decide) hc1 (by decide) hfirst
  have e2 := p2.le_exponent
  have e2' := p2.exponent_le
  dsimp only at e2 e2'
  have n2 : t2.Normal := ⟨p2.normalised, by omega, by omega⟩
  have hsecond : w.magnitude * t2.magnitude < magnitude ⟨3, 3384280813, true⟩ := by
    refine (mul_le_of_le_one_left n2.magnitude_pos.le hW1).trans_lt ?_
    refine p2.magnitude_le_left.trans_lt ?_
    rw [hm1, hm2]
    norm_num
  obtain ⟨t3, t4, h3, h4, p3, p4⟩ := horner_difference hw hpositive hlow hhigh n2 (by omega)
    (by omega) hc2 (by simp [p2.isPositive]) hsecond
  have e4 := p4.le_exponent
  have e4' := p4.exponent_le
  dsimp only at e4 e4'
  have n4 : t4.Normal := ⟨p4.normalised, by omega, by omega⟩
  have hthird : w.magnitude * t4.magnitude < magnitude ⟨2, 3451338727, false⟩ := by
    have m1 := p1.magnitude_le
    have m2 := p2.le_magnitude
    have m4 := p4.magnitude_le
    rw [hm0] at m1
    rw [hm1] at m2
    rw [hm2] at m4
    rw [hm3]
    exact cubic_lt (by norm_num) (by norm_num) (by norm_num) (by norm_num) (by norm_num) hW hW1
      m1 m2 p3.le_magnitude m4 le_rfl
  obtain ⟨t5, d, h5, h6, -, p6⟩ := horner_difference hw hpositive hlow hhigh n4 (by omega)
    (by omega) hc3 (by simp [p4.isPositive]) hthird
  exact ⟨t1, t2, t3, t4, t5, d, h1, h2, h3, h4, h5, h6, p6.normalised, p6.isPositive,
    p6.le_exponent, p6.exponent_le⟩

/-- The float of an exponent below zero. -/
theorem ofInt_neg {e : Int} (hlow : -300 ≤ e) (hneg : e < 0) :
    ∃ z, ofInt e = .ok z ∧ z.Normal ∧ z.isPositive = false ∧ z.magnitude ≤ 300 := by
  obtain ⟨n, hn⟩ := Int.eq_ofNat_of_zero_le (neg_nonneg.mpr hneg.le)
  have hpositive : (toInt32 (-e) % 2 ^ 64).toNat = n := by
    rw [toInt32_eq (by omega) (by omega), hn]
    omega
  have hsign : decide (0 ≤ e) = false := decide_eq_false hneg.not_ge
  obtain ⟨shift, hshift, hnormal, hz⟩ := shiftLeft_eq { zero with isPositive := false } (e := 32)
    (m := n) (by omega) (by omega) (by omega) (by omega)
  refine ⟨⟨32 - shift, n * 2 ^ shift, false⟩, ?_,
    ⟨hnormal, by dsimp only; omega, by dsimp only; omega⟩, rfl, ?_⟩
  · rw [ofInt, if_neg hneg.ne]
    simp only [if_pos hneg, hpositive, hsign]
    exact hz
  · have hvalue : magnitude ⟨32 - shift, n * 2 ^ shift, false⟩ = scaled 32 n 32 :=
      scaled_shift shift
    have hcast : (n : Rat) ≤ 300 := by
      have hnat : n ≤ 300 := by omega
      exact_mod_cast hnat
    rw [hvalue, scaled]
    simpa using hcast

/-- The logarithm of a fraction that is not too small is a negative number above -512. -/
theorem log2_negative (hx : Normalised 32 x.mantissa) (hpositive : x.isPositive = true)
    (hlow : -300 ≤ x.exponent) (hhigh : x.exponent ≤ 0) :
    ∃ L, log2 x = .ok L ∧ Normalised 32 L.mantissa ∧ L.isPositive = false ∧
      -29 ≤ L.exponent ∧ L.exponent ≤ 9 := by
  obtain ⟨t1, t2, t3, t4, t5, d, h1, h2, h3, h4, h5, h6, hd, hsign, hdlow, hdhigh⟩ :=
    log2_polynomial (w := { x with exponent := 0 })
      ⟨hx, by dsimp only; omega, by dsimp only; omega⟩ hpositive rfl
  have hlog : log2 x = (ofInt x.exponent >>= fun e => add e d) := by
    rw [log2]
    simp only [ok_bind h1, ok_bind h2, ok_bind h3, ok_bind h4, ok_bind h5, ok_bind h6]
  have hdnormal : d.Normal := ⟨hd, by omega, by omega⟩
  rcases hhigh.lt_or_eq with hneg | hzero
  · obtain ⟨e, he, henormal, hesign, hevalue⟩ := ofInt_neg hlow hneg
    obtain ⟨L, hL, hsum⟩ := add_isSum henormal hdnormal (hesign.trans hsign.symm)
    refine ⟨L, by rw [hlog, ok_bind he, hL], hsum.normalised, hsum.isPositive.trans hesign,
      hdlow.trans hsum.le_exponent.2, ?_⟩
    refine hsum.normalised.exponent_le (k := 9) ?_
    have hdvalue : d.magnitude < 2 ^ (2 : Int) :=
      (scaled_lt_two_pow hd.lt_two_pow).trans_le (zpow_le_zpow_right₀ one_le_two hdhigh)
    refine hsum.magnitude_le.trans_lt ?_
    norm_num at hdvalue ⊢
    linarith
  · refine ⟨d, ?_, hd, hsign, hdlow, by omega⟩
    rw [hlog, hzero]
    rfl

end Logarithm

section Exponential

variable {x y : WarthogCustomFloat}

/-- On numbers up to one, the polynomial of `Pow2Fraction` lies between one and two. -/
theorem pow2Fraction_exponent (hy : y.Normal) (hlow : -2 ^ 20 ≤ y.exponent)
    (hpositive : y.isPositive = true) (hle : y.magnitude ≤ 1) :
    ∃ z, pow2Fraction y = .ok z ∧ Normalised 32 z.mantissa ∧ z.isPositive = true ∧
      z.exponent = 1 := by
  have hc0 : Normal ⟨-3, 3207796260, true⟩ := ⟨⟨by decide, by decide⟩, by decide, by decide⟩
  have hc1 : Normal ⟨-2, 3510493713, true⟩ := ⟨⟨by decide, by decide⟩, by decide, by decide⟩
  have hc2 : Normal ⟨0, 3014961390, true⟩ := ⟨⟨by decide, by decide⟩, by decide, by decide⟩
  have hc3 : Normal ⟨1, 2147933481, true⟩ := ⟨⟨by decide, by decide⟩, by decide, by decide⟩
  have hsum : magnitude ⟨1, 2147933481, true⟩ + (magnitude ⟨0, 3014961390, true⟩ +
      (magnitude ⟨-2, 3510493713, true⟩ + magnitude ⟨-3, 3207796260, true⟩)) < 2 := by
    norm_num [magnitude, scaled]
  have hhigh : y.exponent ≤ 1 := by
    refine hy.normalised.exponent_le (hle.trans_lt ?_)
    norm_num
  have hscale {r s : Rat} (hr : 0 ≤ r) (h : s ≤ y.magnitude * r) : s ≤ r :=
    h.trans (mul_le_of_le_one_left hr hle)
  obtain ⟨t1, t2, h1, h2, p1, p2⟩ := horner_sum hy hpositive hlow hhigh hc0 (by decide) (by decide)
    hc1 rfl
  have m1 := hscale hc0.magnitude_pos.le p1.magnitude_le
  have m2 := p2.magnitude_le
  have e1 := p1.exponent_le
  have e2 := p2.le_exponent.1
  have e2' := p2.exponent_le
  dsimp only at e1 e2 e2'
  have n2 : t2.Normal := ⟨p2.normalised, by omega, by omega⟩
  obtain ⟨t3, t4, h3, h4, p3, p4⟩ := horner_sum hy hpositive hlow hhigh n2 (by omega) (by omega) hc2
    p2.isPositive.symm
  have m3 := hscale n2.magnitude_pos.le p3.magnitude_le
  have m4 := p4.magnitude_le
  have e3 := p3.exponent_le
  have e4 := p4.le_exponent.1
  have e4' := p4.exponent_le
  dsimp only at e4 e4'
  have n4 : t4.Normal := ⟨p4.normalised, by omega, by omega⟩
  obtain ⟨t5, z, h5, h6, p5, p6⟩ := horner_sum hy hpositive hlow hhigh n4 (by omega) (by omega) hc3
    p4.isPositive.symm
  have m5 := hscale n4.magnitude_pos.le p5.magnitude_le
  have hz : z.magnitude < 2 ^ (1 : Int) := by
    have m6 := p6.magnitude_le
    norm_num
    linarith
  refine ⟨z, ?_, p6.normalised, p6.isPositive,
    le_antisymm (p6.normalised.exponent_le hz) p6.le_exponent.1⟩
  rw [pow2Fraction]
  simp only [ok_bind h1, ok_bind h2, ok_bind h3, ok_bind h4, ok_bind h5, h6]

/-- The argument that `Pow2` passes to `Pow2Fraction` for a float that is not zero. -/
def Pow2Passes (x y : WarthogCustomFloat) : Prop :=
  let frac := (x.mantissa <<< (x.exponent % 32).toNat) % 2 ^ 32
  if 0 < x.exponent then
    x.exponent ≠ 32 ∧ frac ≠ 0 ∧ (do
      let frac ← zero.shiftLeft 0 frac
      if x.isPositive then return frac else sub (← ofInt 1) frac) = .ok y
  else (if x.isPositive then .ok x else do add (← ofInt 1) x) = .ok y

/-- The float of one. -/
def one : WarthogCustomFloat := ⟨1, 0x80000000, true⟩

theorem ofInt_one : ofInt 1 = .ok one := by decide +kernel

theorem one_normal : one.Normal := ⟨⟨by decide, by decide⟩, by decide, by decide⟩

theorem magnitude_one : one.magnitude = 1 := by norm_num [one, magnitude, scaled]

/-- What is left of one is a number that `Pow2Fraction` takes. -/
theorem one_add_negative (hx : x.Normal) (hnegative : x.isPositive = false)
    (hexponent : x.exponent ≤ 0) :
    ∃ y, add one x = .ok y ∧ y.isPositive = true ∧ 0 < y.magnitude ∧ y.magnitude ≤ 1 ∧
      ∃ z, pow2Fraction y = .ok z ∧ Normalised 32 z.mantissa ∧ z.isPositive = true ∧
        z.exponent = 1 := by
  have hlt : x.magnitude < one.magnitude := by
    have hpow := scaled_lt_two_pow (e := x.exponent) hx.normalised.lt_two_pow
    rw [magnitude_one]
    exact hpow.trans_le (zpow_le_one_of_nonpos₀ one_le_two hexponent)
  obtain ⟨y, hy, hdifference⟩ := add_isDifference one_normal hx (by simp [one, hnegative]) hlt
  have hlow : 1 - 31 ≤ y.exponent := hdifference.le_exponent
  have hhigh : y.exponent ≤ 1 := hdifference.exponent_le
  have hnormal : y.Normal := ⟨hdifference.normalised, by omega, by omega⟩
  have hle : y.magnitude ≤ 1 := magnitude_one ▸ hdifference.magnitude_le_left
  exact ⟨y, hy, hdifference.isPositive, hnormal.magnitude_pos, hle,
    pow2Fraction_exponent hnormal (by omega) hdifference.isPositive hle⟩

theorem setExponent_eq {wcf : WarthogCustomFloat} {e : Int} (hlow : -2147483648 < e)
    (hhigh : e < 2147483647) : wcf.setExponent e = .ok { wcf with exponent := e } :=
  if_pos ⟨hhigh, hlow⟩

theorem ofExponent_eq {e : Int} (hlow : 0 ≤ e) (hhigh : e < 2 ^ 30) :
    ofExponent e true = .ok ⟨e + 1, 0x80000000, true⟩ := by
  rw [ofExponent, if_neg (by omega)]
  exact setExponent_eq (by omega) (by omega)

/-- A power of two is a fraction, and what is passed on for it gives the exponent one. -/
structure Pow2WellFormed (x : WarthogCustomFloat) : Prop where
  power : ∃ v, pow2 x = .ok v ∧ v.Fraction ∧ -2 ^ 10 ≤ v.exponent
  passes : ∀ y, Pow2Passes x y → y.isPositive = true ∧ 0 < y.magnitude ∧ y.magnitude ≤ 1 ∧
    ∃ z, pow2Fraction y = .ok z ∧ z.exponent = 1

theorem pow2_of_exponent_le (hx : x.Normal) (hnegative : x.isPositive = false)
    (hexponent : x.exponent ≤ 0) : Pow2WellFormed x := by
  have hsign : ¬x.isPositive = true := by simp [hnegative]
  have hpos : ¬0 < x.exponent := not_lt.mpr hexponent
  have h32 : x.exponent ≠ 32 := by omega
  obtain ⟨y, hy, hysign, hypos, hyle, z, hz, hznormal, hzsign, hzexponent⟩ :=
    one_add_negative hx hnegative hexponent
  refine ⟨⟨{ z with exponent := -z.exponent + 1 }, ?_, ⟨hzsign, hznormal, ?_⟩, ?_⟩,
    fun y' hy' => ?_⟩
  · rw [pow2]
    simp only [if_neg hx.normalised.pos.ne', if_neg h32, if_neg hpos, if_neg hsign,
      ok_bind ofInt_one]
    rw [ok_bind hy, ok_bind hz, ok_bind (setExponent_eq (by omega) (by omega))]
    exact setExponent_eq (by dsimp only; omega) (by dsimp only; omega)
  · dsimp only
    omega
  · dsimp only
    omega
  · rw [Pow2Passes] at hy'
    simp only [if_neg hpos, if_neg hsign, ok_bind ofInt_one] at hy'
    obtain rfl := Except.ok.inj (hy.symm.trans hy')
    exact ⟨hysign, hypos, hyle, z, hz, hzexponent⟩

/-- The part in front of the point of a float above one. -/
theorem whole_bounds {n : Nat} (hx : Normalised 32 x.mantissa) (hn : x.exponent = n)
    (hpos : 0 < n) (hn9 : n ≤ 9) :
    1 ≤ x.mantissa >>> ((32 - x.exponent) % 32).toNat ∧
      x.mantissa >>> ((32 - x.exponent) % 32).toNat < 2 ^ 9 := by
  have hshift : ((32 - x.exponent) % 32).toNat = 32 - n := by omega
  have hpow : 2 ^ (32 - n) ≤ 2 ^ 31 := Nat.pow_le_pow_right (by decide) (by omega)
  have hlead := hx.two_pow_le
  rw [hshift, Nat.shiftRight_eq_div_pow]
  constructor
  · rw [Nat.le_div_iff_mul_le (by positivity), one_mul]
    omega
  · rw [Nat.div_lt_iff_lt_mul (by positivity), ← pow_add]
    exact hx.lt_two_pow.trans_le (Nat.pow_le_pow_right (by decide) (by omega))

theorem pow2_of_exponent_pos (hx : x.Normal) (hnegative : x.isPositive = false)
    (hpos : 0 < x.exponent) (hhigh : x.exponent ≤ 9) : Pow2WellFormed x := by
  have hsign : ¬x.isPositive = true := by simp [hnegative]
  have h32 : x.exponent ≠ 32 := by omega
  obtain ⟨n, hn⟩ := Int.eq_ofNat_of_zero_le hpos.le
  obtain ⟨hwhole, hwhole'⟩ := whole_bounds hx.normalised hn (by omega) (by omega)
  obtain ⟨e, he⟩ : ∃ e, x.mantissa >>> ((32 - x.exponent) % 32).toNat = e := ⟨_, rfl⟩
  obtain ⟨frac, hfrac⟩ : ∃ frac, (x.mantissa <<< (x.exponent % 32).toNat) % 2 ^ 32 = frac :=
    ⟨_, rfl⟩
  rw [he] at hwhole hwhole'
  have hfraclt : frac < 2 ^ 32 := hfrac ▸ Nat.mod_lt _ (by decide)
  by_cases hnone : frac = 0
  · have hone : Normalised 32 0x80000000 := ⟨by decide, by decide⟩
    refine ⟨⟨⟨-(e + 1) + 2, 0x80000000, true⟩, ?_, ⟨rfl, hone, ?_⟩, ?_⟩, fun y hy => ?_⟩
    · rw [pow2]
      simp only [if_neg hx.normalised.pos.ne', if_neg h32, if_pos hpos, he, hfrac, if_pos hnone,
        ok_bind (ofExponent_eq (e := e) (by omega) (by omega)), if_neg hsign]
      rw [ok_bind (setExponent_eq (e := -((e : Int) + 1)) (by omega) (by omega))]
      exact setExponent_eq (by dsimp only; omega) (by dsimp only; omega)
    · dsimp only
      omega
    · dsimp only
      omega
    · rw [Pow2Passes] at hy
      simp only [if_pos hpos, hfrac] at hy
      exact absurd hnone hy.2.1
  · obtain ⟨shift, hshift, hnormal, hz⟩ := shiftLeft_eq zero (e := 0) (m := frac)
      (by omega) (by omega) (Nat.pos_of_ne_zero hnone) hfraclt
    have hz : zero.shiftLeft 0 frac = .ok ⟨0 - shift, frac * 2 ^ shift, true⟩ := hz
    obtain ⟨y, hy, hysign, hypos, hyle, z, hpow, hznormal, hzsign, hzexponent⟩ :=
      one_add_negative (x := ⟨0 - shift, frac * 2 ^ shift, false⟩)
        ⟨hnormal, by dsimp only; omega, by dsimp only; omega⟩ rfl (by dsimp only; omega)
    refine ⟨⟨{ z with exponent := -(z.exponent + (e - 1)) }, ?_, ⟨hzsign, hznormal, ?_⟩, ?_⟩,
      fun y' hy' => ?_⟩
    · rw [pow2]
      simp only [if_neg hx.normalised.pos.ne', if_neg h32, if_pos hpos, he, hfrac, if_neg hnone,
        ok_bind hz, if_neg hsign, ok_bind ofInt_one, sub, Bool.not_true]
      rw [ok_bind hy, ok_bind hpow, ok_bind (setExponent_eq (by omega) (by omega))]
      exact setExponent_eq (by dsimp only; omega) (by dsimp only; omega)
    · dsimp only
      omega
    · dsimp only
      omega
    · rw [Pow2Passes] at hy'
      simp only [if_pos hpos, hfrac, ok_bind hz, if_neg hsign, ok_bind ofInt_one, sub,
        Bool.not_true] at hy'
      obtain rfl := Except.ok.inj (hy.symm.trans hy'.2.2)
      exact ⟨hysign, hypos, hyle, z, hpow, hzexponent⟩

end Exponential

section Product

variable {verusHash sha256T : List UInt8} {k : WarthogCustomFloat}

/-- **The Janus product is well formed.** For every pair of hashes and every exponent up to one,
the product throws nothing and ends, and it is a positive number up to one with a leading bit.
What `Pow2` passes to `Pow2Fraction` lies between zero and one, and gives the exponent one. -/
theorem janusProduct_fraction (hverus : verusHash.length = 32) (hsha : sha256T.length = 32)
    (hk : k.Fraction) (hlow : -31 ≤ k.exponent) :
    (∃ v, janusProduct verusHash sha256T k = .ok v ∧ v.Fraction) ∧
      ∃ x, (do mul k (← log2 (← ofHash sha256T))) = .ok x ∧ ∀ y, Pow2Passes x y →
        y.isPositive = true ∧ 0 < y.magnitude ∧ y.magnitude ≤ 1 ∧
          ∃ z, pow2Fraction y = .ok z ∧ z.exponent = 1 := by
  obtain ⟨zeros, shift, m, hzeros, hshift, hn, -, -, hverusFloat⟩ := ofHash_eq_ok hverus
  obtain ⟨zeros', shift', m', hzeros', hshift', hn', -, -, hshaFloat⟩ := ofHash_eq_ok hsha
  have hkhigh := hk.exponent_le
  obtain ⟨L, hL, hLnormal, hLsign, hLlow, hLhigh⟩ := log2_negative
    (x := ⟨-8 * zeros' - shift', m' * 2 ^ shift', true⟩) hn' rfl (by dsimp only; omega)
    (by dsimp only; omega)
  obtain ⟨x, hx, hproduct⟩ := mul_isProduct (x := k) (y := L)
    ⟨hk.normalised, by omega, by omega⟩ ⟨hLnormal, by omega, by omega⟩
  have hxlow := hproduct.le_exponent
  have hxhigh := hproduct.exponent_le
  have hxsign := hproduct.isPositive
  rw [hk.isPositive, hLsign] at hxsign
  have hxnormal : x.Normal := ⟨hproduct.normalised, by omega, by omega⟩
  have hpow2 : Pow2WellFormed x := by
    rcases le_or_gt x.exponent 0 with hle | hpos
    · exact pow2_of_exponent_le hxnormal hxsign hle
    · exact pow2_of_exponent_pos hxnormal hxsign hpos (by omega)
  obtain ⟨v, hv, hvfraction, hvlow⟩ := hpow2.power
  have hvhigh := hvfraction.exponent_le
  obtain ⟨r, hr, hresult⟩ := mul_isProduct (x := ⟨-8 * zeros - shift, m * 2 ^ shift, true⟩)
    (y := v) ⟨hn, by dsimp only; omega, by dsimp only; omega⟩
    ⟨hvfraction.normalised, by omega, by omega⟩
  have hrhigh := hresult.exponent_le
  have hrsign := hresult.isPositive
  dsimp only at hrhigh hrsign
  rw [hvfraction.isPositive] at hrsign
  refine ⟨⟨r, ?_, hrsign, hresult.normalised, by omega⟩, x, ?_, hpow2.passes⟩
  · rw [janusProduct, ok_bind hshaFloat, ok_bind hverusFloat, pow, ok_bind hL, ok_bind hx,
      ok_bind hv, hr]
  · rw [ok_bind hshaFloat, ok_bind hL, hx]

/-- The exponent of the balanced work, seven tenths. -/
def proofOfBalancedWorkExponent : WarthogCustomFloat := ⟨0, 3006477107, true⟩

theorem janusProduct_of_zeros :
    ∃ v, janusProduct (List.replicate 32 0) (List.replicate 32 0) proofOfBalancedWorkExponent =
      .ok v ∧ v.Fraction :=
  (janusProduct_fraction (k := proofOfBalancedWorkExponent) (by decide) (by decide)
    ⟨rfl, ⟨by decide, by decide⟩, by decide⟩ (by decide)).1

end Product

end HashStorm.Warthog.WarthogCustomFloat
