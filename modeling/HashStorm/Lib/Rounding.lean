import Mathlib.Data.Rat.Floor

/-!
# Rounding to decimal places

Rounding to the nearest number of a given number of decimal places; a number in
the middle goes to the even neighbour. When an amount is shared out and each share
is rounded on its own, the rounded shares make up the amount exactly if the
fractions of the shares make up as many units as there are shares that are rounded
up.
-/

namespace HashStorm.Rounding

/-- Round to the nearest integer, half to even. -/
def roundHalfEven (x : Rat) : Int :=
  if x - ⌊x⌋ < 1 / 2 ∨ x - ⌊x⌋ = 1 / 2 ∧ ⌊x⌋ % 2 = 0 then ⌊x⌋ else ⌊x⌋ + 1

/-- Round to a number of decimal places, half to even. -/
def roundTo (places : Nat) (x : Rat) : Rat := roundHalfEven (x * 10 ^ places) / 10 ^ places

theorem roundHalfEven_intCast (n : Int) : roundHalfEven n = n := by
  simp [roundHalfEven]

/-- Rounding keeps exactly the numbers with that many decimal places. -/
theorem roundTo_eq_self_iff {places : Nat} {x : Rat} :
    roundTo places x = x ↔ ∃ n : Int, x * 10 ^ places = n := by
  have hpow : (10 : Rat) ^ places ≠ 0 := pow_ne_zero _ (by norm_num)
  rw [roundTo, div_eq_iff hpow]
  constructor
  · intro h
    exact ⟨_, h.symm⟩
  · rintro ⟨n, hn⟩
    rw [hn, roundHalfEven_intCast]

/-- Whether a number is rounded up. -/
def RoundsUp (x : Rat) : Prop := 1 / 2 < Int.fract x ∨ Int.fract x = 1 / 2 ∧ ⌊x⌋ % 2 = 1

instance (x : Rat) : Decidable (RoundsUp x) := by
  unfold RoundsUp
  infer_instance

/-- The part in front of the decimal point. -/
def truncate (x : Rat) : Int := if 0 ≤ x then ⌊x⌋ else ⌈x⌉

/-- The fraction that is lost when a whole number and another number are added and the sum is
truncated. -/
def lostFraction (n : Int) (x : Rat) : Rat :=
  if 0 ≤ n + x then Int.fract x else -Int.fract (-x)

section Shares

variable {x y : Rat} {n m : Int}

theorem roundsUp_iff :
    RoundsUp x ↔ ¬(x - ⌊x⌋ < 1 / 2 ∨ x - ⌊x⌋ = 1 / 2 ∧ ⌊x⌋ % 2 = 0) := by
  have hparity := Int.emod_two_eq_zero_or_one ⌊x⌋
  rw [RoundsUp, Int.fract]
  rcases lt_trichotomy (x - ⌊x⌋) (1 / 2) with hlt | heq | hgt
  · exact iff_of_false (by rintro (h | ⟨h, -⟩) <;> linarith) fun h => h (Or.inl hlt)
  · rw [heq]
    have : ¬(1 / 2 : Rat) < 1 / 2 := lt_irrefl _
    simp only [this, true_and, false_or]
    omega
  · exact iff_of_true (Or.inl hgt) (by rintro (h | ⟨h, -⟩) <;> linarith)

theorem roundHalfEven_eq_floor (x : Rat) :
    roundHalfEven x = ⌊x⌋ + if RoundsUp x then 1 else 0 := by
  rw [roundHalfEven]
  by_cases hup : RoundsUp x
  · rw [if_pos hup, if_neg (roundsUp_iff.mp hup)]
  · rw [if_neg hup, if_pos (not_not.mp (mt roundsUp_iff.mpr hup)), add_zero]

theorem roundHalfEven_eq (x : Rat) :
    (roundHalfEven x : Rat) = x - Int.fract x + if RoundsUp x then 1 else 0 := by
  rw [roundHalfEven_eq_floor, Int.self_sub_fract]
  split <;> simp

theorem sum_roundHalfEven (xs : List Rat) :
    (((xs.map roundHalfEven).sum : Int) : Rat) =
      xs.sum - (xs.map Int.fract).sum + xs.countP fun x => RoundsUp x := by
  induction xs with
  | nil => simp
  | cons x xs ih =>
    rw [List.map_cons, List.sum_cons, Int.cast_add, ih, roundHalfEven_eq, List.countP_cons,
      List.sum_cons, List.map_cons, List.sum_cons]
    by_cases hup : RoundsUp x
    · simp only [hup, if_true, decide_true]
      push_cast
      ring
    · simp only [hup, if_false, decide_false]
      push_cast
      ring

theorem truncate_intCast (n : Int) : truncate n = n := by simp [truncate]

theorem truncate_intCast_add (n : Int) (x : Rat) :
    (truncate (n + x) : Rat) = n + x - lostFraction n x := by
  rw [truncate, lostFraction]
  split
  · rw [Int.floor_intCast_add, Int.cast_add, add_sub_assoc, Int.self_sub_fract]
  · rw [Int.ceil_intCast_add, Int.cast_add, Int.fract, Int.floor_neg]
    push_cast
    ring

/-- **When rounded shares make up their amount.** The first share is paid with an extra amount
and truncated. -/
theorem sum_rounded_shares_eq_iff (share : Rat) (shares : List Rat) (extra : Rat) :
    ((truncate (roundHalfEven share + extra) + (shares.map roundHalfEven).sum : Int) : Rat) =
        share + shares.sum + extra ↔
      ((share :: shares).map Int.fract).sum + lostFraction (roundHalfEven share) extra =
        (share :: shares).countP fun x => RoundsUp x := by
  have hsum := sum_roundHalfEven (share :: shares)
  rw [List.map_cons, List.sum_cons, Int.cast_add, List.sum_cons] at hsum
  rw [Int.cast_add, truncate_intCast_add]
  constructor <;> intro h <;> linarith

/-- Two shares of a whole amount are rounded to another amount if the amount is odd and both
lie in the middle. -/
theorem roundHalfEven_add_eq_iff (h : x + y = n) :
    roundHalfEven x + roundHalfEven y = n ↔ ¬(Int.fract x = 1 / 2 ∧ n % 2 = 1) := by
  obtain rfl : y = n + -x := by linarith
  have hparity := Int.emod_two_eq_zero_or_one ⌊x⌋
  have hfloor : ⌊n + -x⌋ = n - ⌈x⌉ := by
    rw [Int.floor_intCast_add, Int.floor_neg, sub_eq_add_neg]
  have hfract : Int.fract (n + -x) = Int.fract (-x) := Int.fract_intCast_add n (-x)
  by_cases hwhole : Int.fract x = 0
  · obtain ⟨m, rfl⟩ := Int.fract_eq_zero_iff.mp hwhole
    have hrest : (n : Rat) + -m = (n - m : Int) := by
      push_cast
      ring
    rw [hrest, roundHalfEven_intCast, roundHalfEven_intCast, hwhole]
    norm_num
  · have hceil : ⌈x⌉ = ⌊x⌋ + 1 := by
      have := Int.ceil_eq_add_one_sub_fract hwhole
      rw [add_sub_right_comm, Int.self_sub_fract] at this
      exact_mod_cast this
    rw [Int.fract_neg hwhole] at hfract
    rw [roundHalfEven_eq_floor, roundHalfEven_eq_floor, hfloor, hceil]
    rcases lt_trichotomy (Int.fract x) (1 / 2) with hlt | heq | hgt
    · have hdown : ¬RoundsUp x := by rintro (h | ⟨h, -⟩) <;> linarith
      have hup : RoundsUp (n + -x) := Or.inl (by rw [hfract]; linarith)
      rw [if_neg hdown, if_pos hup]
      exact iff_of_true (by omega) fun h => hlt.ne h.1
    · have hup : RoundsUp x ↔ ⌊x⌋ % 2 = 1 := by simp [RoundsUp, heq]
      have hup' : RoundsUp (n + -x) ↔ (n - (⌊x⌋ + 1)) % 2 = 1 := by
        rw [RoundsUp, hfract, hfloor, hceil, heq]
        norm_num
      simp only [hup, hup', heq, true_and]
      split <;> split <;> omega
    · have hup : RoundsUp x := Or.inl hgt
      have hdown : ¬RoundsUp (n + -x) := by rintro (h | ⟨h, -⟩) <;> linarith
      rw [if_pos hup, if_neg hdown]
      exact iff_of_true (by omega) fun h => hgt.ne' h.1

end Shares

end HashStorm.Rounding
