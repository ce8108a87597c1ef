import Mathlib.Algebra.Order.Ring.Nat
import Mathlib.Data.Nat.Log
import Mathlib.Tactic.Ring

/-!
# Numbers with a short mantissa

A compact number is a short mantissa followed by zero bytes. Rounding down to
compact numbers loses the lower bytes, so a number that is rounded down before it
is compared with a bound meets the bound also when it lies above it, as long as no
compact number lies between.
-/

namespace HashStorm.Compact

variable {mantissas limit : Nat} {target : Nat → Nat} {n bound : Nat}

/-- A mantissa, of as many as there are, followed by zero bytes. -/
def IsCompact (mantissas n : Nat) : Prop :=
  ∃ mantissa exponent, mantissa < mantissas ∧ n = mantissa * 256 ^ exponent

/-- A function rounds numbers below a limit down to the greatest compact number. -/
structure RoundsDown (mantissas limit : Nat) (target : Nat → Nat) : Prop where
  one_lt : 1 < mantissas
  compact : ∀ n < limit, IsCompact mantissas (target n)
  le : ∀ n < limit, target n ≤ n
  greatest : ∀ n < limit, ∀ c ≤ n, IsCompact mantissas c → c ≤ target n

/-- A compact number lies above a bound, up to a number. -/
def Separated (mantissas bound n : Nat) : Prop :=
  ∃ c, IsCompact mantissas c ∧ bound < c ∧ c ≤ n

theorem RoundsDown.le_iff (h : RoundsDown mantissas limit target) (hn : n < limit) :
    target n ≤ bound ↔ ¬Separated mantissas bound n := by
  constructor
  · rintro hle ⟨c, hcompact, hlt, hc⟩
    have := h.greatest n hn c hc hcompact
    omega
  · intro hnone
    by_contra hlt
    exact hnone ⟨target n, h.compact n hn, not_le.mp hlt, h.le n hn⟩

/-- Only zero is rounded down to zero. -/
theorem RoundsDown.eq_zero_iff (h : RoundsDown mantissas limit target) (hn : n < limit) :
    target n = 0 ↔ n = 0 := by
  constructor
  · intro hzero
    by_contra hne
    have hone : IsCompact mantissas 1 := ⟨1, 0, h.one_lt, rfl⟩
    have := h.greatest n hn 1 (Nat.one_le_iff_ne_zero.mpr hne) hone
    omega
  · intro hzero
    have := h.le n hn
    omega

/-- Rounding the bound, too, makes no difference. -/
theorem RoundsDown.le_target_iff (h : RoundsDown mantissas limit target) (hn : n < limit)
    (hbound : bound < limit) :
    target n ≤ target bound ↔ ¬Separated mantissas bound n := by
  rw [← h.le_iff hn]
  constructor
  · exact fun hle => hle.trans (h.le bound hbound)
  · exact fun hle => h.greatest bound hbound _ hle (h.compact n hn)

/-- Nothing separates a number from a bound that it meets. -/
theorem not_separated_of_le (hle : n ≤ bound) : ¬Separated mantissas bound n := by
  rintro ⟨c, -, hlt, hc⟩
  omega

/-- When no compact number between is as good as meeting the bound. -/
theorem not_separated_iff_le_iff :
    (¬Separated mantissas bound n ↔ n ≤ bound) ↔ n ≤ bound ∨ Separated mantissas bound n := by
  by_cases hle : n ≤ bound
  · exact iff_of_true (iff_of_true (not_separated_of_le hle) hle) (Or.inl hle)
  · rw [iff_false_right hle, not_not, or_iff_right hle]

section Rounding

/-- Round down, with a bound for the number of bytes that are dropped. -/
def roundDownWithin (mantissas : Nat) : Nat → Nat → Nat
  | 0, n => n
  | fuel + 1, n => if n < mantissas then n else 256 * roundDownWithin mantissas fuel (n / 256)

/-- Drop lower bytes until the rest is a mantissa. -/
def roundDown (mantissas n : Nat) : Nat := roundDownWithin mantissas (Nat.log2 n + 1) n

theorem isCompact_of_lt (h : n < mantissas) : IsCompact mantissas n :=
  ⟨n, 0, h, by rw [pow_zero, mul_one]⟩

theorem IsCompact.mul_byte (h : IsCompact mantissas n) : IsCompact mantissas (256 * n) := by
  obtain ⟨mantissa, exponent, hlt, rfl⟩ := h
  exact ⟨mantissa, exponent + 1, hlt, by ring⟩

theorem roundDownWithin_compact {fuel : Nat} (hfuel : n < mantissas * 256 ^ fuel) :
    IsCompact mantissas (roundDownWithin mantissas fuel n) ∧
      roundDownWithin mantissas fuel n ≤ n := by
  induction fuel generalizing n with
  | zero =>
    rw [pow_zero, mul_one] at hfuel
    exact ⟨isCompact_of_lt hfuel, le_refl n⟩
  | succ fuel ih =>
    rw [roundDownWithin]
    split
    · rename_i hlt
      exact ⟨isCompact_of_lt hlt, le_refl n⟩
    · have hrest : n / 256 < mantissas * 256 ^ fuel := by
        rw [Nat.div_lt_iff_lt_mul (by decide), mul_assoc, ← pow_succ]
        exact hfuel
      obtain ⟨hcompact, hle⟩ := ih hrest
      exact ⟨hcompact.mul_byte, (Nat.mul_le_mul_left 256 hle).trans (Nat.mul_div_le n 256)⟩

variable (hpos : 0 < mantissas) (hdvd : 256 ∣ mantissas)

include hpos hdvd in
theorem le_roundDownWithin {fuel c : Nat} (hle : c ≤ n) (hc : IsCompact mantissas c) :
    c ≤ roundDownWithin mantissas fuel n := by
  induction fuel generalizing n c with
  | zero => exact hle
  | succ fuel ih =>
    rw [roundDownWithin]
    split
    · exact hle
    · rename_i hge
      obtain ⟨mantissa, exponent, hlt, rfl⟩ := hc
      cases exponent with
      | zero =>
        -- the least mantissa that is too large is compact, and it is below the number
        have hbyte : 256 * (mantissas / 256) = mantissas := Nat.mul_div_cancel' hdvd
        have hsmaller : mantissas / 256 < mantissas := Nat.div_lt_self hpos (by decide)
        have := ih (Nat.div_le_div_right (not_lt.mp hge)) (isCompact_of_lt hsmaller)
        rw [pow_zero, mul_one]
        omega
      | succ exponent =>
        have hbyte : mantissa * 256 ^ (exponent + 1) = 256 * (mantissa * 256 ^ exponent) := by ring
        rw [hbyte] at hle ⊢
        refine Nat.mul_le_mul_left 256 (ih ?_ ⟨mantissa, exponent, hlt, rfl⟩)
        exact (Nat.le_div_iff_mul_le (by decide)).mpr (by rwa [mul_comm])

include hpos hdvd in
/-- Dropping lower bytes rounds down to the greatest compact number. -/
theorem roundDown_roundsDown (limit : Nat) : RoundsDown mantissas limit (roundDown mantissas) := by
  have hfuel : ∀ n : Nat, n < mantissas * 256 ^ (Nat.log2 n + 1) := by
    intro n
    calc n < 2 ^ (Nat.log2 n + 1) := Nat.lt_log2_self
      _ ≤ 256 ^ (Nat.log2 n + 1) := Nat.pow_le_pow_left (by decide) _
      _ ≤ mantissas * 256 ^ (Nat.log2 n + 1) := Nat.le_mul_of_pos_left _ hpos
  exact ⟨lt_of_lt_of_le (by decide) (Nat.le_of_dvd hpos hdvd),
    fun n _ => (roundDownWithin_compact (hfuel n)).1,
    fun n _ => (roundDownWithin_compact (hfuel n)).2,
    fun n _ c hle hc => le_roundDownWithin hpos hdvd hle hc⟩

end Rounding

end HashStorm.Compact
