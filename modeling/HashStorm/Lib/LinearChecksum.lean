import HashStorm.Lib.Regroup
import Mathlib.Data.Nat.Bitwise

/-!
# Checksums linear in exclusive or

A checksum is a number of symbols through which a text of symbols is fed. A step is
linear in exclusive or, and on a number whose first symbol is zero it only moves the
number up by one symbol. So what the last symbols do to the checksum does not depend
on what was fed before, and for every text there is exactly one tail of full length
that leads to a given residue.
-/

namespace HashStorm.LinearChecksum

open Regroup

/-- A checksum of a number of symbols, each of a width in bits. -/
structure Code where
  width : Nat
  symbols : Nat
  width_pos : 0 < width
  symbols_pos : 0 < symbols
  step : Nat → Nat
  step_xor : ∀ a b, step (a ^^^ b) = step a ^^^ step b
  step_lt : ∀ a, step a < 2 ^ (width * symbols)
  step_of_lt : ∀ a < 2 ^ (width * (symbols - 1)), step a = a * 2 ^ width

/-- Where no bit is added twice, addition is exclusive or. -/
theorem two_pow_mul_add_eq_xor {i b : Nat} (hb : b < 2 ^ i) (a : Nat) :
    2 ^ i * a + b = 2 ^ i * a ^^^ b := by
  apply Nat.eq_of_testBit_eq
  intro j
  rw [Nat.testBit_xor, Nat.testBit_two_pow_mul_add a hb, Nat.testBit_two_pow_mul]
  by_cases hj : j < i
  · simp [hj, Nat.not_le.mpr hj]
  · have hle : i ≤ j := Nat.not_lt.mp hj
    have hbit : b.testBit j = false :=
      Nat.testBit_lt_two_pow (hb.trans_le (Nat.pow_le_pow_right (by omega) hle))
    simp [hj, hle, hbit]

namespace Code

variable {code : Code} {vs : List Nat} {s residue : Nat}

/-- How many values a symbol has. -/
def base (code : Code) : Nat := 2 ^ code.width

/-- The checksum after the symbols. -/
def feed (code : Code) (s : Nat) (vs : List Nat) : Nat := vs.foldl (fun s v => code.step s ^^^ v) s

/-- The tail that leads from the checksum to the residue. -/
def tail (code : Code) (s residue : Nat) : List Nat :=
  digits code.base code.symbols (code.feed s (List.replicate code.symbols 0) ^^^ residue)

theorem one_lt_base (code : Code) : 1 < code.base :=
  Nat.one_lt_pow code.width_pos.ne' (by omega)

theorem base_pow (code : Code) (n : Nat) : code.base ^ n = 2 ^ (code.width * n) :=
  (Nat.pow_mul _ _ _).symm

@[simp] theorem feed_nil (code : Code) (s : Nat) : code.feed s [] = s := rfl

@[simp] theorem feed_cons (code : Code) (s v : Nat) (vs : List Nat) :
    code.feed s (v :: vs) = code.feed (code.step s ^^^ v) vs := rfl

@[simp] theorem feed_append (code : Code) (s : Nat) (vs ws : List Nat) :
    code.feed s (vs ++ ws) = code.feed (code.feed s vs) ws := List.foldl_append

/-- What symbols do to a checksum is what they do to zero, and what zeros do to it. -/
theorem feed_xor (code : Code) (s t : Nat) (vs : List Nat) :
    code.feed (s ^^^ t) vs = code.feed s vs ^^^ code.feed t (List.replicate vs.length 0) := by
  induction vs generalizing s t with
  | nil => rfl
  | cons v vs ih =>
    have hstep : code.step (s ^^^ t) ^^^ v = (code.step s ^^^ v) ^^^ code.step t := by
      rw [code.step_xor, Nat.xor_assoc, Nat.xor_comm _ v, ← Nat.xor_assoc]
    rw [feed_cons, hstep, ih, feed_cons, List.length_cons, List.replicate_succ, feed_cons,
      Nat.xor_zero]

theorem feed_lt (hs : s < code.base ^ code.symbols) (hvs : ∀ v ∈ vs, v < code.base) :
    code.feed s vs < code.base ^ code.symbols := by
  induction vs generalizing s with
  | nil => exact hs
  | cons v vs ih =>
    simp only [List.forall_mem_cons] at hvs
    refine ih ?_ hvs.2
    have hv : v < code.base ^ code.symbols :=
      hvs.1.trans_le (Nat.le_self_pow code.symbols_pos.ne' _)
    rw [base_pow] at hv ⊢
    exact Nat.xor_lt_two_pow (code.step_lt s) hv

/-- From zero, as many symbols as the checksum has are the checksum. -/
theorem feed_zero (code : Code) (hvs : ∀ v ∈ vs, v < code.base)
    (hlen : vs.length ≤ code.symbols) : code.feed 0 vs = value code.base vs := by
  induction vs using List.reverseRecOn with
  | nil => rfl
  | append_singleton vs v ih =>
    simp only [List.forall_mem_append, List.forall_mem_singleton] at hvs
    simp only [List.length_append, List.length_singleton] at hlen
    have hlt : value code.base vs < 2 ^ (code.width * (code.symbols - 1)) := by
      rw [← base_pow]
      exact (value_lt code.one_lt_base hvs.1).trans_le
        (Nat.pow_le_pow_right (by have := code.one_lt_base; omega) (by omega))
    have hv : v < 2 ^ code.width := hvs.2
    rw [feed_append, ih hvs.1 (by omega), feed_cons, feed_nil, code.step_of_lt _ hlt,
      value_concat, base, Nat.mul_comm, two_pow_mul_add_eq_xor hv]

/-- One tail of full length leads from a checksum to a residue. -/
theorem feed_eq_iff (hs : s < code.base ^ code.symbols) (hvs : ∀ v ∈ vs, v < code.base)
    (hlen : vs.length = code.symbols) (hresidue : residue < code.base ^ code.symbols) :
    code.feed s vs = residue ↔ vs = code.tail s residue := by
  have hzeros : code.feed s (List.replicate code.symbols 0) < code.base ^ code.symbols := by
    refine feed_lt hs fun v hv => ?_
    rw [List.eq_of_mem_replicate hv]
    exact Nat.zero_lt_of_lt code.one_lt_base
  have hfeed : code.feed s vs =
      value code.base vs ^^^ code.feed s (List.replicate code.symbols 0) := by
    rw [← Nat.zero_xor s, feed_xor, feed_zero code hvs hlen.le, hlen, Nat.zero_xor]
  have htail : code.feed s (List.replicate code.symbols 0) ^^^ residue <
      code.base ^ code.symbols := by
    rw [base_pow] at *
    exact Nat.xor_lt_two_pow hzeros hresidue
  rw [hfeed, tail, eq_digits_iff code.one_lt_base hvs hlen htail]
  constructor
  · intro h
    rw [← h, Nat.xor_comm, Nat.xor_xor_cancel_right]
  · intro h
    rw [h, Nat.xor_comm, Nat.xor_xor_cancel_left]

@[simp] theorem length_tail (code : Code) (s residue : Nat) :
    (code.tail s residue).length = code.symbols := length_digits _ _ _

theorem lt_of_mem_tail (code : Code) (s residue : Nat) :
    ∀ v ∈ code.tail s residue, v < code.base := lt_of_mem_digits code.one_lt_base

end Code

/-- The exclusive or of the generators that a number selects, one by each bit. -/
def reduce : List Nat → Nat → Nat
  | [], _ => 0
  | g :: gs, n => (if n % 2 = 1 then g else 0) ^^^ reduce gs (n / 2)

@[simp] theorem reduce_zero (gs : List Nat) : reduce gs 0 = 0 := by
  induction gs with
  | nil => rfl
  | cons g gs ih => simp [reduce, ih]

theorem reduce_xor (gs : List Nat) (m n : Nat) :
    reduce gs (m ^^^ n) = reduce gs m ^^^ reduce gs n := by
  induction gs generalizing m n with
  | nil => simp [reduce]
  | cons g gs ih =>
    have hbit : (if (m ^^^ n) % 2 = 1 then g else 0) =
        (if m % 2 = 1 then g else 0) ^^^ (if n % 2 = 1 then g else 0) := by
      simp only [Nat.xor_mod_two_eq_one]
      by_cases hm : m % 2 = 1 <;> by_cases hn : n % 2 = 1 <;> simp [hm, hn]
    simp only [reduce, hbit, Nat.xor_div_two, ih]
    ac_rfl

theorem reduce_lt {gs : List Nat} {bound : Nat} (h : ∀ g ∈ gs, g < 2 ^ bound) (n : Nat) :
    reduce gs n < 2 ^ bound := by
  induction gs generalizing n with
  | nil => exact Nat.two_pow_pos bound
  | cons g gs ih =>
    simp only [List.forall_mem_cons] at h
    refine Nat.xor_lt_two_pow ?_ (ih h.2 _)
    split
    · exact h.1
    · exact Nat.two_pow_pos bound

/-- The remainder of a polynomial: a step moves the number up by one symbol, and the bits of
the symbol that falls off select what is taken from the rest. -/
def ofGenerators (width symbols : Nat) (generators : List Nat) (hwidth : 0 < width)
    (hsymbols : 0 < symbols) (h : ∀ g ∈ generators, g < 2 ^ (width * symbols)) : Code where
  width := width
  symbols := symbols
  width_pos := hwidth
  symbols_pos := hsymbols
  step a := a % 2 ^ (width * (symbols - 1)) * 2 ^ width ^^^
    reduce generators (a / 2 ^ (width * (symbols - 1)))
  step_xor a b := by
    simp only [Nat.xor_mod_two_pow, Nat.xor_div_two_pow, reduce_xor, ← Nat.shiftLeft_eq,
      Nat.shiftLeft_xor_distrib]
    ac_rfl
  step_lt a := by
    refine Nat.xor_lt_two_pow ?_ (reduce_lt h _)
    have hsplit : width * symbols = width * (symbols - 1) + width := by
      rw [← Nat.mul_succ, Nat.succ_eq_add_one, Nat.sub_add_cancel hsymbols]
    rw [hsplit, Nat.pow_add]
    exact Nat.mul_lt_mul_of_pos_right (Nat.mod_lt _ (Nat.two_pow_pos _)) (Nat.two_pow_pos _)
  step_of_lt a ha := by
    rw [Nat.mod_eq_of_lt ha, Nat.div_eq_of_lt ha, reduce_zero, Nat.xor_zero]

end HashStorm.LinearChecksum
