import Mathlib.Data.List.Basic
import Mathlib.Tactic.Ring

/-!
# Little-endian words

Fixed-width little-endian byte strings and the natural numbers they denote.
Writing reduces modulo the width; reading back is exact on every value that
fits, and two values of one width are equal as soon as their bytes are.
-/

namespace HashStorm.LittleEndian

/-- The `width` low base-256 digits of `n`, least significant first. -/
def leBytes : Nat → Nat → List UInt8
  | 0, _ => []
  | width + 1, n => UInt8.ofNat n :: leBytes width (n / 256)

/-- The number a little-endian byte string denotes. -/
def ofLE : List UInt8 → Nat
  | [] => 0
  | b :: bs => b.toNat + 256 * ofLE bs

@[simp] theorem length_leBytes (width n : Nat) : (leBytes width n).length = width := by
  induction width generalizing n with
  | zero => rfl
  | succ width ih => simp [leBytes, ih]

/-- Reading back a written word returns its value modulo the width. -/
theorem ofLE_leBytes_mod (width n : Nat) : ofLE (leBytes width n) = n % 256 ^ width := by
  induction width generalizing n with
  | zero => simp [leBytes, ofLE, Nat.mod_one]
  | succ width ih =>
    rw [leBytes, ofLE, ih, UInt8.toNat_ofNat', pow_succ' 256 width, Nat.mod_mul]

/-- A value that fits the width is read back exactly. -/
theorem ofLE_leBytes {width n : Nat} (h : n < 256 ^ width) : ofLE (leBytes width n) = n := by
  rw [ofLE_leBytes_mod, Nat.mod_eq_of_lt h]

theorem ofLE_lt (bytes : List UInt8) : ofLE bytes < 256 ^ bytes.length := by
  induction bytes with
  | nil => simp [ofLE]
  | cons b bs ih =>
    have hb := b.toNat_lt
    rw [ofLE, List.length_cons, pow_succ]
    omega

/-- The bytes behind others are the higher digits. -/
theorem ofLE_append (low high : List UInt8) :
    ofLE (low ++ high) = ofLE low + 256 ^ low.length * ofLE high := by
  induction low with
  | nil => simp [ofLE]
  | cons b low ih =>
    rw [List.cons_append, ofLE, ofLE, ih, List.length_cons, pow_succ]
    ring

/-- A word is its low digits and then those of the quotient. -/
theorem leBytes_add (low high n : Nat) :
    leBytes (low + high) n = leBytes low n ++ leBytes high (n / 256 ^ low) := by
  induction low generalizing n with
  | zero => simp [leBytes]
  | succ low ih =>
    rw [Nat.succ_add, leBytes, leBytes, ih, List.cons_append, Nat.div_div_eq_div_mul, pow_succ']

theorem leBytes_zero (width : Nat) : leBytes width 0 = List.replicate width 0 := by
  induction width with
  | zero => rfl
  | succ width ih => rw [leBytes, Nat.zero_div, ih, List.replicate_succ]; rfl

theorem ofLE_eq_zero_iff {bytes : List UInt8} : ofLE bytes = 0 ↔ ∀ b ∈ bytes, b = 0 := by
  induction bytes with
  | nil => simp [ofLE]
  | cons b bytes ih =>
    rw [ofLE, List.forall_mem_cons, ← ih, ← UInt8.toNat_inj, UInt8.toNat_zero]
    omega

/-- Any bytes are the word of the number they denote. -/
theorem leBytes_ofLE (bytes : List UInt8) : leBytes bytes.length (ofLE bytes) = bytes := by
  induction bytes with
  | nil => rfl
  | cons b bs ih =>
    have hb := b.toNat_lt
    have hhead : UInt8.ofNat (b.toNat + 256 * ofLE bs) = b := by
      apply UInt8.toNat.inj
      rw [UInt8.toNat_ofNat']
      omega
    have htail : (b.toNat + 256 * ofLE bs) / 256 = ofLE bs := by omega
    rw [List.length_cons, ofLE, leBytes, hhead, htail, ih]

/-- Two values that fit are equal when they are written as the same bytes. -/
theorem leBytes_inj {width m n : Nat} (hm : m < 256 ^ width) (hn : n < 256 ^ width)
    (h : leBytes width m = leBytes width n) : m = n := by
  rw [← ofLE_leBytes hm, h, ofLE_leBytes hn]

end HashStorm.LittleEndian
