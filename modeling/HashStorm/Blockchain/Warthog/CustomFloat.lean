import HashStorm.Lib.BinaryFloat
import HashStorm.Lib.LittleEndian

/-!
# Floats of balanced work

`WarthogCustomFloat` computes with mantissas of 32 bits and truncates. Its comparisons are
each coded on its own: only the strict one is an order, and the others agree with it on few
pairs.
-/

namespace HashStorm.Warthog

open BinaryFloat

/-- An `int` of a number. -/
def toInt32 (value : Int) : Int := value.bmod (2 ^ 32)

/-- A `WarthogCustomFloat`: an `int`, a `uint` and the sign. -/
structure WarthogCustomFloat where
  exponent : Int
  mantissa : Nat
  isPositive : Bool
  deriving DecidableEq, Repr

/-- What a computation throws, or that a loop of it does not end. -/
inductive FloatFailure where
  | invalidExponent (value : Int)
  | invalidMantissa (value : Nat)
  | diverges
  deriving DecidableEq, Repr

namespace WarthogCustomFloat

section Construction

/-- The setter of `Exponent`. -/
def setExponent (wcf : WarthogCustomFloat) (value : Int) :
    Except FloatFailure WarthogCustomFloat :=
  if value < 2147483647 ∧ -2147483648 < value then .ok { wcf with exponent := value }
  else .error (.invalidExponent value)

/-- `SetAssert`. -/
def setAssert (wcf : WarthogCustomFloat) (exponent : Int) (mantissa : Nat) :
    Except FloatFailure WarthogCustomFloat := do
  let wcf ← wcf.setExponent exponent
  if mantissa = 0 then return { wcf with mantissa := 0 }
  else if mantissa < 2 ^ 32 then return { wcf with mantissa := mantissa }
  else throw (.invalidMantissa mantissa)

/-- The loop of `ShiftLeft` with so many steps. -/
def shiftLeftLoop : Nat → Int → Nat → Except FloatFailure (Int × Nat)
  | 0, _, _ => .error .diverges
  | steps + 1, exponent, mantissa =>
    if mantissa < 0x80000000 then shiftLeftLoop steps (exponent - 1) (mantissa * 2 % 2 ^ 64)
    else .ok (exponent, mantissa)

/-- `ShiftLeft`; only the mantissa zero takes more than 31 shifts, and never ends. -/
def shiftLeft (wcf : WarthogCustomFloat) (exponent : Int) (mantissa : Nat) :
    Except FloatFailure WarthogCustomFloat := do
  let (exponent, mantissa) ← shiftLeftLoop 32 exponent mantissa
  wcf.setAssert exponent mantissa

/-- The loop of `ShiftRight` with so many steps. -/
def shiftRightLoop : Nat → Int → Nat → Except FloatFailure (Int × Nat)
  | 0, _, _ => .error .diverges
  | steps + 1, exponent, mantissa =>
    if 2 ^ 32 ≤ mantissa then shiftRightLoop steps (exponent + 1) (mantissa / 2)
    else .ok (exponent, mantissa)

/-- `ShiftRight`; 64 bits take at most 32 shifts. -/
def shiftRight (wcf : WarthogCustomFloat) (exponent : Int) (mantissa : Nat) :
    Except FloatFailure WarthogCustomFloat := do
  let (exponent, mantissa) ← shiftRightLoop 33 exponent mantissa
  wcf.setAssert exponent mantissa

/-- `Zero`. -/
def zero : WarthogCustomFloat := ⟨0, 0, true⟩

/-- The first four bytes, with ones behind the last. -/
def leadingBytes (hash : List UInt8) : Nat :=
  let byte (j : Nat) : Nat := (hash[j]?.getD 0xFF).toNat
  ((byte 0 * 2 ^ 8 + byte 1) * 2 ^ 8 + byte 2) * 2 ^ 8 + byte 3

/-- The float of a hash. -/
def ofHash (hash : List UInt8) : Except FloatFailure WarthogCustomFloat :=
  let zeros := (hash.takeWhile (· = 0)).length
  zero.shiftLeft (-8 * zeros) (leadingBytes (hash.dropWhile (· = 0)))

/-- The float of an `int`. -/
def ofInt (mantissa : Int) : Except FloatFailure WarthogCustomFloat :=
  if mantissa = 0 then .ok zero
  else
    let positive := if mantissa < 0 then toInt32 (-mantissa) else mantissa
    { zero with isPositive := 0 ≤ mantissa }.shiftLeft 32 (positive % 2 ^ 64).toNat

/-- The float of a power of two. -/
def ofExponent (exponent : Int) (isPositive : Bool) : Except FloatFailure WarthogCustomFloat :=
  if 2147483647 ≤ exponent ∨ exponent ≤ -2147483648 then .error (.invalidExponent exponent)
  else (⟨0, 0x80000000, isPositive⟩ : WarthogCustomFloat).setExponent (exponent + 1)

end Construction

section Shifts

variable {wcf : WarthogCustomFloat} {e : Int} {m shift steps : Nat} {hash : List UInt8}

theorem exists_shift (hpos : 0 < m) (hlt : m < 2 ^ 32) :
    ∃ shift ≤ 31, Normalised 32 (m * 2 ^ shift) := by
  have hlog : m.log2 < 32 := (Nat.log2_lt hpos.ne').mpr hlt
  have hpow : 2 ^ m.log2 * 2 ^ (31 - m.log2) = 2 ^ 31 := by
    rw [← pow_add]
    congr 1
    omega
  have hlow := Nat.mul_le_mul_right (2 ^ (31 - m.log2)) (Nat.log2_self_le hpos.ne')
  have hhigh : m * 2 ^ (31 - m.log2) < 2 ^ (m.log2 + 1) * 2 ^ (31 - m.log2) :=
    Nat.mul_lt_mul_of_pos_right Nat.lt_log2_self (by positivity)
  rw [hpow] at hlow
  rw [pow_succ, mul_right_comm, hpow] at hhigh
  exact ⟨31 - m.log2, by omega, ⟨by omega, by omega⟩⟩

/-- The loop shifts until the leading bit is set. -/
theorem shiftLeftLoop_eq (hsteps : shift < steps) (hn : Normalised 32 (m * 2 ^ shift)) :
    shiftLeftLoop steps e m = .ok (e - shift, m * 2 ^ shift) := by
  induction shift generalizing steps e m with
  | zero =>
    obtain ⟨steps, rfl⟩ := Nat.exists_eq_succ_of_ne_zero hsteps.ne'
    have hlow := hn.two_pow_le
    rw [pow_zero, mul_one] at hlow
    rw [shiftLeftLoop, if_neg (by omega), pow_zero, mul_one, Nat.cast_zero, sub_zero]
  | succ shift ih =>
    obtain ⟨steps, rfl⟩ := Nat.exists_eq_succ_of_ne_zero (Nat.ne_zero_of_lt hsteps)
    have hdouble : m * 2 ^ (shift + 1) = m * 2 * 2 ^ shift := by ring
    have hlt := hn.lt_two_pow
    rw [hdouble] at hn hlt ⊢
    have hsmall : m * 2 < 2 ^ 32 :=
      (Nat.le_mul_of_pos_right (m * 2) (by positivity)).trans_lt hlt
    rw [shiftLeftLoop, if_pos (by omega), Nat.mod_eq_of_lt (hsmall.trans (by decide)),
      ih (Nat.lt_of_succ_lt_succ hsteps) hn]
    push_cast
    rw [sub_sub, add_comm (1 : Int)]

/-- On zero the loop ends after no number of steps. -/
theorem shiftLeftLoop_zero (steps : Nat) (e : Int) :
    shiftLeftLoop steps e 0 = .error .diverges := by
  induction steps generalizing e with
  | zero => rfl
  | succ steps ih => exact ih (e - 1)

theorem setAssert_eq (hlow : -2147483648 < e) (hhigh : e < 2147483647) (hpos : 0 < m)
    (hlt : m < 2 ^ 32) :
    wcf.setAssert e m = .ok { wcf with exponent := e, mantissa := m } := by
  rw [setAssert, setExponent, if_pos ⟨hhigh, hlow⟩]
  simp only [bind, Except.bind, if_neg hpos.ne', if_pos hlt]
  rfl

/-- A mantissa that is not zero is shifted to its leading bit. -/
theorem shiftLeft_eq (wcf : WarthogCustomFloat) (hlow : -2147483600 ≤ e)
    (hhigh : e < 2147483647) (hpos : 0 < m) (hlt : m < 2 ^ 32) :
    ∃ shift ≤ 31, Normalised 32 (m * 2 ^ shift) ∧ wcf.shiftLeft e m =
      .ok { wcf with exponent := e - (shift : Nat), mantissa := m * 2 ^ shift } := by
  obtain ⟨shift, hshift, hn⟩ := exists_shift hpos hlt
  refine ⟨shift, hshift, hn, ?_⟩
  rw [shiftLeft, shiftLeftLoop_eq (Nat.lt_succ_of_le hshift) hn]
  exact setAssert_eq (by omega) (by omega) hn.pos hn.lt_two_pow

theorem leadingBytes_bounds (h : ∀ b ∈ hash.head?, b ≠ 0) :
    0 < leadingBytes hash ∧ leadingBytes hash < 2 ^ 32 := by
  have hbyte (j : Nat) : (hash[j]?.getD 0xFF).toNat < 256 := UInt8.toNat_lt _
  have hfirst : 0 < (hash[0]?.getD 0xFF).toNat := by
    cases hash with
    | nil => decide
    | cons b hash => exact Nat.pos_of_ne_zero fun hzero => h b rfl (UInt8.toNat_inj.mp hzero)
  have h0 := hbyte 0
  have h1 := hbyte 1
  have h2 := hbyte 2
  have h3 := hbyte 3
  simp only [leadingBytes]
  omega

theorem head_dropWhile_zero (hash : List UInt8) :
    ∀ b ∈ (hash.dropWhile (· = 0)).head?, b ≠ 0 := by
  intro b hb hzero
  have hhead := List.head?_dropWhile_not (· = 0) hash
  rw [hb] at hhead
  exact absurd hzero (of_decide_eq_false hhead)

theorem takeWhile_zero_length_le (hlength : hash.length = 32) :
    (hash.takeWhile (· = 0)).length ≤ 32 := by
  rw [← hlength]
  exact (List.takeWhile_prefix _).length_le

/-- The float of a hash is made of the count of its zeros and of its first bits. -/
theorem ofHash_eq_ok (hlength : hash.length = 32) :
    ∃ zeros shift m : Nat, zeros ≤ 32 ∧ shift ≤ 31 ∧ Normalised 32 (m * 2 ^ shift) ∧
      (hash.takeWhile (· = 0)).length = zeros ∧ leadingBytes (hash.dropWhile (· = 0)) = m ∧
        ofHash hash = .ok ⟨-8 * zeros - shift, m * 2 ^ shift, true⟩ := by
  obtain ⟨hpos, hlt⟩ := leadingBytes_bounds (head_dropWhile_zero hash)
  have hzeros := takeWhile_zero_length_le hlength
  obtain ⟨shift, hshift, hn, hfloat⟩ := shiftLeft_eq zero
    (e := -8 * (hash.takeWhile (· = 0)).length) (by omega) (by omega) hpos hlt
  exact ⟨_, shift, _, hzeros, hshift, hn, rfl, rfl, hfloat⟩

end Shifts

section Arithmetic

/-- The addition of floats that are not zero, of which the first has the higher exponent. -/
def addOrdered (wcf1 wcf2 : WarthogCustomFloat) : Except FloatFailure WarthogCustomFloat :=
  let distance := toInt32 (wcf1.exponent - wcf2.exponent)
  if 64 ≤ distance then .ok wcf1
  else
    let tmp := wcf1.mantissa
    let operand := wcf2.mantissa >>> (distance % 64).toNat
    if wcf1.isPositive = wcf2.isPositive then
      wcf1.shiftRight wcf1.exponent ((tmp + operand) % 2 ^ 64)
    else if operand = tmp then .ok { wcf1 with mantissa := 0 }
    else if tmp < operand then
      { wcf1 with isPositive := wcf2.isPositive }.shiftLeft wcf2.exponent (operand - tmp)
    else wcf1.shiftLeft wcf1.exponent (tmp - operand)

/-- `operator +`. -/
def add (wcf1 wcf2 : WarthogCustomFloat) : Except FloatFailure WarthogCustomFloat :=
  if wcf1.mantissa = 0 then .ok wcf2
  else if wcf2.mantissa = 0 then .ok wcf1
  else if wcf1.exponent < wcf2.exponent then addOrdered wcf2 wcf1
  else addOrdered wcf1 wcf2

/-- `operator -`. -/
def sub (wcf1 wcf2 : WarthogCustomFloat) : Except FloatFailure WarthogCustomFloat :=
  add wcf1 { wcf2 with isPositive := !wcf2.isPositive }

/-- `operator *`. -/
def mul (wcf1 wcf2 : WarthogCustomFloat) : Except FloatFailure WarthogCustomFloat :=
  if wcf1.mantissa = 0 ∨ wcf2.mantissa = 0 then .ok { wcf1 with mantissa := 0 }
  else
    let wcf3 := { wcf1 with isPositive := wcf1.isPositive == wcf2.isPositive }
    let e := toInt32 (wcf1.exponent + wcf2.exponent)
    let tmp := wcf1.mantissa * wcf2.mantissa % 2 ^ 64
    if tmp < 2 ^ 63 then wcf3.setAssert (e - 1) ((tmp * 2 % 2 ^ 64) >>> 32)
    else wcf3.setAssert e (tmp >>> 32)

/-- `Pow2Fraction`. -/
def pow2Fraction (wcf : WarthogCustomFloat) : Except FloatFailure WarthogCustomFloat := do
  let c0 := ⟨-3, 3207796260, true⟩
  let c1 := ⟨-2, 3510493713, true⟩
  let c2 := ⟨0, 3014961390, true⟩
  let c3 := ⟨1, 2147933481, true⟩
  add c3 (← mul wcf (← add c2 (← mul wcf (← add c1 (← mul wcf c0)))))

/-- `Log2`. -/
def log2 (wcf : WarthogCustomFloat) : Except FloatFailure WarthogCustomFloat := do
  let e := wcf.exponent
  let wcf1 := { wcf with exponent := 0 }
  let c0 := ⟨1, 2872373668, true⟩
  let c1 := ⟨3, 2377545675, false⟩
  let c2 := ⟨3, 3384280813, true⟩
  let c3 := ⟨2, 3451338727, false⟩
  let d ← add c3 (← mul wcf1 (← add c2 (← mul wcf1 (← add c1 (← mul wcf1 c0)))))
  add (← ofInt e) d

/-- `Pow2`. -/
def pow2 (wcf : WarthogCustomFloat) : Except FloatFailure WarthogCustomFloat := do
  let eX := wcf.exponent
  let m := wcf.mantissa
  if m = 0 then ofInt 1
  else if eX = 32 then
    if wcf.isPositive then ofExponent m true else ofExponent (-m) true
  else if 0 < eX then
    let e : Int := (m >>> ((32 - eX) % 32).toNat : Nat)
    let mFrac := (m <<< (eX % 32).toNat) % 2 ^ 32
    if mFrac = 0 then
      let wcf1 ← ofExponent e true
      if wcf.isPositive then return wcf1
      else
        let wcf1 ← wcf1.setExponent (-wcf1.exponent)
        wcf1.setExponent (wcf1.exponent + 2)
    else
      let frac ← zero.shiftLeft 0 mFrac
      if wcf.isPositive then
        let wcf1 ← pow2Fraction frac
        wcf1.setExponent (wcf1.exponent + e)
      else
        let wcf1 ← pow2Fraction (← sub (← ofInt 1) frac)
        let wcf1 ← wcf1.setExponent (wcf1.exponent + (e - 1))
        wcf1.setExponent (-wcf1.exponent)
  else if wcf.isPositive then pow2Fraction wcf
  else
    let wcf1 ← pow2Fraction (← add (← ofInt 1) wcf)
    let wcf1 ← wcf1.setExponent (-wcf1.exponent)
    wcf1.setExponent (wcf1.exponent + 1)

/-- `Pow`. -/
def pow (wcf1 wcf2 : WarthogCustomFloat) : Except FloatFailure WarthogCustomFloat := do
  pow2 (← mul wcf2 (← log2 wcf1))

end Arithmetic

section Comparison

variable (wcf1 wcf2 : WarthogCustomFloat)

/-- The exponent without its sign, as a `uint`. -/
def zeros (wcf : WarthogCustomFloat) : Nat := wcf.exponent.natAbs

/-- `operator <`. -/
def less : Bool :=
  if wcf1.zeros < wcf2.zeros then false
  else if wcf2.zeros < wcf1.zeros then true
  else wcf1.mantissa < wcf2.mantissa

/-- `operator <=`. -/
def lessOrEqual : Bool :=
  if wcf1.zeros < wcf2.zeros then false
  else if wcf2.zeros ≤ wcf1.zeros then true
  else wcf1.mantissa ≤ wcf2.mantissa

/-- `operator >`. -/
def greater : Bool := !wcf1.less wcf2

/-- `operator >=`. -/
def greaterOrEqual : Bool := !wcf1.lessOrEqual wcf2

/-- The mantissa with its sign. -/
def signedMantissa (wcf : WarthogCustomFloat) : Int :=
  if wcf.isPositive then wcf.mantissa else -wcf.mantissa

/-- `Equals`, which is `operator ==`. -/
def equals : Bool :=
  if wcf1.exponent = wcf2.exponent ∧ wcf1.mantissa = wcf2.mantissa then
    wcf1.isPositive = wcf2.isPositive
  else wcf1.signedMantissa * wcf2.exponent = wcf1.exponent * wcf2.signedMantissa

end Comparison

section Order

/-- The number of a float without its sign. -/
def magnitude (wcf : WarthogCustomFloat) : Rat := scaled 32 wcf.mantissa wcf.exponent

/-- A positive float whose leading bit is set, with a number below one. -/
structure Fraction (wcf : WarthogCustomFloat) : Prop where
  isPositive : wcf.isPositive = true
  normalised : Normalised 32 wcf.mantissa
  exponent_le : wcf.exponent ≤ 0

/-- The operators agree with the order of the numbers on a pair. -/
structure Ordered (x y : WarthogCustomFloat) : Prop where
  less : x.less y ↔ x.magnitude < y.magnitude
  lessOrEqual : x.lessOrEqual y ↔ x.magnitude ≤ y.magnitude
  greater : x.greater y ↔ y.magnitude < x.magnitude
  greaterOrEqual : x.greaterOrEqual y ↔ y.magnitude ≤ x.magnitude
  equals : x.equals y ↔ x.magnitude = y.magnitude
  trichotomy : [x.less y, x.equals y, x.greater y].count true = 1
  lessOrEqual_iff : x.lessOrEqual y ↔ x.less y ∨ x.equals y

variable {x y : WarthogCustomFloat}

theorem Fraction.magnitude_lt_iff (hx : x.Fraction) (hy : y.Fraction) :
    x.magnitude < y.magnitude ↔
      y.zeros < x.zeros ∨ x.zeros = y.zeros ∧ x.mantissa < y.mantissa := by
  have hx' := hx.exponent_le
  have hy' := hy.exponent_le
  rw [magnitude, magnitude, hx.normalised.scaled_lt_iff hy.normalised, zeros, zeros]
  omega

theorem Fraction.magnitude_eq_iff (hx : x.Fraction) (hy : y.Fraction) :
    x.magnitude = y.magnitude ↔ x.zeros = y.zeros ∧ x.mantissa = y.mantissa := by
  have hx' := hx.exponent_le
  have hy' := hy.exponent_le
  rw [magnitude, magnitude, hx.normalised.scaled_eq_iff hy.normalised, zeros, zeros]
  omega

/-- The strict comparison is the order of the numbers. -/
theorem Fraction.less_iff (hx : x.Fraction) (hy : y.Fraction) :
    x.less y ↔ x.magnitude < y.magnitude := by
  rw [hx.magnitude_lt_iff hy, less]
  split
  · rename_i h
    refine iff_of_false Bool.false_ne_true ?_
    omega
  · split
    · rename_i h
      exact iff_of_true rfl (.inl h)
    · rw [decide_eq_true_iff]
      omega

/-- The other comparison only looks at the exponents. -/
theorem lessOrEqual_iff_zeros : x.lessOrEqual y ↔ y.zeros ≤ x.zeros := by
  rw [lessOrEqual]
  split
  · rename_i h
    exact iff_of_false Bool.false_ne_true h.not_ge
  · rename_i h
    rw [if_pos (not_lt.mp h)]
    exact iff_of_true rfl (not_lt.mp h)

theorem Fraction.equals_iff (hx : x.Fraction) (hy : y.Fraction) :
    x.equals y ↔ x.magnitude = y.magnitude ∨
      (x.mantissa : Int) * y.exponent = x.exponent * y.mantissa := by
  have hx' := hx.exponent_le
  have hy' := hy.exponent_le
  rw [hx.magnitude_eq_iff hy, equals, signedMantissa, signedMantissa, hx.isPositive, hy.isPositive,
    if_pos rfl, if_pos rfl, zeros, zeros]
  split
  · rename_i h
    exact iff_of_true (by decide) (.inl (by omega))
  · rename_i h
    rw [decide_eq_true_iff]
    refine ⟨.inr, fun h' => h'.resolve_left ?_⟩
    omega

/-- **When the comparisons form an order.** On a pair of positive floats up to one, all operators
agree with the numbers if and only if the exponents differ or the first mantissa is the lower
one, and the exponents are not in the ratio of the mantissas. -/
theorem ordered_iff (hx : x.Fraction) (hy : y.Fraction) :
    Ordered x y ↔ (x.exponent ≠ y.exponent ∨ x.mantissa < y.mantissa) ∧
      (x.mantissa : Int) * y.exponent ≠ x.exponent * y.mantissa := by
  have hless := hx.less_iff hy
  have hequals := hx.equals_iff hy
  have hlt := hx.magnitude_lt_iff hy
  have hgt := hy.magnitude_lt_iff hx
  have heq := hx.magnitude_eq_iff hy
  have hx' := hx.exponent_le
  have hy' := hy.exponent_le
  have hexponent : x.exponent = y.exponent ↔ x.zeros = y.zeros := by
    rw [zeros, zeros]
    omega
  constructor
  · intro h
    have hge : ¬y.zeros ≤ x.zeros ↔ ¬x.magnitude < y.magnitude := by
      rw [not_lt, ← h.greaterOrEqual, greaterOrEqual, Bool.not_eq_true', ← Bool.not_eq_true,
        lessOrEqual_iff_zeros]
    rw [hlt] at hge
    have hfirst : x.exponent ≠ y.exponent ∨ x.mantissa < y.mantissa := by
      rw [Ne, hexponent]
      omega
    refine ⟨hfirst, fun hratio => ?_⟩
    have hsame := h.equals.mp (hequals.mpr (.inr hratio))
    rw [heq, ← hexponent] at hsame
    omega
  · rintro ⟨hfirst, hratio⟩
    rw [Ne, hexponent] at hfirst
    have hne : x.magnitude ≠ y.magnitude := by
      rw [Ne, heq]
      omega
    have hequals' : x.equals y = false := by
      rw [← Bool.not_eq_true, hequals]
      exact not_or.mpr ⟨hne, hratio⟩
    have hle : x.lessOrEqual y ↔ x.magnitude < y.magnitude := by
      rw [lessOrEqual_iff_zeros, hlt]
      omega
    have hgreater : x.greater y ↔ y.magnitude < x.magnitude := by
      rw [greater, Bool.not_eq_true', ← Bool.not_eq_true, hless, not_lt]
      exact ⟨fun h => lt_of_le_of_ne h hne.symm, le_of_lt⟩
    refine ⟨hless, hle.trans ⟨le_of_lt, fun h => lt_of_le_of_ne h hne⟩, hgreater, ?_, ?_, ?_, ?_⟩
    · rw [greaterOrEqual, Bool.not_eq_true', ← Bool.not_eq_true, hle, not_lt]
    · rw [hequals']
      exact iff_of_false Bool.false_ne_true hne
    · rw [greater, hequals']
      cases x.less y <;> rfl
    · rw [hequals', hle, hless]
      simp

/-- The float of one half. -/
def half : WarthogCustomFloat := ⟨0, 0x80000000, true⟩

theorem half_fraction : half.Fraction := ⟨rfl, ⟨by decide, by decide⟩, by decide⟩

theorem half_ordered : Ordered ⟨-1, 0x80000000, true⟩ half :=
  (ordered_iff ⟨rfl, ⟨by decide, by decide⟩, by decide⟩ half_fraction).mpr
    ⟨.inl (by decide), by decide⟩

/-- One half is greater than itself. -/
theorem half_greater_half :
    half.Fraction ∧ half.greater half ∧ half.equals half ∧ ¬Ordered half half := by
  refine ⟨half_fraction, by decide, by decide, fun h => ?_⟩
  exact lt_irrefl _ (h.greater.mp (by decide))

end Order

end WarthogCustomFloat

end HashStorm.Warthog
