import HashStorm.Blockchain.Ergo.Job
import Mathlib.Order.Iterate

/-!
# The size of Ergo's table

`CalcN` grows the table by a step that first divides and then multiplies. From the
start on a step never loses more than it gains. The loop passes the final size after 71
iterations and 32 bits after 85, but it is cut off at a height that comes later.
-/

namespace HashStorm.Ergo

open LittleEndian

section Loop

variable {s k k' : Nat} {height height' : UInt32}

/-- A step of the loop, without a bound on its result. -/
def increase (step : Nat) : Nat := step / 100 * 105

theorem le_increase (h : 2000 ≤ s) : s ≤ increase s := by
  unfold increase
  omega

/-- From a step that does not lose, none does. -/
theorem le_iterate (h : 2000 ≤ s) (k : Nat) : 2000 ≤ increase^[k] s := by
  induction k with
  | zero => exact h
  | succ k ih =>
    rw [Function.iterate_succ_apply']
    exact ih.trans (le_increase ih)

theorem iterate_mono (h : 2000 ≤ s) : Monotone fun k => increase^[k] s := by
  refine monotone_nat_of_le_succ fun k => ?_
  rw [Function.iterate_succ_apply']
  exact le_increase (le_iterate h k)

theorem start_le : 2000 ≤ 2 ^ 26 := by decide

/-- Without overflow, the loop computes exactly. -/
theorem toNat_increaseN {step : UInt32} (h : ∀ i < k, increase^[i + 1] step.toNat < 2 ^ 32) :
    (increaseN k step).toNat = increase^[k] step.toNat := by
  induction k generalizing step with
  | zero => rfl
  | succ k ih =>
    have hfirst : (step / 100 * 105).toNat = increase step.toNat := by
      rw [UInt32.toNat_mul, UInt32.toNat_div]
      exact Nat.mod_eq_of_lt (h 0 k.succ_pos)
    rw [increaseN, Function.iterate_succ_apply, ← hfirst]
    refine ih fun i hi => ?_
    rw [hfirst]
    exact h (i + 1) (Nat.succ_lt_succ hi)

theorem toNat_increaseN_nBase (hk : k ≤ 85) :
    (increaseN k nBase).toNat = increase^[k] (2 ^ 26) := by
  have hlast : increase^[85] (2 ^ 26) < 2 ^ 32 := by decide +kernel
  exact toNat_increaseN fun i hi => (iterate_mono start_le (hi.trans_le hk)).trans_lt hlast

/-- `iterationsNumber`. -/
def iterationsNumber (height : UInt32) : Nat :=
  ((height - increaseStart) / increasePeriodForN + 1).toNat

theorem iterationsNumber_eq (hstart : increaseStart ≤ height) :
    iterationsNumber height = (height.toNat - 614400) / 51200 + 1 := by
  have hlt := height.toNat_lt
  rw [iterationsNumber, UInt32.toNat_add, UInt32.toNat_div, UInt32.toNat_sub_of_le _ _ hstart]
  change ((height.toNat - 614400) / 51200 + 1) % 2 ^ 32 = _
  omega

/-- At a height at which the loop runs, no product of it exceeds 32 bits. -/
def NeverOverflows (height : UInt32) : Prop :=
  increaseStart ≤ height → height < nIncreasementHeightMax →
    ∀ i < iterationsNumber height, increase (increaseN i nBase).toNat < 2 ^ 32

/-- A height before the loop passes the final size, or from where it is cut off. -/
def Scheduled (height : UInt32) : Prop := height < 4249600 ∨ nIncreasementHeightMax ≤ height

/-- The size by the height: the first one, one of the loop, or the final one. -/
theorem calcN_cases (height : UInt32) :
    height < increaseStart ∧ calcN height = nBase ∨
    (increaseStart ≤ height ∧ height < nIncreasementHeightMax) ∧
      calcN height = increaseN (iterationsNumber height) nBase ∨
    nIncreasementHeightMax ≤ height ∧ calcN height = 2147387550 := by
  rw [calcN, UInt32.min_def]
  by_cases hmax : nIncreasementHeightMax ≤ height
  · rw [if_pos hmax]
    exact .inr (.inr ⟨hmax, rfl⟩)
  · rw [if_neg hmax]
    by_cases hstart : height < increaseStart
    · rw [if_pos hstart]
      exact .inl ⟨hstart, rfl⟩
    · rw [if_neg hstart, if_neg hmax]
      exact .inr (.inl ⟨⟨UInt32.not_lt.mp hstart, UInt32.not_le.mp hmax⟩, rfl⟩)

/-- On schedule, the loop makes at most 71 iterations. -/
theorem Scheduled.iterationsNumber_le (h : Scheduled height) (hstart : increaseStart ≤ height)
    (hmax : height < nIncreasementHeightMax) : iterationsNumber height ≤ 71 := by
  rcases h with h | h
  · have hlt : height.toNat < 4249600 := h
    rw [iterationsNumber_eq hstart]
    omega
  · exact absurd h (UInt32.not_le.mpr hmax)

theorem Scheduled.toNat_calcN (h : Scheduled height) :
    height < increaseStart ∧ (calcN height).toNat = 2 ^ 26 ∨
    (increaseStart ≤ height ∧ height < nIncreasementHeightMax) ∧
      (calcN height).toNat = increase^[iterationsNumber height] (2 ^ 26) ∨
    nIncreasementHeightMax ≤ height ∧ (calcN height).toNat = 2147387550 := by
  rcases calcN_cases height with ⟨hstart, hn⟩ | ⟨hloop, hn⟩ | ⟨hmax, hn⟩
  · exact .inl ⟨hstart, by rw [hn]; rfl⟩
  · have hcount := h.iterationsNumber_le hloop.1 hloop.2
    exact .inr (.inl ⟨hloop, by rw [hn, toNat_increaseN_nBase (hcount.trans (by decide))]⟩)
  · exact .inr (.inr ⟨hmax, by rw [hn]; rfl⟩)

theorem Scheduled.neverOverflows (h : Scheduled height) : NeverOverflows height := by
  intro hstart hmax i hi
  have hcount : i + 1 ≤ 85 :=
    (Nat.succ_le_of_lt hi).trans ((h.iterationsNumber_le hstart hmax).trans (by decide))
  rw [toNat_increaseN_nBase (Nat.le_of_succ_le hcount), ← Function.iterate_succ_apply' increase,
    ← toNat_increaseN_nBase hcount]
  exact UInt32.toNat_lt _

/-- The first 71 iterations stay below the final size. -/
theorem Scheduled.calcN_le_final (h : Scheduled height) : (calcN height).toNat ≤ 2147387550 := by
  have hlast : increase^[71] (2 ^ 26) ≤ 2147387550 := by decide +kernel
  rcases h.toNat_calcN with ⟨-, hn⟩ | ⟨⟨hstart, hmax⟩, hn⟩ | ⟨-, hn⟩
  · rw [hn]
    decide
  · rw [hn]
    exact (iterate_mono start_le (h.iterationsNumber_le hstart hmax)).trans hlast
  · exact hn.le

theorem Scheduled.nBase_le_calcN (h : Scheduled height) : 2 ^ 26 ≤ (calcN height).toNat := by
  rcases h.toNat_calcN with ⟨-, hn⟩ | ⟨-, hn⟩ | ⟨-, hn⟩
  · exact hn.ge
  · rw [hn]
    exact iterate_mono start_le (Nat.zero_le _)
  · rw [hn]
    decide

/-- On schedule, the table does not shrink. -/
theorem Scheduled.toNat_calcN_mono (h : Scheduled height) (h' : Scheduled height')
    (hle : height ≤ height') : (calcN height).toNat ≤ (calcN height').toNat := by
  rcases h.toNat_calcN with ⟨-, hn⟩ | ⟨⟨hstart, -⟩, hn⟩ | ⟨hmax, hn⟩
  · rw [hn]
    exact h'.nBase_le_calcN
  · rcases h'.toNat_calcN with ⟨hstart', -⟩ | ⟨⟨hstart', -⟩, hn'⟩ | ⟨-, hn'⟩
    · exact absurd (UInt32.le_trans hstart hle) (UInt32.not_le.mpr hstart')
    · rw [hn, hn']
      refine iterate_mono start_le ?_
      have hle : height.toNat ≤ height'.toNat := hle
      rw [iterationsNumber_eq hstart, iterationsNumber_eq hstart']
      omega
    · rw [hn']
      exact h.calcN_le_final
  · rcases h'.toNat_calcN with ⟨hstart', -⟩ | ⟨⟨-, hmax'⟩, -⟩ | ⟨-, hn'⟩
    · have hsmall : increaseStart ≤ nIncreasementHeightMax := by decide
      exact absurd (UInt32.le_trans hsmall (UInt32.le_trans hmax hle)) (UInt32.not_le.mpr hstart')
    · exact absurd (UInt32.le_trans hmax hle) (UInt32.not_le.mpr hmax')
    · rw [hn, hn']

/-- The loop overflows after 85 iterations, and before that it passes the final size after 71. -/
theorem scheduled_of_le (hoverflow : NeverOverflows height)
    (hfinal : (calcN height).toNat ≤ 2147387550) : Scheduled height := by
  rcases calcN_cases height with ⟨hstart, -⟩ | ⟨⟨hstart, hmax⟩, hn⟩ | ⟨hmax, -⟩
  · exact .inl (UInt32.lt_trans hstart (by decide))
  · refine .inl ?_
    by_cases hcount : iterationsNumber height ≤ 85
    · rw [hn, toNat_increaseN_nBase hcount] at hfinal
      have hpassed : 2147387550 < increase^[72] (2 ^ 26) := by decide +kernel
      have hfew : iterationsNumber height < 72 := by
        by_contra hmany
        exact (hfinal.trans_lt hpassed).not_ge (iterate_mono start_le (not_lt.mp hmany))
      rw [iterationsNumber_eq hstart] at hfew
      have hlt : height.toNat < 4249600 := by omega
      exact hlt
    · have hlast := hoverflow hstart hmax 85 (not_le.mp hcount)
      rw [toNat_increaseN_nBase (le_refl _), ← Function.iterate_succ_apply' increase] at hlast
      have hover : 2 ^ 32 ≤ increase^[86] (2 ^ 26) := by decide +kernel
      exact absurd hlast hover.not_gt
  · exact .inr hmax

end Loop

section Indexes

variable {value : Nat}

/-- Four bytes that denote an index. -/
def Fits (bytes : List UInt8) (index : Nat) : Prop := bytes.length = 4 ∧ ofBE bytes = index

theorem ofLE_append_zeros (bytes : List UInt8) (count : Nat) :
    ofLE (bytes ++ List.replicate count 0) = ofLE bytes := by
  have hzero : ofLE (List.replicate count 0) = 0 :=
    ofLE_eq_zero_iff.mpr fun b hb => List.eq_of_mem_replicate hb
  rw [ofLE_append, hzero, Nat.mul_zero, Nat.add_zero]

theorem ofBE_padFront (bytes : List UInt8) (desiredLength : Nat) :
    ofBE (padFront bytes 0 desiredLength) = ofBE bytes := by
  rw [padFront]
  split
  · rfl
  · rw [ofBE, ofBE, List.reverse_append, List.reverse_replicate, ofLE_append_zeros]

theorem length_padFront {bytes : List UInt8} {desiredLength : Nat}
    (h : bytes.length ≤ desiredLength) :
    (padFront bytes 0 desiredLength).length = desiredLength := by
  rw [padFront]
  split
  · exact le_antisymm h ‹_›
  · rw [List.length_append, List.length_replicate, Nat.sub_add_cancel h]

theorem ofBE_toByteArrayUnsigned (value : Nat) : ofBE (toByteArrayUnsigned value) = value := by
  rw [ofBE, toByteArrayUnsigned, List.reverse_reverse]
  refine ofLE_leBytes ?_
  have h256 : (256 : Nat) = 2 ^ 8 := by decide
  rw [h256, ← pow_mul]
  exact Nat.lt_log2_self.trans_le (Nat.pow_le_pow_right (by decide) (by omega))

theorem length_toByteArrayUnsigned (h : value < 2 ^ 32) :
    (toByteArrayUnsigned value).length ≤ 4 := by
  rw [toByteArrayUnsigned, List.length_reverse, length_leBytes]
  by_cases hzero : value = 0
  · subst hzero
    decide
  · have hlog := (Nat.log2_lt hzero).mpr h
    omega

theorem ofBE_cons (b : UInt8) (bytes : List UInt8) :
    ofBE (b :: bytes) = ofBE bytes + 256 ^ bytes.length * b.toNat := by
  rw [ofBE, List.reverse_cons, ofLE_append, List.length_reverse, ofBE]
  simp [ofLE]

theorem fits_unsigned (h : value < 2 ^ 32) :
    Fits (padFront (toByteArrayUnsigned value) 0 4) value :=
  ⟨length_padFront (length_toByteArrayUnsigned h), by
    rw [ofBE_padFront, ofBE_toByteArrayUnsigned]⟩

/-- Below two to the power of 31 the byte of the sign is not needed in four bytes. -/
theorem fits_signed (h : value < 2 ^ 31) : Fits (padFront (toByteArraySigned value) 0 4) value := by
  have hunsigned := length_toByteArrayUnsigned (h.trans (by decide))
  have hvalue := ofBE_toByteArrayUnsigned value
  rw [toByteArraySigned]
  split
  · rename_i hsign
    cases hbytes : toByteArrayUnsigned value with
    | nil => rw [hbytes] at hsign; cases hsign
    | cons b bytes =>
      rw [hbytes] at hsign hunsigned hvalue
      have hb : 128 ≤ b.toNat := of_decide_eq_true hsign
      have hshort : bytes.length < 3 := by
        by_contra hlong
        rw [ofBE_cons] at hvalue
        have hpow : 256 ^ 3 ≤ 256 ^ bytes.length :=
          Nat.pow_le_pow_right (by decide) (not_lt.mp hlong)
        have hmul := Nat.mul_le_mul hpow hb
        omega
      refine ⟨length_padFront (by simp only [List.length_cons]; omega), ?_⟩
      rw [ofBE_padFront, ofBE_cons, UInt8.toNat_zero, Nat.mul_zero, Nat.add_zero, hvalue]
  · exact ⟨length_padFront hunsigned, by rw [ofBE_padFront, hvalue]⟩

end Indexes

section Growth

variable (lib : Library) {height height' : UInt32}

/-- The indexes of a share at a height fit the bytes they are padded to. -/
def IndexesFit (height : UInt32) : Prop :=
  let n := (calcN height).toNat
  (∀ slice : List UInt8,
    Fits (padFront (toByteArraySigned (ofBE slice % n)) 0 4) (ofBE slice % n)) ∧
  ∀ seed : List UInt8, ∀ index ∈ genIndexes lib n seed,
    Fits (padFront (toByteArrayUnsigned index) 0 4) index

/-- From a height to another the table grows without overflow, to the final size or less. -/
structure Grows (height height' : UInt32) : Prop where
  neverOverflows : NeverOverflows height ∧ NeverOverflows height'
  calcN_le : calcN height ≤ calcN height'
  le_final : calcN height ≤ 2147387550 ∧ calcN height' ≤ 2147387550
  indexesFit : IndexesFit lib height ∧ IndexesFit lib height'

theorem Scheduled.indexesFit (h : Scheduled height) : IndexesFit lib height := by
  have hindex (x : Nat) : x % (calcN height).toNat < 2 ^ 31 :=
    (Nat.mod_lt x (lt_of_lt_of_le (by decide) h.nBase_le_calcN)).trans_le
      (h.calcN_le_final.trans (by decide))
  refine ⟨fun slice => fits_signed (hindex _), fun seed index hmem => ?_⟩
  obtain ⟨i, -, rfl⟩ := List.mem_map.mp hmem
  exact fits_unsigned ((hindex _).trans (by decide))

/-- **When the table grows.** From a height to a later one the table grows without overflow, to
the final size or less, if and only if both are on schedule. -/
theorem grows_iff_scheduled (hle : height ≤ height') :
    Grows lib height height' ↔ Scheduled height ∧ Scheduled height' := by
  constructor
  · intro h
    exact ⟨scheduled_of_le h.neverOverflows.1 h.le_final.1,
      scheduled_of_le h.neverOverflows.2 h.le_final.2⟩
  · rintro ⟨h, h'⟩
    exact ⟨⟨h.neverOverflows, h'.neverOverflows⟩, h.toNat_calcN_mono h' hle,
      ⟨h.calcN_le_final, h'.calcN_le_final⟩, h.indexesFit lib, h'.indexesFit lib⟩

theorem grows_to_last_scheduled : Grows exampleLibrary 614400 4249599 :=
  (grows_iff_scheduled exampleLibrary (by decide)).mpr ⟨.inl (by decide), .inl (by decide)⟩

/-- After 86 iterations the table is cut to 32 bits. -/
theorem table_shrinks :
    (4966399 : UInt32) ≤ 4966400 ∧ calcN 4966399 = 4244862720 ∧ calcN 4966400 = 162138539 ∧
      ¬Grows exampleLibrary 4966399 4966400 := by
  refine ⟨by decide, by decide +kernel, by decide +kernel, fun h => ?_⟩
  exact absurd h.calcN_le (by decide +kernel)

end Growth

end HashStorm.Ergo
