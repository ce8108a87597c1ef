import HashStorm.Blockchain.Handshake.Bech32Decoder

/-!
# What the Handshake decoder accepts

`Convert` writes to the array it reads from, but never to a place that is still to be
read, as long as its groups are not narrower than its symbols. So it regroups the
digits of the symbols, and `Decode` accepts the bech32 addresses, in one case, of all
versions and hashes whose filling is zero.
-/

namespace HashStorm.Handshake.Bech32Decoder

open Stratum Bitcoin Bech32 Regroup

section Emit

variable {dstbits bits fuel j : Nat} {mask acc : BitVec 32} {dst : List UInt8} {p : List Nat}

/-- The bytes that the inner loop writes, and the bits that it leaves. -/
def emitted (dstbits : Nat) (mask acc : BitVec 32) : Nat → Nat → List UInt8 × Nat
  | 0, bits => ([], bits)
  | fuel + 1, bits =>
    if dstbits ≤ bits then
      let rest := emitted dstbits mask acc fuel (bits - dstbits)
      (UInt8.ofNat ((acc.sshiftRight (bits - dstbits)) &&& mask).toNat :: rest.1, rest.2)
    else ([], bits)

/-- An array after bytes were written to it from an index on. -/
def overwrite (dst : List UInt8) (j : Nat) (bytes : List UInt8) : List UInt8 :=
  dst.take j ++ bytes ++ dst.drop (j + bytes.length)

theorem overwrite_nil (dst : List UInt8) (j : Nat) : overwrite dst j [] = dst := by
  simp [overwrite]

theorem length_overwrite {bytes : List UInt8} (h : j + bytes.length ≤ dst.length) :
    (overwrite dst j bytes).length = dst.length := by
  simp only [overwrite, List.length_append, List.length_take, List.length_drop]
  omega

theorem overwrite_set {b : UInt8} {bytes : List UInt8} (h : j < dst.length) :
    overwrite (dst.set j b) (j + 1) bytes = overwrite dst j (b :: bytes) := by
  have htake : (dst.set j b).take (j + 1) = dst.take j ++ [b] := by
    rw [List.take_succ_eq_append_getElem (by simpa using h), List.take_set_of_le (Nat.le_refl j)]
    simp
  rw [overwrite, overwrite, htake, List.drop_set_of_lt (by omega), List.length_cons]
  simp [Nat.add_comm, Nat.add_left_comm]

theorem take_overwrite {bytes : List UInt8} (h : j + bytes.length ≤ dst.length) :
    (overwrite dst j bytes).take (j + bytes.length) = dst.take j ++ bytes := by
  rw [overwrite, List.take_left' (by simp; omega)]

/-- What is behind the written bytes is as it was. -/
theorem drop_overwrite {bytes : List UInt8} {i : Nat} (h : j + bytes.length ≤ dst.length)
    (hi : j + bytes.length ≤ i) : (overwrite dst j bytes).drop i = dst.drop i := by
  have hlen : (dst.take j ++ bytes).length = j + bytes.length := by
    rw [List.length_append, List.length_take]
    omega
  rw [overwrite, List.drop_append, List.drop_eq_nil_of_le (by omega), hlen, List.drop_drop,
    Nat.add_sub_of_le hi, List.nil_append]

theorem emit_eq (h : j + (emitted dstbits mask acc fuel bits).1.length ≤ dst.length) :
    emit dstbits mask acc fuel bits j dst = .ok ((emitted dstbits mask acc fuel bits).2,
      j + (emitted dstbits mask acc fuel bits).1.length,
      overwrite dst j (emitted dstbits mask acc fuel bits).1) := by
  induction fuel generalizing bits j dst with
  | zero => simp [emit, emitted, overwrite_nil]
  | succ fuel ih =>
    rw [emit]
    simp only [emitted] at h ⊢
    by_cases hbits : dstbits ≤ bits
    · simp only [if_pos hbits, List.length_cons] at h ⊢
      have hj : j < dst.length := by omega
      rw [if_pos hj, ih (by rw [List.length_set]; omega), overwrite_set hj,
        Nat.add_right_comm, Nat.add_assoc j]
    · simp only [if_neg hbits, List.length_nil, Nat.add_zero, overwrite_nil]

/-- As many bits are written as are no longer left. -/
theorem emitted_bits : (emitted dstbits mask acc fuel bits).1.length * dstbits +
    (emitted dstbits mask acc fuel bits).2 = bits := by
  induction fuel generalizing bits with
  | zero => simp [emitted]
  | succ fuel ih =>
    simp only [emitted]
    by_cases hbits : dstbits ≤ bits
    · have hrest : (emitted dstbits mask acc fuel (bits - dstbits)).1.length * dstbits +
          (emitted dstbits mask acc fuel (bits - dstbits)).2 = bits - dstbits := ih
      simp only [if_pos hbits, List.length_cons, Nat.succ_mul]
      omega
    · simp [if_neg hbits]

/-- A group of bits of the accumulator. -/
theorem toNat_sshiftRight_and {k : Nat} (hmask : mask.toNat = 2 ^ dstbits - 1)
    (hk : k + dstbits ≤ 32) :
    ((acc.sshiftRight k) &&& mask).toNat = acc.toNat % 2 ^ (k + dstbits) / 2 ^ k := by
  rw [Nat.pow_add, Nat.mod_mul_right_div_self, BitVec.toNat_and, hmask,
    Nat.and_two_pow_sub_one_eq_mod]
  apply Nat.eq_of_testBit_eq
  intro i
  rw [Nat.testBit_mod_two_pow, Nat.testBit_mod_two_pow, Nat.testBit_div_two_pow,
    BitVec.testBit_toNat, BitVec.testBit_toNat, BitVec.getLsbD_sshiftRight]
  by_cases hi : i < dstbits
  · rw [if_pos (show k + i < 32 by omega), Nat.add_comm i k]
    simp [hi, show ¬32 ≤ i by omega]
  · simp [hi]

/-- The inner loop writes the leading digits of the accumulator by groups. -/
theorem emitted_spec (hdst : 0 < dstbits) (hdst8 : dstbits ≤ 8)
    (hmask : mask.toNat = 2 ^ dstbits - 1) (hfuel : bits ≤ fuel) (hbits : bits ≤ 32)
    (hp : ∀ d ∈ p, d < 2) (hlen : p.length = bits) (hacc : acc.toNat % 2 ^ bits = value 2 p) :
    ∃ p', spread 2 dstbits ((emitted dstbits mask acc fuel bits).1.map UInt8.toNat) ++ p' = p ∧
      (emitted dstbits mask acc fuel bits).2 = p'.length ∧ p'.length < dstbits ∧
      acc.toNat % 2 ^ p'.length = value 2 p' := by
  induction fuel generalizing bits p with
  | zero =>
    obtain rfl : bits = 0 := by omega
    exact ⟨p, by simp [emitted], hlen.symm, by omega, by rw [hlen]; exact hacc⟩
  | succ fuel ih =>
    simp only [emitted]
    by_cases hlast : dstbits ≤ bits
    · rw [if_pos hlast]
      have hdrop : (p.drop dstbits).length = bits - dstbits := by rw [List.length_drop, hlen]
      have htake : (p.take dstbits).length = dstbits := by rw [List.length_take]; omega
      have hsplit := List.take_append_drop dstbits p
      have hhead : ∀ d ∈ p.take dstbits, d < 2 := fun d hd => hp d (List.mem_of_mem_take hd)
      have htail : ∀ d ∈ p.drop dstbits, d < 2 := fun d hd => hp d (List.mem_of_mem_drop hd)
      have hbyte : ((acc.sshiftRight (bits - dstbits)) &&& mask).toNat =
          value 2 (p.take dstbits) := by
        rw [toNat_sshiftRight_and hmask (by omega), Nat.sub_add_cancel hlast, hacc, ← hdrop]
        nth_rewrite 1 [← hsplit]
        exact value_append_div (by decide) htail
      have hrest : acc.toNat % 2 ^ (bits - dstbits) = value 2 (p.drop dstbits) := by
        rw [← Nat.mod_mod_of_dvd acc.toNat (Nat.pow_dvd_pow 2 (Nat.sub_le bits dstbits)), hacc,
          ← hdrop]
        nth_rewrite 1 [← hsplit]
        exact value_append_mod (by decide) htail
      have hlt : value 2 (p.take dstbits) < 2 ^ 8 := by
        have hvalue := value_lt (by decide) hhead
        rw [htake] at hvalue
        exact hvalue.trans_le (Nat.pow_le_pow_right (by decide) hdst8)
      have hdigits : digits 2 dstbits (UInt8.ofNat
          ((acc.sshiftRight (bits - dstbits)) &&& mask).toNat).toNat = p.take dstbits := by
        rw [hbyte, UInt8.toNat_ofNat_of_lt' hlt]
        nth_rewrite 1 [← htake]
        exact digits_value (by decide) hhead
      obtain ⟨p', hspread, hlen', hshort, hvalue⟩ :=
        ih (by omega) (by omega) htail hdrop hrest
      refine ⟨p', ?_, hlen', hshort, hvalue⟩
      rw [List.map_cons, spread_cons, hdigits, List.append_assoc, hspread, hsplit]
    · rw [if_neg hlast]
      exact ⟨p, rfl, hlen.symm, by omega, by rw [hlen]; exact hacc⟩

end Emit

/-- The bytes that the loop of `Convert` writes for the bytes it reads, and the bits and the
accumulator that it leaves. -/
def converted (dstbits srcbits : Nat) (mask : BitVec 32) :
    List UInt8 → BitVec 32 → Nat → List UInt8 × Nat × BitVec 32
  | [], acc, bits => ([], bits, acc)
  | byte :: rest, acc, bits =>
    let acc := (acc <<< srcbits) ||| byte.toNat
    let round := emitted dstbits mask acc (bits + srcbits) (bits + srcbits)
    let further := converted dstbits srcbits mask rest acc round.2
    (round.1 ++ further.1, further.2)

/-- The accumulator takes a symbol in behind its bits. -/
theorem toNat_shiftLeft_or {acc : BitVec 32} {srcbits bits byte : Nat} (hbyte : byte < 2 ^ srcbits)
    (hbits : bits + srcbits ≤ 32) :
    ((acc <<< srcbits) ||| (byte : BitVec 32)).toNat % 2 ^ (bits + srcbits) =
      acc.toNat % 2 ^ bits * 2 ^ srcbits + byte := by
  have hpow : (2 : Nat) ^ 32 = 2 ^ srcbits * 2 ^ (32 - srcbits) := by
    rw [← Nat.pow_add, Nat.add_sub_of_le (by omega)]
  have hcast : (byte : BitVec 32).toNat = byte := by
    rw [BitVec.natCast_eq_ofNat, BitVec.toNat_ofNat, Nat.mod_eq_of_lt]
    exact hbyte.trans_le (Nat.pow_le_pow_right (by decide) (by omega))
  have hpos := Nat.two_pow_pos srcbits
  rw [BitVec.toNat_or, BitVec.toNat_shiftLeft, hcast, Nat.shiftLeft_eq, Nat.mul_comm, hpow,
    Nat.mul_mod_mul_left, ← Nat.two_pow_add_eq_or_of_lt hbyte, Nat.add_comm bits, Nat.pow_add,
    Nat.mod_mul, Nat.mul_add_mod, Nat.mod_eq_of_lt hbyte, Nat.mul_add_div hpos,
    Nat.div_eq_of_lt hbyte, Nat.add_zero,
    Nat.mod_mod_of_dvd _ (Nat.pow_dvd_pow 2 (show bits ≤ 32 - srcbits by omega)),
    Nat.mul_comm (2 ^ srcbits), Nat.add_comm byte]

section Loop

variable {ρ : Type} [DecidableEq ρ] {dst src : ρ} {dstbits srcbits bits i : Nat}
  {mask acc : BitVec 32} {rest bytes : List UInt8} {c : Conversion ρ} {p : List Nat}

/-- Nothing is written to a place that is still to be read. -/
def InOrder (dst src : ρ) (dstbits srcbits i : Nat) (c : Conversion ρ) : Prop :=
  dst ≠ src ∨ srcbits ≤ dstbits ∧ c.j * dstbits + c.bits ≤ i * dstbits

/-- The loop writes what it would write for the bytes that it is given, also where the arrays
are the same: the bits that are written and pending never overtake those that are read. -/
theorem convertLoop_eq (mask : BitVec 32) (hdst : 0 < dstbits)
    (hrest : (c.arrays src).drop i = rest)
    (hfits : c.j * dstbits + c.bits + rest.length * srcbits ≤ (c.arrays dst).length * dstbits)
    (horder : InOrder dst src dstbits srcbits i c) :
    ∃ arrays, convertLoop dst src dstbits srcbits mask rest.length i c =
        .ok ⟨(converted dstbits srcbits mask rest c.acc c.bits).2.2,
          (converted dstbits srcbits mask rest c.acc c.bits).2.1,
          c.j + (converted dstbits srcbits mask rest c.acc c.bits).1.length, arrays⟩ ∧
      (arrays dst).take (c.j + (converted dstbits srcbits mask rest c.acc c.bits).1.length) =
        (c.arrays dst).take c.j ++ (converted dstbits srcbits mask rest c.acc c.bits).1 := by
  induction rest generalizing c i with
  | nil => exact ⟨c.arrays, by simp [convertLoop, converted], by simp [converted]⟩
  | cons byte rest ih =>
    have hread : (c.arrays src)[i]? = some byte := by
      rw [← List.head?_drop, hrest]
      rfl
    have hdrop : (c.arrays src).drop (i + 1) = rest := by
      rw [← List.drop_drop, hrest]
      rfl
    obtain ⟨acc, hacc⟩ : ∃ acc, (c.acc <<< srcbits) ||| ((byte.toNat : Nat) : BitVec 32) = acc :=
      ⟨_, rfl⟩
    obtain ⟨round, hround⟩ : ∃ round,
        emitted dstbits mask acc (c.bits + srcbits) (c.bits + srcbits) = round := ⟨_, rfl⟩
    have hcount : round.1.length * dstbits + round.2 = c.bits + srcbits := hround ▸ emitted_bits
    have hwritten : (c.j + round.1.length) * dstbits + round.2 =
        c.j * dstbits + c.bits + srcbits := by
      rw [Nat.add_mul]
      omega
    rw [List.length_cons, Nat.succ_mul] at hfits
    have hroom : c.j + round.1.length ≤ (c.arrays dst).length :=
      Nat.le_of_mul_le_mul_right (by omega) hdst
    have hemit : emit dstbits mask acc (c.bits + srcbits) (c.bits + srcbits) c.j (c.arrays dst) =
        .ok (round.2, c.j + round.1.length, overwrite (c.arrays dst) c.j round.1) := by
      subst hround
      exact emit_eq hroom
    have hfurther : ((Function.update c.arrays dst (overwrite (c.arrays dst) c.j round.1)) src).drop
        (i + 1) = rest := by
      by_cases hsame : src = dst
      · subst hsame
        obtain hne | ⟨hwidth, hle⟩ := horder
        · exact absurd rfl hne
        · have hbehind : c.j + round.1.length ≤ i + 1 := by
            apply Nat.le_of_mul_le_mul_right _ hdst
            rw [Nat.add_mul i]
            omega
          rw [Function.update_self, drop_overwrite hroom hbehind, hdrop]
      · rw [Function.update_of_ne hsame, hdrop]
    have hnext : InOrder dst src dstbits srcbits (i + 1) ⟨acc, round.2, c.j + round.1.length,
        Function.update c.arrays dst (overwrite (c.arrays dst) c.j round.1)⟩ := by
      obtain hne | ⟨hwidth, hle⟩ := horder
      · exact .inl hne
      · refine .inr ⟨hwidth, ?_⟩
        rw [Nat.add_mul i]
        simp only
        omega
    have hfits' : (c.j + round.1.length) * dstbits + round.2 + rest.length * srcbits ≤
        ((Function.update c.arrays dst (overwrite (c.arrays dst) c.j round.1)) dst).length *
          dstbits := by
      rw [Function.update_self, length_overwrite hroom]
      omega
    obtain ⟨arrays, hloop, htake⟩ := ih hfurther hfits' hnext
    refine ⟨arrays, ?_, ?_⟩
    · rw [List.length_cons, convertLoop, hread]
      simp only [converted, hacc, hemit, hround, List.length_append, ← Nat.add_assoc]
      exact hloop
    · simp only [Function.update_self, take_overwrite hroom] at htake
      simp only [converted, hacc, hround, List.length_append, ← Nat.add_assoc]
      rw [htake, List.append_assoc]

/-- `Convert` without a filling, where it has the room and reads before it writes. -/
theorem convert_eq {arrays : ρ → List UInt8} {dstoff srcoff : Nat} (hdst : 1 ≤ dstbits)
    (hdst8 : dstbits ≤ 8) (hsrc : 1 ≤ srcbits) (hsrc8 : srcbits ≤ 8)
    (hfits : dstoff + ((arrays src).length * srcbits + dstbits - 1) / dstbits ≤
      (arrays dst).length)
    (horder : dst ≠ src ∨ srcbits ≤ dstbits ∧ dstoff ≤ srcoff) :
    convert arrays dst dstoff dstbits src srcoff srcbits false =
      let result := converted dstbits srcbits ((1#32 <<< dstbits) - 1)
        ((arrays src).drop srcoff) 0 0
      if (result.2.2 <<< (dstbits - result.2.1)) &&& ((1#32 <<< dstbits) - 1) ≠ 0 ∨
          srcbits ≤ result.2.1 then
        .error (.argument "Invalid bits.")
      else .ok ((arrays dst).take dstoff ++ result.1) := by
  have hguard : ¬(dstbits < 1 ∨ 8 < dstbits ∨ srcbits < 1 ∨ 8 < srcbits ∨
      ((arrays dst).length : Int) - dstoff <
        ((arrays src).length * srcbits + dstbits - 1 : Nat) / dstbits) := by
    have hcast : (((arrays src).length * srcbits + dstbits - 1 : Nat) : Int) / dstbits =
        (((arrays src).length * srcbits + dstbits - 1) / dstbits : Nat) := rfl
    rw [hcast]
    omega
  have hneeded : (arrays src).length * srcbits ≤
      ((arrays src).length * srcbits + dstbits - 1) / dstbits * dstbits := by
    have hdiv := Nat.div_add_mod ((arrays src).length * srcbits + dstbits - 1) dstbits
    have hmod := Nat.mod_lt ((arrays src).length * srcbits + dstbits - 1) hdst
    rw [Nat.mul_comm] at hdiv
    omega
  have hfits' : dstoff * dstbits + 0 + ((arrays src).drop srcoff).length * srcbits ≤
      (arrays dst).length * dstbits := by
    have hroom := Nat.mul_le_mul_right dstbits hfits
    have hdrop := Nat.mul_le_mul_right srcbits (Nat.sub_le (arrays src).length srcoff)
    rw [Nat.add_mul] at hroom
    rw [List.length_drop]
    omega
  have horder' : InOrder dst src dstbits srcbits srcoff ⟨0, 0, dstoff, arrays⟩ :=
    horder.imp_right fun h => ⟨h.1, Nat.mul_le_mul_right dstbits h.2⟩
  have hinit : ((⟨0, 0, dstoff, arrays⟩ : Conversion ρ).arrays src).drop srcoff =
      (arrays src).drop srcoff := rfl
  obtain ⟨written, hloop, htake⟩ :=
    convertLoop_eq ((1#32 <<< dstbits) - 1) hdst hinit hfits' horder'
  rw [List.length_drop] at hloop
  simp only at hloop htake
  simp only [convert, if_neg hguard, hloop, bind, Except.bind, htake]
  generalize converted dstbits srcbits ((1#32 <<< dstbits) - 1) ((arrays src).drop srcoff) 0 0 =
    result
  by_cases hinvalid : (result.2.2 <<< (dstbits - result.2.1)) &&& ((1#32 <<< dstbits) - 1) ≠ 0 ∨
      srcbits ≤ result.2.1
  · rw [if_pos hinvalid, if_pos hinvalid]
    rfl
  · rw [if_neg hinvalid, if_neg hinvalid]
    rfl

/-- The conversion in place gives what one into another array gives, if that has the room. -/
theorem convert_in_place (arrays : ρ → List UInt8) {fresh data : ρ} (hne : fresh ≠ data)
    (hfits : ((arrays data).length * 5 + 7) / 8 ≤ (arrays fresh).length) :
    convert arrays data 0 8 data 1 5 false = convert arrays fresh 0 8 data 1 5 false := by
  have hself : 0 + ((arrays data).length * 5 + 8 - 1) / 8 ≤ (arrays data).length := by omega
  have hother : 0 + ((arrays data).length * 5 + 8 - 1) / 8 ≤ (arrays fresh).length := by
    rwa [Nat.zero_add]
  rw [convert_eq (by decide) (by decide) (by decide) (by decide) hself
      (.inr ⟨by decide, by decide⟩),
    convert_eq (by decide) (by decide) (by decide) (by decide) hother (.inl hne)]
  rfl

/-- The loop regroups the digits of what is pending and of the symbols that it reads. -/
theorem converted_spec (hdst : 0 < dstbits) (hdst8 : dstbits ≤ 8) (hsrc8 : srcbits ≤ 8)
    (hmask : mask.toNat = 2 ^ dstbits - 1) (hbytes : ∀ b ∈ bytes, b.toNat < 2 ^ srcbits)
    (hp : ∀ d ∈ p, d < 2) (hlen : p.length = bits) (hshort : bits < dstbits)
    (hacc : acc.toNat % 2 ^ bits = value 2 p) :
    ∃ p', spread 2 dstbits ((converted dstbits srcbits mask bytes acc bits).1.map UInt8.toNat) ++
        p' = p ++ spread 2 srcbits (bytes.map UInt8.toNat) ∧
      (converted dstbits srcbits mask bytes acc bits).2.1 = p'.length ∧ p'.length < dstbits ∧
      (converted dstbits srcbits mask bytes acc bits).2.2.toNat % 2 ^ p'.length = value 2 p' := by
  induction bytes generalizing acc bits p with
  | nil =>
    exact ⟨p, by simp [converted], hlen.symm, by omega, by rw [hlen]; exact hacc⟩
  | cons byte bytes ih =>
    simp only [List.forall_mem_cons] at hbytes
    simp only [converted]
    have hdigit : ∀ d ∈ digits 2 srcbits byte.toNat, d < 2 := lt_of_mem_digits (by decide)
    have hacc' : ((acc <<< srcbits) ||| ((byte.toNat : Nat) : BitVec 32)).toNat %
        2 ^ (bits + srcbits) = value 2 (p ++ digits 2 srcbits byte.toNat) := by
      rw [toNat_shiftLeft_or hbytes.1 (by omega), hacc, value_append, length_digits, value_digits,
        Nat.mod_eq_of_lt hbytes.1]
    obtain ⟨q, hspread, hbits, hqlen, hq⟩ := emitted_spec hdst hdst8 hmask (Nat.le_refl _)
      (show bits + srcbits ≤ 32 by omega) (List.forall_mem_append.mpr ⟨hp, hdigit⟩)
      (by rw [List.length_append, length_digits, hlen]) hacc'
    have hqdigit : ∀ d ∈ q, d < 2 := by
      intro d hd
      apply List.forall_mem_append.mpr ⟨hp, hdigit⟩ d
      rw [← hspread]
      exact List.mem_append_right _ hd
    obtain ⟨p', hspread', hbits', hp'len, hp'⟩ := ih hbytes.2 hqdigit rfl hqlen hq
    rw [hbits]
    refine ⟨p', ?_, hbits', hp'len, hp'⟩
    rw [List.map_append, spread_append, List.append_assoc, hspread', ← List.append_assoc, hspread,
      List.map_cons, spread_cons, List.append_assoc]

end Loop

section Decode

variable {s t hrp : Text} {version : Nat} {data hash : List UInt8}

/-- What is left is no filling unless it is zero. -/
theorem pending_eq_zero_iff {acc mask : BitVec 32} {dstbits bits : Nat}
    (hmask : mask.toNat = 2 ^ dstbits - 1) (hdst : dstbits ≤ 32) (hbits : bits ≤ dstbits) :
    (acc <<< (dstbits - bits)) &&& mask = 0 ↔ acc.toNat % 2 ^ bits = 0 := by
  have hpow : (2 : Nat) ^ dstbits = 2 ^ bits * 2 ^ (dstbits - bits) := by
    rw [← Nat.pow_add, Nat.add_sub_of_le hbits]
  have hpos := Nat.two_pow_pos (dstbits - bits)
  rw [← BitVec.toNat_inj, BitVec.toNat_and, hmask, Nat.and_two_pow_sub_one_eq_mod,
    BitVec.toNat_shiftLeft, Nat.mod_mod_of_dvd _ (Nat.pow_dvd_pow 2 hdst), Nat.shiftLeft_eq, hpow,
    Nat.mul_mod_mul_right]
  constructor
  · exact fun h => (Nat.mul_eq_zero.mp h).resolve_right hpos.ne'
  · intro h
    rw [h, Nat.zero_mul]
    rfl

/-- In place, the symbols behind the first are converted to the bytes that they are regrouped
from. -/
theorem convert_data_iff (hdata : ∀ b ∈ data, b.toNat < 32) :
    convert (fun _ : Unit => data) () 0 8 () 1 5 false = .ok hash ↔
      (data.drop 1).map UInt8.toNat = regroup 2 8 5 (hash.map UInt8.toNat) := by
  have hfits : 0 + (data.length * 5 + 8 - 1) / 8 ≤ data.length := by omega
  have htail : ∀ b ∈ data.drop 1, b.toNat < 2 ^ 5 := fun b hb => hdata b (List.mem_of_mem_drop hb)
  have hmask : ((1#32 <<< 8) - 1).toNat = 2 ^ 8 - 1 := by decide
  rw [convert_eq (by decide) (by decide) (by decide) (by decide) hfits
    (.inr ⟨by decide, by decide⟩)]
  have hinit : (0 : BitVec 32).toNat % 2 ^ 0 = value 2 [] := rfl
  obtain ⟨p, hspread, hbits, hshort, hvalue⟩ := converted_spec (by decide) (by decide) (by decide)
    hmask htail (List.forall_mem_nil _) rfl (by decide) hinit
  generalize converted 8 5 ((1#32 <<< 8) - 1) (data.drop 1) 0 0 = result at *
  rw [List.nil_append] at hspread
  have hdigit : ∀ d ∈ p, d < 2 := by
    intro d hd
    apply lt_of_mem_spread (show 1 < 2 by decide) d
    rw [← hspread]
    exact List.mem_append_right _ hd
  have hpadding : ¬((result.2.2 <<< (8 - result.2.1)) &&& ((1#32 <<< 8) - 1) ≠ 0 ∨
      5 ≤ result.2.1) ↔ p.length < 5 ∧ ∀ d ∈ p, d = 0 := by
    rw [hbits, not_or, not_not, not_le, and_comm,
      pending_eq_zero_iff hmask (by decide) hshort.le, hvalue, value_eq_zero_iff (by decide) hdigit]
  have hregroup := eq_regroup_iff (by decide) (by decide)
    (fun y hy => by
      obtain ⟨b, hb, rfl⟩ := List.mem_map.mp hy
      exact htail b hb) hspread.symm
  constructor
  · intro h
    by_cases hvalid : (result.2.2 <<< (8 - result.2.1)) &&& ((1#32 <<< 8) - 1) ≠ 0 ∨
        5 ≤ result.2.1
    · rw [if_pos hvalid] at h
      cases h
    · rw [if_neg hvalid] at h
      obtain rfl : result.1 = hash := Except.ok.inj h
      exact hregroup.mpr (hpadding.mp hvalid)
  · intro h
    have hfill := spread_regroup (show 1 < 2 by decide) (show 0 < 5 by decide) 8
      (hash.map UInt8.toNat)
    rw [← h, ← hspread] at hfill
    have hshort' := length_filling_lt (show 0 < 5 by decide) (spread 2 8 (hash.map UInt8.toNat))
    obtain ⟨hhash, -⟩ := spread_append_inj lt_of_mem_map_toNat lt_of_mem_map_toNat
      hshort (by omega) hfill
    obtain rfl := map_toNat_inj hhash
    rw [if_neg (hpadding.mpr (hregroup.mp h))]
    rfl

theorem decode_eq_ok_iff_deserialize : decode 1 s = .ok (hrp, version, hash) ↔
    ∃ data, deserialize 1 s = .ok (hrp, data) ∧ data.length ≠ 0 ∧ data.length ≤ 65 ∧
      (data.headD 0).toNat ≤ 31 ∧ convert (fun _ : Unit => data) () 0 8 () 1 5 false = .ok hash ∧
      2 ≤ hash.length ∧ hash.length ≤ 40 ∧ version = (data.headD 0).toNat := by
  simp only [decode, check_eq_ok, bind_eq_ok, not_or, not_lt, pure, Except.pure, Except.ok.injEq,
    Prod.mk.injEq, Prod.exists, and_assoc, ne_eq]
  constructor
  · rintro ⟨_, data, hdata, hne, hmax, hversion, _, hconvert, hmin, hmax', rfl, rfl, rfl⟩
    exact ⟨data, hdata, hne, hmax, hversion, hconvert, hmin, hmax', rfl⟩
  · rintro ⟨data, hdata, hne, hmax, hversion, hconvert, hmin, hmax', rfl⟩
    exact ⟨hrp, data, hdata, hne, hmax, hversion, hash, hconvert, hmin, hmax', rfl, rfl, rfl⟩

/-- What an address of at most ninety characters can be of: a human-readable part, a version
below thirty-two and a hash of two to forty bytes. -/
structure Addressable (hrp : Text) (version : Nat) (hash : List UInt8) : Prop where
  humanReadable : HumanReadable hrp
  version_lt : version < 32
  two_le : 2 ≤ hash.length
  le_forty : hash.length ≤ 40
  length_le : (encodeAddress hrp version hash).length ≤ 90

theorem lt_of_mem_versionedData (hversion : version < 32) :
    ∀ v ∈ versionedData version hash, v < 32 :=
  List.forall_mem_cons.mpr ⟨hversion, lt_of_mem_regroup (by decide) (by decide)⟩

theorem length_encodeAddress : (encodeAddress hrp version hash).length =
    hrp.length + 8 + (hash.length * 8 + 4) / 5 := by
  rw [encodeAddress, encode, List.length_append, List.length_cons, List.length_map,
    List.length_append, length_createChecksum, versionedData, List.length_cons, length_regroup,
    List.length_map]
  omega

/-- Addresses are written without letters in upper case. -/
theorem not_isUpper_of_mem_encode {vs : List Nat} (hhrp : HumanReadable hrp)
    (hvs : ∀ v ∈ vs, v < 32) : ∀ c ∈ encode hrp vs, ¬IsUpper c := by
  have hchars : ∀ c ∈ (vs ++ createChecksum hrp vs).map char, c ∈ charset :=
    mem_charset_of_mem_map_char (List.forall_mem_append.mpr ⟨hvs, lt_of_mem_createChecksum⟩)
  simp only [encode, List.forall_mem_append, List.forall_mem_cons]
  exact ⟨fun c hc => (hhrp.2 c hc).2, by decide,
    fun c hc => (printable_of_mem_charset (hchars c hc)).2⟩

/-- `Decode` accepts an address in either case, and nothing else. -/
theorem decode_eq_ok_iff : decode 1 s = .ok (hrp, version, hash) ↔
    Addressable hrp version hash ∧ (s = encodeAddress hrp version hash ∨
      s = toUpper (encodeAddress hrp version hash)) := by
  have hcasing (hhrp : HumanReadable hrp) (hversion : version < 32) :
      Unmixed s ∧ toLower s = encodeAddress hrp version hash ↔
        s = encodeAddress hrp version hash ∨ s = toUpper (encodeAddress hrp version hash) :=
    unmixed_and_toLower_eq_iff
      (not_isUpper_of_mem_encode hhrp (lt_of_mem_versionedData hversion))
  rw [decode_eq_ok_iff_deserialize]
  constructor
  · rintro ⟨data, hdeserialize, hne, -, hversion, hconvert, hmin, hmax, rfl⟩
    obtain ⟨-, hlength, hcase, hhrp, hlt, hlower⟩ := deserialize_eq_ok_iff.mp hdeserialize
    obtain ⟨b, tail, rfl⟩ := List.exists_cons_of_ne_nil (List.ne_nil_of_length_pos
      (Nat.pos_of_ne_zero hne))
    have hdata : (b :: tail).map UInt8.toNat = versionedData b.toNat hash := by
      rw [versionedData, ← (convert_data_iff hlt).mp hconvert]
      rfl
    rw [hdata] at hlower
    have hversion' : b.toNat < 32 := Nat.lt_succ_of_le hversion
    refine ⟨⟨hhrp, hversion', hmin, hmax, ?_⟩, (hcasing hhrp hversion').mp ⟨hcase, hlower⟩⟩
    rw [encodeAddress, List.headD_cons, ← hlower, length_toLower]
    exact hlength
  · rintro ⟨⟨hhrp, hversion, hmin, hmax, hlength⟩, hs⟩
    obtain ⟨hcase, hlower⟩ := (hcasing hhrp hversion).mpr hs
    have hlt : ∀ v ∈ versionedData version hash, v < 32 := lt_of_mem_versionedData hversion
    have hdata := map_toNat_map_ofNat fun v hv => (hlt v hv).trans (by decide)
    have hdata' : ∀ b ∈ (versionedData version hash).map UInt8.ofNat, b.toNat < 32 := by
      intro b hb
      apply hlt
      rw [← hdata]
      exact List.mem_map_of_mem hb
    have hcount : s.length = hrp.length + 8 + (hash.length * 8 + 4) / 5 := by
      rw [← length_toLower, hlower]
      exact length_encodeAddress
    have hpos := List.length_pos_of_ne_nil hhrp.1
    rw [length_encodeAddress] at hlength
    have hwidth : ((versionedData version hash).map UInt8.ofNat).length =
        (hash.length * 8 + 4) / 5 + 1 := by
      rw [List.length_map, versionedData, List.length_cons, length_regroup, List.length_map]
    have hhead : (((versionedData version hash).map UInt8.ofNat).headD 0).toNat = version :=
      UInt8.toNat_ofNat_of_lt' (hversion.trans (by decide))
    refine ⟨(versionedData version hash).map UInt8.ofNat, deserialize_eq_ok_iff.mpr
      ⟨by omega, by omega, hcase, hhrp, hdata', by rw [hdata]; exact hlower⟩, by omega, by omega,
      by omega, (convert_data_iff hdata').mpr ?_, hmin, hmax, hhead.symm⟩
    rw [List.map_drop, hdata]
    rfl

/-- What is accepted without letters in upper case is the address of what it decodes to. -/
theorem eq_encodeAddress_of_decode (h : decode 1 s = .ok (hrp, version, hash))
    (hs : ∀ c ∈ s, ¬IsUpper c) : s = encodeAddress hrp version hash := by
  obtain ⟨haddress, heq | heq⟩ := decode_eq_ok_iff.mp h
  · exact heq
  · have hlower := (unmixed_and_toLower_eq_iff (not_isUpper_of_mem_encode haddress.humanReadable
      (lt_of_mem_versionedData haddress.version_lt))).mpr (.inr heq)
    exact (toLower_of_not_isUpper hs).symm.trans hlower.2

/-- The decoder accepts the bech32 addresses of what is addressable, in one case, and gives what
they are of; it converts in place what it would into another array; and it tells addresses
in lower case apart. -/
theorem decode_exact :
    (∀ (s hrp : Text) (version : Nat) (hash : List UInt8),
      decode defaultChecksum s = .ok (hrp, version, hash) ↔
        Addressable hrp version hash ∧ (s = encodeAddress hrp version hash ∨
          s = toUpper (encodeAddress hrp version hash))) ∧
    (∀ (ρ : Type) [DecidableEq ρ] (arrays : ρ → List UInt8) (fresh data : ρ), fresh ≠ data →
      ((arrays data).length * 5 + 7) / 8 ≤ (arrays fresh).length →
      convert arrays data 0 8 data 1 5 false = convert arrays fresh 0 8 data 1 5 false) ∧
    ∀ (s t : Text) (result : Text × Nat × List UInt8), (∀ c ∈ s, ¬IsUpper c) →
      (∀ c ∈ t, ¬IsUpper c) → decode defaultChecksum s = .ok result →
      decode defaultChecksum t = .ok result → s = t := by
  refine ⟨fun s hrp version hash => decode_eq_ok_iff,
    fun ρ _ arrays fresh data hne hfits => convert_in_place arrays hne hfits, ?_⟩
  rintro s t ⟨hrp, version, hash⟩ hs ht hdecode hdecode'
  rw [eq_encodeAddress_of_decode hdecode hs, eq_encodeAddress_of_decode hdecode' ht]

/-- An address in upper case. -/
theorem decode_exact_upper :
    decode defaultChecksum (text "BC1QW508D6QEJXTDG4Y5R3ZARVARY0C5XW7KV8F3T4") =
      .ok (text "bc", 0, [0x75, 0x1e, 0x76, 0xe8, 0x19, 0x91, 0x96, 0xd4, 0x54, 0x94, 0x1c, 0x45,
        0xd1, 0xb3, 0xa3, 0x23, 0xf1, 0x43, 0x3b, 0xd6]) := by
  have hhrp : HumanReadable (text "bc") := ⟨by decide, by simp [text, Printable, IsUpper]⟩
  refine (decode_exact.1 _ _ _ _).mpr
    ⟨⟨hhrp, by decide, by decide, by decide, by decide +kernel⟩, .inr (by decide +kernel)⟩

end Decode

end HashStorm.Handshake.Bech32Decoder
