import HashStorm.Blockchain.Kaspa.Bech32

/-!
# Which Kaspa addresses are written again as they were read

`Encode` is read back by `Decode`. The other way `Decode` reads symbols that `Encode`
does not write: the bits beyond the last whole byte may be anything, and as many as
seven. Where they are less than a symbol and zero, the address is written again as it
was read.
-/

namespace HashStorm.Kaspa.KaspaBech32

open Stratum Bitcoin Regroup LinearChecksum HashStorm.Bech32

section Conversion

variable {type : ConversionType} {r : Regrouping} {ds q : List Nat} {data : List UInt8}

/-- The locals between the bytes hold the digits that were taken: those of the bytes that are
written, and those of the next byte. -/
structure Regrouping.Holds (toBits : Nat) (r : Regrouping) (ds : List Nat) (p : List Nat) :
    Prop where
  spread_eq : spread 2 toBits (r.regrouped.map UInt8.toNat) ++ p = ds
  length_eq : p.length = r.filledBits
  filled_lt : r.filledBits < toBits
  next_eq : r.nextByte.toNat = value 2 p
  lt : ∀ b ∈ r.regrouped, b.toNat < 2 ^ toBits

/-- The bits that are taken next are put behind those of the next byte. -/
theorem nextByte_eq {next shiftedB : UInt8} {p q : List Nat} {taken : Nat} (hp : ∀ d ∈ p, d < 2)
    (hq : ∀ d ∈ q, d < 2) (hnext : next.toNat = value 2 p) (hlen : q.length ≤ 8)
    (hshifted : shiftedB.toNat = value 2 q * 2 ^ (8 - q.length)) (htaken : taken ≤ q.length)
    (hroom : p.length + taken ≤ 8) :
    (UInt8.ofNat ((next.toNat <<< taken) ||| (shiftedB.toNat >>> (8 - taken)))).toNat =
      value 2 (p ++ q.take taken) := by
  have htake : (q.take taken).length = taken := List.length_take_of_le htaken
  have hdrop : (q.drop taken).length = q.length - taken := List.length_drop
  have hhead : ∀ d ∈ q.take taken, d < 2 := fun d hd => hq d (List.mem_of_mem_take hd)
  have htop : shiftedB.toNat >>> (8 - taken) = value 2 (q.take taken) := by
    have hexp : 8 - taken = 8 - q.length + (q.drop taken).length := by omega
    have hdiv : value 2 (q.take taken ++ q.drop taken) / 2 ^ (q.drop taken).length =
        value 2 (q.take taken) :=
      value_append_div (by decide) fun d hd => hq d (List.mem_of_mem_drop hd)
    rw [List.take_append_drop] at hdiv
    rw [Nat.shiftRight_eq_div_pow, hexp, hshifted, Nat.pow_add, ← Nat.div_div_eq_div_mul,
      Nat.mul_div_cancel _ (Nat.two_pow_pos _), hdiv]
  have hlt : value 2 (q.take taken) < 2 ^ taken := by
    have hvalue := value_lt (by decide) hhead
    rwa [htake] at hvalue
  have hsum : value 2 p * 2 ^ taken + value 2 (q.take taken) = value 2 (p ++ q.take taken) := by
    rw [value_append, htake]
  have hbyte : value 2 (p ++ q.take taken) < 2 ^ 8 := by
    have hvalue := value_lt (by decide) (List.forall_mem_append.mpr ⟨hp, hhead⟩)
    rw [List.length_append, htake] at hvalue
    exact hvalue.trans_le (Nat.pow_le_pow_right (by decide) hroom)
  rw [htop, Nat.shiftLeft_eq, hnext, Nat.mul_comm, ← Nat.two_pow_add_eq_or_of_lt hlt, Nat.mul_comm,
    hsum, UInt8.toNat_ofNat_of_lt' hbyte]

/-- The bits that are not taken move up. -/
theorem shifted_eq {shiftedB : UInt8} {q : List Nat} {taken : Nat} (hq : ∀ d ∈ q, d < 2)
    (hlen : q.length ≤ 8) (hshifted : shiftedB.toNat = value 2 q * 2 ^ (8 - q.length))
    (htaken : taken ≤ q.length) :
    (UInt8.ofNat (shiftedB.toNat <<< taken)).toNat =
      value 2 (q.drop taken) * 2 ^ (8 - (q.drop taken).length) := by
  have hdrop : (q.drop taken).length = q.length - taken := List.length_drop
  have hexp : 8 - q.length + taken = 8 - (q.drop taken).length := by omega
  have hpow : (2 : Nat) ^ 8 = 2 ^ (q.drop taken).length * 2 ^ (8 - (q.drop taken).length) := by
    rw [← Nat.pow_add, Nat.add_sub_of_le (by omega)]
  have hmod : value 2 (q.take taken ++ q.drop taken) % 2 ^ (q.drop taken).length =
      value 2 (q.drop taken) :=
    value_append_mod (by decide) fun d hd => hq d (List.mem_of_mem_drop hd)
  rw [List.take_append_drop] at hmod
  rw [UInt8.toNat_ofNat', Nat.shiftLeft_eq, hshifted, Nat.mul_assoc, ← Nat.pow_add, hexp, hpow,
    Nat.mul_mod_mul_right, hmod]

/-- A group of bits that is written last spreads to its bits. -/
theorem spread_append_singleton {width : Nat} {bytes : List UInt8} {byte : UInt8} {bits : List Nat}
    (hbits : ∀ d ∈ bits, d < 2) (hwidth : bits.length = width) (hbyte : byte.toNat = value 2 bits) :
    spread 2 width ((bytes ++ [byte]).map UInt8.toNat) =
      spread 2 width (bytes.map UInt8.toNat) ++ bits := by
  have hdigits := digits_value (by decide) hbits
  rw [hwidth] at hdigits
  rw [List.map_append, spread_append, List.map_singleton, spread_cons, hbyte, hdigits, spread_nil,
    List.append_nil]

theorem lt_append_singleton {width : Nat} {bytes : List UInt8} {byte : UInt8} {bits : List Nat}
    (hbits : ∀ d ∈ bits, d < 2) (hwidth : bits.length = width) (hbyte : byte.toNat = value 2 bits)
    (hbytes : ∀ b ∈ bytes, b.toNat < 2 ^ width) : ∀ b ∈ bytes ++ [byte], b.toNat < 2 ^ width := by
  rw [List.forall_mem_append, List.forall_mem_singleton, hbyte, ← hwidth]
  exact ⟨hwidth ▸ hbytes, value_lt (by decide) hbits⟩

/-- The inner loop takes the bits of a byte, of which there are as many as rounds. -/
theorem Regrouping.Holds.extract {p : List Nat} {fuel : Nat} {shiftedB : UInt8}
    (h : r.Holds type.toBits ds p) (hto : type.toBits ≤ 8) (hp : ∀ d ∈ p, d < 2)
    (hq : ∀ d ∈ q, d < 2) (hlen : q.length ≤ 8) (hfuel : q.length ≤ fuel)
    (hshifted : shiftedB.toNat = value 2 q * 2 ^ (8 - q.length)) :
    ∃ p', (∀ d ∈ p', d < 2) ∧
      (KaspaBech32.extract type fuel shiftedB q.length r).Holds type.toBits (ds ++ q) p' := by
  induction fuel generalizing q r ds p shiftedB with
  | zero =>
    obtain rfl : q = [] := List.length_eq_zero_iff.mp (by omega)
    exact ⟨p, hp, by rw [List.append_nil]; exact h⟩
  | succ fuel ih =>
    rw [KaspaBech32.extract]
    by_cases hmore : 0 < q.length
    · rw [if_pos hmore]
      obtain ⟨taken, htaken⟩ : ∃ taken, (if q.length < type.toBits - r.filledBits then q.length
        else type.toBits - r.filledBits) = taken := ⟨_, rfl⟩
      have hfilled := h.filled_lt
      have hbounds : 0 < taken ∧ taken ≤ q.length ∧ r.filledBits + taken ≤ type.toBits := by
        rw [← htaken]
        split <;> omega
      obtain ⟨hpos, hle, hroom⟩ := hbounds
      have hlength := h.length_eq
      have hdrop : (q.drop taken).length = q.length - taken := List.length_drop
      have htake : (q.take taken).length = taken := List.length_take_of_le hle
      have hbyte := nextByte_eq hp hq h.next_eq hlen hshifted hle (by omega)
      have hnext : ∀ d ∈ p ++ q.take taken, d < 2 :=
        List.forall_mem_append.mpr ⟨hp, fun d hd => hq d (List.mem_of_mem_take hd)⟩
      have hrest : ∀ d ∈ q.drop taken, d < 2 := fun d hd => hq d (List.mem_of_mem_drop hd)
      have hshifted' := shifted_eq hq hlen hshifted hle
      have hds : ds ++ q.take taken ++ q.drop taken = ds ++ q := by
        rw [List.append_assoc, List.take_append_drop]
      simp only [htaken]
      rw [← hdrop, ← hds]
      by_cases hfull : r.filledBits + taken = type.toBits
      · rw [if_pos hfull]
        have hwidth : (p ++ q.take taken).length = type.toBits := by
          rw [List.length_append, htake, hlength, hfull]
        refine ih ⟨?_, rfl, Nat.zero_lt_of_lt hfilled, rfl,
          lt_append_singleton hnext hwidth hbyte h.lt⟩ (List.forall_mem_nil _) hrest
          (by omega) (by omega) hshifted'
        rw [spread_append_singleton hnext hwidth hbyte, List.append_nil, ← List.append_assoc,
          h.spread_eq]
      · rw [if_neg hfull]
        refine ih ⟨?_, ?_, by simp only; omega, hbyte, h.lt⟩ hnext hrest (by omega) (by omega)
          hshifted'
        · rw [← List.append_assoc, h.spread_eq]
        · rw [List.length_append, htake, hlength]
    · obtain rfl : q = [] := List.length_eq_zero_iff.mp (by omega)
      rw [if_neg hmore]
      exact ⟨p, hp, by rw [List.append_nil]; exact h⟩

/-- Each byte is taken bit by bit. -/
theorem Regrouping.Holds.convertByte {p : List Nat} (h : r.Holds type.toBits ds p)
    (hto : type.toBits ≤ 8) (hfrom : type.fromBits ≤ 8) (hp : ∀ d ∈ p, d < 2) (b : UInt8) :
    ∃ p', (∀ d ∈ p', d < 2) ∧ (KaspaBech32.convertByte type r b).Holds type.toBits
      (ds ++ digits 2 type.fromBits b.toNat) p' := by
  have hdigits : ∀ d ∈ digits 2 type.fromBits b.toNat, d < 2 := lt_of_mem_digits (by decide)
  have hshifted : (UInt8.ofNat (b.toNat <<< (8 - type.fromBits))).toNat =
      value 2 (digits 2 type.fromBits b.toNat) *
        2 ^ (8 - (digits 2 type.fromBits b.toNat).length) := by
    have hpow : (2 : Nat) ^ 8 = 2 ^ type.fromBits * 2 ^ (8 - type.fromBits) := by
      rw [← Nat.pow_add, Nat.add_sub_of_le hfrom]
    rw [UInt8.toNat_ofNat', Nat.shiftLeft_eq, length_digits, value_digits, hpow,
      Nat.mul_mod_mul_right]
  have hextract := h.extract hto hp hdigits (by rw [length_digits]; exact hfrom) (by
    rw [length_digits]) hshifted
  rwa [length_digits] at hextract

/-- The loops take the digits of all bytes. -/
theorem holds_foldl (type : ConversionType) (data : List UInt8) {p : List Nat}
    (hto : type.toBits ≤ 8) (hfrom : type.fromBits ≤ 8) (h : r.Holds type.toBits ds p)
    (hp : ∀ d ∈ p, d < 2) :
    ∃ p', (∀ d ∈ p', d < 2) ∧ (data.foldl (KaspaBech32.convertByte type) r).Holds type.toBits
      (ds ++ spread 2 type.fromBits (data.map UInt8.toNat)) p' := by
  induction data generalizing r ds p with
  | nil => exact ⟨p, hp, by simpa using h⟩
  | cons b data ih =>
    obtain ⟨p', hp', h'⟩ := h.convertByte hto hfrom hp b
    rw [List.foldl_cons, List.map_cons, spread_cons, ← List.append_assoc]
    exact ih h' hp'

theorem holds_empty {toBits : Nat} (h : 0 < toBits) :
    (⟨[], 0, 0⟩ : Regrouping).Holds toBits [] [] :=
  ⟨rfl, rfl, h, rfl, List.forall_mem_nil _⟩

/-- Bytes are regrouped to symbols with a filling of zeros. -/
theorem convertBits_eightToFiveBits (data : List UInt8) :
    (convertBits data eightToFiveBits).map UInt8.toNat = regroup 2 8 5 (data.map UInt8.toNat) := by
  obtain ⟨p, hp, hspread, hlen, hfilled, hnext, hlt⟩ := holds_foldl eightToFiveBits data
    (by decide) (by decide) (holds_empty (by decide)) (List.forall_mem_nil _)
  rw [List.nil_append] at hspread
  simp only [convertBits]
  generalize data.foldl (KaspaBech32.convertByte eightToFiveBits) ⟨[], 0, 0⟩ = r at *
  change r.filledBits < 5 at hfilled
  change ∀ b ∈ r.regrouped, b.toNat < 2 ^ 5 at hlt
  change spread 2 5 (r.regrouped.map UInt8.toNat) ++ p = spread 2 8 (data.map UInt8.toNat)
    at hspread
  by_cases hleft : 0 < r.filledBits
  · rw [if_pos ⟨rfl, hleft⟩]
    have hfilling : ∀ d ∈ List.replicate (5 - r.filledBits) 0, d < 2 := by
      intro d hd
      rw [List.eq_of_mem_replicate hd]
      decide
    have hlast := List.forall_mem_append.mpr ⟨hp, hfilling⟩
    have hwidth : (p ++ List.replicate (5 - r.filledBits) 0).length = 5 := by
      rw [List.length_append, List.length_replicate, hlen]
      omega
    have hlt' := value_lt (by decide) hlast
    rw [hwidth] at hlt'
    have hbyte :
        (UInt8.ofNat (r.nextByte.toNat <<< (eightToFiveBits.toBits - r.filledBits))).toNat =
          value 2 (p ++ List.replicate (5 - r.filledBits) 0) := by
      have hshift : r.nextByte.toNat <<< (5 - r.filledBits) =
          value 2 (p ++ List.replicate (5 - r.filledBits) 0) := by
        rw [Nat.shiftLeft_eq, hnext, value_append, value_replicate_zero, List.length_replicate,
          Nat.add_zero]
      exact (congrArg (fun n => (UInt8.ofNat n).toNat) hshift).trans
        (UInt8.toNat_ofNat_of_lt' (hlt'.trans (by decide)))
    apply (eq_regroup_iff (by decide) (by decide) ?_ ?_).mpr
      ⟨?_, fun d hd => List.eq_of_mem_replicate hd⟩
    · exact 5 - r.filledBits
    · rw [List.forall_mem_map]
      exact lt_append_singleton hlast hwidth hbyte hlt
    · rw [spread_append_singleton hlast hwidth hbyte, ← List.append_assoc, hspread]
    · rw [List.length_replicate]
      omega
  · rw [if_neg fun h => hleft h.2]
    obtain rfl : p = [] := List.length_eq_zero_iff.mp (by omega)
    refine (eq_regroup_iff (by decide) (by decide) ?_ ?_).mpr ⟨by decide, List.forall_mem_nil _⟩
    · simpa only [List.forall_mem_map] using hlt
    · rw [← hspread]
      simp

/-- Symbols are regrouped to bytes, and less than a byte is dropped. -/
theorem convertBits_fiveToEightBits (data : List UInt8) :
    ∃ p : List Nat, p.length < 8 ∧ (∀ d ∈ p, d < 2) ∧
      spread 2 8 ((convertBits data fiveToEightBits).map UInt8.toNat) ++ p =
        spread 2 5 (data.map UInt8.toNat) := by
  obtain ⟨p, hp, h⟩ := holds_foldl fiveToEightBits data (by decide) (by decide)
    (holds_empty (by decide)) (List.forall_mem_nil _)
  exact ⟨p, by rw [h.length_eq]; exact h.filled_lt, hp, h.spread_eq⟩

end Conversion

section Text

variable {s hrp p d : Text} {data : List UInt8}

theorem encodeToBase32_eq (h : ∀ b ∈ data, b.toNat < 32) :
    encodeToBase32 data = (data.map UInt8.toNat).map char := by
  have hany : ¬data.any (fun b => charset.length ≤ b.toNat) = true := by
    simp only [List.any_eq_true, decide_eq_true_eq, not_exists, not_and, not_le]
    exact h
  rw [encodeToBase32, if_neg hany, List.map_map]
  rfl

/-- The symbols are those whose characters are read. -/
theorem decodeFromBase32_eq_ok_iff {cs : Text} : decodeFromBase32 cs = .ok data ↔
    (∀ b ∈ data, b.toNat < 32) ∧ cs = (data.map UInt8.toNat).map char := by
  induction cs generalizing data with
  | nil =>
    constructor
    · rintro ⟨⟩
      exact ⟨List.forall_mem_nil _, rfl⟩
    · rintro ⟨-, h⟩
      obtain rfl : data = [] := by simpa using h.symm
      rfl
  | cons c cs ih =>
    rw [decodeFromBase32]
    cases hindex : charset.idxOf? c with
    | none =>
      rw [List.idxOf?_eq_none_iff] at hindex
      simp only [reduceCtorEq, false_iff]
      rintro ⟨hdata, hcs⟩
      obtain ⟨b, data, rfl⟩ := List.exists_cons_of_ne_nil
        (show data ≠ [] by rintro rfl; cases hcs)
      simp only [List.map_cons, List.cons.injEq] at hcs
      exact hindex (hcs.1 ▸ char_mem (hdata b List.mem_cons_self))
    | some i =>
      obtain ⟨hi, hchar, -⟩ := List.idxOf?_eq_some_iff.mp hindex
      have hi' : i < 32 := hi
      have hc : char i = c := by
        rw [← hchar, char, List.getD_eq_getElem _ _ (by simpa using hi')]
        rfl
      have hbyte : (UInt8.ofNat i).toNat = i := UInt8.toNat_ofNat_of_lt' (hi'.trans (by decide))
      simp only [bind_eq_ok, pure, Except.pure, Except.ok.injEq, ih]
      constructor
      · rintro ⟨rest, ⟨hrest, rfl⟩, rfl⟩
        simp only [List.forall_mem_cons, List.map_cons, hbyte, hc]
        exact ⟨⟨hi', hrest⟩, trivial⟩
      · rintro ⟨hdata, hcs⟩
        obtain ⟨b, data, rfl⟩ := List.exists_cons_of_ne_nil
          (show data ≠ [] by rintro rfl; cases hcs)
        simp only [List.forall_mem_cons] at hdata
        simp only [List.map_cons, List.cons.injEq] at hcs
        have hb : b.toNat = i := char_inj hdata.1 hi' (hcs.1.symm.trans hc.symm)
        exact ⟨data, ⟨hdata.2, hcs.2⟩, by rw [← hb, UInt8.ofNat_toNat]⟩

theorem lastIndexOf_append {c : UInt16} (h : c ∉ d) : lastIndexOf c (p ++ c :: d) = p.length := by
  have hreverse : (p ++ c :: d).reverse.idxOf? c = some d.length := by
    have hsplit : (p ++ c :: d).reverse = d.reverse ++ c :: p.reverse := by simp
    rw [hsplit, List.idxOf?_eq_some_iff]
    refine ⟨by simp, by simp, fun j hj heq => h ?_⟩
    rw [List.getElem_append_left (by simpa using hj)] at heq
    rw [← List.mem_reverse, ← heq]
    exact List.getElem_mem _
  rw [lastIndexOf, hreverse]
  simp only [List.length_append, List.length_cons]
  omega

theorem lastIndexOf_of_not_mem {c : UInt16} (h : c ∉ s) : lastIndexOf c s = -1 := by
  have hreverse : s.reverse.idxOf? c = none := by simpa using h
  rw [lastIndexOf, hreverse]

theorem checkCharacters_eq_ok_iff {u : Unit} :
    checkCharacters s = .ok u ↔ ∀ c ∈ s, Printable c := by
  induction s with
  | nil => simp [checkCharacters]
  | cons c s ih =>
    rw [checkCharacters, List.forall_mem_cons, ← ih]
    have hprintable : Printable c ↔ ¬(c < 33 ∨ 126 < c) := by
      simp only [Printable, not_or, UInt16.not_lt]
    rw [hprintable]
    by_cases h : c < 33 ∨ 126 < c
    · simp [h]
    · rw [if_neg h, and_iff_right h]

/-- What the text of an encoding is behind the colon. -/
theorem encodeInternal_eq (h : ∀ b ∈ data, b.toNat < 32) : encodeInternal hrp data =
    hrp ++ 58 :: ((data ++ calculateChecksum hrp data).map UInt8.toNat).map char := by
  rw [encodeInternal, encodeToBase32_eq (List.forall_mem_append.mpr
    ⟨h, lt_of_mem_calculateChecksum h⟩), List.append_assoc]
  rfl

theorem colon_not_mem_charset : (58 : UInt16) ∉ HashStorm.Bech32.charset := by decide

theorem decodeInternal_eq_ok_iff_steps : decodeInternal s = .ok (hrp, data) ↔
    checksumLength + 2 ≤ s.length ∧ (∀ c ∈ s, Printable c) ∧ (s = toLower s ∨ s = toUpper s) ∧
      1 ≤ lastIndexOf 58 (toLower s) ∧
      lastIndexOf 58 (toLower s) + checksumLength + 1 ≤ (toLower s).length ∧
      ∃ decoded, decodeFromBase32 ((toLower s).drop ((lastIndexOf 58 (toLower s)).toNat + 1)) =
          .ok decoded ∧
        verifyChecksum ((toLower s).take (lastIndexOf 58 (toLower s)).toNat) decoded = true ∧
        (toLower s).take (lastIndexOf 58 (toLower s)).toNat = hrp ∧
        decoded.take (decoded.length - checksumLength) = data := by
  simp only [decodeInternal, check_eq_ok, bind_eq_ok]
  simp only [not_or, not_lt, pure, Except.pure, Except.ok.injEq, Prod.mk.injEq, and_assoc, not_not,
    ne_eq, checkCharacters_eq_ok_iff, Classical.not_and_iff_not_or_not, exists_const]

/-- What is accepted is, in one case, an encoding of symbols. -/
theorem decodeInternal_eq_ok_iff : decodeInternal s = .ok (hrp, data) ↔
    10 ≤ s.length ∧ (∀ c ∈ s, Printable c) ∧ (s = toLower s ∨ s = toUpper s) ∧ hrp ≠ [] ∧
      (∀ b ∈ data, b.toNat < 32) ∧ toLower s = encodeInternal hrp data := by
  rw [decodeInternal_eq_ok_iff_steps]
  constructor
  · rintro ⟨hmin, hprintable, hcase, hcolon, hlength, decoded, hdecoded, hverify, rfl, rfl⟩
    have hmem : 58 ∈ toLower s := by
      by_contra hmem
      rw [lastIndexOf_of_not_mem hmem] at hcolon
      omega
    obtain ⟨p, d, hsplit, hd⟩ := exists_last_occurrence hmem
    have hindex : lastIndexOf 58 (toLower s) = p.length := by rw [hsplit, lastIndexOf_append hd]
    have htake : (toLower s).take p.length = p := by rw [hsplit, List.take_left]
    have hdrop : (toLower s).drop (p.length + 1) = d := by rw [hsplit]; simp
    have htotal : (toLower s).length = p.length + d.length + 1 := by rw [hsplit]; simp; omega
    simp only [hindex, Int.toNat_natCast, htake, hdrop, checksumLength]
      at hlength hcolon hdecoded hverify ⊢
    obtain ⟨hlt, hchars⟩ := decodeFromBase32_eq_ok_iff.mp hdecoded
    have hcount : d.length = decoded.length := by simpa using congrArg List.length hchars
    have hinit : ∀ b ∈ decoded.take (decoded.length - 8), b.toNat < 32 :=
      fun b hb => hlt b (List.mem_of_mem_take hb)
    have hcheck : (decoded.drop (decoded.length - 8)).length = 8 := by
      rw [List.length_drop]
      omega
    rw [← List.take_append_drop (decoded.length - 8) decoded, verifyChecksum_append_iff hinit
      (fun b hb => hlt b (List.mem_of_mem_drop hb)) hcheck] at hverify
    refine ⟨hmin, hprintable, hcase, ?_, hinit, ?_⟩
    · rintro rfl
      simp at hcolon
    · rw [encodeInternal_eq hinit, ← hverify, List.take_append_drop, hsplit, hchars]
  · rintro ⟨hmin, hprintable, hcase, hne, hlt, hlower⟩
    have hall : ∀ b ∈ data ++ calculateChecksum hrp data, b.toNat < 32 :=
      List.forall_mem_append.mpr ⟨hlt, lt_of_mem_calculateChecksum hlt⟩
    obtain ⟨d, hd⟩ : ∃ d, ((data ++ calculateChecksum hrp data).map UInt8.toNat).map char = d :=
      ⟨_, rfl⟩
    have hsplit : toLower s = hrp ++ 58 :: d := by rw [hlower, encodeInternal_eq hlt, hd]
    have hcolon : 58 ∉ d := by
      intro h
      rw [← hd] at h
      refine colon_not_mem_charset (mem_charset_of_mem_map_char ?_ _ h)
      simpa only [List.forall_mem_map] using hall
    have hindex : lastIndexOf 58 (toLower s) = hrp.length := by
      rw [hsplit, lastIndexOf_append hcolon]
    have htake : (toLower s).take hrp.length = hrp := by rw [hsplit, List.take_left]
    have hdrop : (toLower s).drop (hrp.length + 1) = d := by rw [hsplit]; simp
    have hcount : d.length = data.length + 8 := by simpa using (congrArg List.length hd).symm
    have htotal : (toLower s).length = hrp.length + d.length + 1 := by rw [hsplit]; simp; omega
    have hpos := List.length_pos_of_ne_nil hne
    simp only [hindex, Int.toNat_natCast, htake, hdrop, checksumLength]
    exact ⟨hmin, hprintable, hcase, by omega, by omega, data ++ calculateChecksum hrp data,
      decodeFromBase32_eq_ok_iff.mpr ⟨hall, hd.symm⟩,
      (verifyChecksum_append_iff hlt (lt_of_mem_calculateChecksum hlt)
        (length_calculateChecksum _ _)).mpr rfl, trivial, by simp⟩

/-- Symbols are told from their encoding. -/
theorem encodeInternal_inj {data' : List UInt8} (h : ∀ b ∈ data, b.toNat < 32)
    (h' : ∀ b ∈ data', b.toNat < 32) (heq : encodeInternal hrp data = encodeInternal hrp data') :
    data = data' := by
  rw [encodeInternal_eq h, encodeInternal_eq h'] at heq
  have hchars := List.tail_eq_of_cons_eq (List.append_cancel_left heq)
  have hlt : ∀ v ∈ (data ++ calculateChecksum hrp data).map UInt8.toNat, v < 32 := by
    rw [List.forall_mem_map]
    exact List.forall_mem_append.mpr ⟨h, lt_of_mem_calculateChecksum h⟩
  have hlt' : ∀ v ∈ (data' ++ calculateChecksum hrp data').map UInt8.toNat, v < 32 := by
    rw [List.forall_mem_map]
    exact List.forall_mem_append.mpr ⟨h', lt_of_mem_calculateChecksum h'⟩
  have hall := map_toNat_inj (map_char_inj hlt hlt' hchars)
  exact (List.append_inj' hall (by simp)).1

end Text

/-- The symbols of an address: those of the characters behind the last colon, without the
checksum. -/
def symbols (s : Text) : List Nat :=
  ((((toLower s).reverse.takeWhile fun c => c ≠ 58).drop 8).reverse).map fun c =>
    charset.idxOf c

/-- The bits of the symbols that are left over after whole bytes. -/
def leftover (s : Text) : List Nat :=
  (spread 2 5 (symbols s)).drop ((spread 2 5 (symbols s)).length / 8 * 8)

/-- The bits that are left over are less than a symbol, and zero. -/
def ZeroPadded (s : Text) : Prop := (leftover s).length < 5 ∧ ∀ d ∈ leftover s, d = 0

section Codec

variable {s hrp : Text} {data payload : List UInt8} {version : UInt8}

theorem decode_eq_ok_iff : decode s = .ok (hrp, payload, version) ↔
    ∃ data, decodeInternal s = .ok (hrp, data) ∧
      convertBits data fiveToEightBits = version :: payload := by
  rw [decode, bind_eq_ok]
  constructor
  · rintro ⟨⟨hrp', data⟩, hdecode, hresult⟩
    cases hconvert : convertBits data fiveToEightBits with
    | nil =>
      simp only [hconvert] at hresult
      cases hresult
    | cons version' payload' =>
      simp only [hconvert] at hresult
      cases hresult
      exact ⟨data, hdecode, hconvert⟩
  · rintro ⟨data, hdecode, hconvert⟩
    exact ⟨(hrp, data), hdecode, by simp only [hconvert]; rfl⟩

/-- The symbols of an address are those that are decoded. -/
theorem symbols_eq (hlt : ∀ b ∈ data, b.toNat < 32) (h : toLower s = encodeInternal hrp data) :
    symbols s = data.map UInt8.toNat := by
  have hvs : ∀ v ∈ data.map UInt8.toNat, v < 32 := by simpa only [List.forall_mem_map] using hlt
  have hcheck : ∀ v ∈ (calculateChecksum hrp data).map UInt8.toNat, v < 32 := by
    simpa only [List.forall_mem_map] using lt_of_mem_calculateChecksum hlt
  have hreverse : (toLower s).reverse =
      (((calculateChecksum hrp data).map UInt8.toNat).map char).reverse ++
        ((data.map UInt8.toNat).map char).reverse ++ 58 :: hrp.reverse := by
    rw [h, encodeInternal_eq hlt]
    simp
  have hwhile : ∀ c ∈ (((calculateChecksum hrp data).map UInt8.toNat).map char).reverse ++
      ((data.map UInt8.toNat).map char).reverse, decide (c ≠ 58) = true := by
    intro c hc
    have hmem : c ∈ HashStorm.Bech32.charset := by
      rcases List.mem_append.mp hc with hc | hc
      · exact mem_charset_of_mem_map_char hcheck c (List.mem_reverse.mp hc)
      · exact mem_charset_of_mem_map_char hvs c (List.mem_reverse.mp hc)
    exact decide_eq_true fun heq => colon_not_mem_charset (heq ▸ hmem)
  rw [symbols, hreverse, List.takeWhile_append_of_pos hwhile, List.takeWhile_cons_of_neg (by simp),
    List.append_nil, List.drop_left' (by simp), List.reverse_reverse, List.map_map]
  refine (List.map_congr_left fun v hv => ?_).trans (List.map_id _)
  have hv' : v < HashStorm.Bech32.charset.length := by simpa using hvs v hv
  rw [Function.comp_apply, char, List.getD_eq_getElem _ _ hv']
  exact List.Nodup.idxOf_getElem nodup_charset v hv'

/-- What is left of the digits behind whole groups. -/
theorem drop_spread {xs rest ds : List Nat} {w : Nat} (h : spread 2 w xs ++ rest = ds)
    (hrest : rest.length < w) : ds.drop (ds.length / w * w) = rest := by
  have hlen : ds.length / w = xs.length := by
    rw [← h, List.length_append, length_spread]
    exact Nat.div_eq_of_lt_le (by omega) (by rw [Nat.add_mul]; omega)
  rw [hlen, ← h, List.drop_left' (length_spread 2 w xs)]

theorem convertBits_toNat_lt (data : List UInt8) :
    ∀ b ∈ convertBits data eightToFiveBits, b.toNat < 32 := by
  intro b hb
  have hmem := List.mem_map_of_mem (f := UInt8.toNat) hb
  rw [convertBits_eightToFiveBits] at hmem
  exact lt_of_mem_regroup (by decide) (by decide) _ hmem

/-- Regrouping to symbols and back gives the bytes. -/
theorem convertBits_convertBits (data : List UInt8) :
    convertBits (convertBits data eightToFiveBits) fiveToEightBits = data := by
  obtain ⟨p, hp, -, hspread⟩ := convertBits_fiveToEightBits (convertBits data eightToFiveBits)
  rw [convertBits_eightToFiveBits, spread_regroup (by decide) (by decide)] at hspread
  have hfilling := length_filling_lt (show 0 < 5 by decide) (spread 2 8 (data.map UInt8.toNat))
  exact map_toNat_inj (spread_append_inj lt_of_mem_map_toNat lt_of_mem_map_toNat hp (by omega)
    hspread).1

/-- `Encode` is read back. -/
theorem decode_encode (hhrp : HumanReadable hrp) (payload : List UInt8) (version : UInt8) :
    decode (encode hrp payload version) = .ok (hrp, payload, version) := by
  have hlt := convertBits_toNat_lt (version :: payload)
  have hchars : ∀ c ∈ encode hrp payload version, Printable c ∧ ¬IsUpper c := by
    rw [encode, encodeInternal_eq hlt]
    simp only [List.forall_mem_append, List.forall_mem_cons]
    refine ⟨hhrp.2, by decide, fun c hc => printable_of_mem_charset
      (mem_charset_of_mem_map_char ?_ c hc)⟩
    rw [List.forall_mem_map]
    exact List.forall_mem_append.mpr ⟨hlt, lt_of_mem_calculateChecksum hlt⟩
  have hlower : toLower (encode hrp payload version) = encode hrp payload version :=
    toLower_of_not_isUpper fun c hc => (hchars c hc).2
  have hpos := List.length_pos_of_ne_nil hhrp.1
  have hlength : 10 ≤ (encode hrp payload version).length := by
    rw [encode, encodeInternal_eq hlt]
    simp only [List.length_append, List.length_cons, List.length_map, length_calculateChecksum]
    omega
  exact decode_eq_ok_iff.mpr ⟨_, decodeInternal_eq_ok_iff.mpr ⟨hlength, fun c hc => (hchars c hc).1,
    .inl hlower.symm, hhrp.1, hlt, hlower⟩, convertBits_convertBits _⟩

/-- An address is written again as it was read, in lower case, if and only if the bits that are
left over are a filling. -/
theorem encode_eq_toLower_iff (h : decode s = .ok (hrp, payload, version)) :
    encode hrp payload version = toLower s ↔ ZeroPadded s := by
  obtain ⟨data, hdecode, hconvert⟩ := decode_eq_ok_iff.mp h
  obtain ⟨-, -, -, -, hlt, hlower⟩ := decodeInternal_eq_ok_iff.mp hdecode
  obtain ⟨p, hp, -, hspread⟩ := convertBits_fiveToEightBits data
  have hleftover : leftover s = p := by
    rw [leftover, symbols_eq hlt hlower]
    exact drop_spread hspread hp
  have hsymbols : ∀ y ∈ data.map UInt8.toNat, y < 2 ^ 5 := by
    rw [List.forall_mem_map]
    exact hlt
  rw [ZeroPadded, hleftover, ← eq_regroup_iff (by decide) (by decide) hsymbols hspread.symm, hlower,
    encode, ← hconvert, ← convertBits_eightToFiveBits]
  constructor
  · intro heq
    exact congrArg _ (encodeInternal_inj (convertBits_toNat_lt _) hlt heq).symm
  · intro heq
    rw [← map_toNat_inj heq]

/-- Every triple is read back as it was written. What is read is written again as it was, in
lower case, if and only if the bits that are left over are a filling; and addresses of which
they are one are told apart. -/
theorem codec_exact_iff (hrp : Text) (payload : List UInt8) (version : UInt8) :
    (HumanReadable hrp → decode (encode hrp payload version) = .ok (hrp, payload, version)) ∧
    (∀ s : Text, decode s = .ok (hrp, payload, version) →
      (encode hrp payload version = toLower s ↔ ZeroPadded s)) ∧
    ∀ s t : Text, decode s = .ok (hrp, payload, version) →
      decode t = .ok (hrp, payload, version) → ZeroPadded s → ZeroPadded t →
        toLower s = toLower t := by
  refine ⟨fun hhrp => decode_encode hhrp payload version, fun s h => encode_eq_toLower_iff h, ?_⟩
  intro s t hs ht hpadded hpadded'
  rw [← (encode_eq_toLower_iff hs).mpr hpadded, ← (encode_eq_toLower_iff ht).mpr hpadded']

/-- An address with a payload of thirty-two zeros. -/
theorem codec_exact_iff_zeros : decode (encode (text "kaspa") (List.replicate 32 0) 0) =
    .ok (text "kaspa", List.replicate 32 0, 0) :=
  (codec_exact_iff _ _ _).1 ⟨by decide, by simp [text, Printable, IsUpper]⟩

/-- Two addresses in lower case are read as the same, of which only one is written. -/
theorem left_over_bit_ignored :
    decode (text "kaspa:qqqqqqqqqqqqqqqqqqqqqqqqqqqqqqqqqqqqqqqqqqqqqqqqqqqqp99ukhzxc") =
        .ok (text "kaspa", List.replicate 32 0, 0) ∧
      decode (text "kaspa:qqqqqqqqqqqqqqqqqqqqqqqqqqqqqqqqqqqqqqqqqqqqqqqqqqqqqkx9awp4e") =
        .ok (text "kaspa", List.replicate 32 0, 0) ∧
      encode (text "kaspa") (List.replicate 32 0) 0 =
        text "kaspa:qqqqqqqqqqqqqqqqqqqqqqqqqqqqqqqqqqqqqqqqqqqqqqqqqqqqqkx9awp4e" := by
  decide +kernel

end Codec

end HashStorm.Kaspa.KaspaBech32
