import HashStorm.Lib.Bech32
import HashStorm.Stratum.Casing

/-!
# Handshake addresses

`HandshakeBech32Decoder` reads bech32 addresses. It takes the last digit one for the
separator while it looks for letters of either case, feeds the human-readable part
to the checksum in two passes, and regroups the symbols of the hash in the array
that they are in.
-/

namespace HashStorm.Handshake.Bech32Decoder

open Stratum Bitcoin Bech32 Regroup LinearChecksum

/-- The exceptions that are thrown. -/
inductive Error where
  | argument (message : String)
  | indexOutOfRange
  deriving DecidableEq, Repr

/-- `TABLE`. -/
def table : List Int :=
  [-1, -1, -1, -1, -1, -1, -1, -1,
   -1, -1, -1, -1, -1, -1, -1, -1,
   -1, -1, -1, -1, -1, -1, -1, -1,
   -1, -1, -1, -1, -1, -1, -1, -1,
   -1, -1, -1, -1, -1, -1, -1, -1,
   -1, -1, -1, -1, -1, -1, -1, -1,
   15, -1, 10, 17, 21, 20, 26, 30,
    7,  5, -1, -1, -1, -1, -1, -1,
   -1, 29, -1, 24, 13, 25,  9,  8,
   23, -1, 18, 22, 31, 27, 19, -1,
    1,  0,  3, 16, 11, 28, 12, 14,
    6,  4,  2, -1, -1, -1, -1, -1,
   -1, 29, -1, 24, 13, 25,  9,  8,
   23, -1, 18, 22, 31, 27, 19, -1,
    1,  0,  3, 16, 11, 28, 12, 14,
    6,  4,  2, -1, -1, -1, -1, -1]

/-- `polymod`. -/
def polymod (c : UInt32) : UInt32 :=
  let b : UInt32 := c >>> 25
  let shifted : UInt32 := (c &&& 0x1ffffff) <<< 5
  let mask (i : UInt32) : UInt32 := -((b >>> i) &&& 1)
  shifted ^^^ (0x3b6a57b2 &&& mask 0) ^^^ (0x26508e6d &&& mask 1) ^^^ (0x1ea119fa &&& mask 2)
    ^^^ (0x3d4233dd &&& mask 3) ^^^ (0x2a1462b3 &&& mask 4)

/-- What the first loop of `Deserialize` finds: letters of either case, and where the last digit
one stands. -/
structure Scan where
  lower : Bool
  upper : Bool
  hlen : Nat
  deriving DecidableEq, Repr

/-- The first loop of `Deserialize`, from the character at `i` on. -/
def scan : Nat → Text → Scan → Except Error Scan
  | _, [], s => .ok s
  | i, ch :: rest, s =>
    if ch < 33 ∨ 126 < ch then .error (.argument "Invalid bech32 character.")
    else
      scan (i + 1) rest
        (if 97 ≤ ch ∧ ch ≤ 122 then { s with lower := true }
        else if 65 ≤ ch ∧ ch ≤ 90 then { s with upper := true }
        else if ch = 49 then { s with hlen := i }
        else s)

/-- The first pass over the human-readable part: the high bits of its characters in lower case,
and these characters. -/
def hrpHigh (chk : UInt32) (hrp : Text) : Text → UInt32 × Text
  | [] => (chk, hrp)
  | ch :: rest =>
    let ch := if 65 ≤ ch ∧ ch ≤ 90 then ch + 32 else ch
    hrpHigh (polymod chk ^^^ (ch >>> 5).toUInt32) (hrp ++ [ch]) rest

/-- The second pass over the human-readable part: the low bits of its characters. -/
def hrpLow (chk : UInt32) : Text → UInt32
  | [] => chk
  | ch :: rest => hrpLow (polymod chk ^^^ (ch &&& 0x1f).toUInt32) rest

/-- The last loop of `Deserialize`, from the character at `i` on; `data` are the bytes that are
written so far. -/
def readData (length : Nat) : Nat → Text → UInt32 → List UInt8 → Except Error (UInt32 × List UInt8)
  | _, [], chk, data => .ok (chk, data)
  | i, ch :: rest, chk, data =>
    match table[ch.toNat]? with
    | none => .error .indexOutOfRange
    | some val =>
      if val = -1 then .error (.argument "Invalid bech32 character.")
      else
        readData length (i + 1) rest (polymod chk ^^^ UInt32.ofNat val.toNat)
          (if i < length - 6 then data ++ [UInt8.ofNat val.toNat] else data)

/-- `Deserialize` of a decoder with this checksum. -/
def deserialize (checksum : UInt32) (str : Text) : Except Error (Text × List UInt8) := do
  if str.length < 8 ∨ 90 < str.length then
    throw (.argument "Invalid bech32 string length.")
  let s ← scan 0 str ⟨false, false, 0⟩
  if s.hlen = 0 then
    throw (.argument "Invalid bech32 human-readable part.")
  if str.length - (s.hlen + 1) < 6 then
    throw (.argument "Invalid bech32 data length.")
  if s.lower ∧ s.upper then
    throw (.argument "Invalid bech32 casing.")
  let (chk, hrp) := hrpHigh 1 [] (str.take s.hlen)
  let chk := hrpLow (polymod chk) (str.take s.hlen)
  let (chk, data) ← readData str.length (s.hlen + 1) (str.drop (s.hlen + 1)) chk []
  if chk ≠ checksum then
    throw (.argument "Invalid bech32 checksum.")
  return (hrp, data)

/-- The inner loop of `Convert`, of at most `fuel` rounds, each of which writes a byte to `dst`. -/
def emit (dstbits : Nat) (mask acc : BitVec 32) :
    Nat → Nat → Nat → List UInt8 → Except Error (Nat × Nat × List UInt8)
  | 0, bits, j, dst => .ok (bits, j, dst)
  | fuel + 1, bits, j, dst =>
    if dstbits ≤ bits then
      if j < dst.length then
        emit dstbits mask acc fuel (bits - dstbits) (j + 1)
          (dst.set j (UInt8.ofNat ((acc.sshiftRight (bits - dstbits)) &&& mask).toNat))
      else .error .indexOutOfRange
    else .ok (bits, j, dst)

section Arrays

variable {ρ : Type} [DecidableEq ρ]

/-- The locals of `Convert`, and the arrays by reference. -/
structure Conversion (ρ : Type) where
  acc : BitVec 32
  bits : Nat
  j : Nat
  arrays : ρ → List UInt8

/-- The loop of `Convert` over the bytes of `src` from `i` on, of which there are `n`. A byte is
read when its turn comes, so what is written to the same array before is seen. A round takes
as many rounds of the inner loop as there are bits, at most. -/
def convertLoop (dst src : ρ) (dstbits srcbits : Nat) (mask : BitVec 32) :
    Nat → Nat → Conversion ρ → Except Error (Conversion ρ)
  | 0, _, c => .ok c
  | n + 1, i, c =>
    match (c.arrays src)[i]? with
    | none => .error .indexOutOfRange
    | some byte => do
      let acc := (c.acc <<< srcbits) ||| byte.toNat
      let bits := c.bits + srcbits
      let (bits, j, written) ← emit dstbits mask acc bits bits c.j (c.arrays dst)
      convertLoop dst src dstbits srcbits mask n (i + 1)
        ⟨acc, bits, j, Function.update c.arrays dst written⟩

/-- `Convert`; its arrays are given by reference and may be the same. -/
def convert (arrays : ρ → List UInt8) (dst : ρ) (dstoff dstbits : Nat) (src : ρ)
    (srcoff srcbits : Nat) (pad : Bool) : Except Error (List UInt8) := do
  if dstbits < 1 ∨ 8 < dstbits ∨ srcbits < 1 ∨ 8 < srcbits ∨
      ((arrays dst).length : Int) - dstoff <
        ((arrays src).length * srcbits + dstbits - 1 : Nat) / dstbits then
    throw (.argument "Value does not fall within the expected range.")
  let mask := (1#32 <<< dstbits) - 1
  let c ← convertLoop dst src dstbits srcbits mask ((arrays src).length - srcoff) srcoff
    ⟨0, 0, dstoff, arrays⟩
  let left := dstbits - c.bits
  if pad then
    if c.bits ≠ 0 then
      if c.j < (c.arrays dst).length then
        return ((c.arrays dst).set c.j
          (UInt8.ofNat ((c.acc <<< left) &&& mask).toNat)).take (c.j + 1)
      else throw .indexOutOfRange
    else return (c.arrays dst).take c.j
  else
    if (c.acc <<< left) &&& mask ≠ 0 ∨ srcbits ≤ c.bits then
      throw (.argument "Invalid bits.")
    return (c.arrays dst).take c.j

end Arrays

/-- `Decode` of a decoder with this checksum. -/
def decode (checksum : UInt32) (addr : Text) : Except Error (Text × Nat × List UInt8) := do
  let (hrp, data) ← deserialize checksum addr
  if data.length = 0 ∨ 65 < data.length then
    throw (.argument "Invalid bech32 data length.")
  let version := (data.headD 0).toNat
  if 31 < version then
    throw (.argument "Invalid bech32 version.")
  -- the output is the array that the data is in
  let hash ← convert (fun _ : Unit => data) () 0 8 () 1 5 false
  if hash.length < 2 ∨ 40 < hash.length then
    throw (.argument "Invalid bech32 data length.")
  return (hrp, version, hash)

/-- The checksum of a decoder unless another is given. -/
def defaultChecksum : UInt32 := 1

section Checksum

theorem toNat_masked (g x : UInt32) :
    (g &&& -(x &&& 1)).toNat = if x.toNat % 2 = 1 then g.toNat else 0 := by
  have hbit : (x &&& 1).toNat = x.toNat % 2 := by simp [UInt32.toNat_and, Nat.and_one_is_mod]
  by_cases hx : x.toNat % 2 = 1
  · have hone : x &&& 1 = 1 := UInt32.toNat_inj.mp (by rw [hbit, hx]; rfl)
    rw [hone, if_pos hx]
    simp
  · have hzero : x &&& 1 = 0 := UInt32.toNat_inj.mp (by rw [hbit, Nat.mod_two_ne_one.mp hx]; rfl)
    rw [hzero, if_neg hx]
    simp

/-- `polymod` is a step of the checksum. -/
theorem toNat_polymod (c : UInt32) : (polymod c).toNat = bip173.step c.toNat := by
  have hbit (i : Nat) (hi : i < 32) :
      (c >>> 25 >>> UInt32.ofNat i).toNat = c.toNat / 2 ^ 25 / 2 ^ i := by
    simp [UInt32.toNat_shiftRight, Nat.shiftRight_eq_div_pow, Nat.mod_eq_of_lt hi]
  have hlow : (c &&& 0x1ffffff).toNat = c.toNat % 2 ^ 25 := by
    rw [UInt32.toNat_and]
    exact Nat.and_two_pow_sub_one_eq_mod _ 25
  have hshifted : ((c &&& 0x1ffffff) <<< 5).toNat = c.toNat % 2 ^ 25 * 2 ^ 5 := by
    rw [UInt32.toNat_shiftLeft, hlow, Nat.shiftLeft_eq]
    simp
    omega
  have h0 := hbit 0 (by decide)
  have h1 := hbit 1 (by decide)
  have h2 := hbit 2 (by decide)
  have h3 := hbit 3 (by decide)
  have h4 := hbit 4 (by decide)
  simp only [UInt32.reduceOfNat] at h0 h1 h2 h3 h4
  simp only [polymod, UInt32.toNat_xor, hshifted, toNat_masked, h0, h1, h2, h3, h4, bip173,
    ofGenerators, reduce, Nat.div_div_eq_div_mul, Nat.xor_zero, Nat.xor_assoc,
    UInt32.reduceToNat]
  norm_num

theorem hrpHigh_eq (chk : UInt32) (out hrp : Text) :
    (hrpHigh chk out hrp).1.toNat =
        bip173.feed chk.toNat ((toLower hrp).map fun c => c.toNat / 32) ∧
      (hrpHigh chk out hrp).2 = out ++ toLower hrp := by
  induction hrp generalizing chk out with
  | nil => exact ⟨rfl, (List.append_nil _).symm⟩
  | cons c rest ih =>
    obtain ⟨hchk, hout⟩ := ih (polymod chk ^^^ (lowerChar c >>> 5).toUInt32) (out ++ [lowerChar c])
    have hhigh : (lowerChar c >>> 5).toUInt32.toNat = (lowerChar c).toNat / 32 := by
      simp [Nat.shiftRight_eq_div_pow]
    constructor
    · simp only [hrpHigh, toLower, List.map_cons, Code.feed_cons]
      rw [← toNat_polymod, ← hhigh, ← UInt32.toNat_xor]
      exact hchk
    · exact hout.trans (by simp [toLower])

theorem toNat_hrpLow (chk : UInt32) (hrp : Text) :
    (hrpLow chk hrp).toNat = bip173.feed chk.toNat ((toLower hrp).map fun c => c.toNat % 32) := by
  induction hrp generalizing chk with
  | nil => rfl
  | cons c rest ih =>
    have hlow : (c &&& 0x1f).toUInt32.toNat = c.toNat % 32 := by
      simp only [UInt16.toNat_toUInt32, UInt16.toNat_and]
      exact Nat.and_two_pow_sub_one_eq_mod _ 5
    rw [hrpLow, ih, UInt32.toNat_xor, toNat_polymod, hlow]
    simp only [toLower, List.map_cons, Code.feed_cons, toNat_lowerChar_mod]

/-- Both passes feed the human-readable part in lower case. -/
theorem toNat_hrpLow_hrpHigh (hrp : Text) :
    (hrpLow (polymod (hrpHigh 1 [] hrp).1) hrp).toNat =
      bip173.feed 1 (hrpExpand (toLower hrp)) := by
  rw [toNat_hrpLow, toNat_polymod, (hrpHigh_eq 1 [] hrp).1, hrpExpand, Code.feed_append,
    Code.feed_cons, Nat.xor_zero]
  rfl

end Checksum

section Characters

variable {c : UInt16}

theorem table_spec (hc : c.toNat < 128) :
    ∃ val, table[c.toNat]? = some val ∧ if val = -1 then lowerChar c ∉ charset
      else val.toNat < 32 ∧ lowerChar c = char val.toNat := by
  have hall : ∀ n < 128, if table.getD n 0 = -1 then lowerChar (UInt16.ofNat n) ∉ charset
      else (table.getD n 0).toNat < 32 ∧
        lowerChar (UInt16.ofNat n) = char (table.getD n 0).toNat := by decide +kernel
  have hlt : c.toNat < table.length := hc
  refine ⟨table.getD c.toNat 0, ?_, ?_⟩
  · rw [List.getD_eq_getElem _ _ hlt, List.getElem?_eq_getElem hlt]
  · simpa using hall c.toNat hc

/-- The data loop reads the symbols of the characters, in either case, and keeps those that are
not of the checksum. -/
theorem readData_eq_ok_iff {length i : Nat} {cs : Text} {chk chk' : UInt32}
    {data data' : List UInt8} (hcs : ∀ c ∈ cs, c.toNat < 128) :
    readData length i cs chk data = .ok (chk', data') ↔
      ∃ vs, (∀ v ∈ vs, v < 32) ∧ toLower cs = vs.map char ∧
        chk'.toNat = bip173.feed chk.toNat vs ∧
        data' = data ++ (vs.take (length - 6 - i)).map UInt8.ofNat := by
  induction cs generalizing i chk data with
  | nil =>
    simp only [readData, Except.ok.injEq, Prod.mk.injEq]
    constructor
    · rintro ⟨rfl, rfl⟩
      exact ⟨[], by simp, rfl, rfl, by simp⟩
    · rintro ⟨vs, -, hvs, hchk, hdata⟩
      obtain rfl : vs = [] := List.map_eq_nil_iff.mp hvs.symm
      exact ⟨(UInt32.toNat_inj.mp hchk).symm, by simpa using hdata.symm⟩
  | cons c cs ih =>
    simp only [List.forall_mem_cons] at hcs
    obtain ⟨val, hval, hspec⟩ := table_spec hcs.1
    simp only [readData, hval]
    by_cases hinvalid : val = -1
    · rw [if_pos hinvalid] at hspec
      simp only [hinvalid, if_true, reduceCtorEq, false_iff]
      rintro ⟨vs, hlt, hvs, -⟩
      cases vs with
      | nil => cases hvs
      | cons v vs =>
        simp only [toLower, List.map_cons, List.cons.injEq] at hvs
        exact hspec (hvs.1 ▸ char_mem (hlt v List.mem_cons_self))
    · rw [if_neg hinvalid] at hspec
      obtain ⟨hlt, hchar⟩ := hspec
      have hchk : (polymod chk ^^^ UInt32.ofNat val.toNat).toNat =
          bip173.step chk.toNat ^^^ val.toNat := by
        rw [UInt32.toNat_xor, toNat_polymod, UInt32.toNat_ofNat_of_lt' (by simp; omega)]
      have htake (vs : List Nat) :
          (if i < length - 6 then data ++ [UInt8.ofNat val.toNat] else data) ++
              (vs.take (length - 6 - (i + 1))).map UInt8.ofNat =
            data ++ ((val.toNat :: vs).take (length - 6 - i)).map UInt8.ofNat := by
        split
        · rw [show length - 6 - i = length - 6 - (i + 1) + 1 by omega]
          simp
        · rw [show length - 6 - i = 0 by omega, show length - 6 - (i + 1) = 0 by omega]
          simp
      rw [if_neg hinvalid, ih hcs.2, hchk]
      constructor
      · rintro ⟨vs, hvs, hchars, hchk', hdata'⟩
        exact ⟨val.toNat :: vs, List.forall_mem_cons.mpr ⟨hlt, hvs⟩,
          by simp only [toLower, List.map_cons, hchar] at hchars ⊢; rw [hchars], hchk',
          by rw [hdata', htake]⟩
      · rintro ⟨ws, hws, hchars, hchk', hdata'⟩
        cases ws with
        | nil => cases hchars
        | cons w vs =>
          simp only [List.forall_mem_cons] at hws
          simp only [toLower, List.map_cons, List.cons.injEq] at hchars
          obtain rfl : val.toNat = w := char_inj hlt hws.1 (hchar ▸ hchars.1)
          exact ⟨vs, hws.2, hchars.2, hchk', by rw [hdata', htake]⟩

end Characters

/-- Where the last separator stands, or else the number that is given. -/
def lastSeparator : Nat → Text → Nat → Nat
  | _, [], hlen => hlen
  | i, c :: cs, hlen => lastSeparator (i + 1) cs (if c = separator then i else hlen)

section Deserialize

variable {str hrp cs p d : Text} {data : List UInt8} {i hlen : Nat}

theorem lastSeparator_of_not_mem (h : separator ∉ cs) : lastSeparator i cs hlen = hlen := by
  induction cs generalizing i with
  | nil => rfl
  | cons c cs ih =>
    simp only [List.mem_cons, not_or] at h
    rw [lastSeparator, if_neg (Ne.symm h.1), ih h.2]

theorem lastSeparator_append (h : separator ∉ d) :
    lastSeparator i (p ++ separator :: d) hlen = i + p.length := by
  induction p generalizing i hlen with
  | nil =>
    rw [List.nil_append, lastSeparator, if_pos rfl, lastSeparator_of_not_mem h]
    rfl
  | cons c p ih =>
    rw [List.cons_append, lastSeparator, ih, List.length_cons]
    omega

theorem ne_separator_of_isLower {c : UInt16} (h : IsLower c) : c ≠ separator := by
  rintro rfl
  exact absurd h (by decide)

theorem ne_separator_of_isUpper {c : UInt16} (h : IsUpper c) : c ≠ separator := by
  rintro rfl
  exact absurd h (by decide)

theorem scan_eq_ok_iff {s s' : Scan} : scan i cs s = .ok s' ↔
    (∀ c ∈ cs, Printable c) ∧ s' = ⟨s.lower || cs.any fun c => IsLower c,
      s.upper || cs.any fun c => IsUpper c, lastSeparator i cs s.hlen⟩ := by
  induction cs generalizing i s with
  | nil => simp [scan, lastSeparator, eq_comm]
  | cons c cs ih =>
    simp only [scan, List.forall_mem_cons]
    by_cases hprintable : Printable c
    · have hvalid : ¬(c < 33 ∨ 126 < c) := by
        simpa only [not_or, UInt16.not_lt] using hprintable
      rw [if_neg hvalid, ih, and_iff_right hprintable]
      have hcases : (if 97 ≤ c ∧ c ≤ 122 then { s with lower := true }
          else if 65 ≤ c ∧ c ≤ 90 then { s with upper := true }
          else if c = 49 then { s with hlen := i }
          else s) = ⟨s.lower || IsLower c, s.upper || IsUpper c,
            if c = separator then i else s.hlen⟩ := by
        by_cases hlower : IsLower c
        · have hupper := not_isUpper_of_isLower hlower
          rw [if_pos hlower, if_neg (ne_separator_of_isLower hlower), decide_eq_true hlower,
            decide_eq_false hupper, Bool.or_true, Bool.or_false]
        by_cases hupper : IsUpper c
        · rw [if_neg hlower, if_pos hupper, if_neg (ne_separator_of_isUpper hupper),
            decide_eq_false hlower, decide_eq_true hupper, Bool.or_true, Bool.or_false]
        · rw [if_neg hlower, if_neg hupper, decide_eq_false hlower, decide_eq_false hupper,
            Bool.or_false, Bool.or_false]
          exact apply_ite (Scan.mk s.lower s.upper) (c = separator) i s.hlen |>.symm
      rw [hcases]
      simp only [List.any_cons, Bool.or_assoc, lastSeparator]
    · have hinvalid : c < 33 ∨ 126 < c := by
        by_contra hvalid
        simp only [not_or, UInt16.not_lt] at hvalid
        exact hprintable hvalid
      simp [hinvalid, hprintable]

theorem deserialize_eq_ok_iff_scan {checksum : UInt32} :
    deserialize checksum str = .ok (hrp, data) ↔ 8 ≤ str.length ∧ str.length ≤ 90 ∧
      ∃ s, scan 0 str ⟨false, false, 0⟩ = .ok s ∧ s.hlen ≠ 0 ∧
        6 ≤ str.length - (s.hlen + 1) ∧ ¬(s.lower ∧ s.upper) ∧
        ∃ result, readData str.length (s.hlen + 1) (str.drop (s.hlen + 1))
          (hrpLow (polymod (hrpHigh 1 [] (str.take s.hlen)).1) (str.take s.hlen)) [] = .ok result ∧
          result.1 = checksum ∧ (hrpHigh 1 [] (str.take s.hlen)).2 = hrp ∧ result.2 = data := by
  simp only [deserialize, check_eq_ok, bind_eq_ok, not_or, not_lt, pure, Except.pure,
    Except.ok.injEq, Prod.mk.injEq, and_assoc, not_not, ne_eq]

theorem unmixed_iff : ¬(str.any (fun c => IsLower c) ∧ str.any fun c => IsUpper c) ↔
    Unmixed str := by
  rw [Classical.not_and_iff_not_or_not]
  simp only [Unmixed, List.any_eq_true, decide_eq_true_eq, not_exists, not_and]

/-- Behind a human-readable part, what is accepted as data is symbols and their checksum. -/
theorem readData_parts (hp : ∀ c ∈ p, Printable c) (hd : ∀ c ∈ d, Printable c)
    (hlen : 6 ≤ d.length) :
    readData (p ++ separator :: d).length (p.length + 1) d
        (hrpLow (polymod (hrpHigh 1 [] p).1) p) [] = .ok (1, data) ↔
      (∀ b ∈ data, b.toNat < 32) ∧ toLower d = ((data.map UInt8.toNat) ++
        createChecksum (toLower p) (data.map UInt8.toNat)).map char := by
  have hhrp : ∀ c ∈ toLower p, c.toNat < 128 := by
    simp only [toLower, List.forall_mem_map]
    exact fun c hc => toNat_lt_of_printable (printable_lowerChar.mpr (hp c hc))
  have hcount : (p ++ separator :: d).length - 6 - (p.length + 1) = d.length - 6 := by
    rw [List.length_append, List.length_cons]
    omega
  rw [readData_eq_ok_iff fun c hc => toNat_lt_of_printable (hd c hc), toNat_hrpLow_hrpHigh, hcount]
  constructor
  · rintro ⟨vs, hvs, hchars, hfeed, rfl⟩
    have hlength : d.length = vs.length := by simpa using congrArg List.length hchars
    have hinit : ∀ v ∈ vs.take (d.length - 6), v < 32 :=
      fun v hv => hvs v (List.mem_of_mem_take hv)
    have hdata : ((vs.take (d.length - 6)).map UInt8.ofNat).map UInt8.toNat =
        vs.take (d.length - 6) := by
      rw [List.map_map]
      refine (List.map_congr_left fun v hv => ?_).trans (List.map_id _)
      exact UInt8.toNat_ofNat_of_lt' ((hinit v hv).trans (by decide))
    rw [List.nil_append, hdata]
    constructor
    · simp only [List.forall_mem_map]
      intro v hv
      rw [UInt8.toNat_ofNat_of_lt' ((hinit v hv).trans (by decide))]
      exact hinit v hv
    · have hcheck : (vs.drop (d.length - 6)).length = 6 := by
        rw [List.length_drop]
        omega
      rw [← Code.feed_append, ← List.take_append_drop (d.length - 6) vs,
        ← List.append_assoc] at hfeed
      rw [← (feed_eq_one_iff hhrp hinit (fun v hv => hvs v (List.mem_of_mem_drop hv)) hcheck).mp
        hfeed.symm, List.take_append_drop, hchars]
  · rintro ⟨hdata, hchars⟩
    have hlength : d.length = data.length + 6 := by simpa using congrArg List.length hchars
    have hdata' : ∀ v ∈ data.map UInt8.toNat, v < 32 := by simpa using hdata
    refine ⟨data.map UInt8.toNat ++ createChecksum (toLower p) (data.map UInt8.toNat),
      List.forall_mem_append.mpr ⟨hdata', lt_of_mem_createChecksum⟩, hchars, ?_, ?_⟩
    · rw [← Code.feed_append, ← List.append_assoc,
        (feed_eq_one_iff hhrp hdata' lt_of_mem_createChecksum (length_createChecksum _ _)).mpr rfl]
      rfl
    · rw [hlength, Nat.add_sub_cancel, List.take_left' (by simp), List.map_map]
      simp [Function.comp_def]

theorem separator_mem_of_deserialize {checksum : UInt32}
    (h : deserialize checksum str = .ok (hrp, data)) : separator ∈ str := by
  obtain ⟨-, -, s, hscan, hhlen, -⟩ := deserialize_eq_ok_iff_scan.mp h
  obtain ⟨-, rfl⟩ := scan_eq_ok_iff.mp hscan
  by_contra hmem
  exact hhlen (lastSeparator_of_not_mem hmem)

/-- `Deserialize` of a text that is split at its last separator. -/
theorem deserialize_parts (hd : separator ∉ d) :
    deserialize 1 (p ++ separator :: d) = .ok (hrp, data) ↔
      8 ≤ (p ++ separator :: d).length ∧ (p ++ separator :: d).length ≤ 90 ∧
        (∀ c ∈ p ++ separator :: d, Printable c) ∧ p ≠ [] ∧ 6 ≤ d.length ∧
        Unmixed (p ++ separator :: d) ∧ toLower p = hrp ∧ (∀ b ∈ data, b.toNat < 32) ∧
        toLower d = (data.map UInt8.toNat ++
          createChecksum (toLower p) (data.map UInt8.toNat)).map char := by
  have hdrop : (p ++ separator :: d).drop (p.length + 1) = d := by simp
  have hdlen : (p ++ separator :: d).length - (p.length + 1) = d.length := by
    rw [List.length_append, List.length_cons]
    omega
  have hhigh : (hrpHigh 1 [] p).2 = toLower p := (hrpHigh_eq 1 [] p).2
  rw [deserialize_eq_ok_iff_scan]
  constructor
  · rintro ⟨hmin, hmax, s, hscan, hhlen, hcount, hcase, ⟨chk, bytes⟩, hread, rfl, hhrp, rfl⟩
    obtain ⟨hprintable, rfl⟩ := scan_eq_ok_iff.mp hscan
    simp only [lastSeparator_append hd, Nat.zero_add, Bool.false_or, List.take_left, hdrop, hdlen,
      hhigh] at hhlen hcount hcase hread hhrp
    have hparts := List.forall_mem_append.mp hprintable
    obtain ⟨hdata, hchars⟩ := (readData_parts hparts.1 (List.forall_mem_cons.mp hparts.2).2
      hcount).mp hread
    exact ⟨hmin, hmax, hprintable, fun h => hhlen (by rw [h]; rfl), hcount, unmixed_iff.mp hcase,
      hhrp, hdata, hchars⟩
  · rintro ⟨hmin, hmax, hprintable, hp, hcount, hcase, hhrp, hdata, hchars⟩
    refine ⟨hmin, hmax, _, scan_eq_ok_iff.mpr ⟨hprintable, rfl⟩, ?_⟩
    simp only [lastSeparator_append hd, Nat.zero_add, Bool.false_or, List.take_left, hdrop, hdlen,
      hhigh]
    have hparts := List.forall_mem_append.mp hprintable
    exact ⟨fun h => hp (List.length_eq_zero_iff.mp h), hcount, unmixed_iff.mpr hcase, _,
      (readData_parts hparts.1 (List.forall_mem_cons.mp hparts.2).2 hcount).mpr ⟨hdata, hchars⟩,
      rfl, hhrp, rfl⟩

theorem lowerChar_eq_separator {c : UInt16} : lowerChar c = separator ↔ c = separator :=
  lowerChar_eq_iff (by decide) (by decide)

theorem separator_not_mem_charset : separator ∉ charset := by decide

/-- What `Deserialize` accepts is, in one case, an encoding. -/
theorem deserialize_eq_ok_iff : deserialize 1 str = .ok (hrp, data) ↔
    8 ≤ str.length ∧ str.length ≤ 90 ∧ Unmixed str ∧ HumanReadable hrp ∧
      (∀ b ∈ data, b.toNat < 32) ∧ toLower str = encode hrp (data.map UInt8.toNat) := by
  constructor
  · intro h
    obtain ⟨p, d, rfl, hd⟩ := exists_last_occurrence (separator_mem_of_deserialize h)
    obtain ⟨hmin, hmax, hprintable, hp, -, hcase, rfl, hdata, hchars⟩ := (deserialize_parts hd).mp h
    refine ⟨hmin, hmax, hcase, ⟨by simpa [toLower] using hp, ?_⟩, hdata, ?_⟩
    · simp only [toLower, List.forall_mem_map]
      exact fun c hc => ⟨printable_lowerChar.mpr (hprintable c (List.mem_append_left _ hc)),
        not_isUpper_lowerChar⟩
    · rw [toLower_append, encode, ← hchars]
      rfl
  · rintro ⟨hmin, hmax, hcase, ⟨hne, hhrp⟩, hdata, hlower⟩
    obtain ⟨p, rest, rfl, rfl, hrest⟩ := List.map_eq_append_iff.mp hlower
    obtain ⟨c, d, rfl, hc, hd⟩ := List.map_eq_cons_iff.mp hrest
    obtain rfl : c = separator := lowerChar_eq_separator.mp hc
    have hdata' : ∀ v ∈ data.map UInt8.toNat, v < 32 := by simpa using hdata
    have hcharset : ∀ c ∈ d.map lowerChar, c ∈ charset := by
      rw [hd]
      exact mem_charset_of_mem_map_char
        (List.forall_mem_append.mpr ⟨hdata', lt_of_mem_createChecksum⟩)
    simp only [List.forall_mem_map] at hcharset hhrp
    have hsep : separator ∉ d := fun hmem =>
      separator_not_mem_charset (lowerChar_eq_separator.mpr rfl ▸ hcharset _ hmem)
    rw [deserialize_parts hsep]
    refine ⟨hmin, hmax, ?_, by simpa using hne, ?_, hcase, rfl, hdata, hd⟩
    · simp only [List.forall_mem_append, List.forall_mem_cons]
      exact ⟨fun c hc => printable_lowerChar.mp (hhrp c hc).1, by decide,
        fun c hc => printable_lowerChar.mp (printable_of_mem_charset (hcharset c hc)).1⟩
    · have hlength := congrArg List.length hd
      simp only [List.length_map, List.length_append, length_createChecksum] at hlength
      omega

end Deserialize

end HashStorm.Handshake.Bech32Decoder
