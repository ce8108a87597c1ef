import HashStorm.Lib.LinearChecksum

/-!
# The bech32 format

An address is a human-readable part, the separator `1` and symbols of five bits in
a fixed alphabet, the last six of which are a checksum. A version and a hash are
written as the version's symbol and the hash regrouped from bytes. The format is
defined on UTF-16 code units.
-/

namespace HashStorm.Bech32

open Regroup LinearChecksum

/-- The alphabet, in the order of the symbols' values. -/
def charset : List UInt16 :=
  "qpzry9x8gf2tvdw0s3jn54khce6mua7l".toList.map fun c => UInt16.ofNat c.toNat

/-- The character of a symbol. -/
def char (v : Nat) : UInt16 := charset.getD v 0

/-- The separator is the digit one. -/
def separator : UInt16 := 49

/-- The checksum over symbols of five bits that is six symbols long. -/
def bip173 : Code :=
  ofGenerators 5 6 [0x3b6a57b2, 0x26508e6d, 0x1ea119fa, 0x3d4233dd, 0x2a1462b3]
    (by decide) (by decide) (by decide)

/-- The symbols that stand for the human-readable part in the checksum: the high bits of the
characters, a zero, and the low bits. -/
def hrpExpand (hrp : List UInt16) : List Nat :=
  hrp.map (fun c => c.toNat / 32) ++ 0 :: hrp.map fun c => c.toNat % 32

/-- The six symbols of the checksum. -/
def createChecksum (hrp : List UInt16) (data : List Nat) : List Nat :=
  bip173.tail (bip173.feed 1 (hrpExpand hrp ++ data)) 1

/-- A human-readable part and symbols, with their checksum. -/
def encode (hrp : List UInt16) (data : List Nat) : List UInt16 :=
  hrp ++ separator :: (data ++ createChecksum hrp data).map char

/-- The symbols of a version and a hash; the last one is filled up with zero bits. -/
def versionedData (version : Nat) (hash : List UInt8) : List Nat :=
  version :: regroup 2 8 5 (hash.map UInt8.toNat)

/-- The address of a version and a hash. -/
def encodeAddress (hrp : List UInt16) (version : Nat) (hash : List UInt8) : List UInt16 :=
  encode hrp (versionedData version hash)

section Bytes

theorem map_toNat_inj {xs ys : List UInt8} (h : xs.map UInt8.toNat = ys.map UInt8.toNat) :
    xs = ys := List.map_injective_iff.mpr (fun _ _ => UInt8.toNat_inj.mp) h

theorem lt_of_mem_map_toNat {xs : List UInt8} : ∀ x ∈ xs.map UInt8.toNat, x < 2 ^ 8 := by
  simp only [List.forall_mem_map]
  exact fun b _ => b.toNat_lt

theorem map_toNat_map_ofNat {xs : List Nat} (h : ∀ x ∈ xs, x < 2 ^ 8) :
    (xs.map UInt8.ofNat).map UInt8.toNat = xs := by
  rw [List.map_map]
  exact (List.map_congr_left fun x hx => UInt8.toNat_ofNat_of_lt' (h x hx)).trans (List.map_id xs)

end Bytes

section Charset

@[simp] theorem length_charset : charset.length = 32 := by decide

theorem nodup_charset : charset.Nodup := by decide

/-- The alphabet is printable, without letters in upper case. -/
theorem printable_of_mem_charset {c : UInt16} (h : c ∈ charset) :
    (33 ≤ c ∧ c ≤ 126) ∧ ¬(65 ≤ c ∧ c ≤ 90) := by
  have hall : charset.all fun c => (33 ≤ c ∧ c ≤ 126) ∧ ¬(65 ≤ c ∧ c ≤ 90) := by decide
  exact of_decide_eq_true (List.all_eq_true.mp hall c h)

theorem char_mem {v : Nat} (hv : v < 32) : char v ∈ charset := by
  rw [char, List.getD_eq_getElem _ _ (by simpa using hv)]
  exact List.getElem_mem _

theorem mem_charset_of_mem_map_char {vs : List Nat} (hvs : ∀ v ∈ vs, v < 32) :
    ∀ c ∈ vs.map char, c ∈ charset := by
  simp only [List.forall_mem_map]
  exact fun v hv => char_mem (hvs v hv)

theorem char_inj {v w : Nat} (hv : v < 32) (hw : w < 32) (h : char v = char w) : v = w := by
  rw [char, char, List.getD_eq_getElem _ _ (by simpa using hv),
    List.getD_eq_getElem _ _ (by simpa using hw)] at h
  exact (List.Nodup.getElem_inj_iff nodup_charset).mp h

/-- Symbols are told from their characters. -/
theorem map_char_inj {vs ws : List Nat} (hvs : ∀ v ∈ vs, v < 32) (hws : ∀ w ∈ ws, w < 32)
    (h : vs.map char = ws.map char) : vs = ws := by
  induction vs generalizing ws with
  | nil => exact (List.map_eq_nil_iff.mp h.symm).symm
  | cons v vs ih =>
    cases ws with
    | nil => cases h
    | cons w ws =>
      simp only [List.forall_mem_cons] at hvs hws
      simp only [List.map_cons, List.cons.injEq] at h
      rw [char_inj hvs.1 hws.1 h.1, ih hvs.2 hws.2 h.2]

end Charset

section Checksum

variable {hrp : List UInt16} {data check : List Nat}

theorem lt_of_mem_hrpExpand (hhrp : ∀ c ∈ hrp, c.toNat < 128) : ∀ v ∈ hrpExpand hrp, v < 32 := by
  simp only [hrpExpand, List.forall_mem_append, List.forall_mem_cons, List.forall_mem_map]
  exact ⟨fun c hc => by have := hhrp c hc; omega, by decide, fun c _ => Nat.mod_lt _ (by decide)⟩

@[simp] theorem length_createChecksum (hrp : List UInt16) (data : List Nat) :
    (createChecksum hrp data).length = 6 := Code.length_tail _ _ _

theorem lt_of_mem_createChecksum : ∀ v ∈ createChecksum hrp data, v < 32 :=
  Code.lt_of_mem_tail bip173 _ _

/-- Six symbols verify if and only if they are the checksum. -/
theorem feed_eq_one_iff (hhrp : ∀ c ∈ hrp, c.toNat < 128) (hdata : ∀ v ∈ data, v < 32)
    (hcheck : ∀ v ∈ check, v < 32) (hlen : check.length = 6) :
    bip173.feed 1 (hrpExpand hrp ++ data ++ check) = 1 ↔ check = createChecksum hrp data := by
  have hone : 1 < bip173.base ^ bip173.symbols := by decide
  have hvs : ∀ v ∈ hrpExpand hrp ++ data, v < bip173.base :=
    List.forall_mem_append.mpr ⟨lt_of_mem_hrpExpand hhrp, hdata⟩
  rw [Code.feed_append]
  exact Code.feed_eq_iff (Code.feed_lt hone hvs) hcheck hlen hone

end Checksum

end HashStorm.Bech32
