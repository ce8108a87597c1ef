import HashStorm.Blockchain.Zano.Job
import Mathlib.Data.Rat.Floor
import Mathlib.Tactic.Linarith
import Mathlib.Tactic.NormNum

/-!
# Advertised targets

Cryptonote, Zano and Xelis turn a difficulty into the same number, a multiple of 255 that
is left out of difficulty one. Its bytes keep a bit for the sign: Cryptonote cuts the byte in
front, Zano and Xelis leave out numbers of 32 bytes and more, and Xelis writes the lowest byte
first where the job reads the highest. A hash within the number is never a low share.
-/

namespace HashStorm.Blockchain

open Stratum LittleEndian
open Zano (byteLength toHexStringWithPrefix)

/-- The number that a difficulty stands for. -/
def advertised (difficulty : Rat) : Nat :=
  255 * (Cryptonote.diff1 / (difficulty * 255).floor.toNat)

section Encoding

/-- The target by the truncated multiple of a difficulty. -/
def targetQuotient (difficulty : Rat) : Except Failure Nat :=
  let diff := (difficulty * 255).floor.toNat
  if diff = 0 then .error .divideByZero else .ok (Cryptonote.diff1 / diff * 255)

/-- `ToByteArray` of the library that begins with the highest byte; a bit is kept for the sign. -/
def toByteArrayBigEndian (n : Nat) : List UInt8 := (leBytes (byteLength n) n).reverse

/-- `ToByteArray` of the library that begins with the lowest byte; a bit is kept for the sign. -/
def toByteArrayLittleEndian (n : Nat) : List UInt8 := leBytes (byteLength n) n

/-- `CryptonoteJob.EncodeTarget`. -/
def cryptonoteEncodeTarget (difficulty : Rat) : Except Failure Text := do
  let bytes := toByteArrayBigEndian (← targetQuotient difficulty)
  let padLength : Int := 32 - bytes.length
  let padded :=
    if 0 < padLength then List.replicate padLength.toNat 0 ++ bytes
    else (bytes.drop (bytes.length - 32)).take 32
  return toHexString (padded.take 4).reverse

/-- `ZanoJob.EncodeTarget`. -/
def zanoEncodeTarget (difficulty : Rat) : Except Failure Text := do
  let bytes := toByteArrayBigEndian (← targetQuotient difficulty)
  let padLength : Int := 32 - bytes.length
  let padded :=
    if 0 < padLength then List.replicate padLength.toNat 0 ++ bytes
    else List.replicate 32 0
  return toHexStringWithPrefix (padded.take 32)

/-- `XelisUtils.DifficultyToTarget`. -/
def xelisDifficultyToTarget (difficulty : Rat) : Except Failure (List UInt8) := do
  if difficulty = 0 then return List.replicate 32 0
  let targetBytes := toByteArrayLittleEndian (← targetQuotient difficulty)
  let padLength : Int := 32 - targetBytes.length
  return if 0 < padLength then List.replicate padLength.toNat 0 ++ targetBytes
    else List.replicate 32 0

end Encoding

section Bytes

variable {n : Nat}

/-- The length with a bit for the sign. -/
theorem byteLength_le_iff {k : Nat} (hk : 0 < k) : byteLength n ≤ k ↔ n < 2 ^ (8 * k - 1) := by
  rw [byteLength]
  split
  · rename_i hzero
    subst hzero
    exact iff_of_true hk (by positivity)
  · rename_i hpos
    rw [← Nat.log2_lt hpos]
    omega

theorem lt_byteLength (n : Nat) : n < 256 ^ byteLength n := by
  have hpos : 0 < byteLength n := by
    rw [byteLength]
    split <;> omega
  have hlt := (byteLength_le_iff (n := n) hpos).mp (le_refl _)
  have h256 : (256 : Nat) = 2 ^ 8 := by decide
  rw [h256, ← pow_mul]
  exact hlt.trans_le (Nat.pow_le_pow_right (by decide) (Nat.sub_le _ _))

/-- A word of 32 bytes is padded with zeros. -/
theorem leBytes_append_zeros (h : byteLength n ≤ 32) :
    leBytes (byteLength n) n ++ List.replicate (32 - byteLength n) 0 = leBytes 32 n := by
  have hsplit := leBytes_add (byteLength n) (32 - byteLength n) n
  rw [Nat.div_eq_of_lt (lt_byteLength n), leBytes_zero, Nat.add_sub_cancel' h] at hsplit
  exact hsplit.symm

theorem zeros_append_toByteArrayBigEndian (h : byteLength n ≤ 32) :
    List.replicate (32 - byteLength n) 0 ++ toByteArrayBigEndian n = (leBytes 32 n).reverse := by
  rw [← leBytes_append_zeros h, List.reverse_append, List.reverse_replicate]
  rfl

theorem toHexStringWithPrefix_inj {bytes bytes' : List UInt8} (hne : bytes ≠ [])
    (hne' : bytes' ≠ []) (h : toHexStringWithPrefix bytes = toHexStringWithPrefix bytes') :
    bytes = bytes' := by
  have hdigits : toHexString bytes = toHexString bytes' := by
    rwa [toHexStringWithPrefix, toHexStringWithPrefix, if_neg hne, if_neg hne',
      List.append_cancel_left_eq] at h
  rw [← hexToByteArray_toHexString bytes, hdigits, hexToByteArray_toHexString]

end Bytes

section Advertised

variable {d : Rat}

/-- The multiple of a difficulty of at least one that fits a `long`. -/
theorem multiple_bounds (hmin : 1 ≤ d) (hmax : 255 * d < 2 ^ 63) :
    255 ≤ (d * 255).floor.toNat ∧ (d * 255).floor.toNat < 2 ^ 63 ∧
      255 * d < ((d * 255).floor.toNat : Rat) + 1 := by
  have hlow : 255 ≤ ⌊d * 255⌋ := Int.le_floor.mpr (by push_cast; linarith)
  have hhigh : ⌊d * 255⌋ < 2 ^ 63 := Int.floor_lt.mpr (by push_cast; linarith)
  have hlt := Int.lt_floor_add_one (d * 255)
  have hfloor : (d * 255).floor = ⌊d * 255⌋ := rfl
  obtain ⟨n, hn⟩ := Int.eq_ofNat_of_zero_le ((by decide : (0 : Int) ≤ 255).trans hlow)
  rw [hfloor]
  rw [hn] at hlow hhigh hlt ⊢
  rw [Int.cast_natCast] at hlt
  rw [Int.toNat_natCast]
  exact ⟨by exact_mod_cast hlow, by exact_mod_cast hhigh, by linarith⟩

theorem targetQuotient_eq (hmin : 1 ≤ d) (hmax : 255 * d < 2 ^ 63) :
    targetQuotient d = .ok (advertised d) := by
  have hlow := (multiple_bounds hmin hmax).1
  rw [targetQuotient, if_neg (by omega), advertised, Nat.mul_comm]

theorem advertised_pos (hmin : 1 ≤ d) (hmax : 255 * d < 2 ^ 63) : 0 < advertised d := by
  obtain ⟨hlow, hhigh, -⟩ := multiple_bounds hmin hmax
  have hdiff1 : 2 ^ 63 ≤ Cryptonote.diff1 := by decide
  exact Nat.mul_pos (by decide) (Nat.div_pos (hhigh.le.trans hdiff1) (by omega))

theorem advertised_lt (hmin : 1 ≤ d) (hmax : 255 * d < 2 ^ 63) : advertised d < 2 ^ 256 := by
  have hlow := (multiple_bounds hmin hmax).1
  have hmul := Nat.div_mul_le_self Cryptonote.diff1 (d * 255).floor.toNat
  have hle := (Nat.mul_le_mul_left (Cryptonote.diff1 / (d * 255).floor.toNat) hlow).trans hmul
  have hdiff1 : Cryptonote.diff1 < 2 ^ 256 := by decide
  rw [advertised, Nat.mul_comm]
  exact hle.trans_lt hdiff1

/-- The difficulty of a hash within the target is at most one percent below. -/
theorem le_diff1_div (hmin : 1 ≤ d) (hmax : 255 * d < 2 ^ 63) {h : Nat} (hpos : 0 < h)
    (hle : h ≤ advertised d) : 99 / 100 * d ≤ (Cryptonote.diff1 : Rat) / h := by
  obtain ⟨hlow, -, hlt⟩ := multiple_bounds hmin hmax
  have hmul : h * (d * 255).floor.toNat ≤ 255 * Cryptonote.diff1 := by
    calc h * (d * 255).floor.toNat ≤ advertised d * (d * 255).floor.toNat :=
          Nat.mul_le_mul_right _ hle
      _ = 255 * (Cryptonote.diff1 / (d * 255).floor.toNat * (d * 255).floor.toNat) := by
          rw [advertised, Nat.mul_assoc]
      _ ≤ 255 * Cryptonote.diff1 := Nat.mul_le_mul_left _ (Nat.div_mul_le_self _ _)
  have hcast : (h : Rat) * (d * 255).floor.toNat ≤ 255 * Cryptonote.diff1 := by
    exact_mod_cast hmul
  have hh : (0 : Rat) < h := by exact_mod_cast hpos
  rw [le_div_iff₀ hh]
  have hbound : 99 / 100 * d * 255 ≤ ((d * 255).floor.toNat : Rat) := by linarith
  have hscaled := mul_le_mul_of_nonneg_left hbound hh.le
  linarith

end Advertised

section Denotes

variable {d : Rat}

/-- What Cryptonote sends are the highest four bytes of the number. -/
theorem cryptonoteEncodeTarget_eq (hmin : 1 ≤ d) (hmax : 255 * d < 2 ^ 63) :
    cryptonoteEncodeTarget d = .ok (toHexString (leBytes 4 (advertised d / 256 ^ 28))) := by
  have hlt := advertised_lt hmin hmax
  rw [cryptonoteEncodeTarget, targetQuotient_eq hmin hmax]
  generalize advertised d = n at hlt ⊢
  have hlength : (toByteArrayBigEndian n).length = byteLength n := by
    rw [toByteArrayBigEndian, List.length_reverse, length_leBytes]
  have hpadded : (if 0 < (32 : Int) - byteLength n then
      List.replicate ((32 : Int) - byteLength n).toNat 0 ++ toByteArrayBigEndian n
      else ((toByteArrayBigEndian n).drop (byteLength n - 32)).take 32) =
        (leBytes 32 n).reverse := by
    split
    · have hcount : ((32 : Int) - byteLength n).toNat = 32 - byteLength n := by omega
      rw [hcount, zeros_append_toByteArrayBigEndian (by omega)]
    · have hlong : byteLength n = 32 + (byteLength n - 32) := by omega
      have hrest : n / 256 ^ 32 = 0 := Nat.div_eq_of_lt hlt
      rw [toByteArrayBigEndian, hlong, leBytes_add, hrest, leBytes_zero, List.reverse_append,
        Nat.add_sub_cancel_left, List.drop_left' (by simp), List.take_of_length_le (by simp)]
  have htake : ((leBytes 32 n).reverse.take 4).reverse = leBytes 4 (n / 256 ^ 28) := by
    rw [leBytes_add 28 4, List.reverse_append, List.take_left' (by simp), List.reverse_reverse]
  simp only [hlength, hpadded, bind, Except.bind, htake]
  rfl

/-- What Zano sends is the number, if its bytes with the sign are fewer than 32. -/
theorem zanoEncodeTarget_eq (hmin : 1 ≤ d) (hmax : 255 * d < 2 ^ 63) :
    zanoEncodeTarget d = .ok (toHexStringWithPrefix (if advertised d < 2 ^ 247
      then (leBytes 32 (advertised d)).reverse else List.replicate 32 0)) := by
  rw [zanoEncodeTarget, targetQuotient_eq hmin hmax]
  generalize advertised d = n
  have hfits : n < 2 ^ 247 ↔ byteLength n ≤ 31 :=
    (byteLength_le_iff (k := 31) (by decide)).symm
  have hlength : (toByteArrayBigEndian n).length = byteLength n := by
    rw [toByteArrayBigEndian, List.length_reverse, length_leBytes]
  have hpadded : (if 0 < (32 : Int) - byteLength n then
      List.replicate ((32 : Int) - byteLength n).toNat 0 ++ toByteArrayBigEndian n
      else List.replicate 32 0) =
        if n < 2 ^ 247 then (leBytes 32 n).reverse else List.replicate 32 0 := by
    by_cases hshort : byteLength n ≤ 31
    · have hcount : ((32 : Int) - byteLength n).toNat = 32 - byteLength n := by omega
      rw [if_pos (by omega), if_pos (hfits.mpr hshort), hcount,
        zeros_append_toByteArrayBigEndian (by omega)]
    · rw [if_neg (by omega), if_neg (mt hfits.mp hshort)]
  have htake : (if n < 2 ^ 247 then (leBytes 32 n).reverse else List.replicate 32 0).take 32 =
      if n < 2 ^ 247 then (leBytes 32 n).reverse else List.replicate 32 0 := by
    refine List.take_of_length_le ?_
    split <;> simp
  simp only [hlength, hpadded, bind, Except.bind, htake]
  rfl

/-- What Xelis makes of a difficulty has the lowest byte first, if it is not left out. -/
theorem xelisDifficultyToTarget_eq (hmin : 1 ≤ d) (hmax : 255 * d < 2 ^ 63) :
    xelisDifficultyToTarget d = .ok (if advertised d < 2 ^ 247
      then List.replicate (32 - byteLength (advertised d)) 0 ++
        toByteArrayLittleEndian (advertised d)
      else List.replicate 32 0) := by
  have hzero : d ≠ 0 := by
    rintro rfl
    norm_num at hmin
  rw [xelisDifficultyToTarget, if_neg hzero, targetQuotient_eq hmin hmax]
  generalize advertised d = n
  have hfits : n < 2 ^ 247 ↔ byteLength n ≤ 31 :=
    (byteLength_le_iff (k := 31) (by decide)).symm
  have hlength : (toByteArrayLittleEndian n).length = byteLength n := length_leBytes _ _
  have hpadded : (if 0 < (32 : Int) - byteLength n then
      List.replicate ((32 : Int) - byteLength n).toNat 0 ++ toByteArrayLittleEndian n
      else List.replicate 32 0) =
        if n < 2 ^ 247 then List.replicate (32 - byteLength n) 0 ++ toByteArrayLittleEndian n
        else List.replicate 32 0 := by
    by_cases hshort : byteLength n ≤ 31
    · have hcount : ((32 : Int) - byteLength n).toNat = 32 - byteLength n := by omega
      rw [if_pos (by omega), if_pos (hfits.mpr hshort), hcount]
    · rw [if_neg (by omega), if_neg (mt hfits.mp hshort)]
  simp only [hlength, hpadded, bind, Except.bind]
  rfl

/-- The targets that are sent for a difficulty denote its number, and no hash within it is a low
share. -/
structure TargetsDenote (d : Rat) : Prop where
  zano : zanoEncodeTarget d = .ok (toHexStringWithPrefix (leBytes 32 (advertised d)).reverse)
  xelis : ∃ bytes, xelisDifficultyToTarget d = .ok bytes ∧ ofLE bytes.reverse = advertised d
  cryptonote : ∃ bytes, cryptonoteEncodeTarget d = .ok (toHexString bytes) ∧
    ofLE bytes = advertised d / 2 ^ 224
  work : ∀ h : Nat, 0 < h → h ≤ advertised d → 99 / 100 * d ≤ (Cryptonote.diff1 : Rat) / h ∧
    Bitcoin.lowRatio ((Cryptonote.diff1 : Rat) / h) d = false

/-- A number whose bytes, with the sign, are fewer than 32 and read the same from both ends. -/
def Symmetric (n : Nat) : Prop :=
  n < 2 ^ 247 ∧ (leBytes (byteLength n) n).reverse = leBytes (byteLength n) n

theorem zano_denotes_iff (hmin : 1 ≤ d) (hmax : 255 * d < 2 ^ 63) :
    zanoEncodeTarget d = .ok (toHexStringWithPrefix (leBytes 32 (advertised d)).reverse) ↔
      advertised d < 2 ^ 247 := by
  have hpos := advertised_pos hmin hmax
  have hlt := advertised_lt hmin hmax
  rw [zanoEncodeTarget_eq hmin hmax]
  split
  · rename_i hfits
    exact iff_of_true rfl hfits
  · rename_i hlong
    refine iff_of_false (fun h => ?_) hlong
    have hne : (leBytes 32 (advertised d)).reverse ≠ [] := by
      rw [Ne, ← List.length_eq_zero_iff, List.length_reverse, length_leBytes]
      decide
    have hbytes := toHexStringWithPrefix_inj (by decide) hne (Except.ok.inj h)
    have hzero := congrArg (fun bytes => ofLE bytes.reverse) hbytes
    simp only [List.reverse_replicate, List.reverse_reverse] at hzero
    rw [ofLE_leBytes hlt, ← leBytes_zero, ofLE_leBytes (by decide)] at hzero
    exact hpos.ne hzero

theorem xelis_denotes_iff (hmin : 1 ≤ d) (hmax : 255 * d < 2 ^ 63) :
    (∃ bytes, xelisDifficultyToTarget d = .ok bytes ∧ ofLE bytes.reverse = advertised d) ↔
      Symmetric (advertised d) := by
  have hpos := advertised_pos hmin hmax
  simp only [xelisDifficultyToTarget_eq hmin hmax, Except.ok.injEq, exists_eq_left']
  generalize advertised d = n at hpos ⊢
  have hvalue := ofLE_leBytes (lt_byteLength n)
  rw [Symmetric]
  split
  · rename_i hfits
    rw [and_iff_right hfits, List.reverse_append, List.reverse_replicate, ofLE_append,
      ← leBytes_zero, ofLE_leBytes (by positivity), Nat.mul_zero, Nat.add_zero,
      toByteArrayLittleEndian]
    constructor
    · intro h
      have hback := leBytes_ofLE (leBytes (byteLength n) n).reverse
      rw [h, List.length_reverse, length_leBytes] at hback
      exact hback.symm
    · intro h
      rw [h, hvalue]
  · rename_i hlong
    rw [List.reverse_replicate, ← leBytes_zero, ofLE_leBytes (by decide)]
    exact iff_of_false hpos.ne fun h => hlong h.1

/-- **When the advertised targets denote the difficulty.** For every difficulty from one that
fits a `long`, all targets denote it if and only if its number is symmetric. -/
theorem targetsDenote_iff (hmin : 1 ≤ d) (hmax : 255 * d < 2 ^ 63) :
    TargetsDenote d ↔ Symmetric (advertised d) := by
  constructor
  · exact fun h => (xelis_denotes_iff hmin hmax).mp h.xelis
  · intro h
    refine ⟨(zano_denotes_iff hmin hmax).mpr h.1, (xelis_denotes_iff hmin hmax).mpr h,
      ⟨_, cryptonoteEncodeTarget_eq hmin hmax, ?_⟩, fun hash hpos hle => ?_⟩
    · have hlt := advertised_lt hmin hmax
      exact ofLE_leBytes (by omega)
    · have hwork := le_diff1_div hmin hmax hpos hle
      have hd : 0 < d := one_pos.trans_le hmin
      refine ⟨hwork, ?_⟩
      rw [Bitcoin.lowRatio, decide_eq_false_iff_not, not_and, not_lt, le_div_iff₀ hd]
      exact fun _ => hwork

/-- The digits of this difficulty's number alternate, so it is symmetric. -/
theorem targetsDenote_65792 : TargetsDenote 65792 := by
  have hnumber : advertised 65792 =
      0xff00ff00ff00ff00ff00ff00ff00ff00ff00ff00ff00ff00ff00ff00ff00 := by
    decide +kernel
  refine (targetsDenote_iff (by norm_num) (by norm_num)).mpr ?_
  rw [hnumber]
  exact ⟨by decide +kernel, by decide +kernel⟩

/-- Difficulty one stands for all hashes, and Zano sends zero for it. -/
theorem zano_one_sends_zero :
    advertised 1 = 2 ^ 256 - 1 ∧
      zanoEncodeTarget 1 = .ok (toHexStringWithPrefix (List.replicate 32 0)) ∧
      ¬TargetsDenote 1 := by
  have hone : advertised 1 = 2 ^ 256 - 1 := by decide +kernel
  refine ⟨hone, by decide +kernel, fun h => ?_⟩
  have hshort := (zano_denotes_iff (by norm_num) (by norm_num)).mp h.zano
  rw [hone] at hshort
  exact absurd hshort (by decide)

end Denotes

section Jobs

variable {d : Rat}

/-- The target of a job of Cryptonote is the one that is sent. -/
theorem cryptonote_encodeTarget_eq (hmin : 1 ≤ d) (hmax : 255 * d < 2 ^ 63) :
    Cryptonote.encodeTarget d = cryptonoteEncodeTarget d := by
  have hlow := (multiple_bounds hmin hmax).1
  have hdrop : (leBytes 32 (advertised d)).drop 28 = leBytes 4 (advertised d / 256 ^ 28) := by
    rw [leBytes_add 28 4, List.drop_left' (length_leBytes _ _)]
  rw [cryptonoteEncodeTarget_eq hmin hmax, Cryptonote.encodeTarget, if_neg (by omega), ← hdrop,
    advertised, Nat.mul_comm]

/-- The target of a job of Zano is the one that is sent. -/
theorem zano_encodeTarget_eq (hmin : 1 ≤ d) (hmax : 255 * d < 2 ^ 63) :
    Zano.encodeTarget d = zanoEncodeTarget d := by
  have hlow := (multiple_bounds hmin hmax).1
  have hfits : byteLength (advertised d) < 32 ↔ advertised d < 2 ^ 247 :=
    Nat.lt_succ_iff.trans (byteLength_le_iff (k := 31) (by decide))
  rw [zanoEncodeTarget_eq hmin hmax, ← if_congr hfits rfl rfl, Zano.encodeTarget,
    if_neg (by omega), advertised, Nat.mul_comm]

end Jobs

end HashStorm.Blockchain
