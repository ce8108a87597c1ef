import HashStorm.Stratum.Text

/-!
# Extranonces

`ExtraNonceProviderBase` numbers the workers of a pool. An extranonce is the
instance id in the four high bits and a counter below them, written in lower
case and in twice as many digits as it has bytes.
-/

namespace HashStorm.Blockchain

open Stratum

/-- `IdBits`. -/
def idBits : Nat := 4

/-- `idShift`. -/
def idShift (extranonceBytes : Nat) : Nat := extranonceBytes * 8 - idBits

/-- `nonceMax`. -/
def nonceMax (extranonceBytes : Nat) : Nat := 2 ^ idShift extranonceBytes - 1

/-- `ExtraNonceProviderBase`, for one to eight bytes. -/
structure ExtraNonceProvider where
  extranonceBytes : Nat
  id : Nat
  counter : Nat
  extranonceBytes_pos : 0 < extranonceBytes := by decide
  extranonceBytes_le : extranonceBytes ≤ 8 := by decide
  id_lt : id < 2 ^ idBits := by decide
  counter_le : counter ≤ nonceMax extranonceBytes := by decide
  deriving DecidableEq, Repr

/-- A new provider of `size + 1` bytes; the id keeps its low bits. -/
def ExtraNonceProvider.create (size : Fin 8) (instanceId : UInt8) : ExtraNonceProvider where
  extranonceBytes := size.val + 1
  id := instanceId.toNat % 2 ^ idBits
  counter := 0
  extranonceBytes_pos := Nat.succ_pos _
  extranonceBytes_le := size.isLt
  id_lt := Nat.mod_lt _ (Nat.two_pow_pos _)
  counter_le := Nat.zero_le _

/-- The new counter of `Next`: it rolls over to zero. -/
def ExtraNonceProvider.nextCounter (p : ExtraNonceProvider) : Nat :=
  if p.counter + 1 > nonceMax p.extranonceBytes then 0 else p.counter + 1

/-- `Next`. -/
def ExtraNonceProvider.next (p : ExtraNonceProvider) : Text × ExtraNonceProvider :=
  (toStringX (p.extranonceBytes * 2) (p.id <<< idShift p.extranonceBytes ||| p.nextCounter),
    { p with
      counter := p.nextCounter
      counter_le := by
        unfold nextCounter
        split <;> omega })

/-- An extranonce has two lower-case digits for every byte. -/
theorem ExtraNonceProvider.next_spec (p : ExtraNonceProvider) :
    p.next.1.length = p.extranonceBytes * 2 ∧ ∀ c ∈ p.next.1, LowerHexDigit c :=
  ⟨length_toStringX _ _, lowerHexDigit_toStringX⟩

end HashStorm.Blockchain
