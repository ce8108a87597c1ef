import HashStorm.Blockchain.Alephium.Job
import HashStorm.Blockchain.Handshake.Job
import HashStorm.Blockchain.Kaspa.Job
import HashStorm.Lib.CompactTarget

/-!
# Hashes that meet the target of a block

The jobs of Kaspa, Alephium and Handshake turn a hash into a `Target` of NBitcoin
before they compare it with the target of the block, and a `Target` is rounded
down to a compact number. A hash that meets the target is never missed, but a hash
above it counts as a block, too, unless a compact number lies between.
-/

namespace HashStorm.Blockchain

open LittleEndian HashStorm.Compact

variable {mantissas : Nat}

/-- A decision is reached, which a value of zero prevents, and it is the comparison of the hash
with the target. -/
def ExactTest (value : Nat) (isBlockCandidate : Bool) (hash target : Nat) : Prop :=
  value ≠ 0 ∧ isBlockCandidate = true ↔ hash ≤ target

/-- The hash is not zero, and it meets the target or a compact number lies between. -/
def Decided (mantissas hash target : Nat) : Prop :=
  hash ≠ 0 ∧ (hash ≤ target ∨ Separated mantissas target hash)

theorem ofLE_lt_of_length {bytes : List UInt8} (h : bytes.length = 32) :
    ofLE bytes < 2 ^ 256 := by
  have hlt := ofLE_lt bytes
  rw [h] at hlt
  exact hlt

/-- A decision that only asks whether a compact number separates the hash from the bound is the
comparison exactly for the decided hashes. -/
theorem exactTest_iff {target : Nat → Nat} (htarget : RoundsDown mantissas (2 ^ 256) target)
    {hash bound : Nat} {isBlockCandidate : Bool} (hhash : hash < 2 ^ 256)
    (hcandidate : isBlockCandidate = true ↔ ¬Separated mantissas bound hash) :
    ExactTest (target hash) isBlockCandidate hash bound ↔ Decided mantissas hash bound := by
  rw [ExactTest, Decided, Ne, htarget.eq_zero_iff hhash, hcandidate]
  by_cases hzero : hash = 0
  · rw [hzero]
    simp
  · rw [and_iff_right hzero, and_iff_right hzero]
    exact not_separated_iff_le_iff

/-- **When a candidate is a hash that meets the target.** For every hash and target, the decision
is the comparison if and only if the hash is not zero, and it meets the target or a compact
number lies between. -/
theorem candidates_exact_iff :
    (∀ lib : Kaspa.Library, RoundsDown mantissas (2 ^ 256) lib.target →
      ∀ (variant : Kaspa.Variant) (job : Kaspa.Job) (target : Nat), target < 2 ^ 256 →
        Kaspa.compactToBig job.header.bits = target →
        job.blockTargetValue = Kaspa.initBlockTarget lib job.header →
        (variant.shareHash lib job).length = 32 →
          (ExactTest (Kaspa.shareValue lib (variant.shareHash lib job))
              (Kaspa.isBlockCandidate lib variant job) (ofLE (variant.shareHash lib job)) target ↔
            Decided mantissas (ofLE (variant.shareHash lib job)) target)) ∧
      (∀ lib : Alephium.Library, RoundsDown mantissas (2 ^ 256) lib.target →
        ∀ (job : Alephium.Job) (nonce : Stratum.Text), job.blockTemplate.target < 2 ^ 256 →
          Alephium.init lib job.blockTemplate = .ok job →
          (Alephium.hashBytes lib job nonce).length = 32 →
            (ExactTest (Alephium.hashBytesValue lib job nonce)
                (Alephium.isBlockCandidate lib job nonce)
                (ofLE (Alephium.hashBytes lib job nonce).reverse) job.blockTemplate.target ↔
              Decided mantissas (ofLE (Alephium.hashBytes lib job nonce).reverse)
                job.blockTemplate.target)) ∧
      (∀ lib : Handshake.Library, RoundsDown mantissas (2 ^ 256) lib.target →
        ∀ (job : Handshake.Job) (extraNonce : List UInt8) (nTime nonce : UInt32),
          (Handshake.shareHashBytes lib job extraNonce nTime nonce).length = 32 →
            (ExactTest (Handshake.shareHashValue lib job extraNonce nTime nonce)
                (Handshake.isBlockCandidate lib job extraNonce nTime nonce)
                (ofLE (Handshake.shareHashBytes lib job extraNonce nTime nonce).reverse)
                job.blockTargetValue ↔
              Decided mantissas
                (ofLE (Handshake.shareHashBytes lib job extraNonce nTime nonce).reverse)
                job.blockTargetValue)) := by
  refine ⟨?_, ?_, ?_⟩
  · intro lib hlib variant job target htarget hbits hjob hhash
    have hlt := ofLE_lt_of_length hhash
    refine exactTest_iff hlib hlt ?_
    rw [Kaspa.isBlockCandidate, Kaspa.shareValue, hjob, Kaspa.initBlockTarget, hbits,
      Int.toNat_natCast, decide_eq_true_iff]
    exact hlib.le_target_iff hlt htarget
  · intro lib hlib job nonce htarget hinit hhash
    have hlt := ofLE_lt_of_length (List.length_reverse.trans hhash)
    have hvalue : job.blockTargetValue = lib.target job.blockTemplate.target := by
      rw [Alephium.init] at hinit
      split at hinit
      · cases hinit
      · exact congrArg Alephium.Job.blockTargetValue (Except.ok.inj hinit).symm
    refine exactTest_iff hlib hlt ?_
    rw [Alephium.isBlockCandidate, Alephium.hashBytesValue, hvalue, decide_eq_true_iff]
    exact hlib.le_target_iff hlt htarget
  · intro lib hlib job extraNonce nTime nonce hhash
    have hlt := ofLE_lt_of_length (List.length_reverse.trans hhash)
    refine exactTest_iff hlib hlt ?_
    rw [Handshake.isBlockCandidate, Handshake.shareHashValue, decide_eq_true_iff]
    exact hlib.le_iff hlt

section Example

/-- A coin with a `Target` that drops lower bytes, as with 23 bits and a sign, and with one hash
for all shares. -/
def exampleLibrary (hash : Nat) : Kaspa.Library where
  blockHeaderHasher _ := []
  coinbaseHasher _ := []
  shareHasher _ := leBytes 32 hash
  isFishHashKarlsen := false
  target := roundDown (2 ^ 23)
  generateMatrix _ _ _ := 0

/-- The target of a block with the bits `0x1d00ffff`. -/
def exampleTarget : Nat := 0xffff * 256 ^ 26

/-- A job of a block with these bits. -/
def exampleJob : Kaspa.Job :=
  { Kaspa.Job.plain 1 exampleTarget with
    header := ⟨1, [], [], [], [], 0, 0x1d00ffff, 0, 7, [], [], 0⟩ }

theorem exampleLibrary_roundsDown (hash : Nat) :
    RoundsDown (2 ^ 23) (2 ^ 256) (exampleLibrary hash).target :=
  roundDown_roundsDown (by decide) (by decide) _

/-- A hash just above the target counts as a block. -/
theorem hash_above_target_is_candidate :
    ¬∀ mantissas (lib : Kaspa.Library), RoundsDown mantissas (2 ^ 256) lib.target →
      ∀ (variant : Kaspa.Variant) (job : Kaspa.Job) (target : Nat), target < 2 ^ 256 →
        Kaspa.compactToBig job.header.bits = target →
        job.blockTargetValue = Kaspa.initBlockTarget lib job.header →
        (variant.shareHash lib job).length = 32 →
          ExactTest (Kaspa.shareValue lib (variant.shareHash lib job))
            (Kaspa.isBlockCandidate lib variant job) (ofLE (variant.shareHash lib job))
            target := by
  intro hclaim
  have htest := hclaim _ _ (exampleLibrary_roundsDown (exampleTarget + 1)) Kaspa.kaspaJob
    exampleJob exampleTarget (by decide +kernel) (by decide +kernel) (by decide +kernel)
    (by decide +kernel)
  have hcandidate : Kaspa.isBlockCandidate (exampleLibrary (exampleTarget + 1)) Kaspa.kaspaJob
      exampleJob = true := by decide +kernel
  have habove : ¬ofLE (Kaspa.kaspaJob.shareHash (exampleLibrary (exampleTarget + 1)) exampleJob) ≤
      exampleTarget := by decide +kernel
  exact habove (htest.mp ⟨by decide +kernel, hcandidate⟩)

/-- The decision about the least hash is exact. -/
theorem candidates_exact_least :
    ExactTest (Kaspa.shareValue (exampleLibrary 1)
        (Kaspa.kaspaJob.shareHash (exampleLibrary 1) exampleJob))
      (Kaspa.isBlockCandidate (exampleLibrary 1) Kaspa.kaspaJob exampleJob)
      (ofLE (Kaspa.kaspaJob.shareHash (exampleLibrary 1) exampleJob)) exampleTarget :=
  (candidates_exact_iff.1 _ (exampleLibrary_roundsDown 1) Kaspa.kaspaJob exampleJob exampleTarget
    (by decide +kernel) (by decide +kernel) (by decide +kernel) (by decide +kernel)).mpr
    ⟨by decide +kernel, Or.inl (by decide +kernel)⟩

end Example

end HashStorm.Blockchain
