import HashStorm.Blockchain.JobSubmissions
import HashStorm.Stratum.HexUtils

/-!
# Shares of the Alephium jobs

An `AlephiumJob` hashes a nonce and the header of its template twice, checks that
the hash belongs to the chain of the template, and compares it with the target of
the block. Both are `Target`s of NBitcoin before they are compared. Difficulties
are exact rationals in place of doubles.
-/

namespace HashStorm.Alephium

open Stratum Blockchain LittleEndian

/-- `AlephiumStratumError`. -/
inductive AlephiumStratumError where
  | jobNotFound
  | invalidJobChainIndex
  | invalidWorker
  | invalidNonce
  | duplicatedShare
  | lowDifficultyShare
  | invalidBlockChainIndex
  | minusOne
  deriving DecidableEq, Repr

/-- A share ends in an `AlephiumStratumException`, or in an exception of the runtime. -/
inductive Failure where
  | alephium (code : AlephiumStratumError) (message : String)
  | divideByZero
  deriving DecidableEq, Repr

/-- The fields of `AlephiumBlockTemplate` that shares are judged by. -/
structure BlockTemplate where
  jobId : Option Text
  height : UInt64
  fromGroup : Int
  toGroup : Int
  headerBlob : Text
  targetBlob : Text
  deriving DecidableEq, Repr

/-- The hash function `Blake3`, and the `Target` of NBitcoin for a number. -/
structure Library where
  hasher : List UInt8 → List UInt8
  target : Nat → Nat

/-- A job as `Init` leaves it. -/
structure Job where
  blockTemplate : BlockTemplate
  difficulty : Rat
  blockTargetValue : Nat
  deriving DecidableEq, Repr

/-- The result of `ProcessShareInternal`. -/
structure Share where
  blockHeight : Int64
  networkDifficulty : Rat
  difficulty : Rat
  isBlockCandidate : Bool
  blockHash : Option Text
  deriving DecidableEq, Repr

/-- `Diff1Target`. -/
def diff1Target : Nat := 2 ^ (256 - 30) - 1

/-- `NonceLength`. -/
def nonceLength : Nat := 24

/-- `GroupSize`. -/
def groupSize : Nat := 4

/-- `ShareMultiplier`. -/
def shareMultiplier : Rat := 1

/-- `BlockChainIndex`. -/
def blockChainIndex (hashBytes : List UInt8) : Int × Int :=
  let beforeLast := hashBytes.getD (hashBytes.length - 2) 0
  let last := hashBytes.getD (hashBytes.length - 1) 0
  let index := (beforeLast.toNat * 2 ^ 8 + last.toNat) % (groupSize * groupSize)
  ((index / groupSize : Nat), (index % groupSize : Nat))

variable (lib : Library) (job : Job)

/-- The number of the target that a template has, in big-endian order. -/
def BlockTemplate.target (blockTemplate : BlockTemplate) : Nat :=
  ofLE (hexToReverseByteArray blockTemplate.targetBlob)

/-- `Init`. -/
def init (blockTemplate : BlockTemplate) : Except Failure Job :=
  let target := lib.target blockTemplate.target
  if target = 0 then .error .divideByZero
  else .ok {
    blockTemplate := blockTemplate
    difficulty := (diff1Target * 1024 : Nat) / (target * 1024 : Nat) * 2 ^ 30
    blockTargetValue := target }

/-- The hash of a nonce and the header. -/
def hashBytes (nonce : Text) : List UInt8 :=
  lib.hasher (lib.hasher (hexToByteArray nonce ++ hexToByteArray job.blockTemplate.headerBlob))

/-- The number that a hash denotes, in big-endian order, as a `Target`. -/
def hashBytesValue (nonce : Text) : Nat := lib.target (ofLE (hashBytes lib job nonce).reverse)

/-- Whether a nonce meets the target of the block. -/
def isBlockCandidate (nonce : Text) : Bool := hashBytesValue lib job nonce ≤ job.blockTargetValue

/-- The difficulty of a nonce. -/
def shareDiff (nonce : Text) : Rat :=
  (diff1Target * 1024 : Nat) / hashBytesValue lib job nonce / 1024

/-- `ProcessShareInternal`; the messages of a low share and of another chain are without their
numbers. -/
def processShareInternal (context : WorkerContext) (nonce : Text) : Except Failure Share := do
  if (hexToByteArray nonce).length ≠ nonceLength then
    throw (.alephium .invalidNonce "incorrect size of nonce")
  let (fromGroup, toGroup) := blockChainIndex (hashBytes lib job nonce)
  if fromGroup ≠ job.blockTemplate.fromGroup ∨ toGroup ≠ job.blockTemplate.toGroup then
    throw (.alephium .invalidBlockChainIndex "invalid block chain index")
  if hashBytesValue lib job nonce = 0 then throw .divideByZero
  let isBlockCandidate := isBlockCandidate lib job nonce
  let .ok stratumDifficulty :=
      acceptedDifficulty context (shareDiff lib job nonce) isBlockCandidate |
    throw (.alephium .lowDifficultyShare "low difficulty share")
  return {
    blockHeight := job.blockTemplate.height.toInt64
    networkDifficulty := job.difficulty
    difficulty := stratumDifficulty / shareMultiplier
    isBlockCandidate := isBlockCandidate
    blockHash :=
      if isBlockCandidate then some (toHexString (hashBytes lib job nonce)) else none }

/-- `ProcessShare`: what it returns, and the registered nonces afterwards. -/
def processShare (submissions : List Text) (context : WorkerContext) (nonce : Option Text) :
    Except Failure Share × List Text :=
  let nonce := nonce.getD []
  if nonce.length ≠ nonceLength * 2 then
    (.error (.alephium .invalidNonce "incorrect size of nonce"), submissions)
  else if isFixedLengthHex nonce (nonceLength * 2) then
    match tryAdd submissions (toLower nonce) with
    | none => (.error (.alephium .duplicatedShare "duplicate share"), submissions)
    | some submissions' => (processShareInternal lib job context nonce, submissions')
  else (.error (.alephium .invalidNonce "invalid nonce"), submissions)

variable {lib job}

/-- A share that is returned says whether it is a candidate. -/
theorem processShareInternal_ok {context : WorkerContext} {nonce : Text} {share : Share}
    (h : processShareInternal lib job context nonce = .ok share) :
    share.isBlockCandidate = isBlockCandidate lib job nonce := by
  rw [processShareInternal] at h
  split at h
  · cases h
  dsimp only at h
  split at h
  · cases h
  split at h
  · cases h
  split at h
  · obtain rfl := Except.ok.inj h
    rfl
  · cases h

end HashStorm.Alephium
