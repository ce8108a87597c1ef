import HashStorm.Blockchain.JobSubmissions
import HashStorm.Stratum.HexUtils

/-!
# Shares of the Handshake jobs

A `HandshakeJob` hashes a share in three parts, one of which commits to the rest of
the header. The hash is a `Target` of NBitcoin before it is compared with the
target of the block. Difficulties are exact rationals in place of doubles.
-/

namespace HashStorm.Handshake

open Stratum Blockchain LittleEndian

/-- The fields of `HandshakeBlockTemplate` that shares are built from; the transactions by their
hex data, which may be missing. -/
structure BlockTemplate where
  version : UInt32
  height : UInt32
  bits : Text
  previousBlockhash : Text
  treeRoot : Text
  reservedRoot : Text
  transactions : List (Option Text)
  deriving DecidableEq, Repr

/-- The hash functions of the coin, of which the first is also asked for a size, and what the job
calls of NBitcoin: the `Target` of a number, the bits of that of a text, and how a
`BitcoinStream` writes a length. -/
structure Library where
  blockHasher : Nat → List UInt8 → List UInt8
  headerHasher : List UInt8 → List UInt8
  shareHasher : List UInt8 → List UInt8
  target : Nat → Nat
  compactBits : Text → UInt32
  varInt : UInt32 → List UInt8

/-- A job as `Init` leaves it. -/
structure Job where
  blockTemplate : BlockTemplate
  merkleRoot : List UInt8
  witnessRoot : List UInt8
  coinbase : List UInt8
  maskBytes : List UInt8
  blockTargetValue : Nat
  difficulty : Rat
  shareMultiplier : Rat
  deriving DecidableEq, Repr

/-- The result of `ProcessShareInternal`. -/
structure Share where
  blockHeight : UInt32
  networkDifficulty : Rat
  difficulty : Rat
  isBlockCandidate : Bool
  blockHash : Option Text
  deriving DecidableEq, Repr

/-- `Diff1`. -/
def diff1 : Nat := 0xffff * 2 ^ 208

variable (lib : Library) (job : Job)

/-- `PaddingPreviousBlockWithTreeRoot`. -/
def paddingPreviousBlockWithTreeRoot (size : Nat) : List UInt8 :=
  let previousBlockhashBytes := hexToByteArray job.blockTemplate.previousBlockhash
  let treeRootBytes := hexToByteArray job.blockTemplate.treeRoot
  (List.range size).map fun i =>
    previousBlockhashBytes.getD (i % 32) 0 ^^^ treeRootBytes.getD (i % 32) 0

/-- `SerializeSubHeader`. -/
def serializeSubHeader (extraNonce : List UInt8) : List UInt8 :=
  extraNonce ++ hexToByteArray job.blockTemplate.reservedRoot ++ job.witnessRoot ++
    job.merkleRoot ++ leBytes 4 job.blockTemplate.version.toNat ++
    leBytes 4 (lib.compactBits job.blockTemplate.bits).toNat

/-- `SerializeHeader`. -/
def serializeHeader (nonce nTime : UInt32) (extraNonce : List UInt8) : List UInt8 :=
  leBytes 4 nonce.toNat ++ leBytes 8 nTime.toNat ++
    hexToByteArray job.blockTemplate.previousBlockhash ++
    hexToByteArray job.blockTemplate.treeRoot ++ serializeSubHeader lib job extraNonce ++
    job.maskBytes

/-- `SerializeShare`. -/
def serializeShare (nonce nTime : UInt32) (commitHash : List UInt8) : List UInt8 :=
  leBytes 4 nonce.toNat ++ leBytes 8 nTime.toNat ++ paddingPreviousBlockWithTreeRoot job 20 ++
    hexToByteArray job.blockTemplate.previousBlockhash ++
    hexToByteArray job.blockTemplate.treeRoot ++ commitHash

/-- `SerializeCommitHash`. -/
def serializeCommitHash (subHeader : List UInt8) : List UInt8 :=
  let commitMask := lib.headerHasher
    (hexToByteArray job.blockTemplate.previousBlockhash ++ job.maskBytes)
  lib.headerHasher (lib.headerHasher subHeader ++ commitMask)

/-- `SerializeExtranonce`, for extranonces that fit. -/
def serializeExtranonce (extraNonce1 extraNonce2 : Text) : List UInt8 :=
  let extraNonceBytes := hexToByteArray extraNonce1 ++ hexToByteArray extraNonce2
  extraNonceBytes ++ List.replicate (24 - extraNonceBytes.length) 0

/-- The bytes of the hash of a share. -/
def shareHashBytes (extraNonceBytes : List UInt8) (nTime nonce : UInt32) : List UInt8 :=
  let commitHash := serializeCommitHash lib job (serializeSubHeader lib job extraNonceBytes)
  let shareBytes := serializeShare job nonce nTime commitHash
  let shareLeft := lib.blockHasher 64 shareBytes
  let shareRight := lib.shareHasher (shareBytes ++ paddingPreviousBlockWithTreeRoot job 8)
  let hash := lib.blockHasher 32
    (shareLeft ++ paddingPreviousBlockWithTreeRoot job 32 ++ shareRight)
  List.zipWith (· ^^^ ·) hash job.maskBytes

/-- The number that the hash of a share denotes, in big-endian order, as a `Target`. -/
def shareHashValue (extraNonceBytes : List UInt8) (nTime nonce : UInt32) : Nat :=
  lib.target (ofLE (shareHashBytes lib job extraNonceBytes nTime nonce).reverse)

/-- Whether a share meets the target of the block. -/
def isBlockCandidate (extraNonceBytes : List UInt8) (nTime nonce : UInt32) : Bool :=
  shareHashValue lib job extraNonceBytes nTime nonce ≤ job.blockTargetValue

/-- `SerializeBlock`. -/
def serializeBlock (header coinbase : List UInt8) : Except Failure (List UInt8) := do
  let rawTransactionBuffer ← Bitcoin.buildRawTransactionBuffer job.blockTemplate.transactions
  let transactionCount := UInt32.ofNat (job.blockTemplate.transactions.length + 1)
  return header ++ lib.varInt transactionCount ++ coinbase ++ rawTransactionBuffer

/-- `ProcessShareInternal`; the message of a low share is without its number. -/
def processShareInternal (context : WorkerContext) (extraNonce2 : Text) (nTime nonce : UInt32) :
    Except Failure (Share × Option Text) := do
  let extraNonceBytes := serializeExtranonce (context.extraNonce1.getD []) extraNonce2
  let shareHash := shareHashBytes lib job extraNonceBytes nTime nonce
  let shareHashValue := shareHashValue lib job extraNonceBytes nTime nonce
  if shareHashValue = 0 then throw .divideByZero
  let shareDiff := (diff1 : Rat) / shareHashValue * job.shareMultiplier
  let isBlockCandidate := isBlockCandidate lib job extraNonceBytes nTime nonce
  let stratumDifficulty ← acceptedDifficulty context shareDiff isBlockCandidate
  let share : Share :=
    { blockHeight := job.blockTemplate.height
      networkDifficulty := job.difficulty
      difficulty := stratumDifficulty / job.shareMultiplier
      isBlockCandidate := isBlockCandidate
      blockHash := if isBlockCandidate then some (toHexString shareHash) else none }
  if isBlockCandidate then
    let headerBytes := serializeHeader lib job nonce nTime extraNonceBytes
    let blockBytes ← serializeBlock lib job headerBytes job.coinbase
    return (share, some (toHexString blockBytes))
  else return (share, none)

variable {lib job}

/-- A share that is returned says whether it is a candidate. -/
theorem processShareInternal_ok {context : WorkerContext} {extraNonce2 : Text}
    {nTime nonce : UInt32} {share : Share} {block : Option Text}
    (h : processShareInternal lib job context extraNonce2 nTime nonce = .ok (share, block)) :
    share.isBlockCandidate = isBlockCandidate lib job
      (serializeExtranonce (context.extraNonce1.getD []) extraNonce2) nTime nonce := by
  rw [processShareInternal] at h
  dsimp only at h
  split at h
  · cases h
  obtain ⟨stratumDifficulty, -, h⟩ := Bitcoin.bind_eq_ok.mp h
  split at h
  · obtain ⟨blockBytes, -, h⟩ := Bitcoin.bind_eq_ok.mp h
    obtain ⟨rfl, rfl⟩ := Prod.mk.inj (Except.ok.inj h)
    rfl
  · obtain ⟨rfl, rfl⟩ := Prod.mk.inj (Except.ok.inj h)
    rfl

end HashStorm.Handshake
