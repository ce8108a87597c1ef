import HashStorm.Blockchain.JobSubmissions
import HashStorm.Stratum.HexUtils
import Mathlib.Tactic.Linarith

/-!
# Shares of the Kaspa jobs

`KaspaJob` and the jobs derived from it hash a nonce in their own ways and judge
the hash alike, with one difference: what a share is credited with. A share that
only meets the difficulty before the last retarget is credited with it by
`KarlsencoinJob`, and with the current one by the others. Difficulties are exact
rationals in place of doubles.
-/

namespace HashStorm.Kaspa

open Stratum Blockchain LittleEndian

/-- `RpcBlockHeader`. -/
structure RpcBlockHeader where
  version : UInt32
  parents : List (List Text)
  hashMerkleRoot : Text
  acceptedIdMerkleRoot : Text
  utxoCommitment : Text
  timestamp : Int64
  bits : UInt32
  nonce : UInt64
  daaScore : UInt64
  blueWork : Text
  pruningPoint : Text
  blueScore : UInt64
  deriving DecidableEq, Repr

/-- The hash functions of a coin, the `Target` of NBitcoin, which is a number in a compact form,
and the matrix of `GenerateMatrix`, which is drawn until its rank in doubles is full. -/
structure Library where
  blockHeaderHasher : List UInt8 → List UInt8
  coinbaseHasher : List UInt8 → List UInt8
  shareHasher : List UInt8 → List UInt8
  /-- Whether the share hasher is `FishHashKarlsen`. -/
  isFishHashKarlsen : Bool
  target : Nat → Nat
  generateMatrix : List UInt8 → Nat → Nat → Nat

/-- A job as `Init` leaves it; the transactions of its block are kept as they come. -/
structure Job where
  jobId : Text
  header : RpcBlockHeader
  transactions : List Text
  prePowHash : List UInt8
  difficulty : Rat
  blockTargetValue : Nat
  shareMultiplier : Rat
  shareMultiplier_pos : 0 < shareMultiplier

/-- The first job of a coin without a multiplier, for a block without transactions. -/
def Job.plain (difficulty : Rat) (blockTargetValue : Nat) : Job where
  jobId := text "1"
  header := ⟨1, [], [], [], [], 0, 0, 0, 7, [], [], 0⟩
  transactions := []
  prePowHash := []
  difficulty := difficulty
  blockTargetValue := blockTargetValue
  shareMultiplier := 1
  shareMultiplier_pos := by norm_num

/-- The result of `ProcessShareInternal`. -/
structure Share where
  blockHeight : Int64
  networkDifficulty : Rat
  difficulty : Rat
  isBlockCandidate : Bool
  blockHash : Option Text
  transactionConfirmationData : Option Text
  deriving DecidableEq, Repr

/-- `Diff1Target`. -/
def diff1Target : Nat := 0xffff * 2 ^ 232

/-- `NonceLength`. -/
def nonceLength : Nat := 16

section Nonces

/-- `BuildFinalNonceHex`. -/
def buildFinalNonceHex (extraNonce1 : Option Text) (submitted : Text) (totalLen : Nat) : Text :=
  let raw := extraNonce1.getD [] ++ submitted
  (raw.drop (raw.length - totalLen)).leftpad totalLen 48

/-- `ValidateSubmittedNonce`. -/
def validateSubmittedNonce (nonce : Text) : Except Failure Unit :=
  if nonce = [] ∨ nonce.length > nonceLength ∨ ¬ isFixedLengthHex nonce nonce.length then
    .error (.stratum .other "invalid nonce")
  else .ok ()

/-- `ParseNonceHex`. -/
def parseNonceHex (nonce : Text) : Except Failure UInt64 :=
  if isFixedLengthHex nonce nonceLength then
    match tryParseHexNumber 64 nonce with
    | none => .error (.stratum .other "invalid nonce")
    | some nonceValue => .ok (UInt64.ofNat nonceValue)
  else .error (.stratum .other "invalid nonce")

end Nonces

variable (lib : Library)

section Serialization

/-- The bytes of a header, as `SerializeHeader` and `SerializeHeaderRaw` write them. -/
def headerBytes (header : RpcBlockHeader) (timestamp : Int64) (nonce : UInt64) : List UInt8 :=
  let blueWork := hexToByteArray (List.replicate (header.blueWork.length % 2) 48 ++ header.blueWork)
  leBytes 2 header.version.toNat ++ leBytes 8 header.parents.length ++
    header.parents.flatMap (fun hashes => leBytes 8 hashes.length ++ hashes.flatMap hexToByteArray) ++
    hexToByteArray header.hashMerkleRoot ++ hexToByteArray header.acceptedIdMerkleRoot ++
    hexToByteArray header.utxoCommitment ++
    leBytes 8 timestamp.toUInt64.toNat ++ leBytes 4 header.bits.toNat ++ leBytes 8 nonce.toNat ++
    leBytes 8 header.daaScore.toNat ++ leBytes 8 header.blueScore.toNat ++
    leBytes 8 blueWork.length ++ blueWork ++ hexToByteArray header.pruningPoint

/-- `SerializeHeader`. -/
def serializeHeader (header : RpcBlockHeader) (isPrePow : Bool) : List UInt8 :=
  lib.blockHeaderHasher <|
    if isPrePow then headerBytes header 0 0 else headerBytes header header.timestamp header.nonce

/-- `SerializeHeaderRaw`, which `KaspaHeavyJob` calls with its proof-of-work fields. -/
def serializeHeaderRaw (header : RpcBlockHeader) : List UInt8 :=
  headerBytes header header.timestamp header.nonce

/-- The bytes that `SerializeCoinbase` hashes. -/
def coinbaseBytes (prePowHash : List UInt8) (timestamp : Int64) (nonce : UInt64) : List UInt8 :=
  prePowHash ++ leBytes 8 timestamp.toUInt64.toNat ++ List.replicate 32 0 ++ leBytes 8 nonce.toNat

/-- `SerializeCoinbase`. -/
def serializeCoinbase (prePowHash : List UInt8) (timestamp : Int64) (nonce : UInt64) :
    List UInt8 :=
  lib.coinbaseHasher (coinbaseBytes prePowHash timestamp nonce)

/-- `ComputeCoinbase`: the half bytes of the data are multiplied with the matrix. -/
def computeCoinbase (prePowHash data : List UInt8) : List UInt8 :=
  let matrix := lib.generateMatrix prePowHash
  let vector (j : Nat) : Nat :=
    let byte := (data.getD (j / 2) 0).toNat
    if j % 2 = 0 then byte / 16 else byte % 16
  let product (i : Nat) : Nat :=
    ((List.range 64).map fun j => matrix i j * vector j).sum / 2 ^ 10 % 2 ^ 16
  (List.range 32).map fun i =>
    data.getD i 0 ^^^ UInt8.ofNat (product (2 * i) * 16 ||| product (2 * i + 1))

end Serialization

section Target

/-- `CompactToBig`. -/
def compactToBig (compact : UInt32) : Int :=
  let mantissa := compact &&& 0x007fffff
  let isNegative := compact &&& 0x00800000 ≠ 0
  let exponent := compact >>> 24
  let result : Int :=
    if exponent ≤ 3 then ((mantissa >>> (8 * (3 - exponent))).toNat : Int)
    else mantissa.toNat * 2 ^ (8 * (exponent.toNat - 3))
  if isNegative then -result else result

/-- The target of the block as `Init` sets it, for bits that do not denote a negative number. -/
def initBlockTarget (header : RpcBlockHeader) : Nat := lib.target (compactToBig header.bits).toNat

end Target

/-- What the jobs do each in its own way: the hash of the work in the header, what a share is
credited with, by the context and the difficulty it was accepted for, and the `BlockHash` and
the `TransactionConfirmationData` of a candidate. -/
structure Variant where
  shareHash : Library → Job → List UInt8
  credited : WorkerContext → Rat → Rat
  blockHash : Library → Job → Text
  transactionConfirmationData : Library → Job → Option Text

/-- The number that a hash denotes as a `Target`. -/
def shareValue (shareHash : List UInt8) : Nat := lib.target (ofLE shareHash)

/-- `ToString` of a `uint256`: its bytes, the most significant first. -/
def uint256ToString (value : Nat) : Text := toHexString (leBytes 32 value).reverse

/-- The hash of `KaspaJob`. -/
def kaspaShareHash (lib : Library) (job : Job) : List UInt8 :=
  lib.shareHasher (computeCoinbase lib job.prePowHash
    (serializeCoinbase lib job.prePowHash job.header.timestamp job.header.nonce))

/-- `KaspaJob.ProcessShareInternal`. -/
def kaspaJob : Variant where
  shareHash := kaspaShareHash
  credited context _ := context.difficulty
  blockHash lib job := toHexString (serializeHeader lib job.header false)
  transactionConfirmationData _ _ := none

/-- The hash of `KaspaHeavyJob`. -/
def kaspaHeavyShareHash (lib : Library) (job : Job) : List UInt8 :=
  lib.shareHasher (serializeHeaderRaw job.header)

/-- `KaspaHeavyJob.ProcessShareInternal`. -/
def kaspaHeavyJob : Variant where
  shareHash := kaspaHeavyShareHash
  credited context _ := context.difficulty
  blockHash lib job := toHexString (kaspaHeavyShareHash lib job)
  transactionConfirmationData _ _ := none

/-- The hash of `KarlsencoinJob`, which skips two steps for `FishHashKarlsen`. -/
def karlsencoinShareHash (lib : Library) (job : Job) : List UInt8 :=
  if lib.isFishHashKarlsen then
    lib.shareHasher (coinbaseBytes job.prePowHash job.header.timestamp job.header.nonce)
  else kaspaShareHash lib job

/-- `KarlsencoinJob.ProcessShareInternal`. -/
def karlsencoinJob : Variant where
  shareHash := karlsencoinShareHash
  credited _ stratumDifficulty := stratumDifficulty
  blockHash lib job := uint256ToString (shareValue lib (karlsencoinShareHash lib job))
  transactionConfirmationData lib job := some (toHexString (karlsencoinShareHash lib job))

variable (variant : Variant)

/-- The template of a job is changed in place. -/
def Job.setNonce (job : Job) (nonce : UInt64) : Job :=
  { job with header := { job.header with nonce := nonce } }

/-- Whether the work in the header meets the target of the block. -/
def isBlockCandidate (job : Job) : Bool :=
  shareValue lib (variant.shareHash lib job) ≤ job.blockTargetValue

/-- The difficulty of the work in the header. -/
def shareDiff (job : Job) : Rat :=
  (diff1Target : Rat) / shareValue lib (variant.shareHash lib job) * job.shareMultiplier

/-- The part of `ProcessShareInternal` behind the nonce; the message of a low share is without
its number. -/
def judgeShare (job : Job) (context : WorkerContext) : Except Failure Share := do
  if shareValue lib (variant.shareHash lib job) = 0 then throw .divideByZero
  let isBlockCandidate := isBlockCandidate lib variant job
  let stratumDifficulty ←
    acceptedDifficulty context (shareDiff lib variant job) isBlockCandidate
  return {
    blockHeight := job.header.daaScore.toInt64
    networkDifficulty := job.difficulty
    difficulty := variant.credited context stratumDifficulty / job.shareMultiplier
    isBlockCandidate := isBlockCandidate
    blockHash := if isBlockCandidate then some (variant.blockHash lib job) else none
    transactionConfirmationData :=
      if isBlockCandidate then variant.transactionConfirmationData lib job else none }

/-- `ProcessShareInternal`: what it returns, and the job afterwards. -/
def processShareInternal (job : Job) (context : WorkerContext) (nonce : Text) :
    Except Failure Share × Job :=
  match parseNonceHex nonce with
  | .error e => (.error e, job)
  | .ok nonceValue =>
    (judgeShare lib variant (job.setNonce nonceValue) context, job.setNonce nonceValue)

/-- The key that is registered for a nonce. -/
def submitKey (job : Job) (nonce : Text) : Text := toLower (job.jobId ++ text ":" ++ nonce)

/-- `ProcessShare`: what it returns, and the job and the registered keys afterwards. -/
def processShare (job : Job) (submissions : List Text) (context : WorkerContext)
    (nonce : Option Text) : Except Failure Share × Job × List Text :=
  match validateSubmittedNonce (nonce.getD []) with
  | .error e => (.error e, job, submissions)
  | .ok () =>
    let nonce := buildFinalNonceHex context.extraNonce1 (nonce.getD []) nonceLength
    match parseNonceHex nonce with
    | .error e => (.error e, job, submissions)
    | .ok _ =>
      match tryAdd submissions (submitKey job nonce) with
      | none => (.error (.stratum .duplicateShare "duplicate share"), job, submissions)
      | some submissions =>
        let (result, job) := processShareInternal lib variant job context nonce
        (result, job, submissions)

end HashStorm.Kaspa
