import HashStorm.Blockchain.JobSubmissions
import HashStorm.Stratum.HexUtils

/-!
# Shares of a Warthog job

`WarthogJob` hashes a header whose Merkle root holds the extranonces of a
submission. The body of a found block begins with them too; it is written into
the template of the job, which all workers share. Difficulties are exact
rationals in place of doubles.
-/

namespace HashStorm.Warthog

open Stratum Blockchain LittleEndian

/-- The fields of `WarthogBlockTemplate.Data` that shares read. -/
structure BlockTemplate where
  height : UInt32
  body : Text
  deriving DecidableEq, Repr

/-- SHA-256, once and twice, and the judgement of a header: its value in the balanced work of
SHA-256 and Verushash as a `WarthogCustomFloat` that was converted to a number, and whether the
header is below the target of the job. -/
structure Library where
  sha256S : List UInt8 → List UInt8
  sha256D : List UInt8 → List UInt8
  headerSolutionValue : List UInt8 → Rat
  isBlockCandidate : List UInt8 → Bool

/-- A job as `Init` leaves it. -/
structure Job where
  blockTemplate : BlockTemplate
  difficulty : Rat
  prevHashBytes : List UInt8
  merklePrefixBytes : List UInt8
  versionBytes : List UInt8
  nBitsBytes : List UInt8
  nTimeBytes : List UInt8
  deriving DecidableEq, Repr

/-- The result of `ProcessShareInternal`. -/
structure Share where
  blockHeight : UInt32
  networkDifficulty : Rat
  difficulty : Rat
  isBlockCandidate : Bool
  blockHash : Option Text
  deriving DecidableEq, Repr

/-- `ExtranoncePlaceHolderLength`. -/
def extranoncePlaceHolderLength : Nat := 10

/-- `NonceLength`. -/
def nonceLength : Nat := 8

/-- `TimeTolerance`. -/
def timeTolerance : Int := 600

/-- `Diff1`. -/
def diff1 : Rat := 1

variable (lib : Library)

section Serialization

variable (job : Job)

/-- `SerializeMerkleRoot`. -/
def serializeMerkleRoot (extraNonce : List UInt8) : List UInt8 :=
  lib.sha256S (job.merklePrefixBytes ++ extraNonce)

/-- `SerializeHeader`; the time and the nonce are written with the most significant byte
first. -/
def serializeHeader (extraNonce : List UInt8) (nTime nonce : UInt32) : List UInt8 :=
  job.prevHashBytes ++ job.nBitsBytes ++ serializeMerkleRoot lib job extraNonce ++
    job.versionBytes ++ (leBytes 4 nTime.toNat).reverse ++ (leBytes 4 nonce.toNat).reverse

/-- `SerializeExtranonce`; a missing extranonce of the worker is an exception. -/
def serializeExtranonce (extraNonce1 : Option Text) (extraNonce2 : Text) :
    Except Failure (List UInt8) :=
  match extraNonce1 with
  | none => .error .nullReference
  | some extraNonce1 => .ok (hexToByteArray extraNonce1 ++ hexToByteArray extraNonce2)

/-- `SerializeBody`. -/
def serializeBody (extraNonce : List UInt8) : List UInt8 :=
  let bodyBytes := hexToByteArray job.blockTemplate.body
  extraNonce ++ (bodyBytes.drop extraNonce.length).take (bodyBytes.length - extraNonce.length)

end Serialization

/-- The template of a job is changed in place. -/
def Job.setBody (job : Job) (body : Text) : Job :=
  { job with blockTemplate := { job.blockTemplate with body := body } }

/-- The difficulty of a header; it is infinite, so more than any other, for the value zero. -/
def lowRatio (headerSolutionValue difficulty : Rat) : Bool :=
  headerSolutionValue ≠ 0 && Bitcoin.lowRatio (diff1 / headerSolutionValue) difficulty

/-- The difficulty a share is accepted for, which may be that before the last retarget. -/
def acceptedDifficulty (context : WorkerContext) (headerSolutionValue : Rat)
    (isBlockCandidate : Bool) : Except Failure Rat :=
  if !isBlockCandidate && lowRatio headerSolutionValue context.difficulty then
    match context.varDiffUpdated, context.previousDifficulty with
    | true, some previous =>
      if lowRatio headerSolutionValue previous then
        .error (.stratum .lowDifficultyShare "low difficulty share")
      else .ok previous
    | _, _ => .error (.stratum .lowDifficultyShare "low difficulty share")
  else .ok context.difficulty

/-- `ProcessShareInternal`: what it returns, and the job afterwards. The message of a low share
is without its number. -/
def processShareInternal (job : Job) (context : WorkerContext) (extraNonce2 : Text)
    (nTime nonce : UInt32) : Except Failure (Share × Option Text) × Job :=
  match serializeExtranonce context.extraNonce1 extraNonce2 with
  | .error e => (.error e, job)
  | .ok extraNonce =>
    let header := serializeHeader lib job extraNonce nTime nonce
    let isBlockCandidate := lib.isBlockCandidate header
    match acceptedDifficulty context (lib.headerSolutionValue header) isBlockCandidate with
    | .error e => (.error e, job)
    | .ok stratumDifficulty =>
      let share (blockHash : Option Text) : Share :=
        ⟨job.blockTemplate.height, job.difficulty, stratumDifficulty, isBlockCandidate, blockHash⟩
      if isBlockCandidate then
        (.ok (share (some (toHexString (lib.sha256D header))), some (toHexString header)),
          job.setBody (toHexString (serializeBody job extraNonce)))
      else (.ok (share none, none), job)

/-- The key of a submission. -/
def submitKey (extraNonce1 : Option Text) (extraNonce2 nTime nonce : Text) : Text :=
  toLower (extraNonce1.getD [] ++ extraNonce2 ++ nTime ++ nonce)

/-- A submission, as its texts, at a time in seconds. -/
structure Submission where
  extraNonce2 : Option Text
  nTime : Option Text
  nonce : Option Text
  now : Int
  deriving DecidableEq, Repr

/-- One of the fixed-length numbers of a submission. -/
def parseHex8 (value : Text) (length : Nat) (sizeError invalidError : String) :
    Except Failure UInt32 :=
  if value = [] ∨ value.length ≠ length then .error (.stratum .other sizeError)
  else if isFixedLengthHex value length then
    match tryParseHexNumber 32 value with
    | none => .error (.stratum .other invalidError)
    | some number => .ok (UInt32.ofNat number)
  else .error (.stratum .other invalidError)

/-- The checks of `ProcessShare` before the duplicate check: the time and the nonce. -/
def validate (job : Job) (context : WorkerContext) (submission : Submission) :
    Except Failure (UInt32 × UInt32) := do
  let extraNonce2 := submission.extraNonce2.getD []
  let expectedExtraNonce2Length : Int :=
    extranoncePlaceHolderLength * 2 - ((context.extraNonce1.map List.length).getD 0 : Nat)
  if extraNonce2 = [] ∨ (extraNonce2.length : Int) ≠ expectedExtraNonce2Length then
    throw (.stratum .other "incorrect size of extranonce2")
  if ¬ isFixedLengthHex extraNonce2 extraNonce2.length then
    throw (.stratum .other "invalid extranonce2")
  let nTimeInt ← parseHex8 (submission.nTime.getD []) 8 "incorrect size of ntime" "invalid ntime"
  if nTimeInt.toNat < ofLE job.nTimeBytes.reverse ∨
      (nTimeInt.toNat : Int) > submission.now + timeTolerance then
    throw (.stratum .other "ntime out of range")
  let nonceInt ← parseHex8 (submission.nonce.getD []) nonceLength "incorrect size of nonce"
    "invalid nonce"
  return (nTimeInt, nonceInt)

/-- `ProcessShare`: what it returns, and the job and the registered keys afterwards. -/
def processShare (job : Job) (submissions : List Text) (context : WorkerContext)
    (submission : Submission) : Except Failure (Share × Option Text) × Job × List Text :=
  match validate job context submission with
  | .error e => (.error e, job, submissions)
  | .ok (nTime, nonce) =>
    let extraNonce2 := submission.extraNonce2.getD []
    match tryAdd submissions (submitKey context.extraNonce1 extraNonce2
      (submission.nTime.getD []) (submission.nonce.getD [])) with
    | none => (.error (.stratum .duplicateShare "duplicate"), job, submissions)
    | some submissions =>
      let (result, job) := processShareInternal lib job context extraNonce2 nTime nonce
      (result, job, submissions)

end HashStorm.Warthog
