import HashStorm.Blockchain.WorkerJobs
import HashStorm.Stratum.HexUtils

/-!
# Worker jobs of a Cryptonote pool

`CryptonoteJobManager` keeps one current job. A worker job is prepared from it with
an extranonce of its own, but keeps only the height, the extranonce and the seed
hash; a submission is hashed with the template of whichever job is current by
then, if its height is the same. Difficulties are exact rationals in place of
doubles.
-/

namespace HashStorm.Cryptonote

open Stratum Blockchain LittleEndian

/-- The fields of `GetBlockTemplateResponse` that jobs are built from. -/
structure BlockTemplate where
  blob : Text
  difficulty : Int64
  height : UInt32
  seedHash : Text
  reservedOffset : Int32
  deriving DecidableEq, Repr

/-- The native functions of a coin, with its `blobType` and `RandomXRealm`. -/
structure Library where
  /-- `ConvertBlob`, which returns the blob that is hashed, or null. -/
  convertBlob : List UInt8 → Option (List UInt8)
  /-- `hashFunc`, of a seed hash, the data and a height. -/
  hashFunc : Text → List UInt8 → UInt64 → List UInt8
  /-- `GetBlockId`. -/
  getBlockId : List UInt8 → List UInt8
  /-- `CryptonightHashFast`. -/
  cryptonightHashFast : List UInt8 → List UInt8
  /-- Whether `GetBlockId` computes the block hash of the blob type. -/
  hasBlockId : Bool

/-- `CryptonoteJob`, without its counter. -/
structure Job where
  blockTemplate : BlockTemplate
  blobTemplate : List UInt8
  prevHash : Text
  deriving DecidableEq, Repr

/-- `CryptonoteWorkerJob`. The code does not keep the job it was prepared from. -/
structure WorkerJob where
  id : Text
  height : UInt32
  extraNonce : UInt32
  difficulty : Rat
  seedHash : Text
  job : Job
  deriving DecidableEq, Repr

/-- What the connections of a pool share: the instance id, the current job with the counter of
its extranonces, and the counter of the job ids. -/
structure Shared where
  instanceId : List UInt8
  currentJob : Option Job
  extraNonce : Int32
  currentJobId : Nat
  deriving DecidableEq, Repr

/-- `CryptonoteWorkerContext`. -/
structure Context where
  worker : WorkerContext
  isAuthorized : Bool
  deriving DecidableEq, Repr

/-- The result of `ProcessShare`. -/
structure Share where
  blockHeight : UInt32
  networkDifficulty : Int64
  difficulty : Rat
  isBlockCandidate : Bool
  blockHash : Option Text
  transactionConfirmationData : Option Text
  deriving DecidableEq, Repr

/-- What a share was accepted for: the job it was hashed with, the blob, and what was hashed. -/
structure Judged where
  share : Share
  job : Job
  blob : List UInt8
  blobConverted : List UInt8
  deriving DecidableEq, Repr

/-- `CryptonoteSubmitShareRequest`, and whether the daemon would accept a block. -/
structure Submission where
  workerId : Option Nat
  jobId : Option Text
  nonce : Text
  hash : Text
  blockAccepted : Bool
  deriving DecidableEq, Repr

/-- A login, by whether the address is valid, or another difficulty. -/
inductive Change where
  | login (validAddress : Bool)
  | setDifficulty (difficulty : Rat) (varDiffUpdated : Bool)
  deriving DecidableEq, Repr

/-- `ExtraNonceSize`. -/
def extraNonceSize : Int := 4

/-- `BlobNonceOffset`. -/
def blobNonceOffset : Int := 39

/-- `Diff1`, and `Diff1b`. -/
def diff1 : Nat := 2 ^ 256 - 1

section Jobs

/-- `CopyTo` of bytes at an offset; they must fit. -/
def copyTo (bytes blob : List UInt8) (offset : Int) : Except Failure (List UInt8) :=
  if 0 ≤ offset ∧ offset.toNat + bytes.length ≤ blob.length then
    .ok (blob.take offset.toNat ++ bytes ++ blob.drop (offset.toNat + bytes.length))
  else .error .argumentOutOfRange

/-- The constructor of `CryptonoteJob`, with `PrepareBlobTemplate`. -/
def createJob (instanceId : List UInt8) (blockTemplate : BlockTemplate) (prevHash : Text) :
    Except Failure Job := do
  let blobTemplate ← copyTo instanceId (hexToByteArray blockTemplate.blob)
    (blockTemplate.reservedOffset.toInt + extraNonceSize)
  return ⟨blockTemplate, blobTemplate, prevHash⟩

/-- The hash of the previous block in a template, which is too short otherwise. -/
def prevHash (blockTemplate : BlockTemplate) : Option Text :=
  let blob := hexToByteArray blockTemplate.blob
  if 39 ≤ blob.length then some (toHexString ((blob.drop 7).take 32)) else none

/-- Whether a template is for a new job. -/
def Shared.isNew (shared : Shared) (newHash : Text) : Bool :=
  shared.currentJob.all fun job => newHash ≠ job.prevHash

/-- `UpdateJob`; it ignores a template that causes an exception. -/
def updateJob (shared : Shared) (blockTemplate : BlockTemplate) : Shared :=
  match prevHash blockTemplate with
  | none => shared
  | some newHash =>
    if shared.isNew newHash then
      match createJob shared.instanceId blockTemplate newHash with
      | .error _ => shared
      | .ok job => { shared with currentJob := some job, extraNonce := 0 }
    else shared

/-- The blob of a job with an extranonce in it. -/
def blobWithExtraNonce (job : Job) (workerExtraNonce : UInt32) : Except Failure (List UInt8) :=
  copyTo (leBytes 4 workerExtraNonce.toNat).reverse job.blobTemplate
    job.blockTemplate.reservedOffset.toInt

/-- The blob of a job with an extranonce and a nonce in it. -/
def blobWithNonce (job : Job) (workerExtraNonce : UInt32) (nonce : List UInt8) :
    Except Failure (List UInt8) := do
  copyTo nonce (← blobWithExtraNonce job workerExtraNonce) blobNonceOffset

/-- `EncodeTarget`, for difficulties that are not negative. -/
def encodeTarget (difficulty : Rat) : Except Failure Text :=
  let diff := (difficulty * 255).floor.toNat
  if diff = 0 then .error .divideByZero
  else .ok (toHexString ((leBytes 32 (diff1 / diff * 255)).drop 28))

variable (lib : Library)

/-- `EncodeBlob`. -/
def encodeBlob (job : Job) (workerExtraNonce : UInt32) : Except Failure Text := do
  match lib.convertBlob (← blobWithExtraNonce job workerExtraNonce) with
  | none => throw .nullReference
  | some blobConverted => return toHexString blobConverted

/-- `PrepareWorkerJob`: the extranonce, with the new counter, which stays positive. -/
def nextExtraNonce (extraNonce : Int32) : UInt32 × Int32 :=
  let next := extraNonce + 1
  (next.toUInt32, if next < 0 then 0 else next)

/-- The worker job with its blob and its target, as `PrepareWorkerJob` returns them. -/
def prepareWorkerJob (job : Job) (id : Text) (workerExtraNonce : UInt32) (difficulty : Rat) :
    Except Failure (WorkerJob × Text × Text) := do
  let blob ← encodeBlob lib job workerExtraNonce
  let target ← encodeTarget difficulty
  return (⟨id, job.blockTemplate.height, workerExtraNonce, difficulty, job.blockTemplate.seedHash,
    job⟩, blob, target)

/-- `CreateWorkerJob`, which is called for authorized connections. -/
def createWorkerJob (shared : Shared) (context : Context) : Shared × Option WorkerJob :=
  if context.isAuthorized then
    let currentJobId := shared.currentJobId + 1
    match shared.currentJob with
    | none => ({ shared with currentJobId := currentJobId }, none)
    | some job =>
      let (workerExtraNonce, extraNonce) := nextExtraNonce shared.extraNonce
      let shared := { shared with currentJobId := currentJobId, extraNonce := extraNonce }
      match prepareWorkerJob lib job (text (toString currentJobId)) workerExtraNonce
        context.worker.difficulty with
      | .error _ => (shared, none)
      | .ok (workerJob, blob, target) =>
        (shared, if blob = [] ∨ target = [] then none else some workerJob)
  else (shared, none)

end Jobs

section Shares

variable (lib : Library)

/-- `ValidateSubmitFields`. -/
def validateSubmitFields (nonce hash : Text) : Except Failure Unit :=
  if nonce = [] ∨ ¬ matchesLowerHex nonce 8 then .error (.stratum .minusOne "malformed nonce")
  else if isLowercaseHex hash 64 then .ok ()
  else .error (.stratum .minusOne "bad hash")

/-- The block hash of a candidate, with `ComputeBlockHash`. -/
def blockHash (blob blobConverted : List UInt8) : List UInt8 :=
  if lib.hasBlockId then lib.getBlockId blob
  else lib.cryptonightHashFast (UInt8.ofNat blobConverted.length :: blobConverted)

/-- The part of `ProcessShare` behind the hash; the message of a low share is without its
number. -/
def judgeHash (job : Job) (context : WorkerContext) (blob blobConverted headerHash : List UInt8) :
    Except Failure Share := do
  let headerValue := ofLE headerHash
  if headerValue = 0 then throw .divideByZero
  let shareDiff := (diff1 : Rat) / headerValue
  let isBlockCandidate := decide ((job.blockTemplate.difficulty.toInt : Rat) ≤ shareDiff)
  let stratumDifficulty ← acceptedDifficulty context shareDiff isBlockCandidate
  return {
    blockHeight := job.blockTemplate.height
    networkDifficulty := job.blockTemplate.difficulty
    difficulty := stratumDifficulty
    isBlockCandidate := isBlockCandidate
    blockHash :=
      if isBlockCandidate then some (toHexString (blockHash lib blob blobConverted)) else none
    transactionConfirmationData := none }

/-- `ProcessShare`. -/
def processShare (job : Job) (context : WorkerContext) (nonce : Text) (workerExtraNonce : UInt32)
    (workerHash : Text) : Except Failure Judged := do
  if workerExtraNonce = 0 then throw .argumentOutOfRange
  validateSubmitFields nonce workerHash
  let blob ← blobWithNonce job workerExtraNonce (hexToByteArray nonce)
  match lib.convertBlob blob with
  | none => throw (.stratum .minusOne "malformed blob")
  | some blobConverted =>
    let headerHash := lib.hashFunc job.blockTemplate.seedHash blobConverted
      (UInt64.ofNat job.blockTemplate.height.toNat)
    if toHexString headerHash ≠ workerHash then throw (.stratum .minusOne "bad hash")
    let share ← judgeHash lib job context blob blobConverted headerHash
    return ⟨share, job, blob, blobConverted⟩

/-- A block candidate is one if the daemon accepts it. -/
def Share.confirm (share : Share) (blockAccepted : Bool) : Share :=
  if share.isBlockCandidate then
    { share with
      isBlockCandidate := blockAccepted
      transactionConfirmationData := if blockAccepted then share.blockHash else none }
  else share

/-- `SubmitShareAsync`, which takes the current job. -/
def submitShare (shared : Shared) (context : Context) (workerJob : WorkerJob)
    (submission : Submission) : Except Failure Judged := do
  match shared.currentJob with
  | none => throw (.stratum .minusOne "block expired")
  | some job =>
    if workerJob.height ≠ job.blockTemplate.height then
      throw (.stratum .minusOne "block expired")
    let judged ← processShare lib job context.worker submission.nonce workerJob.extraNonce
      submission.hash
    return { judged with share := judged.share.confirm submission.blockAccepted }

/-- The checks of `OnSubmitAsync` before `GetJob`. -/
def checkRequest (connectionId : Nat) (context : Context) (submission : Submission) :
    Except Failure Text :=
  if !context.isAuthorized then .error (.stratum .minusOne "unauthorized")
  else if submission.workerId ≠ some connectionId then .error (.stratum .minusOne "cheater")
  else
    match submission.jobId with
    | none => .error (.stratum .minusOne "invalid jobid")
    | some jobId => .ok jobId

/-- The key of a nonce, which is looked up without regard to case. -/
def submitKey (submission : Submission) : Except Failure Text := do
  validateSubmitFields submission.nonce submission.hash
  return toLower submission.nonce

/-- A login, or another difficulty. -/
def change (context : Context) : Change → Context
  | .login validAddress => { context with isAuthorized := validAddress }
  | .setDifficulty difficulty varDiffUpdated =>
    { context with
      worker :=
        { context.worker with
          difficulty := difficulty
          previousDifficulty := some context.worker.difficulty
          varDiffUpdated := varDiffUpdated } }

/-- `CryptonotePool`. -/
def pool :
    WorkerJobChain Shared Context Change BlockTemplate WorkerJob Submission Text Judged where
  maxActiveJobs := 4
  updateJob := updateJob
  connect difficulty := ⟨⟨none, difficulty, none, false⟩, false⟩
  change shared context request := (shared, change context request)
  createWorkerJob := createWorkerJob lib
  id := WorkerJob.id
  checkRequest := checkRequest
  submitKey := submitKey
  duplicate := .stratum .minusOne "duplicate share"
  judge := submitShare lib

end Shares

end HashStorm.Cryptonote
