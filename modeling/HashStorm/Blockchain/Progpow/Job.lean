import HashStorm.Blockchain.WorkerJobs
import HashStorm.Lib.Rounding
import HashStorm.Stratum.HexUtils
import Mathlib.Data.Int.Log

/-!
# Worker jobs of a Progpow pool

A worker job of `ProgpowPool` keeps its `ProgpowJob`, and a submission is evaluated on
the header of this job with the extranonce of its connection, whatever job is
current by then. The header is the same for all worker jobs of the job on the
connection, and on every other one with the same extranonce; used nonces are
remembered by each worker job alone. Difficulties are exact rationals in place of
doubles; a `decimal` keeps 15 digits of them.
-/

namespace HashStorm.Progpow

open Stratum Blockchain LittleEndian Rounding WorkerJobState

/-- The job classes that process shares in their own ways; `FiroJob`, `KiiroJob` and
`RealichainJob` do alike, and so do `ProgpowJob` and `FrencoinJob`. -/
inductive JobClass where
  | progpow
  | firo
  | telestai
  deriving DecidableEq, Repr

/-- What a job calls: the library of the Bitcoin jobs, the hash functions of the coin, and
`IProgpowCache` with `Compute` of a height, a header hash and a nonce. -/
structure Library where
  bitcoin : Bitcoin.Library
  coinbaseHasher : List UInt8 → List UInt8
  headerHasher : List UInt8 → List UInt8
  blockHasher : List UInt8 → List UInt8
  compute : Int32 → List UInt8 → UInt64 → Option (List UInt8 × List UInt8)
  seedHash : UInt32 → List UInt8

/-- A job as `Init` leaves it; `shareMultiplier` is the field of `BitcoinJob`. -/
structure Job where
  jobClass : JobClass
  blockTemplate : Bitcoin.BlockTemplate
  coinbaseInitial : List UInt8
  coinbaseFinal : List UInt8
  merkleSteps : List (List UInt8)
  shareMultScaled : Int
  shareMultiplier : Rat
  difficulty : Rat
  blockTargetValue : Nat
  deriving DecidableEq, Repr

/-- `ProgpowWorkerJob`; without a current job it is prepared without one. -/
structure WorkerJob where
  id : Text
  job : Option Job
  height : UInt32
  extraNonce1 : Option Text
  bits : Option Text
  seedHash : Option Text
  deriving DecidableEq, Repr

/-- What the connections of a pool share. -/
structure Shared where
  currentJob : Option Job
  extraNonceProvider : ExtraNonceProvider
  currentJobId : Nat

/-- `ProgpowWorkerContext`. -/
structure Context where
  worker : WorkerContext
  isAuthorized : Bool
  isSubscribed : Bool
  deriving DecidableEq, Repr

/-- A request that changes the context. -/
inductive Change where
  | subscribe
  | authorize (validAddress : Bool)
  | setDifficulty (difficulty : Rat) (varDiffUpdated : Bool)
  deriving DecidableEq, Repr

/-- A template, by the job that it is initialised to, and whether the update is forced. -/
structure Update where
  job : Job
  forceUpdate : Bool
  deriving DecidableEq, Repr

/-- The result of `ProcessShareInternal`, whose difficulty may be no number. -/
structure Share where
  blockHeight : UInt32
  networkDifficulty : Rat
  difficulty : Option Rat
  isBlockCandidate : Bool
  blockHash : Option Text
  transactionConfirmationData : Option Text
  deriving DecidableEq, Repr

/-- What a share was accepted for: the header hash and the nonce it was evaluated on. -/
structure Judged where
  share : Share
  blockHex : Option Text
  headerHash : List UInt8
  nonce : UInt64
  deriving DecidableEq, Repr

/-- A submission, by its parameters, whose texts may be missing, and the coinbase transaction if
the daemon would accept a block. -/
structure Submission where
  request : List (Option Text)
  coinbaseTx : Option Text
  deriving DecidableEq, Repr

/-- The parameters of a submission. -/
structure SubmitParams where
  jobId : Text
  nonce : Text
  headerHash : Text
  mixHash : Text
  deriving DecidableEq, Repr

section Headers

variable (lib : Library) (job : Job)

/-- `SerializeCoinbase`. -/
def serializeCoinbase (extraNonce1 : Text) : List UInt8 :=
  job.coinbaseInitial ++ hexToByteArray extraNonce1 ++ job.coinbaseFinal

/-- `SerializeHeader`, whose nonce is the height. -/
def serializeHeader (coinbaseHash : List UInt8) : List UInt8 :=
  lib.bitcoin.toBytes
    { version := job.blockTemplate.version.toInt32
      bits := job.blockTemplate.bits
      hashPrevBlock := job.blockTemplate.previousBlockhash
      hashMerkleRoot := Bitcoin.withFirst lib.bitcoin job.merkleSteps coinbaseHash
      blockTime := job.blockTemplate.curTime.toNat
      nonce := job.blockTemplate.height }

/-- The bytes of the header with an extranonce. -/
def headerBytes (extraNonce1 : Text) : List UInt8 :=
  serializeHeader lib job (lib.coinbaseHasher (serializeCoinbase job extraNonce1))

/-- The header hash with an extranonce. -/
def headerHash (extraNonce1 : Text) : List UInt8 :=
  (lib.headerHasher (headerBytes lib job extraNonce1)).reverse

/-- `WriteVarInt`. -/
def writeVarInt (value : UInt32) : List UInt8 :=
  if value < 0xfd then [value.toUInt8]
  else if value ≤ 0xffff then 0xfd :: leBytes 2 value.toNat
  else 0xfe :: leBytes 4 value.toNat

/-- `SerializeBlock`. -/
def serializeBlock (header coinbase : List UInt8) (nonce : UInt64) (mixHash : List UInt8) :
    Except Failure (List UInt8) := do
  let rawTransactionBuffer ← Bitcoin.buildRawTransactionBuffer job.blockTemplate.transactions
  let txCount := UInt32.ofNat (job.blockTemplate.transactions.length + 1)
  return header ++ leBytes 8 nonce.toNat ++ mixHash ++ writeVarInt txCount ++ coinbase ++
    rawTransactionBuffer

end Headers

section Jobs

/-- Whether a template is for a new block. -/
def Shared.isNew (shared : Shared) (blockTemplate : Bitcoin.BlockTemplate) : Bool :=
  shared.currentJob.all fun job =>
    job.blockTemplate.previousBlockhash ≠ blockTemplate.previousBlockhash ||
      job.blockTemplate.height < blockTemplate.height

/-- `UpdateJob`. -/
def updateJob (shared : Shared) (update : Update) : Shared :=
  if shared.isNew update.job.blockTemplate || update.forceUpdate then
    { shared with currentJob := some update.job }
  else shared

variable (lib : Library)

/-- `PrepareWorkerJob`, with the header hash; a missing extranonce is an exception. -/
def prepareWorkerJob (currentJob : Option Job) (id : Text) (extraNonce1 : Option Text) :
    Except Failure (WorkerJob × Option Text) :=
  match currentJob with
  | none => .ok (⟨id, none, 0, extraNonce1, none, none⟩, none)
  | some job =>
    match extraNonce1 with
    | none => .error .nullReference
    | some nonce1 =>
      .ok (⟨id, some job, job.blockTemplate.height, extraNonce1, some job.blockTemplate.bits,
        some (toHexString (lib.seedHash job.blockTemplate.height))⟩,
        some (toHexString (headerHash lib job nonce1)))

/-- `CreateWorkerJob`, which is called for subscribed and for authorized connections. -/
def createWorkerJob (shared : Shared) (context : Context) : Shared × Option WorkerJob :=
  if context.isSubscribed || context.isAuthorized then
    let currentJobId := shared.currentJobId + 1
    let shared := { shared with currentJobId := currentJobId }
    match prepareWorkerJob lib shared.currentJob (text (toString currentJobId))
      context.worker.extraNonce1 with
    | .error _ => (shared, none)
    | .ok (workerJob, _) => (shared, some workerJob)
  else (shared, none)

/-- A subscription assigns an extranonce; the other requests change only the context. -/
def change (shared : Shared) (context : Context) : Change → Shared × Context
  | .subscribe =>
    let (extraNonce1, extraNonceProvider) := shared.extraNonceProvider.next
    ({ shared with extraNonceProvider := extraNonceProvider },
      { context with
        worker := { context.worker with extraNonce1 := some extraNonce1 }
        isSubscribed := true })
  | .authorize validAddress => (shared, { context with isAuthorized := validAddress })
  | .setDifficulty difficulty varDiffUpdated =>
    (shared,
      { context with
        worker :=
          { context.worker with
            difficulty := difficulty
            previousDifficulty := some context.worker.difficulty
            varDiffUpdated := varDiffUpdated } })

end Jobs

section Difficulty

/-- `Diff1` of a job class. -/
def JobClass.diff1 : JobClass → Nat
  | .firo => 0xffff * 2 ^ 208
  | .progpow | .telestai => 0xff * 2 ^ 216

/-- Round to the nearest integer, half away from zero, if the number is not negative. -/
def roundAwayFromZero (x : Rat) : Int := (x + 1 / 2).floor

/-- `shareMultScaled`; the conversion to a `long` saturates. -/
def shareMultScaled (shareMultiplier : Rat) : Int :=
  max 1 (min (2 ^ 63 - 1) (roundAwayFromZero (shareMultiplier * 10 ^ 6)))

/-- What `Init` keeps of the share multiplier; it leaves the field of `BitcoinJob` at zero. -/
def Job.initShareMultiplier (job : Job) (shareMultiplier : Rat) : Job :=
  { job with shareMultScaled := Progpow.shareMultScaled shareMultiplier, shareMultiplier := 0 }

/-- `ComputeShareDiffScaledExact`. -/
def computeShareDiffScaledExact (shareMultScaled : Int) (diff1 resultValue : Nat) : Int :=
  let baseScaled : Int := diff1 * 10 ^ 12 / max 1 resultValue
  max 1 (baseScaled * shareMultScaled / 10 ^ 6)

/-- The conversion of a double to a `decimal`, which keeps 15 digits and at most 28 places. -/
def toDecimal (x : Rat) : Rat :=
  let places := min 28 (14 - Int.log 10 x)
  roundHalfEven (x * 10 ^ places) / 10 ^ places

/-- `MeetsDifficultyThresholdExact` with a threshold of 0.99; a number that does not fit 64 bits is
an exception. -/
def meetsDifficultyThresholdExact (shareDiffScaled : Int) (stratumDifficulty : Rat) :
    Except Failure Bool :=
  let d := toDecimal (if stratumDifficulty ≤ 0 then 1 else stratumDifficulty)
  let scaled := roundAwayFromZero (d * 10 ^ 12)
  if 2 ^ 63 ≤ scaled then .error .argumentOutOfRange
  else .ok (scaled * 990000 / 10 ^ 6 ≤ shareDiffScaled)

/-- The difficulty that `ProgpowJob` accepts a share for; the message is without its number. -/
def acceptedDifficultyExact (context : WorkerContext) (shareDiffScaled : Int)
    (isBlockCandidate : Bool) : Except Failure Rat := do
  if isBlockCandidate then return context.difficulty
  if ← meetsDifficultyThresholdExact shareDiffScaled context.difficulty then
    return context.difficulty
  match context.varDiffUpdated, context.previousDifficulty with
  | true, some previous =>
    if ← meetsDifficultyThresholdExact shareDiffScaled previous then return previous
    else throw (.stratum .lowDifficultyShare "low difficulty share")
  | _, _ => throw (.stratum .lowDifficultyShare "low difficulty share")

/-- The difficulty that a share is accepted for by the job classes. -/
def Job.stratumDifficulty (job : Job) (context : WorkerContext) (resultValue : Nat)
    (isBlockCandidate : Bool) : Except Failure Rat :=
  match job.jobClass with
  | .progpow =>
    acceptedDifficultyExact context
      (computeShareDiffScaledExact job.shareMultScaled job.jobClass.diff1 resultValue)
      isBlockCandidate
  | .firo | .telestai =>
    if resultValue = 0 then .error .divideByZero
    else
      acceptedDifficulty context ((job.jobClass.diff1 : Rat) / resultValue * job.shareMultiplier)
        isBlockCandidate

/-- The quotient of two doubles, if it is a number. -/
def quotient (x y : Rat) : Option Rat := if y = 0 then none else some (x / y)

end Difficulty

section Shares

variable (lib : Library)

/-- How a job class compares digits: `ProgpowJob` disregards their case. -/
def JobClass.sameHex (jobClass : JobClass) (computed submitted : Text) : Bool :=
  match jobClass with
  | .progpow => computed = toLower submitted
  | .firo | .telestai => computed = submitted

/-- The block hash of a candidate; the digits of the nonce are without leading zeros. -/
def blockHash (job : Job) (headerBytes resultBytes : List UInt8) (nonce : UInt64)
    (mixHash : Text) : List UInt8 :=
  match job.jobClass with
  | .firo =>
    lib.blockHasher (headerBytes ++
      hexToReverseByteArray (text (String.ofList (Nat.toDigits 16 nonce.toNat))) ++
      hexToReverseByteArray mixHash)
  | .progpow | .telestai => resultBytes

/-- The block of a candidate. -/
def blockHex (job : Job) (extraNonce1 : Text) (nonce : UInt64) (mixHash : List UInt8)
    (isBlockCandidate : Bool) : Except Failure (Option Text) :=
  if isBlockCandidate then do
    let block ← serializeBlock job (headerBytes lib job extraNonce1)
      (serializeCoinbase job extraNonce1) nonce mixHash
    return some (toHexString block)
  else .ok none

/-- `ProcessShareInternal`. -/
def processShareInternal (job : Job) (context : WorkerContext) (nonce : UInt64)
    (inputHeaderHash mixHash : Text) : Except Failure Judged := do
  match context.extraNonce1 with
  | none => throw .nullReference
  | some extraNonce1 =>
    let header := headerHash lib job extraNonce1
    if !job.jobClass.sameHex (toHexString header) inputHeaderHash then
      throw (.stratum .minusOne "bad header-hash")
    match lib.compute job.blockTemplate.height.toInt32 header nonce with
    | none => throw (.stratum .minusOne "bad hash")
    | some (mixHashOut, resultBytes) =>
      if !job.jobClass.sameHex (toHexString mixHashOut) mixHash then
        throw (.stratum .minusOne "bad mix-hash")
      let resultValue := ofLE resultBytes.reverse
      let isBlockCandidate := decide (resultValue ≤ job.blockTargetValue)
      let stratumDifficulty ← job.stratumDifficulty context resultValue isBlockCandidate
      let blockHex ← blockHex lib job extraNonce1 nonce mixHashOut.reverse isBlockCandidate
      return {
        share :=
          { blockHeight := job.blockTemplate.height
            networkDifficulty := job.difficulty
            difficulty := quotient stratumDifficulty job.shareMultiplier
            isBlockCandidate := isBlockCandidate
            blockHash :=
              if isBlockCandidate then
                some (toHexString
                  (blockHash lib job (headerBytes lib job extraNonce1) resultBytes nonce mixHash))
              else none
            transactionConfirmationData := none }
        blockHex := blockHex
        headerHash := header
        nonce := nonce }

/-- `GetSubmitHexParam`. -/
def getSubmitHexParam (value : Option Text) (name : String) (hexLength : Nat) :
    Except Failure Text :=
  match value with
  | none => .error (.stratum .other ("missing or invalid " ++ name))
  | some value =>
    if value.length ≠ hexLength + 2 ∨ toLower (value.take 2) ≠ text "0x" then
      .error (.stratum .other ("incorrect size of " ++ name))
    else if isFixedLengthHex (value.drop 2) hexLength then .ok (value.drop 2)
    else .error (.stratum .other ("invalid " ++ name))

/-- `ReadSubmitString`. -/
def readSubmitString (value : Option Text) : Except Failure Text :=
  match value with
  | none => .error (.stratum .other "invalid params")
  | some value => .ok value

/-- `char.IsWhiteSpace` of a UTF-16 code unit. -/
def isWhiteSpace (c : UInt16) : Bool :=
  (9 ≤ c ∧ c ≤ 13) ∨ c = 0x20 ∨ c = 0x85 ∨ c = 0xa0 ∨ c = 0x1680 ∨ (0x2000 ≤ c ∧ c ≤ 0x200a) ∨
    c = 0x2028 ∨ c = 0x2029 ∨ c = 0x202f ∨ c = 0x205f ∨ c = 0x3000

/-- The part of `SubmitShareAsync` before `GetJob`. -/
def Submission.read (submission : Submission) : Except Failure SubmitParams := do
  let param (index : Nat) : Option Text := (submission.request[index]?).getD none
  if submission.request.length < 5 then throw (.stratum .other "invalid params")
  let workerValue ← readSubmitString (param 0)
  let jobId ← readSubmitString (param 1)
  let nonce ← getSubmitHexParam (param 2) "nonce" 16
  let headerHash ← getSubmitHexParam (param 3) "headerHash" 64
  let mixHash ← getSubmitHexParam (param 4) "mixHash" 64
  if workerValue.all isWhiteSpace then
    throw (.stratum .other "missing or invalid workername")
  return ⟨jobId, nonce, headerHash, mixHash⟩

/-- The checks of `OnSubmitAsync` and `SubmitShareAsync` before `GetJob`. -/
def checkRequest (context : Context) (submission : Submission) : Except Failure Text := do
  if !context.isAuthorized then throw (.stratum .unauthorizedWorker "unauthorized worker")
  if !context.isSubscribed then throw (.stratum .notSubscribed "not subscribed")
  let params ← submission.read
  return params.jobId

/-- The nonce as `ProcessShare` reads it, after its checks of the digits. -/
def SubmitParams.parse (params : SubmitParams) : Except Failure UInt64 :=
  if params.mixHash.length ≠ 64 then .error (.stratum .other "incorrect size of mixHash")
  else if !isFixedLengthHex params.mixHash 64 then .error (.stratum .other "invalid mixHash")
  else if params.headerHash.length ≠ 64 then
    .error (.stratum .other "incorrect size of headerHash")
  else if !isFixedLengthHex params.headerHash 64 then
    .error (.stratum .other "invalid headerHash")
  else if params.nonce.length ≠ 16 then .error (.stratum .other "incorrect size of nonce")
  else if isFixedLengthHex params.nonce 16 then
    match tryParseHexNumber 64 params.nonce with
    | none => .error (.stratum .other "invalid nonce")
    | some nonce => .ok (UInt64.ofNat nonce)
  else .error (.stratum .other "invalid nonce")

/-- The key that `RegisterSubmit` adds. -/
def SubmitParams.key (params : SubmitParams) : Text :=
  toLower params.nonce ++ toLower params.headerHash ++ toLower params.mixHash

/-- `ProcessShare` up to `RegisterSubmit`. -/
def submitKey (submission : Submission) : Except Failure Text := do
  let params ← submission.read
  let _ ← params.parse
  return params.key

/-- A block candidate is one if the daemon accepts it. -/
def Share.confirm (share : Share) (coinbaseTx : Option Text) : Share :=
  if share.isBlockCandidate then
    { share with
      isBlockCandidate := coinbaseTx.isSome
      transactionConfirmationData := coinbaseTx }
  else share

/-- `ProcessShare` behind `RegisterSubmit`, and the rest of `SubmitShareAsync`. -/
def submitShare (_shared : Shared) (context : Context) (workerJob : WorkerJob)
    (submission : Submission) : Except Failure Judged := do
  let params ← submission.read
  let nonce ← params.parse
  match workerJob.job with
  | none => throw .nullReference
  | some job =>
    let judged ← processShareInternal lib job context.worker nonce params.headerHash params.mixHash
    return { judged with share := judged.share.confirm submission.coinbaseTx }

/-- `ProgpowPool`. -/
def pool (maxActiveJobs : Nat) :
    WorkerJobChain Shared Context Change Update WorkerJob Submission Text Judged where
  maxActiveJobs := maxActiveJobs
  updateJob := updateJob
  connect difficulty := ⟨⟨none, difficulty, none, false⟩, false, false⟩
  change := change
  createWorkerJob := createWorkerJob lib
  id := WorkerJob.id
  checkRequest _ := checkRequest
  submitKey := submitKey
  duplicate := .stratum .duplicateShare "duplicate share"
  judge := submitShare lib

end Shares

section Sound

/-- The work of a share. -/
def Judged.work (judged : Judged) : List UInt8 × UInt64 := (judged.headerHash, judged.nonce)

/-- The work that a submission is evaluated on. -/
def evaluated (lib : Library) (_shared : Shared) (context : Context) (workerJob : WorkerJob)
    (submission : Submission) : Option (List UInt8 × UInt64) := do
  let params ← submission.read.toOption
  let nonce ← params.parse.toOption
  let job ← workerJob.job
  let extraNonce1 ← context.worker.extraNonce1
  return (headerHash lib job extraNonce1, nonce)

/-- A nonce was not accepted for the header under another worker job. -/
def OwnNonce (lib : Library) (maxActiveJobs : Nat)
    (s : WorkerJobState Shared Context WorkerJob Text Judged)
    (op : WorkerJobOp Change Update Submission) : Prop :=
  s.OwnWork (pool lib maxActiveJobs) (evaluated lib) Judged.work op

instance (lib : Library) (maxActiveJobs : Nat)
    (s : WorkerJobState Shared Context WorkerJob Text Judged)
    (op : WorkerJobOp Change Update Submission) : Decidable (OwnNonce lib maxActiveJobs s op) :=
  inferInstanceAs (Decidable (s.OwnWork (pool lib maxActiveJobs) (evaluated lib) Judged.work op))

/-- The digits of a nonce, in lower case, denote the nonce. -/
theorem SubmitParams.parse_ok {params : SubmitParams} {nonce : UInt64}
    (h : params.parse = .ok nonce) :
    isLowercaseHex (toLower params.nonce) 16 = true ∧
      hexNumber (toLower params.nonce) = nonce.toNat := by
  rw [SubmitParams.parse] at h
  iterate 5
    split at h
    · cases h
  split at h
  · rename_i hfixed
    obtain ⟨hlength, hdigits⟩ := isFixedLengthHex_iff.mp hfixed
    split at h
    · cases h
    · rename_i n hn
      obtain ⟨hlt, hnumber⟩ := tryParseHexNumber_eq_some hn
      cases h
      refine ⟨isLowercaseHex_iff.mpr ⟨?_, lowerHexDigit_toLower hdigits⟩, ?_⟩
      · rw [length_toLower, hlength]
      · rw [hexNumber_toLower hdigits, hnumber, UInt64.toNat_ofNat', Nat.mod_eq_of_lt hlt]
  · cases h

theorem JobClass.toLower_of_sameHex {jobClass : JobClass} {bytes : List UInt8} {submitted : Text}
    (h : jobClass.sameHex (toHexString bytes) submitted = true) :
    toLower submitted = toHexString bytes := by
  have hlower := toLower_of_lowerHexDigit (lowerHexDigit_toHexString bytes)
  cases jobClass with
  | progpow => exact (of_decide_eq_true h).symm
  | firo => rw [← of_decide_eq_true h, hlower]
  | telestai => rw [← of_decide_eq_true h, hlower]

variable {lib : Library}

/-- A share is evaluated on the header of the job, and its digits are those of the header hash
and of the mix hash. -/
theorem processShareInternal_ok {job : Job} {context : WorkerContext} {nonce : UInt64}
    {inputHeaderHash mixHash : Text} {judged : Judged}
    (h : processShareInternal lib job context nonce inputHeaderHash mixHash = .ok judged) :
    judged.nonce = nonce ∧
      (∃ extraNonce1, context.extraNonce1 = some extraNonce1 ∧
        judged.headerHash = headerHash lib job extraNonce1) ∧
      toLower inputHeaderHash = toHexString judged.headerHash ∧
      ∃ computed, lib.compute job.blockTemplate.height.toInt32 judged.headerHash nonce =
        some computed ∧ toLower mixHash = toHexString computed.1 := by
  unfold processShareInternal at h
  split at h
  · cases h
  rename_i extraNonce1 hextraNonce
  dsimp only at h
  split at h
  · cases h
  rename_i hheader
  split at h
  · cases h
  rename_i mixHashOut resultBytes hcompute
  split at h
  · cases h
  rename_i hmix
  obtain ⟨_, -, h⟩ := Bitcoin.bind_eq_ok.mp h
  obtain ⟨_, -, h⟩ := Bitcoin.bind_eq_ok.mp h
  cases h
  simp only [Bool.not_eq_true', Bool.not_eq_false] at hheader hmix
  exact ⟨rfl, ⟨extraNonce1, hextraNonce, rfl⟩, JobClass.toLower_of_sameHex hheader, _, hcompute,
    JobClass.toLower_of_sameHex hmix⟩

/-- The key of an accepted share has the digits of its nonce, its header hash and its mix hash. -/
def Valid (lib : Library) (w : WorkerJob) (key : Text) (judged : Judged) : Prop :=
  ∃ job computed nonce, w.job = some job ∧
    lib.compute job.blockTemplate.height.toInt32 judged.headerHash judged.nonce = some computed ∧
    isLowercaseHex nonce 16 = true ∧ hexNumber nonce = judged.nonce.toNat ∧
    key = nonce ++ toHexString judged.headerHash ++ toHexString computed.1

theorem submitShare_ok (shared : Shared) {context : Context} {w : WorkerJob}
    {submission : Submission} {judged : Judged} {key : Text}
    (h : submitShare lib shared context w submission = .ok judged)
    (hkey : submitKey submission = .ok key) :
    evaluated lib shared context w submission = some judged.work ∧ Valid lib w key judged := by
  unfold submitShare at h
  obtain ⟨params, hread, h⟩ := Bitcoin.bind_eq_ok.mp h
  obtain ⟨nonce, hparse, h⟩ := Bitcoin.bind_eq_ok.mp h
  split at h
  · cases h
  rename_i job hjob
  obtain ⟨judged', hprocess, h⟩ := Bitcoin.bind_eq_ok.mp h
  cases h
  obtain ⟨rfl, ⟨extraNonce1, hextraNonce, hheader⟩, hheaderHex, computed, hcompute, hmixHex⟩ :=
    processShareInternal_ok hprocess
  obtain ⟨hdigits, hnumber⟩ := SubmitParams.parse_ok hparse
  refine ⟨?_, job, computed, toLower params.nonce, hjob, hcompute, hdigits, hnumber, ?_⟩
  · simp [evaluated, hread, hparse, hjob, hextraNonce, Judged.work, hheader, Except.toOption]
  · unfold submitKey at hkey
    obtain ⟨params', hread', hkey⟩ := Bitcoin.bind_eq_ok.mp hkey
    obtain ⟨_, -, hkey⟩ := Bitcoin.bind_eq_ok.mp hkey
    rw [hread] at hread'
    cases hread'
    cases hkey
    rw [SubmitParams.key, hheaderHex, hmixHex]

/-- The key of a worker job is known by the work. -/
theorem Valid.key_eq {w : WorkerJob} {key key' : Text} {a b : Judged} (h : Valid lib w key a)
    (h' : Valid lib w key' b) (hwork : b.work = a.work) : key' = key := by
  obtain ⟨job, computed, nonce, hjob, hcompute, hhex, hnumber, rfl⟩ := h
  obtain ⟨job', computed', nonce', hjob', hcompute', hhex', hnumber', rfl⟩ := h'
  obtain ⟨hheader, hnonce⟩ := Prod.mk.inj hwork
  rw [hjob] at hjob'
  cases hjob'
  rw [hheader, hnonce, hcompute] at hcompute'
  cases hcompute'
  rw [hnonce] at hnumber'
  obtain ⟨hlength, hdigits⟩ := isLowercaseHex_iff.mp hhex
  obtain ⟨hlength', hdigits'⟩ := isLowercaseHex_iff.mp hhex'
  rw [hexNumber_inj hdigits' hdigits (hlength'.trans hlength.symm) (hnumber'.trans hnumber.symm),
    hheader]

theorem pool_sound {maxActiveJobs : Nat} :
    (pool lib maxActiveJobs).Sound (fun _ => True) (Valid lib) Judged.work
      (OwnNonce lib maxActiveJobs) where
  step _ _ _ := trivial
  valid {s _ _ _ _ _ _} _ _ haccepts := by
    obtain ⟨context, -, hjudge⟩ := haccepts.judged
    exact (submitShare_ok s.shared hjudge haccepts.submitKey).2
  key_eq {s connectionId submission n w key a n' w' key' b} _ hok haccepts ha hb hw' hb' hwork := by
    obtain ⟨context, hnamed, hjudge⟩ := haccepts.judged
    obtain rfl : n' = n :=
      hok _ hnamed _ (submitShare_ok s.shared hjudge haccepts.submitKey).1 _ hb hwork
    rw [haccepts.workerJob] at hw'
    cases hw'
    exact ⟨rfl, ha.key_eq hb' hwork⟩

end Sound

end HashStorm.Progpow
