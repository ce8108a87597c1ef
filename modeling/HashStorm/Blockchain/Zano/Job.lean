import HashStorm.Blockchain.Cryptonote.Job
import HashStorm.Blockchain.Ethereum.Job

/-!
# Worker jobs of a Zano pool

A worker job of `ZanoPool` is prepared with an extranonce, but `EncodeBlob` leaves it
out of the blob. All worker jobs of a template have the hash of its blob as their
id, and a nonce of theirs denotes the same work; used nonces are remembered by
each worker job alone. Difficulties are exact rationals in place of doubles.
-/

namespace HashStorm.Zano

open Stratum Blockchain LittleEndian WorkerJobState
open Cryptonote (Context Change Share)

/-- The fields of `GetBlockTemplateResponse` that jobs are built from. -/
structure BlockTemplate where
  blob : Text
  difficulty : Int64
  height : UInt32
  seedHash : Text
  deriving DecidableEq, Repr

/-- The native functions, and `ShareMultiplier` of the coin. -/
structure Library where
  /-- `GetBlobId`, the hash of a blob. -/
  getBlobId : List UInt8 → List UInt8
  /-- `ConvertBlock` of a blob with a nonce. -/
  convertBlock : List UInt8 → UInt64 → List UInt8
  /-- `GetBlockId`. -/
  getBlockId : List UInt8 → List UInt8
  /-- `IProgpowCache.Compute` of a height, a blob hash and a nonce: the mix hash and the result. -/
  compute : Int32 → List UInt8 → UInt64 → Option (List UInt8 × List UInt8)
  shareMultiplier : Rat

/-- `ZanoJob`, without its counter. -/
structure Job where
  blockTemplate : BlockTemplate
  blobTemplate : List UInt8
  prevHash : Text
  height : Text
  deriving DecidableEq, Repr

/-- `ZanoWorkerJob`. -/
structure WorkerJob where
  id : Text
  height : Text
  extraNonce : UInt32
  difficulty : Rat
  target : Text
  seedHash : Text
  deriving DecidableEq, Repr

/-- What the connections of a pool share: the current job with the counter of its extranonces. -/
structure Shared where
  currentJob : Option Job
  extraNonce : Int32
  deriving DecidableEq, Repr

/-- What a share was accepted for: the blob hash and the nonce it was evaluated on. -/
structure Judged where
  share : Share
  blobHex : Option Text
  blobHash : List UInt8
  fullNonce : UInt64
  deriving DecidableEq, Repr

/-- A submission of protocol version one or two, by its parameters, whose texts may be missing,
and whether the daemon would accept a block. -/
structure Submission where
  v1 : Bool
  request : List (Option Text)
  blockAccepted : Bool
  deriving DecidableEq, Repr

section Jobs

/-- `ToHexString` with a prefix. -/
def toHexStringWithPrefix (bytes : List UInt8) : Text :=
  if bytes = [] then [] else text "0x" ++ toHexString bytes

/-- `BlobPrevHashOffset`. -/
def blobPrevHashOffset : Nat := 9

/-- The constructor of `ZanoJob`. -/
def createJob (blockTemplate : BlockTemplate) (prevHash : Text) : Job where
  blockTemplate := blockTemplate
  blobTemplate := hexToByteArray blockTemplate.blob
  prevHash := prevHash
  height :=
    toHexStringWithPrefix ([0, 0, 0, 0] ++ (leBytes 4 blockTemplate.height.toNat).reverse)

/-- Whether a template is for a new job: a later block with another previous one. -/
def Shared.isNew (shared : Shared) (blockTemplate : BlockTemplate) (newHash : Text) : Bool :=
  shared.currentJob.all fun job =>
    job.blockTemplate.height < blockTemplate.height && newHash ≠ job.prevHash

/-- `UpdateJob`; it ignores a template that causes an exception. -/
def updateJob (shared : Shared) (blockTemplate : BlockTemplate) : Shared :=
  let blob := hexToByteArray blockTemplate.blob
  if blobPrevHashOffset + 32 ≤ blob.length then
    let newHash := toHexString ((blob.drop blobPrevHashOffset).take 32)
    if shared.isNew blockTemplate newHash then ⟨some (createJob blockTemplate newHash), 0⟩
    else shared
  else shared

variable (lib : Library)

/-- `EncodeBlob`, which does not use the extranonce. -/
def encodeBlob (job : Job) (_workerExtraNonce : UInt32) : List UInt8 :=
  lib.getBlobId job.blobTemplate

/-- The length of `ToByteArray` of a number, with its sign. -/
def byteLength (n : Nat) : Nat := if n = 0 then 1 else (Nat.log2 n + 1) / 8 + 1

/-- `EncodeTarget`, for difficulties that are not negative; a number of 32 bytes is left out. -/
def encodeTarget (difficulty : Rat) : Except Failure Text :=
  let diff := (difficulty * 255).floor.toNat
  if diff = 0 then .error .divideByZero
  else
    let quotient := Cryptonote.diff1 / diff * 255
    let padded := if byteLength quotient < 32 then (leBytes 32 quotient).reverse
      else List.replicate 32 0
    .ok (toHexStringWithPrefix padded)

/-- `PrepareWorkerJob`, by the next extranonce. -/
def prepareWorkerJob (job : Job) (workerExtraNonce : UInt32) (difficulty : Rat) :
    Except Failure WorkerJob := do
  let target ← encodeTarget difficulty
  return {
    id := toHexStringWithPrefix (encodeBlob lib job workerExtraNonce)
    height := job.height
    extraNonce := workerExtraNonce
    difficulty := difficulty
    target := target
    seedHash := toHexStringWithPrefix (hexToByteArray job.blockTemplate.seedHash) }

/-- `CreateWorkerJob`, which is called for authorized connections; without a job it ends in an
exception. -/
def createWorkerJob (shared : Shared) (context : Context) : Shared × Option WorkerJob :=
  if context.isAuthorized then
    match shared.currentJob with
    | none => (shared, none)
    | some job =>
      let (workerExtraNonce, extraNonce) := Cryptonote.nextExtraNonce shared.extraNonce
      let shared := { shared with extraNonce := extraNonce }
      match prepareWorkerJob lib job workerExtraNonce context.worker.difficulty with
      | .error _ => (shared, none)
      | .ok workerJob =>
        (shared, if workerJob.id = [] ∨ workerJob.target = [] then none else some workerJob)
  else (shared, none)

end Jobs

section Shares

/-- The white space that is skipped around a number. -/
def isWhite (c : UInt16) : Bool := c = 0x20 || (0x09 ≤ c && c ≤ 0x0d)

/-- `TryParse` of a nonce with `NumberStyles.HexNumber`, which skips white space. -/
def tryParseNonce (nonce : Text) : Option UInt64 :=
  (tryParseHexNumber 64 ((nonce.dropWhile isWhite).reverse.dropWhile isWhite).reverse).map
    UInt64.ofNat

/-- `ValidateSubmitNonce`. -/
def validateSubmitNonce (nonce : Text) : Except Failure Unit :=
  if nonce ≠ [] ∧ matchesLowerHex nonce 16 then .ok ()
  else .error (.stratum .minusOne "malformed nonce")

/-- The checks of `OnSubmitAsync` and `OnSubmitWorkAsync` before `GetJob`: the job id and the
nonce. -/
def Submission.read (submission : Submission) : Except Failure (Text × Text) :=
  let requestParams := submission.request.map (·.getD [])
  if requestParams.length < (if submission.v1 then 3 else 5) ∨
      requestParams.any List.isEmpty then
    .error (.stratum .minusOne "invalid request")
  else
    .ok (requestParams.getD 1 [],
      Ethereum.stripHexPrefix (requestParams.getD (if submission.v1 then 0 else 2) []))

/-- The checks before `GetJob`. -/
def checkRequest (context : Context) (submission : Submission) : Except Failure Text := do
  if !context.isAuthorized then throw (.stratum .minusOne "unauthorized")
  let (jobId, _) ← submission.read
  return jobId

/-- The key of a nonce, which is looked up without regard to case. -/
def submitKey (submission : Submission) : Except Failure Text := do
  let (_, nonce) ← submission.read
  validateSubmitNonce nonce
  return toLower nonce

variable (lib : Library)

/-- The part of `ProcessShare` behind the hash; the message of a low share is without its
number. -/
def judgeHash (job : Job) (context : WorkerContext) (blobBytes resultBytes : List UInt8) :
    Except Failure (Share × Option Text) := do
  let headerValue := ofLE resultBytes.reverse
  if headerValue = 0 then throw .divideByZero
  let shareDiff := (Cryptonote.diff1 : Rat) / headerValue * lib.shareMultiplier
  let isBlockCandidate := decide ((job.blockTemplate.difficulty.toInt : Rat) ≤ shareDiff)
  let stratumDifficulty ← acceptedDifficulty context shareDiff isBlockCandidate
  return (
    { blockHeight := job.blockTemplate.height
      networkDifficulty := job.blockTemplate.difficulty
      difficulty := stratumDifficulty / lib.shareMultiplier
      isBlockCandidate := isBlockCandidate
      blockHash :=
        if isBlockCandidate then some (toHexString (lib.getBlockId blobBytes)) else none
      transactionConfirmationData := none },
    if isBlockCandidate then some (toHexString blobBytes) else none)

/-- `ProcessShare`. -/
def processShare (job : Job) (context : WorkerContext) (nonce : Text) (workerExtraNonce : UInt32) :
    Except Failure Judged := do
  if workerExtraNonce = 0 then throw .argumentOutOfRange
  validateSubmitNonce nonce
  match tryParseNonce nonce with
  | none => throw (.stratum .minusOne "bad nonce")
  | some fullNonce =>
    let blobHash := encodeBlob lib job workerExtraNonce
    match lib.compute job.blockTemplate.height.toInt32 blobHash fullNonce with
    | none => throw (.stratum .minusOne "bad hash")
    | some (_, resultBytes) =>
      let (share, blobHex) ← judgeHash lib job context (lib.convertBlock job.blobTemplate fullNonce)
        resultBytes
      return ⟨share, blobHex, blobHash, fullNonce⟩

/-- `SubmitShareAsync`, which takes the current job. -/
def submitShare (shared : Shared) (context : Context) (workerJob : WorkerJob)
    (submission : Submission) : Except Failure Judged := do
  match shared.currentJob with
  | none => throw (.stratum .minusOne "block expired")
  | some job =>
    if workerJob.height ≠ job.height then throw (.stratum .minusOne "block expired")
    let (_, nonce) ← submission.read
    let judged ← processShare lib job context.worker nonce workerJob.extraNonce
    return { judged with share := judged.share.confirm submission.blockAccepted }

/-- `ZanoPool`. -/
def pool :
    WorkerJobChain Shared Context Change BlockTemplate WorkerJob Submission Text Judged where
  maxActiveJobs := 4
  updateJob := updateJob
  connect difficulty := ⟨⟨none, difficulty, none, false⟩, false⟩
  change shared context request := (shared, Cryptonote.change context request)
  createWorkerJob := createWorkerJob lib
  id := WorkerJob.id
  checkRequest _ := checkRequest
  submitKey := submitKey
  duplicate := .stratum .minusOne "duplicate share"
  judge := submitShare lib

end Shares

section Sound

/-- The work of a share. -/
def Judged.work (judged : Judged) : List UInt8 × UInt64 := (judged.blobHash, judged.fullNonce)

/-- The work that a submission is evaluated on. -/
def evaluated (lib : Library) (shared : Shared) (_context : Context) (workerJob : WorkerJob)
    (submission : Submission) : Option (List UInt8 × UInt64) :=
  match shared.currentJob, submission.read with
  | some job, .ok (_, nonce) =>
    (tryParseNonce nonce).map fun fullNonce =>
      (encodeBlob lib job workerJob.extraNonce, fullNonce)
  | _, _ => none

/-- The nonce of a submission has no more than its sixteen digits. -/
def Submission.NoLineFeed (submission : Submission) : Prop :=
  ∀ request, submission.read = .ok request → request.2.length ≤ 16

instance (submission : Submission) : Decidable submission.NoLineFeed :=
  match h : submission.read with
  | .error _ => isTrue fun _ hrequest => by simp [h] at hrequest
  | .ok request => decidable_of_iff (request.2.length ≤ 16) (by simp [Submission.NoLineFeed, h])

/-- A nonce is sent without a line feed, and was not accepted for the blob under another worker
job. -/
def OwnNonce (lib : Library) (s : WorkerJobState Shared Context WorkerJob Text Judged)
    (op : WorkerJobOp Change BlockTemplate Submission) : Prop :=
  s.OwnWork (pool lib) (evaluated lib) Judged.work op ∧
    match op with
    | .submit _ submission => submission.NoLineFeed
    | _ => True

instance (lib : Library) (s : WorkerJobState Shared Context WorkerJob Text Judged) :
    (op : WorkerJobOp Change BlockTemplate Submission) → Decidable (OwnNonce lib s op)
  | .submit connectionId submission => inferInstanceAs (Decidable
    (s.OwnWork (pool lib) (evaluated lib) Judged.work (.submit connectionId submission) ∧
      submission.NoLineFeed))
  | .updateJob _ | .connect _ _ | .change _ _ | .createWorkerJob _ =>
    inferInstanceAs (Decidable (True ∧ True))

theorem dropWhile_isWhite {value : Text} (h : ∀ c ∈ value, LowerHexDigit c) :
    value.dropWhile isWhite = value := by
  cases value with
  | nil => rfl
  | cons c value =>
    refine List.dropWhile_cons_of_neg ?_
    have hc := h c List.mem_cons_self
    simp only [LowerHexDigit, UInt16.le_iff_toNat_le, UInt16.reduceToNat] at hc
    simp only [isWhite, Bool.or_eq_true, decide_eq_true_eq, Bool.and_eq_true, not_or, not_and,
      UInt16.le_iff_toNat_le, UInt16.reduceToNat, ← UInt16.toNat_inj]
    omega

/-- Digits without white space denote the nonce. -/
theorem hexNumber_of_tryParseNonce {nonce : Text} {fullNonce : UInt64}
    (h : ∀ c ∈ nonce, LowerHexDigit c) (hparse : tryParseNonce nonce = some fullNonce) :
    hexNumber nonce = fullNonce.toNat := by
  have hreverse : ∀ c ∈ nonce.reverse, LowerHexDigit c := fun c hc =>
    h c (List.mem_reverse.mp hc)
  rw [tryParseNonce, dropWhile_isWhite h, dropWhile_isWhite hreverse,
    List.reverse_reverse] at hparse
  obtain ⟨n, hn, rfl⟩ := Option.map_eq_some_iff.mp hparse
  obtain ⟨hlt, hnumber⟩ := tryParseHexNumber_eq_some hn
  rw [hnumber, UInt64.toNat_ofNat', Nat.mod_eq_of_lt hlt]

variable {lib : Library}

/-- A share is evaluated on the blob of the job and the nonce that was sent. -/
theorem processShare_ok {job : Job} {context : WorkerContext} {nonce : Text}
    {workerExtraNonce : UInt32} {judged : Judged}
    (h : processShare lib job context nonce workerExtraNonce = .ok judged) :
    tryParseNonce nonce = some judged.fullNonce ∧
      judged.blobHash = encodeBlob lib job workerExtraNonce := by
  rw [processShare] at h
  split at h
  · cases h
  obtain ⟨_, -, h⟩ := Bitcoin.bind_eq_ok.mp h
  split at h
  · cases h
  rename_i fullNonce hnonce
  dsimp only at h
  split at h
  · cases h
  obtain ⟨_, -, h⟩ := Bitcoin.bind_eq_ok.mp h
  cases h
  exact ⟨hnonce, rfl⟩

theorem submitShare_ok {shared : Shared} {context : Context} {w : WorkerJob}
    {submission : Submission} {judged : Judged}
    (h : submitShare lib shared context w submission = .ok judged) :
    evaluated lib shared context w submission = some judged.work ∧
      ∃ request, submission.read = .ok request ∧
        tryParseNonce request.2 = some judged.fullNonce := by
  rw [submitShare] at h
  split at h
  · cases h
  rename_i job hjob
  split at h
  · cases h
  obtain ⟨request, hread, h⟩ := Bitcoin.bind_eq_ok.mp h
  obtain ⟨judged', hprocess, h⟩ := Bitcoin.bind_eq_ok.mp h
  cases h
  obtain ⟨hnonce, hblob⟩ := processShare_ok hprocess
  refine ⟨?_, request, hread, hnonce⟩
  simp only [evaluated, hjob, hread, hnonce, Option.map_some, Judged.work, hblob]

/-- A key is the nonce. -/
theorem submitKey_ok {submission : Submission} {key : Text} (h : submitKey submission = .ok key)
    (hlength : submission.NoLineFeed) :
    ∃ request, submission.read = .ok request ∧ key = request.2 ∧
      isLowercaseHex request.2 16 = true := by
  rw [submitKey] at h
  obtain ⟨request, hread, h⟩ := Bitcoin.bind_eq_ok.mp h
  obtain ⟨_, hvalid, h⟩ := Bitcoin.bind_eq_ok.mp h
  cases h
  rw [validateSubmitNonce] at hvalid
  split at hvalid
  · rename_i hmatches
    have hhex := isLowercaseHex_of_matches hmatches.2 (hlength request hread)
    exact ⟨request, hread, toLower_of_lowerHexDigit (isLowercaseHex_iff.mp hhex).2, hhex⟩
  · cases hvalid

/-- The key of an accepted share has the digits of its nonce. -/
structure Valid (_w : WorkerJob) (key : Text) (judged : Judged) : Prop where
  digits : isLowercaseHex key 16 = true
  number : hexNumber key = judged.fullNonce.toNat

theorem pool_sound : (pool lib).Sound (fun _ => True) Valid Judged.work (OwnNonce lib) where
  step _ _ _ := trivial
  valid {s connectionId submission n w key judged} _ hok haccepts := by
    obtain ⟨context, hnamed, hjudge⟩ := haccepts.judged
    obtain ⟨-, request, hread, hnonce⟩ := submitShare_ok hjudge
    obtain ⟨request', hread', rfl, hhex⟩ := submitKey_ok haccepts.submitKey hok.2
    rw [hread] at hread'
    cases hread'
    exact ⟨hhex, hexNumber_of_tryParseNonce (isLowercaseHex_iff.mp hhex).2 hnonce⟩
  key_eq {s connectionId submission n w key a n' w' key' b} _ hok haccepts ha hb _ hb' hwork := by
    obtain ⟨context, hnamed, hjudge⟩ := haccepts.judged
    obtain ⟨hevaluated, -⟩ := submitShare_ok hjudge
    refine ⟨hok.1 _ hnamed _ hevaluated _ hb hwork, ?_⟩
    obtain ⟨hlength, hdigits⟩ := isLowercaseHex_iff.mp ha.digits
    obtain ⟨hlength', hdigits'⟩ := isLowercaseHex_iff.mp hb'.digits
    have hnonce : b.fullNonce = a.fullNonce := congrArg Prod.snd hwork
    refine hexNumber_inj hdigits' hdigits (hlength'.trans hlength.symm) ?_
    rw [hb'.number, ha.number, hnonce]

end Sound

end HashStorm.Zano
