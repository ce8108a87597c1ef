import HashStorm.Blockchain.JobSubmissions
import HashStorm.Stratum.HexUtils

/-!
# Shares of a Veruscoin job

A `VeruscoinJob` registers the nonce and the solution of a submission, and then
hashes a header with the solution. Once PBaaS is active the nonce in the header is
that of the daemon, so a solution is accepted again with every other nonce that
is submitted. Difficulties are exact rationals in place of doubles.
-/

namespace HashStorm.Veruscoin

open Stratum Blockchain Machine LittleEndian

/-- The fields of `EquihashBlockTemplate` that shares are built from. -/
structure BlockTemplate where
  version : UInt32
  curTime : UInt32
  height : UInt32
  solution : Option Text
  nonce : Option Text
  /-- The hex data of the transactions, which may be missing. -/
  transactions : List (Option Text)
  deriving DecidableEq, Repr

/-- The versions of the hash. -/
inductive HashVersion where
  | v1
  | v2b
  | v2b1
  | v2b2
  deriving DecidableEq, Repr

/-- What the job calls: how `BitcoinStream` writes the fields of a header, a length and bytes,
and the native hash. -/
structure Library where
  writeInt : Int32 → List UInt8
  writeUInt : UInt32 → List UInt8
  writeUInt256 : List UInt8 → List UInt8
  writeBytes : List UInt8 → List UInt8
  varInt : UInt32 → List UInt8
  verushash : HashVersion → List UInt8 → List UInt8

/-- Bytes are written as they are. -/
def Library.Faithful (lib : Library) : Prop := ∀ bytes, lib.writeBytes bytes = bytes

/-- A job as `Init` leaves it, with the sizes and the difficulty one of the network. -/
structure Job where
  blockTemplate : BlockTemplate
  isPBaaSActive : Bool
  hashPrevBlock : List UInt8
  merkleRoot : List UInt8
  hashReserved : List UInt8
  bits : UInt32
  coinbaseInitial : List UInt8
  blockTargetValue : Nat
  difficulty : Rat
  rewardToPool : Rat
  solutionSize : Nat
  solutionPreambleSize : Nat
  diff1 : Nat
  deriving DecidableEq, Repr

/-- The result of `ProcessShareInternal`. -/
structure Share where
  blockHeight : UInt32
  networkDifficulty : Rat
  difficulty : Rat
  isBlockCandidate : Bool
  blockReward : Option Rat
  blockHash : Option Text
  deriving DecidableEq, Repr

/-- A submission, as its texts. -/
structure Submission where
  extraNonce2 : Option Text
  nTime : Option Text
  solution : Option Text
  deriving DecidableEq, Repr

/-- `SolutionSlice`. -/
def solutionSlice : Nat := 6

/-- `Substring`. -/
def substring (value : Text) (start length : Nat) : Except Failure Text :=
  if start + length ≤ value.length then .ok ((value.drop start).take length)
  else .error .argumentOutOfRange

variable (lib : Library) (job : Job)

/-- The digits of a solution. -/
def Job.solutionLength : Nat := (job.solutionSize + job.solutionPreambleSize) * 2

/-- `SerializeHeader`, by `EquihashBlockHeader.ReadWrite`. -/
def serializeHeader (nTime : UInt32) (nonce : Text) : List UInt8 :=
  lib.writeInt job.blockTemplate.version.toInt32 ++ lib.writeUInt256 job.hashPrevBlock ++
    lib.writeUInt256 job.merkleRoot ++ lib.writeBytes job.hashReserved ++ lib.writeUInt nTime ++
    lib.writeUInt job.bits ++ lib.writeBytes (hexToByteArray nonce)

/-- `SerializeBlock`. -/
def serializeBlock (header coinbase solution : List UInt8) : Except Failure (List UInt8) := do
  let rawTransactionBuffer ← Bitcoin.buildRawTransactionBuffer job.blockTemplate.transactions
  let transactionCount := UInt32.ofNat (job.blockTemplate.transactions.length + 1)
  return lib.writeBytes header ++ lib.writeBytes solution ++ lib.varInt transactionCount ++
    lib.writeBytes coinbase ++ lib.writeBytes rawTransactionBuffer

/-- The version of the hash for a solution, which must be that of the template. -/
def hashVersion (solution : Text) : Except Failure HashVersion :=
  if job.blockTemplate.version > 4 then
    match job.blockTemplate.solution with
    | some (c :: rest) => do
      let submitted ← substring solution solutionSlice 2
      let expected ← substring (c :: rest) 0 2
      if submitted ≠ expected then
        throw (.stratum .other "invalid solution - expected solution header")
      if submitted = text "03" then return .v2b1 else return .v2b2
    | _ => .ok .v2b
  else .ok .v1

/-- The bytes that are hashed for a share. -/
def headerSolutionBytes (nTime : UInt32) (nonce solution : Text) : List UInt8 :=
  serializeHeader lib job nTime nonce ++ hexToByteArray solution

/-- `ProcessShareInternal`; the message of a low share is without its number, and that of
another solution version without the version. -/
def processShareInternal (context : WorkerContext) (nonce : Text) (nTime : UInt32)
    (solution : Text) : Except Failure (Share × Option Text) := do
  let version ← hashVersion job solution
  let headerHash := lib.verushash version (headerSolutionBytes lib job nTime nonce solution)
  let headerValue := ofLE headerHash
  if headerValue = 0 then throw .divideByZero
  let shareDiff := (job.diff1 : Rat) / headerValue
  let isBlockCandidate := headerValue ≤ job.blockTargetValue
  let stratumDifficulty ← acceptedDifficulty context shareDiff isBlockCandidate
  let share : Share :=
    { blockHeight := job.blockTemplate.height
      networkDifficulty := job.difficulty
      difficulty := stratumDifficulty
      isBlockCandidate := isBlockCandidate
      blockReward := if isBlockCandidate then some job.rewardToPool else none
      blockHash := if isBlockCandidate then some (toHexString headerHash.reverse) else none }
  if isBlockCandidate then
    let blockBytes ← serializeBlock lib job (serializeHeader lib job nTime nonce)
      job.coinbaseInitial (hexToByteArray solution)
    return (share, some (toHexString blockBytes))
  else return (share, none)

/-- `RegisterVersucoinSubmit`; the keys are texts of digits, compared without regard to case. -/
def registerVersucoinSubmit (submissions : List Text) (nonce solution : Text) :
    Option (List Text) :=
  let key := nonce ++ solution
  tryAdd submissions (toLower key)

/-- `ParseSubmittedNTime`. -/
def parseSubmittedNTime (nTime : Option Text) : Except Failure UInt32 :=
  match nTime with
  | none => .error (.stratum .other "incorrect size of ntime")
  | some nTime =>
    if nTime.length ≠ 8 then .error (.stratum .other "incorrect size of ntime")
    else if isFixedLengthHex nTime 8 then
      match tryParseHexNumber 32 (toHexString (hexToReverseByteArray nTime)) with
      | none => .error (.stratum .other "invalid ntime")
      | some nTimeInt =>
        if UInt32.ofNat nTimeInt ≠ job.blockTemplate.curTime then
          .error (.stratum .other "ntime out of range")
        else .ok (UInt32.ofNat nTimeInt)
    else .error (.stratum .other "invalid ntime")

/-- `BuildAndValidateNonce`. -/
def buildAndValidateNonce (context : WorkerContext) (extraNonce2 : Option Text) :
    Except Failure Text :=
  let nonce := context.extraNonce1.getD [] ++ extraNonce2.getD []
  if extraNonce2.getD [] = [] ∨ nonce.length ≠ 64 then
    .error (.stratum .other "incorrect size of extraNonce2")
  else if isFixedLengthHex nonce 64 then .ok nonce
  else .error (.stratum .other "invalid extraNonce2")

/-- `ValidateSubmittedSolution`. -/
def validateSubmittedSolution (solution : Option Text) : Except Failure Text :=
  match solution with
  | none => .error (.stratum .other "incorrect size of solution")
  | some solution =>
    if solution = [] ∨ solution.length ≠ job.solutionLength then
      .error (.stratum .other "incorrect size of solution")
    else if isFixedLengthHex solution job.solutionLength then .ok solution
    else .error (.stratum .other "invalid solution")

/-- The nonce that goes into the header: once PBaaS is active, that of the daemon. -/
def headerNonce (nonce : Text) : Text :=
  if job.isPBaaSActive then
    toHexString (hexToReverseByteArray (job.blockTemplate.nonce.getD []))
  else nonce

/-- `ApplyPbaasNonceOverrideIfNeeded`. -/
def applyPbaasNonceOverrideIfNeeded (context : WorkerContext) (nonce solution : Text) :
    Except Failure Text :=
  if job.isPBaaSActive then
    if job.blockTemplate.nonce.getD [] = [] then
      .error (.stratum .other "block header nonce not provided by daemon")
    else if solution.length < 30 then .error .argumentOutOfRange
    else
      let solutionExtraData := solution.drop (solution.length - 30)
      match context.extraNonce1 with
      | none => .error .argumentNull
      | some extraNonce1 =>
        if solutionExtraData.tails.any extraNonce1.isPrefixOf then .ok (headerNonce job nonce)
        else .error (.stratum .other "invalid solution, pool nonce missing")
  else .ok (headerNonce job nonce)

/-- The time, the nonce and the solution of a submission, validated. -/
def Submission.parse (context : WorkerContext) (submission : Submission) :
    Except Failure (UInt32 × Text × Text) := do
  let nTimeInt ← parseSubmittedNTime job submission.nTime
  let nonce ← buildAndValidateNonce context submission.extraNonce2
  let solution ← validateSubmittedSolution job submission.solution
  return (nTimeInt, nonce, solution)

/-- `ProcessShare`: what it returns, and the registered keys afterwards. -/
def processShare (context : WorkerContext) (submission : Submission) (submissions : List Text) :
    Except Failure (Share × Option Text) × List Text :=
  match submission.parse job context with
  | .error e => (.error e, submissions)
  | .ok (nTimeInt, nonce, solution) =>
    match registerVersucoinSubmit submissions nonce solution with
    | none => (.error (.stratum .duplicateShare "duplicate share"), submissions)
    | some submissions' =>
      (applyPbaasNonceOverrideIfNeeded job context nonce solution >>= fun nonce =>
        processShareInternal lib job context nonce nTimeInt solution, submissions')

/-- A share that was returned: the nonce and the solution of its submission, and the bytes that
were hashed. -/
structure Accepted where
  nonce : Text
  solution : Text
  bytes : List UInt8
  deriving DecidableEq, Repr

/-- How the job processes submissions. -/
def processor : ShareProcessor Submission Text (Share × Option Text) Accepted where
  process _ := processShare lib job
  denote _ context submission :=
    match submission.parse job context with
    | .error _ => none
    | .ok (nTimeInt, nonce, solution) =>
      some ⟨nonce, solution, headerSolutionBytes lib job nTimeInt (headerNonce job nonce) solution⟩

/-- Once PBaaS is active, no share was accepted for the solution with another nonce. -/
def OwnSolution : Condition Submission Accepted := fun accepted _ context submission =>
  job.isPBaaSActive = true → ∀ parsed ∈ (submission.parse job context).toOption,
    ∀ a ∈ accepted, toLower a.solution = toLower parsed.2.2 → toLower a.nonce = toLower parsed.2.1

instance (accepted : List Accepted) (worker : Nat) (context : WorkerContext)
    (submission : Submission) :
    Decidable (OwnSolution job accepted worker context submission) := by
  unfold OwnSolution
  infer_instance

/-- The key of a share. -/
def Accepted.key (a : Accepted) : Text := toLower (a.nonce ++ a.solution)

section Parse

variable {job}

theorem parseSubmittedNTime_ok {nTime : Option Text} {nTimeInt : UInt32}
    (h : parseSubmittedNTime job nTime = .ok nTimeInt) : nTimeInt = job.blockTemplate.curTime := by
  cases nTime with
  | none => cases h
  | some nTime =>
    simp only [parseSubmittedNTime] at h
    split at h
    · cases h
    split at h
    · split at h
      · cases h
      split at h
      · cases h
      · rename_i hcur
        cases h
        exact not_not.mp hcur
    · cases h

theorem buildAndValidateNonce_ok {context : WorkerContext} {extraNonce2 : Option Text}
    {nonce : Text} (h : buildAndValidateNonce context extraNonce2 = .ok nonce) :
    nonce.length = 64 ∧ ∀ c ∈ nonce, isHexDigit c = true := by
  rw [buildAndValidateNonce] at h
  split at h
  · cases h
  split at h
  · rename_i hfixed
    cases h
    exact isFixedLengthHex_iff.mp hfixed
  · cases h

theorem validateSubmittedSolution_ok {submitted : Option Text} {solution : Text}
    (h : validateSubmittedSolution job submitted = .ok solution) :
    solution.length = job.solutionLength ∧ ∀ c ∈ solution, isHexDigit c = true := by
  cases submitted with
  | none => cases h
  | some submitted =>
    simp only [validateSubmittedSolution] at h
    split at h
    · cases h
    split at h
    · rename_i hfixed
      cases h
      exact isFixedLengthHex_iff.mp hfixed
    · cases h

/-- What is known of a share: its digits, and the bytes that were hashed at the time of the
template. -/
structure Accepted.Valid (lib : Library) (job : Job) (a : Accepted) : Prop where
  nonce_length : a.nonce.length = 64
  nonce_digits : ∀ c ∈ a.nonce, isHexDigit c = true
  solution_length : a.solution.length = job.solutionLength
  solution_digits : ∀ c ∈ a.solution, isHexDigit c = true
  bytes_eq : a.bytes = headerSolutionBytes lib job job.blockTemplate.curTime
    (headerNonce job a.nonce) a.solution

/-- What a submission denotes is valid. -/
theorem valid_of_denote {lib : Library} {worker : Nat} {context : WorkerContext}
    {submission : Submission} {a : Accepted}
    (h : (processor lib job).denote worker context submission = some a) :
    (∃ nTimeInt, submission.parse job context = .ok (nTimeInt, a.nonce, a.solution)) ∧
      a.Valid lib job := by
  simp only [processor] at h
  split at h
  · cases h
  · rename_i nTimeInt nonce solution hparse
    cases h
    refine ⟨⟨nTimeInt, hparse⟩, ?_⟩
    rw [Submission.parse] at hparse
    obtain ⟨time, htime, hparse⟩ := Bitcoin.bind_eq_ok.mp hparse
    obtain ⟨digits, hnonce, hparse⟩ := Bitcoin.bind_eq_ok.mp hparse
    obtain ⟨submitted, hsolution, hparse⟩ := Bitcoin.bind_eq_ok.mp hparse
    cases hparse
    obtain ⟨hnonceLength, hnonceDigits⟩ := buildAndValidateNonce_ok hnonce
    obtain ⟨hsolutionLength, hsolutionDigits⟩ := validateSubmittedSolution_ok hsolution
    exact ⟨hnonceLength, hnonceDigits, hsolutionLength, hsolutionDigits,
      by rw [parseSubmittedNTime_ok htime]⟩

end Parse

section Bytes

variable {lib job} {a b : Accepted}

/-- Shares with the same bytes have the same nonce in the header and the same solution. -/
theorem headerSolutionBytes_inj (hlib : lib.Faithful) {nTime : UInt32}
    {nonce nonce' solution solution' : Text}
    (hlength : (hexToByteArray nonce).length = (hexToByteArray nonce').length)
    (h : headerSolutionBytes lib job nTime nonce solution =
      headerSolutionBytes lib job nTime nonce' solution') :
    hexToByteArray nonce = hexToByteArray nonce' ∧
      hexToByteArray solution = hexToByteArray solution' := by
  simp only [headerSolutionBytes, serializeHeader, hlib _, List.append_assoc,
    List.append_cancel_left_eq] at h
  exact List.append_inj h hlength

theorem Accepted.Valid.toLower_solution_eq (ha : a.Valid lib job) (hb : b.Valid lib job)
    (h : hexToByteArray a.solution = hexToByteArray b.solution) :
    toLower a.solution = toLower b.solution := by
  refine toLower_eq_of_bytes_eq ha.solution_digits hb.solution_digits
    (ha.solution_length.trans hb.solution_length.symm) ?_ h
  rw [ha.solution_length, Job.solutionLength]
  omega

/-- Without PBaaS the nonce is in the header, too. -/
theorem Accepted.Valid.toLower_nonce_eq (ha : a.Valid lib job) (hb : b.Valid lib job)
    (h : hexToByteArray a.nonce = hexToByteArray b.nonce) :
    toLower a.nonce = toLower b.nonce := by
  refine toLower_eq_of_bytes_eq ha.nonce_digits hb.nonce_digits
    (ha.nonce_length.trans hb.nonce_length.symm) ?_ h
  rw [ha.nonce_length]

/-- Shares of the same bytes have the same key, unless their nonces were replaced. -/
theorem key_eq_of_bytes_eq (hlib : lib.Faithful) (ha : a.Valid lib job) (hb : b.Valid lib job)
    (hbytes : a.bytes = b.bytes)
    (hown : job.isPBaaSActive = true → toLower a.solution = toLower b.solution →
      toLower a.nonce = toLower b.nonce) : a.key = b.key := by
  rw [ha.bytes_eq, hb.bytes_eq] at hbytes
  rw [Accepted.key, Accepted.key, toLower_append, toLower_append]
  by_cases hactive : job.isPBaaSActive = true
  · simp only [headerNonce, hactive, if_true] at hbytes
    obtain ⟨-, hsolution⟩ := headerSolutionBytes_inj hlib rfl hbytes
    have hsolution := ha.toLower_solution_eq hb hsolution
    rw [hown hactive hsolution, hsolution]
  · simp only [headerNonce, hactive, if_false, Bool.false_eq_true] at hbytes
    have hlength : (hexToByteArray a.nonce).length = (hexToByteArray b.nonce).length := by
      rw [hexToByteArray_of_isHexDigit ha.nonce_digits,
        hexToByteArray_of_isHexDigit hb.nonce_digits, length_hexPairs, length_hexPairs,
        ha.nonce_length, hb.nonce_length]
    obtain ⟨hnonce, hsolution⟩ := headerSolutionBytes_inj hlib hlength hbytes
    rw [ha.toLower_nonce_eq hb hnonce, ha.toLower_solution_eq hb hsolution]

end Bytes

section Sound

variable {lib job}

/-- A submission fails and registers nothing, or its own key is new. -/
theorem processShare_cases (worker : Nat) (context : WorkerContext) (submission : Submission)
    (submissions : List Text) :
    (∃ e, processShare lib job context submission submissions = (.error e, submissions)) ∨
      ∃ a, (processor lib job).denote worker context submission = some a ∧
        a.key ∉ submissions ∧
        (processShare lib job context submission submissions).2 = a.key :: submissions := by
  simp only [processShare, processor]
  cases hparse : submission.parse job context with
  | error e => exact .inl ⟨e, rfl⟩
  | ok parsed =>
    obtain ⟨nTimeInt, nonce, solution⟩ := parsed
    by_cases hused : toLower (nonce ++ solution) ∈ submissions
    · simp only [registerVersucoinSubmit, tryAdd, if_pos hused]
      exact .inl ⟨_, rfl⟩
    · simp only [registerVersucoinSubmit, tryAdd, if_neg hused]
      exact .inr ⟨_, rfl, hused, rfl⟩

theorem processor_sound (hlib : lib.Faithful) : (processor lib job).Sound Accepted.key
    Accepted.bytes (fun _ a => a.Valid lib job) (OwnSolution job) where
  process_cases := processShare_cases
  valid _ _ hdenote := (valid_of_denote hdenote).2
  key_eq {_ _ _ _ _ a b} hown hdenote hvalid hb hvalid' hbytes := by
    obtain ⟨⟨nTimeInt, hparse⟩, -⟩ := valid_of_denote hdenote
    refine key_eq_of_bytes_eq hlib hvalid' hvalid hbytes fun hactive hsolution => ?_
    exact hown hactive (nTimeInt, a.nonce, a.solution) (by rw [hparse]; rfl) b hb hsolution

end Sound

/-- **No bytes are credited twice if a solution stays with its nonce once PBaaS is active.** -/
theorem bytes_credited_once {lib : Library} (hlib : lib.Faithful) (job : Job)
    {provider : ExtraNonceProvider} {ops : List (JobOp Submission)} {s : JobState Text Accepted}
    (hrun : run (JobState.step (processor lib job)) (JobState.initial provider) ops = some s)
    (hown : Meets (JobState.step (processor lib job)) (fun s op => op.Safe (OwnSolution job) s)
      (JobState.initial provider) ops) : (s.accepted.map Accepted.bytes).Nodup :=
  (processor_sound hlib).accepted_nodup hrun hown

/-- Without PBaaS no bytes are credited twice. -/
theorem accepted_bytes_nodup {lib : Library} (hlib : lib.Faithful) {job : Job}
    (hactive : job.isPBaaSActive = false) {provider : ExtraNonceProvider}
    {ops : List (JobOp Submission)} {s : JobState Text Accepted}
    (hrun : run (JobState.step (processor lib job)) (JobState.initial provider) ops = some s) :
    (s.accepted.map Accepted.bytes).Nodup := by
  refine (processor_sound hlib).accepted_nodup hrun (meets_of_forall (fun s op => ?_) _ _)
  cases op with
  | connect worker difficulty => trivial
  | subscribe worker => trivial
  | setDifficulty worker difficulty varDiffUpdated => trivial
  | submit worker submission =>
    intro context _ hpbaas
    rw [hactive] at hpbaas
    cases hpbaas

section Example

/-- Numbers in little-endian order, counts below 253, and some digest. -/
def exampleLibrary : Library where
  writeInt v := leBytes 4 v.toUInt32.toNat
  writeUInt v := leBytes 4 v.toNat
  writeUInt256 := id
  writeBytes := id
  varInt n := [n.toUInt8]
  verushash _ _ := List.replicate 32 1

/-- A job of a test network whose target every digest meets, with PBaaS active. -/
def exampleJob : Job where
  blockTemplate :=
    { version := 0x00010004
      curTime := 0x65a1b2c3
      height := 1
      solution := text "07000000"
      nonce := text "00000000000000000000000000000000000000000000000000000000000000ff"
      transactions := [] }
  isPBaaSActive := true
  hashPrevBlock := List.replicate 32 0
  merkleRoot := List.replicate 32 0
  hashReserved := List.replicate 32 0
  bits := 0x207fffff
  coinbaseInitial := [1]
  blockTargetValue := 2 ^ 256 - 1
  difficulty := 1
  rewardToPool := 12
  solutionSize := 1344
  solutionPreambleSize := 3
  diff1 := 0x0f0f0f0f0f0f0f0f0f0f0f0f0f0f0f0f0f0f0f0f0f0f0f0f0f0f0f0f0f0f0f0f

/-- A solution with the extranonce of the first worker among its last digits. -/
def exampleSolution (digit : UInt16) : Text :=
  text "fd400507000000" ++ List.replicate 2650 48 ++ text "10000001" ++ List.replicate 21 48 ++
    [digit]

/-- A share with a solution and the last digit of its nonce. -/
def exampleSubmission (solution : Text) (digit : UInt16) : Submission :=
  ⟨some (List.replicate 55 48 ++ [digit]), text "c3b2a165", solution⟩

/-- Another solution makes another share, also with the same nonce. -/
theorem bytes_credited_once_other_solution :
    ∃ s ∈ run (JobState.step (processor exampleLibrary exampleJob))
        (JobState.initial (ExtraNonceProvider.create 3 1))
        [.connect 0 1, .subscribe 0, .submit 0 (exampleSubmission (exampleSolution 48) 48),
          .submit 0 (exampleSubmission (exampleSolution 49) 48)],
      s.accepted.length = 2 ∧ (s.accepted.map Accepted.bytes).Nodup := by
  have hsome : ∃ s ∈ run (JobState.step (processor exampleLibrary exampleJob))
      (JobState.initial (ExtraNonceProvider.create 3 1))
      [.connect 0 1, .subscribe 0, .submit 0 (exampleSubmission (exampleSolution 48) 48),
        .submit 0 (exampleSubmission (exampleSolution 49) 48)],
      s.accepted.length = 2 := by decide +kernel
  obtain ⟨s, hrun, hlength⟩ := hsome
  exact ⟨s, hrun, hlength, bytes_credited_once (fun _ => rfl) exampleJob hrun (by decide +kernel)⟩

/-- Another nonce makes the same solution a share once more. -/
theorem solution_credited_again :
    ∃ s ∈ run (JobState.step (processor exampleLibrary exampleJob))
        (JobState.initial (ExtraNonceProvider.create 3 1))
        [.connect 0 1, .subscribe 0, .submit 0 (exampleSubmission (exampleSolution 48) 48),
          .submit 0 (exampleSubmission (exampleSolution 48) 49)],
      ¬(s.accepted.map Accepted.bytes).Nodup := by
  decide +kernel

end Example

end HashStorm.Veruscoin
