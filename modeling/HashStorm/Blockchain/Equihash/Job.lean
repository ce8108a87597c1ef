import HashStorm.Blockchain.Equihash.Veruscoin

/-!
# Shares of an Equihash job

An `EquihashJob` registers the nonce and the solution of a submission before it
verifies the solution, for a header that holds the time of the submission, too. A
submission with another time registers the same key, so it blocks a share with
that nonce and solution, also when it was rejected itself. Difficulties are exact
rationals in place of doubles.
-/

namespace HashStorm.Equihash

open Stratum Blockchain LittleEndian

/-- The fields of `EquihashBlockTemplate` that shares are built from. -/
structure BlockTemplate where
  version : UInt32
  curTime : UInt32
  height : UInt32
  finalSaplingRootHash : Option Text
  /-- The hex data of the transactions, which may be missing. -/
  transactions : List (Option Text)
  deriving DecidableEq, Repr

/-- What the job calls: how `BitcoinStream` writes the fields of a header, a length and bytes,
`EquihashSolver.Verify`, and SHA-256 applied twice. -/
structure Library where
  writeInt : Int32 → List UInt8
  writeUInt : UInt32 → List UInt8
  writeUInt256 : List UInt8 → List UInt8
  writeBytes : List UInt8 → List UInt8
  varInt : UInt32 → List UInt8
  verify : List UInt8 → List UInt8 → Bool
  doubleDigest : List UInt8 → List UInt8

/-- Bytes are written as they are. -/
def Library.Faithful (lib : Library) : Prop := ∀ bytes, lib.writeBytes bytes = bytes

/-- A job as `Init` leaves it, with the sizes and the difficulty one of the network. -/
structure Job where
  blockTemplate : BlockTemplate
  isSaplingActive : Bool
  hashPrevBlock : List UInt8
  merkleRoot : List UInt8
  bits : UInt32
  coinbaseInitial : List UInt8
  blockTargetValue : Nat
  difficulty : Rat
  rewardToPool : Rat
  solutionSize : Nat
  solutionPreambleSize : Nat
  diff1 : Nat
  deriving DecidableEq, Repr

/-- The result of `ProcessShareInternal`. -/
structure Share where
  blockHeight : UInt32
  networkDifficulty : Rat
  difficulty : Rat
  isBlockCandidate : Bool
  blockReward : Option Rat
  blockHash : Option Text
  deriving DecidableEq, Repr

/-- A submission, as its texts. -/
structure Submission where
  extraNonce2 : Option Text
  nTime : Option Text
  solution : Option Text
  deriving DecidableEq, Repr

variable (lib : Library) (job : Job)

/-- The digits of a solution. -/
def Job.solutionLength : Nat := (job.solutionSize + job.solutionPreambleSize) * 2

/-- `HashReserved` of a header. -/
def Job.hashReserved : List UInt8 :=
  let finalSaplingRootHash := job.blockTemplate.finalSaplingRootHash.getD []
  if job.isSaplingActive && finalSaplingRootHash ≠ [] then
    hexToReverseByteArray finalSaplingRootHash
  else List.replicate 32 0

/-- `SerializeHeader`, by `EquihashBlockHeader.ReadWrite`. -/
def serializeHeader (nTime : UInt32) (nonce : Text) : List UInt8 :=
  lib.writeInt job.blockTemplate.version.toInt32 ++ lib.writeUInt256 job.hashPrevBlock ++
    lib.writeUInt256 job.merkleRoot ++ lib.writeBytes job.hashReserved ++ lib.writeUInt nTime ++
    lib.writeUInt job.bits ++ lib.writeBytes (hexToByteArray nonce)

/-- `SerializeBlock`. -/
def serializeBlock (header coinbase solution : List UInt8) : Except Failure (List UInt8) := do
  let rawTxBuffer ← Bitcoin.buildRawTransactionBuffer job.blockTemplate.transactions
  let txCount := UInt32.ofNat (job.blockTemplate.transactions.length + 1)
  return header ++ solution ++ lib.varInt txCount ++ coinbase ++ rawTxBuffer

/-- `ProcessShareInternal`; the message of a low share is without its number. -/
def processShareInternal (context : WorkerContext) (nonce : Text) (nTime : UInt32)
    (solution : Text) : Except Failure (Share × Option Text) := do
  let solutionBytes := hexToByteArray solution
  let headerBytes := serializeHeader lib job nTime nonce
  if !lib.verify headerBytes (solutionBytes.drop job.solutionPreambleSize) then
    throw (.stratum .other "invalid solution")
  let headerHash := lib.doubleDigest (headerBytes ++ solutionBytes)
  let headerValue := ofLE headerHash
  if headerValue = 0 then throw .divideByZero
  let shareDiff := (job.diff1 : Rat) / headerValue
  let isBlockCandidate := headerValue ≤ job.blockTargetValue
  let stratumDifficulty ← acceptedDifficulty context shareDiff isBlockCandidate
  let share : Share :=
    { blockHeight := job.blockTemplate.height
      networkDifficulty := job.difficulty
      difficulty := stratumDifficulty
      isBlockCandidate := isBlockCandidate
      blockReward := if isBlockCandidate then some job.rewardToPool else none
      blockHash := if isBlockCandidate then some (toHexString headerHash.reverse) else none }
  if isBlockCandidate then
    let blockBytes ← serializeBlock lib job headerBytes job.coinbaseInitial solutionBytes
    return (share, some (toHexString blockBytes))
  else return (share, none)

/-- `RegisterSubmit`; the keys are texts of digits, compared without regard to case. -/
def registerSubmit (submissions : List Text) (nonce solution : Text) : Option (List Text) :=
  let key := nonce ++ solution
  tryAdd submissions (toLower key)

/-- The time of a submission, which lies between the template and two hours from now. -/
def parseNTime (now : Int) (nTime : Option Text) : Except Failure UInt32 :=
  let nTime := nTime.getD []
  if nTime.length ≠ 8 then .error (.stratum .other "incorrect size of ntime")
  else if isFixedLengthHex nTime 8 then
    match tryParseHexNumber 32 (toHexString (hexToReverseByteArray nTime)) with
    | none => .error (.stratum .other "invalid ntime")
    | some nTimeInt =>
      if nTimeInt < job.blockTemplate.curTime.toNat ∨ (nTimeInt : Int) > now + 7200 then
        .error (.stratum .other "ntime out of range")
      else .ok (.ofNat nTimeInt)
  else .error (.stratum .other "invalid ntime")

/-- The solution of a submission. -/
def parseSolution (solution : Option Text) : Except Failure Text :=
  let solution := solution.getD []
  if solution = [] ∨ solution.length ≠ job.solutionLength then
    .error (.stratum .other "incorrect size of solution")
  else if isFixedLengthHex solution job.solutionLength then .ok solution
  else .error (.stratum .other "invalid solution")

/-- What `ProcessShare` validates in front of the dupe check: the time, the nonce and the
solution. -/
def Submission.parse (context : WorkerContext) (now : Int) (submission : Submission) :
    Except Failure (UInt32 × Text × Text) := do
  let nTimeInt ← parseNTime job now submission.nTime
  let nonce ← Veruscoin.buildAndValidateNonce context submission.extraNonce2
  let solution ← parseSolution job submission.solution
  return (nTimeInt, nonce, solution)

/-- A submission to the job: whose it is, when it comes, and its texts. -/
structure Request where
  context : WorkerContext
  now : Int
  submission : Submission
  deriving DecidableEq, Repr

/-- `ProcessShare`: what it returns, and the registered keys afterwards. -/
def processShare (submissions : List Text) (request : Request) :
    Except Failure (Share × Option Text) × List Text :=
  match request.submission.parse job request.context request.now with
  | .error e => (.error e, submissions)
  | .ok (nTimeInt, nonce, solution) =>
    match registerSubmit submissions nonce solution with
    | none => (.error (.stratum .duplicateShare "duplicate share"), submissions)
    | some submissions' =>
      (processShareInternal lib job request.context nonce nTimeInt solution, submissions')

/-- `ProcessShare` of one submission after the other: the results, and the keys
afterwards. -/
def processShares : List Text → List Request →
    List (Except Failure (Share × Option Text)) × List Text
  | submissions, [] => ([], submissions)
  | submissions, request :: requests =>
    let processed := processShare lib job submissions request
    let (results, submissions') := processShares processed.2 requests
    (processed.1 :: results, submissions')

/-- A share that was returned: the nonce and the solution of its submission, and the bytes of
its header. -/
structure Accepted where
  nonce : Text
  solution : Text
  headerBytes : List UInt8
  deriving DecidableEq, Repr

/-- The registered key of a share. -/
def Accepted.key (a : Accepted) : Text := toLower (a.nonce ++ a.solution)

/-- The work of a share: the bytes of the header and of the solution. -/
def Accepted.work (a : Accepted) : List UInt8 × List UInt8 :=
  (a.headerBytes, hexToByteArray a.solution)

/-- What a submission denotes, if it comes to the dupe check. -/
def Request.denote (request : Request) : Option Accepted :=
  (request.submission.parse job request.context request.now).toOption.map
    fun (nTimeInt, nonce, solution) =>
      ⟨nonce, solution, serializeHeader lib job nTimeInt nonce⟩

/-- What the submissions denote for which a share is returned. -/
def accepted : List Text → List Request → List Accepted
  | _, [] => []
  | submissions, request :: requests =>
    let processed := processShare lib job submissions request
    let rest := accepted processed.2 requests
    match processed.1 with
    | .error _ => rest
    | .ok _ => (request.denote lib job).toList ++ rest

section Register

variable {lib job} {submissions : List Text} {request : Request} {a : Accepted}

theorem denote_eq_some (h : request.denote lib job = some a) :
    ∃ nTimeInt, request.submission.parse job request.context request.now =
        .ok (nTimeInt, a.nonce, a.solution) ∧
      a.headerBytes = serializeHeader lib job nTimeInt a.nonce := by
  rw [Request.denote] at h
  cases hparse : request.submission.parse job request.context request.now with
  | error e =>
    rw [hparse] at h
    cases h
  | ok parsed =>
    rw [hparse] at h
    obtain ⟨nTimeInt, nonce, solution⟩ := parsed
    obtain rfl := Option.some.inj h
    exact ⟨nTimeInt, rfl, rfl⟩

theorem processShare_of_denote_eq_none (submissions : List Text)
    (h : request.denote lib job = none) :
    ∃ e, processShare lib job submissions request = (.error e, submissions) := by
  rw [Request.denote] at h
  rw [processShare]
  cases hparse : request.submission.parse job request.context request.now with
  | error e => exact ⟨e, rfl⟩
  | ok parsed =>
    rw [hparse] at h
    cases h

/-- A key that is registered already ends the submission. -/
theorem processShare_of_mem (h : request.denote lib job = some a) (hused : a.key ∈ submissions) :
    processShare lib job submissions request =
      (.error (.stratum .duplicateShare "duplicate share"), submissions) := by
  obtain ⟨nTimeInt, hparse, -⟩ := denote_eq_some h
  rw [Accepted.key] at hused
  simp only [processShare, hparse, registerSubmit, tryAdd, if_pos hused]

/-- A new key is registered, and the result does not depend on the others. -/
theorem processShare_of_not_mem (h : request.denote lib job = some a)
    (hnew : a.key ∉ submissions) :
    processShare lib job submissions request =
      ((processShare lib job [] request).1, a.key :: submissions) := by
  obtain ⟨nTimeInt, hparse, -⟩ := denote_eq_some h
  rw [Accepted.key] at hnew ⊢
  simp only [processShare, hparse, registerSubmit, tryAdd, if_neg hnew, List.not_mem_nil, if_false]

/-- A key is registered afterwards if it was before or if a submission denotes it. -/
theorem mem_processShares_iff {key : Text} (requests : List Request) :
    key ∈ (processShares lib job submissions requests).2 ↔
      key ∈ submissions ∨
        ∃ request ∈ requests, ∃ a ∈ request.denote lib job, a.key = key := by
  induction requests generalizing submissions with
  | nil => simp [processShares]
  | cons request requests ih =>
    simp only [processShares, ih, List.exists_mem_cons_iff]
    cases hdenote : request.denote lib job with
    | none =>
      obtain ⟨e, hresult⟩ := processShare_of_denote_eq_none submissions hdenote
      simp [hresult]
    | some a =>
      by_cases hused : a.key ∈ submissions
      · rw [processShare_of_mem hdenote hused]
        simp only [Option.mem_def, Option.some.injEq, exists_eq_left']
        constructor
        · rintro (h | h)
          · exact Or.inl h
          · exact Or.inr (Or.inr h)
        · rintro (h | rfl | h)
          · exact Or.inl h
          · exact Or.inl hused
          · exact Or.inr h
      · rw [processShare_of_not_mem hdenote hused]
        simp only [Option.mem_def, Option.some.injEq, exists_eq_left', List.mem_cons]
        tauto

end Register

section Work

variable {lib job} {a b : Accepted}

theorem parseSolution_ok {submitted : Option Text} {solution : Text}
    (h : parseSolution job submitted = .ok solution) :
    solution.length = job.solutionLength ∧ ∀ c ∈ solution, isHexDigit c = true := by
  rw [parseSolution] at h
  split at h
  · cases h
  split at h
  · rename_i hfixed
    cases h
    exact isFixedLengthHex_iff.mp hfixed
  · cases h

/-- What is known of a submission that comes to the dupe check. -/
structure Accepted.Valid (lib : Library) (job : Job) (a : Accepted) : Prop where
  nonce_length : a.nonce.length = 64
  nonce_digits : ∀ c ∈ a.nonce, isHexDigit c = true
  solution_length : a.solution.length = job.solutionLength
  solution_digits : ∀ c ∈ a.solution, isHexDigit c = true
  headerBytes_eq : ∃ nTimeInt, a.headerBytes = serializeHeader lib job nTimeInt a.nonce

theorem valid_of_denote {request : Request} (h : request.denote lib job = some a) :
    a.Valid lib job := by
  obtain ⟨nTimeInt, hparse, hheader⟩ := denote_eq_some h
  rw [Submission.parse] at hparse
  obtain ⟨time, -, hparse⟩ := Bitcoin.bind_eq_ok.mp hparse
  obtain ⟨nonce, hnonce, hparse⟩ := Bitcoin.bind_eq_ok.mp hparse
  obtain ⟨solution, hsolution, hparse⟩ := Bitcoin.bind_eq_ok.mp hparse
  obtain ⟨-, rfl, rfl⟩ : time = nTimeInt ∧ nonce = a.nonce ∧ solution = a.solution := by
    simpa [pure, Except.pure] using hparse
  obtain ⟨hnonceLength, hnonceDigits⟩ := Veruscoin.buildAndValidateNonce_ok hnonce
  obtain ⟨hsolutionLength, hsolutionDigits⟩ := parseSolution_ok hsolution
  exact ⟨hnonceLength, hnonceDigits, hsolutionLength, hsolutionDigits, nTimeInt, hheader⟩

/-- The nonce is the last part of a header, so the same work has the same key. -/
theorem Accepted.Valid.key_eq (hlib : lib.Faithful) (ha : a.Valid lib job) (hb : b.Valid lib job)
    (h : a.work = b.work) : a.key = b.key := by
  obtain ⟨hheader, hsolution⟩ := Prod.mk.inj h
  obtain ⟨time, htime⟩ := ha.headerBytes_eq
  obtain ⟨time', htime'⟩ := hb.headerBytes_eq
  have hlength : (hexToByteArray a.nonce).length = (hexToByteArray b.nonce).length := by
    rw [hexToByteArray_of_isHexDigit ha.nonce_digits,
      hexToByteArray_of_isHexDigit hb.nonce_digits, length_hexPairs, length_hexPairs,
      ha.nonce_length, hb.nonce_length]
  rw [htime, htime', serializeHeader, serializeHeader, hlib, hlib, hlib] at hheader
  have hnonce := (List.append_inj' hheader hlength).2
  have hnonceText : toLower a.nonce = toLower b.nonce :=
    toLower_eq_of_bytes_eq ha.nonce_digits hb.nonce_digits
      (ha.nonce_length.trans hb.nonce_length.symm) (by rw [ha.nonce_length]) hnonce
  have hsolutionText : toLower a.solution = toLower b.solution :=
    toLower_eq_of_bytes_eq ha.solution_digits hb.solution_digits
      (ha.solution_length.trans hb.solution_length.symm)
      (by rw [ha.solution_length, Job.solutionLength]; omega) hsolution
  rw [Accepted.key, Accepted.key, toLower_append, toLower_append, hnonceText, hsolutionText]

/-- The shares that are returned are valid, have new keys, and are of different work. -/
theorem accepted_distinct (hlib : lib.Faithful) (submissions : List Text)
    (requests : List Request) :
    (∀ a ∈ accepted lib job submissions requests, a.Valid lib job ∧ a.key ∉ submissions) ∧
      ((accepted lib job submissions requests).map Accepted.work).Nodup := by
  induction requests generalizing submissions with
  | nil => simp [accepted]
  | cons request requests ih =>
    rw [accepted]
    cases hdenote : request.denote lib job with
    | none =>
      obtain ⟨e, hresult⟩ := processShare_of_denote_eq_none submissions hdenote
      rw [hresult]
      exact ih submissions
    | some a =>
      by_cases hused : a.key ∈ submissions
      · rw [processShare_of_mem hdenote hused]
        exact ih submissions
      · rw [processShare_of_not_mem hdenote hused]
        obtain ⟨hrest, hnodup⟩ := ih (a.key :: submissions)
        have hkeys : ∀ b ∈ accepted lib job (a.key :: submissions) requests,
            b.Valid lib job ∧ b.key ∉ submissions := fun b hb =>
          ⟨(hrest b hb).1, fun hmem => (hrest b hb).2 (List.mem_cons_of_mem _ hmem)⟩
        cases (processShare lib job [] request).1 with
        | error e => exact ⟨hkeys, hnodup⟩
        | ok share =>
          have hvalid := valid_of_denote hdenote
          simp only [Option.toList_some, List.singleton_append]
          refine ⟨?_, ?_⟩
          · rintro b (_ | ⟨_, hb⟩)
            · exact ⟨hvalid, hused⟩
            · exact hkeys b hb
          · rw [List.map_cons, List.nodup_cons]
            refine ⟨fun hmem => ?_, hnodup⟩
            obtain ⟨b, hb, hwork⟩ := List.mem_map.mp hmem
            have hkey := (hrest b hb).1.key_eq hlib hvalid hwork
            exact (hrest b hb).2 (hkey ▸ List.mem_cons_self)

end Work

/-- **When a rejected submission does not block a share.** A share that would be returned for
the first submission is returned behind rejected ones if and only if none of these came to the
dupe check with the same nonce and solution. No work is accepted twice. -/
theorem accepted_after_rejected_iff {lib : Library} (hlib : lib.Faithful) (job : Job)
    (requests : List Request) :
    (∀ request share, (processShare lib job [] request).1 = .ok share →
      (∀ result ∈ (processShares lib job [] requests).1, ∃ e, result = .error e) →
        ((processShare lib job (processShares lib job [] requests).2 request).1 = .ok share ↔
          ∀ earlier ∈ requests, ∀ a ∈ earlier.denote lib job, ∀ b ∈ request.denote lib job,
            a.key ≠ b.key)) ∧
      ((accepted lib job [] requests).map Accepted.work).Nodup := by
  refine ⟨fun request share hshare _ => ?_, (accepted_distinct hlib [] requests).2⟩
  cases hdenote : request.denote lib job with
  | none =>
    obtain ⟨e, hresult⟩ := processShare_of_denote_eq_none [] hdenote
    rw [hresult] at hshare
    cases hshare
  | some b =>
    simp only [Option.mem_def, Option.some.injEq, forall_eq']
    by_cases hused : b.key ∈ (processShares lib job [] requests).2
    · rw [processShare_of_mem hdenote hused]
      obtain ⟨earlier, hmem, a, ha, hkey⟩ :=
        ((mem_processShares_iff requests).mp hused).resolve_left List.not_mem_nil
      refine iff_of_false nofun fun hnone => hnone earlier hmem a ha hkey
    · rw [processShare_of_not_mem hdenote hused]
      refine iff_of_true hshare fun earlier hmem a ha hkey => hused ?_
      exact (mem_processShares_iff requests).mpr (Or.inr ⟨earlier, hmem, a, ha, hkey⟩)

section Example

/-- Numbers in little-endian order, counts below 253, some digest, and a solver that finds every
solution right for a header of the time `0x65a1b2c4`. -/
def exampleLibrary : Library where
  writeInt v := leBytes 4 v.toUInt32.toNat
  writeUInt v := leBytes 4 v.toNat
  writeUInt256 := id
  writeBytes := id
  varInt n := [n.toUInt8]
  verify header _ := (header.drop 100).take 4 == [0xc4, 0xb2, 0xa1, 0x65]
  doubleDigest _ := List.replicate 32 1

/-- A job of a network with solutions of 100 bytes, whose target every digest meets. -/
def exampleJob : Job where
  blockTemplate :=
    { version := 4
      curTime := 0x65a1b2c3
      height := 1
      finalSaplingRootHash := none
      transactions := [] }
  isSaplingActive := false
  hashPrevBlock := List.replicate 32 0
  merkleRoot := List.replicate 32 0
  bits := 0x207fffff
  coinbaseInitial := [1]
  blockTargetValue := 2 ^ 256 - 1
  difficulty := 1
  rewardToPool := 10
  solutionSize := 100
  solutionPreambleSize := 1
  diff1 := 0x0007ffffffffffffffffffffffffffffffffffffffffffffffffffffffffffff

/-- A submission of one nonce and one solution, with the digits of its time. -/
def exampleRequest (nTime : Text) : Request where
  context := ⟨some (text "000001"), 1, none, false⟩
  now := 0x65a1b2c3
  submission := ⟨some (List.replicate 58 48), some nTime, some (List.replicate 202 48)⟩

/-- The share of the right time. -/
def exampleShare : Share := ⟨1, 1, 1, true, some 10, some (text
  "0101010101010101010101010101010101010101010101010101010101010101")⟩

theorem exampleRequest_accepted :
    ∃ block, (processShare exampleLibrary exampleJob [] (exampleRequest (text "c4b2a165"))).1 =
      .ok (exampleShare, block) := by
  have hshare : (processShare exampleLibrary exampleJob []
      (exampleRequest (text "c4b2a165"))).1.map Prod.fst = .ok exampleShare := by decide +kernel
  cases hresult : (processShare exampleLibrary exampleJob []
      (exampleRequest (text "c4b2a165"))).1 with
  | error e =>
    rw [hresult] at hshare
    cases hshare
  | ok result =>
    rw [hresult] at hshare
    obtain ⟨share, block⟩ := result
    obtain rfl := Except.ok.inj hshare
    exact ⟨block, rfl⟩

/-- A submission with a time the solution is wrong for blocks the share of the right time. -/
theorem rejected_time_blocks :
    ¬∀ lib : Library, lib.Faithful → ∀ (job : Job) (requests : List Request),
      ∀ request share, (processShare lib job [] request).1 = .ok share →
        (∀ result ∈ (processShares lib job [] requests).1, ∃ e, result = .error e) →
          (processShare lib job (processShares lib job [] requests).2 request).1 = .ok share := by
  intro hclaim
  have hrejected : (processShares exampleLibrary exampleJob [] [exampleRequest (text "c3b2a165")]).1
      = [.error (.stratum .other "invalid solution")] := by decide +kernel
  have hblocked : (processShare exampleLibrary exampleJob
      (processShares exampleLibrary exampleJob [] [exampleRequest (text "c3b2a165")]).2
      (exampleRequest (text "c4b2a165"))).1 =
        .error (.stratum .duplicateShare "duplicate share") := by decide +kernel
  obtain ⟨block, hshare⟩ := exampleRequest_accepted
  have := hclaim exampleLibrary (fun _ => rfl) exampleJob [exampleRequest (text "c3b2a165")]
    (exampleRequest (text "c4b2a165")) _ hshare
    (by rw [hrejected]; exact List.forall_mem_singleton.mpr ⟨_, rfl⟩)
  rw [hblocked] at this
  cases this

/-- The rejected submission with another nonce. -/
def otherRequest : Request := { exampleRequest (text "c3b2a165") with
  submission := ⟨some (List.replicate 58 49), some (text "c3b2a165"),
    some (List.replicate 202 48)⟩ }

/-- Another nonce of the rejected submission leaves the share alone. -/
theorem accepted_after_rejected_other_nonce :
    ∃ block, (processShare exampleLibrary exampleJob
      (processShares exampleLibrary exampleJob [] [otherRequest]).2
      (exampleRequest (text "c4b2a165"))).1 = .ok (exampleShare, block) := by
  obtain ⟨block, hshare⟩ := exampleRequest_accepted
  have hrejected : (processShares exampleLibrary exampleJob [] [otherRequest]).1
      = [.error (.stratum .other "invalid solution")] := by decide +kernel
  refine ⟨block, ((accepted_after_rejected_iff (fun _ => rfl : exampleLibrary.Faithful) exampleJob
    [otherRequest]).1 (exampleRequest (text "c4b2a165")) _ hshare ?_).mpr ?_⟩
  · rw [hrejected]
    exact List.forall_mem_singleton.mpr ⟨_, rfl⟩
  · decide +kernel

end Example

end HashStorm.Equihash
