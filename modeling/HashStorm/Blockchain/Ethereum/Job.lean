import HashStorm.Blockchain.JobSubmissions
import HashStorm.Stratum.HexUtils

/-!
# Shares of an Ethereum job

A share of an `EthereumJob` is a 64-bit nonce, which a miner sends as a whole or
behind the extranonce of its connection. The nonces that were used are kept for
each connection apart, but the work is known by the header and the nonce alone;
so a nonce is accepted once more on another connection. Difficulties are exact
rationals in place of doubles.
-/

namespace HashStorm.Ethereum

open Stratum Blockchain Machine LittleEndian

/-- The fields of `EthereumBlockTemplate` that shares are built from. -/
structure BlockTemplate where
  height : UInt64
  header : Text
  target : Text
  deriving DecidableEq, Repr

/-- What the job knows of a share: its hash as `IEthashCache.Compute` returns it, with the mix
digest, for a height, the bytes of the header and a nonce. -/
abbrev Ethash := UInt64 → List UInt8 → UInt64 → Option (List UInt8 × List UInt8)

/-- `EthereumJob`, without its nonces. -/
structure Job where
  id : Text
  blockTemplate : BlockTemplate
  deriving DecidableEq, Repr

/-- `blockTarget`, as the constructor reads it. -/
def Job.blockTarget (job : Job) : Nat :=
  let target := job.blockTemplate.target
  ofLE (hexToReverseByteArray (if target.take 2 = text "0x" then target.drop 2 else target))

/-- The result of `ProcessShareAsync`; a block candidate has its nonce, header and mix hash. -/
structure SubmitResult where
  blockHeight : Int64
  isBlockCandidate : Bool
  difficulty : Rat
  block : Option (Text × Text × Text)
  deriving DecidableEq, Repr

/-- `BigMaxValue`. -/
def bigMaxValue : Nat := 2 ^ 256

/-- `Pow2x32`. -/
def pow2x32 : Rat := 2 ^ 32

/-- `StripHexPrefix`. -/
def stripHexPrefix (value : Text) : Text :=
  if (toLower value).take 2 = text "0x" then value.drop 2 else value

/-- `ParseFullNonce`. -/
def parseFullNonce (fullNonceHex : Text) : Except Failure UInt64 :=
  if fullNonceHex = [] ∨ fullNonceHex.length ≠ 16 then .error (.stratum .minusOne "bad nonce")
  else if isFixedLengthHex fullNonceHex 16 then
    match tryParseHexNumber 64 fullNonceHex with
    | none => .error (.stratum .minusOne "bad nonce")
    | some fullNonce => .ok (UInt64.ofNat fullNonce)
  else .error (.stratum .minusOne "bad nonce")

/-- `RegisterNonce`, with the nonces of all connections as pairs. -/
def registerNonce (workerNonces : List (Nat × Text)) (connectionId : Nat) (nonce : Text) :
    Except Failure (List (Nat × Text)) :=
  let nonceLower := toLower nonce
  if (connectionId, nonceLower) ∈ workerNonces then
    .error (.stratum .minusOne "duplicate share")
  else .ok ((connectionId, nonceLower) :: workerNonces)

variable (ethash : Ethash) (job : Job)

/-- The part of `ProcessShareAsync` behind the duplicate check; the message of a low share is
without its number. -/
def judgeShare (context : WorkerContext) (fullNonceHex : Text) (fullNonce : UInt64) :
    Except Failure SubmitResult := do
  match ethash job.blockTemplate.height (hexToByteArray job.blockTemplate.header) fullNonce with
  | none => throw (.stratum .minusOne "bad hash")
  | some (mixDigest, resultBytes) =>
    let resultValue := ofLE resultBytes.reverse
    if resultValue = 0 then throw .divideByZero
    let shareDiff := ((bigMaxValue / resultValue : Nat) : Rat) / pow2x32
    let isBlockCandidate := resultValue ≤ job.blockTarget
    let stratumDifficulty ← acceptedDifficulty context shareDiff isBlockCandidate
    return {
      blockHeight := job.blockTemplate.height.toInt64
      isBlockCandidate := isBlockCandidate
      difficulty := stratumDifficulty * pow2x32
      block :=
        if isBlockCandidate then
          some (text "0x" ++ fullNonceHex, job.blockTemplate.header,
            text "0x" ++ toHexString mixDigest)
        else none }

/-- `ProcessShareAsync`: what it returns, and the used nonces afterwards. -/
def processShare (connectionId : Nat) (context : WorkerContext) (fullNonceHex : Text)
    (workerNonces : List (Nat × Text)) : Except Failure SubmitResult × List (Nat × Text) :=
  match parseFullNonce fullNonceHex with
  | .error e => (.error e, workerNonces)
  | .ok fullNonce =>
    match registerNonce workerNonces connectionId fullNonceHex with
    | .error e => (.error e, workerNonces)
    | .ok workerNonces' => (judgeShare ethash job context fullNonceHex fullNonce, workerNonces')

/-- A `mining.submit` or an `eth_submitWork` for the job: the parameters, whose texts may be
missing, and whether the daemon would accept a block. -/
structure Submission where
  v1 : Bool
  request : List (Option Text)
  blockAccepted : Bool
  deriving DecidableEq, Repr

/-- The check of the parameters by `OnSubmitAsync`. -/
def checkRequest : List (Option Text) → Except Failure (Text × Text × Text)
  | [some first, some second, some third] =>
    if first = [] ∨ second = [] ∨ third = [] then
      .error (.stratum .minusOne "malformed PoW result")
    else .ok (first, second, third)
  | _ => .error (.stratum .minusOne "malformed PoW result")

/-- The full nonce that `SubmitShareV1Async` passes on; the job is found by its header. -/
def fullNonceV1 (request : Text × Text × Text) : Except Failure Text :=
  let (nonce, header, _) := request
  if header = job.blockTemplate.header then .ok (stripHexPrefix nonce)
  else .error (.stratum .minusOne "stale share")

/-- The full nonce that `SubmitShareV2Async` passes on; the job is found by its id. -/
def fullNonceV2 (context : WorkerContext) (request : Text × Text × Text) : Except Failure Text :=
  let (_, jobId, nonce) := request
  if jobId = job.id then .ok (context.extraNonce1.getD [] ++ nonce)
  else .error (.stratum .minusOne "stale share")

/-- The full nonce of a submission. -/
def Submission.fullNonceHex (context : WorkerContext) (submission : Submission) :
    Except Failure Text :=
  match checkRequest submission.request with
  | .error e => .error e
  | .ok request =>
    if submission.v1 then fullNonceV1 job request else fullNonceV2 job context request

/-- `SubmitShareV1Async` and `SubmitShareV2Async`, up to `SubmitShareAsync`. -/
def submitShare (connectionId : Nat) (context : WorkerContext) (submission : Submission)
    (workerNonces : List (Nat × Text)) : Except Failure SubmitResult × List (Nat × Text) :=
  match submission.fullNonceHex job context with
  | .error e => (.error e, workerNonces)
  | .ok nonce =>
    match processShare ethash job connectionId context nonce workerNonces with
    | (.error e, workerNonces') => (.error e, workerNonces')
    | (.ok share, workerNonces') =>
      (.ok { share with isBlockCandidate := share.isBlockCandidate && submission.blockAccepted },
        workerNonces')

/-- A share that was returned: the connection, the digits of its nonce and what they denote. -/
structure Accepted where
  connectionId : Nat
  fullNonceHex : Text
  header : Text
  fullNonce : UInt64
  deriving DecidableEq, Repr

/-- The nonce of a submission, with its digits. -/
def Submission.nonce (context : WorkerContext) (submission : Submission) :
    Option (Text × UInt64) :=
  match submission.fullNonceHex job context with
  | .error _ => none
  | .ok hex =>
    match parseFullNonce hex with
    | .error _ => none
    | .ok fullNonce => some (hex, fullNonce)

/-- How the job processes submissions. -/
def processor : ShareProcessor Submission (Nat × Text) SubmitResult Accepted where
  process := submitShare ethash job
  denote connectionId context submission := (submission.nonce job context).map fun nonce =>
    ⟨connectionId, nonce.1, job.blockTemplate.header, nonce.2⟩

/-- No other connection was credited for the nonce. -/
def OwnNonce : Condition Submission Accepted := fun accepted connectionId context submission =>
  ∀ nonce ∈ submission.nonce job context, ∀ a ∈ accepted,
    a.fullNonce = nonce.2 → a.connectionId = connectionId

instance (accepted : List Accepted) (connectionId : Nat) (context : WorkerContext)
    (submission : Submission) :
    Decidable (OwnNonce job accepted connectionId context submission) := by
  unfold OwnNonce
  infer_instance

/-- The key of a share: its connection and the nonce in lower case. -/
def Accepted.key (a : Accepted) : Nat × Text := (a.connectionId, toLower a.fullNonceHex)

/-- The work of a share. -/
def Accepted.work (a : Accepted) : Text × UInt64 := (a.header, a.fullNonce)

section Nonces

/-- A nonce has sixteen digits, and is the number they denote. -/
theorem parseFullNonce_ok {hex : Text} {fullNonce : UInt64}
    (h : parseFullNonce hex = .ok fullNonce) :
    hex.length = 16 ∧ (∀ c ∈ hex, isHexDigit c = true) ∧ hexNumber hex = fullNonce.toNat := by
  unfold parseFullNonce at h
  split at h
  · cases h
  split at h
  · rename_i hfixed
    obtain ⟨hlength, hdigits⟩ := isFixedLengthHex_iff.mp hfixed
    split at h
    · cases h
    · rename_i n hn
      obtain ⟨hlt, hnumber⟩ := tryParseHexNumber_eq_some hn
      cases h
      refine ⟨hlength, hdigits, ?_⟩
      rw [hnumber, UInt64.toNat_ofNat', Nat.mod_eq_of_lt hlt]
  · cases h

/-- The digits of a nonce are known up to their case. -/
theorem toLower_eq_of_parse_eq {hex hex' : Text} {fullNonce : UInt64}
    (h : parseFullNonce hex = .ok fullNonce) (h' : parseFullNonce hex' = .ok fullNonce) :
    toLower hex = toLower hex' := by
  obtain ⟨hlength, hdigits, hnumber⟩ := parseFullNonce_ok h
  obtain ⟨hlength', hdigits', hnumber'⟩ := parseFullNonce_ok h'
  exact toLower_eq_of_hexNumber_eq hdigits hdigits' (hlength.trans hlength'.symm)
    (hnumber.trans hnumber'.symm)

end Nonces

section Sound

variable {ethash job}

theorem Submission.nonce_eq_some {context : WorkerContext} {submission : Submission} {hex : Text}
    {fullNonce : UInt64} (h : submission.nonce job context = some (hex, fullNonce)) :
    parseFullNonce hex = .ok fullNonce := by
  unfold Submission.nonce at h
  split at h
  · cases h
  split at h
  · cases h
  · rename_i hparse
    cases h
    exact hparse

/-- A submission fails and leaves the nonces as they are, or its own nonce is new and used. -/
theorem submitShare_cases (connectionId : Nat) (context : WorkerContext)
    (submission : Submission) (workerNonces : List (Nat × Text)) :
    (∃ e, submitShare ethash job connectionId context submission workerNonces =
        (.error e, workerNonces)) ∨
      ∃ hex fullNonce, submission.nonce job context = some (hex, fullNonce) ∧
        (connectionId, toLower hex) ∉ workerNonces ∧
        (submitShare ethash job connectionId context submission workerNonces).2 =
          (connectionId, toLower hex) :: workerNonces := by
  rw [submitShare, Submission.nonce]
  cases hhex : submission.fullNonceHex job context with
  | error e => exact .inl ⟨e, rfl⟩
  | ok hex =>
    simp only [processShare]
    cases hparse : parseFullNonce hex with
    | error e => exact .inl ⟨e, rfl⟩
    | ok fullNonce =>
      by_cases hused : (connectionId, toLower hex) ∈ workerNonces
      · simp only [registerNonce, if_pos hused]
        exact .inl ⟨_, rfl⟩
      · simp only [registerNonce, if_neg hused]
        refine .inr ⟨hex, fullNonce, rfl, hused, ?_⟩
        cases judgeShare ethash job context hex fullNonce with
        | error e => rfl
        | ok share => rfl

/-- Nonces that no other connection was credited for have the key they had before. -/
theorem processor_sound : (processor ethash job).Sound Accepted.key Accepted.work
    (fun _ a => parseFullNonce a.fullNonceHex = .ok a.fullNonce) (OwnNonce job) where
  process_cases connectionId context submission workerNonces := by
    refine (submitShare_cases connectionId context submission workerNonces).imp_right ?_
    rintro ⟨hex, fullNonce, hnonce, hnew, hnonces⟩
    exact ⟨_, congrArg (Option.map _) hnonce, hnew, hnonces⟩
  valid _ _ hdenote := by
    obtain ⟨nonce, hnonce, rfl⟩ := Option.map_eq_some_iff.mp hdenote
    exact Submission.nonce_eq_some hnonce
  key_eq {_ _ _ _ _ a b} hown hdenote hvalid hb hvalid' hwork := by
    obtain ⟨nonce, hnonce, rfl⟩ := Option.map_eq_some_iff.mp hdenote
    have hfullNonce : b.fullNonce = nonce.2 := congrArg Prod.snd hwork
    rw [hfullNonce] at hvalid'
    rw [Accepted.key, Accepted.key, hown nonce hnonce b hb hfullNonce,
      toLower_eq_of_parse_eq hvalid' hvalid]

end Sound

/-- **No header and nonce is credited twice if nonces stay with their connection.** -/
theorem nonces_credited_once (ethash : Ethash) (job : Job) {provider : ExtraNonceProvider}
    {ops : List (JobOp Submission)} {s : JobState (Nat × Text) Accepted}
    (hrun : run (JobState.step (processor ethash job)) (JobState.initial provider) ops = some s)
    (hown : Meets (JobState.step (processor ethash job)) (fun s op => op.Safe (OwnNonce job) s)
      (JobState.initial provider) ops) :
    (s.accepted.map fun a => (a.header, a.fullNonce)).Nodup :=
  processor_sound.accepted_nodup hrun hown

section Example

/-- The hash of the nonce that solved block 22 of the main network; no other is computed. -/
def exampleEthash : Ethash := fun _ _ nonce =>
  if nonce = 0x495732e0ed7a801c then
    some
      ([47, 116, 205, 235, 25, 138, 240, 185, 171, 230, 93, 34, 211, 114, 226, 47, 178, 212, 116,
        55, 23, 116, 169, 88, 60, 28, 196, 39, 160, 121, 57, 245],
      [0, 0, 11, 24, 79, 31, 221, 136, 191, 217, 76, 134, 195, 158, 101, 219, 12, 54, 20, 77, 94,
        67, 247, 69, 247, 34, 25, 110, 115, 12, 182, 20])
  else none

/-- Block 22 of the main network. -/
def exampleJob : Job where
  id := text "00000001"
  blockTemplate :=
    { height := 22
      header := text "0x372eca2454ead349c3df0ab5d00b0b706b23e49d469387db91811cee0358fc6d"
      target := text "0x00007eb3690c3fd867ef2c2c0c5f8542323c22265b504d35540376e7df55beea" }

/-- The nonce as a whole. -/
def exampleV1 : Submission :=
  ⟨true, [some (text "0x495732E0ED7A801C"), some exampleJob.blockTemplate.header,
    some (text "0x2f74cdeb198af0b9abe65d22d372e22fb2d474371774a9583c1cc427a07939f5")], true⟩

/-- The nonce behind the extranonce of the connection. -/
def exampleV2 : Submission :=
  ⟨false, [some (text "rig"), some exampleJob.id, some (text "32e0ed7a801c")], true⟩

theorem counter_le_nonceMax : 0x956 ≤ nonceMax (ExtraNonceProvider.create 1 4).extranonceBytes := by
  decide

/-- There are extranonces of eight sizes. -/
local instance neZero_sizes : NeZero 8 := ⟨Nat.succ_ne_zero 7⟩

/-- The next extranonce is `4957`. -/
def exampleProvider : ExtraNonceProvider :=
  { ExtraNonceProvider.create 1 4 with counter := 0x956, counter_le := counter_le_nonceMax }

/-- On one connection the nonce is credited once, in whatever form it is sent. -/
theorem nonces_credited_once_mixed :
    ∃ s ∈ run (JobState.step (processor exampleEthash exampleJob))
        (JobState.initial exampleProvider)
        [.connect 0 1, .subscribe 0, .submit 0 exampleV1, .submit 0 exampleV2],
      s.accepted.length = 1 ∧ (s.accepted.map fun a => (a.header, a.fullNonce)).Nodup := by
  have hsome : ∃ s ∈ run (JobState.step (processor exampleEthash exampleJob))
      (JobState.initial exampleProvider)
      [.connect 0 1, .subscribe 0, .submit 0 exampleV1, .submit 0 exampleV2],
      s.accepted.length = 1 := by decide +kernel
  obtain ⟨s, hrun, hlength⟩ := hsome
  exact ⟨s, hrun, hlength, nonces_credited_once exampleEthash exampleJob hrun (by decide +kernel)⟩

/-- A miner that connects again is credited for the same nonce once more. -/
theorem nonce_credited_again :
    ∃ s ∈ run (JobState.step (processor exampleEthash exampleJob))
        (JobState.initial exampleProvider)
        [.connect 0 1, .subscribe 0, .submit 0 exampleV2, .connect 1 1, .subscribe 1,
          .submit 1 exampleV1],
      ¬(s.accepted.map fun a => (a.header, a.fullNonce)).Nodup := by
  decide +kernel

end Example

end HashStorm.Ethereum
