import HashStorm.Blockchain.JobSubmissions
import HashStorm.Stratum.HexUtils

/-!
# Shares of an Ergo job

An `ErgoJob` registers the time and the nonce of a submission as one text, and
hashes the message of the node with the nonce alone. The time is not validated,
so a nonce is accepted again with every other time that is submitted.
Difficulties are exact rationals in place of doubles.
-/

namespace HashStorm.Ergo

open Stratum Blockchain Machine LittleEndian

/-- What the job calls: Blake2b with 32 bytes, the difficulty of a target, which may fail, and
the form of a text that `OrdinalIgnoreCase` compares. -/
structure Library where
  digest : List UInt8 → List UInt8
  targetDifficulty : Nat → Except Failure Rat
  ignoreCase : Text → Text

/-- Texts that differ only in case still do so with digits behind them. -/
def Library.Faithful (lib : Library) : Prop :=
  ∀ {s s' t t' : Text}, (∀ c ∈ t, isHexDigit c = true) → (∀ c ∈ t', isHexDigit c = true) →
    lib.ignoreCase s = lib.ignoreCase s' → toLower t = toLower t' →
      lib.ignoreCase (s ++ t) = lib.ignoreCase (s' ++ t')

/-- `WorkMessage`: the message, the target and the height. -/
structure WorkMessage where
  msg : Text
  b : Nat
  height : UInt32
  deriving DecidableEq, Repr

/-- A job as `Init` leaves it. -/
structure Job where
  blockTemplate : WorkMessage
  extraNonceSize : Nat
  difficulty : Rat
  deriving DecidableEq, Repr

/-- The result of `ProcessShareInternal`. -/
structure Share where
  blockHeight : UInt32
  networkDifficulty : Rat
  difficulty : Rat
  isBlockCandidate : Bool
  deriving DecidableEq, Repr

/-- A submission, as its texts. -/
structure Submission where
  extraNonce2 : Option Text
  nTime : Option Text
  nonce : Option Text
  deriving DecidableEq, Repr

section Hash

/-- `nBase`. -/
def nBase : UInt32 := 0x4000000

/-- `IncreaseStart`. -/
def increaseStart : UInt32 := 600 * 1024

/-- `IncreasePeriodForN`. -/
def increasePeriodForN : UInt32 := 50 * 1024

/-- `NIncreasementHeightMax`. -/
def nIncreasementHeightMax : UInt32 := 9216000

/-- The loop of `CalcN`. -/
def increaseN : Nat → UInt32 → UInt32
  | 0, step => step
  | iterations + 1, step => increaseN iterations (step / 100 * 105)

/-- `CalcN`. -/
def calcN (height : UInt32) : UInt32 :=
  let height := min nIncreasementHeightMax height
  if height < increaseStart then nBase
  else if height ≥ nIncreasementHeightMax then 2147387550
  else increaseN ((height - increaseStart) / increasePeriodForN + 1).toNat nBase

/-- `M`. -/
def m : List UInt8 := (List.range 1024).flatMap fun x => (leBytes 8 x).reverse

/-- The number that bytes denote in big-endian order. -/
def ofBE (bytes : List UInt8) : Nat := ofLE bytes.reverse

/-- `ToByteArray(true, true)`: as few bytes as possible, but one for zero. -/
def toByteArrayUnsigned (value : Nat) : List UInt8 := (leBytes (value.log2 / 8 + 1) value).reverse

/-- `ToByteArray(false, true)`, where the highest bit is that of the sign. -/
def toByteArraySigned (value : Nat) : List UInt8 :=
  let bytes := toByteArrayUnsigned value
  if bytes.head?.any (128 ≤ ·) then 0 :: bytes else bytes

/-- `PadFront`. -/
def padFront (bytes : List UInt8) (padValue : UInt8) (desiredLength : Nat) : List UInt8 :=
  if bytes.length ≥ desiredLength then bytes
  else List.replicate (desiredLength - bytes.length) padValue ++ bytes

variable (lib : Library)

/-- `GenIndexes`. -/
def genIndexes (n : Nat) (seed : List UInt8) : List Nat :=
  let hash := lib.digest seed
  let extendedHash := hash ++ hash
  (List.range 32).map fun i => ofBE ((extendedHash.drop i).take 4) % n

/-- The number `fh` that `ProcessShareInternal` computes for a coinbase. -/
def hashCoinbase (height : UInt32) (coinbase : List UInt8) : Nat :=
  let n := (calcN height).toNat
  let hash := lib.digest coinbase
  let i := padFront (toByteArraySigned (ofBE ((hash.drop 24).take 8) % n)) 0 4
  let h := padFront (toByteArrayUnsigned height.toNat) 0 4
  let e := (lib.digest (i ++ h ++ m)).drop 1
  let j := (genIndexes lib n (e ++ coinbase)).map fun x => padFront (toByteArrayUnsigned x) 0 4
  let f := (j.map fun x => ofBE ((lib.digest (x ++ h ++ m)).drop 1)).sum
  ofBE (lib.digest (padFront (toByteArrayUnsigned f) 0 32))

end Hash

variable (lib : Library) (job : Job)

/-- `ShareMultiplier`. -/
def shareMultiplier : Rat := 256

/-- `SerializeCoinbase`. -/
def serializeCoinbase (msg nonce : Text) : List UInt8 := hexToByteArray msg ++ hexToByteArray nonce

/-- `ProcessShareInternal`; the message of a low share is without its number. -/
def processShareInternal (context : WorkerContext) (nonce : Text) : Except Failure Share := do
  let coinbase := serializeCoinbase job.blockTemplate.msg nonce
  let fh := hashCoinbase lib job.blockTemplate.height coinbase
  let shareDiff ← lib.targetDifficulty fh
  let isBlockCandidate := fh < job.blockTemplate.b
  let stratumDifficulty ← acceptedDifficulty context shareDiff isBlockCandidate
  return {
    blockHeight := job.blockTemplate.height
    networkDifficulty := job.difficulty
    difficulty := stratumDifficulty / shareMultiplier
    isBlockCandidate := isBlockCandidate }

/-- `RegisterSubmit`. -/
def registerSubmit (submissions : List Text) (nTime nonce : Text) : Option (List Text) :=
  let key := nTime ++ nonce
  tryAdd submissions (lib.ignoreCase key)

/-- The validation of the nonce by `ProcessShare`: it begins with the extranonce. -/
def validateNonce (context : WorkerContext) (nonce : Option Text) : Except Failure Text :=
  match nonce with
  | none | some [] => .error (.stratum .other "incorrect size of nonce")
  | some nonce =>
    match context.extraNonce1 with
    | none => .error .nullReference
    | some extraNonce1 =>
      let length := extraNonce1.length + job.extraNonceSize * 2
      if nonce.length ≠ length then .error (.stratum .other "incorrect size of nonce")
      else if !extraNonce1.isPrefixOf nonce then
        .error (.stratum .other "incorrect extraNonce2 in nonce")
      else if isFixedLengthHex nonce length then .ok nonce
      else .error (.stratum .other "invalid nonce")

/-- The time that is registered: a missing one and `undefined` are empty. -/
def Submission.time (submission : Submission) : Text :=
  if submission.nTime = some (text "undefined") then [] else submission.nTime.getD []

/-- `ProcessShare`: what it returns, and the registered keys afterwards. -/
def processShare (context : WorkerContext) (submission : Submission) (submissions : List Text) :
    Except Failure Share × List Text :=
  match validateNonce job context submission.nonce with
  | .error e => (.error e, submissions)
  | .ok nonce =>
    match registerSubmit lib submissions submission.time nonce with
    | none => (.error (.stratum .duplicateShare "duplicate share"), submissions)
    | some submissions' => (processShareInternal lib job context nonce, submissions')

/-- A share that was returned: the time and the nonce of its submission, and the coinbase that
was hashed. -/
structure Accepted where
  time : Text
  nonce : Text
  coinbase : List UInt8
  deriving DecidableEq, Repr

/-- How the job processes submissions. -/
def processor : ShareProcessor Submission Text Share Accepted where
  process _ := processShare lib job
  denote _ context submission := (validateNonce job context submission.nonce).toOption.map
    fun nonce => ⟨submission.time, nonce, serializeCoinbase job.blockTemplate.msg nonce⟩

/-- No share was accepted for the nonce with another time, up to case. -/
def OwnTime : Condition Submission Accepted := fun accepted _ context submission =>
  ∀ nonce ∈ (validateNonce job context submission.nonce).toOption, ∀ a ∈ accepted,
    toLower a.nonce = toLower nonce → lib.ignoreCase a.time = lib.ignoreCase submission.time

instance (accepted : List Accepted) (worker : Nat) (context : WorkerContext)
    (submission : Submission) :
    Decidable (OwnTime lib job accepted worker context submission) := by
  unfold OwnTime
  infer_instance

/-- The key of a share. -/
def Accepted.key (a : Accepted) : Text := lib.ignoreCase (a.time ++ a.nonce)

/-- What is known of a share in a pool whose extranonces have so many bytes. -/
structure Accepted.Valid (bytes : Nat) (a : Accepted) : Prop where
  nonce_length : a.nonce.length = bytes * 2 + job.extraNonceSize * 2
  nonce_digits : ∀ c ∈ a.nonce, isHexDigit c = true
  coinbase_eq : a.coinbase = serializeCoinbase job.blockTemplate.msg a.nonce

section Sound

variable {lib job}

theorem ok_of_toOption {x : Except Failure Text} {a : Text} (h : x.toOption = some a) :
    x = .ok a := by
  cases x with
  | error e => cases h
  | ok b => exact congrArg _ (Option.some.inj h)

/-- A nonce has the digits of the extranonce and of its own part. -/
theorem validateNonce_ok {context : WorkerContext} {submitted : Option Text} {nonce : Text}
    (h : validateNonce job context submitted = .ok nonce) :
    ∃ extraNonce1, context.extraNonce1 = some extraNonce1 ∧
      nonce.length = extraNonce1.length + job.extraNonceSize * 2 ∧
      ∀ c ∈ nonce, isHexDigit c = true := by
  unfold validateNonce at h
  split at h
  · cases h
  · cases h
  split at h
  · cases h
  rename_i extraNonce1 hextraNonce1
  dsimp only at h
  split at h
  · cases h
  split at h
  · cases h
  split at h
  · rename_i hfixed
    cases h
    exact ⟨extraNonce1, hextraNonce1, isFixedLengthHex_iff.mp hfixed⟩
  · cases h

/-- Shares of the same coinbase have the same nonce, up to case. -/
theorem Accepted.Valid.toLower_nonce_eq {bytes : Nat} {a b : Accepted} (ha : a.Valid job bytes)
    (hb : b.Valid job bytes) (h : a.coinbase = b.coinbase) : toLower a.nonce = toLower b.nonce := by
  rw [ha.coinbase_eq, hb.coinbase_eq, serializeCoinbase, serializeCoinbase,
    List.append_cancel_left_eq] at h
  refine toLower_eq_of_bytes_eq ha.nonce_digits hb.nonce_digits
    (ha.nonce_length.trans hb.nonce_length.symm) ?_ h
  rw [ha.nonce_length]
  omega

/-- A submission fails and registers nothing, or its own key is new. -/
theorem processShare_cases (worker : Nat) (context : WorkerContext) (submission : Submission)
    (submissions : List Text) :
    (∃ e, processShare lib job context submission submissions = (.error e, submissions)) ∨
      ∃ a, (processor lib job).denote worker context submission = some a ∧
        a.key lib ∉ submissions ∧
        (processShare lib job context submission submissions).2 = a.key lib :: submissions := by
  simp only [processShare, processor]
  cases hnonce : validateNonce job context submission.nonce with
  | error e => exact .inl ⟨e, rfl⟩
  | ok nonce =>
    by_cases hused : lib.ignoreCase (submission.time ++ nonce) ∈ submissions
    · simp only [registerSubmit, tryAdd, if_pos hused]
      exact .inl ⟨_, rfl⟩
    · simp only [registerSubmit, tryAdd, if_neg hused]
      exact .inr ⟨_, rfl, hused, rfl⟩

theorem processor_sound (hlib : lib.Faithful) : (processor lib job).Sound (Accepted.key lib)
    Accepted.coinbase (fun bytes a => a.Valid job bytes) (OwnTime lib job) where
  process_cases := processShare_cases
  valid hnumbered _ hdenote := by
    obtain ⟨nonce, hnonce, rfl⟩ := Option.map_eq_some_iff.mp hdenote
    obtain ⟨extraNonce1, hextraNonce1, hlength, hdigits⟩ :=
      validateNonce_ok (ok_of_toOption hnonce)
    refine ⟨?_, hdigits, rfl⟩
    rw [hlength, (hnumbered extraNonce1 hextraNonce1).1]
  key_eq {_ _ _ _ _ a b} hown hdenote hvalid hb hvalid' hcoinbase := by
    have hlower := hvalid'.toLower_nonce_eq hvalid hcoinbase
    have hdigits := hvalid.nonce_digits
    obtain ⟨nonce, hnonce, rfl⟩ := Option.map_eq_some_iff.mp hdenote
    exact hlib hvalid'.nonce_digits hdigits (hown nonce hnonce b hb hlower) hlower

end Sound

/-- **No coinbase is credited twice if a nonce stays with its time.** -/
theorem coinbases_credited_once {lib : Library} (hlib : lib.Faithful) (job : Job)
    {provider : ExtraNonceProvider} {ops : List (JobOp Submission)} {s : JobState Text Accepted}
    (hrun : run (JobState.step (processor lib job)) (JobState.initial provider) ops = some s)
    (hown : Meets (JobState.step (processor lib job)) (fun s op => op.Safe (OwnTime lib job) s)
      (JobState.initial provider) ops) : (s.accepted.map Accepted.coinbase).Nodup :=
  (processor_sound hlib).accepted_nodup hrun hown

section Example

/-- Some digest, exact difficulties, and the lower case of ASCII texts. -/
def exampleLibrary : Library where
  digest _ := List.replicate 32 1
  targetDifficulty target := .ok (Bitcoin.diff1 / target)
  ignoreCase := toLower

theorem exampleLibrary_faithful : exampleLibrary.Faithful := by
  intro s s' t t' _ _ hs ht
  simp only [exampleLibrary, toLower_append] at hs ⊢
  rw [hs, ht]

/-- A job of a test network whose target every hash meets. -/
def exampleJob : Job where
  blockTemplate :=
    { msg := text "548c3e602a8f36f8f2738f5f643b02425038044d98543a51cabaa9785e7e864f"
      b := 2 ^ 256
      height := 614400 }
  extraNonceSize := 6
  difficulty := 1

/-- A nonce of the first worker with a time. -/
def exampleSubmission (nTime : String) : Submission :=
  ⟨some [], text nTime, text "1001000000000abc"⟩

/-- A time that is undefined is no other time than an empty one. -/
theorem coinbases_credited_once_undefined :
    ∃ s ∈ run (JobState.step (processor exampleLibrary exampleJob))
        (JobState.initial (ExtraNonceProvider.create 1 1))
        [.connect 0 1, .subscribe 0, .submit 0 (exampleSubmission ""),
          .submit 0 (exampleSubmission "undefined")],
      s.accepted.length = 1 ∧ (s.accepted.map Accepted.coinbase).Nodup := by
  have hsome : ∃ s ∈ run (JobState.step (processor exampleLibrary exampleJob))
      (JobState.initial (ExtraNonceProvider.create 1 1))
      [.connect 0 1, .subscribe 0, .submit 0 (exampleSubmission ""),
        .submit 0 (exampleSubmission "undefined")],
      s.accepted.length = 1 := by decide +kernel
  obtain ⟨s, hrun, hlength⟩ := hsome
  exact ⟨s, hrun, hlength, coinbases_credited_once exampleLibrary_faithful exampleJob hrun
    (by decide +kernel)⟩

/-- Another time makes the same nonce a share once more. -/
theorem coinbase_credited_again :
    ∃ s ∈ run (JobState.step (processor exampleLibrary exampleJob))
        (JobState.initial (ExtraNonceProvider.create 1 1))
        [.connect 0 1, .subscribe 0, .submit 0 (exampleSubmission ""),
          .submit 0 (exampleSubmission "0")],
      ¬(s.accepted.map Accepted.coinbase).Nodup := by
  decide +kernel

end Example

end HashStorm.Ergo
