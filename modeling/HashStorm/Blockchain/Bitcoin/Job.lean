import HashStorm.Blockchain.Bitcoin.SubmitValidation
import HashStorm.Lib.LittleEndian
import Mathlib.Algebra.Order.Field.Rat

/-!
# Shares of a Bitcoin job

`BitcoinJob.ProcessShare` validates a submission, registers its duplicate key and
judges the hash of the header it denotes. The key is registered before the hash
is judged, so a share that is too easy stays registered. Difficulties are exact
rationals in place of doubles.
-/

namespace HashStorm.Bitcoin

open Stratum LittleEndian

/-- The fields of the block template that shares are built from. -/
structure BlockTemplate where
  version : UInt32
  previousBlockhash : Text
  curTime : UInt32
  bits : Text
  height : UInt32
  /-- The hex data of the transactions, which may be missing. -/
  transactions : List (Option Text)
  mweb : Option Text
  deriving DecidableEq, Repr

/-- The block header of NBitcoin. -/
structure BlockHeader where
  version : Int32
  bits : Text
  hashPrevBlock : Text
  hashMerkleRoot : List UInt8
  blockTime : Int
  nonce : UInt32
  deriving DecidableEq, Repr

/-- What the job calls: the bytes of a header and of a length, and SHA-256 applied twice. -/
structure Library where
  toBytes : BlockHeader → List UInt8
  varInt : UInt32 → List UInt8
  doubleDigest : List UInt8 → List UInt8

/-- The bytes of a header hold its version, its time and its nonce. -/
def Library.Faithful (lib : Library) : Prop :=
  ∀ (bits prevBlock : Text) (merkleRoot : List UInt8) (version version' : Int32)
    (nTime nTime' nonce nonce' : UInt32),
    lib.toBytes ⟨version, bits, prevBlock, merkleRoot, nTime.toNat, nonce⟩ =
        lib.toBytes ⟨version', bits, prevBlock, merkleRoot, nTime'.toNat, nonce'⟩ →
      version = version' ∧ nTime = nTime' ∧ nonce = nonce'

/-- A job as `Init` leaves it; `merkleSteps` are the steps of its Merkle tree. -/
structure Job where
  blockTemplate : BlockTemplate
  coinbaseInitial : List UInt8
  coinbaseFinal : List UInt8
  merkleSteps : List (List UInt8)
  isPoS : Bool
  hasMWEB : Bool
  shareMultiplier : Rat
  difficulty : Rat
  blockTargetValue : Nat
  coinbaseHasher : List UInt8 → List UInt8
  headerHasher : List UInt8 → UInt32 → List UInt8
  blockHasher : List UInt8 → UInt32 → List UInt8

/-- What shares read of `BitcoinWorkerContext`. -/
structure WorkerContext where
  extraNonce1 : Option Text
  versionRollingMask : Option UInt32
  difficulty : Rat
  previousDifficulty : Option Rat
  /-- Whether `VarDiff?.LastUpdate` is set. -/
  varDiffUpdated : Bool
  deriving DecidableEq, Repr

/-- The result of `ProcessShareInternal`. -/
structure Share where
  blockHeight : UInt32
  networkDifficulty : Rat
  difficulty : Rat
  isBlockCandidate : Bool
  blockHash : Option Text
  deriving DecidableEq, Repr

/-- `ExtranoncePlaceHolderLength`. -/
def extranoncePlaceHolderLength : Nat := 8

/-- `Diff1`. -/
def diff1 : Nat := 0xffff * 2 ^ 208

/-- The digits that are left for the second extranonce. -/
def WorkerContext.expectedExtraNonce2Length (context : WorkerContext) : Int :=
  extranoncePlaceHolderLength * 2 - ((context.extraNonce1.map List.length).getD 0 : Nat)

variable (lib : Library) (job : Job)

/-- `MerkleTree.WithFirst`. -/
def withFirst (steps : List (List UInt8)) (first : List UInt8) : List UInt8 :=
  steps.foldl (fun first step => lib.doubleDigest (first ++ step)) first

/-- The version of a header: the negotiated bits replace those of the template. -/
def rolledVersion (version : UInt32) (versionMask versionBits : Option UInt32) : UInt32 :=
  match versionMask, versionBits with
  | some mask, some bits => version &&& ~~~mask ||| bits &&& mask
  | _, _ => version

/-- `SerializeHeader`. -/
def serializeHeader (coinbaseHash : List UInt8) (nTime nonce : UInt32)
    (versionMask versionBits : Option UInt32) : List UInt8 :=
  lib.toBytes
    { version := (rolledVersion job.blockTemplate.version versionMask versionBits).toInt32
      bits := job.blockTemplate.bits
      hashPrevBlock := job.blockTemplate.previousBlockhash
      hashMerkleRoot := withFirst lib job.merkleSteps coinbaseHash
      blockTime := nTime.toNat
      nonce := nonce }

/-- `SerializeCoinbase`. -/
def serializeCoinbase (extraNonce1 extraNonce2 : Text) : List UInt8 :=
  job.coinbaseInitial ++ hexToByteArray extraNonce1 ++ hexToByteArray extraNonce2 ++
    job.coinbaseFinal

/-- `BuildRawTransactionBuffer`. -/
def buildRawTransactionBuffer (transactions : List (Option Text)) :
    Except Failure (List UInt8) :=
  transactions.foldlM (fun buffer data =>
    match data with
    | none => .error .nullReference
    | some data => .ok (buffer ++ hexToByteArray data)) []

/-- `SerializeBlock`. -/
def serializeBlock (header coinbase : List UInt8) : Except Failure (List UInt8) := do
  let rawTransactionBuffer ← buildRawTransactionBuffer job.blockTemplate.transactions
  let transactionCount := UInt32.ofNat (job.blockTemplate.transactions.length + 1)
  let mwebRaw := if job.hasMWEB then job.blockTemplate.mweb.map hexToByteArray else none
  return header ++ lib.varInt transactionCount ++ coinbase ++ rawTransactionBuffer ++
    (if job.isPoS then [0] else []) ++
    (match mwebRaw with
      | none => []
      | some raw => 1 :: raw)

/-- The coinbase and the header that a submission denotes. -/
def shareBytes (context : WorkerContext) (extraNonce2 : Text) (nTime nonce : UInt32)
    (versionBits : Option UInt32) : Except Failure (List UInt8 × List UInt8) :=
  match context.extraNonce1 with
  | none => .error .nullReference
  | some extraNonce1 =>
    let coinbase := serializeCoinbase job extraNonce1 extraNonce2
    .ok (coinbase, serializeHeader lib job (job.coinbaseHasher coinbase) nTime nonce
      context.versionRollingMask versionBits)

/-- Whether the ratio of two difficulties is below 0.99; it is infinite over zero. -/
def lowRatio (shareDiff difficulty : Rat) : Bool :=
  difficulty ≠ 0 ∧ shareDiff / difficulty < 99 / 100

/-- The difficulty a share is accepted for, which may be that before the last retarget. -/
def acceptedDifficulty (context : WorkerContext) (shareDiff : Rat) (isBlockCandidate : Bool) :
    Option Rat :=
  if !isBlockCandidate && lowRatio shareDiff context.difficulty then
    match context.varDiffUpdated, context.previousDifficulty with
    | true, some previous => if lowRatio shareDiff previous then none else some previous
    | _, _ => none
  else some context.difficulty

/-- `ProcessShareInternal`; the message of a low share is without its number. -/
def processShareInternal (context : WorkerContext) (extraNonce2 : Text) (nTime nonce : UInt32)
    (versionBits : Option UInt32) : Except Failure (Share × Option Text) := do
  validateHex extraNonce2 context.expectedExtraNonce2Length "incorrect size of extranonce2"
    "invalid extranonce2"
  let (coinbase, headerBytes) ← shareBytes lib job context extraNonce2 nTime nonce versionBits
  let headerValue := ofLE (job.headerHasher headerBytes nTime)
  if headerValue = 0 then throw .divideByZero
  let shareDiff := (diff1 : Rat) / headerValue * job.shareMultiplier
  let isBlockCandidate := headerValue ≤ job.blockTargetValue
  match acceptedDifficulty context shareDiff isBlockCandidate with
  | none => throw (.stratum .lowDifficultyShare "low difficulty share")
  | some stratumDifficulty =>
    let share : Share :=
      { blockHeight := job.blockTemplate.height
        networkDifficulty := job.difficulty
        difficulty := stratumDifficulty / job.shareMultiplier
        isBlockCandidate := isBlockCandidate
        blockHash :=
          if isBlockCandidate then some (toHexString (job.blockHasher headerBytes nTime))
          else none }
    if isBlockCandidate then
      let blockBytes ← serializeBlock lib job headerBytes coinbase
      return (share, some (toHexString blockBytes))
    else return (share, none)

/-- `RegisterSubmit`: the keys with the new one, unless it was there before. -/
def registerSubmit (submissions : List SubmitDuplicateKey) (extraNonce1 : Option Text)
    (extraNonce2 : Text) (nTime nonce versionBits : UInt32) (hasVersionBits : Bool) :
    Option (List SubmitDuplicateKey) :=
  let key := createDuplicateKey extraNonce1 extraNonce2 nTime nonce versionBits hasVersionBits
  if key ∈ submissions then none else some (key :: submissions)

/-- The key's version bits of a parsed submission. -/
def SubmitInput.versionBitsKey (input : SubmitInput) : Option UInt32 :=
  if input.hasVersionBits then some input.versionBits else none

/-- A submission, as its texts. -/
structure Submission where
  extraNonce2 : Option Text
  nTime : Option Text
  nonce : Option Text
  versionBits : Option Text
  deriving DecidableEq, Repr

/-- A submission of a worker, parsed. -/
def Submission.parse (context : WorkerContext) (submission : Submission) :
    Except Failure SubmitInput :=
  parseSubmitInput submission.extraNonce2 submission.nTime submission.nonce
    submission.versionBits context.versionRollingMask context.expectedExtraNonce2Length

/-- `ProcessShare` at a time in seconds: what it returns, and the registered keys
afterwards. -/
def processShare (submissions : List SubmitDuplicateKey) (context : WorkerContext) (now : Int)
    (submission : Submission) :
    Except Failure (Share × Option Text) × List SubmitDuplicateKey :=
  match submission.parse context with
  | .error e => (.error e, submissions)
  | .ok input =>
    if input.nTime < job.blockTemplate.curTime ∨ (input.nTime.toNat : Int) > now + 7200 then
      (.error (.stratum .other "ntime out of range"), submissions)
    else
      match registerSubmit submissions context.extraNonce1 input.extraNonce2 input.nTime
        input.nonce input.versionBits input.hasVersionBits with
      | none => (.error (.stratum .duplicateShare "duplicate share"), submissions)
      | some submissions' =>
        (processShareInternal lib job context input.extraNonce2 input.nTime input.nonce
          input.versionBitsKey, submissions')

section Key

/-- The key of a submission, by the worker it comes from. -/
def SubmitInput.key (context : WorkerContext) (input : SubmitInput) : SubmitDuplicateKey :=
  createDuplicateKey context.extraNonce1 input.extraNonce2 input.nTime input.nonce
    input.versionBits input.hasVersionBits

variable (submissions : List SubmitDuplicateKey) (context : WorkerContext) (now : Int)
  (submission : Submission)

/-- A submission registers nothing, or its own new key. -/
theorem processShare_submissions :
    (processShare lib job submissions context now submission).2 = submissions ∨
      ∃ input, submission.parse context = .ok input ∧
        (processShare lib job submissions context now submission).2 =
          input.key context :: submissions := by
  rw [processShare]
  cases hparse : submission.parse context with
  | error e => exact .inl rfl
  | ok input =>
    simp only [registerSubmit]
    split
    · exact .inl rfl
    by_cases hkey : input.key context ∈ submissions
    · rw [SubmitInput.key] at hkey
      rw [if_pos hkey]
      exact .inl rfl
    · rw [SubmitInput.key] at hkey
      rw [if_neg hkey]
      exact .inr ⟨input, rfl, rfl⟩

variable {lib job submissions context now submission}

/-- A share that is returned has a new key and was hashed. -/
theorem processShare_ok {result : Share × Option Text}
    (h : (processShare lib job submissions context now submission).1 = .ok result) :
    ∃ input, submission.parse context = .ok input ∧ input.key context ∉ submissions ∧
      (processShare lib job submissions context now submission).2 =
        input.key context :: submissions ∧
      ∃ bytes, shareBytes lib job context input.extraNonce2 input.nTime input.nonce
        input.versionBitsKey = .ok bytes := by
  rw [processShare] at h ⊢
  cases hparse : submission.parse context with
  | error e => simp [hparse] at h
  | ok input =>
    simp only [hparse, registerSubmit] at h ⊢
    split at h
    · cases h
    rename_i htime
    rw [if_neg htime]
    by_cases hkey : input.key context ∈ submissions
    · rw [SubmitInput.key] at hkey
      rw [if_pos hkey] at h
      cases h
    · have hkey' := hkey
      rw [SubmitInput.key] at hkey'
      rw [if_neg hkey'] at h ⊢
      refine ⟨input, rfl, hkey, rfl, ?_⟩
      simp only [processShareInternal] at h
      obtain ⟨_, -, h⟩ := bind_eq_ok.mp h
      obtain ⟨bytes, hbytes, -⟩ := bind_eq_ok.mp h
      exact ⟨bytes, hbytes⟩

end Key

section Bytes

variable {job}

/-- The extranonces are read back from a coinbase if their lengths are known. -/
theorem serializeCoinbase_inj {e f e' f' : Text}
    (he : ∀ c ∈ e, LowerHexDigit c) (hf : ∀ c ∈ f, LowerHexDigit c)
    (he' : ∀ c ∈ e', LowerHexDigit c) (hf' : ∀ c ∈ f', LowerHexDigit c)
    (hlength : e.length = e'.length) (hlength' : f.length = f'.length)
    (heven : e.length % 2 = 0) (heven' : f.length % 2 = 0)
    (h : serializeCoinbase job e f = serializeCoinbase job e' f') : e = e' ∧ f = f' := by
  rw [serializeCoinbase, serializeCoinbase, hexToByteArray_of_lowerHexDigit he,
    hexToByteArray_of_lowerHexDigit hf, hexToByteArray_of_lowerHexDigit he',
    hexToByteArray_of_lowerHexDigit hf'] at h
  have hbytes := List.append_cancel_right h
  simp only [List.append_assoc] at hbytes
  obtain ⟨hbytes, hbytes'⟩ := List.append_inj (List.append_cancel_left hbytes)
    (by rw [length_hexPairs, length_hexPairs, hlength])
  exact ⟨hexPairs_inj he he' hlength heven hbytes, hexPairs_inj hf hf' hlength' heven' hbytes'⟩

/-- Headers with the same bytes have the same version, time and nonce. -/
theorem serializeHeader_inj {lib : Library} (hlib : lib.Faithful) {hash : List UInt8}
    {nTime nonce nTime' nonce' : UInt32} {mask bits mask' bits' : Option UInt32}
    (h : serializeHeader lib job hash nTime nonce mask bits =
      serializeHeader lib job hash nTime' nonce' mask' bits') :
    rolledVersion job.blockTemplate.version mask bits =
        rolledVersion job.blockTemplate.version mask' bits' ∧
      nTime = nTime' ∧ nonce = nonce' := by
  obtain ⟨hversion, htime, hnonce⟩ := hlib _ _ _ _ _ _ _ _ _ h
  exact ⟨congrArg Int32.toUInt32 hversion, htime, hnonce⟩

end Bytes

section Version

/-- Version bits under two masks make different versions: there is a bit of both masks in
which they differ, or a bit of only one mask in which they are not those of the template. -/
def RollsApart (version mask bits mask' bits' : UInt32) : Prop :=
  (bits ^^^ bits') &&& mask &&& mask' ≠ 0 ∨ (bits ^^^ version) &&& mask &&& ~~~mask' ≠ 0 ∨
    (bits' ^^^ version) &&& mask' &&& ~~~mask ≠ 0

instance (version mask bits mask' bits' : UInt32) :
    Decidable (RollsApart version mask bits mask' bits') := by
  unfold RollsApart
  infer_instance

/-- Two words are the same if their bits are. -/
theorem uint32_eq_iff {v w : UInt32} :
    v = w ↔ ∀ i < 32, v.toBitVec.getLsbD i = w.toBitVec.getLsbD i := by
  constructor
  · rintro rfl i -
    rfl
  · intro h
    exact UInt32.toBitVec_inj.mp (BitVec.eq_of_getLsbD_eq h)

/-- One bit of the versions and of the words that compare them. -/
theorem rolled_bit_eq_iff : ∀ v m b m' b' : Bool,
    ((v && !m || b && m) = (v && !m' || b' && m')) ↔
      ((b ^^ b') && m && m') = false ∧ ((b ^^ v) && m && !m') = false ∧
        ((b' ^^ v) && m' && !m) = false := by
  decide

theorem rollsApart_iff {version mask bits mask' bits' : UInt32} :
    RollsApart version mask bits mask' bits' ↔
      (version &&& ~~~mask ||| bits &&& mask) ≠ (version &&& ~~~mask' ||| bits' &&& mask') := by
  have hzero : ∀ i, (0 : UInt32).toBitVec.getLsbD i = false := fun i => by simp
  have hsame : (version &&& ~~~mask ||| bits &&& mask) =
        (version &&& ~~~mask' ||| bits' &&& mask') ↔
      (bits ^^^ bits') &&& mask &&& mask' = 0 ∧ (bits ^^^ version) &&& mask &&& ~~~mask' = 0 ∧
        (bits' ^^^ version) &&& mask' &&& ~~~mask = 0 := by
    simp only [uint32_eq_iff, ← forall_and]
    refine forall_congr' fun i => forall_congr' fun hi => ?_
    simp only [UInt32.toBitVec_and, UInt32.toBitVec_or, UInt32.toBitVec_xor, UInt32.toBitVec_not,
      BitVec.getLsbD_and, BitVec.getLsbD_or, BitVec.getLsbD_xor, BitVec.getLsbD_not, hzero,
      decide_eq_true hi, Bool.true_and]
    exact rolled_bit_eq_iff _ _ _ _ _
  rw [RollsApart]
  tauto

/-- Under one mask the version bits are known by the version. -/
theorem bits_eq_of_rolled_eq {version mask bits bits' : UInt32} (hbits : bits &&& ~~~mask = 0)
    (hbits' : bits' &&& ~~~mask = 0)
    (h : (version &&& ~~~mask ||| bits &&& mask) = (version &&& ~~~mask ||| bits' &&& mask)) :
    bits = bits' := by
  have hbit : ∀ v m b b' : Bool, (b && !m) = false → (b' && !m) = false →
      (v && !m || b && m) = (v && !m || b' && m) → b = b' := by decide
  have hzero : ∀ i, (0 : UInt32).toBitVec.getLsbD i = false := fun i => by simp
  rw [uint32_eq_iff] at hbits hbits' h ⊢
  intro i hi
  have hi₁ := hbits i hi
  have hi₂ := hbits' i hi
  have hi₃ := h i hi
  simp only [UInt32.toBitVec_and, UInt32.toBitVec_or, UInt32.toBitVec_not, BitVec.getLsbD_and,
    BitVec.getLsbD_or, BitVec.getLsbD_not, hzero, decide_eq_true hi, Bool.true_and]
    at hi₁ hi₂ hi₃
  exact hbit _ _ _ _ hi₁ hi₂ hi₃

/-- No mask is like the mask without bits. -/
theorem rolledVersion_eq {version : UInt32} {mask : Option UInt32} {length : Int}
    {input : SubmitInput} (h : input.Valid mask length) :
    rolledVersion version mask input.versionBitsKey =
      (version &&& ~~~mask.getD 0 ||| input.versionBits &&& mask.getD 0) := by
  rw [SubmitInput.versionBitsKey, h.hasVersionBits_eq]
  cases mask with
  | some mask => rfl
  | none => simp [rolledVersion]

end Version

end HashStorm.Bitcoin
