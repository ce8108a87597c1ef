import HashStorm.Blockchain.BlockSubmission
import HashStorm.Blockchain.JobIds
import HashStorm.Blockchain.Kaspa.Header
import HashStorm.Blockchain.PoolJobs

/-!
# The jobs of a Kaspa pool

`KaspaJobManager` makes a job of every template with a higher score than the
current job, and chooses its hash functions by the coin. Miners that send other
job ids are judged by the first job they keep that is older. Shares of two jobs
hash different bytes, as the score is part of the header: no work is credited
twice, whoever submits it under whichever job.
-/

namespace HashStorm.Kaspa

open Stratum Blockchain LittleEndian Machine JobManagerBase

section Hashes

/-- A hash function whose values have 32 bytes. -/
abbrev Digest := { digest : List UInt8 → List UInt8 // ∀ data, (digest data).length = 32 }

/-- The hash functions of the coins, the `Target` of NBitcoin, the matrix of `GenerateMatrix`,
and whether a user agent matches an expression up to case. -/
structure Hashes where
  /-- `Blake2b` with `CoinbaseBlockHash`. -/
  blake2b : Digest
  blake3 : Digest
  /-- `Blake3` with `CoinbaseBlockHash`. -/
  blake3Keyed : Digest
  /-- `CShake256` with `CoinbaseProofOfWorkHash`. -/
  cShakeProofOfWork : Digest
  /-- `CShake256` with `CoinbaseHeavyHash`. -/
  cShakeHeavy : Digest
  heavyHash : Digest
  fishHash : Digest
  fishHashPlus : Digest
  sha3 : Digest
  astroBWTv3 : Digest
  target : Nat → Nat
  generateMatrix : List UInt8 → Nat → Nat → Nat
  isMatch : String → Text → Bool

/-- The symbols that `CreateJob` distinguishes. -/
inductive CoinSymbol where
  | aix | cas | htn | kas | kls | css | ntl | nxl | pug | pyi | spr | other
  deriving DecidableEq, Repr

/-- The networks that `CreateJob` distinguishes. -/
inductive KarlsenNetwork where
  | mainnet | testnet | other
  deriving DecidableEq, Repr

/-- `FishHashPlusForkHeightTestnet`. -/
def fishHashPlusForkHeightTestnet : UInt64 := 43200

/-- `FishHashPlusForkHeightMainnet`. -/
def fishHashPlusForkHeightMainnet : UInt64 := 26962009

/-- `FishHashForkHeightTestnet`. -/
def fishHashForkHeightTestnet : UInt64 := 0

/-- `Blake3ForkHeight` of Pyrin. -/
def blake3ForkHeight : UInt64 := 1484741

variable (hashes : Hashes)

/-- A job has a hash function for its header, its coinbase and its shares. -/
def Hashes.library (blockHeaderHasher coinbaseHasher shareHasher : Digest)
    (isFishHashKarlsen : Bool) : Library where
  blockHeaderHasher := blockHeaderHasher.val
  coinbaseHasher := coinbaseHasher.val
  shareHasher := shareHasher.val
  isFishHashKarlsen := isFishHashKarlsen
  target := hashes.target
  generateMatrix := hashes.generateMatrix

/-- `AstrixJob.ProcessShareInternal`: two more hash functions behind the coinbase. -/
def astrixJob : Variant :=
  { kaspaJob with
    shareHash := fun lib job =>
      lib.shareHasher (computeCoinbase lib job.prePowHash (hashes.sha3.val (hashes.blake3.val
        (serializeCoinbase lib job.prePowHash job.header.timestamp job.header.nonce)))) }

/-- `SpectreJob.ProcessShareInternal`: the matrix is that of the bytes of the coinbase. -/
def spectreJob : Variant :=
  { kaspaJob with
    shareHash := fun lib job =>
      let coinbaseRaw := coinbaseBytes job.prePowHash job.header.timestamp job.header.nonce
      lib.shareHasher (computeCoinbase lib coinbaseRaw
        (hashes.astroBWTv3.val (lib.coinbaseHasher coinbaseRaw))) }

/-- The share hasher of Karlsencoin, and whether it is `FishHashKarlsen`. -/
def karlsenShareHasher (network : KarlsenNetwork) (blockHeight : UInt64) : Digest × Bool :=
  if network = .testnet ∧ blockHeight ≥ fishHashPlusForkHeightTestnet ∨
      network = .mainnet ∧ blockHeight ≥ fishHashPlusForkHeightMainnet then
    (hashes.fishHashPlus, true)
  else if network = .testnet ∧ blockHeight ≥ fishHashForkHeightTestnet then (hashes.fishHash, true)
  else (hashes.cShakeHeavy, false)

/-- `CreateJob`: the hash functions of a coin at a height, and the kind of its jobs. `PyrinJob`
is `KaspaJob`. -/
def createJob (network : KarlsenNetwork) (blockHeight : UInt64) : CoinSymbol → Library × Variant
  | .aix => (hashes.library hashes.blake2b hashes.cShakeProofOfWork hashes.cShakeHeavy false,
      astrixJob hashes)
  | .cas | .htn => (hashes.library hashes.blake3Keyed hashes.blake3 hashes.blake3 false, kaspaJob)
  | .kas => (hashes.library hashes.heavyHash hashes.heavyHash hashes.heavyHash false,
      kaspaHeavyJob)
  | .kls =>
    let (shareHasher, isFishHashKarlsen) := karlsenShareHasher hashes network blockHeight
    (hashes.library hashes.blake2b hashes.blake3 shareHasher isFishHashKarlsen, karlsencoinJob)
  | .css | .ntl | .nxl | .pug =>
    (hashes.library hashes.blake2b hashes.blake3 hashes.cShakeHeavy false, karlsencoinJob)
  | .pyi =>
    if blockHeight ≥ blake3ForkHeight then
      (hashes.library hashes.blake3Keyed hashes.blake3 hashes.blake3 false, kaspaJob)
    else
      (hashes.library hashes.blake2b hashes.cShakeProofOfWork hashes.cShakeHeavy false, kaspaJob)
  | .spr => (hashes.library hashes.blake2b hashes.cShakeProofOfWork hashes.cShakeHeavy false,
      spectreJob hashes)
  | .other => (hashes.library hashes.blake2b hashes.cShakeProofOfWork hashes.cShakeHeavy false,
      kaspaJob)

/-- Every header hasher gives 32 bytes. -/
theorem length_blockHeaderHasher (network : KarlsenNetwork) (blockHeight : UInt64)
    (symbol : CoinSymbol) (data : List UInt8) :
    ((createJob hashes network blockHeight symbol).1.blockHeaderHasher data).length = 32 := by
  have hdigest : ∃ digest : Digest,
      (createJob hashes network blockHeight symbol).1.blockHeaderHasher = digest.val := by
    cases symbol with
    | pyi =>
      simp only [createJob]
      split
      · exact ⟨hashes.blake3Keyed, rfl⟩
      · exact ⟨hashes.blake2b, rfl⟩
    | _ => exact ⟨_, rfl⟩
  obtain ⟨digest, heq⟩ := hdigest
  rw [heq]
  exact digest.property data

end Hashes

section Jobs

/-- A pool: its hash functions, the coin and its network, the multiplier of its shares, and how
many jobs a worker keeps. -/
structure Coin where
  hashes : Hashes
  symbol : CoinSymbol
  network : KarlsenNetwork
  shareMultiplier : Rat
  shareMultiplier_pos : 0 < shareMultiplier
  maxActiveJobs : Nat

variable (coin : Coin)

/-- The hash functions of a job, by its header. -/
def Coin.library (header : RpcBlockHeader) : Library :=
  (createJob coin.hashes coin.network header.daaScore coin.symbol).1

/-- The kind of a job, by its header. -/
def Coin.variant (header : RpcBlockHeader) : Variant :=
  (createJob coin.hashes coin.network header.daaScore coin.symbol).2

/-- The hash of a header without its time and its nonce. -/
def Coin.prePowHash (header : RpcBlockHeader) : List UInt8 :=
  serializeHeader (coin.library header) header true

/-- `Init`, for bits that do not denote a negative number. -/
def init (template : RpcBlock) (jobId : Text) : Except Failure Job :=
  let target := initBlockTarget (coin.library template.header) template.header
  if target = 0 then .error .divideByZero
  else .ok {
    jobId := jobId
    header := template.header
    transactions := template.transactions
    prePowHash := coin.prePowHash template.header
    difficulty := diff1Target / target
    blockTargetValue := target
    shareMultiplier := coin.shareMultiplier
    shareMultiplier_pos := coin.shareMultiplier_pos }

/-- `UpdateJob`: the counter of the job ids, and the new job. After an exception in `Init` there
is none, but its id is used up. -/
def updateJob (jobId : Int32) (currentJob : Option Job) (template : RpcBlock) :
    Int32 × Option Job :=
  let isNew := currentJob.all fun job => job.header.daaScore < template.header.daaScore
  if isNew then
    let (jobId, id) := nextJobId .decimal jobId
    (jobId, (init coin template id).toOption)
  else (jobId, none)

/-- The parameters of a submission: a worker, a job id and a nonce. -/
abbrev Submission := List (Option Text)

/-- `GetSubmitParamsOrThrow` and `ReadSubmitString`: the job id and the nonce. -/
def readSubmission (submitParams : Submission) : Except Failure (Text × Text) :=
  if submitParams.length < 3 then .error (.stratum .other "invalid params")
  else
    match submitParams[1]?, submitParams[2]? with
    | some (some jobId), some (some nonce) => .ok (jobId, nonce)
    | _, _ => .error (.stratum .other "invalid params")

/-- Whether a character is a space for a number. -/
def isWhite (c : UInt16) : Bool := c = 32 || (9 ≤ c && c ≤ 13)

/-- Whether a character is a decimal digit. -/
def isDecimalDigit (c : UInt16) : Bool := 48 ≤ c && c ≤ 57

/-- `long.TryParse`: a sign and digits, between spaces and in front of zero characters. -/
def longTryParse (s : Text) : Option Int :=
  let s := s.dropWhile isWhite
  let negative := s.head? = some 45
  let s := if negative || s.head? = some 43 then s.drop 1 else s
  let digits := s.takeWhile isDecimalDigit
  let behind := ((s.drop digits.length).dropWhile isWhite).dropWhile (· = 0)
  let magnitude : Int := digits.foldl (fun n c => n * 10 + (c.toNat - 48)) 0
  let value := if negative then -magnitude else magnitude
  if digits = [] ∨ behind ≠ [] ∨ value < -2 ^ 63 ∨ 2 ^ 63 ≤ value then none else some value

/-- `ValidateIsGodMiner`. -/
def validateIsGodMiner (userAgent : Option Text) : Bool :=
  userAgent.any fun userAgent => userAgent ≠ [] && coin.hashes.isMatch "godminer|gminer" userAgent

/-- `ValidateIsIceRiverMiner`. -/
def validateIsIceRiverMiner (userAgent : Option Text) : Bool :=
  userAgent.any fun userAgent => userAgent ≠ [] && coin.hashes.isMatch "iceriver" userAgent

/-- `TryGetFallbackJob`: the first job with a lower id. -/
def tryGetFallbackJob (validJobs : List (Nat × Job)) (jobId : Text) : Option (Nat × Job) :=
  (longTryParse jobId).bind fun submittedJobId => validJobs.find? fun e =>
    (longTryParse e.2.jobId).any (· < submittedJobId)

/-- The job of a submission: the one it names, or for some miners an older one. -/
def getJob (userAgent : Option Text) (validJobs : List (Nat × Job)) (submission : Submission) :
    Option Nat :=
  match readSubmission submission with
  | .error _ => none
  | .ok (jobId, _) =>
    let job :=
      match validJobs.find? fun e => e.2.jobId = jobId with
      | some job => some job
      | none =>
        if validateIsGodMiner coin userAgent || validateIsIceRiverMiner coin userAgent then
          tryGetFallbackJob validJobs jobId
        else none
    job.map Prod.fst

/-- What `SubmitShareAsync` does with the job: `ProcessShare` of the nonce. -/
def process (job : Job) (context : WorkerContext) (submission : Submission)
    (submissions : List Text) : Except Failure Share × Job × List Text :=
  match readSubmission submission with
  | .error e => (.error e, job, submissions)
  | .ok (_, nonce) =>
    processShare (coin.library job.header) (coin.variant job.header) job submissions context
      (some nonce)

/-- The bytes that a job hashes: its header, for `KaspaHeavyJob`, or those of the coinbase. -/
def work (job : Job) : List UInt8 :=
  if coin.symbol = .kas then serializeHeaderRaw job.header
  else coinbaseBytes job.prePowHash job.header.timestamp job.header.nonce

/-- A coinbase with a hash of 32 bytes in front tells its parts. -/
theorem coinbaseBytes_inj {prePowHash prePowHash' : List UInt8} {timestamp timestamp' : Int64}
    {nonce nonce' : UInt64} (hlength : prePowHash.length = 32) (hlength' : prePowHash'.length = 32)
    (h : coinbaseBytes prePowHash timestamp nonce = coinbaseBytes prePowHash' timestamp' nonce') :
    prePowHash = prePowHash' ∧ timestamp = timestamp' ∧ nonce = nonce' := by
  simp only [coinbaseBytes, List.append_assoc] at h
  obtain ⟨hhash, h⟩ := List.append_inj h (hlength.trans hlength'.symm)
  obtain ⟨htime, h⟩ := List.append_inj h (by rw [length_leBytes, length_leBytes])
  have hnonce := List.append_cancel_left h
  refine ⟨hhash, ?_, ?_⟩
  · have hword := UInt64.toNat.inj
      (leBytes_inj timestamp.toUInt64.toNat_lt timestamp'.toUInt64.toNat_lt htime)
    exact Int64.toBitVec_inj.mp (congrArg UInt64.toBitVec hword)
  · exact UInt64.toNat.inj (leBytes_inj nonce.toNat_lt nonce'.toNat_lt hnonce)

/-- Jobs of one height with the same bytes have the same hash. -/
theorem shareHash_eq_of_work_eq {job job' : Job} (hlength : job.prePowHash.length = 32)
    (hlength' : job'.prePowHash.length = 32) (h : work coin job = work coin job') (lib : Library)
    (blockHeight : UInt64) :
    (createJob coin.hashes coin.network blockHeight coin.symbol).2.shareHash lib job =
      (createJob coin.hashes coin.network blockHeight coin.symbol).2.shareHash lib job' := by
  rw [work, work] at h
  by_cases hkas : coin.symbol = .kas
  · rw [if_pos hkas, if_pos hkas] at h
    simp only [hkas, createJob, kaspaHeavyJob, kaspaHeavyShareHash, h]
  · rw [if_neg hkas, if_neg hkas] at h
    obtain ⟨hhash, htime, hnonce⟩ := coinbaseBytes_inj hlength hlength' h
    cases hsymbol : coin.symbol with
    | kas => exact absurd hsymbol hkas
    | aix => simp only [createJob, astrixJob, hhash, htime, hnonce]
    | spr => simp only [createJob, spectreJob, hhash, htime, hnonce]
    | kls | css | ntl | nxl | pug =>
      simp only [createJob, karlsencoinJob, karlsencoinShareHash, kaspaShareHash, hhash, htime,
        hnonce]
    | pyi =>
      simp only [createJob]
      split <;> simp only [kaspaJob, kaspaShareHash, hhash, htime, hnonce]
    | cas | htn | other => simp only [createJob, kaspaJob, kaspaShareHash, hhash, htime, hnonce]

/-- A share that was accepted: the id of its job, the nonce that was registered, and the bytes
that were hashed. -/
structure Accepted where
  jobId : Text
  nonce : Text
  hashed : List UInt8
  deriving DecidableEq, Repr

/-- What a submission denotes under a job. -/
def denote (job : Job) (context : WorkerContext) (submission : Submission) : Option Accepted :=
  match readSubmission submission with
  | .error _ => none
  | .ok (_, submitted) =>
    let nonce := buildFinalNonceHex context.extraNonce1 submitted nonceLength
    match parseNonceHex nonce with
    | .error _ => none
    | .ok value => some ⟨job.jobId, nonce, work coin (job.setNonce value)⟩

/-- The jobs of a pool. -/
def chain : PoolChain Int32 RpcBlock Job Submission Text Failure Share Accepted where
  maxActiveJobs := coin.maxActiveJobs
  updateJob := updateJob coin
  getJob := getJob coin
  process := process coin
  denote := denote coin

end Jobs

section Sound

variable {coin : Coin}

/-- What does not change of a job. -/
def Job.ident (job : Job) : Job := job.setNonce 0

/-- The key of a share. -/
def Accepted.key (a : Accepted) : Text := toLower (a.jobId ++ text ":" ++ a.nonce)

/-- What is known of a share of a job: its nonce is that of the bytes. -/
structure Accepted.Valid (coin : Coin) (job : Job) (a : Accepted) : Prop where
  jobId_eq : a.jobId = job.jobId
  nonce_hex : isFixedLengthHex a.nonce nonceLength = true
  nonce_lt : hexNumber a.nonce < 2 ^ 64
  hashed_eq : a.hashed = work coin (job.setNonce (UInt64.ofNat (hexNumber a.nonce)))

/-- A nonce that is parsed has sixteen digits, and is their number. -/
theorem parseNonceHex_ok {nonce : Text} {value : UInt64} (h : parseNonceHex nonce = .ok value) :
    isFixedLengthHex nonce nonceLength = true ∧ hexNumber nonce < 2 ^ 64 ∧
      value = UInt64.ofNat (hexNumber nonce) := by
  rw [parseNonceHex] at h
  split at h
  · rename_i hhex
    split at h
    · cases h
    · rename_i n hparse
      obtain ⟨hlt, rfl⟩ := tryParseHexNumber_eq_some hparse
      exact ⟨hhex, hlt, (Except.ok.inj h).symm⟩
  · cases h

/-- The nonce is the last part of the coinbase, and has its place in the header. -/
theorem nonce_eq_of_work_eq {job : Job} {nonce nonce' : UInt64}
    (h : work coin (job.setNonce nonce) = work coin (job.setNonce nonce')) : nonce = nonce' := by
  have hbytes : leBytes 8 nonce.toNat = leBytes 8 nonce'.toNat := by
    rw [work, work] at h
    split at h
    · simpa only [serializeHeaderRaw, headerBytes, Job.setNonce, List.append_assoc,
        List.append_cancel_left_eq, List.append_cancel_right_eq] using h
    · simpa only [coinbaseBytes, Job.setNonce, List.append_cancel_left_eq] using h
  exact UInt64.toNat.inj (leBytes_inj nonce.toNat_lt nonce'.toNat_lt hbytes)

/-- Shares of a job with the same bytes have the same nonce, up to case. -/
theorem Accepted.Valid.key_eq {job : Job} {a b : Accepted} (ha : a.Valid coin job)
    (hb : b.Valid coin job) (h : b.hashed = a.hashed) : b.key = a.key := by
  have hdigits := isFixedLengthHex_iff.mp ha.nonce_hex
  have hdigits' := isFixedLengthHex_iff.mp hb.nonce_hex
  rw [hb.hashed_eq, ha.hashed_eq] at h
  have hnumber : hexNumber b.nonce = hexNumber a.nonce := by
    have hnat := congrArg UInt64.toNat (nonce_eq_of_work_eq h)
    rwa [UInt64.toNat_ofNat_of_lt' hb.nonce_lt, UInt64.toNat_ofNat_of_lt' ha.nonce_lt] at hnat
  have hlower := toLower_eq_of_hexNumber_eq hdigits'.2 hdigits.2
    (hdigits'.1.trans hdigits.1.symm) hnumber
  simp only [Accepted.key, toLower_append, ha.jobId_eq, hb.jobId_eq, hlower]

/-- `ProcessShareInternal` changes nothing of the job but the nonce. -/
theorem ident_processShareInternal (lib : Library) (variant : Variant) (job : Job)
    (context : WorkerContext) (nonce : Text) :
    (processShareInternal lib variant job context nonce).2.ident = job.ident := by
  rw [processShareInternal]
  split <;> rfl

/-- A nonce is refused, or it can be parsed and its own key is new. -/
theorem processShare_cases (lib : Library) (variant : Variant) (job : Job)
    (submissions : List Text) (context : WorkerContext) (submitted : Text) :
    (∃ e, processShare lib variant job submissions context (some submitted) =
        (.error e, job, submissions)) ∨
      ∃ nonce value, nonce = buildFinalNonceHex context.extraNonce1 submitted nonceLength ∧
        parseNonceHex nonce = .ok value ∧ submitKey job nonce ∉ submissions ∧
        processShare lib variant job submissions context (some submitted) =
          ((processShareInternal lib variant job context nonce).1,
            (processShareInternal lib variant job context nonce).2,
            submitKey job nonce :: submissions) := by
  rw [processShare]
  split
  · exact .inl ⟨_, rfl⟩
  dsimp only [Option.getD_some]
  split
  · exact .inl ⟨_, rfl⟩
  rename_i value hparse
  by_cases hused : submitKey job
      (buildFinalNonceHex context.extraNonce1 submitted nonceLength) ∈ submissions
  · simp only [tryAdd, if_pos hused]
    exact .inl ⟨_, rfl⟩
  · simp only [tryAdd, if_neg hused]
    exact .inr ⟨_, value, rfl, hparse, hused, rfl⟩

theorem chain_sound (coin : Coin) :
    (chain coin).Sound Job.ident Accepted.key Accepted.hashed (Accepted.Valid coin) where
  ident_process job context submission keys := by
    simp only [chain, process]
    split
    · rfl
    rename_i jobId submitted hread
    rcases processShare_cases (coin.library job.header) (coin.variant job.header) job keys context
      submitted with ⟨e, hresult⟩ | ⟨nonce, value, -, -, -, hresult⟩
    · rw [hresult]
    · rw [hresult]
      exact ident_processShareInternal _ _ job context nonce
  process_cases job context submission keys := by
    simp only [chain, process, denote]
    split
    · exact .inl ⟨_, _, rfl⟩
    rename_i jobId submitted hread
    rcases processShare_cases (coin.library job.header) (coin.variant job.header) job keys context
      submitted with ⟨e, hresult⟩ | ⟨nonce, value, rfl, hparse, hnew, hresult⟩
    · exact .inl ⟨e, job, hresult⟩
    · rw [hresult, hparse]
      exact .inr ⟨_, rfl, hnew, rfl⟩
  valid {job context submission a} hdenote := by
    simp only [chain, denote] at hdenote
    split at hdenote
    · cases hdenote
    split at hdenote
    · cases hdenote
    rename_i value hparse
    obtain rfl := Option.some.inj hdenote
    obtain ⟨hhex, hlt, rfl⟩ := parseNonceHex_ok hparse
    exact ⟨rfl, hhex, hlt, rfl⟩
  key_eq ha hb h := ha.key_eq hb h

end Sound

section Separate

variable {coin : Coin}

/-- A job was made of a template. -/
def MadeOf (coin : Coin) (template : RpcBlock) (job : Job) : Prop :=
  job.header = { template.header with nonce := 0 } ∧
    job.prePowHash = coin.prePowHash template.header

theorem MadeOf.wellFormed {template : RpcBlock} {job : Job} (h : MadeOf coin template job)
    (hformed : template.header.WellFormed) : job.header.WellFormed := by
  rw [h.1]
  exact hformed.setNonce 0

theorem MadeOf.daaScore_eq {template : RpcBlock} {job : Job} (h : MadeOf coin template job) :
    job.header.daaScore = template.header.daaScore := by
  rw [h.1]

theorem MadeOf.length_prePowHash {template : RpcBlock} {job : Job}
    (h : MadeOf coin template job) : job.prePowHash.length = 32 := by
  rw [h.2]
  apply length_blockHeaderHasher

/-- The current job makes way for one with a higher score. -/
theorem updateJob_spec {jobId : Int32} {currentJob : Option Job} {template : RpcBlock} {job : Job}
    (h : (updateJob coin jobId currentJob template).2 = some job) :
    MadeOf coin template job.ident ∧
      ∀ current ∈ currentJob, current.header.daaScore < job.header.daaScore := by
  rw [updateJob] at h
  dsimp only at h
  split at h
  · rename_i hnew
    simp only [init] at h
    split at h
    · cases h
    obtain rfl := Option.some.inj h
    refine ⟨⟨rfl, rfl⟩, fun current hcurrent => ?_⟩
    rw [Option.mem_def.mp hcurrent] at hnew
    simpa using hnew
  · cases h

/-- Headers of different scores have different bytes. -/
theorem headerBytes_ne {header header' : RpcBlockHeader} (h : header.WellFormed)
    (h' : header'.WellFormed) (hscore : header.daaScore < header'.daaScore)
    {timestamp timestamp' : Int64} {nonce nonce' : UInt64} :
    headerBytes header timestamp nonce ≠ headerBytes header' timestamp' nonce' := by
  intro hbytes
  have hfields := congrArg HeaderFields.daaScore (headerFields_eq_of_bytes_eq h h' hbytes)
  have hequal : header.daaScore = header'.daaScore := hfields
  rw [hequal] at hscore
  exact UInt64.lt_irrefl _ hscore

/-- No two headers of a list that have different bytes have the same hash before the nonce is
known; the jobs of `KaspaHeavyJob` do not need it. -/
def Coin.NoCollision (coin : Coin) (templates : List RpcBlock) : Prop :=
  coin.symbol ≠ .kas → ∀ t ∈ templates, ∀ t' ∈ templates,
    coin.prePowHash t.header = coin.prePowHash t'.header →
      headerBytes t.header 0 0 = headerBytes t'.header 0 0

/-- Shares of jobs with different scores hash different bytes. -/
theorem hashed_ne {templates : List RpcBlock} (hcollision : coin.NoCollision templates)
    {t t' : RpcBlock} (ht : t ∈ templates) (ht' : t' ∈ templates) (h : t.header.WellFormed)
    (h' : t'.header.WellFormed) {job job' : Job} (hmade : MadeOf coin t job)
    (hmade' : MadeOf coin t' job') (hscore : job.header.daaScore < job'.header.daaScore)
    {a b : Accepted} (ha : a.Valid coin job) (hb : b.Valid coin job') : a.hashed ≠ b.hashed := by
  rw [ha.hashed_eq, hb.hashed_eq, work, work]
  by_cases hkas : coin.symbol = .kas
  · -- the header itself is hashed
    rw [if_pos hkas, if_pos hkas]
    exact headerBytes_ne (hmade.wellFormed h) (hmade'.wellFormed h') hscore
  · rw [if_neg hkas, if_neg hkas]
    intro hbytes
    -- then the templates have the same hash, and so the same bytes
    have hhash := (coinbaseBytes_inj hmade.length_prePowHash hmade'.length_prePowHash hbytes).1
    rw [hmade.2, hmade'.2] at hhash
    rw [hmade.daaScore_eq, hmade'.daaScore_eq] at hscore
    exact headerBytes_ne h h' hscore (hcollision hkas t ht t' ht' hhash)

/-- The score of a job is lower. -/
def Older (job job' : Job) : Prop := job.header.daaScore < job'.header.daaScore

instance : IsTrans Job Older := ⟨fun _ _ _ h h' => UInt64.lt_trans h h'⟩

end Separate

/-- **Kaspa work is credited once**: no two shares that a pool accepts in a run hash the same
bytes, whoever submits them, and under whichever jobs. -/
theorem work_credited_once (coin : Coin) {jobId : Int32} {provider : ExtraNonceProvider}
    {ops : List (PoolOp RpcBlock Submission)} {s : PoolState Int32 Job Text Accepted}
    (hrun : run (PoolState.step (chain coin)) (PoolState.initial jobId provider) ops = some s)
    (hformed : ∀ t ∈ templates ops, t.header.WellFormed)
    (hcollision : coin.NoCollision (templates ops)) :
    (s.accepted.map Accepted.hashed).Nodup := by
  have hsound := chain_sound coin
  have hmade : ∀ job ∈ s.idents Job.ident, ∃ t ∈ templates ops, MadeOf coin t job :=
    PoolState.made_of_run hsound
      (fun _ _ template job ht hjob => ⟨template, ht, (updateJob_spec hjob).1⟩) hrun
  have hordered : (s.idents Job.ident).Pairwise Older :=
    PoolState.ordered_of_run hsound
      (fun _ current _ _ hjob => (updateJob_spec hjob).2 current rfl) hrun
  refine PoolState.accepted_nodup hsound hrun (hordered.imp_of_mem ?_)
  intro job job' hjob hjob' hscore a b ha hb
  obtain ⟨t, ht, hmadeOf⟩ := hmade job hjob
  obtain ⟨t', ht', hmadeOf'⟩ := hmade job' hjob'
  exact hashed_ne hcollision ht ht' (hformed t ht) (hformed t' ht') hmadeOf hmadeOf' hscore ha hb

section Example

/-- A digest that takes all bytes for one number. -/
def exampleDigest : Digest :=
  ⟨fun data => leBytes 32 (ofLE data % (2 ^ 256 - 189)), fun _ => length_leBytes _ _⟩

/-- Karlsencoin after its last fork; the target of every number is itself. -/
def exampleCoin : Coin where
  hashes :=
    { blake2b := exampleDigest, blake3 := exampleDigest, blake3Keyed := exampleDigest
      cShakeProofOfWork := exampleDigest, cShakeHeavy := exampleDigest
      heavyHash := exampleDigest, fishHash := exampleDigest, fishHashPlus := exampleDigest
      sha3 := exampleDigest, astroBWTv3 := exampleDigest
      target := id
      generateMatrix := fun _ i j => if i = j then 1 else 0
      isMatch := fun _ _ => false }
  symbol := .kls
  network := .mainnet
  shareMultiplier := 1
  shareMultiplier_pos := zero_lt_one
  maxActiveJobs := 8

/-- A template of a score. -/
def exampleTemplate (daaScore : UInt64) : RpcBlock := ⟨exampleHeader daaScore, []⟩

/-- Two jobs, two workers, and one nonce, which is submitted in upper and in lower case. -/
def exampleOps : List (PoolOp RpcBlock Submission) :=
  [.updateJob (exampleTemplate 26962009), .connect 0 (1 / 1024), .subscribe 0 none, .sendJob 0,
    .submit 0 [none, some [49], some (List.replicate 16 97)],
    .connect 1 (1 / 1024), .subscribe 1 none, .sendJob 1,
    .submit 1 [none, some [49], some (List.replicate 16 65)],
    .updateJob (exampleTemplate 26962009), .updateJob (exampleTemplate 26962010), .sendJob 1,
    .submit 1 [none, some [50], some (List.replicate 16 97)]]

/-- A nonce is accepted once under each job. -/
theorem work_credited_once_example :
    ∃ s ∈ run (PoolState.step (chain exampleCoin))
        (PoolState.initial 0 (ExtraNonceProvider.create 1 1)) exampleOps,
      s.accepted.length = 2 ∧ (s.accepted.map Accepted.hashed).Nodup := by
  have hsome : ∃ s ∈ run (PoolState.step (chain exampleCoin))
      (PoolState.initial 0 (ExtraNonceProvider.create 1 1)) exampleOps,
      s.accepted.length = 2 := by decide +kernel
  have hformed : ∀ t ∈ templates exampleOps, t.header.WellFormed := by decide +kernel
  have hcollision : exampleCoin.NoCollision (templates exampleOps) := by
    unfold Coin.NoCollision
    decide +kernel
  obtain ⟨s, hrun, hlength⟩ := hsome
  exact ⟨s, hrun, hlength, work_credited_once exampleCoin hrun hformed hcollision⟩

end Example

end HashStorm.Kaspa
