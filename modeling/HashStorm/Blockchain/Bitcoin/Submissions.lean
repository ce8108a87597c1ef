import HashStorm.Blockchain.Bitcoin.Job
import HashStorm.Blockchain.ExtraNonceProvider
import HashStorm.Lib.Machine
import HashStorm.Lib.Registry

/-!
# The submissions of a Bitcoin job

Workers connect, subscribe, negotiate a version-rolling mask and submit shares of
one job, in any order. The duplicate key has the version bits a worker sends, and
the header has the version they make under the mask of the worker; so a share is
accepted again if it is submitted under another mask that makes the same version.
-/

namespace HashStorm.Bitcoin.Submissions

open Stratum Blockchain Machine Registry LittleEndian

/-- `VersionRollingPoolMask`. -/
def versionRollingPoolMask : UInt32 := 0x1fffe000

/-- The mask that is requested; that of the pool is the default. -/
def parseRequestedMask : Option Text → Except Failure UInt32
  | none => .ok versionRollingPoolMask
  | some value =>
    parseHex8Strict value "incorrect size of version-rolling mask" "invalid version-rolling mask"

/-- `ConfigureVersionRolling`. -/
def configureVersionRolling (context : WorkerContext) (requestedMask : Option Text) :
    Except Failure WorkerContext := do
  let requestedMask ← parseRequestedMask requestedMask
  return { context with versionRollingMask := some (versionRollingPoolMask &&& requestedMask) }

/-- A share that was returned: the worker and the input it came from, and what was hashed. -/
structure Accepted where
  context : WorkerContext
  input : SubmitInput
  coinbase : List UInt8
  header : List UInt8
  deriving DecidableEq, Repr

/-- The duplicate key of an accepted share, and the bytes that were hashed. -/
def Accepted.entry (a : Accepted) : SubmitDuplicateKey × (List UInt8 × List UInt8) :=
  (a.input.key a.context, (a.coinbase, a.header))

/-- The workers of a pool and one of its jobs. -/
structure State where
  provider : ExtraNonceProvider
  contexts : Nat → Option WorkerContext
  submissions : List SubmitDuplicateKey
  accepted : List Accepted

/-- A new job; no worker is connected. -/
def State.initial (provider : ExtraNonceProvider) : State := ⟨provider, fun _ => none, [], []⟩

/-- What happens to a pool: a worker connects, anew or again, or subscribes, or configures
version rolling, or gets another difficulty, or submits a share. -/
inductive Op where
  | connect (worker : Nat) (difficulty : Rat)
  | subscribe (worker : Nat)
  | configure (worker : Nat) (requestedMask : Option Text)
  | setDifficulty (worker : Nat) (difficulty : Rat) (varDiffUpdated : Bool)
  | submit (worker : Nat) (now : Int) (submission : Submission)

/-- Replace the context of a worker. -/
def State.set (s : State) (worker : Nat) (context : WorkerContext) : State :=
  { s with contexts := Function.update s.contexts worker (some context) }

/-- The share that is accepted, if the submission is. -/
def acceptedShare (lib : Library) (job : Job) (context : WorkerContext)
    (submission : Submission) : Option Accepted :=
  match submission.parse context with
  | .error _ => none
  | .ok input =>
    match shareBytes lib job context input.extraNonce2 input.nTime input.nonce
      input.versionBitsKey with
    | .error _ => none
    | .ok (coinbase, header) => some ⟨context, input, coinbase, header⟩

/-- `ProcessShare` for a worker of the pool. -/
def State.submit (lib : Library) (job : Job) (s : State) (context : WorkerContext) (now : Int)
    (submission : Submission) : State :=
  match processShare lib job s.submissions context now submission with
  | (.error _, submissions) => { s with submissions := submissions }
  | (.ok _, submissions) =>
    { s with
      submissions := submissions
      accepted := (acceptedShare lib job context submission).toList ++ s.accepted }

/-- One step; only connected workers can do something. -/
def step (lib : Library) (job : Job) (s : State) : Op → Option State
  | .connect worker difficulty => some (s.set worker ⟨none, none, difficulty, none, false⟩)
  | .subscribe worker =>
    (s.contexts worker).map fun context =>
      { s.set worker { context with extraNonce1 := some s.provider.next.1 } with
        provider := s.provider.next.2 }
  | .configure worker requestedMask =>
    (s.contexts worker).map fun context =>
      match configureVersionRolling context requestedMask with
      | .error _ => s
      | .ok context' => s.set worker context'
  | .setDifficulty worker difficulty varDiffUpdated =>
    (s.contexts worker).map fun context =>
      s.set worker { context with
        difficulty := difficulty
        previousDifficulty := some context.difficulty
        varDiffUpdated := varDiffUpdated }
  | .submit worker now submission =>
    (s.contexts worker).map fun context => s.submit lib job context now submission

/-- The submission of a worker repeats an accepted share, up to the version. -/
def Repeats (a : Accepted) (context : WorkerContext) (input : SubmitInput) : Prop :=
  a.context.extraNonce1 = context.extraNonce1 ∧ a.input.extraNonce2 = input.extraNonce2 ∧
    a.input.nTime = input.nTime ∧ a.input.nonce = input.nonce

instance (a : Accepted) (context : WorkerContext) (input : SubmitInput) :
    Decidable (Repeats a context input) := by
  unfold Repeats
  infer_instance

/-- A share is repeated under the same mask, or its version bits make another version. -/
def Separate (version : UInt32) (a : Accepted) (context : WorkerContext) (input : SubmitInput) :
    Prop :=
  Repeats a context input → a.context.versionRollingMask = context.versionRollingMask ∨
    RollsApart version (a.context.versionRollingMask.getD 0) a.input.versionBits
      (context.versionRollingMask.getD 0) input.versionBits

instance (version : UInt32) (a : Accepted) (context : WorkerContext) (input : SubmitInput) :
    Decidable (Separate version a context input) := by
  unfold Separate
  infer_instance

/-- A submission that can be parsed is separate from the shares accepted before. -/
def Op.Safe (job : Job) (s : State) : Op → Prop
  | .submit worker _ submission =>
    ∀ context ∈ s.contexts worker, ∀ input ∈ (submission.parse context).toOption,
      ∀ a ∈ s.accepted, Separate job.blockTemplate.version a context input
  | _ => True

instance (job : Job) (s : State) : (op : Op) → Decidable (op.Safe job s)
  | .submit worker _ submission => inferInstanceAs (Decidable
    (∀ context ∈ s.contexts worker, ∀ input ∈ (submission.parse context).toOption,
      ∀ a ∈ s.accepted, Separate job.blockTemplate.version a context input))
  | .connect _ _ | .subscribe _ | .configure _ _ | .setDifficulty _ _ _ =>
    inferInstanceAs (Decidable True)

section Invariant

/-- The extranonce of a worker, if there is one, is a lower-case text of a fixed length. -/
def Numbered (bytes : Nat) (context : WorkerContext) : Prop :=
  ∀ e, context.extraNonce1 = some e → e.length = bytes * 2 ∧ ∀ c ∈ e, LowerHexDigit c

/-- What is known of an accepted share. -/
structure Accepted.Valid (lib : Library) (job : Job) (bytes : Nat) (a : Accepted) : Prop where
  numbered : Numbered bytes a.context
  input_valid : a.input.Valid a.context.versionRollingMask a.context.expectedExtraNonce2Length
  bytes_eq : shareBytes lib job a.context a.input.extraNonce2 a.input.nTime a.input.nonce
    a.input.versionBitsKey = .ok (a.coinbase, a.header)

variable {lib : Library} {job : Job} {bytes : Nat} {a b : Accepted}

/-- A share that was hashed has an extranonce. -/
theorem Accepted.Valid.exists_extraNonce1 (h : a.Valid lib job bytes) :
    ∃ e, a.context.extraNonce1 = some e ∧
      a.coinbase = serializeCoinbase job e a.input.extraNonce2 ∧
      a.header = serializeHeader lib job (job.coinbaseHasher a.coinbase) a.input.nTime
        a.input.nonce a.context.versionRollingMask a.input.versionBitsKey := by
  have hbytes := h.bytes_eq
  rw [shareBytes] at hbytes
  cases he : a.context.extraNonce1 with
  | none => simp [he] at hbytes
  | some e =>
    simp only [he, Except.ok.injEq, Prod.mk.injEq] at hbytes
    obtain ⟨hcoinbase, hheader⟩ := hbytes
    refine ⟨e, rfl, hcoinbase.symm, ?_⟩
    rw [← hheader, hcoinbase]

/-- Shares that were hashed as the same bytes repeat each other. -/
theorem repeats_of_bytes_eq (hlib : lib.Faithful) (ha : a.Valid lib job bytes)
    (hb : b.Valid lib job bytes) (hcoinbase : a.coinbase = b.coinbase)
    (hheader : a.header = b.header) :
    Repeats a b.context b.input ∧
      rolledVersion job.blockTemplate.version a.context.versionRollingMask
          a.input.versionBitsKey =
        rolledVersion job.blockTemplate.version b.context.versionRollingMask
          b.input.versionBitsKey := by
  obtain ⟨e, he, hcoinbaseA, hheaderA⟩ := ha.exists_extraNonce1
  obtain ⟨f, hf, hcoinbaseB, hheaderB⟩ := hb.exists_extraNonce1
  obtain ⟨helength, helower⟩ := ha.numbered e he
  obtain ⟨hflength, hflower⟩ := hb.numbered f hf
  have halength := ha.input_valid.length_eq
  have hblength := hb.input_valid.length_eq
  simp only [WorkerContext.expectedExtraNonce2Length, he, hf, Option.map_some,
    Option.getD_some, extranoncePlaceHolderLength] at halength hblength
  rw [hheaderA, hheaderB, hcoinbase] at hheader
  obtain ⟨hversion, htime, hnonce⟩ := serializeHeader_inj hlib hheader
  rw [hcoinbaseA, hcoinbaseB] at hcoinbase
  obtain ⟨rfl, hextraNonce2⟩ := serializeCoinbase_inj helower ha.input_valid.lower hflower
    hb.input_valid.lower (by omega) (by omega) (by omega) (by omega) hcoinbase
  exact ⟨⟨he.trans hf.symm, hextraNonce2, htime, hnonce⟩, hversion⟩

/-- Separate shares are hashed as the same bytes only if they have the same key. -/
theorem key_eq_of_bytes_eq (hlib : lib.Faithful) (ha : a.Valid lib job bytes)
    (hb : b.Valid lib job bytes)
    (hseparate : Separate job.blockTemplate.version a b.context b.input)
    (hcoinbase : a.coinbase = b.coinbase) (hheader : a.header = b.header) :
    a.input.key a.context = b.input.key b.context := by
  obtain ⟨hrepeats, hversion⟩ := repeats_of_bytes_eq hlib ha hb hcoinbase hheader
  obtain ⟨hextraNonce1, hextraNonce2, htime, hnonce⟩ := id hrepeats
  rw [rolledVersion_eq ha.input_valid, rolledVersion_eq hb.input_valid] at hversion
  rcases hseparate hrepeats with hmask | hapart
  · have hbits : a.input.versionBits = b.input.versionBits := by
      rw [← hmask] at hversion
      exact bits_eq_of_rolled_eq ha.input_valid.versionBits_mask
        (hmask ▸ hb.input_valid.versionBits_mask) hversion
    have hhas : a.input.hasVersionBits = b.input.hasVersionBits := by
      rw [ha.input_valid.hasVersionBits_eq, hb.input_valid.hasVersionBits_eq, hmask]
    rw [SubmitInput.key, SubmitInput.key, hextraNonce1, hextraNonce2, htime, hnonce, hbits, hhas]
  · exact absurd hversion (rollsApart_iff.mp hapart)

/-- The extranonces are numbered, the accepted shares are what was hashed, and none was
accepted twice. -/
structure State.Inv (lib : Library) (job : Job) (s : State) : Prop where
  numbered : ∀ worker context, s.contexts worker = some context →
    Numbered s.provider.extranonceBytes context
  valid : ∀ a ∈ s.accepted, a.Valid lib job s.provider.extranonceBytes
  once : CreditedOnce s.submissions (s.accepted.map Accepted.entry)

variable {s s' : State} {worker : Nat} {context : WorkerContext}

theorem State.Inv.set (h : s.Inv lib job) (worker : Nat)
    (hcontext : Numbered s.provider.extranonceBytes context) :
    (s.set worker context).Inv lib job := by
  refine ⟨fun v c hc => ?_, h.valid, h.once⟩
  by_cases hv : v = worker
  · subst hv
    simp only [State.set, Function.update_self, Option.some.injEq] at hc
    exact hc ▸ hcontext
  · simp only [State.set, Function.update_of_ne hv] at hc
    exact h.numbered v c hc

/-- The accepted share of a returned submission is valid, and its key was new. -/
theorem State.Inv.submit (hlib : lib.Faithful) (h : s.Inv lib job) {now : Int}
    {submission : Submission} (hcontext : Numbered s.provider.extranonceBytes context)
    (hsafe : ∀ input ∈ (submission.parse context).toOption, ∀ a ∈ s.accepted,
      Separate job.blockTemplate.version a context input) :
    (s.submit lib job context now submission).Inv lib job := by
  have hkeys : ∀ keys, keys = s.submissions ∨ (∃ key, keys = key :: s.submissions) →
      ({ s with submissions := keys } : State).Inv lib job := by
    rintro keys (rfl | ⟨key, rfl⟩)
    · exact h
    · exact ⟨h.numbered, h.valid, h.once.register key⟩
  rw [State.submit]
  rcases hresult : processShare lib job s.submissions context now submission with
    ⟨result, submissions⟩
  cases result with
  | error e =>
    refine hkeys submissions ?_
    have hsubmissions := processShare_submissions lib job s.submissions context now submission
    rw [hresult] at hsubmissions
    exact hsubmissions.imp_right fun ⟨input, _, hnew⟩ => ⟨_, hnew⟩
  | ok share =>
    have hok : (processShare lib job s.submissions context now submission).1 = .ok share := by
      rw [hresult]
    obtain ⟨input, hparse, hnew, hsubmissions, ⟨coinbase, header⟩, hbytes⟩ := processShare_ok hok
    have hvalid : Accepted.Valid lib job s.provider.extranonceBytes
        ⟨context, input, coinbase, header⟩ :=
      ⟨hcontext, parseSubmitInput_valid hparse, hbytes⟩
    have haccepted : acceptedShare lib job context submission =
        some ⟨context, input, coinbase, header⟩ := by
      simp only [acceptedShare, hparse, hbytes]
    rw [hresult] at hsubmissions
    obtain rfl : submissions = _ := hsubmissions
    simp only [haccepted, Option.toList_some, List.singleton_append]
    refine ⟨h.numbered, ?_, ?_⟩
    · intro a ha
      rcases List.mem_cons.mp ha with rfl | ha
      · exact hvalid
      · exact h.valid a ha
    · refine h.once.credit hnew fun e he hwork => ?_
      obtain ⟨a, ha, rfl⟩ := List.mem_map.mp he
      simp only [Accepted.entry, Prod.mk.injEq] at hwork
      refine key_eq_of_bytes_eq hlib (h.valid a ha) hvalid ?_ hwork.1 hwork.2
      exact hsafe input (by rw [hparse]; rfl) a ha

theorem numbered_configureVersionRolling {context' : WorkerContext} {requestedMask : Option Text}
    (hcontext : Numbered bytes context)
    (h : configureVersionRolling context requestedMask = .ok context') :
    Numbered bytes context' := by
  unfold configureVersionRolling at h
  obtain ⟨requested, -, h⟩ := bind_eq_ok.mp h
  cases h
  exact hcontext

/-- Separate submissions keep the invariant, and so does everything else. -/
theorem State.Inv.step (hlib : lib.Faithful) (h : s.Inv lib job) {op : Op}
    (hsafe : op.Safe job s) (hstep : step lib job s op = some s') : s'.Inv lib job := by
  cases op with
  | connect worker difficulty =>
    cases hstep
    exact h.set worker (by simp [Numbered])
  | subscribe worker =>
    obtain ⟨context, hcontext, rfl⟩ := Option.map_eq_some_iff.mp hstep
    have hset : (s.set worker { context with extraNonce1 := some s.provider.next.1 }).Inv lib job :=
      h.set worker fun e he => Option.some.inj he ▸ s.provider.next_spec
    exact ⟨hset.numbered, hset.valid, hset.once⟩
  | configure worker requestedMask =>
    obtain ⟨context, hcontext, rfl⟩ := Option.map_eq_some_iff.mp hstep
    cases hconfigure : configureVersionRolling context requestedMask with
    | error e => exact h
    | ok context' =>
      exact h.set worker (numbered_configureVersionRolling (h.numbered worker context hcontext)
        hconfigure)
  | setDifficulty worker difficulty varDiffUpdated =>
    obtain ⟨context, hcontext, rfl⟩ := Option.map_eq_some_iff.mp hstep
    exact h.set worker (h.numbered worker context hcontext)
  | submit worker now submission =>
    obtain ⟨context, hcontext, rfl⟩ := Option.map_eq_some_iff.mp hstep
    exact h.submit hlib (h.numbered worker context hcontext) (hsafe context hcontext)

end Invariant

/-- **No share is accepted twice if repeated shares are separate.** -/
theorem accepted_once {lib : Library} (hlib : lib.Faithful) (job : Job)
    {provider : ExtraNonceProvider} {ops : List Op} {s : State}
    (hrun : run (step lib job) (State.initial provider) ops = some s)
    (hsafe : Meets (step lib job) (fun s op => op.Safe job s) (State.initial provider) ops) :
    (s.accepted.map fun a => (a.coinbase, a.header)).Nodup := by
  have hinitial : (State.initial provider).Inv lib job :=
    ⟨by simp [State.initial], by simp [State.initial], creditedOnce_nil _⟩
  have hinv : s.Inv lib job := run_invariant (State.Inv lib job)
    (fun s op s' h hop hstep => h.step hlib hop hstep) hinitial hsafe hrun
  have hnodup := hinv.once.nodup
  rwa [List.map_map] at hnodup

section Example

/-- The 80 bytes of a header. -/
def headerBytes (header : BlockHeader) : List UInt8 :=
  leBytes 4 header.version.toUInt32.toNat ++ ((hexToByteArray header.hashPrevBlock).reverse ++
    (header.hashMerkleRoot ++ (leBytes 4 header.blockTime.toNat ++
      ((hexToByteArray header.bits).reverse ++ leBytes 4 header.nonce.toNat))))

/-- Headers in their own format, and counts below 253. -/
def exampleLibrary : Library := ⟨headerBytes, fun n => [n.toUInt8], id⟩

theorem exampleLibrary_faithful : exampleLibrary.Faithful := by
  have hword : ∀ v w : UInt32, leBytes 4 v.toNat = leBytes 4 w.toNat → v = w := fun v w h =>
    UInt32.toNat_inj.mp (leBytes_inj v.toNat_lt w.toNat_lt h)
  intro bits prevBlock merkleRoot version version' nTime nTime' nonce nonce' h
  obtain ⟨hversion, h⟩ := List.append_inj h (by simp)
  obtain ⟨htime, h⟩ := List.append_inj
    (List.append_cancel_left (List.append_cancel_left h)) (by simp)
  have hnonce := List.append_cancel_left h
  refine ⟨?_, hword _ _ htime, hword _ _ hnonce⟩
  exact congrArg Int32.ofUInt32 (hword _ _ hversion)

/-- A job of a regression test network. The hashers give the digests of the example's
coinbase and of its header, with the version of the template and with the bit `0x2000`. -/
def exampleJob : Job where
  blockTemplate :=
    { version := 0x20000000
      previousBlockhash := text
        "0000000000000000000000000000000000000000000000000000000000000000"
      curTime := 0x63445774
      bits := text "207fffff"
      height := 1
      transactions := []
      mweb := none }
  coinbaseInitial := [1]
  coinbaseFinal := [2]
  merkleSteps := []
  isPoS := false
  hasMWEB := false
  shareMultiplier := 1
  difficulty := 1
  blockTargetValue := 0x7fffff * 2 ^ 232
  coinbaseHasher _ :=
    [169, 121, 131, 93, 129, 187, 146, 238, 189, 175, 6, 201, 99, 36, 69, 233, 134, 95, 34, 46,
      127, 246, 32, 228, 73, 55, 181, 72, 26, 27, 149, 137]
  headerHasher header _ :=
    if header.take 4 = [0, 0x20, 0, 0x20] then
      [184, 12, 43, 245, 224, 18, 197, 233, 184, 67, 54, 41, 240, 167, 20, 128, 161, 115, 138, 3,
        144, 237, 34, 184, 213, 138, 134, 228, 76, 79, 10, 74]
    else
      [186, 191, 116, 30, 238, 223, 199, 75, 234, 131, 119, 45, 137, 105, 67, 69, 149, 115, 232,
        252, 86, 38, 77, 79, 93, 187, 9, 234, 243, 33, 22, 29]
  blockHasher header _ := header.take 32

/-- A share with the given version bits. -/
def exampleSubmission (versionBits : Option String) : Submission :=
  ⟨text "00000000", text "63445774", text "00000000", versionBits.map text⟩

/-- A worker submits a share, negotiates a mask and submits it again with version bits. -/
def exampleRun (versionBits : String) : List Op :=
  [.connect 0 1, .subscribe 0, .submit 0 0x63445774 (exampleSubmission none),
    .configure 0 none, .submit 0 0x63445774 (exampleSubmission (some versionBits))]

/-- The first worker of an instance. -/
def exampleProvider : ExtraNonceProvider := { extranonceBytes := 4, id := 1, counter := 0 }

/-- Version bits that change the template's version make another share. -/
theorem accepted_once_other_version :
    ∃ s ∈ run (step exampleLibrary exampleJob) (State.initial exampleProvider)
        (exampleRun "00002000"),
      s.accepted.length = 2 ∧ (s.accepted.map fun a => (a.coinbase, a.header)).Nodup := by
  have hsome : ∃ s ∈ run (step exampleLibrary exampleJob) (State.initial exampleProvider)
      (exampleRun "00002000"), s.accepted.length = 2 := by decide +kernel
  obtain ⟨s, hrun, hlength⟩ := hsome
  exact ⟨s, hrun, hlength, accepted_once exampleLibrary_faithful exampleJob hrun
    (by decide +kernel)⟩

/-- The version bits of the template make the same header once more. -/
theorem accepted_twice :
    ∃ s ∈ run (step exampleLibrary exampleJob) (State.initial exampleProvider)
        (exampleRun "00000000"),
      ¬(s.accepted.map fun a => (a.coinbase, a.header)).Nodup := by
  decide +kernel

end Example

end HashStorm.Bitcoin.Submissions
