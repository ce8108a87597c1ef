import HashStorm.Contracts.RedisLiveKeyNames
import HashStorm.Lib.Lines
import HashStorm.Lib.Machine
import HashStorm.Mining.ShareRecorder

/-!
# Shares that cannot be committed

`ShareRecorder` buffers the shares it hears of and commits them batch by batch.
What a batch meets is settled by three policies: an attempt is repeated, a batch
that fails after all its attempts counts against a circuit breaker, and a batch
that failed or was not let through is written to the recovery file. A share is in
the database, in the file, on its way, or lost.
-/

namespace HashStorm.Mining

open Contracts Lines

section Core

/-- The rows of shares, as one transaction inserts them. -/
def rowsOf (shares : List Share) : Rows where
  shares := shares.flatMap fun share => (legacyRows share).shares
  blocks := shares.flatMap fun share => (legacyRows share).blocks

/-- What a transaction adds to the tables. -/
def Rows.insert (db : Rows) (shares : List Share) : Rows where
  shares := db.shares ++ (rowsOf shares).shares
  blocks := db.blocks ++ (rowsOf shares).blocks

@[simp] theorem rowsOf_insert (kept shares : List Share) :
    (rowsOf kept).insert shares = rowsOf (kept ++ shares) := by
  simp only [Rows.insert, rowsOf, List.flatMap_append]

/-- The exceptions of an attempt, as far as the policies tell them apart. -/
inductive Exn where
  | database
  | socket
  | timeout
  | other
  deriving DecidableEq, Repr

/-- Whether the policies handle the exception. -/
def Exn.handled : Exn → Bool
  | .database | .socket | .timeout => true
  | .other => false

/-- How a transaction ends: it is committed, it is rolled back, or it is committed and the
answer does not arrive. -/
inductive Attempt where
  | commits
  | rollsBack (e : Exn)
  | unanswered (e : Exn)
  deriving DecidableEq, Repr

/-- `PersistSharesCoreAsync`: the tables, and what it throws. -/
def persistSharesCoreAsync (db : Rows) (shares : List Share) : Attempt → Rows × Option Exn
  | .commits => (db.insert shares, none)
  | .rollsBack e => (db, some e)
  | .unanswered e => (db.insert shares, some e)

end Core

section Policies

/-- `RetryCount`. -/
def retryCount : Nat := 3

/-- The retry policy, with the attempts in their order; attempts without an outcome commit. -/
def retry (shares : List Share) : Nat → List Attempt → Rows → Rows × Option Exn
  | retries, attempts, db =>
    match persistSharesCoreAsync db shares (attempts.headD .commits) with
    | (db', none) => (db', none)
    | (db', some e) =>
      match retries with
      | 0 => (db', some e)
      | retries + 1 =>
        if e.handled then retry shares retries attempts.tail db' else (db', some e)

/-- `CircuitState`. -/
inductive CircuitState where
  | closed
  | opened
  | halfOpen
  deriving DecidableEq, Repr

/-- The circuit breaker; times are in seconds. -/
structure Circuit where
  state : CircuitState
  failures : Nat
  blockedTill : Int
  deriving DecidableEq, Repr

/-- The breaker of a new recorder. -/
def Circuit.initial : Circuit := ⟨.closed, 0, 0⟩

/-- `exceptionsAllowedBeforeBreaking`. -/
def exceptionsAllowed : Nat := 2

/-- `durationOfBreak`. -/
def durationOfBreak : Int := 60

/-- Whether an execution is let through, `none` when it is not. An open circuit lets one
execution through in every break. -/
def Circuit.admit (circuit : Circuit) (now : Int) : Option Circuit :=
  match circuit.state with
  | .closed => some circuit
  | .opened | .halfOpen =>
    if circuit.blockedTill ≤ now then
      some { circuit with state := .halfOpen, blockedTill := now + durationOfBreak }
    else none

/-- An execution returned. -/
def Circuit.succeed (circuit : Circuit) : Circuit :=
  { circuit with state := .closed, failures := 0 }

/-- An execution ended in an exception that the breaker handles. -/
def Circuit.fail (circuit : Circuit) (now : Int) : Circuit :=
  let failures := circuit.failures + 1
  if circuit.state = .halfOpen ∨ exceptionsAllowed ≤ failures then
    { state := .opened, failures, blockedTill := now + durationOfBreak }
  else { circuit with failures }

end Policies

section RecoveryFile

/-- `Environment.NewLine`. -/
inductive NewLine where
  | lf
  | crlf
  deriving DecidableEq, Repr

/-- The characters of a line end. -/
def NewLine.text : NewLine → List Char
  | .lf => ['\n']
  | .crlf => ['\r', '\n']

/-- Where `ReadLineAsync` ends a line. -/
def isLineEnd (c : Char) : Bool := c = '\n' || c = '\r'

/-- What becomes of a line that is parsed. -/
inductive Parsed where
  | share (share : Share)
  | null
  | malformed
  deriving DecidableEq, Repr

/-- `JsonConvert.SerializeObject` and `JsonConvert.DeserializeObject<Share>`. -/
structure ShareJson where
  serialize : Share → List Char
  deserialize : List Char → Parsed

/-- A share is written as one line, an object, from which it is read again. -/
structure ShareJson.Lossless (json : ShareJson) (share : Share) : Prop where
  deserialize_serialize : json.deserialize (json.serialize share) = .share share
  braces : ∃ inner, json.serialize share = '{' :: inner ++ ['}']
  single_line : ∀ c ∈ json.serialize share, isLineEnd c = false

variable (json : ShareJson) (newLine : NewLine)

/-- `TextWriter.WriteLine`. -/
def writeLine (text : List Char) : List Char := text ++ newLine.text

/-- `WriteRecoveryFileheader`. -/
def recoveryFileHeader : List Char :=
  writeLine newLine
      "# The existence of this file means shares could not be committed to the database.".toList ++
    writeLine newLine
      "# You should stop the pool cluster and run the following command:".toList ++
    writeLine newLine "# HashStormCore -c <path-to-config> -rs <path-to-this-file>\n".toList

/-- The line of a share. -/
def shareLine (share : Share) : List Char := writeLine newLine (json.serialize share)

/-- What reaches the file: all that is written, or only its first characters. -/
inductive Written where
  | all
  | failed (length : Nat)
  deriving DecidableEq, Repr

/-- `OnExecutePolicyFallbackAsync`. -/
def onExecutePolicyFallbackAsync (file : List Char) (shares : List Share) : Written → List Char
  | .all => file ++ (if file = [] then recoveryFileHeader newLine else []) ++
      shares.flatMap (shareLine json newLine)
  | .failed length =>
    let text := (if file = [] then recoveryFileHeader newLine else []) ++
      shares.flatMap (shareLine json newLine)
    file ++ text.take length

end RecoveryFile

section Recorder

/-- The recorder, its tables and its file. `accepted` are all shares it has heard of, `lost` those
that it gave up. -/
structure Recorder where
  buffer : List Share
  batches : List (List Share)
  circuit : Circuit
  db : Rows
  file : List Char
  accepted : List Share
  lost : List Share
  deriving DecidableEq

/-- A new recorder, without a recovery file. -/
def Recorder.initial : Recorder := ⟨[], [], .initial, ⟨[], []⟩, [], [], []⟩

/-- What a batch meets: when its execution begins and ends, its attempts, and how writing to the
recovery file ends. -/
structure Execution where
  started : Int
  ended : Int
  attempts : List Attempt
  written : Written
  deriving DecidableEq, Repr

variable (json : ShareJson) (newLine : NewLine)

/-- The batch goes to the recovery file. -/
def Recorder.fallback (s : Recorder) (batch : List Share) (written : Written) : Recorder :=
  { s with
    file := onExecutePolicyFallbackAsync json newLine s.file batch written
    lost := s.lost ++ if written = .all then [] else batch }

/-- `PersistSharesAsync` of a batch; an exception that no policy handles is logged, and the batch
is lost when it was rolled back. -/
def Recorder.persistSharesAsync (s : Recorder) (batch : List Share) (execution : Execution) :
    Recorder :=
  match s.circuit.admit execution.started with
  | none => s.fallback json newLine batch execution.written
  | some circuit =>
    match retry batch retryCount execution.attempts s.db with
    | (db, none) => { s with db, circuit := circuit.succeed }
    | (db, some e) =>
      if e.handled then
        Recorder.fallback json newLine { s with db, circuit := circuit.fail execution.ended } batch
          execution.written
      else { s with db, circuit, lost := s.lost ++ if db = s.db then batch else [] }

/-- The number of shares that close a batch. -/
def batchSize : Nat := 250

/-- What happens to a recorder. -/
inductive RecorderOp where
  /-- A share is heard of. -/
  | accept (share : Share)
  /-- Five seconds have passed. -/
  | elapse
  /-- The next batch is executed. -/
  | persist (execution : Execution)
  /-- The process ends, and another one starts. -/
  | restart
  deriving DecidableEq, Repr

/-- One step of `ExecuteAsync`; without a batch there is nothing to execute. -/
def Recorder.step (s : Recorder) : RecorderOp → Option Recorder
  | .accept share =>
    let s := { s with accepted := s.accepted ++ [share] }
    let buffer := s.buffer ++ [share]
    if buffer.length = batchSize then
      some { s with buffer := [], batches := s.batches ++ [buffer] }
    else some { s with buffer }
  | .elapse =>
    if s.buffer = [] then some s
    else some { s with buffer := [], batches := s.batches ++ [s.buffer] }
  | .persist execution =>
    match s.batches with
    | [] => none
    | batch :: batches =>
      some (Recorder.persistSharesAsync json newLine { s with batches } batch execution)
  | .restart =>
    some { s with
      buffer := [], batches := [], circuit := .initial
      lost := s.lost ++ s.batches.flatten ++ s.buffer }

/-- The shares that wait for their execution. -/
def Recorder.waiting (s : Recorder) : List Share := s.batches.flatten ++ s.buffer

end Recorder

section Accounts

variable {json : ShareJson} {newLine : NewLine}

/-- The file as the recorder writes it for some shares. -/
def Records (json : ShareJson) (newLine : NewLine) (file : List Char) (filed : List Share) : Prop :=
  file = [] ∧ filed = [] ∨
    file = recoveryFileHeader newLine ++ filed.flatMap (shareLine json newLine)

theorem headD_attempts {P : Attempt → Prop} {attempts : List Attempt} (h : ∀ a ∈ attempts, P a)
    (hcommits : P .commits) : P (attempts.headD .commits) := by
  cases attempts with
  | nil => exact hcommits
  | cons a attempts => exact h a List.mem_cons_self

/-- An exception that makes the policies try again comes from a transaction that was rolled
back. -/
def Attempt.Safe : Attempt → Prop
  | .commits | .rollsBack _ => True
  | .unanswered e => e.handled = false

instance : DecidablePred Attempt.Safe
  | .commits | .rollsBack _ => isTrue trivial
  | .unanswered e => inferInstanceAs (Decidable (e.handled = false))

/-- The batch is written to the file as a whole, or not at all. -/
def Written.Whole : Written → Prop
  | .all => True
  | .failed length => length = 0

instance : DecidablePred Written.Whole
  | .all => isTrue trivial
  | .failed length => inferInstanceAs (Decidable (length = 0))

/-- No exception comes from a committed transaction and is taken for a failure, and no share is
written in part. -/
def Execution.Safe (execution : Execution) : Prop :=
  (∀ a ∈ execution.attempts, a.Safe) ∧ execution.written.Whole

instance (execution : Execution) : Decidable execution.Safe :=
  inferInstanceAs (Decidable (_ ∧ _))

/-- The executions of a run are safe. -/
def RecorderOp.Safe : RecorderOp → Prop
  | .persist execution => execution.Safe
  | .accept _ | .elapse | .restart => True

instance : DecidablePred RecorderOp.Safe
  | .persist execution => inferInstanceAs (Decidable execution.Safe)
  | .accept _ | .elapse | .restart => isTrue trivial

/-- The attempts commit a batch once, or they leave the tables as they were; an exception that the
policies handle is one of the latter. -/
theorem retry_cases (batch : List Share) (retries : Nat) {attempts : List Attempt}
    (h : ∀ a ∈ attempts, a.Safe) (db : Rows) :
    (∃ thrown, retry batch retries attempts db = (db.insert batch, thrown) ∧
      ∀ e ∈ thrown, e.handled = false) ∨
    ∃ e, retry batch retries attempts db = (db, some e) := by
  induction retries generalizing attempts with
  | zero =>
    have hhead := headD_attempts h (P := Attempt.Safe) trivial
    rw [retry]
    cases hattempt : attempts.headD .commits with
    | commits => exact .inl ⟨none, rfl, by simp⟩
    | rollsBack e => exact .inr ⟨e, rfl⟩
    | unanswered e =>
      rw [hattempt] at hhead
      exact .inl ⟨some e, rfl, fun e' he' => Option.some.inj he' ▸ hhead⟩
  | succ retries ih =>
    have hhead := headD_attempts h (P := Attempt.Safe) trivial
    have htail : ∀ a ∈ attempts.tail, a.Safe := fun a ha => h a (List.mem_of_mem_tail ha)
    rw [retry]
    cases hattempt : attempts.headD .commits with
    | commits => exact .inl ⟨none, rfl, by simp⟩
    | rollsBack e =>
      cases hhandled : e.handled with
      | true =>
        simp only [persistSharesCoreAsync, hhandled, if_true]
        exact ih htail
      | false =>
        simp only [persistSharesCoreAsync, hhandled, Bool.false_eq_true, if_false]
        exact .inr ⟨e, rfl⟩
    | unanswered e =>
      rw [hattempt] at hhead
      have hunhandled : e.handled = false := hhead
      simp only [persistSharesCoreAsync, hunhandled, Bool.false_eq_true, if_false]
      exact .inl ⟨some e, rfl, fun e' he' => Option.some.inj he' ▸ hunhandled⟩

theorem recoveryFileHeader_ne_nil : recoveryFileHeader newLine ≠ [] := by
  intro hnil
  have hlast := (List.append_eq_nil_iff.mp hnil).2
  rw [writeLine, List.append_eq_nil_iff] at hlast
  cases newLine with
  | lf => exact absurd hlast.2 (List.cons_ne_nil _ _)
  | crlf => exact absurd hlast.2 (List.cons_ne_nil _ _)

/-- A file of records stays one when a batch is appended. -/
theorem Records.append {file : List Char} {filed : List Share} (h : Records json newLine file filed)
    (batch : List Share) :
    Records json newLine (onExecutePolicyFallbackAsync json newLine file batch .all)
      (filed ++ batch) := by
  rw [onExecutePolicyFallbackAsync]
  rcases h with ⟨rfl, rfl⟩ | rfl
  · exact .inr rfl
  · have hheader : recoveryFileHeader newLine ++ filed.flatMap (shareLine json newLine) ≠ [] :=
      fun hnil => recoveryFileHeader_ne_nil (List.append_eq_nil_iff.mp hnil).1
    rw [if_neg hheader, List.append_nil, List.append_assoc, ← List.flatMap_append]
    exact .inr rfl

/-- Every share that the recorder has heard of is, once, in the tables, in the file, lost or on its
way. -/
structure Recorder.Accounts (json : ShareJson) (newLine : NewLine) (s : Recorder)
    (kept filed : List Share) : Prop where
  db : s.db = rowsOf kept
  file : Records json newLine s.file filed
  accepted : (kept ++ filed ++ s.lost ++ s.waiting).Perm s.accepted
  nonempty : ∀ batch ∈ s.batches, batch ≠ []

variable {s s' : Recorder} {kept filed : List Share}

theorem accounts_initial : Recorder.initial.Accounts json newLine [] [] :=
  ⟨rfl, .inl ⟨rfl, rfl⟩, List.Perm.refl _, fun _ h => absurd h List.not_mem_nil⟩

theorem rowsOf_insert_ne {batch : List Share} (h : batch ≠ []) :
    (rowsOf kept).insert batch ≠ rowsOf kept := by
  intro heq
  have hlength := congrArg (fun db => db.shares.length) heq
  obtain ⟨share, shares, rfl⟩ := List.exists_cons_of_ne_nil h
  simp [Rows.insert, rowsOf, legacyRows] at hlength

/-- A batch that leaves the queue gets into the tables, into the file, or it is lost. -/
theorem Recorder.Accounts.persistSharesAsync {batch : List Share} {batches : List (List Share)}
    (h : s.Accounts json newLine kept filed) (hbatches : s.batches = batch :: batches)
    {execution : Execution} (hsafe : execution.Safe) :
    ∃ kept' filed', (Recorder.persistSharesAsync json newLine { s with batches } batch
      execution).Accounts json newLine kept' filed' := by
  obtain ⟨hattempts, hwritten⟩ := hsafe
  have hbatch : batch ≠ [] := h.nonempty batch (by rw [hbatches]; exact List.mem_cons_self)
  have hrest : ∀ b ∈ batches, b ≠ [] := fun b hb =>
    h.nonempty b (by rw [hbatches]; exact List.mem_cons_of_mem _ hb)
  have haccepted : (kept ++ filed ++ s.lost ++ (batch ++ (batches.flatten ++ s.buffer))).Perm
      s.accepted := by
    have hwaiting := h.accepted
    rwa [Recorder.waiting, hbatches, List.flatten_cons, List.append_assoc batch] at hwaiting
  -- wherever the batch ends up, the shares stay the same
  have hmoved : ∀ kept' filed' lost' : List Share,
      (∀ share, (kept' ++ filed' ++ lost').count share =
        (kept ++ filed ++ s.lost ++ batch).count share) →
      (kept' ++ filed' ++ lost' ++ (batches.flatten ++ s.buffer)).Perm s.accepted := by
    intro kept' filed' lost' hcount
    refine List.Perm.trans ?_ haccepted
    rw [← List.append_assoc (kept ++ filed ++ s.lost)]
    exact (List.perm_iff_count.mpr hcount).append_right _
  have hfallback : ∀ circuit, ∃ kept' filed', (Recorder.fallback json newLine
      { s with batches, circuit } batch execution.written).Accounts json newLine kept' filed' := by
    intro circuit
    cases hw : execution.written with
    | all =>
      refine ⟨kept, filed ++ batch, h.db, h.file.append batch, ?_, hrest⟩
      have hfiled := hmoved kept (filed ++ batch) s.lost fun share => by
        simp only [List.count_append]
        omega
      simpa [Recorder.fallback, Recorder.waiting] using hfiled
    | failed length =>
      rw [hw] at hwritten
      obtain rfl : length = 0 := hwritten
      refine ⟨kept, filed, h.db, ?_, ?_, hrest⟩
      · simpa [Recorder.fallback, onExecutePolicyFallbackAsync] using h.file
      · have hlost := hmoved kept filed (s.lost ++ batch) fun share => by
          simp only [List.count_append]
          omega
        simpa [Recorder.fallback, Recorder.waiting] using hlost
  rw [Recorder.persistSharesAsync]
  cases hadmit : s.circuit.admit execution.started with
  | none => exact hfallback s.circuit
  | some circuit =>
    simp only
    have hkept := hmoved (kept ++ batch) filed s.lost fun share => by
      simp only [List.count_append]
      omega
    have hdb : s.db.insert batch = rowsOf (kept ++ batch) := by rw [h.db, rowsOf_insert]
    rcases retry_cases batch retryCount hattempts s.db with ⟨thrown, hretry, hthrown⟩ | ⟨e, hretry⟩
    · rw [hretry]
      cases thrown with
      | none => exact ⟨_, _, hdb, h.file, hkept, hrest⟩
      | some e =>
        have hchanged : s.db.insert batch ≠ s.db := by
          rw [h.db]
          exact rowsOf_insert_ne hbatch
        simp only [hthrown e rfl, Bool.false_eq_true, if_false, if_neg hchanged, List.append_nil]
        exact ⟨_, _, hdb, h.file, hkept, hrest⟩
    · rw [hretry]
      cases hhandled : e.handled with
      | true =>
        simp only [hhandled, if_true]
        exact hfallback _
      | false =>
        simp only [hhandled, Bool.false_eq_true, if_false, if_true]
        refine ⟨kept, filed, h.db, h.file, ?_, hrest⟩
        exact hmoved kept filed (s.lost ++ batch) fun share => by
          simp only [List.count_append]
          omega

theorem Recorder.Accounts.step (h : s.Accounts json newLine kept filed) {op : RecorderOp}
    (hsafe : op.Safe) (hstep : s.step json newLine op = some s') :
    ∃ kept' filed', s'.Accounts json newLine kept' filed' := by
  cases op with
  | accept share =>
    have haccepted : (kept ++ filed ++ s.lost ++ (s.batches.flatten ++ (s.buffer ++ [share]))).Perm
        (s.accepted ++ [share]) := by
      have happend := h.accepted.append_right [share]
      rwa [Recorder.waiting, List.append_assoc _ _ [share],
        List.append_assoc _ _ [share]] at happend
    simp only [Recorder.step] at hstep
    split at hstep
    · cases hstep
      refine ⟨kept, filed, h.db, h.file, ?_, fun b hb => ?_⟩
      · simpa [Recorder.waiting] using haccepted
      · rcases List.mem_append.mp hb with hb | hb
        · exact h.nonempty b hb
        · rw [List.mem_singleton.mp hb]
          simp
    · cases hstep
      exact ⟨kept, filed, h.db, h.file, haccepted, h.nonempty⟩
  | elapse =>
    simp only [Recorder.step] at hstep
    split at hstep
    · cases hstep
      exact ⟨kept, filed, h⟩
    · rename_i hbuffer
      cases hstep
      refine ⟨kept, filed, h.db, h.file, ?_, fun b hb => ?_⟩
      · simpa [Recorder.waiting] using h.accepted
      · rcases List.mem_append.mp hb with hb | hb
        · exact h.nonempty b hb
        · rwa [List.mem_singleton.mp hb]
  | persist execution =>
    simp only [Recorder.step] at hstep
    split at hstep
    · cases hstep
    · rename_i batch batches hbatches
      cases hstep
      exact h.persistSharesAsync hbatches hsafe
  | restart =>
    cases hstep
    refine ⟨kept, filed, h.db, h.file, ?_, fun b hb => absurd hb List.not_mem_nil⟩
    simpa [Recorder.waiting] using h.accepted

end Accounts

end HashStorm.Mining
