import HashStorm.Blockchain.Cryptonote.Job
import Mathlib.Data.List.Nodup

/-!
# Shares are judged on the work that was issued

A share is hashed with the template that its worker job was prepared from, and no
blob is hashed for two shares, if no template replaces another one of its height
while worker jobs of the other are kept, no worker job gets the work of another
one, and no nonce ends with a line feed. A reorganisation breaks the first two:
the template before it has the same height, and the extranonces start again.
-/

namespace HashStorm.Cryptonote

open Stratum Blockchain Machine LittleEndian WorkerJobState

/-- The state of the pool. -/
abbrev PoolState := WorkerJobState Shared Context WorkerJob Text Judged

/-- What happens to the pool. -/
abbrev PoolOp := WorkerJobOp Change BlockTemplate Submission

/-- The nonce in a blob. -/
def nonceOf (blob : List UInt8) : List UInt8 := (blob.drop 39).take 4

/-- A blob with no nonce in it. -/
def withoutNonce (blob : List UInt8) : List UInt8 :=
  blob.take 39 ++ [0, 0, 0, 0] ++ blob.drop 43

/-- What the pool relies on: a converted blob starts with the header of the block. So it tells
the nonce of the blob, and what is converted of the blob without a nonce. -/
structure Library.KeepsNonce (lib : Library) : Prop where
  nonce_eq : ∀ {blob blob' converted}, lib.convertBlob blob = some converted →
    lib.convertBlob blob' = some converted → nonceOf blob = nonceOf blob'
  withoutNonce_eq : ∀ {blob blob' converted}, lib.convertBlob blob = some converted →
    lib.convertBlob blob' = some converted →
    lib.convertBlob (withoutNonce blob) = lib.convertBlob (withoutNonce blob')

variable (lib : Library)

/-- The work of an extranonce: what is converted without a nonce. -/
def Job.work (job : Job) (workerExtraNonce : UInt32) : Option (List UInt8) :=
  (blobWithNonce job workerExtraNonce [0, 0, 0, 0]).toOption.bind lib.convertBlob

/-- The work that was issued with a worker job. -/
def WorkerJob.work (workerJob : WorkerJob) : Option (List UInt8) :=
  workerJob.job.work lib workerJob.extraNonce

/-- A template for a new job is the one of all worker jobs of its height that are kept. -/
def UpdatesHeight (s : PoolState) (template : BlockTemplate) : Prop :=
  ∀ newHash ∈ prevHash template, s.shared.isNew newHash = true →
    ∀ e ∈ s.connections, ∀ n ∈ e.2.2, ∀ w ∈ s.workerJobs[n]?,
      w.height = template.height → w.job.blockTemplate = template

/-- The next worker job of a connection gets work that was not issued before. -/
def IssuesNewWork (s : PoolState) (connectionId : Nat) : Prop :=
  ∀ connection ∈ s.connection connectionId, connection.1.isAuthorized = true →
    ∀ job ∈ s.shared.currentJob, ∀ w ∈ s.workerJobs,
      w.work lib ≠ job.work lib (nextExtraNonce s.shared.extraNonce).1

/-- A step keeps the worker jobs apart, and a nonce has no more than its eight digits. -/
def KeepsApart (s : PoolState) : PoolOp → Prop
  | .updateJob template => UpdatesHeight s template
  | .createWorkerJob connectionId => IssuesNewWork lib s connectionId
  | .submit _ submission => submission.nonce.length ≤ 8
  | _ => True

instance (s : PoolState) : (op : PoolOp) → Decidable (KeepsApart lib s op)
  | .updateJob template => by
    unfold KeepsApart UpdatesHeight
    infer_instance
  | .createWorkerJob connectionId => by
    unfold KeepsApart IssuesNewWork
    infer_instance
  | .submit _ submission => inferInstanceAs (Decidable (submission.nonce.length ≤ 8))
  | .connect _ _ | .change _ _ => inferInstanceAs (Decidable True)

section Nonces

variable {blob b : List UInt8} {nonce : List UInt8}

theorem copyTo_blobNonceOffset (hnonce : nonce.length = 4) :
    copyTo nonce blob blobNonceOffset = .ok b ↔
      43 ≤ blob.length ∧ blob.take 39 ++ nonce ++ blob.drop 43 = b := by
  have hoffset : blobNonceOffset = ((39 : Nat) : Int) := rfl
  simp only [copyTo, hoffset, Int.natCast_nonneg, true_and, Int.toNat_natCast, hnonce]
  split
  · rename_i hfits
    rw [Except.ok.injEq]
    exact ⟨fun h => ⟨hfits, h⟩, fun h => h.2⟩
  · rename_i hshort
    exact ⟨fun h => (nomatch h), fun h => absurd h.1 hshort⟩

/-- The nonce that was copied is in the blob, and nothing else changed. -/
theorem nonceOf_copyTo (hnonce : nonce.length = 4)
    (h : copyTo nonce blob blobNonceOffset = .ok b) :
    nonceOf b = nonce ∧ copyTo [0, 0, 0, 0] blob blobNonceOffset = .ok (withoutNonce b) := by
  obtain ⟨hfits, rfl⟩ := (copyTo_blobNonceOffset hnonce).mp h
  have hlength : (blob.take 39).length = 39 := by
    rw [List.length_take]
    omega
  refine ⟨?_, (copyTo_blobNonceOffset rfl).mpr ⟨hfits, ?_⟩⟩
  · rw [nonceOf, List.append_assoc, List.drop_left' hlength, List.take_left' hnonce]
  · have htake : (blob.take 39 ++ nonce ++ blob.drop 43).take 39 = blob.take 39 := by
      rw [List.append_assoc, List.take_left' hlength]
    have hdrop : (blob.take 39 ++ nonce ++ blob.drop 43).drop 43 = blob.drop 43 :=
      List.drop_left' (by rw [List.length_append, hlength, hnonce])
    rw [withoutNonce, htake, hdrop]

/-- The work of an extranonce is what is converted without the nonce. -/
theorem Job.work_eq {job : Job} {workerExtraNonce : UInt32} (hnonce : nonce.length = 4)
    (h : blobWithNonce job workerExtraNonce nonce = .ok b) :
    nonceOf b = nonce ∧ job.work lib workerExtraNonce = lib.convertBlob (withoutNonce b) := by
  unfold blobWithNonce at h
  obtain ⟨blob, hblob, h⟩ := Bitcoin.bind_eq_ok.mp h
  obtain ⟨hof, hwithout⟩ := nonceOf_copyTo hnonce h
  refine ⟨hof, ?_⟩
  rw [Job.work, blobWithNonce, hblob]
  simp only [bind, Except.bind, hwithout, Except.toOption, Option.bind_some]

/-- The bytes of a nonce of eight digits. -/
theorem length_nonce {nonce : Text} (h : isLowercaseHex nonce 8 = true) :
    hexToByteArray nonce = hexPairs nonce ∧ (hexToByteArray nonce).length = 4 := by
  obtain ⟨hlength, hdigits⟩ := isLowercaseHex_iff.mp h
  have hpairs := hexToByteArray_of_lowerHexDigit hdigits
  exact ⟨hpairs, by rw [hpairs, length_hexPairs, hlength]⟩

/-- A nonce of eight digits is known by its bytes. -/
theorem nonce_inj {nonce nonce' : Text} (h : isLowercaseHex nonce 8 = true)
    (h' : isLowercaseHex nonce' 8 = true) (heq : hexToByteArray nonce = hexToByteArray nonce') :
    nonce = nonce' := by
  rw [(length_nonce h).1, (length_nonce h').1] at heq
  obtain ⟨hlength, hdigits⟩ := isLowercaseHex_iff.mp h
  obtain ⟨hlength', hdigits'⟩ := isLowercaseHex_iff.mp h'
  exact hexPairs_inj hdigits hdigits' (hlength.trans hlength'.symm) (by rw [hlength]) heq

end Nonces

section Jobs

/-- A job is known by its template. -/
def Job.Built (instanceId : List UInt8) (job : Job) : Prop :=
  ∃ newHash, Cryptonote.prevHash job.blockTemplate = some newHash ∧
    createJob instanceId job.blockTemplate newHash = .ok job

variable {instanceId : List UInt8} {job job' : Job}

theorem Job.Built.eq (h : job.Built instanceId) (h' : job'.Built instanceId)
    (htemplate : job.blockTemplate = job'.blockTemplate) : job = job' := by
  obtain ⟨newHash, hhash, hjob⟩ := h
  obtain ⟨newHash', hhash', hjob'⟩ := h'
  rw [htemplate, hhash'] at hhash
  cases hhash
  rw [htemplate, hjob'] at hjob
  exact (Except.ok.inj hjob).symm

theorem blockTemplate_createJob {template : BlockTemplate} {newHash : Text}
    (h : createJob instanceId template newHash = .ok job) : job.blockTemplate = template := by
  unfold createJob at h
  obtain ⟨blobTemplate, -, h⟩ := Bitcoin.bind_eq_ok.mp h
  cases h
  rfl

/-- An update changes nothing, or the job that it builds is the new one. -/
theorem updateJob_cases (shared : Shared) (template : BlockTemplate) :
    updateJob shared template = shared ∨
      ∃ newHash job, prevHash template = some newHash ∧ shared.isNew newHash = true ∧
        createJob shared.instanceId template newHash = .ok job ∧
        updateJob shared template = { shared with currentJob := some job, extraNonce := 0 } := by
  unfold updateJob
  split
  · exact .inl rfl
  rename_i newHash hhash
  split
  · rename_i hnew
    split
    · exact .inl rfl
    · rename_i job hjob
      exact .inr ⟨newHash, job, hhash, hnew, hjob, rfl⟩
  · exact .inl rfl

/-- A worker job is prepared from the current job with the next extranonce. -/
theorem createWorkerJob_spec (shared : Shared) (context : Context) :
    (createWorkerJob lib shared context).1.instanceId = shared.instanceId ∧
      (createWorkerJob lib shared context).1.currentJob = shared.currentJob ∧
      ∀ w ∈ (createWorkerJob lib shared context).2, context.isAuthorized = true ∧
        shared.currentJob = some w.job ∧ w.height = w.job.blockTemplate.height ∧
        w.extraNonce = (nextExtraNonce shared.extraNonce).1 := by
  unfold createWorkerJob
  split
  · rename_i hauthorized
    cases hjob : shared.currentJob with
    | none => simp
    | some job =>
      simp only
      cases hprepare : prepareWorkerJob lib job (text (toString (shared.currentJobId + 1)))
        (nextExtraNonce shared.extraNonce).1 context.worker.difficulty with
      | error e => simp
      | ok prepared =>
        unfold prepareWorkerJob at hprepare
        obtain ⟨blob, -, hprepare⟩ := Bitcoin.bind_eq_ok.mp hprepare
        obtain ⟨target, -, hprepare⟩ := Bitcoin.bind_eq_ok.mp hprepare
        cases hprepare
        refine ⟨rfl, rfl, ?_⟩
        intro w hw
        simp only [Option.mem_def, Option.ite_none_left_eq_some, Option.some.injEq] at hw
        obtain ⟨-, rfl⟩ := hw
        exact ⟨hauthorized, rfl, rfl, rfl⟩
  · simp

end Jobs

section Shares

variable {lib}

/-- A share is hashed with the given job, and its nonce is in the blob. -/
theorem processShare_ok {job : Job} {context : WorkerContext} {nonce hash : Text}
    {workerExtraNonce : UInt32} {judged : Judged}
    (h : processShare lib job context nonce workerExtraNonce hash = .ok judged) :
    judged.job = job ∧
      blobWithNonce job workerExtraNonce (hexToByteArray nonce) = .ok judged.blob ∧
      lib.convertBlob judged.blob = some judged.blobConverted := by
  unfold processShare at h
  split at h
  · cases h
  obtain ⟨_, -, h⟩ := Bitcoin.bind_eq_ok.mp h
  obtain ⟨blob, hblob, h⟩ := Bitcoin.bind_eq_ok.mp h
  split at h
  · cases h
  rename_i blobConverted hconverted
  dsimp only at h
  split at h
  · cases h
  obtain ⟨share, -, h⟩ := Bitcoin.bind_eq_ok.mp h
  cases h
  exact ⟨rfl, hblob, hconverted⟩

/-- A submission is hashed with the current job, whose height is that of the worker job. -/
theorem submitShare_ok {shared : Shared} {context : Context} {w : WorkerJob}
    {submission : Submission} {judged : Judged}
    (h : submitShare lib shared context w submission = .ok judged) :
    shared.currentJob = some judged.job ∧ w.height = judged.job.blockTemplate.height ∧
      blobWithNonce judged.job w.extraNonce (hexToByteArray submission.nonce) = .ok judged.blob ∧
      lib.convertBlob judged.blob = some judged.blobConverted := by
  unfold submitShare at h
  split at h
  · cases h
  rename_i job hjob
  split at h
  · cases h
  rename_i hheight
  obtain ⟨judged', hprocess, h⟩ := Bitcoin.bind_eq_ok.mp h
  cases h
  obtain ⟨rfl, hblob, hconverted⟩ := processShare_ok hprocess
  exact ⟨hjob, not_not.mp hheight, hblob, hconverted⟩

/-- A key is the nonce. -/
theorem submitKey_ok {submission : Submission} {key : Text}
    (h : submitKey submission = .ok key) (hlength : submission.nonce.length ≤ 8) :
    isLowercaseHex submission.nonce 8 = true ∧ key = submission.nonce := by
  unfold submitKey at h
  obtain ⟨_, hvalid, h⟩ := Bitcoin.bind_eq_ok.mp h
  cases h
  unfold validateSubmitFields at hvalid
  split at hvalid
  · cases hvalid
  rename_i hnonce
  rw [not_or, not_not] at hnonce
  have hhex := isLowercaseHex_of_matches hnonce.2 hlength
  exact ⟨hhex, toLower_of_lowerHexDigit (isLowercaseHex_iff.mp hhex).2⟩

end Shares

section Invariant

/-- The worker jobs were prepared from jobs that were built, with work that is pairwise different,
and those of the current height that are kept were prepared from the current job. -/
structure Inv (s : PoolState) : Prop where
  prepared : ∀ w ∈ s.workerJobs,
    w.job.Built s.shared.instanceId ∧ w.height = w.job.blockTemplate.height
  current : ∀ job, s.shared.currentJob = some job → job.Built s.shared.instanceId
  kept : ∀ e ∈ s.connections, ∀ n ∈ e.2.2, ∀ w, s.workerJobs[n]? = some w →
    ∀ job, s.shared.currentJob = some job → w.height = job.blockTemplate.height → w.job = job
  works : (s.workerJobs.map (WorkerJob.work lib)).Nodup

theorem Inv.initial (instanceId : List UInt8) :
    Inv lib (WorkerJobState.initial ⟨instanceId, none, 0, 0⟩) :=
  ⟨by simp [WorkerJobState.initial], by simp [WorkerJobState.initial],
    by simp [WorkerJobState.initial], by simp [WorkerJobState.initial]⟩

variable {lib} {s s' : PoolState}

theorem Inv.updateJob (h : Inv lib s) {template : BlockTemplate}
    (hheight : UpdatesHeight s template) :
    Inv lib { s with shared := updateJob s.shared template } := by
  rcases updateJob_cases s.shared template with hsame | ⟨newHash, job, hhash, hnew, hjob, hupdate⟩
  · rw [hsame]
    exact h
  rw [hupdate]
  have htemplate := blockTemplate_createJob hjob
  have hbuilt : job.Built s.shared.instanceId := by
    refine ⟨newHash, ?_, ?_⟩
    · rw [htemplate, hhash]
    · rw [htemplate, hjob]
  refine ⟨h.prepared, ?_, ?_, h.works⟩
  · rintro _ ⟨⟩
    exact hbuilt
  · rintro e he n hn w hw _ ⟨⟩ hwheight
    have hprepared := (h.prepared w (List.mem_of_getElem? hw)).1
    refine hprepared.eq hbuilt ?_
    rw [htemplate] at hwheight ⊢
    exact hheight newHash hhash hnew e he n hn w hw hwheight

/-- A connection may be replaced if the worker jobs it keeps were kept before. -/
theorem Inv.set (h : Inv lib s) (connectionId : Nat) {connection : Context × List Nat}
    (hkept : ∀ n ∈ connection.2, ∃ e ∈ s.connections, n ∈ e.2.2) :
    Inv lib (s.set connectionId connection) := by
  refine ⟨h.prepared, h.current, ?_, h.works⟩
  intro e he n hn
  rcases mem_set_connections he with rfl | he
  · obtain ⟨e, he, hn⟩ := hkept n hn
    exact h.kept e he n hn
  · exact h.kept e he n hn

theorem Inv.share (h : Inv lib s) {shared : Shared}
    (hinstance : shared.instanceId = s.shared.instanceId)
    (hcurrent : shared.currentJob = s.shared.currentJob) : Inv lib { s with shared := shared } := by
  refine ⟨?_, ?_, ?_, h.works⟩
  · simpa only [hinstance] using h.prepared
  · simpa only [hinstance, hcurrent] using h.current
  · simpa only [hcurrent] using h.kept

/-- A worker job of the current job may be added if its work is new. -/
theorem Inv.addWorkerJob (h : Inv lib s) {connectionId : Nat} {context : Context}
    {validJobs : List Nat} (hconnection : s.connection connectionId = some (context, validJobs))
    {w : WorkerJob} (hjob : s.shared.currentJob = some w.job)
    (hheight : w.height = w.job.blockTemplate.height)
    (hnew : ∀ v ∈ s.workerJobs, v.work lib ≠ w.work lib) :
    Inv lib { s.set connectionId (context, addJob (pool lib) validJobs s.workerJobs.length) with
      workerJobs := s.workerJobs ++ [w] } := by
  refine ⟨?_, h.current, ?_, ?_⟩
  · intro v hv
    rcases List.mem_append.mp hv with hv | hv
    · exact h.prepared v hv
    · obtain rfl := List.mem_singleton.mp hv
      exact ⟨h.current v.job hjob, hheight⟩
  · intro e he n hn v hv job hcurrent hvheight
    -- The new worker job is of the current job; the others were kept before.
    rcases Nat.lt_or_ge n s.workerJobs.length with hlt | hge
    · have hold : ∃ e ∈ s.connections, n ∈ e.2.2 := by
        rcases mem_set_connections he with rfl | he
        · rcases mem_addJob hn with hn | rfl
          · exact ⟨_, mem_connections hconnection, hn⟩
          · exact absurd hlt (Nat.lt_irrefl _)
        · exact ⟨e, he, hn⟩
      obtain ⟨e, he, hn⟩ := hold
      rw [List.getElem?_append_left hlt] at hv
      exact h.kept e he n hn v hv job hcurrent hvheight
    · rw [List.getElem?_append_right hge] at hv
      obtain rfl := List.mem_singleton.mp (List.mem_of_getElem? hv)
      exact Option.some.inj (hjob.symm.trans hcurrent)
  · simp only [List.map_append, List.map_singleton]
    refine List.nodup_append.mpr ⟨h.works, List.nodup_singleton _, ?_⟩
    intro work hwork work' hwork'
    obtain ⟨v, hv, rfl⟩ := List.mem_map.mp hwork
    obtain rfl := List.mem_singleton.mp hwork'
    exact hnew v hv

theorem Inv.create (h : Inv lib s) {connectionId : Nat} {context : Context}
    {validJobs : List Nat} (hconnection : s.connection connectionId = some (context, validJobs))
    (hissues : IssuesNewWork lib s connectionId) :
    Inv lib (s.create (pool lib) connectionId context validJobs) := by
  obtain ⟨hinstance, hcurrent, hworker⟩ := createWorkerJob_spec lib s.shared context
  rcases hcreate : createWorkerJob lib s.shared context with ⟨shared, created⟩
  rw [hcreate] at hinstance hcurrent hworker
  have hcreate' : (pool lib).createWorkerJob s.shared context = (shared, created) := hcreate
  rw [WorkerJobState.create, hcreate']
  cases created with
  | none => exact h.share hinstance hcurrent
  | some w =>
    obtain ⟨hauthorized, hjob, hheight, hextraNonce⟩ := hworker w rfl
    refine (h.addWorkerJob hconnection hjob hheight ?_).share hinstance hcurrent
    intro v hv
    rw [WorkerJob.work.eq_def lib w, hextraNonce]
    exact hissues _ hconnection hauthorized w.job hjob v hv

theorem Inv.step (h : Inv lib s) {op : PoolOp} (hok : KeepsApart lib s op)
    (hstep : s.step (pool lib) op = some s') : Inv lib s' := by
  obtain ⟨template, rfl, rfl⟩ | ⟨connectionId, difficulty, rfl, rfl⟩ |
    ⟨connectionId, request, context, validJobs, rfl, hconnection, rfl⟩ |
    ⟨connectionId, context, validJobs, rfl, hconnection, rfl⟩ |
    ⟨connectionId, submission, rfl, rfl | ⟨key, rfl⟩ | ⟨n, w, key, a, haccepts, rfl⟩⟩ :=
    step_cases hstep
  · exact h.updateJob hok
  · exact h.set connectionId (by simp)
  · exact h.set connectionId fun n hn => ⟨_, mem_connections hconnection, hn⟩
  · exact h.create hconnection hok
  · exact h
  · exact ⟨h.prepared, h.current, h.kept, h.works⟩
  · exact ⟨h.prepared, h.current, h.kept, h.works⟩

/-- An accepted share was hashed with the job of its worker job, for the nonce that is its key. -/
structure Valid (lib : Library) (w : WorkerJob) (key : Text) (judged : Judged) : Prop where
  job : judged.job = w.job
  digits : isLowercaseHex key 8 = true
  blob : blobWithNonce w.job w.extraNonce (hexToByteArray key) = .ok judged.blob
  converted : lib.convertBlob judged.blob = some judged.blobConverted

theorem pool_sound (hlib : lib.KeepsNonce) :
    (pool lib).Sound (Inv lib) (Valid lib) Judged.blobConverted (KeepsApart lib) where
  step h hok hstep := h.step hok hstep
  valid {s connectionId submission n w key judged} hinv hok haccepts := by
    obtain ⟨context, hnamed, hjudge⟩ := haccepts.judged
    obtain ⟨validJobs, hconnection, hn, hw⟩ := named_eq_some hnamed
    obtain ⟨hcurrent, hheight, hblob, hconverted⟩ := submitShare_ok hjudge
    obtain ⟨hhex, rfl⟩ := submitKey_ok haccepts.submitKey hok
    have hjob : w.job = judged.job :=
      hinv.kept _ (mem_connections hconnection) n hn w hw judged.job hcurrent hheight
    exact ⟨hjob.symm, hhex, hjob ▸ hblob, hconverted⟩
  key_eq {s connectionId submission n w key a n' w' key' b} hinv hok haccepts ha hb hw' hb' hwork := by
    have hconverted := ha.converted
    rw [← hwork] at hconverted
    obtain ⟨hnonce, hw⟩ := Job.work_eq lib (length_nonce ha.digits).2 ha.blob
    obtain ⟨hnonce', hw''⟩ := Job.work_eq lib (length_nonce hb'.digits).2 hb'.blob
    have hsame : w'.work lib = w.work lib := by
      rw [WorkerJob.work, WorkerJob.work, hw, hw'']
      exact hlib.withoutNonce_eq hb'.converted hconverted
    have hbytes : hexToByteArray key' = hexToByteArray key := by
      rw [← hnonce, ← hnonce']
      exact hlib.nonce_eq hb'.converted hconverted
    refine ⟨?_, nonce_inj hb'.digits ha.digits hbytes⟩
    have hlength : n' < (s.workerJobs.map (WorkerJob.work lib)).length := by
      rw [List.length_map]
      exact (List.getElem?_eq_some_iff.mp hw').1
    refine (List.getElem?_inj hlength hinv.works).mp ?_
    rw [List.getElem?_map, List.getElem?_map, hw', haccepts.workerJob, Option.map_some,
      Option.map_some, hsame]

end Invariant

/-- **Shares are judged on the work that was issued** while the worker jobs are kept apart: each
one is hashed with the template of its worker job, and no blob is hashed for two of them. -/
theorem judged_on_issued_work {lib : Library} (hlib : lib.KeepsNonce) {instanceId : List UInt8}
    {ops : List PoolOp} {s : PoolState}
    (hrun : run (WorkerJobState.step (pool lib)) (initial ⟨instanceId, none, 0, 0⟩) ops = some s)
    (hok : Meets (WorkerJobState.step (pool lib)) (KeepsApart lib)
      (initial ⟨instanceId, none, 0, 0⟩) ops) :
    (∀ e ∈ s.accepted, ∃ w, s.workerJobs[e.1.1]? = some w ∧
        e.2.job.blockTemplate = w.job.blockTemplate) ∧
      (s.accepted.map fun e => e.2.blobConverted).Nodup := by
  obtain ⟨hvalid, hnodup⟩ :=
    (pool_sound hlib).accepted_valid_nodup (Inv.initial lib instanceId) hrun hok
  refine ⟨fun e he => ?_, hnodup⟩
  obtain ⟨w, hw, hjudged⟩ := hvalid e he
  exact ⟨w, hw, congrArg Job.blockTemplate hjudged.job⟩

section Example

/-- `ConvertBlob` for blobs without other transactions: the header, the hash of the coinbase
transaction, which is computed from the rest of the blob, and the number of transactions. -/
def convertCoinbaseOnly (coinbaseHash : List UInt8 → Option (List UInt8)) (blob : List UInt8) :
    Option (List UInt8) :=
  if 43 ≤ blob.length then
    (coinbaseHash (blob.drop 43)).map fun hash => blob.take 43 ++ (hash ++ [1])
  else none

/-- Blobs with the same converted blob have the same header and coinbase hash. -/
theorem convertCoinbaseOnly_eq_some {coinbaseHash : List UInt8 → Option (List UInt8)}
    {blob converted : List UInt8} (h : convertCoinbaseOnly coinbaseHash blob = some converted) :
    43 ≤ blob.length ∧ blob.take 43 = converted.take 43 ∧
      (coinbaseHash (blob.drop 43)).map (· ++ [1]) = some (converted.drop 43) := by
  unfold convertCoinbaseOnly at h
  split at h
  · rename_i hlength
    obtain ⟨hash, hhash, rfl⟩ := Option.map_eq_some_iff.mp h
    have htake : (blob.take 43).length = 43 := by
      rw [List.length_take]
      omega
    refine ⟨hlength, (List.take_left' htake).symm, ?_⟩
    rw [List.drop_left' htake, hhash, Option.map_some]
  · cases h

theorem convertCoinbaseOnly_withoutNonce {coinbaseHash : List UInt8 → Option (List UInt8)}
    {blob converted : List UInt8} (h : convertCoinbaseOnly coinbaseHash blob = some converted) :
    convertCoinbaseOnly coinbaseHash (withoutNonce blob) =
      some (converted.take 39 ++ [0, 0, 0, 0] ++ converted.drop 43) := by
  obtain ⟨hlength, htake, hhash⟩ := convertCoinbaseOnly_eq_some h
  obtain ⟨hash, hhash, hconverted⟩ := Option.map_eq_some_iff.mp hhash
  have hheader : (blob.take 39 ++ [0, 0, 0, 0]).length = 43 := by
    rw [List.length_append, List.length_take]
    simp only [List.length_cons, List.length_nil]
    omega
  have htake39 : converted.take 39 = blob.take 39 := by
    rw [show 39 = min 39 43 from rfl, ← List.take_take, ← htake, List.take_take]
  rw [convertCoinbaseOnly, withoutNonce, if_pos (by rw [List.length_append, hheader]; omega),
    List.drop_left' hheader, List.take_left' hheader, hhash, ← hconverted, htake39, Option.map_some]

theorem nonceOf_convertCoinbaseOnly {coinbaseHash : List UInt8 → Option (List UInt8)}
    {blob converted : List UInt8} (h : convertCoinbaseOnly coinbaseHash blob = some converted) :
    nonceOf blob = (converted.take 43).drop 39 := by
  obtain ⟨-, htake, -⟩ := convertCoinbaseOnly_eq_some h
  rw [← htake, List.drop_take, nonceOf]

/-- The start of the template of a block at height 100000, up to its nonce. -/
def exampleHeader : List UInt8 :=
  [1, 0, 232, 199, 183, 157, 5, 3, 120, 63, 172, 46, 254, 216, 251, 201, 173, 68, 62, 89, 46,
    227, 14, 97, 214, 95, 71, 17, 64, 193, 12, 161, 85, 233, 55, 180, 53, 183, 96]

/-- The start of the template of another block at the same height, after a reorganisation. -/
def exampleOtherHeader : List UInt8 :=
  [1, 0, 239, 199, 183, 157, 5, 31, 103, 91, 255, 7, 81, 95, 93, 249, 103, 55, 25, 78, 169, 69,
    195, 108, 65, 231, 180, 252, 239, 48, 123, 124, 212, 208, 230, 2, 166, 145, 17]

/-- The coinbase transaction up to the reserved area. -/
def exampleCoinbase : List UInt8 :=
  [1, 220, 141, 6, 1, 255, 160, 141, 6, 1, 128, 192, 155, 136, 186, 151, 3, 2, 7, 133, 91, 70,
    166, 35, 168, 236, 171, 172, 118, 237, 105, 122, 164, 225, 54, 49, 227, 182, 113, 140, 138,
    13, 52, 40, 96, 193, 60, 48, 210, 252, 44, 1, 187, 188, 248, 168, 132, 239, 81, 177, 116,
    120, 240, 88, 42, 32, 6, 60, 214, 156, 249, 29, 96, 226, 192, 69, 87, 149, 56, 1, 250, 118,
    43, 7, 2, 9]

/-- The coinbase transaction, the reserved area of nine bytes and no other transactions. -/
def exampleRest (reserved : List UInt8) : List UInt8 := exampleCoinbase ++ reserved ++ [0, 0]

/-- The hash of the coinbase transaction with the first extranonce. -/
def exampleFirstHash : List UInt8 :=
  [156, 24, 207, 205, 35, 245, 43, 200, 247, 3, 155, 114, 186, 158, 65, 35, 200, 90, 159, 35,
    212, 27, 36, 126, 147, 221, 7, 106, 3, 186, 7, 27]

/-- The hash of the coinbase transaction with the second extranonce. -/
def exampleSecondHash : List UInt8 :=
  [2, 70, 215, 249, 51, 71, 151, 255, 74, 93, 63, 125, 104, 181, 179, 63, 23, 42, 170, 25, 75,
    57, 253, 185, 129, 233, 31, 179, 81, 15, 143, 135]

/-- The two coinbase hashes; no other is computed. -/
def exampleCoinbaseHash (rest : List UInt8) : Option (List UInt8) :=
  if rest = exampleRest [0, 0, 0, 1, 3, 90, 193, 119] then some exampleFirstHash
  else if rest = exampleRest [0, 0, 0, 2, 3, 90, 193, 119] then some exampleSecondHash
  else none

/-- The Cryptonight hashes of the submissions below; no other is computed. -/
def exampleHashes : List (List UInt8 × List UInt8) :=
  [(exampleHeader ++ [66, 0, 0, 0] ++ exampleFirstHash ++ [1],
    [60, 99, 60, 222, 193, 60, 2, 66, 48, 233, 215, 223, 19, 203, 46, 42, 87, 231, 1, 236, 74,
     89, 37, 210, 230, 234, 168, 166, 253, 44, 210, 206]),
  (exampleHeader ++ [66, 0, 0, 0] ++ exampleSecondHash ++ [1],
    [197, 253, 41, 97, 25, 209, 196, 167, 190, 168, 175, 22, 98, 123, 48, 211, 100, 50, 95, 147,
     178, 231, 91, 132, 232, 163, 70, 8, 39, 102, 188, 114]),
  (exampleOtherHeader ++ [0, 0, 0, 0] ++ exampleFirstHash ++ [1],
    [49, 173, 148, 220, 2, 179, 59, 255, 6, 254, 197, 144, 113, 198, 230, 230, 151, 24, 207, 41,
     217, 237, 117, 243, 240, 219, 15, 160, 65, 50, 12, 77])]

/-- A coin with the first Cryptonight hash. -/
def exampleLibrary : Library where
  convertBlob := convertCoinbaseOnly exampleCoinbaseHash
  hashFunc _ data _ := (exampleHashes.lookup data).getD []
  getBlockId _ := []
  cryptonightHashFast _ := []
  hasBlockId := false

theorem exampleLibrary_keepsNonce : exampleLibrary.KeepsNonce where
  nonce_eq h h' := by
    rw [nonceOf_convertCoinbaseOnly h, nonceOf_convertCoinbaseOnly h']
  withoutNonce_eq h h' :=
    (convertCoinbaseOnly_withoutNonce h).trans (convertCoinbaseOnly_withoutNonce h').symm

/-- A template with a header. -/
def exampleTemplate (header : List UInt8) : BlockTemplate where
  blob := toHexString (header ++ [0, 0, 0, 0] ++ exampleRest [0, 0, 0, 0, 0, 0, 0, 0])
  difficulty := 1000000
  height := 100000
  seedHash := []
  reservedOffset := 129

/-- A submission of a nonce that was hashed above. -/
def exampleSubmission (connectionId : Nat) (jobId : String) (nonce : List UInt8)
    (blobConverted : List UInt8) : PoolOp :=
  .submit connectionId
    ⟨some connectionId, some (text jobId), toHexString nonce,
      toHexString (exampleLibrary.hashFunc [] blobConverted 100000), true⟩

/-- Two connections get worker jobs of one template, and find the same nonce. -/
def exampleOps : List PoolOp :=
  [.connect 0 1, .change 0 (.login true), .connect 1 1, .change 1 (.login true),
    .updateJob (exampleTemplate exampleHeader), .createWorkerJob 0, .createWorkerJob 1,
    exampleSubmission 0 "1" [66, 0, 0, 0]
      (exampleHeader ++ [66, 0, 0, 0] ++ exampleFirstHash ++ [1]),
    exampleSubmission 1 "2" [66, 0, 0, 0]
      (exampleHeader ++ [66, 0, 0, 0] ++ exampleSecondHash ++ [1])]

/-- The two connections are credited for different blobs of the template. -/
theorem judged_on_issued_work_two_connections :
    ∃ s ∈ run (WorkerJobState.step (pool exampleLibrary))
        (initial ⟨[3, 90, 193, 119], none, 0, 0⟩) exampleOps,
      s.accepted.length = 2 ∧
        (∀ e ∈ s.accepted, ∃ w, s.workerJobs[e.1.1]? = some w ∧
          e.2.job.blockTemplate = w.job.blockTemplate) ∧
        (s.accepted.map fun e => e.2.blobConverted).Nodup := by
  have hsome : ∃ s ∈ run (WorkerJobState.step (pool exampleLibrary))
      (initial ⟨[3, 90, 193, 119], none, 0, 0⟩) exampleOps, s.accepted.length = 2 := by
    decide +kernel
  obtain ⟨s, hrun, hlength⟩ := hsome
  exact ⟨s, hrun, hlength,
    judged_on_issued_work exampleLibrary_keepsNonce hrun (by decide +kernel)⟩

/-- After a reorganisation a nonce is credited under the new worker job of the connection, and
once more under the old one, whose template was another one of the same height. -/
theorem nonce_credited_after_reorganisation :
    ∃ s ∈ run (WorkerJobState.step (pool exampleLibrary))
        (initial ⟨[3, 90, 193, 119], none, 0, 0⟩)
        [.connect 0 1, .change 0 (.login true), .updateJob (exampleTemplate exampleHeader),
          .createWorkerJob 0, .updateJob (exampleTemplate exampleOtherHeader), .createWorkerJob 0,
          exampleSubmission 0 "2" [0, 0, 0, 0]
            (exampleOtherHeader ++ [0, 0, 0, 0] ++ exampleFirstHash ++ [1]),
          exampleSubmission 0 "1" [0, 0, 0, 0]
            (exampleOtherHeader ++ [0, 0, 0, 0] ++ exampleFirstHash ++ [1])],
      (∃ e ∈ s.accepted, ∃ w ∈ s.workerJobs[e.1.1]?,
          e.2.job.blockTemplate ≠ w.job.blockTemplate) ∧
        ¬(s.accepted.map fun e => e.2.blobConverted).Nodup := by
  decide +kernel

end Example

end HashStorm.Cryptonote
