import HashStorm.Blockchain.JobSubmissions

/-!
# Worker jobs

Some pools give a connection worker jobs of its own, of which the last few are
kept. A worker job remembers the keys of its submissions; a submission is looked
up in the worker job that it names, and judged if its key is new. Worker jobs are
numbered in the order in which they are created, so that a number stands for the
object. No work is accepted twice if work that was accepted before has the same
worker job and the same key.
-/

namespace HashStorm.Blockchain

open Stratum Machine Registry

/-- How a chain hands out worker jobs and judges what is submitted under them. -/
structure WorkerJobChain (G C A τ W σ κ α : Type) where
  maxActiveJobs : Nat
  /-- `UpdateJob`. -/
  updateJob : G → τ → G
  /-- The context of a new connection. -/
  connect : Rat → C
  /-- A request that changes the context of its connection. -/
  change : G → C → A → G × C
  /-- `CreateWorkerJob` up to `AddJob`; after an exception there is no worker job. -/
  createWorkerJob : G → C → G × Option W
  /-- `Id` of a worker job. -/
  id : W → Text
  /-- The checks of a request up to `GetJob`, and the job id. -/
  checkRequest : Nat → C → σ → Except Failure Text
  /-- The checks from `GetJob` to the look-up of duplicates, and the key. -/
  submitKey : σ → Except Failure κ
  /-- How a duplicate is answered. -/
  duplicate : Failure
  /-- What a submission with a new key is judged to be. -/
  judge : G → C → W → σ → Except Failure α

/-- A pool: what its connections share, their contexts and the numbers of the worker jobs they
keep, the oldest first, all worker jobs that were created, and what was submitted under them. -/
structure WorkerJobState (G C W κ α : Type) where
  shared : G
  connections : List (Nat × C × List Nat)
  workerJobs : List W
  submissions : List (Nat × κ)
  accepted : List ((Nat × κ) × α)

/-- What happens to a pool. Worker jobs are created by a login, on request, after a retarget and
when jobs are broadcast. -/
inductive WorkerJobOp (A τ σ : Type) where
  | updateJob (template : τ)
  | connect (connectionId : Nat) (difficulty : Rat)
  | change (connectionId : Nat) (request : A)
  | createWorkerJob (connectionId : Nat)
  | submit (connectionId : Nat) (submission : σ)

variable {G C A τ W σ κ α ω : Type}

namespace WorkerJobState

section Connections

variable (p : WorkerJobChain G C A τ W σ κ α) (s : WorkerJobState G C W κ α)

/-- No connection, and no worker job. -/
def initial (shared : G) : WorkerJobState G C W κ α := ⟨shared, [], [], [], []⟩

/-- The context of a connection and the worker jobs it keeps. -/
def connection (connectionId : Nat) : Option (C × List Nat) :=
  (s.connections.find? fun e => e.1 = connectionId).map Prod.snd

/-- Replace a connection. -/
def set (connectionId : Nat) (connection : C × List Nat) : WorkerJobState G C W κ α :=
  { s with
    connections :=
      (connectionId, connection) :: s.connections.filter fun e => e.1 ≠ connectionId }

/-- `AddJob`. -/
def addJob (validJobs : List Nat) (job : Nat) : List Nat :=
  (validJobs ++ [job]).drop (validJobs.length + 1 - p.maxActiveJobs)

/-- `GetJob`. -/
def getJob (validJobs : List Nat) (jobId : Text) : Option (Nat × W) :=
  (validJobs.filterMap fun n => (s.workerJobs[n]?).map fun w => (n, w)).find? fun e =>
    p.id e.2 = jobId

/-- A new worker job is kept by its connection. -/
def create (connectionId : Nat) (context : C) (validJobs : List Nat) :
    WorkerJobState G C W κ α :=
  match p.createWorkerJob s.shared context with
  | (shared, none) => { s with shared := shared }
  | (shared, some w) =>
    { s.set connectionId (context, addJob p validJobs s.workerJobs.length) with
      shared := shared
      workerJobs := s.workerJobs ++ [w] }

/-- The worker job that a submission of a connection names, with its number and the context of the
connection. -/
def named (connectionId : Nat) (submission : σ) : Option (C × Nat × W) :=
  (s.connection connectionId).bind fun (context, validJobs) =>
    match p.checkRequest connectionId context submission with
    | .error _ => none
    | .ok jobId => (s.getJob p validJobs jobId).map fun job => (context, job)

end Connections

section Steps

variable [DecidableEq κ] (p : WorkerJobChain G C A τ W σ κ α) (s : WorkerJobState G C W κ α)

/-- The answer to a submission, and the pool afterwards. -/
def submit (connectionId : Nat) (context : C) (validJobs : List Nat) (submission : σ) :
    Except Failure α × WorkerJobState G C W κ α :=
  match p.checkRequest connectionId context submission with
  | .error e => (.error e, s)
  | .ok jobId =>
    match s.getJob p validJobs jobId with
    | none => (.error (.stratum .minusOne "invalid jobid"), s)
    | some (n, w) =>
      match p.submitKey submission with
      | .error e => (.error e, s)
      | .ok key =>
        match tryAdd s.submissions (n, key) with
        | none => (.error p.duplicate, s)
        | some submissions =>
          match p.judge s.shared context w submission with
          | .error e => (.error e, { s with submissions := submissions })
          | .ok a =>
            (.ok a,
              { s with submissions := submissions, accepted := ((n, key), a) :: s.accepted })

/-- One step; only connected workers can do something. -/
def step : WorkerJobOp A τ σ → Option (WorkerJobState G C W κ α)
  | .updateJob template => some { s with shared := p.updateJob s.shared template }
  | .connect connectionId difficulty => some (s.set connectionId (p.connect difficulty, []))
  | .change connectionId request =>
    (s.connection connectionId).map fun (context, validJobs) =>
      let (shared, context) := p.change s.shared context request
      { s.set connectionId (context, validJobs) with shared := shared }
  | .createWorkerJob connectionId =>
    (s.connection connectionId).map fun (context, validJobs) =>
      s.create p connectionId context validJobs
  | .submit connectionId submission =>
    (s.connection connectionId).map fun (context, validJobs) =>
      (s.submit p connectionId context validJobs submission).2

end Steps

/-- A submission is not for work that was accepted under another worker job than it names. -/
def OwnWork (p : WorkerJobChain G C A τ W σ κ α) (evaluated : G → C → W → σ → Option ω)
    (work : α → ω) (s : WorkerJobState G C W κ α) : WorkerJobOp A τ σ → Prop
  | .submit connectionId submission =>
    ∀ job ∈ s.named p connectionId submission,
      ∀ x ∈ evaluated s.shared job.1 job.2.2 submission,
        ∀ e ∈ s.accepted, work e.2 = x → e.1.1 = job.2.1
  | _ => True

instance [DecidableEq ω] (p : WorkerJobChain G C A τ W σ κ α)
    (evaluated : G → C → W → σ → Option ω) (work : α → ω) (s : WorkerJobState G C W κ α) :
    (op : WorkerJobOp A τ σ) → Decidable (s.OwnWork p evaluated work op)
  | .submit connectionId submission => by
    unfold OwnWork
    infer_instance
  | .updateJob _ | .connect _ _ | .change _ _ | .createWorkerJob _ =>
    inferInstanceAs (Decidable True)

end WorkerJobState

open WorkerJobState

/-- A submission of a connection is accepted under the worker job that it names, with a new key. -/
structure Accepts (p : WorkerJobChain G C A τ W σ κ α) (s : WorkerJobState G C W κ α)
    (connectionId : Nat) (submission : σ) (n : Nat) (w : W) (key : κ) (a : α) : Prop where
  judged : ∃ context, s.named p connectionId submission = some (context, n, w) ∧
    p.judge s.shared context w submission = .ok a
  submitKey : p.submitKey submission = .ok key
  new : (n, key) ∉ s.submissions

section Spec

variable {p : WorkerJobChain G C A τ W σ κ α} {s s' : WorkerJobState G C W κ α}

theorem mem_connections {connectionId : Nat} {connection : C × List Nat}
    (h : s.connection connectionId = some connection) :
    (connectionId, connection) ∈ s.connections := by
  obtain ⟨e, he, rfl⟩ := Option.map_eq_some_iff.mp h
  have hid : e.1 = connectionId := by simpa using List.find?_some he
  exact hid ▸ List.mem_of_find?_eq_some he

theorem mem_set_connections {connectionId : Nat} {connection : C × List Nat}
    {e : Nat × C × List Nat} (h : e ∈ (s.set connectionId connection).connections) :
    e = (connectionId, connection) ∨ e ∈ s.connections :=
  (List.mem_cons.mp h).imp_right List.mem_of_mem_filter

/-- A connection keeps the new worker job, and some of those it had. -/
theorem mem_addJob {validJobs : List Nat} {job n : Nat} (h : n ∈ addJob p validJobs job) :
    n ∈ validJobs ∨ n = job := by
  simpa using List.mem_of_mem_drop h

theorem getJob_eq_some {validJobs : List Nat} {jobId : Text} {n : Nat} {w : W}
    (h : s.getJob p validJobs jobId = some (n, w)) :
    n ∈ validJobs ∧ s.workerJobs[n]? = some w := by
  obtain ⟨m, hm, hw⟩ := List.mem_filterMap.mp (List.mem_of_find?_eq_some h)
  obtain ⟨w', hw', heq⟩ := Option.map_eq_some_iff.mp hw
  cases heq
  exact ⟨hm, hw'⟩

/-- A submission names a worker job that its connection keeps. -/
theorem named_eq_some {connectionId : Nat} {submission : σ} {context : C} {n : Nat} {w : W}
    (h : s.named p connectionId submission = some (context, n, w)) :
    ∃ validJobs, s.connection connectionId = some (context, validJobs) ∧ n ∈ validJobs ∧
      s.workerJobs[n]? = some w := by
  obtain ⟨⟨context, validJobs⟩, hconnection, h⟩ := Option.bind_eq_some_iff.mp h
  simp only at h
  split at h
  · cases h
  · obtain ⟨job, hjob, heq⟩ := Option.map_eq_some_iff.mp h
    cases heq
    exact ⟨validJobs, hconnection, getJob_eq_some hjob⟩

theorem Accepts.workerJob {connectionId n : Nat} {submission : σ} {w : W} {key : κ} {a : α}
    (h : Accepts p s connectionId submission n w key a) : s.workerJobs[n]? = some w := by
  obtain ⟨context, hnamed, -⟩ := h.judged
  obtain ⟨validJobs, -, -, hw⟩ := named_eq_some hnamed
  exact hw

/-- What the steps do. -/
theorem step_cases [DecidableEq κ] {op : WorkerJobOp A τ σ} (h : s.step p op = some s') :
    (∃ template, op = .updateJob template ∧
        s' = { s with shared := p.updateJob s.shared template }) ∨
      (∃ connectionId difficulty, op = .connect connectionId difficulty ∧
        s' = s.set connectionId (p.connect difficulty, [])) ∨
      (∃ connectionId request context validJobs, op = .change connectionId request ∧
        s.connection connectionId = some (context, validJobs) ∧
        s' = { s.set connectionId ((p.change s.shared context request).2, validJobs) with
          shared := (p.change s.shared context request).1 }) ∨
      (∃ connectionId context validJobs, op = .createWorkerJob connectionId ∧
        s.connection connectionId = some (context, validJobs) ∧
        s' = s.create p connectionId context validJobs) ∨
      (∃ connectionId submission, op = .submit connectionId submission ∧
        (s' = s ∨ (∃ key, s' = { s with submissions := key :: s.submissions }) ∨
          ∃ n w key a, Accepts p s connectionId submission n w key a ∧
            s' = { s with
              submissions := (n, key) :: s.submissions
              accepted := ((n, key), a) :: s.accepted })) := by
  cases op with
  | updateJob template => exact .inl ⟨template, rfl, (Option.some.inj h).symm⟩
  | connect connectionId difficulty =>
    exact .inr (.inl ⟨connectionId, difficulty, rfl, (Option.some.inj h).symm⟩)
  | change connectionId request =>
    obtain ⟨⟨context, validJobs⟩, hconnection, hs'⟩ := Option.map_eq_some_iff.mp h
    exact .inr (.inr (.inl ⟨connectionId, request, context, validJobs, rfl, hconnection, hs'.symm⟩))
  | createWorkerJob connectionId =>
    obtain ⟨⟨context, validJobs⟩, hconnection, hs'⟩ := Option.map_eq_some_iff.mp h
    exact .inr (.inr (.inr (.inl ⟨connectionId, context, validJobs, rfl, hconnection, hs'.symm⟩)))
  | submit connectionId submission =>
    obtain ⟨⟨context, validJobs⟩, hconnection, rfl⟩ := Option.map_eq_some_iff.mp h
    refine .inr (.inr (.inr (.inr ⟨connectionId, submission, rfl, ?_⟩)))
    simp only [WorkerJobState.submit]
    split
    · exact .inl rfl
    rename_i jobId hjobId
    split
    · exact .inl rfl
    rename_i n w hjob
    have hnamed : s.named p connectionId submission = some (context, n, w) := by
      simp only [named, hconnection, Option.bind_some, hjobId, hjob, Option.map_some]
    split
    · exact .inl rfl
    rename_i key hkey
    by_cases hnew : (n, key) ∈ s.submissions
    · rw [tryAdd, if_pos hnew]
      exact .inl rfl
    rw [tryAdd, if_neg hnew]
    simp only
    split
    · exact .inr (.inl ⟨_, rfl⟩)
    · rename_i a hjudge
      exact .inr (.inr ⟨n, w, key, a, ⟨⟨context, hnamed, hjudge⟩, hkey, hnew⟩, rfl⟩)

end Spec

section Once

variable {p : WorkerJobChain G C A τ W σ κ α} {s s' : WorkerJobState G C W κ α}
  {Inv : WorkerJobState G C W κ α → Prop} {Valid : W → κ → α → Prop} {work : α → ω}
  {ok : WorkerJobState G C W κ α → WorkerJobOp A τ σ → Prop}

/-- The accepted shares are valid for their worker jobs, and no work was accepted twice. -/
structure AcceptedOnce (Valid : W → κ → α → Prop) (work : α → ω)
    (s : WorkerJobState G C W κ α) : Prop where
  valid : ∀ e ∈ s.accepted, ∃ w, s.workerJobs[e.1.1]? = some w ∧ Valid w e.1.2 e.2
  once : CreditedOnce s.submissions (s.accepted.map fun e => (e.1, work e.2))

theorem acceptedOnce_initial (shared : G) :
    AcceptedOnce Valid work (initial shared : WorkerJobState G C W κ α) :=
  ⟨by simp [initial], creditedOnce_nil _⟩

theorem AcceptedOnce.create (h : AcceptedOnce Valid work s) (connectionId : Nat) (context : C)
    (validJobs : List Nat) :
    AcceptedOnce Valid work (s.create p connectionId context validJobs) := by
  unfold WorkerJobState.create
  split
  · exact ⟨h.valid, h.once⟩
  · refine ⟨fun e he => ?_, h.once⟩
    obtain ⟨w, hw, hvalid⟩ := h.valid e he
    exact ⟨w, List.getElem?_append_left (List.getElem?_eq_some_iff.mp hw).1 ▸ hw, hvalid⟩

variable [DecidableEq κ]

/-- What is accepted is valid for its worker job, and work that was accepted before under another
key is not accepted again, by steps that meet the condition. -/
structure WorkerJobChain.Sound (p : WorkerJobChain G C A τ W σ κ α)
    (Inv : WorkerJobState G C W κ α → Prop) (Valid : W → κ → α → Prop) (work : α → ω)
    (ok : WorkerJobState G C W κ α → WorkerJobOp A τ σ → Prop) : Prop where
  step : ∀ {s op s'}, Inv s → ok s op → s.step p op = some s' → Inv s'
  valid : ∀ {s connectionId submission n w key a}, Inv s →
    ok s (.submit connectionId submission) →
    Accepts p s connectionId submission n w key a → Valid w key a
  key_eq : ∀ {s connectionId submission n w key a n' w' key' b}, Inv s →
    ok s (.submit connectionId submission) →
    Accepts p s connectionId submission n w key a → Valid w key a →
    ((n', key'), b) ∈ s.accepted → s.workerJobs[n']? = some w' → Valid w' key' b →
    work b = work a → n' = n ∧ key' = key

theorem AcceptedOnce.step (hsound : p.Sound Inv Valid work ok) (hinv : Inv s)
    (h : AcceptedOnce Valid work s) {op : WorkerJobOp A τ σ} (hok : ok s op)
    (hstep : s.step p op = some s') : AcceptedOnce Valid work s' := by
  obtain ⟨template, rfl, rfl⟩ | ⟨connectionId, difficulty, rfl, rfl⟩ |
    ⟨connectionId, request, context, validJobs, rfl, -, rfl⟩ |
    ⟨connectionId, context, validJobs, rfl, -, rfl⟩ |
    ⟨connectionId, submission, rfl, rfl | ⟨key, rfl⟩ | ⟨n, w, key, a, haccepts, rfl⟩⟩ :=
    step_cases hstep
  · exact ⟨h.valid, h.once⟩
  · exact ⟨h.valid, h.once⟩
  · exact ⟨h.valid, h.once⟩
  · exact h.create connectionId context validJobs
  · exact h
  · exact ⟨h.valid, h.once.register key⟩
  · have hvalid : Valid w key a := hsound.valid hinv hok haccepts
    refine ⟨?_, h.once.credit haccepts.new fun e he hwork => ?_⟩
    · intro e he
      rcases List.mem_cons.mp he with rfl | he
      · exact ⟨w, haccepts.workerJob, hvalid⟩
      · exact h.valid e he
    · obtain ⟨⟨⟨n', key'⟩, b⟩, hb, rfl⟩ := List.mem_map.mp he
      obtain ⟨w', hw', hvalid'⟩ := h.valid _ hb
      obtain ⟨hn, hkey⟩ := hsound.key_eq hinv hok haccepts hvalid hb hw' hvalid' hwork
      exact Prod.ext hn hkey

/-- **Sound judgement accepts no work twice**, and what it accepts is valid. -/
theorem WorkerJobChain.Sound.accepted_valid_nodup (hsound : p.Sound Inv Valid work ok) {shared : G}
    (hinitial : Inv (initial shared)) {ops : List (WorkerJobOp A τ σ)}
    (hrun : run (WorkerJobState.step p) (initial shared) ops = some s)
    (hok : Meets (WorkerJobState.step p) ok (initial shared) ops) :
    (∀ e ∈ s.accepted, ∃ w, s.workerJobs[e.1.1]? = some w ∧ Valid w e.1.2 e.2) ∧
      (s.accepted.map fun e => work e.2).Nodup := by
  have hinv : Inv s ∧ AcceptedOnce Valid work s :=
    run_invariant (fun s => Inv s ∧ AcceptedOnce Valid work s)
      (fun s op s' h hop hstep => ⟨hsound.step h.1 hop hstep, h.2.step hsound h.1 hop hstep⟩)
      ⟨hinitial, acceptedOnce_initial shared⟩ hok hrun
  refine ⟨hinv.2.valid, ?_⟩
  have hnodup := hinv.2.once.nodup
  rwa [List.map_map] at hnodup

end Once

end HashStorm.Blockchain
