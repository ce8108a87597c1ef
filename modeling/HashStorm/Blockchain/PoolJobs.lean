import HashStorm.Blockchain.JobSubmissions

/-!
# The jobs of a pool

Some pools share their jobs among all workers. A template makes a new job if it is
newer than that of the current job, a worker keeps the last few jobs that it was
sent, and what it submits is judged by the job that it names. Each job registers
its own keys. No work is accepted twice, under whichever job, if shares of
different jobs are different work.
-/

namespace HashStorm.Blockchain

open Stratum Machine Registry

/-- How a pool makes jobs of templates, finds the job of a submission, and judges it. -/
structure PoolChain (G T J σ κ ε β α : Type) where
  maxActiveJobs : Nat
  /-- `UpdateJob`: what the jobs share afterwards, and the job of a template if it is newer than
  the current one. -/
  updateJob : G → Option J → T → G × Option J
  /-- `GetJob`: the number of the job that a submission means, among those that the worker keeps;
  some miners are known by their user agents. -/
  getJob : Option Text → List (Nat × J) → σ → Option Nat
  /-- `ProcessShare`: what it returns, and the job and the registered keys afterwards. -/
  process : J → WorkerContext → σ → List κ → Except ε β × J × List κ
  /-- What a submission denotes, if it can be read. -/
  denote : J → WorkerContext → σ → Option α

/-- A job with its registered keys and accepted shares. -/
structure PoolJob (J κ α : Type) where
  job : J
  submissions : List κ
  accepted : List α

/-- A connection: its context, the user agent, and the numbers of the jobs it keeps. -/
structure PoolWorker where
  context : WorkerContext
  userAgent : Option Text
  validJobs : List Nat
  deriving DecidableEq, Repr

/-- A pool: what its jobs share, its connections, and all its jobs, of which the last is the
current one. -/
structure PoolState (G J κ α : Type) where
  shared : G
  provider : ExtraNonceProvider
  workers : Nat → Option PoolWorker
  jobs : List (PoolJob J κ α)

/-- What happens to a pool. -/
inductive PoolOp (T σ : Type) where
  | updateJob (template : T)
  | connect (worker : Nat) (difficulty : Rat)
  | subscribe (worker : Nat) (userAgent : Option Text)
  | setDifficulty (worker : Nat) (difficulty : Rat) (varDiffUpdated : Bool)
  | sendJob (worker : Nat)
  | submit (worker : Nat) (submission : σ)

/-- The template of an update. -/
def PoolOp.template? {T σ : Type} : PoolOp T σ → Option T
  | .updateJob template => some template
  | _ => none

/-- The templates that come in a run. -/
def templates {T σ : Type} (ops : List (PoolOp T σ)) : List T := ops.filterMap PoolOp.template?

variable {G T J σ κ ε β α ι ω : Type}

/-- A submission is processed by the job; what a returned share denotes is kept. -/
def PoolJob.submit (p : PoolChain G T J σ κ ε β α) (context : WorkerContext) (submission : σ)
    (entry : PoolJob J κ α) : PoolJob J κ α :=
  match p.process entry.job context submission entry.submissions with
  | (.error _, job, submissions) => ⟨job, submissions, entry.accepted⟩
  | (.ok _, job, submissions) =>
    ⟨job, submissions, (p.denote entry.job context submission).toList ++ entry.accepted⟩

namespace PoolState

section Steps

variable (p : PoolChain G T J σ κ ε β α) (s : PoolState G J κ α)

/-- No job, and no connection. -/
def initial (shared : G) (provider : ExtraNonceProvider) : PoolState G J κ α :=
  ⟨shared, provider, fun _ => none, []⟩

/-- The shares that were accepted. -/
def accepted : List α := s.jobs.flatMap PoolJob.accepted

/-- Replace a connection. -/
def set (worker : Nat) (connection : PoolWorker) : PoolState G J κ α :=
  { s with workers := Function.update s.workers worker (some connection) }

/-- `AddJob`: a job is kept once, and the oldest ones are dropped. -/
def addJob (validJobs : List Nat) (n : Nat) : List Nat :=
  let validJobs := if n ∈ validJobs then validJobs else validJobs ++ [n]
  validJobs.drop (validJobs.length - p.maxActiveJobs)

/-- The jobs that a worker keeps, with their numbers. -/
def kept (connection : PoolWorker) : List (Nat × J) :=
  connection.validJobs.filterMap fun n => (s.jobs[n]?).map fun entry => (n, entry.job)

/-- A template may make a new job. -/
def updateJob (template : T) : PoolState G J κ α :=
  match p.updateJob s.shared (s.jobs.getLast?.map PoolJob.job) template with
  | (shared, none) => { s with shared := shared }
  | (shared, some job) => { s with shared := shared, jobs := s.jobs ++ [⟨job, [], []⟩] }

/-- A submission is processed by the job it means; without one, nothing happens. -/
def submit (connection : PoolWorker) (submission : σ) : PoolState G J κ α :=
  match p.getJob connection.userAgent (s.kept connection) submission with
  | none => s
  | some n =>
    { s with jobs := s.jobs.modify n (PoolJob.submit p connection.context submission) }

/-- One step; only connected workers can do something, and only existing jobs are sent. -/
def step : PoolOp T σ → Option (PoolState G J κ α)
  | .updateJob template => some (s.updateJob p template)
  | .connect worker difficulty => some (s.set worker ⟨⟨none, difficulty, none, false⟩, none, []⟩)
  | .subscribe worker userAgent =>
    (s.workers worker).map fun connection =>
      { s.set worker { connection with
          context := { connection.context with extraNonce1 := some s.provider.next.1 }
          userAgent := userAgent } with
        provider := s.provider.next.2 }
  | .setDifficulty worker difficulty varDiffUpdated =>
    (s.workers worker).map fun connection =>
      s.set worker { connection with
        context := { connection.context with
          difficulty := difficulty
          previousDifficulty := some connection.context.difficulty
          varDiffUpdated := varDiffUpdated } }
  | .sendJob worker =>
    if s.jobs = [] then none
    else (s.workers worker).map fun connection =>
      s.set worker { connection with
        validJobs := addJob p connection.validJobs (s.jobs.length - 1) }
  | .submit worker submission =>
    (s.workers worker).map fun connection => s.submit p connection submission

end Steps

end PoolState

/-- A submission fails and registers nothing, or can be read and registers its own new key. What
identifies a job does not change. What can be read is valid, and valid shares of one job that
are the same work have the same key. -/
structure PoolChain.Sound (p : PoolChain G T J σ κ ε β α) (ident : J → ι) (key : α → κ)
    (work : α → ω) (Valid : ι → α → Prop) : Prop where
  ident_process : ∀ job context submission keys,
    ident (p.process job context submission keys).2.1 = ident job
  process_cases : ∀ job context submission keys,
    (∃ e job', p.process job context submission keys = (.error e, job', keys)) ∨
      ∃ a, p.denote job context submission = some a ∧ key a ∉ keys ∧
        (p.process job context submission keys).2.2 = key a :: keys
  valid : ∀ {job context submission a}, p.denote job context submission = some a →
    Valid (ident job) a
  key_eq : ∀ {i a b}, Valid i a → Valid i b → work b = work a → key b = key a

section Invariant

variable {p : PoolChain G T J σ κ ε β α} {ident : J → ι} {key : α → κ} {work : α → ω}
  {Valid : ι → α → Prop}

/-- The accepted shares of a job are valid, and no work was accepted twice. -/
structure PoolJob.Inv (ident : J → ι) (key : α → κ) (work : α → ω) (Valid : ι → α → Prop)
    (entry : PoolJob J κ α) : Prop where
  valid : ∀ a ∈ entry.accepted, Valid (ident entry.job) a
  once : CreditedOnce entry.submissions (entry.accepted.map fun a => (key a, work a))

theorem PoolJob.ident_submit (hsound : p.Sound ident key work Valid) (context : WorkerContext)
    (submission : σ) (entry : PoolJob J κ α) :
    ident (entry.submit p context submission).job = ident entry.job := by
  have hident := hsound.ident_process entry.job context submission entry.submissions
  rw [PoolJob.submit]
  split
  · rename_i hresult
    rwa [hresult] at hident
  · rename_i hresult
    rwa [hresult] at hident

/-- A share that is kept is valid, and its key was new. -/
theorem PoolJob.Inv.submit (hsound : p.Sound ident key work Valid) {entry : PoolJob J κ α}
    (h : entry.Inv ident key work Valid) (context : WorkerContext) (submission : σ) :
    (entry.submit p context submission).Inv ident key work Valid := by
  have hident := entry.ident_submit hsound context submission
  rcases hsound.process_cases entry.job context submission entry.submissions with
    ⟨e, job', hresult⟩ | ⟨a, hdenote, hnew, hkeys⟩
  · rw [PoolJob.submit, hresult] at hident ⊢
    exact ⟨fun a ha => hident ▸ h.valid a ha, h.once⟩
  rcases hresult : p.process entry.job context submission entry.submissions with
    ⟨result, job', keys⟩
  rw [hresult] at hkeys
  obtain rfl : keys = key a :: entry.submissions := hkeys
  rw [PoolJob.submit, hresult] at hident ⊢
  cases result with
  | error e => exact ⟨fun b hb => hident ▸ h.valid b hb, h.once.register _⟩
  | ok share =>
    have hvalid : Valid (ident entry.job) a := hsound.valid hdenote
    simp only [hdenote, Option.toList_some, List.singleton_append] at hident ⊢
    refine ⟨?_, h.once.credit hnew fun e he hwork => ?_⟩
    · rw [hident, List.forall_mem_cons]
      exact ⟨hvalid, h.valid⟩
    · obtain ⟨b, hb, rfl⟩ := List.mem_map.mp he
      exact hsound.key_eq hvalid (h.valid b hb) hwork

end Invariant

namespace PoolState

section Jobs

variable {p : PoolChain G T J σ κ ε β α} {s s' : PoolState G J κ α}

/-- What identifies the jobs, the oldest first. -/
def idents (ident : J → ι) (s : PoolState G J κ α) : List ι :=
  s.jobs.map fun entry => ident entry.job

/-- What a step does to the jobs: nothing, or one is added, or one processes a submission. -/
theorem step_jobs {op : PoolOp T σ} (h : s.step p op = some s') :
    s'.jobs = s.jobs ∨
      (∃ template job, op = .updateJob template ∧
        (p.updateJob s.shared (s.jobs.getLast?.map PoolJob.job) template).2 = some job ∧
        s'.jobs = s.jobs ++ [⟨job, [], []⟩]) ∨
      ∃ n context submission, s'.jobs = s.jobs.modify n (PoolJob.submit p context submission) := by
  cases op with
  | updateJob template =>
    cases h
    rw [updateJob]
    rcases hjob : p.updateJob s.shared (s.jobs.getLast?.map PoolJob.job) template with
      ⟨shared, _ | job⟩
    · exact .inl rfl
    · exact .inr (.inl ⟨template, job, rfl, by rw [hjob], rfl⟩)
  | connect worker difficulty =>
    cases h
    exact .inl rfl
  | subscribe worker userAgent =>
    obtain ⟨connection, -, rfl⟩ := Option.map_eq_some_iff.mp h
    exact .inl rfl
  | setDifficulty worker difficulty varDiffUpdated =>
    obtain ⟨connection, -, rfl⟩ := Option.map_eq_some_iff.mp h
    exact .inl rfl
  | sendJob worker =>
    rw [step] at h
    split at h
    · cases h
    · obtain ⟨connection, -, rfl⟩ := Option.map_eq_some_iff.mp h
      exact .inl rfl
  | submit worker submission =>
    obtain ⟨connection, -, rfl⟩ := Option.map_eq_some_iff.mp h
    rw [submit]
    split
    · exact .inl rfl
    · exact .inr (.inr ⟨_, _, _, rfl⟩)

variable {ident : J → ι} {key : α → κ} {work : α → ω} {Valid : ι → α → Prop} {shared : G}
  {provider : ExtraNonceProvider} {ops : List (PoolOp T σ)}

/-- A step keeps what identifies the jobs, or adds a job to them. -/
theorem idents_step (hsound : p.Sound ident key work Valid) {op : PoolOp T σ}
    (h : s.step p op = some s') :
    s'.idents ident = s.idents ident ∨
      ∃ template job, op = .updateJob template ∧
        (p.updateJob s.shared (s.jobs.getLast?.map PoolJob.job) template).2 = some job ∧
        s'.idents ident = s.idents ident ++ [ident job] := by
  rcases step_jobs h with hjobs | ⟨template, job, hop, hjob, hjobs⟩ |
    ⟨n, context, submission, hjobs⟩
  · exact .inl (by rw [idents, hjobs, idents])
  · refine .inr ⟨template, job, hop, hjob, ?_⟩
    simp only [idents, hjobs, List.map_append, List.map_cons, List.map_nil]
  · refine .inl (List.ext_getElem? fun i => ?_)
    simp only [idents, hjobs, List.getElem?_map, List.getElem?_modify]
    by_cases hi : n = i
    · cases s.jobs[i]? <;> simp [hi, PoolJob.ident_submit hsound]
    · simp [hi]

/-- Every job was made of a template of the run. -/
theorem made_of_run (hsound : p.Sound ident key work Valid) {Made : ι → Prop}
    (hmade : ∀ shared current template job, template ∈ templates ops →
      (p.updateJob shared current template).2 = some job → Made (ident job))
    (hrun : run (step p) (initial shared provider) ops = some s) :
    ∀ i ∈ s.idents ident, Made i := by
  refine run_invariant (fun s => ∀ i ∈ s.idents ident, Made i) (fun s op s' h hop hstep => ?_)
    (by simp [idents, initial]) ((meets_true (step p) _ ops).and_forall fun op hop => hop) hrun
  rcases idents_step hsound hstep with heq | ⟨template, job, rfl, hjob, heq⟩
  · rwa [heq]
  · rw [heq, List.forall_mem_append, List.forall_mem_singleton]
    exact ⟨h, hmade _ _ template job (List.mem_filterMap.mpr ⟨_, hop.1, rfl⟩) hjob⟩

/-- What relates every new job to the current one relates all jobs in the order in which they
were made. -/
theorem ordered_of_run (hsound : p.Sound ident key work Valid) {R : ι → ι → Prop} [IsTrans ι R]
    (hnew : ∀ shared current template job,
      (p.updateJob shared (some current) template).2 = some job → R (ident current) (ident job))
    (hrun : run (step p) (initial shared provider) ops = some s) :
    (s.idents ident).Pairwise R := by
  refine run_preserves (fun s => (s.idents ident).Pairwise R) (fun s op s' h hstep => ?_)
    List.Pairwise.nil hrun
  rcases idents_step hsound hstep with heq | ⟨template, job, rfl, hjob, heq⟩
  · rwa [heq]
  rw [heq]
  rcases List.eq_nil_or_concat s.jobs with hnil | ⟨older, current, hlast⟩
  · simp [idents, hnil]
  -- the older jobs are related to the current one, and that to the new one
  rw [List.concat_eq_append] at hlast
  rw [hlast, List.getLast?_concat, Option.map_some] at hjob
  have hcurrent := hnew _ _ template job hjob
  have hsplit : s.idents ident =
      older.map (fun entry => ident entry.job) ++ [ident current.job] := by
    simp only [idents, hlast, List.map_append, List.map_cons, List.map_nil]
  rw [hsplit] at h ⊢
  refine List.pairwise_append.mpr ⟨h, List.pairwise_singleton _ _, fun i hi j hj => ?_⟩
  rw [List.mem_singleton.mp hj]
  rcases List.mem_append.mp hi with hi | hi
  · have hlater := (List.pairwise_append.mp h).2.2 i hi _ (List.mem_singleton.mpr rfl)
    exact IsTrans.trans _ _ _ hlater hcurrent
  · rwa [List.mem_singleton.mp hi]

/-- No job of a run has accepted work twice. -/
theorem jobs_of_run (hsound : p.Sound ident key work Valid)
    (hrun : run (step p) (initial shared provider) ops = some s) :
    ∀ entry ∈ s.jobs, entry.Inv ident key work Valid := by
  refine run_preserves (fun s => ∀ entry ∈ s.jobs, entry.Inv ident key work Valid)
    (fun s op s' h hstep => ?_) (by simp [initial]) hrun
  rcases step_jobs hstep with hjobs | ⟨template, job, -, -, hjobs⟩ |
    ⟨n, context, submission, hjobs⟩
  · rwa [hjobs]
  · rw [hjobs, List.forall_mem_append, List.forall_mem_singleton]
    exact ⟨h, by simp, creditedOnce_nil _⟩
  · intro entry hentry
    obtain ⟨i, hi⟩ := List.mem_iff_getElem?.mp hentry
    rw [hjobs, List.getElem?_modify] at hi
    obtain ⟨before, hbefore, rfl⟩ := Option.map_eq_some_iff.mp hi
    have hinv := h before (List.mem_of_getElem? hbefore)
    by_cases hn : n = i
    · rw [if_pos hn]
      exact hinv.submit hsound context submission
    · rwa [if_neg hn]

/-- **No work is accepted twice, under whichever jobs**, if valid shares of different jobs are
different work. -/
theorem accepted_nodup (hsound : p.Sound ident key work Valid)
    (hrun : run (step p) (initial shared provider) ops = some s)
    (hseparate : (s.idents ident).Pairwise fun i j =>
      ∀ a b, Valid i a → Valid j b → work a ≠ work b) : (s.accepted.map work).Nodup := by
  have hjobs := jobs_of_run hsound hrun
  rw [accepted, List.map_flatMap, List.nodup_flatMap]
  constructor
  · intro entry hentry
    have hnodup := (hjobs entry hentry).once.nodup
    rwa [List.map_map] at hnodup
  · refine (List.pairwise_map.mp hseparate).imp_of_mem fun {e f} he hf hne => ?_
    apply List.disjoint_left.mpr
    intro w hw hw'
    obtain ⟨a, ha, rfl⟩ := List.mem_map.mp hw
    obtain ⟨b, hb, hwork⟩ := List.mem_map.mp hw'
    exact hne a b ((hjobs e he).valid a ha) ((hjobs f hf).valid b hb) hwork.symm

end Jobs

end PoolState

end HashStorm.Blockchain
