import HashStorm.Blockchain.Bitcoin.Job
import HashStorm.Blockchain.ExtraNonceProvider
import HashStorm.Lib.Machine
import HashStorm.Lib.Registry

/-!
# The submissions of a job

Workers connect, get an extranonce and other difficulties, and submit shares of
one job, in any order. A chain looks up the duplicate key of a submission and, if
the key is new, registers it and judges the work. No work is accepted twice if
work that was accepted before has the same key.
-/

namespace HashStorm.Blockchain

open Stratum Machine Registry

/-- What shares read of the context of a worker. -/
structure WorkerContext where
  extraNonce1 : Option Text
  difficulty : Rat
  previousDifficulty : Option Rat
  /-- Whether `VarDiff?.LastUpdate` is set. -/
  varDiffUpdated : Bool
  deriving DecidableEq, Repr

/-- The difficulty a share is accepted for, which may be that before the last retarget. -/
def acceptedDifficulty (context : WorkerContext) (shareDiff : Rat) (isBlockCandidate : Bool) :
    Except Failure Rat :=
  if !isBlockCandidate && Bitcoin.lowRatio shareDiff context.difficulty then
    match context.varDiffUpdated, context.previousDifficulty with
    | true, some previous =>
      if Bitcoin.lowRatio shareDiff previous then
        .error (.stratum .lowDifficultyShare "low difficulty share")
      else .ok previous
    | _, _ => .error (.stratum .lowDifficultyShare "low difficulty share")
  else .ok context.difficulty

/-- `TryAdd` of the registered keys. -/
def tryAdd {κ : Type} [DecidableEq κ] (submissions : List κ) (key : κ) : Option (List κ) :=
  if key ∈ submissions then none else some (key :: submissions)

/-- How a chain processes the submissions of a job. -/
structure ShareProcessor (σ κ β α : Type) where
  /-- `ProcessShare` of a worker: what it returns, and the registered keys afterwards. -/
  process : Nat → WorkerContext → σ → List κ → Except Failure β × List κ
  /-- What a submission of a worker denotes, if it can be read. -/
  denote : Nat → WorkerContext → σ → Option α

variable {σ κ β α ω : Type}

/-- The workers of a pool, and the registered keys and accepted shares of one of its jobs. -/
structure JobState (κ α : Type) where
  provider : ExtraNonceProvider
  contexts : Nat → Option WorkerContext
  submissions : List κ
  accepted : List α

/-- A new job; no worker is connected. -/
def JobState.initial (provider : ExtraNonceProvider) : JobState κ α :=
  ⟨provider, fun _ => none, [], []⟩

/-- What happens to a pool: a worker connects, anew or again, or gets an extranonce, or another
difficulty, or submits a share. -/
inductive JobOp (σ : Type) where
  | connect (worker : Nat) (difficulty : Rat)
  | subscribe (worker : Nat)
  | setDifficulty (worker : Nat) (difficulty : Rat) (varDiffUpdated : Bool)
  | submit (worker : Nat) (submission : σ)

/-- Replace the context of a worker. -/
def JobState.set (s : JobState κ α) (worker : Nat) (context : WorkerContext) : JobState κ α :=
  { s with contexts := Function.update s.contexts worker (some context) }

/-- A submission is processed; what a returned share denotes is kept. -/
def JobState.submit (p : ShareProcessor σ κ β α) (s : JobState κ α) (worker : Nat)
    (context : WorkerContext) (submission : σ) : JobState κ α :=
  match p.process worker context submission s.submissions with
  | (.error _, submissions) => { s with submissions := submissions }
  | (.ok _, submissions) =>
    { s with
      submissions := submissions
      accepted := (p.denote worker context submission).toList ++ s.accepted }

/-- One step; only connected workers can do something. -/
def JobState.step (p : ShareProcessor σ κ β α) (s : JobState κ α) :
    JobOp σ → Option (JobState κ α)
  | .connect worker difficulty => some (s.set worker ⟨none, difficulty, none, false⟩)
  | .subscribe worker =>
    (s.contexts worker).map fun context =>
      { s.set worker { context with extraNonce1 := some s.provider.next.1 } with
        provider := s.provider.next.2 }
  | .setDifficulty worker difficulty varDiffUpdated =>
    (s.contexts worker).map fun context =>
      s.set worker { context with
        difficulty := difficulty
        previousDifficulty := some context.difficulty
        varDiffUpdated := varDiffUpdated }
  | .submit worker submission =>
    (s.contexts worker).map fun context => s.submit p worker context submission

/-- A condition on submissions, by the shares that were accepted before and by the worker. -/
abbrev Condition (σ α : Type) := List α → Nat → WorkerContext → σ → Prop

/-- A submission meets the condition. -/
def JobOp.Safe (safe : Condition σ α) (s : JobState κ α) : JobOp σ → Prop
  | .submit worker submission =>
    ∀ context ∈ s.contexts worker, safe s.accepted worker context submission
  | _ => True

instance (safe : Condition σ α) [∀ as w c x, Decidable (safe as w c x)] (s : JobState κ α) :
    (op : JobOp σ) → Decidable (op.Safe safe s)
  | .submit worker submission => inferInstanceAs (Decidable
    (∀ context ∈ s.contexts worker, safe s.accepted worker context submission))
  | .connect _ _ | .subscribe _ | .setDifficulty _ _ _ => inferInstanceAs (Decidable True)

/-- The extranonce of a worker, if there is one, is a lower-case text of a fixed length. -/
def Numbered (bytes : Nat) (context : WorkerContext) : Prop :=
  ∀ e, context.extraNonce1 = some e → e.length = bytes * 2 ∧ ∀ c ∈ e, LowerHexDigit c

/-- A submission fails and registers nothing, or can be read and registers its own new key.
Valid shares of the same work have the same key if the later one meets the condition. -/
structure ShareProcessor.Sound (p : ShareProcessor σ κ β α) (key : α → κ) (work : α → ω)
    (Valid : Nat → α → Prop) (safe : Condition σ α) : Prop where
  process_cases : ∀ worker context submission keys,
    (∃ e, p.process worker context submission keys = (.error e, keys)) ∨
      ∃ a, p.denote worker context submission = some a ∧ key a ∉ keys ∧
        (p.process worker context submission keys).2 = key a :: keys
  valid : ∀ {bytes worker context submission keys share a}, Numbered bytes context →
    (p.process worker context submission keys).1 = .ok share →
      p.denote worker context submission = some a → Valid bytes a
  key_eq : ∀ {bytes as worker context submission a b}, safe as worker context submission →
    p.denote worker context submission = some a → Valid bytes a → b ∈ as → Valid bytes b →
      work b = work a → key b = key a

section Invariant

variable {p : ShareProcessor σ κ β α} {key : α → κ} {work : α → ω} {Valid : Nat → α → Prop}
  {safe : Condition σ α} {s s' : JobState κ α}

/-- The extranonces are numbered, the accepted shares are valid, and none was accepted twice. -/
structure JobState.Inv (key : α → κ) (work : α → ω) (Valid : Nat → α → Prop)
    (s : JobState κ α) : Prop where
  numbered : ∀ worker context, s.contexts worker = some context →
    Numbered s.provider.extranonceBytes context
  valid : ∀ a ∈ s.accepted, Valid s.provider.extranonceBytes a
  once : CreditedOnce s.submissions (s.accepted.map fun a => (key a, work a))

theorem JobState.Inv.set {context : WorkerContext} (h : s.Inv key work Valid) (worker : Nat)
    (hcontext : Numbered s.provider.extranonceBytes context) :
    (s.set worker context).Inv key work Valid := by
  refine ⟨fun v c hc => ?_, h.valid, h.once⟩
  by_cases hv : v = worker
  · subst hv
    simp only [JobState.set, Function.update_self, Option.some.injEq] at hc
    exact hc ▸ hcontext
  · simp only [JobState.set, Function.update_of_ne hv] at hc
    exact h.numbered v c hc

/-- A share that is kept is valid, and its key was new. -/
theorem JobState.Inv.submit (hsound : p.Sound key work Valid safe) (h : s.Inv key work Valid)
    {worker : Nat} {context : WorkerContext} {submission : σ}
    (hcontext : s.contexts worker = some context)
    (hsafe : safe s.accepted worker context submission) :
    (s.submit p worker context submission).Inv key work Valid := by
  rw [JobState.submit]
  rcases hsound.process_cases worker context submission s.submissions with
    ⟨e, hresult⟩ | ⟨a, hdenote, hnew, hkeys⟩
  · rw [hresult]
    exact h
  rcases hresult : p.process worker context submission s.submissions with ⟨result, keys⟩
  rw [hresult] at hkeys
  obtain rfl : keys = key a :: s.submissions := hkeys
  cases result with
  | error e => exact ⟨h.numbered, h.valid, h.once.register _⟩
  | ok share =>
    have hvalid : Valid s.provider.extranonceBytes a :=
      hsound.valid (h.numbered worker context hcontext) (congrArg Prod.fst hresult) hdenote
    simp only [hdenote, Option.toList_some, List.singleton_append]
    refine ⟨h.numbered, ?_, h.once.credit hnew fun e he hwork => ?_⟩
    · intro b hb
      rcases List.mem_cons.mp hb with rfl | hb
      · exact hvalid
      · exact h.valid b hb
    · obtain ⟨b, hb, rfl⟩ := List.mem_map.mp he
      exact hsound.key_eq hsafe hdenote hvalid hb (h.valid b hb) hwork

theorem JobState.Inv.step (hsound : p.Sound key work Valid safe) (h : s.Inv key work Valid)
    {op : JobOp σ} (hsafe : op.Safe safe s) (hstep : s.step p op = some s') :
    s'.Inv key work Valid := by
  cases op with
  | connect worker difficulty =>
    cases hstep
    exact h.set worker (by simp [Numbered])
  | subscribe worker =>
    obtain ⟨context, -, rfl⟩ := Option.map_eq_some_iff.mp hstep
    have hset : (s.set worker { context with extraNonce1 := some s.provider.next.1 }).Inv key work
        Valid := h.set worker fun e he => Option.some.inj he ▸ s.provider.next_spec
    exact ⟨hset.numbered, hset.valid, hset.once⟩
  | setDifficulty worker difficulty varDiffUpdated =>
    obtain ⟨context, hcontext, rfl⟩ := Option.map_eq_some_iff.mp hstep
    exact h.set worker (h.numbered worker context hcontext)
  | submit worker submission =>
    obtain ⟨context, hcontext, rfl⟩ := Option.map_eq_some_iff.mp hstep
    exact h.submit hsound hcontext (hsafe context hcontext)

/-- **Sound processing accepts no work twice.** -/
theorem ShareProcessor.Sound.accepted_nodup (hsound : p.Sound key work Valid safe)
    {provider : ExtraNonceProvider} {ops : List (JobOp σ)}
    (hrun : run (JobState.step p) (JobState.initial provider) ops = some s)
    (hsafe : Meets (JobState.step p) (fun s op => op.Safe safe s) (JobState.initial provider)
      ops) : (s.accepted.map work).Nodup := by
  have hinitial : (JobState.initial provider).Inv key work Valid :=
    ⟨by simp [JobState.initial], by simp [JobState.initial], creditedOnce_nil _⟩
  have hinv : s.Inv key work Valid := run_invariant (JobState.Inv key work Valid)
    (fun s op s' h hop hstep => h.step hsound hop hstep) hinitial hsafe hrun
  have hnodup := hinv.once.nodup
  rwa [List.map_map] at hnodup

end Invariant

end HashStorm.Blockchain
