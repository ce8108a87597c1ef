import HashStorm.Contracts.ShareEvent
import HashStorm.Lib.Machine
import Mathlib.Data.List.Infix
import Mathlib.Tactic.Linarith

/-!
# The shutdown of the outbox writer

`ShareEventOutboxWriter.ExecuteAsync` takes events from the queue, fills a batch
and appends it. When the stopping token fires, a batch in hand is appended with a
token of its own, and what is left in the queue is drained once, by `ExecuteAsync`
or by `StopAsync`. `StopAsync` waits for `ExecuteAsync` before it drains, unless
its own token fires; the stopping token also fires when the start is aborted.
-/

namespace HashStorm.Outbox.Writer

open Contracts Machine

/-- The options the batches depend on, and the length of an event in JSON. -/
structure Options where
  writerFlushEvents : Int
  writerFlushBytes : Int
  jsonLength : ShareEvent → Nat

/-- Whether the queue is above its thresholds. -/
inductive Pressure where
  | normal
  | soft
  | critical
  deriving DecidableEq, Repr

/-- `GetDrainMultiplier`. -/
def getDrainMultiplier : Pressure → Int
  | .critical => 8
  | .soft => 4
  | .normal => 1

/-- The result of `int` arithmetic, which wraps around. -/
def toInt32 (n : Int) : Int := n.bmod (2 ^ 32)

variable (options : Options)

/-- The events in a batch that is not filled any further. -/
def maxEvents (pressure : Pressure) : Int :=
  max 1 (toInt32 (options.writerFlushEvents * getDrainMultiplier pressure))

/-- The bytes in a batch that is not filled any further. -/
def maxBytes (pressure : Pressure) : Int :=
  max 4096 (toInt32 (options.writerFlushBytes * getDrainMultiplier pressure))

/-- The new size of a batch in `AddToBatch`. -/
def addToBatch (bytes : Int) (e : ShareEvent) : Int :=
  toInt32 (bytes + max 128 (options.jsonLength e))

/-- What `ExecuteAsync` and `StopAsync` share: the queue, the flag of the drain, and the
batches that were appended. -/
structure Shared where
  queue : List ShareEvent
  shutdownDrainCompleted : Bool
  appends : List (List ShareEvent)
  deriving DecidableEq, Repr

/-- Where a caller stands in `DrainRemainingQueueDuringShutdownOnceAsync`. -/
inductive Drain where
  | gate
  | draining (batch : List ShareEvent)
  /-- `FlushDrainBatchDuringShutdownAsync`; the last batch was cut off by the empty queue. -/
  | appending (batch : List ShareEvent) (last : Bool)
  | ended
  | faulted
  deriving DecidableEq, Repr

/-- Where `ExecuteAsync` stands. -/
inductive Executing where
  /-- The task is not run yet. -/
  | scheduled
  /-- The task was cancelled before it was run. -/
  | skipped
  | looping
  | dequeuing
  | filling (batch : List ShareEvent) (bytes maxEvents maxBytes : Int)
  | flushing (batch : List ShareEvent)
  /-- `AppendAsync` with the stopping token. -/
  | appending (batch : List ShareEvent)
  /-- `FlushDequeuedBatchDuringShutdownAsync`, by `FlushBatchWithShutdownRecoveryAsync` or
  again by the handler of `ExecuteAsync`. -/
  | recovering (batch : List ShareEvent) (again : Bool)
  /-- The `finally` block. -/
  | drain (d : Drain)
  deriving DecidableEq, Repr

/-- Where `StopAsync` stands. -/
inductive Stopping where
  | running
  /-- In the `StopAsync` of the base class, which waits for `ExecuteAsync`. -/
  | waiting
  | drain (d : Drain)
  deriving DecidableEq, Repr

/-- The writer with its queue, the events that were enqueued, and those of them that were
enqueued before `StopAsync` was called. -/
structure State where
  shared : Shared
  stopping : Bool
  executing : Executing
  stop : Stopping
  sent : List ShareEvent
  beforeStop : List ShareEvent
  deriving DecidableEq, Repr

/-- The writer was started. -/
def State.initial : State := ⟨⟨[], false, []⟩, false, .scheduled, .running, [], []⟩

/-- What can happen. A step of `ExecuteAsync` or `StopAsync` says whether the token of the
call under way fires before the call succeeds. -/
inductive Op where
  | enqueue (e : ShareEvent)
  /-- The token of `StartAsync` fires. -/
  | abort
  | stop
  /-- The token of `StopAsync` fires. -/
  | giveUp
  | execute (cancelled : Bool) (pressure : Pressure)
  | stopAsync (cancelled : Bool)
  deriving DecidableEq, Repr

/-- A step of the drain. -/
def Shared.drain (s : Shared) (cancelled : Bool) : Drain → Option (Shared × Drain)
  | .gate =>
    some <|
      if s.shutdownDrainCompleted then (s, .ended)
      else ({ s with shutdownDrainCompleted := true }, .draining [])
  | .draining batch =>
    match s.queue with
    | [] => some (s, if batch = [] then .ended else .appending batch true)
    | e :: queue =>
      let batch := batch ++ [e]
      some ({ s with queue := queue },
        if max 1 options.writerFlushEvents ≤ batch.length then .appending batch false
        else .draining batch)
  | .appending batch last =>
    some <|
      if cancelled then (s, .faulted)
      else ({ s with appends := s.appends ++ [batch] }, if last then .ended else .draining [])
  | .ended | .faulted => none

/-- `ExecuteAsync` has come to its end. -/
def Executing.Ended (x : Executing) : Prop := x = .skipped ∨ x = .drain .ended ∨ x = .drain .faulted

instance : DecidablePred Executing.Ended := fun _ => inferInstanceAs (Decidable (_ ∨ _ ∨ _))

/-- A step of `ExecuteAsync`. -/
def State.execute (s : State) (cancelled : Bool) (pressure : Pressure) : Option State :=
  match s.executing with
  | .scheduled => some { s with executing := if s.stopping then .skipped else .looping }
  | .skipped => none
  | .looping => some { s with executing := if s.stopping then .drain .gate else .dequeuing }
  | .dequeuing =>
    if cancelled then
      if s.stopping then some { s with executing := .drain .gate } else none
    else
      match s.shared.queue with
      | [] => none
      | e :: queue =>
        some { s with
          shared := { s.shared with queue := queue }
          executing := .filling [e] (addToBatch options 0 e) (maxEvents options pressure)
            (maxBytes options pressure) }
  | .filling batch bytes maxEvents maxBytes =>
    if batch.length < maxEvents ∧ bytes < maxBytes then
      -- the timer of the batch and the stopping token both end the filling
      if cancelled then some { s with executing := .flushing batch }
      else
        match s.shared.queue with
        | [] => none
        | e :: queue =>
          some { s with
            shared := { s.shared with queue := queue }
            executing := .filling (batch ++ [e]) (addToBatch options bytes e) maxEvents maxBytes }
    else some { s with executing := .flushing batch }
  | .flushing batch =>
    -- a batch is never empty here, so its count is not asked for
    some { s with
      executing := if s.stopping then .recovering batch false else .appending batch }
  | .appending batch =>
    if cancelled then
      if s.stopping then some { s with executing := .recovering batch false } else none
    else
      some { s with
        shared := { s.shared with appends := s.shared.appends ++ [batch] }
        executing := .looping }
  | .recovering batch again =>
    if cancelled then
      -- a second failure leaves through the `finally` block
      some { s with executing := if again then .drain .gate else .recovering batch true }
    else
      some { s with
        shared := { s.shared with appends := s.shared.appends ++ [batch] }
        executing := if again then .drain .gate else .looping }
  | .drain d =>
    (s.shared.drain options cancelled d).map fun (shared, d) =>
      { s with shared := shared, executing := .drain d }

/-- A step of `StopAsync`. -/
def State.stopAsync (s : State) (cancelled : Bool) : Option State :=
  match s.stop with
  | .running => none
  | .waiting => if s.executing.Ended then some { s with stop := .drain .gate } else none
  | .drain d =>
    (s.shared.drain options cancelled d).map fun (shared, d) =>
      { s with shared := shared, stop := .drain d }

/-- One step of the writer, of its callers or of a token. -/
def step (s : State) : Op → Option State
  | .enqueue e =>
    some { s with
      shared := { s.shared with queue := s.shared.queue ++ [e] }
      sent := s.sent ++ [e]
      beforeStop := if s.stop = .running then s.beforeStop ++ [e] else s.beforeStop }
  | .abort => some { s with stopping := true }
  | .stop => if s.stop = .running then some { s with stopping := true, stop := .waiting } else none
  | .giveUp => if s.stop = .waiting then some { s with stop := .drain .gate } else none
  | .execute cancelled pressure => s.execute options cancelled pressure
  | .stopAsync cancelled => s.stopAsync options cancelled

/-- The events in hand. -/
def Drain.held : Drain → List ShareEvent
  | .draining batch | .appending batch _ => batch
  | .gate | .ended | .faulted => []

/-- The events in hand. -/
def Executing.held : Executing → List ShareEvent
  | .filling batch _ _ _ | .flushing batch | .appending batch | .recovering batch _ => batch
  | .drain d => d.held
  | .scheduled | .skipped | .looping | .dequeuing => []

/-- The events in hand. -/
def Stopping.held : Stopping → List ShareEvent
  | .drain d => d.held
  | .running | .waiting => []

/-- An append of the drain is under way. -/
def Drain.timed : Drain → Bool
  | .appending _ _ => true
  | _ => false

/-- An append with a token of its own is under way. -/
def Executing.timed : Executing → Bool
  | .recovering _ _ => true
  | .drain d => d.timed
  | _ => false

/-- An append with a token of its own is under way. -/
def Stopping.timed : Stopping → Bool
  | .drain d => d.timed
  | _ => false

/-- `StopAsync` is not given up before `ExecuteAsync` has ended, no append during the shutdown
outlasts its time, and no event comes between the drain of an aborted start and `StopAsync`. -/
def Op.Safe (s : State) : Op → Prop
  | .enqueue _ => s.stop = .running → s.shared.shutdownDrainCompleted = false
  | .giveUp => s.executing.Ended
  | .execute cancelled _ => cancelled = true → s.executing.timed = false
  | .stopAsync cancelled => cancelled = true → s.stop.timed = false
  | .abort | .stop => True

instance (s : State) (op : Op) : Decidable (op.Safe s) :=
  match op with
  | .enqueue _ | .execute _ _ | .stopAsync _ => inferInstanceAs (Decidable (_ → _))
  | .giveUp => inferInstanceAs (Decidable s.executing.Ended)
  | .abort | .stop => inferInstanceAs (Decidable True)

/-- What is known where a caller stands in the drain: the flag is set, and once the queue was
found empty the events are in the log or in hand. -/
def Drain.Ok (shared : Shared) (events : List ShareEvent) : Drain → Prop
  | .gate => True
  | .draining _ => shared.shutdownDrainCompleted = true
  | .appending batch last =>
    shared.shutdownDrainCompleted = true ∧
      (last = true → events <+: shared.appends.flatten ++ batch)
  | .ended => shared.shutdownDrainCompleted = true ∧ events <+: shared.appends.flatten
  | .faulted => False

/-- The invariant of safe runs. -/
structure Inv (s : State) : Prop where
  conserved : s.shared.appends.flatten ++ (s.executing.held ++ s.stop.held) ++ s.shared.queue =
    s.sent
  before : s.beforeStop <+: s.sent
  running : s.stop = .running → s.beforeStop = s.sent
  executing : ∀ d, s.executing = .drain d → d.Ok s.shared s.beforeStop
  stop : ∀ d, s.stop = .drain d → d.Ok s.shared s.beforeStop
  /-- The flag is set by a caller of the drain. -/
  flag : s.shared.shutdownDrainCompleted = true →
    (∃ d, s.executing = .drain d ∧ d ≠ .gate) ∨ ∃ d, s.stop = .drain d ∧ d ≠ .gate
  /-- `StopAsync` drains alone. -/
  alone : ∀ d, s.stop = .drain d → s.executing.Ended

section Drain

variable {options} {shared shared' : Shared} {cancelled : Bool} {d d' : Drain}

/-- The drain moves events from the queue to the log, in order. -/
theorem conserved_drain (h : shared.drain options cancelled d = some (shared', d'))
    (htimed : cancelled = true → d.timed = false) :
    shared'.appends.flatten ++ d'.held ++ shared'.queue =
      shared.appends.flatten ++ d.held ++ shared.queue := by
  cases d with
  | gate =>
    simp only [Shared.drain, Option.some.injEq] at h
    split at h <;> cases h <;> rfl
  | draining batch =>
    simp only [Shared.drain] at h
    split at h
    · split at h <;> cases h <;> simp_all [Drain.held]
    · rename_i e queue hqueue
      split at h <;> cases h <;> simp [Drain.held, hqueue]
  | appending batch last =>
    simp only [Shared.drain, Option.some.injEq] at h
    split at h
    · rename_i hcancelled
      cases htimed hcancelled
    · cases last <;> cases h <;> simp [Drain.held]
  | ended => cases h
  | faulted => cases h

/-- A step of the drain keeps what is known of it. -/
theorem ok_drain (h : shared.drain options cancelled d = some (shared', d'))
    (htimed : cancelled = true → d.timed = false) {events : List ShareEvent}
    (hok : d.Ok shared events)
    (hgate : d = .gate → shared.shutdownDrainCompleted = true → events <+: shared.appends.flatten)
    (hevents : events <+: shared.appends.flatten ++ d.held ++ shared.queue) :
    d'.Ok shared' events ∧ d' ≠ .gate := by
  cases d with
  | gate =>
    simp only [Shared.drain, Option.some.injEq] at h
    split at h
    · rename_i hflag
      cases h
      exact ⟨⟨hflag, hgate rfl hflag⟩, by simp⟩
    · cases h
      exact ⟨rfl, by simp⟩
  | draining batch =>
    simp only [Shared.drain] at h
    split at h
    · rename_i hqueue
      rw [hqueue, List.append_nil] at hevents
      split at h
      · rename_i hbatch
        cases h
        rw [Drain.held, hbatch, List.append_nil] at hevents
        exact ⟨⟨hok, hevents⟩, by simp⟩
      · cases h
        exact ⟨⟨hok, fun _ => hevents⟩, by simp⟩
    · split at h
      · cases h
        exact ⟨⟨hok, by simp⟩, by simp⟩
      · cases h
        exact ⟨hok, by simp⟩
  | appending batch last =>
    simp only [Shared.drain, Option.some.injEq] at h
    split at h
    · rename_i hcancelled
      cases htimed hcancelled
    · cases h
      cases last with
      | true =>
        refine ⟨⟨hok.1, ?_⟩, by simp⟩
        simpa using hok.2 rfl
      | false => exact ⟨hok.1, by simp⟩
  | ended => cases h
  | faulted => cases h

/-- The drain only adds to the log. -/
theorem appends_drain (h : shared.drain options cancelled d = some (shared', d')) :
    shared.appends.flatten <+: shared'.appends.flatten := by
  cases d with
  | gate =>
    simp only [Shared.drain, Option.some.injEq] at h
    split at h <;> cases h <;> exact List.prefix_rfl
  | draining batch =>
    simp only [Shared.drain] at h
    split at h <;> cases h <;> exact List.prefix_rfl
  | appending batch last =>
    simp only [Shared.drain, Option.some.injEq] at h
    split at h <;> cases h <;> simp
  | ended => cases h
  | faulted => cases h

theorem Drain.Ok.flag {events : List ShareEvent} (h : d.Ok shared events) (hd : d ≠ .gate) :
    shared.shutdownDrainCompleted = true := by
  cases d with
  | gate => exact absurd rfl hd
  | draining batch => exact h
  | appending batch last => exact h.1
  | ended => exact h.1
  | faulted => cases h

end Drain

section Steps

variable {options} {s s' : State}

theorem inv_initial : Inv State.initial := by
  constructor <;> simp [State.initial, Executing.held, Stopping.held]

theorem Inv.stop_ne_drain (h : Inv s) (hended : ¬s.executing.Ended) (d : Drain) :
    s.stop ≠ .drain d :=
  fun hd => hended (h.alone d hd)

theorem Inv.held_stop (h : Inv s) (hended : ¬s.executing.Ended) : s.stop.held = [] := by
  cases hs : s.stop with
  | drain d => exact absurd hs (h.stop_ne_drain hended d)
  | _ => rfl

/-- `StopAsync` comes to the drain when `ExecuteAsync` has ended. -/
theorem Inv.gate (h : Inv s) (hs : s.stop = .waiting) (hended : s.executing.Ended) :
    Inv { s with stop := .drain .gate } := by
  refine ⟨?_, h.before, ?_, h.executing, ?_, ?_, fun _ _ => hended⟩
  · have hconserved := h.conserved
    rwa [hs] at hconserved
  · intro hrunning
    cases hrunning
  · rintro d ⟨rfl⟩
    trivial
  · intro hflag
    rcases h.flag hflag with hx | ⟨d, hd, -⟩
    · exact .inl hx
    · cases hs.symm.trans hd

/-- A step of `ExecuteAsync` outside the drain: events move from the queue to the log. -/
theorem Inv.move (h : Inv s) (hended : ¬s.executing.Ended) (hdrain : ∀ d, s.executing ≠ .drain d)
    {queue : List ShareEvent} {appends : List (List ShareEvent)} {executing : Executing}
    (hnext : ∀ d, executing = .drain d → d = .gate)
    (hconserved : appends.flatten ++ executing.held ++ queue =
      s.shared.appends.flatten ++ s.executing.held ++ s.shared.queue) :
    Inv { s with
      shared := { s.shared with queue := queue, appends := appends }
      executing := executing } := by
  have hstop := h.stop_ne_drain hended
  refine ⟨?_, h.before, h.running, ?_, fun d hd => absurd hd (hstop d), ?_,
    fun d hd => absurd hd (hstop d)⟩
  · have hsent := h.conserved
    rw [h.held_stop hended, List.append_nil] at hsent ⊢
    rw [hconserved, hsent]
  · intro d hd
    rw [hnext d hd]
    trivial
  · intro hflag
    rcases h.flag hflag with ⟨d, hd, -⟩ | ⟨d, hd, -⟩
    · exact absurd hd (hdrain d)
    · exact absurd hd (hstop d)

/-- A step of the drain in `ExecuteAsync`. -/
theorem Inv.drain (h : Inv s) {d d' : Drain} (hx : s.executing = .drain d) {cancelled : Bool}
    {shared : Shared} (htimed : cancelled = true → d.timed = false)
    (hdrain : s.shared.drain options cancelled d = some (shared, d')) :
    Inv { s with shared := shared, executing := .drain d' } := by
  have hended : ¬s.executing.Ended := by
    rw [hx]
    rintro (hd | hd | hd) <;> cases hd <;> cases hdrain
  have hstop := h.stop_ne_drain hended
  have hheld := h.held_stop hended
  have hconserved := h.conserved
  rw [hx, hheld, List.append_nil, Executing.held] at hconserved
  have hbefore := h.before
  rw [← hconserved] at hbefore
  have hgate : d = .gate → s.shared.shutdownDrainCompleted = true →
      s.beforeStop <+: s.shared.appends.flatten := by
    intro hd hflag
    rcases h.flag hflag with ⟨d', hd', hne⟩ | ⟨d', hd', -⟩
    · exact absurd (Executing.drain.inj (hd'.symm.trans hx) ▸ hd) hne
    · exact absurd hd' (hstop d')
  obtain ⟨hok, hne⟩ := ok_drain hdrain htimed (h.executing d hx) hgate hbefore
  refine ⟨?_, h.before, h.running, ?_, fun d hd => absurd hd (hstop d),
    fun _ => .inl ⟨d', rfl, hne⟩, fun d hd => absurd hd (hstop d)⟩
  · rw [hheld, List.append_nil, Executing.held, conserved_drain hdrain htimed, hconserved]
  · rintro d'' ⟨rfl⟩
    exact hok

theorem Inv.execute (h : Inv s) {cancelled : Bool} {pressure : Pressure}
    (htimed : cancelled = true → s.executing.timed = false)
    (hstep : s.execute options cancelled pressure = some s') : Inv s' := by
  cases hx : s.executing with
  | scheduled =>
    simp only [State.execute, hx, Option.some.injEq] at hstep
    subst hstep
    refine h.move (by simp [hx, Executing.Ended]) (by simp [hx]) ?_ ?_
    · intro d hd
      split at hd <;> cases hd
    · split <;> simp [hx, Executing.held]
  | skipped => simp [State.execute, hx] at hstep
  | looping =>
    simp only [State.execute, hx, Option.some.injEq] at hstep
    subst hstep
    refine h.move (by simp [hx, Executing.Ended]) (by simp [hx]) ?_ ?_
    · intro d hd
      split at hd <;> cases hd
      rfl
    · split <;> simp [hx, Executing.held, Drain.held]
  | dequeuing =>
    simp only [State.execute, hx] at hstep
    split at hstep
    · split at hstep
      · cases hstep
        exact h.move (by simp [hx, Executing.Ended]) (by simp [hx])
          (fun d hd => (Executing.drain.inj hd).symm) (by simp [hx, Executing.held, Drain.held])
      · cases hstep
    · split at hstep
      · cases hstep
      · rename_i e queue hqueue
        cases hstep
        exact h.move (by simp [hx, Executing.Ended]) (by simp [hx]) (by simp)
          (by simp [hx, Executing.held, hqueue])
  | filling batch bytes maxEvents maxBytes =>
    have hflush : Inv { s with executing := .flushing batch } :=
      h.move (by simp [hx, Executing.Ended]) (by simp [hx]) (by simp)
        (by simp [hx, Executing.held])
    simp only [State.execute, hx] at hstep
    split at hstep
    · split at hstep
      · cases hstep
        exact hflush
      · split at hstep
        · cases hstep
        · rename_i e queue hqueue
          cases hstep
          exact h.move (by simp [hx, Executing.Ended]) (by simp [hx]) (by simp)
            (by simp [hx, Executing.held, hqueue])
    · cases hstep
      exact hflush
  | flushing batch =>
    simp only [State.execute, hx, Option.some.injEq] at hstep
    subst hstep
    refine h.move (by simp [hx, Executing.Ended]) (by simp [hx]) ?_ ?_
    · intro d hd
      split at hd <;> cases hd
    · split <;> simp [hx, Executing.held]
  | appending batch =>
    simp only [State.execute, hx] at hstep
    split at hstep
    · split at hstep
      · cases hstep
        exact h.move (by simp [hx, Executing.Ended]) (by simp [hx]) (by simp)
          (by simp [hx, Executing.held])
      · cases hstep
    · cases hstep
      exact h.move (by simp [hx, Executing.Ended]) (by simp [hx]) (by simp)
        (by simp [hx, Executing.held])
  | recovering batch again =>
    have hgo : cancelled = false := by
      cases cancelled with
      | false => rfl
      | true =>
        have := htimed rfl
        rw [hx] at this
        cases this
    simp only [State.execute, hx, hgo, Bool.false_eq_true, if_false, Option.some.injEq] at hstep
    subst hstep
    refine h.move (by simp [hx, Executing.Ended]) (by simp [hx]) ?_ ?_
    · intro d hd
      split at hd <;> cases hd
      rfl
    · split <;> simp [hx, Executing.held, Drain.held]
  | drain d =>
    simp only [State.execute, hx, Option.map_eq_some_iff] at hstep
    obtain ⟨⟨shared, d'⟩, hdrain, rfl⟩ := hstep
    rw [hx] at htimed
    exact h.drain hx htimed hdrain

theorem held_of_ended {x : Executing} (h : x.Ended) : x.held = [] := by
  rcases h with rfl | rfl | rfl <;> rfl

/-- A drain that `ExecuteAsync` has ended has logged the events. -/
theorem Inv.ended (h : Inv s) (hended : s.executing.Ended) {d : Drain}
    (hd : s.executing = .drain d) : d = .ended ∧ s.beforeStop <+: s.shared.appends.flatten := by
  have hok := h.executing d hd
  rcases hended with hx | hx | hx
  · cases hd.symm.trans hx
  · cases hd.symm.trans hx
    exact ⟨rfl, hok.2⟩
  · cases hd.symm.trans hx
    cases hok

theorem Inv.stopAsync (h : Inv s) {cancelled : Bool}
    (htimed : cancelled = true → s.stop.timed = false)
    (hstep : s.stopAsync options cancelled = some s') : Inv s' := by
  cases hs : s.stop with
  | running => simp [State.stopAsync, hs] at hstep
  | waiting =>
    simp only [State.stopAsync, hs] at hstep
    split at hstep
    · rename_i hended
      cases hstep
      exact h.gate hs hended
    · cases hstep
  | drain d =>
    simp only [State.stopAsync, hs, Option.map_eq_some_iff] at hstep
    obtain ⟨⟨shared, d'⟩, hdrain, rfl⟩ := hstep
    have htimed : cancelled = true → d.timed = false := by
      rw [hs] at htimed
      exact htimed
    have hended := h.alone d hs
    have hheld := held_of_ended hended
    have hconserved := h.conserved
    rw [hs, hheld, List.nil_append, Stopping.held] at hconserved
    have hbefore := h.before
    rw [← hconserved] at hbefore
    obtain ⟨hok, hne⟩ := ok_drain hdrain htimed (h.stop d hs) (fun hd hflag => by
      rcases h.flag hflag with ⟨d', hd', hgate⟩ | ⟨d', hd', hgate⟩
      · exact (h.ended hended hd').2
      · exact absurd (Stopping.drain.inj (hd'.symm.trans hs) ▸ hd) hgate) hbefore
    refine ⟨?_, h.before, ?_, ?_, ?_, fun _ => .inr ⟨d', rfl, hne⟩, fun _ _ => hended⟩
    · rw [hheld, List.nil_append, Stopping.held, conserved_drain hdrain htimed, hconserved]
    · intro hrunning
      cases hrunning
    · intro d'' hd''
      obtain ⟨rfl, hlogged⟩ := h.ended hended hd''
      exact ⟨hok.flag hne, hlogged.trans (appends_drain hdrain)⟩
    · rintro d'' ⟨rfl⟩
      exact hok

theorem Inv.enqueue (h : Inv s) {e : ShareEvent} (hsafe : (Op.enqueue e).Safe s) :
    Inv { s with
      shared := { s.shared with queue := s.shared.queue ++ [e] }
      sent := s.sent ++ [e]
      beforeStop := if s.stop = .running then s.beforeStop ++ [e] else s.beforeStop } := by
  have hok : ∀ d : Drain, d.Ok s.shared s.beforeStop →
      d.Ok { s.shared with queue := s.shared.queue ++ [e] }
        (if s.stop = .running then s.beforeStop ++ [e] else s.beforeStop) := by
    intro d hd
    split
    · rename_i hrunning
      by_cases hgate : d = .gate
      · rw [hgate]
        trivial
      · cases (hsafe hrunning).symm.trans (hd.flag hgate)
    · cases d <;> exact hd
  refine ⟨?_, ?_, ?_, fun d hd => hok d (h.executing d hd), fun d hd => hok d (h.stop d hd),
    h.flag, h.alone⟩
  · simp only [← h.conserved, List.append_assoc]
  · split
    · rename_i hrunning
      rw [h.running hrunning]
    · exact h.before.trans (List.prefix_append _ _)
  · intro hrunning
    simp only at hrunning ⊢
    rw [if_pos hrunning, h.running hrunning]

theorem Inv.step (h : Inv s) {op : Op} (hsafe : op.Safe s) (hstep : step options s op = some s') :
    Inv s' := by
  cases op with
  | enqueue e =>
    cases hstep
    exact h.enqueue hsafe
  | abort =>
    cases hstep
    exact ⟨h.conserved, h.before, h.running, h.executing, h.stop, h.flag, h.alone⟩
  | stop =>
    simp only [Writer.step] at hstep
    split at hstep
    · rename_i hrunning
      cases hstep
      refine ⟨?_, h.before, by simp, h.executing, by simp, ?_, by simp⟩
      · have hconserved := h.conserved
        rwa [hrunning] at hconserved
      · intro hflag
        rcases h.flag hflag with hx | ⟨d, hd, -⟩
        · exact .inl hx
        · cases hrunning.symm.trans hd
    · cases hstep
  | giveUp =>
    simp only [Writer.step] at hstep
    split at hstep
    · rename_i hwaiting
      cases hstep
      exact h.gate hwaiting hsafe
    · cases hstep
  | execute cancelled pressure => exact h.execute hsafe hstep
  | stopAsync cancelled => exact h.stopAsync hsafe hstep

/-- **When `StopAsync` returns, the events that were enqueued before it was called are in the
log in their order, each of them once.** -/
theorem shutdown_keeps_events {ops : List Op}
    (hrun : run (step options) State.initial ops = some s)
    (hsafe : Meets (step options) (fun s op => op.Safe s) State.initial ops)
    (hreturned : s.stop = .drain .ended) : s.beforeStop <+: s.shared.appends.flatten := by
  have hinv : Inv s :=
    run_invariant Inv (fun s op s' h hsafe => h.step hsafe) inv_initial hsafe hrun
  exact (hinv.stop .ended hreturned).2

/-- Options with small batches. -/
def smallBatches : Options := ⟨2, 4096, fun _ => 200⟩

/-- Two events to tell apart. -/
def firstEvent : ShareEvent := { eventId := some "first" }

@[inherit_doc firstEvent]
def secondEvent : ShareEvent := { eventId := some "second" }

/-- The stopping token fires while a batch is filled. -/
def stoppedWhileFilling : List Op :=
  .enqueue firstEvent :: List.replicate 3 (.execute false .normal) ++
    [.enqueue secondEvent, .stop, .execute true .normal] ++
    List.replicate 7 (.execute false .normal) ++ List.replicate 2 (.stopAsync false)

/-- Both events are in the log when `StopAsync` returns. -/
theorem shutdown_keeps_two :
    ∃ s, run (step smallBatches) State.initial stoppedWhileFilling = some s ∧
      [firstEvent, secondEvent] <+: s.shared.appends.flatten := by
  obtain ⟨s, hs⟩ := Option.isSome_iff_exists.mp
    (by decide : (run (step smallBatches) State.initial stoppedWhileFilling).isSome = true)
  have hstate : ∀ s ∈ run (step smallBatches) State.initial stoppedWhileFilling,
      s.stop = .drain .ended ∧ s.beforeStop = [firstEvent, secondEvent] := by
    decide
  obtain ⟨hreturned, hbefore⟩ := hstate s hs
  exact ⟨s, hs, hbefore ▸ shutdown_keeps_events hs (by decide) hreturned⟩

/-- Without the conditions, `StopAsync` returns before an event is appended, lets a later event
overtake it, or leaves it in the queue for good: its token fires while `ExecuteAsync` drains the
queue or appends a batch, or the event comes behind the drain of an aborted start. -/
theorem shutdown_loses_event :
    (∃ s, run (step smallBatches) State.initial
        [.enqueue firstEvent, .execute false .normal, .execute false .normal, .stop,
          .execute true .normal, .execute false .normal, .giveUp, .stopAsync false] = some s ∧
      s.stop = .drain .ended ∧ s.beforeStop = [firstEvent] ∧ s.shared.appends = []) ∧
    (∃ s, run (step smallBatches) State.initial
        ([.enqueue firstEvent, .execute false .normal, .execute false .normal,
          .execute false .normal, .enqueue secondEvent, .stop, .execute true .normal,
          .execute false .normal, .giveUp] ++ List.replicate 4 (.stopAsync false) ++
          [.execute false .normal]) = some s ∧
      s.stop = .drain .ended ∧ s.beforeStop = [firstEvent, secondEvent] ∧
      s.shared.appends = [[secondEvent], [firstEvent]]) ∧
    ∃ s, run (step smallBatches) State.initial
        ([.execute false .normal, .abort] ++ List.replicate 3 (.execute false .normal) ++
          [.enqueue firstEvent, .stop, .stopAsync false, .stopAsync false]) = some s ∧
      s.executing = .drain .ended ∧ s.stop = .drain .ended ∧ s.beforeStop = [firstEvent] ∧
      s.shared.appends = [] := by
  refine ⟨⟨_, rfl, ?_⟩, ⟨_, rfl, ?_⟩, ⟨_, rfl, ?_⟩⟩ <;> decide

end Steps

end HashStorm.Outbox.Writer
