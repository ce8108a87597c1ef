import HashStorm.Mining.ShareRecorder
import HashStorm.Stratum.Text

/-!
# Submissions to a Bitcoin pool

`BitcoinPool.OnSubmitAsync` answers the miner and then hands the share to the
message bus or to the event pipeline. An answer that the send queue does not take
is an exception, and the share is not handed over.
-/

namespace HashStorm.Bitcoin.Pool

open Stratum Contracts Mining

/-- What a call ends in, other than by returning. -/
inductive Exn where
  | stratum (code : StratumError) (message : String)
  | io (message : String)
  | invalidOperation (message : String)
  | other (message : String)
  deriving DecidableEq, Repr

/-- What a pool does for its surroundings to see. -/
inductive Effect where
  /-- The answer of an accepted share is queued. -/
  | respond (requestId : Option String)
  | respondError (code : StratumError) (message : String) (requestId : Option String)
  /-- `messageBus.SendMessage` of a share. -/
  | message (share : Share)
  /-- `EnqueueAsync` of an event. -/
  | event (shareEvent : ShareEvent)
  /-- An action that enqueues the event of a rejected share after the queued messages. -/
  | postSendAction (code : StratumError) (message : String)
  | telemetry (success : Bool)
  | lastPoolBlockTime
  | validShare
  | invalidShare
  | considerBan
  | updateVarDiff
  deriving DecidableEq, Repr

/-- What a call did, and the exception it ended in. -/
structure Call where
  effects : List Effect
  thrown : Option Exn
  deriving DecidableEq, Repr

/-- A call that returns. -/
def Call.done (effects : List Effect) : Call := ⟨effects, none⟩

/-- A call that throws. -/
def Call.throw (e : Exn) : Call := ⟨[], some e⟩

/-- One call after the other, unless the first throws. -/
def Call.andThen (first second : Call) : Call :=
  match first.thrown with
  | some _ => first
  | none => ⟨first.effects ++ second.effects, second.thrown⟩

/-- The send queue of a connection, as a call finds it. -/
structure SendQueue where
  count : Nat
  completed : Bool
  deriving DecidableEq, Repr

/-- `SendQueueCapacity`. -/
def sendQueueCapacity : Nat := 16

/-- `StratumConnection.SendAsync`. -/
def sendAsync (queue : SendQueue) (payload : Effect) : Call :=
  if queue.count ≥ sendQueueCapacity then .throw (.io "Sendqueue stalled")
  else if queue.completed then
    .throw (.io "Message was not accepted by the stratum send queue")
  else .done [payload]

/-- `ExecuteAfterPriorSendsAsync`, which does not look at the capacity. -/
def executeAfterPriorSendsAsync (queue : SendQueue) (action : Effect) : Call :=
  if queue.completed then
    .throw (.io "Post-send action was not accepted by the stratum send queue")
  else .done [action]

/-- The pool as far as the configuration and its services go. `busThrows` and `telemetryThrows`
are exceptions of those who listen to the message bus. -/
structure Services where
  eventPipelineEnabled : Bool
  shareEventQueue : Bool
  mapping : Surroundings
  busThrows : Option Exn
  telemetryThrows : Option Exn
  varDiffThrows : Option Exn

/-- A submission: the request and its age, the state of the worker, what `SubmitShareAsync`
returns or throws, and the send queue as the answer finds it. -/
structure Submit where
  requestId : Option String
  requestAge : Int
  isAuthorized : Bool
  isSubscribed : Bool
  hasParams : Bool
  submitShare : Except Exn Share
  sendQueue : SendQueue

/-- `maxShareAge`, in ticks. -/
def maxShareAge : Int := 6 * 10000000

variable (services : Services)

/-- `PublishTelemetry`. -/
def publishTelemetry (success : Bool) : Call := ⟨[.telemetry success], services.telemetryThrows⟩

/-- `PublishShareAfterResponseAsync`. -/
def publishShareAfterResponseAsync (share : Share) : Call :=
  if services.eventPipelineEnabled then
    if services.shareEventQueue then .done [.event (acceptedShareEvent services.mapping share)]
    else .throw (.invalidOperation
      "Share event pipeline is enabled but no handoff queue is registered for critical share event")
  else ⟨[.message share], services.busThrows⟩

/-- `PublishSubmitRejectedShareAfterResponseAsync`. -/
def publishSubmitRejectedShareAfterResponseAsync (queue : SendQueue) (code : StratumError)
    (message : String) : Call :=
  if services.eventPipelineEnabled then
    executeAfterPriorSendsAsync queue (.postSendAction code message)
  else .done []

/-- `RejectAgedSubmitBeforeValidationAsync`. -/
def rejectAgedSubmitBeforeValidationAsync (submit : Submit) : Call :=
  ((publishTelemetry services false).andThen
    (sendAsync submit.sendQueue
      (.respondError .other "request_age_exceeded" submit.requestId))).andThen
    (publishSubmitRejectedShareAfterResponseAsync services submit.sendQueue .other
      "request_age_exceeded")

/-- What follows in `OnSubmitAsync` when `SubmitShareAsync` has returned a share. -/
def acceptShare (submit : Submit) (share : Share) : Call :=
  ((((sendAsync submit.sendQueue (.respond submit.requestId)).andThen
    (publishShareAfterResponseAsync services share)).andThen
    (publishTelemetry services true)).andThen
    (.done ((if share.isBlockCandidate then [.lastPoolBlockTime] else []) ++ [.validShare]))).andThen
    ⟨[.updateVarDiff], services.varDiffThrows⟩

/-- What `OnSubmitAsync` tries. -/
def trySubmit (submit : Submit) : Call :=
  if submit.requestId = none then .throw (.stratum .minusOne "missing request id")
  else if submit.requestAge > maxShareAge then
    rejectAgedSubmitBeforeValidationAsync services submit
  else if !submit.isAuthorized then .throw (.stratum .unauthorizedWorker "unauthorized worker")
  else if !submit.isSubscribed then .throw (.stratum .notSubscribed "not subscribed")
  else if !submit.hasParams then .throw (.stratum .other "invalid params")
  else
    match submit.submitShare with
    | .error e => .throw e
    | .ok share => acceptShare services submit share

/-- `OnSubmitAsync`; a `StratumException` is counted and thrown again. -/
def onSubmitAsync (submit : Submit) : Call :=
  let call := trySubmit services submit
  match call.thrown with
  | some (.stratum code message) =>
    let caught := (publishTelemetry services false).andThen
      ⟨[.invalidShare, .considerBan], some (.stratum code message)⟩
    ⟨call.effects ++ caught.effects, caught.thrown⟩
  | _ => call

/-- `OnRequestAsync` of a `mining.submit`; a `StratumException` is answered. -/
def onRequestAsync (submit : Submit) : Call :=
  let call := onSubmitAsync services submit
  match call.thrown with
  | some (.stratum code message) =>
    let caught :=
      (sendAsync submit.sendQueue (.respondError code message submit.requestId)).andThen
        (publishSubmitRejectedShareAfterResponseAsync services submit.sendQueue code message)
    ⟨call.effects ++ caught.effects, caught.thrown⟩
  | _ => call

section HandOver

/-- Whether a share, or the event of one, is handed to a publisher. -/
def Effect.isHandOver : Effect → Bool
  | .message _ | .event _ => true
  | _ => false

/-- What a call hands to a publisher. -/
def Call.handOvers (call : Call) : List Effect := call.effects.filter Effect.isHandOver

/-- What is to be handed over for a share. -/
def handOver (share : Share) : Effect :=
  if services.eventPipelineEnabled then .event (acceptedShareEvent services.mapping share)
  else .message share

/-- The submission gets as far as `SubmitShareAsync`, which returns the share. -/
structure Submit.Returns (submit : Submit) (share : Share) : Prop where
  requestId : submit.requestId ≠ none
  requestAge : submit.requestAge ≤ maxShareAge
  isAuthorized : submit.isAuthorized = true
  isSubscribed : submit.isSubscribed = true
  hasParams : submit.hasParams = true
  submitShare : submit.submitShare = .ok share

/-- The send queue takes the answer, and there is a queue for the events if they are enabled. -/
def Submit.Answered (submit : Submit) : Prop :=
  submit.sendQueue.count < sendQueueCapacity ∧ submit.sendQueue.completed = false ∧
    (services.eventPipelineEnabled = true → services.shareEventQueue = true)

variable {services}

theorem Call.handOvers_andThen (first : Call) {second : Call} (h : second.handOvers = []) :
    (first.andThen second).handOvers = first.handOvers := by
  unfold Call.andThen
  split
  · rfl
  · rw [Call.handOvers, List.filter_append]
    exact (congrArg _ h).trans (List.append_nil _)

theorem handOvers_publishTelemetry (success : Bool) :
    (publishTelemetry services success).handOvers = [] := rfl

theorem handOvers_sendAsync {queue : SendQueue} {payload : Effect}
    (h : payload.isHandOver = false) : (sendAsync queue payload).handOvers = [] := by
  unfold sendAsync
  split
  · rfl
  split
  · rfl
  · simp [Call.handOvers, Call.done, h]

theorem handOvers_publishSubmitRejected (queue : SendQueue) (code : StratumError)
    (message : String) :
    (publishSubmitRejectedShareAfterResponseAsync services queue code message).handOvers = [] := by
  unfold publishSubmitRejectedShareAfterResponseAsync executeAfterPriorSendsAsync
  split
  · split
    · rfl
    · rfl
  · rfl

/-- Nothing is handed over when an exception is counted. -/
theorem handOvers_onSubmitAsync (submit : Submit) :
    (onSubmitAsync services submit).handOvers = (trySubmit services submit).handOvers := by
  simp only [onSubmitAsync]
  split
  · rename_i code message hthrown
    have hcaught : ((publishTelemetry services false).andThen
        ⟨[.invalidShare, .considerBan], some (.stratum code message)⟩).handOvers = [] :=
      (Call.handOvers_andThen _ rfl).trans (handOvers_publishTelemetry false)
    rw [Call.handOvers] at hcaught ⊢
    rw [List.filter_append, hcaught, List.append_nil]
    rfl
  · rfl

/-- Nothing is handed over when an exception is answered. -/
theorem handOvers_onRequestAsync (submit : Submit) :
    (onRequestAsync services submit).handOvers = (trySubmit services submit).handOvers := by
  rw [← handOvers_onSubmitAsync]
  simp only [onRequestAsync]
  split
  · rename_i code message hthrown
    have hcaught : ((sendAsync submit.sendQueue
        (.respondError code message submit.requestId)).andThen
        (publishSubmitRejectedShareAfterResponseAsync services submit.sendQueue code
          message)).handOvers = [] :=
      (Call.handOvers_andThen _ (handOvers_publishSubmitRejected _ _ _)).trans
        (handOvers_sendAsync rfl)
    rw [Call.handOvers] at hcaught ⊢
    rw [List.filter_append, hcaught, List.append_nil]
    rfl
  · rfl

theorem trySubmit_of_returns {submit : Submit} {share : Share} (h : submit.Returns share) :
    trySubmit services submit = acceptShare services submit share := by
  rw [trySubmit, if_neg h.requestId, if_neg h.requestAge.not_gt, h.isAuthorized, h.isSubscribed,
    h.hasParams, h.submitShare]
  rfl

/-- What follows the hand-over hands over nothing more. -/
theorem handOvers_acceptShare (submit : Submit) (share : Share) :
    (acceptShare services submit share).handOvers =
      ((sendAsync submit.sendQueue (.respond submit.requestId)).andThen
        (publishShareAfterResponseAsync services share)).handOvers := by
  have hstats : (Call.done ((if share.isBlockCandidate then [.lastPoolBlockTime] else []) ++
      [.validShare])).handOvers = [] := by
    cases share.isBlockCandidate <;> rfl
  rw [acceptShare, @Call.handOvers_andThen _ ⟨[.updateVarDiff], _⟩ rfl,
    Call.handOvers_andThen _ hstats, Call.handOvers_andThen _ (handOvers_publishTelemetry true)]

/-- A share that is returned is handed over once exactly if its answer is queued and there is
someone to take it. -/
theorem share_handed_over_once_iff {submit : Submit} {share : Share} (h : submit.Returns share) :
    (onRequestAsync services submit).handOvers = [handOver services share] ↔
      submit.Answered services := by
  rw [handOvers_onRequestAsync, trySubmit_of_returns h, handOvers_acceptShare]
  unfold sendAsync Submit.Answered
  by_cases hfull : submit.sendQueue.count ≥ sendQueueCapacity
  · simp [hfull, Call.throw, Call.andThen, Call.handOvers]
  · cases hcompleted : submit.sendQueue.completed with
    | true => simp [hfull, Call.throw, Call.andThen, Call.handOvers]
    | false =>
      cases hpipeline : services.eventPipelineEnabled with
      | false =>
        simp [hfull, Call.done, Call.andThen, Call.handOvers, Effect.isHandOver, handOver,
          publishShareAfterResponseAsync, hpipeline, not_le.mp hfull]
      | true =>
        cases hqueue : services.shareEventQueue with
        | false =>
          simp [hfull, Call.done, Call.throw, Call.andThen, Call.handOvers, Effect.isHandOver,
            handOver, publishShareAfterResponseAsync, hpipeline, hqueue]
        | true =>
          simp [hfull, Call.done, Call.andThen, Call.handOvers, Effect.isHandOver, handOver,
            publishShareAfterResponseAsync, hpipeline, hqueue, not_le.mp hfull]

/-- The share of a block that the daemon accepted. -/
private def blockShare : Share where
  poolId := some "btc1"
  miner := some "miner"
  worker := some "rig"
  userAgent := none
  ipAddress := some "127.0.0.1"
  source := none
  difficulty := 8
  blockHeight := 7
  blockReward := 0
  blockHash := some "00ff"
  blockType := none
  isBlockCandidate := true
  transactionConfirmationData := some "01"
  networkDifficulty := 8
  created := 5
  createdKind := .utc

private def pipelineServices : Services where
  eventPipelineEnabled := true
  shareEventQueue := true
  mapping := ⟨some "BTC", some "Bitcoin", 1, "id", fun _ => 0, 9, 9⟩
  busThrows := none
  telemetryThrows := none
  varDiffThrows := none

/-- A submission that finds as many messages in the send queue. -/
private def blockSubmit (count : Nat) : Submit where
  requestId := some "4"
  requestAge := 0
  isAuthorized := true
  isSubscribed := true
  hasParams := true
  submitShare := .ok blockShare
  sendQueue := ⟨count, false⟩

private theorem blockSubmit_returns (count : Nat) : (blockSubmit count).Returns blockShare :=
  ⟨by simp [blockSubmit], by simp [blockSubmit, maxShareAge], rfl, rfl, rfl, rfl⟩

/-- With one message less the event of the block is handed over. -/
theorem share_handed_over_once_iff_block :
    (blockSubmit 15).Returns blockShare ∧
      (onRequestAsync pipelineServices (blockSubmit 15)).handOvers =
        [.event (acceptedShareEvent pipelineServices.mapping blockShare)] :=
  ⟨blockSubmit_returns 15, (share_handed_over_once_iff (blockSubmit_returns 15)).mpr
    ⟨by decide, rfl, fun _ => rfl⟩⟩

/-- The block is accepted, its share returned and nothing handed over. -/
theorem block_not_handed_over :
    (blockSubmit 16).Returns blockShare ∧
      onRequestAsync pipelineServices (blockSubmit 16) = ⟨[], some (.io "Sendqueue stalled")⟩ ∧
      (onRequestAsync pipelineServices (blockSubmit 16)).handOvers = [] :=
  ⟨blockSubmit_returns 16, by decide, by decide⟩

end HandOver

end HashStorm.Bitcoin.Pool
