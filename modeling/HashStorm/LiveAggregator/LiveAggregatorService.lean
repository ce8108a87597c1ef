import HashStorm.Contracts.ShareEventBatch
import HashStorm.Eventing.Transport.ReadRange
import HashStorm.LiveAggregator.PoolState
import HashStorm.Pipeline.ConsumerGroup

/-!
# The live aggregator

`LiveAggregatorService` creates its consumer group at the end of the stream, clears
the state of its pools and writes the events of the live window again that the stream
has retained. Then it reads the group, and acknowledges each batch that it has
written. It may be stopped at any command to Redis and started again, also under
another consumer name, and batches are added to the stream at any time.
-/

namespace HashStorm.LiveAggregator.Service

open Contracts Machine RangePages Transport

/-- `LiveAggregatorConfig`, with the JSON conversion of a batch. -/
structure ServiceConfig extends LiveAggregator.Config where
  readBatchSize : Nat
  liveWindowSeconds : Nat
  pools : List (Option String)
  deserialize : String → Option ShareEventBatch

/-- What `ExecuteAsync` is about to do. -/
inductive Phase where
  | stopped
  /-- The pools left to clear. -/
  | clearing (consumer : String) (pools : List (Option String))
  /-- The window of `RebuildFromRetainedStreamAsync`, and where its next page starts. -/
  | rebuilding (consumer : String) (fromUtc now : DateTime) (start : Option (Start Nat))
  /-- The start of the window that was rebuilt, the message whose batch is being written, and the
  records left. -/
  | running (consumer : String) (fromUtc : DateTime) (writing : Option Nat)
      (records : List (RedisShareEventBatchRecord ShareEventBatch))

/-- The start of the window that was rebuilt, once batches are read. -/
def Phase.windowStart : Phase → Option DateTime
  | .running _ fromUtc _ _ => some fromUtc
  | _ => none

/-- The clock, the stream with its group once it was created, the service and its writer with the
keys of Redis. -/
structure State where
  clock : DateTime
  stream : Stream
  grouped : Bool
  phase : Phase
  writer : LiveAggregator.State

/-- What can happen. -/
inductive Op where
  | tick (ticks : Nat)
  /-- A batch is added to the stream, with the sequence number that Redis gives it. -/
  | add (sequence : Nat) (payload : String)
  /-- The service is started. -/
  | start (consumer : String)
  /-- The service takes its next step. -/
  | next
  /-- The group is read; the entries with these ids were idle for long enough. -/
  | read (stale : List Nat)
  /-- The service is stopped, in order or not. -/
  | crash
  deriving DecidableEq, Repr

/-- No batch was added, and the service was never started; the live keys of Redis are arbitrary. -/
def State.initial (store : Store) : State :=
  ⟨0, .empty, false, .stopped, ⟨store, none, [], [], []⟩⟩

variable (config : ServiceConfig)

/-- The events of a record. -/
def recordEvents (record : RedisShareEventBatchRecord ShareEventBatch) : List ShareEvent :=
  record.batch.elim [] ShareEventBatch.events

/-- The events of an entry. -/
def entryEvents (e : StreamEntry) : List ShareEvent :=
  recordEvents (mapEntry config.deserialize e)

/-- The events of the stream. -/
def State.events (s : State) : List ShareEvent := s.stream.entries.flatMap (entryEvents config)

/-- The events of a page that lie in the window. -/
def windowEvents (fromUtc now : DateTime) (page : List StreamEntry) : List ShareEvent :=
  ((mapEntries config.deserialize page).flatMap recordEvents).filter fun e =>
    fromUtc ≤ e.created && e.created ≤ now

/-- `WriteBatchAsync` is called. -/
def State.writeBatch (s : State) (events : List ShareEvent) : Option State :=
  (LiveAggregator.step config.toConfig s.writer (.deliver events)).map fun writer =>
    { s with writer := writer }

/-- The next step of `ExecuteAsync`. -/
def State.next (s : State) : Option State :=
  if s.writer.current.isSome then
    (LiveAggregator.step config.toConfig s.writer .next).map fun writer =>
      { s with writer := writer }
  else
    match s.phase with
    | .stopped => none
    | .clearing consumer (pool :: pools) =>
      some { s with
        phase := .clearing consumer pools
        writer.store := clearPoolState config.toConfig s.writer.store pool }
    | .clearing consumer [] =>
      let fromUtc := s.clock - config.liveWindowSeconds * 10000000
      some { s with phase := .rebuilding consumer fromUtc s.clock (some (minId fromUtc)) }
    | .rebuilding consumer fromUtc now (some start) =>
      let size := pageSize (max config.readBatchSize 1000)
      let records := page StreamEntry.id s.stream.entries start (maxId now) size
      let events := windowEvents config fromUtc now records
      let s := { s with
        phase := .rebuilding consumer fromUtc now (following StreamEntry.id size records) }
      if events.isEmpty then some s else s.writeBatch config events
    | .rebuilding consumer fromUtc _ none =>
      some { s with phase := .running consumer fromUtc none [] }
    | .running consumer fromUtc (some messageId) records =>
      some { s with
        phase := .running consumer fromUtc none records
        stream := s.stream.acknowledge messageId }
    | .running consumer fromUtc none (record :: records) =>
      State.writeBatch config
        { s with phase := .running consumer fromUtc (some record.messageId) records }
        (recordEvents record)
    | .running _ _ none [] => none

/-- One step. -/
def step (s : State) : Op → Option State
  | .tick ticks => some { s with clock := s.clock + ticks }
  | .add sequence payload =>
    (s.stream.add (messageId (toUnixTimeMilliseconds s.clock) sequence) payload).map fun stream =>
      { s with
        stream := if s.grouped then stream else { stream with undelivered := [] } }
  | .start consumer =>
    match s.phase with
    | .stopped =>
      some { s with
        grouped := true
        phase := .clearing consumer config.pools
        writer := ⟨s.writer.store, none, [], [], []⟩ }
    | _ => none
  | .next => s.next config
  | .read stale =>
    match s.phase, s.writer.current with
    | .running consumer fromUtc none [], none =>
      let (records, stream) :=
        s.stream.readPendingFirst config.deserialize consumer stale config.readBatchSize
      some { s with stream := stream, phase := .running consumer fromUtc none records }
    | _, _ => none
  | .crash =>
    match s.phase with
    | .stopped => none
    | _ => some { s with phase := .stopped, writer.current := none }

/-- The batches are added with sequence numbers up to 9999, their events were created before, and
the ids of all events identify them. -/
def Op.Dated (s : State) : Op → Prop
  | .add sequence payload =>
    let events := entryEvents config ⟨0, [("payload", payload)]⟩
    sequence ≤ 9999 ∧ (∀ e ∈ events, Identified e ∧ e.created ≤ s.clock) ∧
      Distinguished (s.events config ++ events)
  | _ => True

instance decidableDated (s : State) : ∀ op : Op, Decidable (op.Dated config s)
  | .add sequence payload => inferInstanceAs (Decidable (sequence ≤ 9999 ∧
      (∀ e ∈ entryEvents config ⟨0, [("payload", payload)]⟩, Identified e ∧ e.created ≤ s.clock) ∧
      ∀ e ∈ s.events config ++ entryEvents config ⟨0, [("payload", payload)]⟩,
        ∀ e' ∈ s.events config ++ entryEvents config ⟨0, [("payload", payload)]⟩,
          Identified e → e.eventId = e'.eventId → e = e'))
  | .tick _ | .start _ | .next | .read _ | .crash => inferInstanceAs (Decidable True)

end HashStorm.LiveAggregator.Service
