import HashStorm.Contracts.ShareEventBatch
import HashStorm.DbWriter.ExactlyOnce
import HashStorm.Eventing.Outbox.Delivery
import HashStorm.Pipeline.ConsumerGroup

/-!
# The event pipeline from the outbox to the database

The outbox with its publisher, the Redis stream that the batches are added to,
and the database writers that read the stream as one consumer group. All of them
move independently. The pool core may be stopped and restarted, the answer to an
`XADD` may be lost so that the batch is added once more, entries may be claimed
by another consumer, and every database writer may die at any point.

Whatever the order of these steps, the tables hold the rows of one event for each
event id, and an event that is in the log but not in the tables is still on its
way.
-/

namespace HashStorm.Pipeline

open Contracts Machine Transport

/-- The options of the publisher that go into a batch. -/
structure ShareBatchPublisherOptions where
  producerId : String
  nodeId : String
  clusterName : String
  brokerType : String
  streamName : String
  deriving DecidableEq, Repr

/-- What a batch has beside its events: a new identifier, the clock, the sequence number of the
publisher and the size of the texts of the events. -/
structure BatchHeader where
  batchId : String
  created : DateTime
  sequence : Int
  approxBytes : Nat
  deriving DecidableEq, Repr

/-- `CreateBatch`. -/
def createBatch (options : ShareBatchPublisherOptions) (header : BatchHeader)
    (events : List ShareEvent) : ShareEventBatch where
  batchId := header.batchId
  producerId := options.producerId
  nodeId := options.nodeId
  clusterName := options.clusterName
  created := header.created
  sequence := header.sequence
  eventCount := events.length
  approxBytes := header.approxBytes
  events := events
  metadata := ⟨options.streamName, options.brokerType⟩

/-- The JSON conversions of a batch. -/
structure BatchCodec where
  serialize : ShareEventBatch → String
  deserialize : String → Option ShareEventBatch

/-- The JSON text of the batch is not empty and has its events. -/
def BatchCodec.Lossless (batches : BatchCodec) (batch : ShareEventBatch) : Prop :=
  batches.serialize batch ≠ "" ∧
    (batches.deserialize (batches.serialize batch)).map ShareEventBatch.events = some batch.events

instance (batches : BatchCodec) (batch : ShareEventBatch) : Decidable (batches.Lossless batch) :=
  inferInstanceAs (Decidable (_ ∧ _))

/-- What the parts of the pipeline are configured with. -/
structure Config where
  codec : Outbox.EventCodec
  batches : BatchCodec
  segmentMaxBytes : Nat
  options : ShareBatchPublisherOptions
  /-- `ConsumerName` of each database writer. -/
  consumerName : Nat → String

/-- A record as `PersistAsync` receives it. -/
def toRecord (r : RedisShareEventBatchRecord ShareEventBatch) : DbWriter.StreamRecord :=
  ⟨toString r.messageId, r.batch.map ShareEventBatch.events⟩

/-- The outbox with its publisher, the stream, the records each database writer has read and not
acknowledged, and the database with its consumers. -/
structure State where
  delivery : Outbox.Delivery.State
  stream : Stream
  waiting : List (List (RedisShareEventBatchRecord ShareEventBatch))
  db : DbWriter.State

/-- An empty outbox, an empty stream and `n` idle database writers. -/
def State.initial (n : Nat) : State :=
  ⟨Outbox.Delivery.State.initial, .empty, List.replicate n [], DbWriter.State.initial n⟩

/-- What can happen. -/
inductive Op where
  /-- A step of the writer, the publisher or a crash that adds nothing to the stream. -/
  | outbox (op : Outbox.Delivery.Op)
  /-- `PublishAsync` adds the batch; without an answer the publisher tries again. -/
  | attempt (header : BatchHeader) (id : Nat) (answered : Bool)
  /-- `ReadPendingFirstAsync` of a database writer that is through with its records. -/
  | read (c : Nat) (stale : List Nat) (count : Nat)
  /-- The transaction of the next record begins. -/
  | begin (c : Nat) (now : DateTime)
  | persist (c : Nat) (utcNow : DateTime)
  | commit (c : Nat)
  | acknowledge (c : Nat)
  | crash (c : Nat)
  deriving DecidableEq, Repr

/-- The events a step appends to the outbox. -/
def Op.events : Op → List ShareEvent
  | .outbox op => op.events
  | _ => []

variable (config : Config)

/-- The batch of the given records. -/
def batchOf (header : BatchHeader) (records : List Outbox.Record) : ShareEventBatch :=
  createBatch config.options header (records.map Outbox.Record.event)

/-- The batch that the publisher has collected is added to the stream. -/
def attempt (s : State) (header : BatchHeader) (id : Nat) (answered : Bool) : Option State :=
  match s.delivery.base.publisher with
  | .collected batch =>
    (s.stream.add id (config.batches.serialize (batchOf config header batch))).bind fun stream =>
      (Outbox.Delivery.step config.codec config.segmentMaxBytes s.delivery
        (if answered then .outbox .publish else .fail)).map fun delivery =>
          { s with delivery := delivery, stream := stream }
  | _ => none

/-- Execute one step; `none` when it is not enabled. -/
def step (s : State) : Op → Option State
  | .outbox (.outbox .publish) => none
  | .outbox op =>
    (Outbox.Delivery.step config.codec config.segmentMaxBytes s.delivery op).map fun delivery =>
      { s with delivery := delivery }
  | .attempt header id answered => attempt config s header id answered
  | .read c stale count =>
    match s.db.consumers[c]?, s.waiting[c]? with
    | some .idle, some [] =>
      let (records, stream) := s.stream.readPendingFirst config.batches.deserialize
        (config.consumerName c) stale count
      some { s with stream := stream, waiting := s.waiting.set c records }
    | _, _ => none
  | .begin c now =>
    match s.waiting[c]? with
    | some (r :: _) =>
      (DbWriter.step config.options.streamName s.db (c, .deliver (toRecord r) now)).map fun db =>
        { s with db := db }
    | _ => none
  | .persist c utcNow =>
    (DbWriter.step config.options.streamName s.db (c, .persist utcNow)).map fun db =>
      { s with db := db }
  | .commit c =>
    (DbWriter.step config.options.streamName s.db (c, .commit)).map fun db => { s with db := db }
  | .acknowledge c =>
    match s.waiting[c]? with
    | some (r :: rest) =>
      (DbWriter.step config.options.streamName s.db (c, .acknowledge)).map fun db =>
        { s with
          db := db
          stream := s.stream.acknowledge r.messageId
          waiting := s.waiting.set c rest }
    | _ => none
  | .crash c =>
    (DbWriter.step config.options.streamName s.db (c, .crash)).map fun db =>
      { s with db := db, waiting := s.waiting.set c [] }

/-- The batch in the hands of the publisher converts to JSON without loss. -/
def Convertible (header : BatchHeader) : Outbox.Publisher → Prop
  | .collected batch => config.batches.Lossless (batchOf config header batch)
  | _ => True

instance (header : BatchHeader) (publisher : Outbox.Publisher) :
    Decidable (Convertible config header publisher) :=
  match publisher with
  | .collected _ => inferInstanceAs (Decidable (config.batches.Lossless _))
  | .idle | .published _ => isTrue trivial

/-- No append writes behind a torn record, a restart keeps what was published, and the batches
convert to JSON without loss. -/
def StepOk (s : State) : Op → Prop
  | .outbox op => Outbox.Delivery.StepOk config.codec config.segmentMaxBytes s.delivery op
  | .attempt header _ _ => Convertible config header s.delivery.base.publisher
  | _ => True

instance (s : State) (op : Op) : Decidable (StepOk config s op) :=
  match op with
  | .outbox op =>
    inferInstanceAs (Decidable
      (Outbox.Delivery.StepOk config.codec config.segmentMaxBytes s.delivery op))
  | .attempt header _ _ =>
    inferInstanceAs (Decidable (Convertible config header s.delivery.base.publisher))
  | .read _ _ _ | .begin _ _ | .persist _ _ | .commit _ | .acknowledge _ | .crash _ =>
    isTrue trivial

/-- The events of a stream entry. -/
def entryEvents (e : StreamEntry) : List ShareEvent :=
  (toRecord (mapEntry config.batches.deserialize e)).events

/-- The events of the log. -/
def State.logged (s : State) : List ShareEvent :=
  s.delivery.base.records.map Outbox.Record.event

/-- The records that the publisher finds behind the checkpoint. -/
def State.unread (s : State) : List Outbox.Record :=
  s.delivery.base.outbox.readFromCheckpointAsync config.codec s.delivery.base.checkpoint

/-- The database writer works at the first of its records. -/
def AtFirst (waiting : List (RedisShareEventBatchRecord ShareEventBatch)) :
    DbWriter.Consumer → Prop
  | .idle => True
  | .persisting tx => ∃ r rest, waiting = r :: rest ∧ tx.record = toRecord r
  | .persisted record => ∃ r rest, waiting = r :: rest ∧ record = toRecord r

/-- The invariant of runs without torn records; `P` holds of all events that are appended. -/
structure Inv (P : ShareEvent → Prop) (s : State) : Prop where
  delivery : Outbox.Delivery.Inv config.codec s.delivery
  db : ∃ effects, DbWriter.Inv config.options.streamName s.db effects
  appended : ∀ e ∈ s.logged, P e
  /-- Every entry has a batch of events that were appended. -/
  decodable : ∀ e ∈ s.stream.entries, Decodable config.batches.deserialize e ∧
    ∀ event ∈ entryEvents config e, P event
  ids : (s.stream.entries.map StreamEntry.id).Nodup
  open_subset : s.stream.unacknowledged ⊆ s.stream.entries
  /-- An acknowledged entry is in the database. -/
  done : ∀ e ∈ s.stream.entries, e ∈ s.stream.unacknowledged ∨ entryEvents config e ⊆ s.db.committed
  /-- What was handed to the transport is in the stream. -/
  handed : ∀ e ∈ s.delivery.base.log, e.handed = true →
    ∃ entry ∈ s.stream.entries, e.record.event ∈ entryEvents config entry
  read : ∀ (c : Nat) (rs : _), s.waiting[c]? = some rs → ∀ r ∈ rs,
    ∃ e ∈ s.stream.entries, r = mapEntry config.batches.deserialize e
  first : ∀ (c : Nat) (x : DbWriter.Consumer), s.db.consumers[c]? = some x →
    ∃ rs, s.waiting[c]? = some rs ∧ AtFirst rs x
  committed : ∀ e ∈ s.db.committed, P e

end HashStorm.Pipeline
