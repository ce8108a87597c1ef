import HashStorm.Contracts.ShareEvent
import HashStorm.Lib.Machine
import Mathlib.Data.Finset.Image
import Mathlib.Data.Multiset.Filter

/-!
# Persistence of share events

`ShareBatchPersistenceService` with the consumers that drive it. A transaction
sees the committed tables and its own rows; another transaction that wants to
insert the same key waits until the first one has ended. Consumers interleave
event by event, any record can be delivered to any consumer any number of times,
and a consumer can die at every point, also between the commit and the
acknowledgement.

Whatever the schedule, the tables hold the effect of exactly one event for every
event id that a committed transaction carried.
-/

namespace HashStorm.DbWriter

open Contracts Machine

/-- A row of `event_pipeline_processed_events`. -/
structure ProcessedRow where
  eventId : String
  streamName : String
  streamId : String
  consumerGroup : String
  processedAt : DateTime
  deriving DecidableEq, Repr

/-- A row of `share_events`. -/
structure ShareEventRow where
  eventId : Option String
  eventType : String
  poolId : Option String
  coinSymbol : Option String
  coinFamily : Option String
  miner : Option String
  worker : Option String
  source : Option String
  created : DateTime
  blockHeight : Option Int
  difficulty : Rat
  networkDifficulty : Rat
  shareMultiplier : Rat
  isBlockCandidate : Bool
  blockHash : Option String
  ipAddress : Option String
  userAgent : Option String
  rejectReason : Option String
  errorCode : Option String
  errorMessage : Option String
  transactionConfirmationData : Option String
  blockReward : Rat
  blockType : Option String
  insertedAt : DateTime
  deriving DecidableEq, Repr

/-- A row of `shares`. -/
structure PersistedShare where
  poolId : Option String
  blockHeight : Int
  difficulty : Rat
  networkDifficulty : Rat
  miner : Option String
  worker : Option String
  userAgent : Option String
  ipAddress : Option String
  source : Option String
  created : DateTime
  deriving DecidableEq, Repr

/-- A row of `blocks`, as it is inserted. -/
structure PendingBlockInsert where
  poolId : Option String
  blockHeight : Int
  networkDifficulty : Rat
  status : String
  type : Option String
  transactionConfirmationData : Option String
  miner : Option String
  reward : Rat
  effort : Option Rat
  minerEffort : Option Rat
  confirmationProgress : Rat
  source : Option String
  hash : Option String
  created : DateTime
  deriving DecidableEq, Repr

/-- The four tables a batch writes to. -/
structure Tables where
  processed : List ProcessedRow := []
  shareEvents : List ShareEventRow := []
  shares : List PersistedShare := []
  blocks : List PendingBlockInsert := []
  deriving DecidableEq, Repr

/-- The rows of a transaction behind the committed ones. -/
instance : Append Tables where
  append t u := ⟨t.processed ++ u.processed, t.shareEvents ++ u.shareEvents,
    t.shares ++ u.shares, t.blocks ++ u.blocks⟩

/-- The keys of the processed-events table. -/
def Tables.ids (t : Tables) : List String := t.processed.map ProcessedRow.eventId

/-- `ShareEventPersistenceMapper.IsPersistibleShare`. -/
def isPersistibleShare (e : ShareEvent) : Bool :=
  e.eventType = .shareAccepted ∨ e.eventType = .blockCandidate ∨ e.eventType = .blockAccepted

/-- `ShareEventPersistenceMapper.Map`; `utcNow` is the clock when it is called. -/
def map (e : ShareEvent) (utcNow : DateTime) : PersistedShare where
  poolId := e.poolId
  blockHeight := e.blockHeight.getD 0
  difficulty := e.difficulty
  networkDifficulty := e.networkDifficulty
  miner := e.miner
  worker := e.worker
  userAgent := e.userAgent
  ipAddress := e.ipAddress
  source := e.source
  created := if e.created = 0 then utcNow else e.created

/-- `MapPendingBlock`. -/
def mapPendingBlock (e : ShareEvent) : PendingBlockInsert where
  poolId := e.poolId
  blockHeight := e.blockHeight.getD 0
  networkDifficulty := e.networkDifficulty
  status := "pending"
  type := e.blockType
  transactionConfirmationData := e.transactionConfirmationData
  miner := e.miner
  reward := e.blockReward
  effort := none
  minerEffort := none
  confirmationProgress := 0
  source := e.source
  hash := e.blockHash
  created := e.created

/-- The row `InsertShareEventAsync` inserts in a transaction that began at `now`. -/
def shareEventRow (e : ShareEvent) (now : DateTime) : ShareEventRow where
  eventId := e.eventId
  eventType := e.eventType.toText
  poolId := e.poolId
  coinSymbol := e.coinSymbol
  coinFamily := e.coinFamily
  miner := e.miner
  worker := e.worker
  source := e.source
  created := e.created
  blockHeight := e.blockHeight
  difficulty := e.difficulty
  networkDifficulty := e.networkDifficulty
  shareMultiplier := e.shareMultiplier
  isBlockCandidate := e.isBlockCandidate
  blockHash := e.blockHash
  ipAddress := e.ipAddress
  userAgent := e.userAgent
  rejectReason := e.rejectReason
  errorCode := e.errorCode
  errorMessage := e.errorMessage
  transactionConfirmationData := e.transactionConfirmationData
  blockReward := e.blockReward
  blockType := if isNullOrWhiteSpace e.blockType then none else e.blockType
  insertedAt := now

/-- A record of the stream; `batch` is `none` when it could not be decoded. -/
structure StreamRecord where
  messageId : String
  batch : Option (List ShareEvent)
  deriving DecidableEq, Repr

/-- The events of a record. -/
def StreamRecord.events (r : StreamRecord) : List ShareEvent := r.batch.getD []

/-- An open transaction of `PersistAsync`. -/
structure Transaction where
  record : StreamRecord
  /-- `now()`, the time at which the transaction began. -/
  now : DateTime
  remaining : List ShareEvent
  rows : Tables
  deriving DecidableEq, Repr

/-- The stream of the configuration. -/
def consumerGroup : String := "db-writer"

/-- `TryMarkProcessedAsync` for a key that is not in the table yet. -/
def processedRow (streamName : String) (tx : Transaction) (id : String) : ProcessedRow where
  eventId := id
  streamName := streamName
  streamId := tx.record.messageId
  consumerGroup := consumerGroup
  processedAt := tx.now

section Statements

/-- `InsertShareEventAsync` on the rows a transaction sees and its own rows;
`none` when a `NOT NULL` constraint is violated. -/
def insertShareEvent (committed : Tables) (tx : Transaction) (e : ShareEvent) (own : Tables) :
    Option Tables :=
  if e.eventId = none ∨ e.poolId = none then none
  else if e.eventId ∈ (committed.shareEvents ++ own.shareEvents).map ShareEventRow.eventId then
    some own
  else some { own with shareEvents := own.shareEvents ++ [shareEventRow e tx.now] }

/-- `InsertShareAsync`. -/
def insertShare (share : PersistedShare) (own : Tables) : Option Tables :=
  if share.poolId = none ∨ share.miner = none ∨ share.ipAddress = none then none
  else some { own with shares := own.shares ++ [share] }

/-- `InsertPendingBlockAsync`. -/
def insertPendingBlock (block : PendingBlockInsert) (own : Tables) : Option Tables :=
  if block.poolId = none ∨ block.transactionConfirmationData = none then none
  else some { own with blocks := own.blocks ++ [block] }

/-- The loop body of `PersistAsync`. `held` are the keys that other open
transactions have inserted; a transaction that needs one of them waits, which is
`none` here, as is a statement that raises an exception. -/
def persistEvent (streamName : String) (committed : Tables) (held : List String)
    (tx : Transaction) (e : ShareEvent) (utcNow : DateTime) : Option Tables :=
  match e.eventId with
  | none => none
  | some id =>
    if id ∈ committed.ids ++ tx.rows.ids then some tx.rows
    else if id ∈ held then none
    else
      let marked := { tx.rows with
        processed := tx.rows.processed ++ [processedRow streamName tx id] }
      (insertShareEvent committed tx e marked).bind fun logged =>
        (if isPersistibleShare e then insertShare (map e utcNow) logged else some logged).bind
          fun shared =>
            if e.eventType = .blockCandidate then insertPendingBlock (mapPendingBlock e) shared
            else some shared

end Statements

/-- Where a consumer stands in the loop of `DbWriterService.ExecuteAsync`. -/
inductive Consumer where
  | idle
  | persisting (tx : Transaction)
  | persisted (record : StreamRecord)
  deriving DecidableEq, Repr

/-- A record is taken up: an undecodable one is acknowledged without a transaction. -/
def Consumer.start (record : StreamRecord) (now : DateTime) : Consumer :=
  match record.batch with
  | none => .persisted record
  | some events => .persisting ⟨record, now, events, {}⟩

/-- The keys the consumer's open transaction has inserted. -/
def Consumer.held : Consumer → List String
  | .persisting tx => tx.rows.ids
  | _ => []

/-- The database, the consumers, the acknowledged records, and the events that
committed transactions carried. -/
structure State where
  tables : Tables
  consumers : List Consumer
  acknowledged : List StreamRecord
  committed : List ShareEvent
  deriving DecidableEq, Repr

/-- One step of the consumer at a position of the list. -/
inductive Op where
  /-- A record is read or claimed; the transaction begins at `now`. -/
  | deliver (record : StreamRecord) (now : DateTime)
  /-- The next event of the batch, with the clock at its mapping. -/
  | persist (utcNow : DateTime)
  | commit
  | acknowledge
  /-- The process dies, or a statement raises an exception. -/
  | crash
  deriving DecidableEq, Repr

/-- The keys the transactions of other consumers hold. -/
def heldBy (consumers : List Consumer) (c : Nat) : List String :=
  (consumers.zipIdx.filter fun p => p.2 != c).flatMap fun p => p.1.held

/-- No rows, and `n` idle consumers. -/
def State.initial (n : Nat) : State := ⟨{}, List.replicate n .idle, [], []⟩

/-- Execute one step of consumer `c`; `none` when it is not enabled. -/
def step (streamName : String) (s : State) (label : Nat × Op) : Option State :=
  let (c, op) := label
  match s.consumers[c]?, op with
  | some .idle, .deliver record now =>
    some { s with consumers := s.consumers.set c (.start record now) }
  | some (.persisting tx), .persist utcNow =>
    match tx.remaining with
    | [] => none
    | e :: rest =>
      (persistEvent streamName s.tables (heldBy s.consumers c) tx e utcNow).map fun rows =>
        let next := { tx with remaining := rest, rows := rows }
        { s with consumers := s.consumers.set c (.persisting next) }
  | some (.persisting tx), .commit =>
    if tx.remaining = [] then
      some { s with
        tables := s.tables ++ tx.rows
        consumers := s.consumers.set c (.persisted tx.record)
        committed := s.committed ++ tx.record.events }
    else none
  | some (.persisted record), .acknowledge =>
    some { s with
      consumers := s.consumers.set c .idle
      acknowledged := record :: s.acknowledged }
  | some _, .crash => some { s with consumers := s.consumers.set c .idle }
  | _, _ => none

end HashStorm.DbWriter
