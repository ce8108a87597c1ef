import HashStorm.DbWriter.Persistence

/-!
# Two paths of a share to the database

Without the event pipeline `ShareRecorder` inserts the rows of a share itself;
with it, the share becomes an event whose rows are inserted by the database
writer. The event contract has no null text, no height below one and no default
time, and up to that the rows are the same.
-/

namespace HashStorm.Mining

open Contracts DbWriter

/-- `DateTimeKind`. -/
inductive DateTimeKind where
  | unspecified
  | utc
  | localTime
  deriving DecidableEq, Repr

/-- A share as a pool accepts it. -/
structure Share where
  poolId : Option String
  miner : Option String
  worker : Option String
  userAgent : Option String
  ipAddress : Option String
  source : Option String
  difficulty : Rat
  blockHeight : Int64
  blockReward : Rat
  blockHash : Option String
  blockType : Option String
  isBlockCandidate : Bool
  transactionConfirmationData : Option String
  networkDifficulty : Rat
  created : DateTime
  createdKind : DateTimeKind
  deriving DecidableEq, Repr

section Legacy

/-- `Persistence.Model.Share`. -/
structure PersistenceShare where
  poolId : Option String
  blockHeight : UInt64
  miner : Option String
  worker : Option String
  userAgent : Option String
  difficulty : Rat
  networkDifficulty : Rat
  ipAddress : Option String
  source : Option String
  created : DateTime
  deriving DecidableEq, Repr

/-- `Persistence.Model.Block`, as far as `MapBlock` and `PersistSharesCoreAsync` set it; the
rest has its default. -/
structure PersistenceBlock where
  poolId : Option String
  blockHeight : UInt64
  networkDifficulty : Rat
  status : String
  type : Option String
  confirmationProgress : Rat := 0
  effort : Option Rat := none
  minerEffort : Option Rat := none
  transactionConfirmationData : Option String
  miner : Option String
  reward : Rat
  source : Option String
  hash : Option String
  created : DateTime
  deriving DecidableEq, Repr

/-- `ManualMappings.MapShare`. -/
def mapShare (share : Share) : PersistenceShare where
  poolId := share.poolId
  blockHeight := share.blockHeight.toUInt64
  miner := share.miner
  worker := share.worker
  userAgent := share.userAgent
  difficulty := share.difficulty
  networkDifficulty := share.networkDifficulty
  ipAddress := share.ipAddress
  source := share.source
  created := share.created

/-- `ManualMappings.MapBlock`, with the status `PersistSharesCoreAsync` sets. -/
def mapBlock (share : Share) : PersistenceBlock where
  poolId := share.poolId
  blockHeight := share.blockHeight.toUInt64
  networkDifficulty := share.networkDifficulty
  status := "pending"
  transactionConfirmationData := share.transactionConfirmationData
  miner := share.miner
  reward := share.blockReward
  source := share.source
  hash := share.blockHash
  type := share.blockType
  created := share.created

/-- The row `ShareRepository.BatchInsertAsync` writes. -/
def batchInsertRow (share : PersistenceShare) : PersistedShare where
  poolId := share.poolId
  blockHeight := share.blockHeight.toInt64.toInt
  difficulty := share.difficulty
  networkDifficulty := share.networkDifficulty
  miner := share.miner
  worker := share.worker
  userAgent := share.userAgent
  ipAddress := share.ipAddress
  source := share.source
  created := share.created

/-- The row `BlockRepository.InsertAsync` writes, by `MapBlockEntity`. -/
def blockRow (block : PersistenceBlock) : PendingBlockInsert where
  poolId := block.poolId
  blockHeight := block.blockHeight.toInt64.toInt
  networkDifficulty := block.networkDifficulty
  status := block.status
  type := block.type
  transactionConfirmationData := block.transactionConfirmationData
  miner := block.miner
  reward := block.reward
  effort := block.effort
  minerEffort := block.minerEffort
  confirmationProgress := block.confirmationProgress
  source := block.source
  hash := block.hash
  created := block.created

end Legacy

/-- The rows of one share. -/
structure Rows where
  shares : List PersistedShare
  blocks : List PendingBlockInsert
  deriving DecidableEq, Repr

/-- `PersistSharesCoreAsync` for one share. -/
def legacyRows (share : Share) : Rows where
  shares := [batchInsertRow (mapShare share)]
  blocks := if share.isBlockCandidate then [blockRow (mapBlock share)] else []

section Events

/-- `ShareEventSource`. -/
structure ShareEventSource where
  poolId : Option String
  coinSymbol : Option String
  coinFamily : Option String
  miner : Option String
  worker : Option String
  source : Option String
  created : DateTime
  createdKind : DateTimeKind
  blockHeight : Option Int
  difficulty : Rat
  networkDifficulty : Rat
  shareMultiplier : Rat
  isBlockCandidate : Bool
  blockHash : Option String
  ipAddress : Option String
  userAgent : Option String
  transactionConfirmationData : Option String
  blockReward : Rat
  blockType : Option String
  deriving DecidableEq, Repr

/-- What a share does not have: the coin of the pool, the id of the event, the offset of the
local time zone at a time, and the clocks of the two mappers. -/
structure Surroundings where
  coinSymbol : Option String
  coinFamily : Option String
  shareMultiplier : Rat
  eventId : String
  utcOffset : DateTime → Int
  mappedAt : DateTime
  persistedAt : DateTime

/-- The source that `PublishShareAfterResponseAsync` makes of a share. -/
def shareEventSource (env : Surroundings) (share : Share) : ShareEventSource where
  poolId := share.poolId
  coinSymbol := env.coinSymbol
  coinFamily := env.coinFamily
  miner := share.miner
  worker := share.worker
  source := share.source
  created := share.created
  createdKind := share.createdKind
  blockHeight := if share.blockHeight > 0 then some share.blockHeight.toInt else none
  difficulty := share.difficulty
  networkDifficulty := share.networkDifficulty
  shareMultiplier := env.shareMultiplier
  isBlockCandidate := share.isBlockCandidate
  blockHash := share.blockHash
  ipAddress := share.ipAddress
  userAgent := share.userAgent
  transactionConfirmationData := share.transactionConfirmationData
  blockReward := share.blockReward
  blockType := share.blockType

/-- `DateTime.ToUniversalTime`. -/
def toUniversalTime (utcOffset : DateTime → Int) (kind : DateTimeKind) (time : DateTime) :
    DateTime :=
  if kind = .utc then time else (time - utcOffset time).toNat

/-- A text, with the empty one for a missing one. -/
def orEmpty (s : Option String) : Option String := some (s.getD "")

/-- `ShareEventMapper.Map`. -/
def shareEventMap (env : Surroundings) (source : ShareEventSource) (eventType : ShareEventType)
    (rejectReason errorCode errorMessage : Option String) : ShareEvent where
  eventId := some env.eventId
  eventType :=
    if source.isBlockCandidate ∧ eventType = .shareAccepted then .blockCandidate else eventType
  poolId := orEmpty source.poolId
  coinSymbol := orEmpty source.coinSymbol
  coinFamily := orEmpty source.coinFamily
  miner := orEmpty source.miner
  worker := orEmpty source.worker
  source := orEmpty source.source
  created :=
    if source.created = 0 then env.mappedAt
    else toUniversalTime env.utcOffset source.createdKind source.created
  blockHeight := source.blockHeight
  difficulty := source.difficulty
  networkDifficulty := source.networkDifficulty
  shareMultiplier := source.shareMultiplier
  isBlockCandidate := source.isBlockCandidate
  blockHash := orEmpty source.blockHash
  ipAddress := orEmpty source.ipAddress
  userAgent := orEmpty source.userAgent
  rejectReason := orEmpty rejectReason
  errorCode := orEmpty errorCode
  errorMessage := orEmpty errorMessage
  transactionConfirmationData := orEmpty source.transactionConfirmationData
  blockReward := source.blockReward
  blockType := orEmpty source.blockType

/-- The event of an accepted share. -/
def acceptedShareEvent (env : Surroundings) (share : Share) : ShareEvent :=
  shareEventMap env (shareEventSource env share) .shareAccepted (some "") (some "") (some "")

/-- The rows the database writer inserts for an event. -/
def eventRows (env : Surroundings) (e : ShareEvent) : Rows where
  shares := if isPersistibleShare e then [map e env.persistedAt] else []
  blocks := if e.eventType = .blockCandidate then [mapPendingBlock e] else []

end Events

section Equivalence

/-- The time of a share's event. -/
def eventCreated (env : Surroundings) (share : Share) : DateTime :=
  if share.created = 0 then env.mappedAt
  else toUniversalTime env.utcOffset share.createdKind share.created

/-- A row of `shares` without null texts, without a negative height, and with a time. -/
def normalizeShare (env : Surroundings) (created : DateTime) (row : PersistedShare) :
    PersistedShare :=
  { row with
    poolId := orEmpty row.poolId
    blockHeight := max row.blockHeight 0
    miner := orEmpty row.miner
    worker := orEmpty row.worker
    userAgent := orEmpty row.userAgent
    ipAddress := orEmpty row.ipAddress
    source := orEmpty row.source
    created := if created = 0 then env.persistedAt else created }

/-- A row of `blocks` without null texts, without a negative height, and with a time. -/
def normalizeBlock (created : DateTime) (row : PendingBlockInsert) : PendingBlockInsert :=
  { row with
    poolId := orEmpty row.poolId
    blockHeight := max row.blockHeight 0
    type := orEmpty row.type
    transactionConfirmationData := orEmpty row.transactionConfirmationData
    miner := orEmpty row.miner
    source := orEmpty row.source
    hash := orEmpty row.hash
    created := created }

/-- The rows that the event contract can express. -/
def Rows.normalize (env : Surroundings) (created : DateTime) (rows : Rows) : Rows where
  shares := rows.shares.map (normalizeShare env created)
  blocks := rows.blocks.map (normalizeBlock created)

/-- No text that is inserted is missing, the height is not negative, and the time is set and
universal. -/
structure Share.Plain (share : Share) : Prop where
  texts : ∀ s ∈ [share.poolId, share.miner, share.worker, share.userAgent, share.ipAddress,
    share.source], s ≠ none
  blockTexts : share.isBlockCandidate = true →
    ∀ s ∈ [share.blockHash, share.blockType, share.transactionConfirmationData], s ≠ none
  height : 0 ≤ share.blockHeight
  created : share.created ≠ 0
  createdKind : share.createdKind = .utc

variable {env : Surroundings} {share : Share}

/-- The height of an event, which is missing or positive, is read as zero or itself. -/
theorem getD_height (h : Int64) :
    (if h > 0 then some h.toInt else none).getD 0 = max h.toInt 0 := by
  have hpos : h > 0 ↔ 0 < h.toInt := by
    rw [gt_iff_lt, Int64.lt_iff_toInt_lt]
    rfl
  by_cases h0 : h > 0
  · rw [if_pos h0, Option.getD_some, max_eq_left (hpos.mp h0).le]
  · rw [if_neg h0, Option.getD_none, max_eq_right (not_lt.mp (mt hpos.mpr h0))]

theorem eventType_acceptedShareEvent :
    (acceptedShareEvent env share).eventType =
      if share.isBlockCandidate then .blockCandidate else .shareAccepted := by
  simp [acceptedShareEvent, shareEventMap, shareEventSource]

/-- Casting a height to an unsigned number and back changes nothing. -/
theorem toInt64_toUInt64 (h : Int64) : h.toUInt64.toInt64 = h := rfl

theorem map_acceptedShareEvent :
    map (acceptedShareEvent env share) env.persistedAt =
      normalizeShare env (eventCreated env share) (batchInsertRow (mapShare share)) := by
  rw [normalizeShare, batchInsertRow, mapShare, toInt64_toUInt64, ← getD_height]
  rfl

theorem mapPendingBlock_acceptedShareEvent :
    mapPendingBlock (acceptedShareEvent env share) =
      normalizeBlock (eventCreated env share) (blockRow (mapBlock share)) := by
  rw [normalizeBlock, blockRow, mapBlock, toInt64_toUInt64, ← getD_height]
  rfl

/-- The event path inserts the rows of the legacy path, normalized. -/
theorem eventRows_eq_normalize :
    eventRows env (acceptedShareEvent env share) =
      (legacyRows share).normalize env (eventCreated env share) := by
  have hpersistible : isPersistibleShare (acceptedShareEvent env share) = true := by
    rw [isPersistibleShare, eventType_acceptedShareEvent]
    cases share.isBlockCandidate <;> rfl
  have hblocks : (eventRows env (acceptedShareEvent env share)).blocks =
      ((legacyRows share).normalize env (eventCreated env share)).blocks := by
    simp only [eventRows, legacyRows, Rows.normalize, eventType_acceptedShareEvent,
      mapPendingBlock_acceptedShareEvent]
    cases share.isBlockCandidate <;> simp
  rw [Rows.mk.injEq]
  refine ⟨?_, hblocks⟩
  simp only [eventRows, if_pos hpersistible, map_acceptedShareEvent]
  rfl

theorem orEmpty_of_ne_none {s : Option String} (h : s ≠ none) : orEmpty s = s := by
  obtain ⟨t, rfl⟩ := Option.ne_none_iff_exists'.mp h
  rfl

theorem Share.Plain.eventCreated_eq (h : share.Plain) : eventCreated env share = share.created := by
  rw [eventCreated, if_neg h.created, toUniversalTime, if_pos h.createdKind]

theorem Share.Plain.max_height (h : share.Plain) :
    max share.blockHeight.toInt 0 = share.blockHeight.toInt := by
  refine max_eq_left ?_
  exact Int64.le_iff_toInt_le.mp h.height

/-- Normalizing the rows of a plain share changes nothing. -/
theorem Share.Plain.normalize_legacyRows (h : share.Plain) :
    (legacyRows share).normalize env (eventCreated env share) = legacyRows share := by
  have htexts := h.texts
  simp only [List.forall_mem_cons] at htexts
  obtain ⟨hpool, hminer, hworker, hagent, hip, hsource, -⟩ := htexts
  have hshare : normalizeShare env (eventCreated env share) (batchInsertRow (mapShare share)) =
      batchInsertRow (mapShare share) := by
    simp only [normalizeShare, batchInsertRow, mapShare, toInt64_toUInt64, h.max_height,
      h.eventCreated_eq, if_neg h.created, orEmpty_of_ne_none hpool, orEmpty_of_ne_none hminer,
      orEmpty_of_ne_none hworker, orEmpty_of_ne_none hagent, orEmpty_of_ne_none hip,
      orEmpty_of_ne_none hsource]
  have hblock : share.isBlockCandidate = true →
      normalizeBlock (eventCreated env share) (blockRow (mapBlock share)) =
        blockRow (mapBlock share) := by
    intro hcandidate
    have hblockTexts := h.blockTexts hcandidate
    simp only [List.forall_mem_cons] at hblockTexts
    obtain ⟨hhash, htype, hconfirmation, -⟩ := hblockTexts
    simp only [normalizeBlock, blockRow, mapBlock, toInt64_toUInt64, h.max_height,
      h.eventCreated_eq, orEmpty_of_ne_none hpool, orEmpty_of_ne_none hminer,
      orEmpty_of_ne_none hsource, orEmpty_of_ne_none hhash, orEmpty_of_ne_none htype,
      orEmpty_of_ne_none hconfirmation]
  rw [Rows.normalize, legacyRows, List.map_singleton, hshare]
  by_cases hcandidate : share.isBlockCandidate = true
  · rw [if_pos hcandidate, List.map_singleton, hblock hcandidate]
  · rw [if_neg hcandidate, List.map_nil]

/-- **The event path inserts the rows of the legacy path, with the texts, heights and times
of the event contract; the rows of a plain share are the same.** -/
theorem event_path_rows (env : Surroundings) (share : Share) :
    eventRows env (acceptedShareEvent env share) =
        (legacyRows share).normalize env (eventCreated env share) ∧
      ((eventRows env (acceptedShareEvent env share)).blocks = [] ↔
        (legacyRows share).blocks = []) ∧
      (share.Plain → eventRows env (acceptedShareEvent env share) = legacyRows share) := by
  refine ⟨eventRows_eq_normalize, ?_, fun h => ?_⟩
  · rw [eventRows_eq_normalize, Rows.normalize, List.map_eq_nil_iff]
  · rw [eventRows_eq_normalize, h.normalize_legacyRows]

/-- A share of a worker without a name is recorded with a null worker by one path and with
an empty one by the other. -/
theorem event_path_rows_null_worker :
    let env : Surroundings := ⟨some "BTC", some "Bitcoin", 1, "id", fun _ => 0, 9, 9⟩
    let share : Share :=
      { poolId := some "pool", miner := some "miner", worker := none, userAgent := some "",
        ipAddress := some "127.0.0.1", source := some "", difficulty := 1, blockHeight := 5,
        blockReward := 0, blockHash := none, blockType := none, isBlockCandidate := false,
        transactionConfirmationData := none, networkDifficulty := 1, created := 7,
        createdKind := .utc }
    eventRows env (acceptedShareEvent env share) ≠ legacyRows share := by
  decide

end Equivalence

end HashStorm.Mining
