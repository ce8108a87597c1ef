import HashStorm.LiveAggregator.LiveStateWriter
import HashStorm.Lib.KeyedSet
import HashStorm.Lib.Rounding

/-!
# The live summaries

`WriteBatchAsync` writes the events of a batch and rebuilds the summaries of their pools from
the buckets of the window. The miners and the workers of a pool are listed by names that are
compared without regard to case, counted by keys with encoded names, and last seen by a text
that joins both names with a dot. No key expires, and no counter is too large for a `long`.
-/

namespace HashStorm.LiveAggregator

open Contracts Dictionary Rounding

/-- `RedisLiveStateWriter`: its configuration, the capitals that `OrdinalIgnoreCase` compares,
and the order in which Redis lists a set. -/
structure Writer extends Config where
  windowSeconds : Nat
  upper : Char → Char
  members : List (String × String) → String → List String
  bucketSeconds_pos : 0 < bucketSeconds
  upper_tab : ∀ c, upper c = '\t' ↔ c = '\t'
  mem_members : ∀ sets key member, member ∈ members sets key ↔ (key, member) ∈ sets

/-- The sums that all summaries have. -/
@[ext] structure Sums where
  accepted : Int
  rejected : Int
  stale : Int
  difficulty : Rat
  deriving DecidableEq, Repr

/-- `Counter`. -/
structure Counter extends Sums where
  total : Int
  deriving DecidableEq, Repr

/-- `LivePoolSummaryDto`. -/
structure PoolSummary extends Sums where
  poolId : Option String
  hashrate : Rat
  minersOnline : Nat
  workersOnline : Nat
  updated : DateTime
  deriving DecidableEq, Repr

/-- `LivePoolStatusDto`. -/
structure PoolStatus where
  poolId : Option String
  status : String
  windowSeconds : Int
  availableWindowSeconds : Int
  updated : DateTime
  deriving DecidableEq, Repr

/-- `LiveMinerSummaryDto`; the time it was last seen is in Unix seconds. -/
structure MinerSummary extends Sums where
  poolId : Option String
  miner : String
  hashrate : Rat
  workersOnline : Nat
  lastSeen : Int
  deriving DecidableEq, Repr

/-- `LiveWorkerSummaryDto`; the time it was last seen is in Unix seconds. -/
structure WorkerSummary extends Sums where
  poolId : Option String
  miner : String
  worker : String
  hashrate : Rat
  lastSeen : Int
  deriving DecidableEq, Repr

/-- What the summary keys hold. -/
inductive Summary where
  | pool (summary : PoolSummary)
  | status (status : PoolStatus)
  | miner (summary : MinerSummary)
  | worker (summary : WorkerSummary)
  deriving DecidableEq, Repr

/-- The keys of Redis, with the strings, the latest first. -/
structure LiveState where
  store : Store
  strings : List (String × Summary)

/-- Redis before the first batch. -/
def LiveState.empty : LiveState := ⟨⟨[], [], fun _ => 0⟩, []⟩

/-- `SortedSetScoreAsync`. -/
def Store.score (store : Store) (key member : String) : Option Int :=
  store.scores.lookup (key, member)

section Rebuilding

variable (w : Writer)

/-- What `OrdinalIgnoreCase` compares of a text. -/
def Writer.ignoreCase (text : String) : List Char := text.toList.map w.upper

/-- `BucketStart` of a Unix time. -/
def Writer.bucketAt (seconds : Int) : Int := seconds - seconds.tmod w.bucketSeconds

/-- The start of the window. -/
def Writer.windowStart (now : DateTime) : DateTime := now - w.windowSeconds * 10000000

/-- `Buckets` of the window. -/
def Writer.buckets (now : DateTime) : List Int :=
  let start := w.bucketAt (toUnixTimeSeconds (w.windowStart now))
  let last := w.bucketAt (toUnixTimeSeconds now)
  (List.range ((last - start) / w.bucketSeconds + 1).toNat).map fun i : Nat =>
    start + (i : Int) * w.bucketSeconds

/-- `Counter.Add`. -/
def Counter.add (counter other : Counter) : Counter where
  total := counter.total + other.total
  accepted := counter.accepted + other.accepted
  rejected := counter.rejected + other.rejected
  stale := counter.stale + other.stale
  difficulty := counter.difficulty + other.difficulty

/-- `ReadCounterAsync`. -/
def readCounter (store : Store) (key : String) : Counter where
  total := truncate (store.hashes (key, "total"))
  accepted := truncate (store.hashes (key, "accepted"))
  rejected := truncate (store.hashes (key, "rejected"))
  stale := truncate (store.hashes (key, "stale"))
  difficulty := store.hashes (key, "difficulty")

/-- The counters of a subject, added up over the buckets. -/
def Writer.rebuildCounter (store : Store) (buckets : List Int) (key : Int → LiveKey) : Counter :=
  buckets.foldl
    (fun counter bucket => counter.add (readCounter store ((key bucket).name w.unicode)))
    ⟨⟨0, 0, 0, 0⟩, 0⟩

/-- `ParseWorkerPair`. -/
def parseWorkerPair (value : String) : String × String :=
  match value.toList.dropWhile (· ≠ '\t') with
  | [] => ("", "")
  | _ :: worker => (String.ofList (value.toList.takeWhile (· ≠ '\t')), String.ofList worker)

/-- The workers that `RebuildMinersAsync` groups for a miner. -/
def Writer.workersByMiner (workerPairs : List String) (miner : String) : List String :=
  let pairs := (workerPairs.map parseWorkerPair).filter fun x =>
    !isNullOrWhiteSpace (some x.1) && !isNullOrWhiteSpace (some x.2)
  KeyedSet.ofList w.ignoreCase
    ((pairs.filter fun x => w.ignoreCase x.1 = w.ignoreCase miner).map Prod.snd)

/-- The score of a worker in the sorted set of its pool. -/
def Writer.workerSeen (store : Store) (poolId : Option String) (miner worker : String) :
    Option Int :=
  store.score ((LiveKey.workersLastSeen poolId).name w.unicode) (miner ++ "." ++ worker)

/-- The later one of the result and a score that may be missing. -/
def latest (result score : Option Int) : Option Int :=
  match score with
  | none => result
  | some seen => if result.all (· < seen) then some seen else result

/-- `LatestWorkerSeenAsync`. -/
def Writer.latestWorkerSeen (store : Store) (poolId : Option String) (miner : String)
    (workers : List String) : Option Int :=
  workers.foldl (fun result worker => latest result (w.workerSeen store poolId miner worker)) none

/-- `RebuildWorkerAsync`. -/
def Writer.rebuildWorker (store : Store) (poolId : Option String) (buckets : List Int)
    (effectiveWindowSeconds : Int) (miner worker : String) : Option (LiveKey × Summary) :=
  let counter := w.rebuildCounter store buckets (.workerBucket poolId miner worker)
  if counter.total = 0 then none
  else
    some (.workerSummary poolId miner worker, .worker
      { counter.toSums with
        poolId := poolId
        miner := miner
        worker := worker
        hashrate := counter.difficulty / effectiveWindowSeconds
        lastSeen := (w.workerSeen store poolId miner worker).getD 0 })

/-- The summary that `RebuildMinersAsync` writes of a miner. -/
def Writer.minerSummary (store : Store) (poolId : Option String) (buckets : List Int)
    (effectiveWindowSeconds : Int) (miner : String) (workers : List String) : MinerSummary :=
  let counter := w.rebuildCounter store buckets (.minerBucket poolId miner)
  { counter.toSums with
    poolId := poolId
    miner := miner
    hashrate := counter.difficulty / effectiveWindowSeconds
    workersOnline := workers.length
    lastSeen := (w.latestWorkerSeen store poolId miner workers).getD 0 }

/-- `RebuildMinersAsync`. -/
def Writer.rebuildMiners (store : Store) (poolId : Option String) (miners workerPairs : List String)
    (buckets : List Int) (effectiveWindowSeconds : Int) : List (LiveKey × Summary) :=
  (miners.filter fun miner => !isNullOrWhiteSpace (some miner)).flatMap fun miner =>
    let workers := w.workersByMiner workerPairs miner
    (.minerSummary poolId miner,
      .miner (w.minerSummary store poolId buckets effectiveWindowSeconds miner workers)) ::
      workers.filterMap (w.rebuildWorker store poolId buckets effectiveWindowSeconds miner)

/-- `StringSetAsync`, one after the other. -/
def Writer.setStrings (state : LiveState) (writes : List (LiveKey × Summary)) : LiveState :=
  { state with
    strings := (writes.map fun x => (x.1.name w.unicode, x.2)).reverse ++ state.strings }

/-- The members of the sets of the buckets, without regard to case. -/
def Writer.unionMembers (store : Store) (buckets : List Int) (key : Int → LiveKey) : List String :=
  KeyedSet.ofList w.ignoreCase
    (buckets.flatMap fun bucket => w.members store.sets ((key bucket).name w.unicode))

/-- `SortedSetRemoveRangeByScoreAsync` of the workers that were last seen before a time. -/
def Writer.removeSeenBefore (store : Store) (poolId : Option String) (seconds : Int) : Store :=
  { store with
    scores := store.scores.filter fun x =>
      ¬(x.1.1 = (LiveKey.workersLastSeen poolId).name w.unicode ∧ x.2 ≤ seconds - 1) }

/-- The seconds since the oldest bucket with an event, up to the length of the window. -/
def Writer.availableSeconds (store : Store) (poolId : Option String) (now : DateTime) : Int :=
  let oldestNonEmptyBucket := (w.buckets now).find? fun bucket =>
    0 < (readCounter store ((LiveKey.poolBucket poolId bucket).name w.unicode)).total
  match oldestNonEmptyBucket with
  | none => 0
  | some bucket =>
    min w.windowSeconds (max 0 (((now : Int) - (bucket + 62135596800) * 10000000).tdiv 10000000))

/-- The seconds that a hashrate is the mean of. -/
def Writer.effectiveWindowSeconds (store : Store) (poolId : Option String) (now : DateTime) : Int :=
  let available := w.availableSeconds store poolId now
  max 1 (if w.windowSeconds ≤ available then w.windowSeconds else available)

/-- The summary of a pool. -/
def Writer.poolSummary (store : Store) (poolId : Option String) (now : DateTime)
    (miners workerPairs : List String) : PoolSummary :=
  let pool := w.rebuildCounter store (w.buckets now) (.poolBucket poolId)
  { pool.toSums with
    poolId := poolId
    hashrate := pool.difficulty / w.effectiveWindowSeconds store poolId now
    minersOnline := miners.length
    workersOnline := workerPairs.length
    updated := now }

/-- The status that `MarkStatusAsync` writes of a pool. -/
def Writer.poolStatus (store : Store) (poolId : Option String) (now : DateTime) : PoolStatus :=
  let available := w.availableSeconds store poolId now
  { poolId := poolId
    status := if w.windowSeconds ≤ available then "ready" else "warming_up"
    windowSeconds := w.windowSeconds
    availableWindowSeconds := available
    updated := now }

/-- The strings that `RebuildPoolWindowAsync` sets. -/
def Writer.rebuildSummaries (now : DateTime) (store : Store) (poolId : Option String) :
    List (LiveKey × Summary) :=
  let buckets := w.buckets now
  let miners := w.unionMembers store buckets (.bucketMiners poolId)
  let workerPairs := w.unionMembers store buckets (.bucketWorkers poolId)
  let remaining := w.removeSeenBefore store poolId (toUnixTimeSeconds (w.windowStart now))
  (.summary poolId, .pool (w.poolSummary store poolId now miners workerPairs)) ::
    (.status poolId, .status (w.poolStatus store poolId now)) ::
    w.rebuildMiners remaining poolId miners workerPairs buckets
      (w.effectiveWindowSeconds store poolId now)

/-- `RebuildPoolWindowAsync`. -/
def Writer.rebuildPoolWindow (now : DateTime) (state : LiveState) (poolId : Option String) :
    LiveState :=
  let store := w.removeSeenBefore state.store poolId (toUnixTimeSeconds (w.windowStart now))
  w.setStrings { state with store := store } (w.rebuildSummaries now state.store poolId)

/-- `WriteBatchAsync` without a failure. -/
def Writer.writeBatch (state : LiveState) (now : DateTime) (batch : List ShareEvent) : LiveState :=
  let poolIds := KeyedSet.ofList (fun poolId : Option String => w.ignoreCase (poolId.getD ""))
    ((batch.map ShareEvent.poolId).filter fun poolId => !isNullOrEmpty poolId)
  poolIds.foldl (w.rebuildPoolWindow now)
    { state with store := batch.foldl (writeEvent w.toConfig) state.store }

/-- Batches, one after the other, each with the time its pools are rebuilt at. -/
def Writer.writeBatches (state : LiveState) (batches : List (DateTime × List ShareEvent)) :
    LiveState :=
  batches.foldl (fun state batch => w.writeBatch state batch.1 batch.2) state

/-- The value of a key. -/
def Writer.get (state : LiveState) (key : LiveKey) : Option Summary :=
  state.strings.lookup (key.name w.unicode)

end Rebuilding

end HashStorm.LiveAggregator
