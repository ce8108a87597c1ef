import HashStorm.Lib.Rounding
import HashStorm.Stratum.Text
import Mathlib.Data.List.Nodup

/-!
# Resets of idle workers

`UpdatePoolHashratesAsync` writes a hashrate sample for every miner and worker with shares in the
window, and a sample of zero for those that had a hashrate before and have no shares any more. To
find these it joins miner and worker by a dot, and splits the texts that are left over. Doubles are
exact rationals.
-/

namespace HashStorm.Mining.StatsRecorder

open Stratum Rounding

/-- `MinerWorkerHashes`: the shares of a miner and a worker in the window. -/
structure MinerWorkerHashes where
  sum : Rat
  count : Nat
  miner : Text
  worker : Option Text
  firstShare : Int
  lastShare : Int
  deriving DecidableEq, Repr

/-- A row of `minerstats`. -/
structure MinerStats where
  poolId : Text
  miner : Text
  worker : Text
  hashrate : Rat
  sharesPerSecond : Rat
  created : Int
  deriving DecidableEq, Repr

/-- The miner and the worker of a sample. -/
def MinerStats.pair (r : MinerStats) : Text × Text := (r.miner, r.worker)

/-- A row of `poolstats`, without what the blockchain adds. -/
structure PoolStats where
  poolId : Text
  created : Int
  connectedMiners : Nat
  poolHashrate : Rat
  sharesPerSecond : Rat
  deriving DecidableEq, Repr

/-- `HashrateNotification`. -/
structure HashrateNotification where
  poolId : Text
  hashrate : Rat
  miner : Option Text := none
  worker : Option Text := none
  deriving DecidableEq, Repr

/-- A pool with its `HashrateFromShares`. -/
structure Pool where
  id : Text
  hashrateFromShares : Rat → Rat → Rat

/-- `clock.Now` and `hashrateCalculationWindow` in ticks, and what `GetHashAccumulationBetweenAsync`
finds for a pool. -/
structure Update where
  now : Int
  window : Int
  accumulated : Text → List MinerWorkerHashes

/-- The tables, the messages, and the samples that have been written as resets. -/
structure State where
  minerStats : List MinerStats
  poolStats : List PoolStats
  notifications : List HashrateNotification
  resets : List MinerStats
  deriving DecidableEq, Repr

section Keys

/-- `keySeparator`. -/
def keySeparator : UInt16 := 46

/-- `BuildKey`. -/
def buildKey (miner : Text) (worker : Option Text) : Text :=
  match worker with
  | none | some [] => miner
  | some worker => miner ++ keySeparator :: worker

/-- The miner and the worker that an orphaned key is split into. -/
def splitKey (item : Text) : Text × Option Text :=
  let parts := item.splitOn keySeparator
  (parts.headD [], parts[1]?)

end Keys

section Repository

/-- `InsertMinerWorkerPerformanceStatsAsync` writes an empty worker for none. -/
def minerStatsRow (poolId miner : Text) (worker : Option Text) (hashrate sharesPerSecond : Rat)
    (created : Int) : MinerStats :=
  ⟨poolId, miner, worker.getD [], hashrate, sharesPerSecond, created⟩

/-- The rows of a pool. -/
def poolRows (minerStats : List MinerStats) (poolId : Text) : List MinerStats :=
  minerStats.filter fun r => r.poolId = poolId

/-- The latest sample of a miner and worker. -/
def latest (rows : List MinerStats) (pair : Text × Text) : Option MinerStats :=
  (rows.filter fun r => r.pair = pair).maxOn? (·.created)

/-- `GetPoolMinerWorkerHashratesAsync` on the rows of the pool. -/
def getPoolMinerWorkerHashrates (rows : List MinerStats) : List MinerStats :=
  (rows.map (·.pair)).eraseDups.filterMap fun pair =>
    (latest rows pair).filter fun r => 0 < r.hashrate

end Repository

section Samples

/-- `TotalSeconds`. -/
def totalSeconds (ticks : Int) : Rat := ticks / 10000000

/-- `GroupBy(x => x.Miner)`. -/
def byMiner (result : List MinerWorkerHashes) : List (Text × List MinerWorkerHashes) :=
  (result.map (·.miner)).eraseDups.map fun miner => (miner, result.filter fun x => x.miner = miner)

/-- `minerHashTimeFrame`. -/
def minerHashTimeFrame (u : Update) (minerHashes : List MinerWorkerHashes) : Rat :=
  let timeFrom := u.now - u.window
  let window := totalSeconds u.window
  let timeFrameBeforeFirstShare :=
    totalSeconds ((minerHashes.map (·.firstShare)).min?.getD 0 - timeFrom)
  let timeFrameAfterLastShare := totalSeconds (u.now - (minerHashes.map (·.lastShare)).max?.getD 0)
  let late := decide (window * (1 / 10) ≤ timeFrameBeforeFirstShare)
  let idle := decide (window * (1 / 10) ≤ timeFrameAfterLastShare)
  let frame : Rat := if late then ⌊window - timeFrameBeforeFirstShare⌋ else window
  let frame : Rat := if idle then ⌊window + timeFrameAfterLastShare⌋ else frame
  let frame : Rat :=
    if late && idle then window - timeFrameBeforeFirstShare + timeFrameAfterLastShare else frame
  if frame < 1 then 1 else frame

/-- The sample of a worker. -/
def sample (u : Update) (pool : Pool) (minerHashes : List MinerWorkerHashes)
    (item : MinerWorkerHashes) : MinerStats :=
  let frame := minerHashTimeFrame u minerHashes
  minerStatsRow pool.id item.miner item.worker (pool.hashrateFromShares item.sum frame)
    (roundTo 3 (item.count / frame)) u.now

/-- The samples of all miners. -/
def samples (u : Update) (pool : Pool) (result : List MinerWorkerHashes) : List MinerStats :=
  (byMiner result).flatMap fun g => g.2.map (sample u pool g.2)

/-- The messages about a miner: one for each worker, and one for their sum. -/
def minerNotifications (u : Update) (pool : Pool) (g : Text × List MinerWorkerHashes) :
    List HashrateNotification :=
  let hashrates := g.2.map fun item => pool.hashrateFromShares item.sum (minerHashTimeFrame u g.2)
  g.2.map (fun item =>
      ⟨pool.id, pool.hashrateFromShares item.sum (minerHashTimeFrame u g.2), some g.1,
        item.worker⟩) ++
    [⟨pool.id, hashrates.sum, some g.1, none⟩]

/-- The statistics of the pool. -/
def updatePoolStats (u : Update) (pool : Pool) (result : List MinerWorkerHashes) : PoolStats :=
  if result.length > 0 then
    { poolId := pool.id
      created := u.now
      connectedMiners := (byMiner result).length
      poolHashrate :=
        pool.hashrateFromShares (result.map (·.sum)).sum (totalSeconds u.window)
      sharesPerSecond := roundTo 3 ((result.map (·.count)).sum / totalSeconds u.window) }
  else ⟨pool.id, u.now, 0, 0, 0⟩

end Samples

section Update

/-- `currentNonZeroMinerWorkers`. -/
def currentNonZeroMinerWorkers (result : List MinerWorkerHashes) : List Text :=
  (byMiner result).flatMap fun g =>
    buildKey g.1 none :: g.2.map fun item => buildKey g.1 item.worker

/-- `previousNonZeroMinerWorkers.Except(currentNonZeroMinerWorkers)`. -/
def orphanedHashrateForMinerWorker (previous : List MinerStats)
    (result : List MinerWorkerHashes) : List Text :=
  let previousNonZeroMinerWorkers :=
    (previous.map fun x => buildKey x.miner (some x.worker)).eraseDups
  previousNonZeroMinerWorkers.filter fun key => !(currentNonZeroMinerWorkers result).contains key

/-- The sample that resets an orphaned key. -/
def resetRow (u : Update) (poolId item : Text) : MinerStats :=
  minerStatsRow poolId (splitKey item).1 (splitKey item).2 0 0 u.now

/-- The iteration of `UpdatePoolHashratesAsync` for a pool. -/
def updatePool (u : Update) (s : State) (pool : Pool) : State :=
  let result := u.accumulated pool.id
  let poolStats := updatePoolStats u pool result
  let previousMinerWorkerHashrates :=
    getPoolMinerWorkerHashrates (poolRows s.minerStats pool.id)
  let orphaned := orphanedHashrateForMinerWorker previousMinerWorkerHashrates result
  let resets := orphaned.map (resetRow u pool.id)
  { minerStats := s.minerStats ++ samples u pool result ++ resets
    poolStats := s.poolStats ++ [poolStats]
    notifications := s.notifications ++ [⟨pool.id, poolStats.poolHashrate, none, none⟩] ++
      (byMiner result).flatMap (minerNotifications u pool) ++
      orphaned.map fun item => ⟨pool.id, 0, some (splitKey item).1, (splitKey item).2⟩
    resets := s.resets ++ resets }

/-- `UpdatePoolHashratesAsync`, when it is not cancelled. -/
def updatePoolHashrates (u : Update) (pools : List Pool) (minerStats : List MinerStats)
    (poolStats : List PoolStats) : State :=
  pools.foldl (updatePool u) ⟨minerStats, poolStats, [], []⟩

end Update

end HashStorm.Mining.StatsRecorder
