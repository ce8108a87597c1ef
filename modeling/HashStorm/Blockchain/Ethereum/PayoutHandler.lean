import HashStorm.Payments.Repository
import Mathlib.Tactic.NormNum
import Mathlib.Tactic.Positivity

/-!
# Ethereum blocks

`EthereumPayoutHandler.ClassifyBlocksAsync` decides which pending blocks are
confirmed, which are orphaned and which stay pending. It asks the daemon for the
latest height and then for blocks and uncles, one request after the other, and
compares heights by subtracting them as `ulong`. A height above the latest one
makes a large difference.
-/

namespace HashStorm.Ethereum.Payout

open Contracts Payments

section Rewards

/-- `GethChainType`. -/
inductive ChainType where
  | main
  | ropsten
  | ubiq
  | classic
  | mordor
  | callisto
  | mainPow
  | etherOne
  | pink
  | octaSpace
  | octaSpaceTestnet
  | hypra
  | cortex
  | dolores
  | bernard
  | unknown
  deriving DecidableEq, Repr

/-- The reward of the first fork, in the order in which they are tested, that has taken place at
a height. -/
def rewardAt (height : UInt64) (initial : Rat) : List (UInt64 × Rat) → Rat
  | [] => initial
  | (fork, reward) :: forks => if fork ≤ height then reward else rewardAt height initial forks

/-- `EthereumClassicConstants.EraLength`. -/
def eraLength : UInt64 := 5000001

/-- `decimal.MaxValue`. -/
def decimalMax : Nat := 2 ^ 96 - 1

/-- The reward of a Cortex chain. -/
def cortexReward (height period : UInt64) : Rat :=
  if period ≤ height then 7 / (height.toNat / period.toNat : Nat) else 7

/-- `GetBaseBlockReward`; `none` is the exception for an unsupported chain, and that for a power
that is too large for a `decimal`. -/
def getBaseBlockReward (chainType : ChainType) (height : UInt64) : Option Rat :=
  match chainType with
  | .main | .mainPow => some (rewardAt height 5 [(7280000, 2), (4370000, 3)])
  | .classic | .mordor =>
    let era := (height / eraLength).toNat
    if decimalMax < 5 ^ era then none else some (5 * 4 ^ era / 5 ^ era)
  | .etherOne => some 2
  | .pink => some 1
  | .callisto => some (7776 / 100 * (50 / 100))
  | .ubiq => some (rewardAt height 8 [(1791793, 3 / 2), (1433454, 4), (1075090, 5), (716727, 6),
      (358363, 7)])
  | .octaSpace | .octaSpaceTestnet => some (rewardAt height (13 / 2) [(10000000, 1),
      (8000000, 11 / 10), (6000000, 12 / 10), (4000000, 185 / 100), (3000000, 23 / 10),
      (2500000, 28 / 10), (2000000, 3), (1500000, 7 / 2), (1000000, 4), (650000, 5)])
  | .hypra => some (rewardAt height 4 [(15787969, 3), (27200177, 2), (40725107, 1)])
  | .cortex | .bernard => some (cortexReward height 8409600)
  | .dolores => some (cortexReward height 1000000)
  | .ropsten | .unknown => none

/-- `GetUncleReward`. The difference of the heights is that of unsigned numbers. -/
def getUncleReward (chainType : ChainType) (uheight height : UInt64)
    (totalDuplicateBlockBefore : Nat) (maxUncles : Int) : Option Rat := do
  let reward ← getBaseBlockReward chainType height
  let share (generations : UInt64) : Rat :=
    (if uheight ≠ height then reward * (uheight + generations - height).toNat else reward) /
      generations.toNat
  let reward :=
    match chainType with
    | .classic | .mordor => if height / eraLength = 0 then share 8 else reward / 32
    | .ubiq => share 2
    | .hypra => 1 / 10
    | _ => share 8
  return if maxUncles < totalDuplicateBlockBefore then 0 else reward

theorem rewardAt_nonneg (height : UInt64) {initial : Rat} {forks : List (UInt64 × Rat)}
    (hinitial : 0 ≤ initial) (hforks : ∀ e ∈ forks, 0 ≤ e.2) :
    0 ≤ rewardAt height initial forks := by
  induction forks with
  | nil => exact hinitial
  | cons e forks ih =>
    obtain ⟨he, hforks⟩ := List.forall_mem_cons.mp hforks
    unfold rewardAt
    split
    · exact he
    · exact ih hforks

theorem cortexReward_nonneg (height period : UInt64) : 0 ≤ cortexReward height period := by
  unfold cortexReward
  split <;> positivity

theorem getBaseBlockReward_nonneg {chainType : ChainType} {height : UInt64} {reward : Rat}
    (h : getBaseBlockReward chainType height = some reward) : 0 ≤ reward := by
  cases chainType <;> simp only [getBaseBlockReward] at h
  case classic | mordor =>
    split at h <;> cases h
    positivity
  all_goals cases h
  case main | mainPow | ubiq | octaSpace | octaSpaceTestnet | hypra =>
    exact rewardAt_nonneg height (by norm_num) (by decide +kernel)
  case cortex | bernard | dolores => exact cortexReward_nonneg height _
  all_goals positivity

/-- An uncle never costs anything. -/
theorem getUncleReward_nonneg {chainType : ChainType} {uheight height : UInt64} {before : Nat}
    {maxUncles : Int} {reward : Rat}
    (h : getUncleReward chainType uheight height before maxUncles = some reward) :
    0 ≤ reward := by
  obtain ⟨base, hbase, h⟩ := Option.bind_eq_some_iff.mp h
  have hnonneg := getBaseBlockReward_nonneg hbase
  have hshare : ∀ generations : UInt64,
      0 ≤ (if uheight ≠ height then base * (uheight + generations - height).toNat else base) /
        generations.toNat := by
    intro generations
    refine div_nonneg ?_ (Nat.cast_nonneg _)
    split
    · exact mul_nonneg hnonneg (Nat.cast_nonneg _)
    · exact hnonneg
  cases h
  split
  · exact le_refl 0
  split
  · split
    · exact hshare 8
    · exact div_nonneg hnonneg (by norm_num)
  · split
    · exact hshare 8
    · exact div_nonneg hnonneg (by norm_num)
  · exact hshare 2
  · norm_num
  · exact hshare 8

end Rewards

section Data

/-- `BlockTypeBlock` and `BlockTypeUncle`. -/
inductive BlockType where
  | block
  | uncle
  deriving DecidableEq, Repr

/-- What is read and written of a row of `blocks`. -/
structure Row where
  id : Nat
  poolId : String
  blockHeight : UInt64
  status : BlockStatus
  type : Option BlockType
  reward : Rat
  hash : String
  confirmationProgress : Rat
  created : DateTime
  deriving DecidableEq, Repr

/-- What is read of a transaction of a block. -/
structure Transaction where
  hash : String
  gasPrice : Nat
  deriving DecidableEq, Repr

/-- A block or an uncle as the daemon returns it. -/
structure ChainBlock where
  height : Option UInt64
  hash : String
  miner : String
  uncles : List String := []
  baseFeePerGas : UInt64 := 0
  gasUsed : UInt64 := 0
  transactions : List Transaction := []
  deriving DecidableEq, Repr

/-- The daemon's answers to numbered requests, for the latest height, for the block at a height,
for an uncle of the block at a height and for the gas used by a transaction; `none` is an error
or an empty answer. Two requests may be answered from different chains. -/
structure Daemon where
  enoughPeers : Bool
  latest : Nat → Option UInt64
  block : Nat → UInt64 → Option ChainBlock
  uncle : Nat → UInt64 → Nat → Option ChainBlock
  receipt : Nat → String → Option Nat

/-- `EthereumPoolPaymentProcessingConfigExtra`. -/
structure ExtraConfig where
  keepTransactionFees : Bool
  keepUncles : Bool
  blockSearchOffset : UInt32
  deriving DecidableEq, Repr

/-- What the handler reads of its configuration. -/
structure Handler where
  poolId : String
  address : String
  chainType : ChainType
  maxUncles : Int
  burnsBaseFee : Bool
  extraConfig : Option ExtraConfig
  deriving DecidableEq, Repr

/-- `string.Equals` with `OrdinalIgnoreCase`, for the hex digits of an address. -/
def Handler.isOurs (handler : Handler) (miner : String) : Bool :=
  miner.toList.map Char.toUpper = handler.address.toList.map Char.toUpper

variable (poolId : String) (rows : List Row)

/-- `GetPendingBlocksForPoolAsync`. -/
def getPendingBlocksForPool : List Row :=
  rows.filter fun r => r.poolId = poolId ∧ r.status = .pending

/-- The blocks of the pool at a height, with one of the given statuses. -/
def duplicateBlocks (height : UInt64) (status : List BlockStatus) : List Row :=
  rows.filter fun r => r.poolId = poolId ∧ r.blockHeight = height ∧ r.status ∈ status

/-- `GetPoolDuplicateBlockCountByPoolHeightNoTypeAndStatusAsync`. -/
def duplicateBlockCount (height : UInt64) (status : List BlockStatus) : Nat :=
  (duplicateBlocks poolId rows height status).length

/-- `GetPoolDuplicateBlockBeforeCountByPoolHeightNoTypeAndStatusAsync`. -/
def duplicateBlockBeforeCount (height : UInt64) (status : List BlockStatus)
    (before : DateTime) : Nat :=
  ((duplicateBlocks poolId rows height status).filter fun r => r.created < before).length

/-- `GetPoolDuplicateBlockAfterCountByPoolHeightNoTypeAndStatusAsync`. -/
def duplicateBlockAfterCount (height : UInt64) (status : List BlockStatus)
    (after : DateTime) : Nat :=
  ((duplicateBlocks poolId rows height status).filter fun r => after < r.created).length

/-- `GetBlockByPoolHeightAndTypeAsync`. -/
def getBlockByPoolHeightAndType (height : UInt64) (type : BlockType) : Option Row :=
  rows.find? fun r => r.poolId = poolId ∧ r.blockHeight = height ∧ r.type = some type

end Data

section Classify

/-- `MinConfimations`. -/
def minConfimations : UInt64 := 16

/-- The requests made so far, and the blocks that were fetched, by their heights. -/
structure Session where
  requests : Nat
  blockCache : UInt64 → Option ChainBlock

/-- Nothing has been fetched yet. -/
def Session.initial : Session := ⟨0, fun _ => none⟩

variable (handler : Handler) (daemon : Daemon) (rows : List Row)

/-- One request of `FetchBlocks`. -/
def Session.fetch (s : Session) (height : UInt64) : Option Session :=
  match daemon.block s.requests height with
  | none => some { s with requests := s.requests + 1 }
  | some block =>
    block.height.map fun h =>
      { requests := s.requests + 1, blockCache := Function.update s.blockCache h (some block) }

/-- `FetchBlocks`; `none` when a block is missing in the end. -/
def fetchBlocks (s : Session) (blockHeights : List UInt64) :
    Option (List ChainBlock × Session) := do
  let cacheMisses := blockHeights.filter fun x => (s.blockCache x).isNone
  let s ← cacheMisses.foldlM (Session.fetch daemon) s
  let blocks ← blockHeights.mapM s.blockCache
  return (blocks, s)

/-- `Convert.ToInt64`, which throws for heights that are too large. -/
def toInt64 (height : UInt64) : Option UInt64 :=
  if height.toNat < 2 ^ 63 then some height else none

/-- What the decision about a block rests on: it is put off, there is a later block of the pool at
its height, it is on the main chain, it is an uncle, or it is nowhere to be found. -/
inductive Ground where
  | undecided
  | duplicate (reward : Rat)
  | mainChain (hash : String)
  | uncle (height : UInt64) (hash : String) (reward : Rat)
  | lost
  deriving DecidableEq, Repr

/-- A block before and after its classification, with the latest height it was compared to. -/
structure Decision where
  latestBlockHeight : UInt64
  before : Row
  after : Row
  ground : Ground
  deriving DecidableEq, Repr

/-- `GetTxRewardAsync`. -/
def getTxReward (s : Session) (blockInfo : ChainBlock) : Option (Rat × Session) := do
  let rewards ← (blockInfo.transactions.zipIdx s.requests).mapM fun (tx, request) =>
    (daemon.receipt request tx.hash).map fun gasUsed =>
      (gasUsed : Rat) * (tx.gasPrice / 1000000000000000000)
  return (rewards.sum, { s with requests := s.requests + blockInfo.transactions.length })

/-- The reward of a block on the main chain: the base reward, and what the configuration adds. -/
def blockReward (s : Session) (height : UInt64) (blockInfo answer : ChainBlock) :
    Option (Rat × Session) := do
  let base ← getBaseBlockReward handler.chainType height
  let burnedFee : Rat := if handler.burnsBaseFee then
    (answer.baseFeePerGas * answer.gasUsed).toNat / 1000000000000000000 else 0
  let withUncles :=
    if handler.extraConfig.any fun x => !x.keepUncles then
      base + blockInfo.uncles.length * (base / 32)
    else base
  if (handler.extraConfig.any fun x => !x.keepTransactionFees) ∧ blockInfo.transactions ≠ [] then
    let (txReward, s) ← getTxReward daemon s blockInfo
    return (withUncles + (txReward - burnedFee), s)
  else return (withUncles, s)

/-- The branch for a block at whose height the main chain has one of ours. -/
def classifyOwn (s : Session) (latestBlockHeight : UInt64) (block : Row)
    (blockInfo : ChainBlock) : Option (Row × Ground × Session) := do
  -- mature?
  if minConfimations ≤ latestBlockHeight - block.blockHeight then
    let height ← toInt64 block.blockHeight
    let infoHeight ← blockInfo.height
    let totalDuplicateBlock := duplicateBlockCount handler.poolId rows height [block.status]
    let totalDuplicateBlockAfter :=
      if 1 < totalDuplicateBlock then
        duplicateBlockAfterCount handler.poolId rows height [block.status] block.created
      else 0
    if 1 < totalDuplicateBlock ∧ 0 < totalDuplicateBlockAfter then
      let totalDuplicateBlockBefore := duplicateBlockBeforeCount handler.poolId rows height
        [.confirmed, .orphaned, .pending] block.created
      let reward ← getUncleReward handler.chainType block.blockHeight block.blockHeight
        totalDuplicateBlockBefore handler.maxUncles
      return (
        { block with
          status := if 0 < reward then .confirmed else .orphaned
          reward := if 0 < reward then reward else 0
          confirmationProgress := 1
          blockHeight := infoHeight
          type := some .uncle }, .duplicate reward, s)
    else
      let answer ← daemon.block s.requests block.blockHeight
      let s := { s with requests := s.requests + 1 }
      -- is it still block mined by us?
      if handler.isOurs answer.miner then
        let (reward, s) ← blockReward handler daemon s infoHeight blockInfo answer
        return (
          { block with
            hash := answer.hash
            status := .confirmed
            confirmationProgress := 1
            blockHeight := infoHeight
            reward := reward
            type := some .block }, .mainChain answer.hash, s)
      else return (block, .undecided, s)
  else return (block, .undecided, s)

/-- The uncles of a block, as far as they are returned. -/
def fetchUncles (s : Session) (height : UInt64) (blockInfo : ChainBlock) : List ChainBlock :=
  (List.range blockInfo.uncles.length).filterMap fun i => daemon.uncle (s.requests + i) height i

/-- The reward of a block for which an uncle was found, unless it has one already. -/
def provisionalReward (block : Row) (uheight height : UInt64) (totalDuplicateBlockBefore : Nat) :
    Option Rat :=
  if block.reward = 0 then
    getUncleReward handler.chainType uheight height totalDuplicateBlockBefore handler.maxUncles
  else some block.reward

/-- The loop over the blocks that may contain an uncle of ours. It ends with the first uncle that
is not mature yet or that no block of the pool is stored as; the reward of a block without one is
filled in on the way. -/
def searchUncle (latestBlockHeight : UInt64) (block : Row) :
    Session → List ChainBlock → Option (Row × Ground × Session)
  | s, [] => some (block, .undecided, s)
  | s, blockInfo :: rest =>
    if blockInfo.uncles.length = 0 then searchUncle latestBlockHeight block s rest
    else do
      let height ← blockInfo.height
      let uncles := fetchUncles daemon s height blockInfo
      let s := { s with requests := s.requests + blockInfo.uncles.length }
      match uncles.find? fun x => handler.isOurs x.miner with
      | none => searchUncle latestBlockHeight block s rest
      | some uncle =>
        let uncleHeight ← uncle.height
        let key ← toInt64 uncleHeight
        let totalDuplicateBlockBefore := duplicateBlockBeforeCount handler.poolId rows key
          [.confirmed, .orphaned, .pending] block.created
        let provisional ← provisionalReward handler block uncleHeight height
          totalDuplicateBlockBefore
        let block := { block with reward := provisional }
        -- mature?
        if minConfimations ≤ latestBlockHeight - uncleHeight then
          if (getBlockByPoolHeightAndType handler.poolId rows key .uncle).isSome then
            searchUncle latestBlockHeight block s rest
          else
            let reward ← getUncleReward handler.chainType uncleHeight height
              totalDuplicateBlockBefore handler.maxUncles
            return (
              { block with
                hash := uncle.hash
                reward := if 0 < reward then reward else 0
                blockHeight := uncleHeight
                status := if 0 < reward then .confirmed else .orphaned
                confirmationProgress := if 0 < reward then 1 else block.confirmationProgress
                type := some .uncle }, .uncle uncleHeight uncle.hash reward, s)
        else return (block, .undecided, s)

/-- The heights at which uncles are looked for. -/
def searchRange (latestBlockHeight blockHeight : UInt64) (offset : UInt32) : List UInt64 :=
  let heightMin := blockHeight - offset.toUInt64
  let heightMax := min (blockHeight + offset.toUInt64) latestBlockHeight
  (List.range (heightMax.toNat - heightMin.toNat)).map fun k => heightMin + UInt64.ofNat k

/-- The branch for a block at whose height the main chain has one of another miner. -/
def classifyOther (s : Session) (latestBlockHeight : UInt64) (block : Row) :
    Option (Row × Ground × Session) := do
  let extraConfig ← handler.extraConfig
  let (blockInfo2s, s) ← fetchBlocks daemon s
    (searchRange latestBlockHeight block.blockHeight extraConfig.blockSearchOffset)
  let (block, ground, s) ← searchUncle handler daemon rows latestBlockHeight block s blockInfo2s
  if block.status = .pending ∧ 3 / 4 < block.confirmationProgress then
    -- we've lost this one
    return ({ block with hash := "0x0", status := .orphaned, reward := 0 }, .lost, s)
  else return (block, ground, s)

/-- The progress of a block towards its confirmation. -/
def confirmationProgress (latestBlockHeight blockHeight : UInt64) : Rat :=
  min 1 ((latestBlockHeight - blockHeight).toNat / minConfimations.toNat)

/-- The body of the loop over a page. -/
def classifyBlock (s : Session) (latestBlockHeight : UInt64) (block : Row)
    (blockInfo : ChainBlock) : Option (Decision × Session) :=
  let progressed := { block with
    confirmationProgress := confirmationProgress latestBlockHeight block.blockHeight }
  -- is it block mined by us?
  let classified :=
    if handler.isOurs blockInfo.miner then
      classifyOwn handler daemon rows s latestBlockHeight progressed blockInfo
    else classifyOther handler daemon rows s latestBlockHeight progressed
  classified.map fun (after, ground, s) => (⟨latestBlockHeight, block, after, ground⟩, s)

/-- The loop over a page: the decisions, and the session unless there was an exception. -/
def classifyPage (latestBlockHeight : UInt64) :
    Session → List (Row × ChainBlock) → List Decision × Option Session
  | s, [] => ([], some s)
  | s, (block, blockInfo) :: rest =>
    match classifyBlock handler daemon rows s latestBlockHeight block blockInfo with
    | none => ([], none)
    | some (decision, s) =>
      let (decisions, s) := classifyPage latestBlockHeight s rest
      (decision :: decisions, s)

/-- The loop over the pages. -/
def classifyPages : Session → List (List Row) → List Decision × Option Session
  | s, [] => ([], some s)
  | s, page :: rest =>
    match daemon.latest s.requests with
    | none => ([], none)
    | some latestBlockHeight =>
      match fetchBlocks daemon { s with requests := s.requests + 1 }
        (page.map Row.blockHeight) with
      | none => ([], none)
      | some (blockInfos, s) =>
        match classifyPage handler daemon rows latestBlockHeight s (page.zip blockInfos) with
        | (decisions, none) => (decisions, none)
        | (decisions, some s) =>
          let (later, s) := classifyPages s rest
          (decisions ++ later, s)

/-- Blocks in pages. -/
def pages (size : Nat) (blocks : List Row) : List (List Row) :=
  (List.range ((blocks.length + size - 1) / size)).map fun i =>
    (blocks.drop (i * size)).take size

/-- The decisions of one call of `ClassifyBlocksAsync`, and whether it returns. -/
structure Classification where
  decisions : List Decision
  returned : Option (List Row)
  deriving DecidableEq, Repr

/-- `ClassifyBlocksAsync`. -/
def classifyBlocks (blocks : List Row) : Classification :=
  if ¬daemon.enoughPeers then ⟨[], some blocks⟩
  else
    match classifyPages handler daemon rows .initial (pages 100 blocks) with
    | (decisions, none) => ⟨decisions, none⟩
    | (decisions, some _) => ⟨decisions, some (decisions.map Decision.after)⟩

end Classify

section Specs

variable {handler : Handler} {daemon : Daemon} {rows : List Row}

theorem toInt64_eq_some {height key : UInt64} (h : toInt64 height = some key) : key = height := by
  rw [toInt64] at h
  split at h
  · cases h
    rfl
  · cases h

/-- Every block is kept under its own height. -/
def Session.Keyed (s : Session) : Prop :=
  ∀ height block, s.blockCache height = some block → block.height = some height

theorem Session.keyed_initial : Session.initial.Keyed := fun _ _ h => by cases h

theorem Session.Keyed.fetch {s s' : Session} (hs : s.Keyed) {height : UInt64}
    (h : Session.fetch daemon s height = some s') : s'.Keyed := by
  unfold Session.fetch at h
  split at h
  · cases h
    exact hs
  · obtain ⟨key, hkey, rfl⟩ := Option.map_eq_some_iff.mp h
    intro other block hblock
    by_cases hother : other = key
    · subst hother
      simp only [Function.update_self, Option.some.injEq] at hblock
      rw [← hblock]
      exact hkey
    · simp only [Function.update_of_ne hother] at hblock
      exact hs other block hblock

theorem Session.Keyed.fetchAll {heights : List UInt64} {s s' : Session} (hs : s.Keyed)
    (h : heights.foldlM (Session.fetch daemon) s = some s') : s'.Keyed := by
  induction heights generalizing s with
  | nil =>
    cases h
    exact hs
  | cons height heights ih =>
    rw [List.foldlM_cons] at h
    obtain ⟨t, ht, h⟩ := Option.bind_eq_some_iff.mp h
    exact ih (hs.fetch ht) h

theorem zip_mapM {α β : Type*} {f : α → Option β} {xs : List α} {ys : List β}
    (h : xs.mapM f = some ys) : ∀ p ∈ xs.zip ys, f p.1 = some p.2 := by
  induction xs generalizing ys with
  | nil => simp
  | cons x xs ih =>
    rw [List.mapM_cons] at h
    obtain ⟨y, hy, h⟩ := Option.bind_eq_some_iff.mp h
    obtain ⟨rest, hrest, h⟩ := Option.bind_eq_some_iff.mp h
    cases h
    intro p hp
    rcases List.mem_cons.mp hp with rfl | hp
    · exact hy
    · exact ih hrest p hp

/-- The blocks that are fetched have the heights that were asked for. -/
theorem fetchBlocks_spec {s s' : Session} {heights : List UInt64} {blocks : List ChainBlock}
    (hs : s.Keyed) (h : fetchBlocks daemon s heights = some (blocks, s')) :
    s'.Keyed ∧ ∀ p ∈ heights.zip blocks, p.2.height = some p.1 := by
  obtain ⟨t, ht, h⟩ := Option.bind_eq_some_iff.mp h
  obtain ⟨found, hfound, h⟩ := Option.bind_eq_some_iff.mp h
  cases h
  have hkeyed := hs.fetchAll ht
  exact ⟨hkeyed, fun p hp => hkeyed p.1 p.2 (zip_mapM hfound p hp)⟩

theorem getTxReward_blockCache {s s' : Session} {blockInfo : ChainBlock} {reward : Rat}
    (h : getTxReward daemon s blockInfo = some (reward, s')) : s'.blockCache = s.blockCache := by
  obtain ⟨rewards, -, h⟩ := Option.bind_eq_some_iff.mp h
  cases h
  rfl

theorem blockReward_blockCache {s s' : Session} {height : UInt64}
    {blockInfo answer : ChainBlock} {reward : Rat}
    (h : blockReward handler daemon s height blockInfo answer = some (reward, s')) :
    s'.blockCache = s.blockCache := by
  obtain ⟨base, -, h⟩ := Option.bind_eq_some_iff.mp h
  simp only at h
  split at h
  · obtain ⟨⟨txReward, t⟩, ht, h⟩ := Option.bind_eq_some_iff.mp h
    cases h
    exact getTxReward_blockCache ht
  · cases h
    rfl

/-- There is a later pending block of the pool at the height of a block. -/
def HasLater (handler : Handler) (rows : List Row) (block : Row) : Prop :=
  1 < duplicateBlockCount handler.poolId rows block.blockHeight [block.status] ∧
    0 < duplicateBlockAfterCount handler.poolId rows block.blockHeight [block.status] block.created

theorem hasLater_iff (block : Row) :
    (1 < duplicateBlockCount handler.poolId rows block.blockHeight [block.status] ∧
      0 < if 1 < duplicateBlockCount handler.poolId rows block.blockHeight [block.status] then
        duplicateBlockAfterCount handler.poolId rows block.blockHeight [block.status] block.created
        else 0) ↔ HasLater handler rows block := by
  refine and_congr_right fun h => ?_
  rw [if_pos h]

/-- What is known of a block after its classification, by the ground of the decision. -/
def Decision.Grounded (handler : Handler) (daemon : Daemon) (rows : List Row) (d : Decision) :
    Prop :=
  match d.ground with
  | .undecided => ∃ reward progress,
    d.after = { d.before with reward := reward, confirmationProgress := progress }
  | .duplicate reward =>
    0 ≤ reward ∧ minConfimations ≤ d.latestBlockHeight - d.before.blockHeight ∧
    d.after = { d.before with
      status := if 0 < reward then .confirmed else .orphaned
      reward := if 0 < reward then reward else 0
      confirmationProgress := 1
      type := some .uncle }
  | .mainChain hash =>
    minConfimations ≤ d.latestBlockHeight - d.before.blockHeight ∧
    ¬HasLater handler rows d.before ∧
    (∃ request answer, daemon.block request d.before.blockHeight = some answer ∧
      handler.isOurs answer.miner = true ∧ answer.hash = hash) ∧
    ∃ reward, d.after = { d.before with
      hash := hash
      status := .confirmed
      confirmationProgress := 1
      reward := reward
      type := some .block }
  | .uncle uheight hash reward =>
    0 ≤ reward ∧ minConfimations ≤ d.latestBlockHeight - uheight ∧
    getBlockByPoolHeightAndType handler.poolId rows uheight .uncle = none ∧
    (∃ request height index uncle, daemon.uncle request height index = some uncle ∧
      handler.isOurs uncle.miner = true ∧ uncle.height = some uheight ∧ uncle.hash = hash) ∧
    ∃ progress, d.after = { d.before with
      hash := hash
      reward := if 0 < reward then reward else 0
      blockHeight := uheight
      status := if 0 < reward then .confirmed else .orphaned
      confirmationProgress := progress
      type := some .uncle }
  | .lost =>
    3 / 4 < confirmationProgress d.latestBlockHeight d.before.blockHeight ∧
    ∃ progress, d.after = { d.before with
      hash := "0x0"
      status := .orphaned
      reward := 0
      confirmationProgress := progress }

/-- A block at whose height the main chain has one of ours. -/
theorem classifyOwn_spec {s s' : Session} {latest : UInt64} {before block after : Row}
    {blockInfo : ChainBlock} {ground : Ground} (hs : s.Keyed)
    (hblock : ∃ progress, block = { before with confirmationProgress := progress })
    (hinfo : blockInfo.height = some before.blockHeight)
    (h : classifyOwn handler daemon rows s latest block blockInfo = some (after, ground, s')) :
    s'.Keyed ∧ Decision.Grounded handler daemon rows ⟨latest, before, after, ground⟩ := by
  obtain ⟨progress, rfl⟩ := hblock
  unfold classifyOwn at h
  split at h
  · rename_i hmature
    obtain ⟨height, hheight, h⟩ := Option.bind_eq_some_iff.mp h
    obtain ⟨infoHeight, hinfoHeight, h⟩ := Option.bind_eq_some_iff.mp h
    obtain rfl := toInt64_eq_some hheight
    rw [hinfo, Option.some.injEq] at hinfoHeight
    subst hinfoHeight
    by_cases hlater : HasLater handler rows before
    · rw [if_pos ((hasLater_iff before).mpr hlater)] at h
      obtain ⟨reward, hreward, h⟩ := Option.bind_eq_some_iff.mp h
      cases h
      exact ⟨hs, getUncleReward_nonneg hreward, hmature, rfl⟩
    · rw [if_neg (mt (hasLater_iff before).mp hlater)] at h
      obtain ⟨answer, hanswer, h⟩ := Option.bind_eq_some_iff.mp h
      simp only at h
      split at h
      · rename_i hours
        obtain ⟨⟨reward, t⟩, ht, h⟩ := Option.bind_eq_some_iff.mp h
        cases h
        refine ⟨?_, hmature, hlater, ⟨_, answer, hanswer, hours, rfl⟩, reward, rfl⟩
        intro height block hcached
        rw [blockReward_blockCache ht] at hcached
        exact hs height block hcached
      · cases h
        exact ⟨hs, before.reward, progress, rfl⟩
  · cases h
    exact ⟨hs, before.reward, progress, rfl⟩

/-- The search ends with an uncle that no block of the pool is stored as, or without a
decision. -/
theorem searchUncle_spec {latest : UInt64} {infos : List ChainBlock} {block after : Row}
    {ground : Ground} {s s' : Session}
    (h : searchUncle handler daemon rows latest block s infos = some (after, ground, s')) :
    s'.blockCache = s.blockCache ∧
    ((ground = .undecided ∧ ∃ reward, after = { block with reward := reward }) ∨
    ∃ uheight hash reward, ground = .uncle uheight hash reward ∧ 0 ≤ reward ∧
      minConfimations ≤ latest - uheight ∧
      getBlockByPoolHeightAndType handler.poolId rows uheight .uncle = none ∧
      (∃ request height index uncle, daemon.uncle request height index = some uncle ∧
        handler.isOurs uncle.miner = true ∧ uncle.height = some uheight ∧ uncle.hash = hash) ∧
      after = { block with
        hash := hash
        reward := if 0 < reward then reward else 0
        blockHeight := uheight
        status := if 0 < reward then .confirmed else .orphaned
        confirmationProgress := if 0 < reward then 1 else block.confirmationProgress
        type := some .uncle }) := by
  induction infos generalizing block s with
  | nil =>
    cases h
    exact ⟨rfl, .inl ⟨rfl, after.reward, rfl⟩⟩
  | cons info rest ih =>
    unfold searchUncle at h
    split at h
    · exact ih h
    obtain ⟨height, hheight, h⟩ := Option.bind_eq_some_iff.mp h
    simp only at h
    split at h
    · have hrest := ih h
      exact hrest
    rename_i uncle hfind
    obtain ⟨uheight, huheight, h⟩ := Option.bind_eq_some_iff.mp h
    obtain ⟨key, hkey, h⟩ := Option.bind_eq_some_iff.mp h
    obtain ⟨provisional, hprovisional, h⟩ := Option.bind_eq_some_iff.mp h
    obtain rfl := toInt64_eq_some hkey
    split at h
    · rename_i hmature
      split at h
      · have hrest := ih h
        exact hrest
      rename_i hfree
      obtain ⟨reward, hreward, h⟩ := Option.bind_eq_some_iff.mp h
      cases h
      obtain ⟨index, -, hindex⟩ := List.mem_filterMap.mp (List.mem_of_find?_eq_some hfind)
      have hours := List.find?_some hfind
      exact ⟨rfl, .inr ⟨key, uncle.hash, reward, rfl, getUncleReward_nonneg hreward, hmature,
        by simpa using hfree, ⟨_, height, index, uncle, hindex, hours, huheight, rfl⟩, rfl⟩⟩
    · cases h
      exact ⟨rfl, .inl ⟨rfl, provisional, rfl⟩⟩

/-- A block at whose height the main chain has one of another miner. -/
theorem classifyOther_spec {s s' : Session} {latest : UInt64} {before block after : Row}
    {ground : Ground} (hs : s.Keyed)
    (hblock : block = { before with
      confirmationProgress := confirmationProgress latest before.blockHeight })
    (h : classifyOther handler daemon rows s latest block = some (after, ground, s')) :
    s'.Keyed ∧ Decision.Grounded handler daemon rows ⟨latest, before, after, ground⟩ := by
  subst hblock
  obtain ⟨extraConfig, -, h⟩ := Option.bind_eq_some_iff.mp h
  obtain ⟨⟨infos, t⟩, ht, h⟩ := Option.bind_eq_some_iff.mp h
  obtain ⟨⟨found, g, t'⟩, hsearch, h⟩ := Option.bind_eq_some_iff.mp h
  obtain ⟨hcache, hfound⟩ := searchUncle_spec hsearch
  have hkeyed : t'.Keyed := by
    intro height block hcached
    rw [hcache] at hcached
    exact (fetchBlocks_spec hs ht).1 height block hcached
  simp only at h
  split at h
  · rename_i hlost
    cases h
    refine ⟨hkeyed, ?_⟩
    rcases hfound with ⟨-, reward, rfl⟩ | ⟨uheight, hash, reward, -, -, -, -, -, rfl⟩
    · exact ⟨hlost.2, _, rfl⟩
    · have hstatus := hlost.1
      simp only at hstatus
      split at hstatus <;> cases hstatus
  · cases h
    refine ⟨hkeyed, ?_⟩
    rcases hfound with ⟨rfl, reward, rfl⟩ |
      ⟨uheight, hash, reward, rfl, hnonneg, hmature, hfree, hanswer, rfl⟩
    · exact ⟨reward, _, rfl⟩
    · exact ⟨hnonneg, hmature, hfree, hanswer, _, rfl⟩

theorem classifyBlock_spec {s s' : Session} {latest : UInt64} {block : Row}
    {blockInfo : ChainBlock} {d : Decision} (hs : s.Keyed)
    (hinfo : blockInfo.height = some block.blockHeight)
    (h : classifyBlock handler daemon rows s latest block blockInfo = some (d, s')) :
    s'.Keyed ∧ d.before = block ∧ d.Grounded handler daemon rows := by
  rw [classifyBlock] at h
  obtain ⟨⟨after, ground, t⟩, hclassified, h⟩ := Option.map_eq_some_iff.mp h
  cases h
  split at hclassified
  · obtain ⟨hkeyed, hgrounded⟩ := classifyOwn_spec hs ⟨_, rfl⟩ hinfo hclassified
    exact ⟨hkeyed, rfl, hgrounded⟩
  · obtain ⟨hkeyed, hgrounded⟩ := classifyOther_spec hs rfl hclassified
    exact ⟨hkeyed, rfl, hgrounded⟩

/-- The decisions about a page are grounded, and about its blocks one after the other. -/
theorem classifyPage_spec {latest : UInt64} {page : List (Row × ChainBlock)} {s : Session}
    (hs : s.Keyed) (hpage : ∀ p ∈ page, p.2.height = some p.1.blockHeight) :
    (∀ s' ∈ (classifyPage handler daemon rows latest s page).2, s'.Keyed) ∧
    ((classifyPage handler daemon rows latest s page).1.map Decision.before).Sublist
      (page.map Prod.fst) ∧
    ∀ d ∈ (classifyPage handler daemon rows latest s page).1, d.Grounded handler daemon rows := by
  induction page generalizing s with
  | nil => simp [classifyPage, hs]
  | cons p rest ih =>
    obtain ⟨hp, hrest⟩ := List.forall_mem_cons.mp hpage
    unfold classifyPage
    split
    · simp
    · rename_i d t hd
      obtain ⟨hkeyed, hbefore, hgrounded⟩ := classifyBlock_spec hs hp hd
      obtain ⟨hsessions, hsub, hlater⟩ := ih hkeyed hrest
      refine ⟨hsessions, ?_, List.forall_mem_cons.mpr ⟨hgrounded, hlater⟩⟩
      rw [List.map_cons, hbefore, List.map_cons]
      exact hsub.cons_cons _

theorem map_fst_zip_sublist {α β : Type*} (xs : List α) (ys : List β) :
    ((xs.zip ys).map Prod.fst).Sublist xs := by
  induction xs generalizing ys with
  | nil => simp
  | cons x xs ih =>
    cases ys with
    | nil => simp
    | cons y ys => exact (ih ys).cons_cons x

theorem classifyPages_spec {pages : List (List Row)} {s : Session} (hs : s.Keyed) :
    ((classifyPages handler daemon rows s pages).1.map Decision.before).Sublist pages.flatten ∧
    ∀ d ∈ (classifyPages handler daemon rows s pages).1, d.Grounded handler daemon rows := by
  induction pages generalizing s with
  | nil => simp [classifyPages]
  | cons page rest ih =>
    unfold classifyPages
    split
    · simp
    split
    · simp
    rename_i blockInfos t hfetch
    have hs' : Session.Keyed { s with requests := s.requests + 1 } := hs
    obtain ⟨hkeyed, hheights⟩ := fetchBlocks_spec hs' hfetch
    obtain ⟨hsessions, hsub, hgrounded⟩ := @classifyPage_spec handler daemon rows _
      (page.zip blockInfos) t hkeyed fun p hp => by
        refine hheights (p.1.blockHeight, p.2) ?_
        rw [List.zip_map_left]
        exact List.mem_map.mpr ⟨p, hp, rfl⟩
    have hpage := hsub.trans (map_fst_zip_sublist page blockInfos)
    rw [List.flatten_cons]
    split
    · rename_i decisions hdecisions
      rw [hdecisions] at hpage hgrounded
      exact ⟨hpage.trans (List.sublist_append_left _ _), hgrounded⟩
    · rename_i decisions t' hdecisions
      rw [hdecisions] at hpage hgrounded hsessions
      obtain ⟨hlaterSub, hlater⟩ := ih (hsessions t' rfl)
      constructor
      · rw [List.map_append]
        exact hpage.append hlaterSub
      · intro d hd
        rcases List.mem_append.mp hd with hd | hd
        · exact hgrounded d hd
        · exact hlater d hd

theorem pages_flatten_sublist (size : Nat) (blocks : List Row) :
    (pages size blocks).flatten.Sublist blocks := by
  have htake : ∀ k, ((List.range k).map fun i => (blocks.drop (i * size)).take size).flatten =
      blocks.take (k * size) := by
    intro k
    induction k with
    | zero => simp
    | succ k ih =>
      rw [List.range_succ, List.map_append, List.flatten_append, ih, Nat.succ_mul, List.take_add]
      simp
  rw [pages, htake]
  exact List.take_sublist _ _

/-- The decisions of a call are grounded, and each is about a block of its own. -/
theorem classifyBlocks_spec (handler : Handler) (daemon : Daemon) (rows blocks : List Row) :
    ((classifyBlocks handler daemon rows blocks).decisions.map Decision.before).Sublist blocks ∧
    ∀ d ∈ (classifyBlocks handler daemon rows blocks).decisions,
      d.Grounded handler daemon rows := by
  obtain ⟨hsub, hgrounded⟩ := @classifyPages_spec handler daemon rows (pages 100 blocks) .initial
    Session.keyed_initial
  have hsub := hsub.trans (pages_flatten_sublist 100 blocks)
  unfold classifyBlocks
  split
  · simp
  split <;> rename_i decisions hdecisions <;> rw [hdecisions] at hsub hgrounded <;>
    exact ⟨hsub, hgrounded⟩

end Specs

end HashStorm.Ethereum.Payout
