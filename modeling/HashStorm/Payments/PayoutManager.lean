import HashStorm.Payments.PayoutScheme
import Mathlib.Data.List.MinMax

/-!
# The payout manager

`UpdatePoolBalancesAsync` classifies the pending blocks of a pool and processes
each classified block in a transaction of its own: efforts, reward recipients,
payout scheme, and the row of the block. A transaction that raises an exception
changes nothing.
-/

namespace HashStorm.Payments

open Contracts Paging Dictionary

section Efforts

/-- `SUM(difficulty / networkdifficulty)`: a division by zero is an error, and the sum
of no rows is no number. -/
def sumScores (rows : List Share) : Option (Option Rat) :=
  if ∃ s ∈ rows, s.networkDifficulty = 0 then none
  else if rows = [] then some none
  else some (some (rows.map fun s => s.difficulty / s.networkDifficulty).sum)

/-- `ShareRepository.GetEffectiveAccumulatedShareDifficultyBetweenAsync`. -/
def getEffectiveAccumulatedShareDifficultyBetween (shares : List Share) (poolId : String)
    (start stop : DateTime) : Option (Option Rat) :=
  sumScores (shares.filter fun s => s.poolId = poolId ∧ start < s.created ∧ s.created < stop)

/-- `ShareRepository.GetMinerShareDifficultyBetweenAsync`. -/
def getMinerShareDifficultyBetween (shares : List Share) (poolId miner : String)
    (start stop : DateTime) : Option (Option Rat) :=
  sumScores (shares.filter fun s =>
    s.poolId = poolId ∧ s.miner = miner ∧ start < s.created ∧ s.created < stop)

/-- `BlockRepository.GetBlockBeforeAsync`, for blocks of any status. -/
def getBlockBefore (blocks : List Block) (poolId : String) (before : DateTime) : Option Block :=
  (blocks.filter fun b => b.poolId = poolId ∧ b.created < before).argmax Block.created

variable (config : PoolConfig) (db : Database) (block : Block) (cancelled : Nat → Bool)

/-- The start of the share date-range of a block. -/
def effortStart : DateTime :=
  (getBlockBefore db.blocks config.id block.created).elim 0 Block.created

/-- `CalculateBlockEffortAsync`. -/
def calculateBlockEffort (t : Nat) : Option (Block × Nat) :=
  if cancelled t then none
  else
    (getEffectiveAccumulatedShareDifficultyBetween db.shares config.id
      (effortStart config db block) block.created).map fun effort =>
        ({ block with effort := effort.map config.scale.adjustBlockEffort }, t + 1)

/-- `CalculateMinerEffortAsync`. -/
def calculateMinerEffort (t : Nat) : Option (Block × Nat) :=
  if cancelled t then none
  else
    (getMinerShareDifficultyBetween db.shares config.id block.miner
      (effortStart config db block) block.created).map fun effort =>
        ({ block with minerEffort := effort.map config.scale.adjustBlockEffort }, t + 1)

/-- Fill the efforts of the block if they are empty. -/
def fillEfforts (t : Nat) : Option (Block × Nat) :=
  (if block.effort.isNone then calculateBlockEffort config db block cancelled t
    else some (block, t)).bind fun (block, t) =>
      if block.minerEffort.isNone then calculateMinerEffort config db block cancelled t
      else some (block, t)

variable {config db block cancelled}

theorem calculateBlockEffort_some {t t' : Nat} {block' : Block}
    (h : calculateBlockEffort config db block cancelled t = some (block', t')) :
    ∃ effort, block' = { block with effort := effort } := by
  unfold calculateBlockEffort at h
  split at h
  · cases h
  · obtain ⟨effort, _, heq⟩ := Option.map_eq_some_iff.mp h
    cases heq
    exact ⟨_, rfl⟩

theorem calculateMinerEffort_some {t t' : Nat} {block' : Block}
    (h : calculateMinerEffort config db block cancelled t = some (block', t')) :
    ∃ minerEffort, block' = { block with minerEffort := minerEffort } := by
  unfold calculateMinerEffort at h
  split at h
  · cases h
  · obtain ⟨effort, _, heq⟩ := Option.map_eq_some_iff.mp h
    cases heq
    exact ⟨_, rfl⟩

/-- Nothing but the efforts is filled in. -/
theorem fillEfforts_some {t t' : Nat} {block' : Block}
    (h : fillEfforts config db block cancelled t = some (block', t')) :
    ∃ effort minerEffort,
      block' = { block with effort := effort, minerEffort := minerEffort } := by
  rw [fillEfforts, Option.bind_eq_some_iff] at h
  obtain ⟨⟨filled, t₁⟩, hfill, h⟩ := h
  have hfilled : ∃ effort, filled = { block with effort := effort } := by
    split at hfill
    · exact calculateBlockEffort_some hfill
    · cases hfill
      exact ⟨block.effort, rfl⟩
  obtain ⟨effort, rfl⟩ := hfilled
  simp only at h
  split at h
  · obtain ⟨minerEffort, rfl⟩ := calculateMinerEffort_some h
    exact ⟨effort, minerEffort, rfl⟩
  · cases h
    exact ⟨effort, block.minerEffort, rfl⟩

end Efforts

section Process

/-- `BlockRepository.UpdateBlockAsync`. -/
def updateBlock (blocks : List Block) (block : Block) : List Block :=
  blocks.map fun b =>
    if b.id = block.id then
      { b with
        status := block.status
        reward := block.reward
        effort := block.effort
        minerEffort := block.minerEffort
        confirmationProgress := block.confirmationProgress }
    else b

variable (config : PoolConfig) (db : Database) (block : Block) (cancelled : Nat → Bool)

/-- The case of a confirmed block. -/
def distribute (t : Nat) : Option (Database × Nat) :=
  let (blockReward, credited) := updateBlockRewardBalances config block db
  (updateBalances config credited block blockReward cancelled t).map fun (db, t) =>
    ({ db with blocks := updateBlock db.blocks block }, t)

/-- The transaction of one block; `none` if it is rolled back. -/
def processBlock (t : Nat) : Option (Database × Nat) :=
  (fillEfforts config db block cancelled t).bind fun (block, t) =>
    match block.status with
    | .confirmed => distribute config db block cancelled t
    | .orphaned | .pending => some ({ db with blocks := updateBlock db.blocks block }, t)

variable {config db block} {db' : Database} {t t' : Nat}

/-- A confirmed block is credited to at most its reward. -/
theorem distribute_some (h : distribute config db block never t = some (db', t')) :
    ∃ credits shares,
      db' = { db.addAmounts config.id credits with
        shares := shares, blocks := updateBlock db.blocks block } ∧
      (0 ≤ block.reward → totalPercentage config.payees ≤ 100 → total credits ≤ block.reward) := by
  rw [distribute, updateBlockRewardBalances_eq] at h
  obtain ⟨⟨db₁, t₁⟩, hupdate, heq⟩ := Option.map_eq_some_iff.mp h
  obtain ⟨credits, shares, rfl, hle⟩ := credited_updateBalances hupdate
  cases heq
  refine ⟨recipientCredits config block config.payees ++ credits, shares, ?_, fun hr hp => ?_⟩
  · simp only [Database.addAmounts_append, Database.addAmounts_blocks]
  · have hpayees : ∀ x ∈ config.payees, 0 < x.percentage := fun x hx => by
      simpa using (List.mem_filter.mp hx).2
    have hrecipients := sum_recipientCredits_le config hr hpayees
    have hreserve := config.staticTransactionFeeReserve_nonneg
    have hfee : block.reward * (totalPercentage config.payees / 100) ≤ block.reward :=
      mul_le_of_le_one_right hr ((div_le_one (by norm_num)).mpr hp)
    have hrest : max (block.reward - block.reward * (totalPercentage config.payees / 100) -
        config.staticTransactionFeeReserve) 0 ≤
          block.reward - block.reward * (totalPercentage config.payees / 100) :=
      max_le (by linarith) (by linarith)
    simp only [total, List.map_append, List.sum_append] at hle ⊢
    linarith

/-- A committed transaction writes the row of the block and adds amounts to balances;
for a confirmed block these stay within its reward. -/
theorem processBlock_some (h : processBlock config db block never t = some (db', t')) :
    ∃ credits shares effort minerEffort,
      db' = { db.addAmounts config.id credits with
        shares := shares
        blocks := updateBlock db.blocks
          { block with effort := effort, minerEffort := minerEffort } } ∧
      (0 ≤ block.reward → totalPercentage config.payees ≤ 100 → total credits ≤ block.reward) := by
  rw [processBlock, Option.bind_eq_some_iff] at h
  obtain ⟨⟨filled, t₁⟩, hfill, h⟩ := h
  obtain ⟨effort, minerEffort, rfl⟩ := fillEfforts_some hfill
  simp only at h
  split at h
  · obtain ⟨credits, shares, rfl, hle⟩ := distribute_some h
    exact ⟨credits, shares, effort, minerEffort, rfl, hle⟩
  all_goals
    cases h
    exact ⟨[], db.shares, effort, minerEffort, rfl, fun hr _ => by simpa using hr⟩

end Process

end HashStorm.Payments
