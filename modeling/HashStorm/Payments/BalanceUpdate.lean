import HashStorm.Payments.Cancellation
import HashStorm.Payments.PaymentCycles

/-!
# When the balances of all blocks are updated

The transactions of a cycle run one after the other until one raises an
exception. What is left of a block's reward may be nothing, and then
`CalculateRewardsAsync` throws after the first share that does not fill the
window: the block is not committed, nor is any later one, in this cycle and in
those that follow.
-/

namespace HashStorm.Payments

open Contracts Paging Machine

namespace Pplns

variable {scale : ShareScale} {window blockReward : Rat}

/-- Shares that come on top of a score have a network difficulty, until the window is full. -/
def Scored (scale : ShareScale) (window : Rat) : Rat → List Share → Prop
  | _, [] => True
  | score, s :: shares => s.networkDifficulty ≠ 0 ∧
      (score + scale.score s < window → Scored scale window (score + scale.score s) shares)

/-- There is no share, or the newest one fills the window, or there is something to distribute;
and a share that is reached has a network difficulty, and the window a size. -/
def CanDistribute (scale : ShareScale) (window blockReward : Rat) : List Share → Prop
  | [] => True
  | s :: shares => window ≠ 0 ∧ s.networkDifficulty ≠ 0 ∧
      (scale.score s < window → 0 < blockReward ∧ Scored scale window (scale.score s) shares)

/-- An open pass raises no exception if the shares it reaches have a network difficulty. -/
theorem Progress.Open.threw_visitAll {p : Progress} {score : Rat}
    (h : p.Open window blockReward score) (hr : 0 < blockReward) (hw : score < window)
    (shares : List Share) :
    (visitAll (Pplns.visit scale window blockReward) Progress.halted p shares).threw = false ↔
      Scored scale window score shares := by
  induction shares generalizing p score with
  | nil =>
    have hthrew : p.threw = false := (Bool.or_eq_false_iff.mp h.halted).2
    simp [visitAll, Scored, hthrew]
  | cons s shares ih =>
    rw [visitAll, if_neg (by simp [h.halted]), Scored]
    have hw0 : window ≠ 0 := (lt_of_le_of_lt h.nonneg hw).ne'
    by_cases hn : s.networkDifficulty = 0
    · have hthrow : (Pplns.visit scale window blockReward p s).threw = true := by
        simp [Pplns.visit, hn]
      rw [visitAll_of_halted (by simp [Progress.halted, hthrow]), hthrow]
      simp [hn]
    · by_cases hlt : score + scale.score s < window
      · rw [ih (h.visit hr hn hlt) hlt]
        simp [hn, hlt]
      · have hfills : window ≤ p.accumulatedScore + scale.score s := by
          rw [h.accumulated]
          exact not_lt.mp hlt
        have hdone : (Pplns.visit scale window blockReward p s).done = true ∧
            (Pplns.visit scale window blockReward p s).threw = false := by
          simp [Pplns.visit, hn, hw0, hfills]
        rw [visitAll_of_halted (by simp [Progress.halted, hdone.1]), hdone.2]
        simp [hn, hlt]

/-- When a pass raises no exception. -/
theorem threw_visitAll_initial (shares : List Share) :
    (visitAll (visit scale window blockReward) Progress.halted (.initial blockReward)
      shares).threw = false ↔ CanDistribute scale window blockReward shares := by
  cases shares with
  | nil => simp [visitAll, CanDistribute, Progress.initial]
  | cons s shares =>
    have hs := scale.score_nonneg s
    rw [visitAll, if_neg (by simp [Progress.initial, Progress.halted]), CanDistribute]
    by_cases hthrow : s.networkDifficulty = 0 ∨ window = 0
    · have hthrew : (visit scale window blockReward (.initial blockReward) s).threw = true := by
        simp [visit, hthrow]
      rw [visitAll_of_halted (by simp [Progress.halted, hthrew]), hthrew]
      simp only [Bool.true_eq_false, false_iff, not_and]
      exact fun hw hn => absurd hthrow (not_or.mpr ⟨hn, hw⟩)
    obtain ⟨hn, hw⟩ := not_or.mp hthrow
    by_cases hlt : scale.score s < window
    · by_cases hr : 0 < blockReward
      · have hopen := open_initial.visit hr hn (by rwa [zero_add])
        rw [zero_add] at hopen
        rw [hopen.threw_visitAll hr hlt]
        simp [hn, hw, hlt, hr]
      · -- nothing is left before the window is full
        have hwpos : 0 < window := lt_of_le_of_lt hs hlt
        have hfraction : scale.score s / window ≤ 1 := ((div_lt_one hwpos).mpr hlt).le
        have hremaining : blockReward - scale.score s * blockReward / window ≤ 0 := by
          have heq : blockReward - scale.score s * blockReward / window =
              blockReward * (1 - scale.score s / window) := by ring
          rw [heq]
          exact mul_nonpos_of_nonpos_of_nonneg (not_lt.mp hr) (sub_nonneg.mpr hfraction)
        have hthrew : (visit scale window blockReward (.initial blockReward) s).threw = true := by
          simp [visit, hn, hw, Progress.initial, not_le.mpr hlt, hremaining]
        rw [visitAll_of_halted (by simp [Progress.halted, hthrew]), hthrew]
        simp [hlt, hr]
    · have hfills : window ≤ (Progress.initial blockReward).accumulatedScore + scale.score s := by
        simpa [Progress.initial] using not_lt.mp hlt
      have hdone : (visit scale window blockReward (.initial blockReward) s).done = true ∧
          (visit scale window blockReward (.initial blockReward) s).threw = false := by
        simp [visit, hn, hw, hfills]
      rw [visitAll_of_halted (by simp [Progress.halted, hdone.1]), hdone.2]
      simp [hn, hw, hlt]

end Pplns

section Blocks

variable (config : PoolConfig) (db : Database) (block : Block)

/-- The shares that efforts are computed from have a network difficulty, for as far as the
efforts are missing. -/
def EffortsDefined : Prop :=
  ∀ s ∈ db.shares, s.poolId = config.id → effortStart config db block < s.created →
    s.created < block.created →
    block.effort = none ∨ (block.minerEffort = none ∧ s.miner = block.miner) →
    s.networkDifficulty ≠ 0

/-- What is left of the reward for the miners. -/
def remainingReward : Rat :=
  block.reward - block.reward * (totalPercentage config.payees / 100) -
    config.staticTransactionFeeReserve

/-- The transaction of a block in a PPLNS pool raises no exception. -/
def CanProcess (factor : Option Rat) : Prop :=
  EffortsDefined config db block ∧
    (block.status = .confirmed →
      Pplns.CanDistribute config.scale (Pplns.window factor) (remainingReward config block)
        (pagedShares Pplns.pageSize db.shares config.id block))

/-- The loop of `UpdatePoolBalancesAsync`: the database after the transactions that were
committed, and whether all of them were. -/
def updatePoolBalances : Database → List Block → Database × Bool
  | db, [] => (db, true)
  | db, block :: blocks =>
    match processBlock config db block never 0 with
    | none => (db, false)
    | some (db, _) => updatePoolBalances db blocks

/-- The transaction of one block. -/
def commit (db : Database) (block : Block) : Option Database :=
  (processBlock config db block never 0).map Prod.fst

variable {config db block}

theorem isSome_sumScores_iff {rows : List Share} :
    (sumScores rows).isSome ↔ ∀ s ∈ rows, s.networkDifficulty ≠ 0 := by
  unfold sumScores
  split
  · rename_i hzero
    obtain ⟨s, hs, hn⟩ := hzero
    simp only [Option.isSome_none, Bool.false_eq_true, false_iff, not_forall]
    exact ⟨s, hs, not_not.mpr hn⟩
  · rename_i hzero
    have hall : ∀ s ∈ rows, s.networkDifficulty ≠ 0 := fun s hs hn => hzero ⟨s, hs, hn⟩
    split <;> simpa using hall

/-- When the effort of a block can be computed. -/
theorem isSome_calculateBlockEffort_iff {t : Nat} :
    (calculateBlockEffort config db block never t).isSome ↔
      ∀ s ∈ db.shares, s.poolId = config.id → effortStart config db block < s.created →
        s.created < block.created → s.networkDifficulty ≠ 0 := by
  rw [calculateBlockEffort, if_neg (by simp), Option.isSome_map,
    getEffectiveAccumulatedShareDifficultyBetween, isSome_sumScores_iff]
  simp [and_imp]

/-- When the effort of its miner can be computed. -/
theorem isSome_calculateMinerEffort_iff {t : Nat} :
    (calculateMinerEffort config db block never t).isSome ↔
      ∀ s ∈ db.shares, s.poolId = config.id → s.miner = block.miner →
        effortStart config db block < s.created → s.created < block.created →
        s.networkDifficulty ≠ 0 := by
  rw [calculateMinerEffort, if_neg (by simp), Option.isSome_map, getMinerShareDifficultyBetween,
    isSome_sumScores_iff]
  simp [and_imp]

theorem isSome_fillEfforts_iff {t : Nat} :
    (fillEfforts config db block never t).isSome ↔ EffortsDefined config db block := by
  rw [fillEfforts]
  cases heffort : block.effort with
  | none =>
    simp only [Option.isNone_none, if_true]
    have hblock := @isSome_calculateBlockEffort_iff config db block t
    cases hcalculated : calculateBlockEffort config db block never t with
    | none =>
      rw [hcalculated] at hblock
      simp only [Option.bind_none, Option.isSome_none, Bool.false_eq_true, false_iff] at hblock ⊢
      intro hall
      exact hblock fun s hs hpool hstart hstop => hall s hs hpool hstart hstop (.inl heffort)
    | some filled =>
      obtain ⟨filled, t'⟩ := filled
      obtain ⟨effort, rfl⟩ := calculateBlockEffort_some hcalculated
      rw [hcalculated] at hblock
      have hall := hblock.mp rfl
      have hdefined : EffortsDefined config db block :=
        fun s hs hpool hstart hstop _ => hall s hs hpool hstart hstop
      simp only [Option.bind_some, hdefined, iff_true]
      split
      · rw [isSome_calculateMinerEffort_iff]
        exact fun s hs hpool _ hstart hstop => hall s hs hpool hstart hstop
      · rfl
  | some effort =>
    simp only [Option.isNone_some, Bool.false_eq_true, if_false, Option.bind_some]
    cases hminer : block.minerEffort with
    | none =>
      rw [Option.isNone_none, if_pos rfl, isSome_calculateMinerEffort_iff]
      simp only [EffortsDefined, heffort, hminer, reduceCtorEq, false_or, true_and]
      exact ⟨fun h s hs hpool hstart hstop hm => h s hs hpool hm hstart hstop,
        fun h s hs hpool hm hstart hstop => h s hs hpool hstart hstop hm⟩
    | some minerEffort =>
      simp [EffortsDefined, heffort, hminer]

/-- When the balances of a confirmed block are updated. -/
theorem isSome_distribute_iff {factor : Option Rat} (hscheme : config.payoutScheme = .pplns factor)
    {t : Nat} :
    (distribute config db block never t).isSome ↔
      Pplns.CanDistribute config.scale (Pplns.window factor) (remainingReward config block)
        (pagedShares Pplns.pageSize db.shares config.id block) := by
  have hcalculated := (Pplns.calculateRewards_uncancelled config.scale (Pplns.window factor)
    (remainingReward config block) Pplns.pageSize_pos db.shares config.id block never_eq t).2
  rw [distribute, updateBlockRewardBalances_eq, ← remainingReward, Option.isSome_map,
    updateBalances, hscheme]
  simp only [Pplns.updateBalances, settle, Database.addAmounts_shares]
  rw [hcalculated, Pplns.Progress.result, ← Pplns.threw_visitAll_initial, pagedShares]
  split
  · rename_i hthrew
    simp [hthrew]
  · rename_i hthrew
    rw [Bool.not_eq_true] at hthrew
    have hdeleted := deleteDiscardedShares_never db.shares config.id Pplns.pageSize_pos
      (Pplns.calculateRewards config.scale (Pplns.window factor) (remainingReward config block)
        Pplns.pageSize db.shares config.id block never t).time
      (visitAll (Pplns.visit config.scale (Pplns.window factor) (remainingReward config block))
        Pplns.Progress.halted (.initial (remainingReward config block))
        (items Share.created Pplns.pageSize (eligible db.shares config.id block))).shareCutOffDate
    have hsome := congrArg Option.isSome hdeleted
    rw [Option.isSome_map] at hsome
    simp [hthrew, hsome]

/-- Filled efforts make no difference to what can be distributed. -/
theorem canDistribute_fillEfforts {filled : Block} {t t' : Nat} {factor : Option Rat}
    (hfill : fillEfforts config db block never t = some (filled, t')) :
    filled.status = block.status ∧
      (Pplns.CanDistribute config.scale (Pplns.window factor) (remainingReward config filled)
          (pagedShares Pplns.pageSize db.shares config.id filled) ↔
        Pplns.CanDistribute config.scale (Pplns.window factor) (remainingReward config block)
          (pagedShares Pplns.pageSize db.shares config.id block)) := by
  obtain ⟨effort, minerEffort, rfl⟩ := fillEfforts_some hfill
  exact ⟨rfl, Iff.rfl⟩

/-- When the transaction of a block is committed. -/
theorem isSome_commit_iff {factor : Option Rat} (hscheme : config.payoutScheme = .pplns factor) :
    (commit config db block).isSome ↔ CanProcess config db block factor := by
  rw [commit, Option.isSome_map, processBlock, CanProcess, ← @isSome_fillEfforts_iff _ _ _ 0]
  cases hfill : fillEfforts config db block never 0 with
  | none => simp
  | some result =>
    obtain ⟨filled, t'⟩ := result
    obtain ⟨hstatus, hsame⟩ := @canDistribute_fillEfforts _ _ _ _ _ _ factor hfill
    rw [← hstatus, ← hsame]
    cases hcase : filled.status with
    | confirmed => simp [hcase, isSome_distribute_iff hscheme]
    | orphaned => simp [hcase]
    | pending => simp [hcase]

/-- The loop completes if every transaction is committed. -/
theorem updatePoolBalances_completes (db : Database) (blocks : List Block) :
    (updatePoolBalances config db blocks).2 = (run (commit config) db blocks).isSome := by
  induction blocks generalizing db with
  | nil => rfl
  | cons block blocks ih =>
    rw [run_cons, updatePoolBalances, commit]
    cases processBlock config db block never 0 with
    | none => rfl
    | some result => exact ih result.1

end Blocks

section Reserve

/-- An Ethereum pool that keeps `StaticTransactionFeeReserve` back. -/
def ethereumPool : PoolConfig :=
  { PoolConfig.plain "ETH" [] (.pplns none) with
    staticTransactionFeeReserve := 25 / 10000
    staticTransactionFeeReserve_nonneg := by norm_num }

/-- A Cryptonote pool that keeps `StaticTransactionFeeReserve` back. -/
def cryptonotePool : PoolConfig :=
  { PoolConfig.plain "XMR" [] (.pplns none) with
    staticTransactionFeeReserve := 3 / 100
    staticTransactionFeeReserve_nonneg := by norm_num }

/-- A confirmed block with its efforts. -/
def confirmedBlock (id : Nat) (reward : Rat) (created : DateTime) : Block :=
  ⟨id, "pool", .confirmed, "tx", "miner", reward, 1, created, some 1, some 1⟩

/-- One share, whose score is half of the window. -/
def oneShare : Database := { shares := [.unit "pool" "miner" 4] }

end Reserve

end HashStorm.Payments
