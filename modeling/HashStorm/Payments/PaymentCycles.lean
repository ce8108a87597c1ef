import HashStorm.Lib.Machine
import HashStorm.Payments.PayoutManager

/-!
# Runs of payment cycles

A cycle reads the pending blocks of a pool, classifies them, and processes the
classified ones in the order of their creation, each in its own transaction. An
exception ends the cycle, a restart forgets it, and other writers add shares,
blocks and payments in between. Over every run a block is confirmed at most
once, its confirmation credits at most its reward, and the balances agree with
the recorded changes.
-/

namespace HashStorm.Payments.Cycles

open Contracts Dictionary Machine

section Classify

/-- What a handler makes of a pending block. The daemon reports no negative reward. -/
structure Classification where
  status : BlockStatus
  reward : Rat
  confirmationProgress : Rat
  reward_nonneg : 0 ≤ reward := by decide
  deriving Repr

/-- `BlockRepository.GetPendingBlocksForPoolAsync`. -/
def getPendingBlocksForPool (blocks : List Block) (poolId : String) : List Block :=
  blocks.filter fun b => b.poolId = poolId ∧ b.status = .pending

/-- `ClassifyBlocksAsync`: the blocks about which the daemon had an answer. -/
def classifyBlocks (answers : List (Option Classification)) (pending : List Block) : List Block :=
  (answers.zip pending).filterMap fun (answer, block) => answer.map fun c =>
    { block with
      status := c.status
      reward := c.reward
      confirmationProgress := c.confirmationProgress }

/-- `OrderBy(x => x.Created)`. -/
def orderByCreated (blocks : List Block) : List Block :=
  blocks.insertionSort fun a b => a.created ≤ b.created

theorem orderByCreated_perm (blocks : List Block) : (orderByCreated blocks).Perm blocks :=
  List.perm_insertionSort _ blocks

theorem sublist_classifyBlocks (answers : List (Option Classification)) (pending : List Block) :
    ((classifyBlocks answers pending).map Block.id).Sublist (pending.map Block.id) := by
  induction answers generalizing pending with
  | nil => simp [classifyBlocks]
  | cons answer answers ih =>
    cases pending with
    | nil => simp [classifyBlocks]
    | cons block pending =>
      have hrest := ih pending
      simp only [classifyBlocks, List.zip_cons_cons, List.filterMap_cons, List.map_cons] at hrest ⊢
      cases answer with
      | none => exact hrest.cons _
      | some c => exact hrest.cons_cons _

theorem reward_nonneg_of_mem_classifyBlocks {answers : List (Option Classification)}
    {pending : List Block} {block : Block} (h : block ∈ classifyBlocks answers pending) :
    0 ≤ block.reward := by
  obtain ⟨⟨answer, _⟩, _, hblock⟩ := List.mem_filterMap.mp h
  obtain ⟨c, _, rfl⟩ := Option.map_eq_some_iff.mp hblock
  exact c.reward_nonneg

end Classify

/-- A committed transaction that confirmed a block: the reward of the block, and the
balance changes of the transaction. -/
structure Confirmation where
  id : Nat
  reward : Rat
  credits : List BalanceChange
  deriving DecidableEq, Repr

/-- The sum of the credits. -/
def Confirmation.credited (c : Confirmation) : Rat := (c.credits.map BalanceChange.amount).sum

/-- The database, what is left of the cycle under way, and the confirmations so far. -/
structure State where
  db : Database
  queue : List (PoolConfig × Block)
  confirmations : List Confirmation
  deriving Repr

/-- Nothing has happened yet. -/
def State.initial : State := ⟨{}, [], []⟩

/-- What can happen: other writers insert shares and pending blocks and record payments,
a cycle begins with the handler's answers, its next transaction runs (and may be made to
fail at any point), or the process is restarted. -/
inductive Op where
  | insertShare (share : Share)
  | insertBlock (block : Block)
  | beginCycle (config : PoolConfig) (answers : List (Option Classification))
  | processNext (fails : Bool)
  | restart
  | payout (config : PoolConfig) (balances : List (Balance × String))
  deriving Repr

/-- The state after the next block was processed. -/
def processNext (s : State) (config : PoolConfig) (block : Block)
    (queue : List (PoolConfig × Block)) : State :=
  match processBlock config s.db block never 0 with
  | none => { s with queue := [] }
  | some (db, _) =>
    { db := db
      queue := queue
      confirmations :=
        if block.status = .confirmed then
          s.confirmations ++
            [⟨block.id, block.reward, db.balanceChanges.drop s.db.balanceChanges.length⟩]
        else s.confirmations }

/-- One step; the id of a new block is new, and a cycle begins when the last one is over. -/
def step (s : State) : Op → Option State
  | .insertShare share => some { s with db := { s.db with shares := s.db.shares ++ [share] } }
  | .insertBlock block =>
    if block.id ∈ s.db.blocks.map Block.id then none
    else some { s with
      db := { s.db with blocks := s.db.blocks ++ [{ block with status := .pending }] } }
  | .beginCycle config answers =>
    if s.queue ≠ [] then none
    else some { s with
      queue := (orderByCreated (classifyBlocks answers
        (getPendingBlocksForPool s.db.blocks config.id))).map fun b => (config, b) }
  | .processNext fails =>
    match s.queue with
    | [] => none
    | (config, block) :: queue =>
      some (if fails then { s with queue := [] } else processNext s config block queue)
  | .restart => some { s with queue := [] }
  | .payout config balances => some { s with db := persistPayments config s.db balances }

/-- The positive percentages of the recipients sum to at most 100. -/
def Op.FeesWithinReward : Op → Prop
  | .beginCycle config _ => totalPercentage config.payees ≤ 100
  | _ => True

instance : DecidablePred Op.FeesWithinReward
  | .beginCycle config _ => inferInstanceAs (Decidable (totalPercentage config.payees ≤ 100))
  | .insertShare _ | .insertBlock _ | .processNext _ | .restart | .payout _ _ => isTrue trivial

/-- What holds in every reachable state. -/
structure State.Inv (s : State) : Prop where
  ledger : s.db.Ledger
  nodup_blocks : (s.db.blocks.map Block.id).Nodup
  nodup_queue : (s.queue.map fun e => e.2.id).Nodup
  pending : ∀ e ∈ s.queue, ∃ b ∈ s.db.blocks, b.id = e.2.id ∧ b.status = .pending
  reward_nonneg : ∀ e ∈ s.queue, 0 ≤ e.2.reward
  fees : ∀ e ∈ s.queue, totalPercentage e.1.payees ≤ 100
  confirmed_iff : ∀ b ∈ s.db.blocks,
    b.status = .confirmed ↔ b.id ∈ s.confirmations.map Confirmation.id
  exists_block : ∀ c ∈ s.confirmations, ∃ b ∈ s.db.blocks, b.id = c.id
  nodup_confirmations : (s.confirmations.map Confirmation.id).Nodup
  credited_le : ∀ c ∈ s.confirmations, c.credited ≤ c.reward

theorem inv_initial : State.initial.Inv := by
  constructor <;> simp [State.initial]
  exact ⟨by simp, by simp⟩

section Update

theorem updateBlock_map_id (blocks : List Block) (block : Block) :
    (updateBlock blocks block).map Block.id = blocks.map Block.id := by
  rw [updateBlock, List.map_map]
  apply List.map_congr_left
  intro b _
  simp only [Function.comp_apply]
  split <;> rfl

theorem mem_updateBlock_of_ne {blocks : List Block} {block b : Block} (hb : b ∈ blocks)
    (hne : b.id ≠ block.id) : b ∈ updateBlock blocks block := by
  refine List.mem_map.mpr ⟨b, hb, ?_⟩
  rw [if_neg hne]

/-- The rows of the table: the one of the block has its status, all others are as before. -/
theorem mem_updateBlock {blocks : List Block} {block b : Block}
    (h : b ∈ updateBlock blocks block) :
    (b.id = block.id ∧ b.status = block.status) ∨ (b.id ≠ block.id ∧ b ∈ blocks) := by
  obtain ⟨b', hb', rfl⟩ := List.mem_map.mp h
  by_cases hid : b'.id = block.id
  · left
    rw [if_pos hid]
    exact ⟨hid, rfl⟩
  · right
    rw [if_neg hid]
    exact ⟨hid, hb'⟩

end Update

section Steps

variable {s : State} {config : PoolConfig} {block : Block} {queue : List (PoolConfig × Block)}

/-- The cycle is over. -/
theorem State.Inv.endCycle (h : s.Inv) : State.Inv { s with queue := [] } where
  ledger := h.ledger
  nodup_blocks := h.nodup_blocks
  nodup_queue := List.nodup_nil
  pending := by simp
  reward_nonneg := by simp
  fees := by simp
  confirmed_iff := h.confirmed_iff
  exists_block := h.exists_block
  nodup_confirmations := h.nodup_confirmations
  credited_le := h.credited_le

/-- A block in the queue has not been confirmed yet. -/
theorem State.Inv.not_confirmed (h : s.Inv) {e : PoolConfig × Block} (he : e ∈ s.queue) :
    e.2.id ∉ s.confirmations.map Confirmation.id := by
  obtain ⟨b, hb, hid, hpending⟩ := h.pending e he
  intro hmem
  rw [← hid, ← h.confirmed_iff b hb, hpending] at hmem
  cases hmem

/-- Processing the next block of the queue keeps the invariant. -/
theorem State.Inv.processNext (h : s.Inv) (hqueue : s.queue = (config, block) :: queue) :
    (processNext s config block queue).Inv := by
  have hhead : (config, block) ∈ s.queue := by rw [hqueue]; exact List.mem_cons_self
  have htail : ∀ e ∈ queue, e ∈ s.queue := by
    rw [hqueue]
    exact fun e he => List.mem_cons_of_mem _ he
  have hnodup := h.nodup_queue
  rw [hqueue, List.map_cons, List.nodup_cons] at hnodup
  rw [Cycles.processNext]
  cases hprocess : processBlock config s.db block never 0 with
  | none => exact h.endCycle
  | some result =>
    obtain ⟨db', t'⟩ := result
    obtain ⟨credits, shares, effort, minerEffort, rfl, hle⟩ := processBlock_some hprocess
    have hledger := h.ledger.addAmounts config.id credits
    have hnew := h.not_confirmed hhead
    obtain ⟨row, hrow, hrowId, hrowPending⟩ := h.pending _ hhead
    -- the ids the log has afterwards
    have hids : ∀ id, id ∈ (if block.status = .confirmed then
        s.confirmations ++ [⟨block.id, block.reward, ((s.db.addAmounts config.id
          credits).balanceChanges.drop s.db.balanceChanges.length)⟩]
        else s.confirmations).map Confirmation.id ↔
          id ∈ s.confirmations.map Confirmation.id ∨
            (id = block.id ∧ block.status = .confirmed) := by
      intro id
      split <;> simp [*]
    dsimp only
    refine ⟨⟨hledger.amount_eq, hledger.exists_balance⟩, ?_, hnodup.2, fun e he => ?_,
      fun e he => h.reward_nonneg e (htail e he), fun e he => h.fees e (htail e he),
      fun b hb => ?_, fun c hc => ?_, ?_, fun c hc => ?_⟩
    · rw [updateBlock_map_id]
      exact h.nodup_blocks
    · obtain ⟨b, hb, hid, hpending⟩ := h.pending e (htail e he)
      refine ⟨b, mem_updateBlock_of_ne hb ?_, hid, hpending⟩
      rw [hid]
      exact fun heq => hnodup.1 (List.mem_map.mpr ⟨e, he, heq⟩)
    · rw [hids]
      rcases mem_updateBlock hb with ⟨hid, hstatus⟩ | ⟨hid, hb⟩
      · simp only at hid hstatus
        rw [hid, hstatus]
        exact ⟨fun hc => Or.inr ⟨rfl, hc⟩, fun hc => hc.elim (absurd · hnew) And.right⟩
      · rw [h.confirmed_iff b hb]
        exact ⟨Or.inl, fun hc => hc.elim id fun hc => absurd hc.1 hid⟩
    · have hmem := (hids c.id).mp (List.mem_map_of_mem hc)
      have hexists : c.id ∈ s.db.blocks.map Block.id := by
        rcases hmem with hmem | ⟨hid, _⟩
        · obtain ⟨c', hc', hid⟩ := List.mem_map.mp hmem
          obtain ⟨b, hb, hid'⟩ := h.exists_block c' hc'
          exact List.mem_map.mpr ⟨b, hb, hid'.trans hid⟩
        · exact List.mem_map.mpr ⟨row, hrow, hrowId.trans hid.symm⟩
      rw [← updateBlock_map_id] at hexists
      exact List.mem_map.mp hexists
    · split
      · rw [List.map_append, List.nodup_append]
        refine ⟨h.nodup_confirmations, List.nodup_singleton _, ?_⟩
        intro id hid id' hid' heq
        rw [heq, List.mem_singleton.mp hid'] at hid
        exact hnew hid
      · exact h.nodup_confirmations
    · split at hc
      · rcases List.mem_append.mp hc with hc | hc
        · exact h.credited_le c hc
        · rw [List.mem_singleton.mp hc]
          have hsum : (((s.db.addAmounts config.id credits).balanceChanges.drop
              s.db.balanceChanges.length).map BalanceChange.amount).sum = total credits := by
            rw [Database.addAmounts_balanceChanges, List.drop_left, List.map_map]
            rfl
          exact hsum.le.trans (hle (h.reward_nonneg _ hhead) (h.fees _ hhead))
      · exact h.credited_le c hc

/-- Beginning a cycle keeps the invariant. -/
theorem State.Inv.beginCycle (h : s.Inv) (answers : List (Option Classification))
    (hfees : totalPercentage config.payees ≤ 100) :
    State.Inv { s with
      queue := (orderByCreated (classifyBlocks answers
        (getPendingBlocksForPool s.db.blocks config.id))).map fun b => (config, b) } := by
  have hperm := orderByCreated_perm
    (classifyBlocks answers (getPendingBlocksForPool s.db.blocks config.id))
  have hsub := sublist_classifyBlocks answers (getPendingBlocksForPool s.db.blocks config.id)
  have hmem : ∀ e ∈ (orderByCreated (classifyBlocks answers
      (getPendingBlocksForPool s.db.blocks config.id))).map fun b => (config, b),
      e.1 = config ∧ e.2 ∈ classifyBlocks answers
        (getPendingBlocksForPool s.db.blocks config.id) := by
    intro e he
    obtain ⟨b, hb, rfl⟩ := List.mem_map.mp he
    exact ⟨rfl, hperm.mem_iff.mp hb⟩
  refine ⟨h.ledger, h.nodup_blocks, ?_, fun e he => ?_, fun e he => ?_, fun e he => ?_,
    h.confirmed_iff, h.exists_block, h.nodup_confirmations, h.credited_le⟩
  · rw [List.map_map, (hperm.map _).nodup_iff]
    exact (hsub.trans (List.filter_sublist.map _)).nodup h.nodup_blocks
  · obtain ⟨b, hb, hid⟩ := List.mem_map.mp
      (hsub.subset (List.mem_map_of_mem (hmem e he).2))
    obtain ⟨hb, hstatus⟩ := List.mem_filter.mp hb
    simp only [decide_eq_true_eq] at hstatus
    exact ⟨b, hb, hid, hstatus.2⟩
  · exact reward_nonneg_of_mem_classifyBlocks (hmem e he).2
  · rw [(hmem e he).1]
    exact hfees

/-- Every step keeps the invariant. -/
theorem State.Inv.step (h : s.Inv) {op : Op} (hfees : op.FeesWithinReward) {s' : State}
    (hstep : step s op = some s') : s'.Inv := by
  cases op with
  | insertShare share =>
    cases hstep
    exact ⟨⟨h.ledger.amount_eq, h.ledger.exists_balance⟩, h.nodup_blocks, h.nodup_queue, h.pending,
      h.reward_nonneg, h.fees, h.confirmed_iff, h.exists_block, h.nodup_confirmations,
      h.credited_le⟩
  | insertBlock block =>
    rw [Cycles.step] at hstep
    split at hstep
    · cases hstep
    · rename_i hfresh
      cases hstep
      refine ⟨⟨h.ledger.amount_eq, h.ledger.exists_balance⟩, ?_, h.nodup_queue, fun e he => ?_,
        h.reward_nonneg, h.fees, fun b hb => ?_, fun c hc => ?_, h.nodup_confirmations,
        h.credited_le⟩
      · rw [List.map_append, List.nodup_append]
        refine ⟨h.nodup_blocks, List.nodup_singleton _, ?_⟩
        intro id hid id' hid' heq
        rw [heq, List.mem_singleton.mp hid'] at hid
        exact hfresh hid
      · obtain ⟨b, hb, hpending⟩ := h.pending e he
        exact ⟨b, List.mem_append_left _ hb, hpending⟩
      · rcases List.mem_append.mp hb with hb | hb
        · exact h.confirmed_iff b hb
        · rw [List.mem_singleton.mp hb]
          refine ⟨nofun, fun hc => ?_⟩
          obtain ⟨c, hc, hid⟩ := List.mem_map.mp hc
          obtain ⟨b', hb', hid'⟩ := h.exists_block c hc
          exact absurd (List.mem_map.mpr ⟨b', hb', hid'.trans hid⟩) hfresh
      · obtain ⟨b, hb, hid⟩ := h.exists_block c hc
        exact ⟨b, List.mem_append_left _ hb, hid⟩
  | beginCycle config answers =>
    rw [Cycles.step] at hstep
    split at hstep
    · cases hstep
    · cases hstep
      exact h.beginCycle answers hfees
  | processNext fails =>
    rw [Cycles.step] at hstep
    split at hstep
    · cases hstep
    · rename_i config block queue hqueue
      cases hstep
      split
      · exact h.endCycle
      · exact h.processNext hqueue
  | restart =>
    cases hstep
    exact h.endCycle
  | payout config balances =>
    cases hstep
    have hblocks : (persistPayments config s.db balances).blocks = s.db.blocks :=
      persistPayments_blocks balances
    refine ⟨h.ledger.persistPayments balances, ?_, h.nodup_queue, ?_, h.reward_nonneg, h.fees, ?_,
      ?_, h.nodup_confirmations, h.credited_le⟩
    all_goals simp only [hblocks]
    · exact h.nodup_blocks
    · exact h.pending
    · exact h.confirmed_iff
    · exact h.exists_block

end Steps

/-- Over every run whose pools give at most the whole reward to their recipients, every
block is confirmed at most once and its confirmation credits at most its reward; the
confirmed blocks are those with a confirmation, and every balance is the sum of its
changes. -/
theorem distributed_once {ops : List Op} {s : State} (hrun : run step State.initial ops = some s)
    (hfees : ∀ op ∈ ops, op.FeesWithinReward) :
    (s.confirmations.map Confirmation.id).Nodup ∧
      (∀ b ∈ s.db.blocks, b.status = .confirmed ↔ b.id ∈ s.confirmations.map Confirmation.id) ∧
      (∀ c ∈ s.confirmations, c.credited ≤ c.reward) ∧
      ∀ b ∈ s.db.balances, b.amount = s.db.changed b.poolId b.address := by
  have hmeets := (meets_true step State.initial ops).and_forall hfees
  have hinv := run_invariant State.Inv (fun s op s' h hok hstep => h.step hok.1 hstep)
    inv_initial hmeets hrun
  exact ⟨hinv.nodup_confirmations, hinv.confirmed_iff, hinv.credited_le, hinv.ledger.amount_eq⟩

/-- A pool that pays its miners solo. -/
def soloPool (rewardRecipients : List RewardRecipient) : PoolConfig :=
  .plain "BTC" rewardRecipients .solo

/-- A block of the pool that has just been found. -/
def foundBlock : Block := ⟨7, "pool", .pending, "tx", "miner", 0, 0, 5, none, none⟩

/-- The block is confirmed with a reward of ten. -/
def confirmRun (rewardRecipients : List RewardRecipient) : List Op :=
  [.insertBlock foundBlock,
    .beginCycle (soloPool rewardRecipients) [some ⟨.confirmed, 10, 1, by decide⟩],
    .processNext false]

/-- A pool with a fee of one percent distributes the block once. -/
theorem distributed_once_one_percent : ∃ s,
    run step State.initial (confirmRun [⟨"fee", 1⟩]) = some s ∧
      s.confirmations = [⟨7, 10, [⟨"pool", "fee", 1 / 10⟩, ⟨"pool", "miner", 99 / 10⟩]⟩] ∧
      ((s.confirmations.map Confirmation.id).Nodup ∧
        (∀ b ∈ s.db.blocks, b.status = .confirmed ↔
          b.id ∈ s.confirmations.map Confirmation.id) ∧
        (∀ c ∈ s.confirmations, c.credited ≤ c.reward) ∧
        ∀ b ∈ s.db.balances, b.amount = s.db.changed b.poolId b.address) := by
  have hconfirmed : (run step State.initial (confirmRun [⟨"fee", 1⟩])).map State.confirmations =
      some [⟨7, 10, [⟨"pool", "fee", 1 / 10⟩, ⟨"pool", "miner", 99 / 10⟩]⟩] := by
    decide +kernel
  obtain ⟨s, hs, hc⟩ := Option.map_eq_some_iff.mp hconfirmed
  exact ⟨s, hs, hc, distributed_once hs (by decide +kernel)⟩

/-- Only positive percentages count: 150 and -60 sum to 90, and half the reward is
credited too much. -/
theorem credited_more_than_reward :
    totalPercentage [⟨"fee", 150⟩, ⟨"rebate", -60⟩] ≤ 100 ∧
      ∃ s, run step State.initial (confirmRun [⟨"fee", 150⟩, ⟨"rebate", -60⟩]) = some s ∧
        ¬∀ c ∈ s.confirmations, c.credited ≤ c.reward := by
  refine ⟨by decide +kernel, ?_⟩
  have hconfirmed : (run step State.initial
      (confirmRun [⟨"fee", 150⟩, ⟨"rebate", -60⟩])).map State.confirmations =
        some [⟨7, 10, [⟨"pool", "fee", 15⟩]⟩] := by
    decide +kernel
  obtain ⟨s, hs, hc⟩ := Option.map_eq_some_iff.mp hconfirmed
  refine ⟨s, hs, fun hall => ?_⟩
  rw [hc] at hall
  exact absurd (hall _ List.mem_cons_self) (by decide +kernel)

end HashStorm.Payments.Cycles
