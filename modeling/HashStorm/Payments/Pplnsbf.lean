import HashStorm.Payments.PplnsExact
import Mathlib.Algebra.Order.BigOperators.Group.List

/-!
# The PPLNSBF payment scheme

`PPLNSBFPaymentScheme` sets a part of the block reward aside for the miner who found
the block and distributes the rest like PPLNS. When the rewards are credited, the
recorded shares of every address are looked up, also those of the finder, who has none
unless the pass has come to one of them.
-/

namespace HashStorm.Payments.Pplnsbf

open Contracts Paging Dictionary
open Pplns (Progress visit CanDistribute)

/-- The configuration of the scheme; a value that is missing in it is zero. -/
structure Config where
  factor : Rat
  blockFinderPercentage : Rat
  deriving DecidableEq, Repr

/-- The window of the scheme; it is 2 unless the scheme is configured. -/
def window (payoutConfig : Option Config) : Rat := (payoutConfig.map Config.factor).getD 2

/-- The percentage for the finder of a block; it is 5 unless the scheme is configured. -/
def blockFinderPercentage (payoutConfig : Option Config) : Rat :=
  (payoutConfig.map Config.blockFinderPercentage).getD 5

/-- The reward for the finder of a block. -/
def blockFinderReward (payoutConfig : Option Config) (blockReward : Rat) : Rat :=
  blockReward * (blockFinderPercentage payoutConfig / 100)

variable (scale : ShareScale) (poolId : String) (payoutConfig : Option Config)

/-- The variables before the first page: the finder has a reward already. -/
def initial (finder : String) (blockReward : Rat) : Progress :=
  { Progress.initial (blockReward - blockFinderReward payoutConfig blockReward) with
    rewards := addTo [] finder (blockFinderReward payoutConfig blockReward) }

/-- `PPLNSBFPaymentScheme.CalculateRewardsAsync`; a share is paid for out of what is left for
the miners. -/
def calculateRewards (table : List Share) (block : Block) (blockReward : Rat)
    (cancelled : Nat → Bool) (time : Nat) : Calculation :=
  let out := pageLoop (visit scale (window payoutConfig)
      (blockReward - blockFinderReward payoutConfig blockReward))
    Progress.halted Share.created Pplns.pageSize
    (fun c => readSharesBefore table poolId c.before c.inclusive Pplns.pageSize) cancelled
    (table.length + 1) time ⟨block.created, true⟩ (initial payoutConfig block.miner blockReward) []
  ⟨out.trace, if out.exit = .failed then none else out.state.result, out.time⟩

/-- The loop that credits the rewards; the usage of a credit names the shares of the
address. -/
def creditRewards (shares : List (String × Rat)) :
    Database → List (String × Rat) → Option Database
  | db, [] => some db
  | db, (address, amount) :: rewards =>
    if 0 < amount then
      if address ∈ shares.map Prod.fst then
        creditRewards shares (db.addAmount poolId address amount) rewards
      else none
    else creditRewards shares db rewards

/-- `PPLNSBFPaymentScheme.UpdateBalancesAsync`. -/
def updateBalances (db : Database) (block : Block) (blockReward : Rat) (cancelled : Nat → Bool)
    (t : Nat) : Option (Database × Nat) := do
  let calculation :=
    calculateRewards scale poolId payoutConfig db.shares block blockReward cancelled t
  let r ← calculation.result
  let db' ← creditRewards poolId r.shares db r.rewards
  let (shares, t) ← deleteDiscardedShares db.shares poolId Pplns.pageSize cancelled
    calculation.time r.shareCutOffDate
  return ({ db' with shares := shares }, t)

/-- The balances are updated: the finder of the block gets the percentage, and all credits
together do not exceed the block reward. -/
def PaysOut (db : Database) (block : Block) (blockReward : Rat) : Prop :=
  ∃ db' t credits shares,
    updateBalances scale poolId payoutConfig db block blockReward never 0 = some (db', t) ∧
      db' = { db.addAmounts poolId credits with shares := shares } ∧
      blockFinderReward payoutConfig blockReward ≤ totalAt credits block.miner ∧
      total credits ≤ blockReward

/-- A miner has a share that the shares in front of it leave inside the window. -/
def InWindow (window : Rat) (miner : String) (shares : List Share) : Prop :=
  ∃ before s rest, shares = before ++ s :: rest ∧ s.miner = miner ∧
    (before = [] ∨ scale.totalScore before < window)

section Credit

variable {scale poolId payoutConfig}

/-- Crediting needs the recorded shares of every address that gets something. -/
theorem creditRewards_eq (shares : List (String × Rat)) (db : Database)
    (rewards : List (String × Rat)) :
    creditRewards poolId shares db rewards =
      if ∀ e ∈ rewards, 0 < e.2 → e.1 ∈ shares.map Prod.fst then
        some (db.addAmounts poolId (rewards.filter fun e => 0 < e.2))
      else none := by
  induction rewards generalizing db with
  | nil => simp [creditRewards]
  | cons e rewards ih =>
    obtain ⟨address, amount⟩ := e
    simp only [creditRewards, List.forall_mem_cons]
    by_cases hpos : 0 < amount
    · by_cases hmem : address ∈ shares.map Prod.fst
      · rw [if_pos hpos, if_pos hmem, ih, List.filter_cons_of_pos (by simpa using hpos),
          Database.addAmounts_cons]
        simp only [hmem, implies_true, true_and]
      · rw [if_pos hpos, if_neg hmem, if_neg]
        exact fun h => hmem (h.1 hpos)
    · rw [if_neg hpos, ih, List.filter_cons_of_neg (by simpa using hpos)]
      simp only [hpos, false_implies, true_and]

end Credit

section Finder

variable {scale} {window blockReward : Rat}

/-- One pass is like another one, with a credit on top of the rewards. -/
structure Above (miner : String) (credit : Rat) (p p' : Progress) : Prop where
  eq : p' = { p with rewards := p'.rewards }
  total_eq : total p'.rewards = credit + total p.rewards
  totalAt_eq : ∀ k, totalAt p'.rewards k = (if miner = k then credit else 0) + totalAt p.rewards k
  nodup : (p'.rewards.map Prod.fst).Nodup
  keys : ∀ k ∈ p'.rewards.map Prod.fst, k = miner ∨ k ∈ p.shares.map Prod.fst
  recorded : ∀ k ∈ p.rewards.map Prod.fst, k ∈ p.shares.map Prod.fst

theorem above_initial (finder : String) (blockReward : Rat) :
    Above finder (blockFinderReward payoutConfig blockReward)
      (.initial (blockReward - blockFinderReward payoutConfig blockReward))
      (initial payoutConfig finder blockReward) where
  eq := rfl
  total_eq := by simp [initial, Progress.initial, addTo]
  totalAt_eq k := by simp [initial, Progress.initial, addTo, totalAt_cons]
  nodup := by simp [initial, addTo]
  keys k hk := .inl (by simpa [initial, addTo] using hk)
  recorded := by simp [Progress.initial]

/-- A visit adds the same reward to both. -/
theorem Above.visit {miner : String} {credit : Rat} {p p' : Progress}
    (h : Above miner credit p p') (s : Share) :
    Above miner credit (visit scale window blockReward p s)
      (visit scale window blockReward p' s) := by
  have hkeys : ∀ k ∈ p.shares.map Prod.fst,
      k ∈ (addTo p.shares s.miner (scale.adjustShareDifficulty s.difficulty)).map Prod.fst :=
    fun k hk => mem_keys_addTo.mpr (.inl hk)
  have hnew : s.miner ∈
      (addTo p.shares s.miner (scale.adjustShareDifficulty s.difficulty)).map Prod.fst :=
    mem_keys_addTo.mpr (.inr rfl)
  obtain ⟨rewards, rfl⟩ : ∃ rewards, p' = { p with rewards := rewards } := ⟨_, h.eq⟩
  have hold := fun k hk => (h.keys k hk).imp_right (hkeys k)
  have hrecorded := fun k hk => hkeys k (h.recorded k hk)
  have htotal := h.total_eq
  have hat := h.totalAt_eq
  have hnodup := h.nodup
  by_cases hthrow : s.networkDifficulty = 0 ∨ window = 0
  · simp only [Pplns.visit, if_pos hthrow]
    exact ⟨rfl, htotal, hat, hnodup, hold, hrecorded⟩
  · simp only [Pplns.visit, if_neg hthrow]
    by_cases hpos : 0 < (if window ≤ p.accumulatedScore + scale.score s then
        window - p.accumulatedScore else scale.score s) * blockReward / window
    · simp only [if_pos hpos]
      refine ⟨rfl, ?_, fun k => ?_, nodup_keys_addTo hnodup _ _, fun k hk => ?_, fun k hk => ?_⟩
      · rw [total_addTo, total_addTo, htotal, add_assoc]
      · rw [totalAt_addTo, totalAt_addTo, hat, add_assoc]
      · rcases mem_keys_addTo.mp hk with hk | rfl
        · exact hold k hk
        · exact .inr hnew
      · rcases mem_keys_addTo.mp hk with hk | rfl
        · exact hrecorded k hk
        · exact hnew
    · simp only [if_neg hpos]
      exact ⟨rfl, htotal, hat, hnodup, hold, hrecorded⟩

/-- Both passes visit the same shares. -/
theorem Above.visitAll {miner : String} {credit : Rat} {p p' : Progress}
    (h : Above miner credit p p') (rows : List Share) :
    Above miner credit (visitAll (Pplns.visit scale window blockReward) Progress.halted p rows)
        (visitAll (Pplns.visit scale window blockReward) Progress.halted p' rows) ∧
      visited (Pplns.visit scale window blockReward) Progress.halted p' rows =
        visited (Pplns.visit scale window blockReward) Progress.halted p rows := by
  have hhalted : ∀ {p p' : Progress}, Above miner credit p p' → p'.halted = p.halted := by
    intro p p' h
    rw [h.eq]
    rfl
  induction rows generalizing p p' with
  | nil => exact ⟨h, rfl⟩
  | cons s rows ih =>
    simp only [Paging.visitAll, visited, hhalted h]
    split
    · exact ⟨h, rfl⟩
    · obtain ⟨habove, hvisited⟩ := ih (h.visit s)
      exact ⟨habove, by rw [hvisited]⟩

/-- The recorded shares are those of the visited miners. -/
theorem mem_shares_visitAll {p : Progress} {rows : List Share} {k : String} :
    k ∈ (visitAll (visit scale window blockReward) Progress.halted p rows).shares.map Prod.fst ↔
      k ∈ p.shares.map Prod.fst ∨
        ∃ s ∈ visited (visit scale window blockReward) Progress.halted p rows, s.miner = k := by
  have hvisit : ∀ (p : Progress) (s : Share), (visit scale window blockReward p s).shares =
      addTo p.shares s.miner (scale.adjustShareDifficulty s.difficulty) := by
    intro p s
    unfold visit
    split
    · rfl
    · rfl
  induction rows generalizing p with
  | nil => simp [visitAll, visited]
  | cons s rows ih =>
    simp only [visitAll, visited]
    split
    · simp
    · refine ih.trans ?_
      rw [hvisit, mem_keys_addTo, List.exists_mem_cons_iff, or_assoc, eq_comm (a := k)]

/-- Shares that are reached on the way to a score have a network difficulty. -/
theorem networkDifficulty_of_scored {score : Rat} {before rest : List Share}
    (h : Pplns.Scored scale window score (before ++ rest))
    (hlt : score + scale.totalScore before < window) :
    ∀ s ∈ before, s.networkDifficulty ≠ 0 := by
  induction before generalizing score with
  | nil => simp
  | cons s before ih =>
    have htotal : scale.totalScore (s :: before) = scale.score s + scale.totalScore before := by
      simp [ShareScale.totalScore]
    have hbefore := scale.totalScore_nonneg before
    rw [htotal, ← add_assoc] at hlt
    exact List.forall_mem_cons.mpr ⟨h.1, ih (h.2 (by linarith)) hlt⟩

/-- A pass that can distribute is open as long as the window is. -/
theorem not_halted_before_iff {before rest : List Share}
    (h : CanDistribute scale window blockReward (before ++ rest)) :
    (visitAll (visit scale window blockReward) Progress.halted (.initial blockReward)
        before).halted = false ↔
      before = [] ∨ scale.totalScore before < window := by
  have hzero : (Progress.initial blockReward).accumulatedScore = 0 := rfl
  constructor
  · intro hopen
    have hlt := (Pplns.visitAll_of_not_halted hopen).2.1
    rw [hzero, zero_add] at hlt
    exact (Classical.em (before = [])).imp_right hlt
  · rintro (rfl | hlt)
    · rfl
    cases before with
    | nil => rfl
    | cons s before =>
      obtain ⟨-, hn, hopen⟩ := h
      have htotal : scale.totalScore (s :: before) = scale.score s + scale.totalScore before := by
        simp [ShareScale.totalScore]
      have hbefore := scale.totalScore_nonneg before
      obtain ⟨hr, hscored⟩ := hopen (by linarith)
      refine (Pplns.not_halted_iff hr (List.cons_ne_nil _ _)).mpr ⟨?_, hlt⟩
      exact List.forall_mem_cons.mpr
        ⟨hn, networkDifficulty_of_scored hscored (by linarith)⟩

/-- A miner is visited who has a share inside the window. -/
theorem exists_visited_iff {rows : List Share} (h : CanDistribute scale window blockReward rows)
    (miner : String) :
    (∃ s ∈ visited (visit scale window blockReward) Progress.halted (.initial blockReward) rows,
        s.miner = miner) ↔ InWindow scale window miner rows := by
  simp only [mem_visited_iff, InWindow]
  constructor
  · rintro ⟨s, ⟨before, rest, rfl, hopen⟩, hminer⟩
    exact ⟨before, s, rest, rfl, hminer, (not_halted_before_iff h).mp hopen⟩
  · rintro ⟨before, s, rest, rfl, hminer, hopen⟩
    exact ⟨s, ⟨before, rest, rfl, (not_halted_before_iff h).mpr hopen⟩, hminer⟩

end Finder

section Payout

variable {scale poolId payoutConfig} {db : Database} {block : Block} {blockReward : Rat}

/-- Leaving out what is not positive changes no sum. -/
theorem total_filter_pos {rewards : List (String × Rat)} (h : ∀ e ∈ rewards, 0 ≤ e.2) :
    total (rewards.filter fun e => 0 < e.2) = total rewards ∧
      ∀ k, totalAt (rewards.filter fun e => 0 < e.2) k = totalAt rewards k := by
  induction rewards with
  | nil => simp
  | cons e rewards ih =>
    obtain ⟨he, hrewards⟩ := List.forall_mem_cons.mp h
    obtain ⟨htotal, hat⟩ := ih hrewards
    by_cases hpos : 0 < e.2
    · rw [List.filter_cons_of_pos (by simpa using hpos)]
      exact ⟨by rw [total_cons, total_cons, htotal],
        fun k => by rw [totalAt_cons, totalAt_cons, hat]⟩
    · have hzero : e.2 = 0 := le_antisymm (not_lt.mp hpos) he
      rw [List.filter_cons_of_neg (by simpa using hpos)]
      exact ⟨by rw [total_cons, htotal, hzero, zero_add],
        fun k => by rw [totalAt_cons, hat, hzero, ite_self, zero_add]⟩

theorem totalAt_nonneg {rewards : List (String × Rat)} (h : ∀ e ∈ rewards, 0 < e.2) (k : String) :
    0 ≤ totalAt rewards k := by
  refine List.sum_nonneg fun x hx => ?_
  obtain ⟨e, he, rfl⟩ := List.mem_map.mp hx
  exact (h e (List.mem_of_mem_filter he)).le

theorem mem_keys_of_totalAt {rewards : List (String × Rat)} {k : String}
    (h : totalAt rewards k ≠ 0) : k ∈ rewards.map Prod.fst := by
  by_contra hnot
  exact h (totalAt_of_not_mem hnot)

/-- An address whose entries do not add up to nothing has one entry with that sum. -/
theorem exists_entry {rewards : List (String × Rat)} (hnodup : (rewards.map Prod.fst).Nodup)
    {k : String} (h : totalAt rewards k ≠ 0) :
    ∃ e ∈ rewards, e.1 = k ∧ e.2 = totalAt rewards k := by
  obtain ⟨e, he, rfl⟩ := List.mem_map.mp (mem_keys_of_totalAt h)
  exact ⟨e, he, rfl, (totalAt_of_mem hnodup he).symm⟩

/-- Without cancellation the pass is one over the shares of the pages. -/
theorem calculateRewards_never (scale : ShareScale) (poolId : String)
    (payoutConfig : Option Config) (db : Database) (block : Block) (blockReward : Rat) (t : Nat) :
    (calculateRewards scale poolId payoutConfig db.shares block blockReward never t).result =
      (visitAll (visit scale (window payoutConfig)
          (blockReward - blockFinderReward payoutConfig blockReward)) Progress.halted
        (initial payoutConfig block.miner blockReward)
        (pagedShares Pplns.pageSize db.shares poolId block)).result := by
  obtain ⟨hexit, hstate, -, -⟩ := pageLoop_uncancelled
    (visit scale (window payoutConfig)
      (blockReward - blockFinderReward payoutConfig blockReward)) Progress.halted never
    Pplns.pageSize_pos (fun c => readSharesBefore_eq db.shares poolId c Pplns.pageSize)
    (length_admitted_lt db.shares poolId ⟨block.created, true⟩) never_eq
    (initial payoutConfig block.miner blockReward) t []
  rw [← eligible_eq] at hstate
  simp only [calculateRewards, hstate, pagedShares]
  rw [if_neg]
  rcases hexit with h | h <;> rw [h] <;> decide

/-- The deletion succeeds. -/
theorem exists_deleteDiscardedShares (table : List Share) (poolId : String) (t : Nat)
    (cutOff : Option DateTime) :
    ∃ discarded, deleteDiscardedShares table poolId Pplns.pageSize never t cutOff =
      some discarded := by
  have hnever := deleteDiscardedShares_never table poolId Pplns.pageSize_pos t cutOff
  obtain ⟨discarded, hdiscarded, -⟩ := Option.map_eq_some_iff.mp hnever
  exact ⟨discarded, hdiscarded⟩

/-- The balances are updated as soon as the rewards can be credited. -/
theorem exists_updateBalances_eq {r : Rewards} {t : Nat}
    (hresult : (calculateRewards scale poolId payoutConfig db.shares block blockReward
      never t).result = some r) :
    ∃ discarded : List Share × Nat,
      updateBalances scale poolId payoutConfig db block blockReward never t =
        (creditRewards poolId r.shares db r.rewards).map fun db' =>
          ({ db' with shares := discarded.1 }, discarded.2) := by
  obtain ⟨discarded, hdiscarded⟩ := exists_deleteDiscardedShares db.shares poolId
    (calculateRewards scale poolId payoutConfig db.shares block blockReward never t).time
    r.shareCutOffDate
  refine ⟨discarded, ?_⟩
  simp only [updateBalances, hresult, hdiscarded, Option.bind_eq_bind, Option.bind_some]
  cases creditRewards poolId r.shares db r.rewards <;> rfl

/-- What the pass leaves, beside the pass of PPLNS over what is left for the miners. -/
theorem above_pass (scale : ShareScale) (payoutConfig : Option Config) (block : Block)
    (blockReward : Rat) (rows : List Share) :
    Above block.miner (blockFinderReward payoutConfig blockReward)
      (visitAll (visit scale (window payoutConfig)
          (blockReward - blockFinderReward payoutConfig blockReward)) Progress.halted
        (.initial (blockReward - blockFinderReward payoutConfig blockReward)) rows)
      (visitAll (visit scale (window payoutConfig)
          (blockReward - blockFinderReward payoutConfig blockReward)) Progress.halted
        (initial payoutConfig block.miner blockReward) rows) :=
  ((above_initial payoutConfig block.miner blockReward).visitAll rows).1

/-- The rewards can be credited if the finder was visited or gets nothing extra. -/
theorem credited_iff {credit : Rat} {miner : String} {p p' : Progress}
    (h : Above miner credit p p') (hcredit : 0 ≤ credit) (hpos : ∀ e ∈ p.rewards, 0 < e.2) :
    (∀ e ∈ p'.rewards, 0 < e.2 → e.1 ∈ p.shares.map Prod.fst) ↔
      (0 < credit → miner ∈ p.shares.map Prod.fst) := by
  have hat := h.totalAt_eq miner
  rw [if_pos rfl] at hat
  have hnonneg := totalAt_nonneg hpos miner
  constructor
  · intro hall hlt
    obtain ⟨e, he, rfl, hval⟩ := exists_entry h.nodup (k := miner) (by rw [hat]; linarith)
    exact hall e he (by rw [hval, hat]; linarith)
  · intro hfinder e he hlt
    rcases h.keys e.1 (List.mem_map_of_mem he) with hminer | hmem
    swap
    · exact hmem
    rw [hminer]
    rcases hcredit.lt_or_eq with hlt' | hzero
    · exact hfinder hlt'
    · have hval := totalAt_of_mem h.nodup he
      rw [hminer, hat, ← hzero, zero_add] at hval
      exact h.recorded _ (mem_keys_of_totalAt (by rw [hval]; exact hlt.ne'))

theorem blockFinderReward_nonneg (hmin : 0 ≤ blockFinderPercentage payoutConfig)
    (hr : 0 ≤ blockReward) : 0 ≤ blockFinderReward payoutConfig blockReward :=
  mul_nonneg hr (div_nonneg hmin (by norm_num))

theorem blockFinderReward_le (hmax : blockFinderPercentage payoutConfig ≤ 100)
    (hr : 0 ≤ blockReward) : blockFinderReward payoutConfig blockReward ≤ blockReward :=
  mul_le_of_le_one_right hr ((div_le_one (by norm_num)).mpr hmax)

theorem blockFinderReward_pos_iff (hr : 0 < blockReward) :
    0 < blockFinderReward payoutConfig blockReward ↔ 0 < blockFinderPercentage payoutConfig := by
  rw [blockFinderReward, mul_pos_iff_of_pos_left hr, div_pos_iff_of_pos_right (by norm_num)]

/-- The credits give the finder the percentage and stay within the block reward. -/
theorem credits_bounded {finderReward : Rat} {miner : String} {p p' : Progress}
    (h : Above miner finderReward p p') (hfinder : 0 ≤ finderReward)
    (hle : finderReward ≤ blockReward) (hpos : ∀ e ∈ p.rewards, 0 < e.2)
    (htotal : total p.rewards ≤ max (blockReward - finderReward) 0) :
    finderReward ≤ totalAt (p'.rewards.filter fun e => 0 < e.2) miner ∧
      total (p'.rewards.filter fun e => 0 < e.2) ≤ blockReward := by
  have hentries : ∀ e ∈ p'.rewards, 0 ≤ e.2 := by
    intro e he
    rw [← totalAt_of_mem h.nodup he, h.totalAt_eq]
    have := totalAt_nonneg hpos e.1
    split
    · linarith
    · linarith
  obtain ⟨hsum, hat⟩ := total_filter_pos hentries
  rw [max_eq_left (by linarith)] at htotal
  constructor
  · rw [hat, h.totalAt_eq, if_pos rfl]
    have := totalAt_nonneg hpos miner
    linarith
  · rw [hsum, h.total_eq]
    linarith

end Payout

section Example

/-- Two miners with a share of unit score each. -/
def twoMiners : Database := { shares := [Pplns.unitShare "a" 5, Pplns.unitShare "b" 4] }

end Example

end HashStorm.Payments.Pplnsbf
