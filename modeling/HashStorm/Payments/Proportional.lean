import HashStorm.Lib.Dictionary
import HashStorm.Payments.Rewards

/-!
# The PROP payment scheme

`PROPPaymentScheme` splits the block reward over all shares up to the block, in
proportion to their scores. The newest share it has seen is the cut-off, and the
shares strictly in front of the cut-off are deleted afterwards. So the shares at
the cut-off itself stay, and the next round reads them again.
-/

namespace HashStorm.Payments.Proportional

open Contracts Paging Dictionary

/-- The local variables of `CalculateRewardsAsync`; `threw` after an exception. -/
structure Progress where
  accumulatedScore : Rat
  shareCutOffDate : Option DateTime
  shares : List (String × Rat)
  scores : List (String × Rat)
  threw : Bool
  deriving DecidableEq, Repr

/-- The variables before the first page. -/
def Progress.initial : Progress := ⟨0, none, [], [], false⟩

/-- The later one of the cut-off so far and a timestamp. -/
def laterCutOff (cutOff : Option DateTime) (created : DateTime) : Option DateTime :=
  match cutOff with
  | none => some created
  | some date => if date < created then some created else some date

variable (scale : ShareScale) (blockReward : Rat)

/-- The loop body for one share. -/
def visit (p : Progress) (share : Share) : Progress :=
  let shares := addTo p.shares share.miner (scale.adjustShareDifficulty share.difficulty)
  if share.networkDifficulty = 0 then { p with shares := shares, threw := true }
  else
    { accumulatedScore := p.accumulatedScore + scale.score share
      shareCutOffDate := laterCutOff p.shareCutOffDate share.created
      shares := shares
      scores := addTo p.scores share.miner (scale.score share)
      threw := false }

/-- The loops that build the rewards; the keys of `scores` are distinct, so they
visit every entry once. -/
def buildRewards (rewardPerScorePoint : Rat) :
    List (String × Rat) → List (String × Rat) → List (String × Rat)
  | rewards, [] => rewards
  | rewards, (address, score) :: rest =>
    let reward := score * rewardPerScorePoint
    buildRewards rewardPerScorePoint
      (if 0 < reward then addTo rewards address reward else rewards) rest

/-- What the rewards of the round are. -/
def Progress.rewards (p : Progress) : List (String × Rat) :=
  if 0 < p.accumulatedScore then buildRewards (blockReward / p.accumulatedScore) [] p.scores
  else []

/-- `blockRewardRemaining` after the loops. -/
def Progress.blockRewardRemaining (p : Progress) : Rat :=
  if 0 < p.accumulatedScore then
    blockReward - (p.scores.map fun e => e.2 * (blockReward / p.accumulatedScore)).sum
  else blockReward

/-- `PROPPaymentScheme.CalculateRewardsAsync`; the source has a page size of 100000.
The reward must not be used up when the loop ended without a last page. -/
def calculateRewards (pageSize : Nat) (table : List Share) (poolId : String) (block : Block)
    (cancelled : Nat → Bool) (time : Nat) : Calculation :=
  let out := pageLoop (visit scale) Progress.threw Share.created pageSize
    (fun c => readSharesBefore table poolId c.before c.inclusive pageSize) cancelled
    (table.length + 1) time ⟨block.created, true⟩ .initial []
  let p := out.state
  let overflow := p.blockRewardRemaining blockReward ≤ 0 ∧ out.exit ≠ .lastPage
  ⟨out.trace,
    if out.exit = .failed ∨ p.threw ∨ overflow then none
    else some ⟨p.shareCutOffDate, p.shares, p.rewards blockReward⟩,
    out.time⟩

variable {scale blockReward}

section Rewards

theorem total_buildRewards {point : Rat} (hpoint : 0 ≤ point) {scores : List (String × Rat)}
    (h : ∀ e ∈ scores, 0 ≤ e.2) (rewards : List (String × Rat)) :
    total (buildRewards point rewards scores) = total rewards + total scores * point := by
  induction scores generalizing rewards with
  | nil => simp [buildRewards]
  | cons e scores ih =>
    obtain ⟨he, hrest⟩ := List.forall_mem_cons.mp h
    rw [buildRewards, ih hrest, total_cons, add_mul]
    split
    · rw [total_addTo, add_assoc]
    · rename_i hno
      have hzero : e.2 * point = 0 := le_antisymm (not_lt.mp hno) (mul_nonneg he hpoint)
      rw [hzero, zero_add]

theorem pos_buildRewards {point : Rat} {rewards : List (String × Rat)}
    (h : ∀ e ∈ rewards, 0 < e.2) (scores : List (String × Rat)) :
    ∀ e ∈ buildRewards point rewards scores, 0 < e.2 := by
  induction scores generalizing rewards with
  | nil => exact h
  | cons e scores ih =>
    refine ih ?_
    split
    · exact forall_addTo h ‹_› fun w hw => add_pos hw ‹_›
    · exact h

/-- Every reward is positive. -/
theorem pos_rewards (p : Progress) : ∀ e ∈ p.rewards blockReward, 0 < e.2 := by
  unfold Progress.rewards
  split
  · exact pos_buildRewards (by simp) _
  · simp

/-- The scores of the addresses add up to the accumulated score. -/
structure Progress.Consistent (p : Progress) : Prop where
  total_scores : total p.scores = p.accumulatedScore
  nonneg : ∀ e ∈ p.scores, 0 ≤ e.2

theorem consistent_visit {p : Progress} (h : p.Consistent) (share : Share) :
    (visit scale p share).Consistent := by
  rw [visit]
  have hs := scale.score_nonneg share
  split
  · exact ⟨h.total_scores, h.nonneg⟩
  · exact ⟨by rw [total_addTo, h.total_scores],
      forall_addTo h.nonneg hs fun w hw => add_nonneg hw hs⟩

theorem consistent_visitAll {p : Progress} (h : p.Consistent) (shares : List Share) :
    (visitAll (visit scale) Progress.threw p shares).Consistent := by
  induction shares generalizing p with
  | nil => exact h
  | cons s shares ih =>
    unfold visitAll
    split
    · exact h
    · exact ih (consistent_visit h s)

/-- A pass without exception has met no share without a score. -/
theorem networkDifficulty_ne_zero {p : Progress} {share : Share} {shares : List Share}
    (h : (visitAll (visit scale) Progress.threw (visit scale p share) shares).threw = false) :
    share.networkDifficulty ≠ 0 := by
  intro hn
  have hthrew : (visit scale p share).threw = true := by simp [visit, hn]
  rw [visitAll_of_halted hthrew, hthrew] at h
  cases h

/-- A pass without exception has accumulated the score of all its shares. -/
theorem accumulatedScore_visitAll {p : Progress} {shares : List Share}
    (h : (visitAll (visit scale) Progress.threw p shares).threw = false) :
    (visitAll (visit scale) Progress.threw p shares).accumulatedScore =
      p.accumulatedScore + scale.totalScore shares := by
  induction shares generalizing p with
  | nil => simp [visitAll, ShareScale.totalScore]
  | cons s shares ih =>
    simp only [visitAll] at h ⊢
    split at h
    · simp_all
    · rename_i hp
      rw [if_neg hp, ih h]
      have hn := networkDifficulty_ne_zero h
      simp [visit, hn, ShareScale.totalScore, add_assoc]

/-- All of the reward is distributed if there is a score, nothing otherwise. -/
theorem total_rewards {p : Progress} (h : p.Consistent) :
    total (p.rewards blockReward) =
      if 0 < p.accumulatedScore ∧ 0 < blockReward then blockReward else 0 := by
  rw [Progress.rewards]
  by_cases hacc : 0 < p.accumulatedScore
  · rw [if_pos hacc]
    by_cases hr : 0 < blockReward
    · rw [if_pos ⟨hacc, hr⟩, total_buildRewards (div_nonneg hr.le hacc.le) h.nonneg,
        h.total_scores, total_nil, zero_add, mul_div_cancel₀ _ hacc.ne']
    · rw [if_neg (fun hand => hr hand.2)]
      -- no reward is positive, so nobody gets one
      have hpoint : blockReward / p.accumulatedScore ≤ 0 :=
        div_nonpos_of_nonpos_of_nonneg (not_lt.mp hr) hacc.le
      have hnone : ∀ scores : List (String × Rat), (∀ e ∈ scores, 0 ≤ e.2) →
          buildRewards (blockReward / p.accumulatedScore) [] scores = [] := by
        intro scores hscores
        induction scores with
        | nil => rfl
        | cons e scores ih =>
          obtain ⟨he, hrest⟩ := List.forall_mem_cons.mp hscores
          rw [buildRewards, if_neg (not_lt.mpr (mul_nonpos_of_nonneg_of_nonpos he hpoint))]
          exact ih hrest
      rw [hnone _ h.nonneg]
      rfl
  · rw [if_neg hacc, if_neg (fun hand => hacc hand.1)]
    rfl

end Rewards

section Pass

/-- A later share that is not newer does not move the cut-off. -/
theorem shareCutOffDate_visitAll {p : Progress} {date : DateTime}
    (h : p.shareCutOffDate = some date) {shares : List Share}
    (hle : ∀ s ∈ shares, s.created ≤ date) :
    (visitAll (visit scale) Progress.threw p shares).shareCutOffDate = some date := by
  induction shares generalizing p with
  | nil => exact h
  | cons s shares ih =>
    obtain ⟨hs, hrest⟩ := List.forall_mem_cons.mp hle
    unfold visitAll
    split
    · exact h
    · refine ih ?_ hrest
      unfold visit
      split
      · exact h
      · simp [laterCutOff, h, Nat.not_lt.mpr hs]

variable {pageSize : Nat} {table : List Share} {poolId : String} {block : Block}

/-- A round that raises no exception visits all shares of the pages, its cut-off is
the newest share, and it distributes the reward if there is a score. -/
theorem calculateRewards_some (hp : 0 < pageSize) {cancelled : Nat → Bool}
    (hnever : ∀ i, cancelled i = false) (time : Nat) {result : Rewards}
    (h : (calculateRewards scale blockReward pageSize table poolId block cancelled
      time).result = some result) :
    (calculateRewards scale blockReward pageSize table poolId block cancelled time).visited =
        items Share.created pageSize (eligible table poolId block) ∧
      result.shareCutOffDate = (eligible table poolId block).head?.map Share.created ∧
      total result.rewards =
        if 0 < scale.totalScore (items Share.created pageSize (eligible table poolId block)) ∧
          0 < blockReward then blockReward else 0 := by
  obtain ⟨hexit, hstate, htrace, _⟩ := pageLoop_uncancelled (visit scale) Progress.threw cancelled
    hp (fun c => readSharesBefore_eq table poolId c pageSize)
    (length_admitted_lt table poolId ⟨block.created, true⟩) hnever .initial time []
  rw [← eligible_eq] at hstate htrace
  simp only [calculateRewards, hstate] at h
  split at h
  · cases h
  rename_i hno
  rw [not_or, not_or] at hno
  have hthrew : (visitAll (visit scale) Progress.threw .initial
      (items Share.created pageSize (eligible table poolId block))).threw = false := by
    simpa using hno.2.1
  have hconsistent : (visitAll (visit scale) Progress.threw .initial
      (items Share.created pageSize (eligible table poolId block))).Consistent :=
    consistent_visitAll ⟨rfl, by simp [Progress.initial]⟩ _
  cases h
  refine ⟨?_, ?_, ?_⟩
  · simp only [calculateRewards]
    rw [htrace, visited_of_not_halted hthrew, List.nil_append]
  · cases hrows : eligible table poolId block with
    | nil =>
      rw [items_of_short (by simpa using hp)]
      rfl
    | cons a rows =>
      obtain ⟨rest, hrest⟩ := exists_items_cons Share.created hp a rows
      have hle : ∀ s ∈ rest, s.created ≤ a.created := by
        intro s hs
        have hitem : s ∈ items Share.created pageSize (a :: rows) := by
          rw [hrest]
          exact List.mem_cons_of_mem _ hs
        have hsorted := descending_eligible table poolId block
        rw [hrows] at hsorted
        rcases List.mem_cons.mp (mem_of_mem_items hp hitem) with rfl | hmem
        · exact le_refl _
        · exact (List.pairwise_cons.mp hsorted).1 s hmem
      rw [hrows, hrest, visitAll, if_neg (by simp [Progress.initial])] at hthrew
      have hn := networkDifficulty_ne_zero hthrew
      rw [hrest, visitAll, if_neg (by simp [Progress.initial])]
      exact shareCutOffDate_visitAll (by simp [visit, hn, laterCutOff, Progress.initial]) hle
  · rw [total_rewards hconsistent, accumulatedScore_visitAll hthrew]
    simp [Progress.initial]

end Pass

end HashStorm.Payments.Proportional
