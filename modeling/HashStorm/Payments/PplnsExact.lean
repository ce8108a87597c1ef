import HashStorm.Payments.BalanceUpdate

/-!
# What PPLNS distributes

Every visited share is paid for its score, and the share that crosses the window for
the score up to it. The rewards are the block reward in proportion to the window: they
reach it exactly when the scores fill the window, and then the cut-off is the time of
the last visited share.
-/

namespace HashStorm.Payments.Pplns

open Contracts Paging Dictionary

variable (scale : ShareScale) (window blockReward : Rat)

/-- The scores of shares that come on top of a score, capped by the window. -/
def cappedScores : Rat → List Share → List (String × Rat)
  | _, [] => []
  | score, s :: shares =>
    (s.miner, min (scale.score s) (window - score)) :: cappedScores (score + scale.score s) shares

/-- The rewards are exact for the shares that were visited. -/
structure ExactRewards (shares : List Share) (r : Rewards) : Prop where
  keys : (r.rewards.map Prod.fst).Nodup
  reward : ∀ miner, totalAt r.rewards miner =
    blockReward / window * totalAt (cappedScores scale window 0 shares) miner
  total_le : total r.rewards ≤ blockReward
  total_eq_iff : total r.rewards = blockReward ↔ window ≤ scale.totalScore shares
  cutOff_iff : r.shareCutOffDate.isSome ↔ window ≤ scale.totalScore shares
  cutOff : ∀ date, r.shareCutOffDate = some date →
    ∃ before s, shares = before ++ [s] ∧ s.created = date ∧ scale.totalScore before < window ∧
      ∀ t ∈ shares, date ≤ t.created

/-- The variables of the loop are exact for the shares visited so far. -/
structure Progress.Exact (p : Progress) (shares : List Share) : Prop where
  done_iff : p.done = true ↔ window ≤ scale.totalScore shares
  accumulated : p.accumulatedScore = min (scale.totalScore shares) window
  keys : (p.rewards.map Prod.fst).Nodup
  reward : ∀ miner, totalAt p.rewards miner =
    blockReward / window * totalAt (cappedScores scale window 0 shares) miner
  total_eq : total p.rewards = blockReward / window * p.accumulatedScore
  cutOff : ∀ date, p.shareCutOffDate = some date → ∃ before s, shares = before ++ [s] ∧
    s.created = date ∧ scale.totalScore before < window
  cutOff_iff : p.shareCutOffDate.isSome ↔ p.done = true

variable {scale window blockReward}

theorem totalScore_append (shares shares' : List Share) :
    scale.totalScore (shares ++ shares') = scale.totalScore shares + scale.totalScore shares' := by
  simp [ShareScale.totalScore]

@[simp] theorem totalScore_singleton (s : Share) : scale.totalScore [s] = scale.score s := by
  simp [ShareScale.totalScore]

theorem cappedScores_append (score : Rat) (shares shares' : List Share) :
    cappedScores scale window score (shares ++ shares') =
      cappedScores scale window score shares ++
        cappedScores scale window (score + scale.totalScore shares) shares' := by
  induction shares generalizing score with
  | nil => simp [cappedScores, ShareScale.totalScore]
  | cons s shares ih =>
    rw [List.cons_append, cappedScores, cappedScores, ih, List.cons_append, add_assoc]
    simp [ShareScale.totalScore]

theorem exact_initial (scale : ShareScale) (blockReward : Rat) (hw : 0 < window) :
    (Progress.initial blockReward).Exact scale window blockReward [] where
  done_iff := by simp [Progress.initial, ShareScale.totalScore, hw]
  accumulated := by simp [Progress.initial, ShareScale.totalScore, hw.le]
  keys := by simp [Progress.initial]
  reward := by simp [Progress.initial, cappedScores]
  total_eq := by simp [Progress.initial]
  cutOff := by simp [Progress.initial]
  cutOff_iff := by simp [Progress.initial]

/-- What `rewards` becomes if a reward is recorded only when it is positive. -/
theorem recorded_reward {rewards : List (String × Rat)} (hkeys : (rewards.map Prod.fst).Nodup)
    (miner : String) {reward : Rat} (h : 0 ≤ reward) :
    let rewards' := if 0 < reward then addTo rewards miner reward else rewards
    (rewards'.map Prod.fst).Nodup ∧ total rewards' = total rewards + reward ∧
      ∀ k, totalAt rewards' k = totalAt rewards k + if miner = k then reward else 0 := by
  intro rewards'
  simp only [rewards']
  split
  · exact ⟨nodup_keys_addTo hkeys _ _, total_addTo _ _ _, totalAt_addTo _ _ _⟩
  · rename_i hzero
    obtain rfl : reward = 0 := le_antisymm (not_lt.mp hzero) h
    exact ⟨hkeys, by simp, by simp⟩

/-- One more share is paid for its capped score. -/
theorem Progress.Exact.visit {p : Progress} {shares : List Share}
    (h : p.Exact scale window blockReward shares) (hw : 0 < window) (hr : 0 ≤ blockReward)
    (hopen : p.done = false) {s : Share} (hn : s.networkDifficulty ≠ 0) :
    (visit scale window blockReward p s).Exact scale window blockReward (shares ++ [s]) := by
  have hlt : scale.totalScore shares < window := by
    rw [← not_le, ← h.done_iff, hopen]
    exact Bool.false_ne_true
  have hacc : p.accumulatedScore = scale.totalScore shares := by
    rw [h.accumulated, min_eq_left hlt.le]
  have hcut : p.shareCutOffDate = none := by
    have := h.cutOff_iff
    simpa [hopen] using this
  have hs := scale.score_nonneg s
  have hthrow : ¬(s.networkDifficulty = 0 ∨ window = 0) := not_or.mpr ⟨hn, hw.ne'⟩
  have hscore : (if window ≤ p.accumulatedScore + scale.score s then window - p.accumulatedScore
      else scale.score s) = min (scale.score s) (window - scale.totalScore shares) := by
    rw [hacc]
    split
    · exact (min_eq_right (by linarith)).symm
    · exact (min_eq_left (by linarith)).symm
  have hcapped : 0 ≤ min (scale.score s) (window - scale.totalScore shares) :=
    le_min hs (by linarith)
  have hreward : 0 ≤ min (scale.score s) (window - scale.totalScore shares) * blockReward /
      window := div_nonneg (mul_nonneg hcapped hr) hw.le
  obtain ⟨hkeys, htotal, hat⟩ := recorded_reward h.keys s.miner hreward
  simp only [Pplns.visit, if_neg hthrow, hscore]
  refine ⟨?_, ?_, hkeys, fun miner => ?_, ?_, fun date hdate => ?_, ?_⟩
  · rw [decide_eq_true_eq, hacc, totalScore_append, totalScore_singleton]
  · rw [hacc, totalScore_append, totalScore_singleton]
    rcases min_cases (scale.score s) (window - scale.totalScore shares) with
      ⟨hmin, hle⟩ | ⟨hmin, hle⟩
    · rw [hmin, min_eq_left (by linarith)]
    · rw [hmin, min_eq_right (by linarith)]
      ring
  · rw [hat, h.reward, cappedScores_append, totalAt_append, zero_add, cappedScores, cappedScores,
      totalAt_cons, totalAt_nil]
    split <;> ring
  · rw [htotal, h.total_eq]
    ring
  · split at hdate
    · exact ⟨shares, s, rfl, Option.some.inj hdate, hlt⟩
    · rw [hcut] at hdate
      cases hdate
  · split <;> simp_all

/-- A pass that raises no exception is exact for the shares it visits. -/
theorem Progress.Exact.visitAll {p : Progress} {shares : List Share}
    (h : p.Exact scale window blockReward shares) (hw : 0 < window) (hr : 0 ≤ blockReward)
    {rows : List Share}
    (hthrew : (visitAll (Pplns.visit scale window blockReward) Progress.halted p rows).threw =
      false) :
    (visitAll (Pplns.visit scale window blockReward) Progress.halted p rows).Exact scale window
      blockReward
      (shares ++ visited (Pplns.visit scale window blockReward) Progress.halted p rows) := by
  induction rows generalizing p shares with
  | nil => simpa [Paging.visitAll, visited] using h
  | cons s rows ih =>
    simp only [Paging.visitAll, visited] at hthrew ⊢
    split
    · simpa using h
    · rename_i hopen
      rw [if_neg hopen] at hthrew
      simp only [Progress.halted, Bool.or_eq_true, not_or, Bool.not_eq_true] at hopen
      have hn : s.networkDifficulty ≠ 0 := by
        intro hn
        have hstop : (Pplns.visit scale window blockReward p s).threw = true := by
          simp [Pplns.visit, hn]
        rw [visitAll_of_halted (by simp [Progress.halted, hstop]), hstop] at hthrew
        cases hthrew
      have hrest := ih (h.visit hw hr hopen.1 hn) hthrew
      rwa [List.append_assoc, List.singleton_append] at hrest

/-- Shares with a network difficulty have scores. -/
theorem scored_of_forall {shares : List Share} (hn : ∀ s ∈ shares, s.networkDifficulty ≠ 0)
    (score : Rat) : Scored scale window score shares := by
  induction shares generalizing score with
  | nil => trivial
  | cons s shares ih =>
    rw [List.forall_mem_cons] at hn
    exact ⟨hn.1, fun _ => ih hn.2 _⟩

theorem canDistribute_of_forall (hw : window ≠ 0) (hr : 0 < blockReward) {shares : List Share}
    (hn : ∀ s ∈ shares, s.networkDifficulty ≠ 0) :
    CanDistribute scale window blockReward shares := by
  cases shares with
  | nil => trivial
  | cons s shares =>
    rw [List.forall_mem_cons] at hn
    exact ⟨hw, hn.1, fun _ => ⟨hr, scored_of_forall hn.2 _⟩⟩

/-- What the variables say about the rewards. -/
theorem Progress.Exact.exactRewards {p : Progress} {shares : List Share}
    (h : p.Exact scale window blockReward shares) (hw : 0 < window) (hr : 0 < blockReward)
    (hsorted : Descending Share.created shares) :
    ExactRewards scale window blockReward shares ⟨p.shareCutOffDate, p.shares, p.rewards⟩ := by
  have hpart : total p.rewards = blockReward * (min (scale.totalScore shares) window / window) := by
    rw [h.total_eq, h.accumulated]
    ring
  refine ⟨h.keys, h.reward, ?_, ?_, h.cutOff_iff.trans h.done_iff, fun date hdate => ?_⟩
  · show total p.rewards ≤ blockReward
    rw [hpart]
    exact mul_le_of_le_one_right hr.le ((div_le_one hw).mpr (min_le_right _ _))
  · show total p.rewards = blockReward ↔ _
    rw [hpart, mul_eq_left₀ hr.ne', div_eq_one_iff_eq hw.ne', min_eq_right_iff]
  · obtain ⟨before, s, rfl, rfl, hlt⟩ := h.cutOff date hdate
    refine ⟨before, s, rfl, rfl, hlt, fun t ht => ?_⟩
    rw [Descending, List.pairwise_append] at hsorted
    rcases List.mem_append.mp ht with ht | ht
    · exact hsorted.2.2 t ht s List.mem_cons_self
    · rw [List.mem_singleton.mp ht]

theorem networkDifficulty_ne_zero_of_mem_items {pageSize : Nat} (hp : 0 < pageSize)
    {table : List Share} (hn : ∀ s ∈ table, 0 < s.networkDifficulty) {poolId : String}
    {block : Block} : ∀ s ∈ items Share.created pageSize (eligible table poolId block),
      s.networkDifficulty ≠ 0 := by
  intro s hs
  have hpool := List.mem_of_mem_filter (mem_of_mem_items hp hs)
  rw [poolShares, List.mem_insertionSort] at hpool
  exact (hn s (List.mem_of_mem_filter hpool)).ne'

/-- Nothing is thrown over shares that have a network difficulty. -/
theorem threw_visitAll_of_forall (scale : ShareScale) {window blockReward : Rat}
    (hw : window ≠ 0) (hr : 0 < blockReward) {shares : List Share}
    (h : ∀ s ∈ shares, s.networkDifficulty ≠ 0) :
    (visitAll (visit scale window blockReward) Progress.halted (.initial blockReward)
      shares).threw = false :=
  (threw_visitAll_initial shares).mpr (canDistribute_of_forall hw hr h)

end HashStorm.Payments.Pplns
