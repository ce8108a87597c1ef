import HashStorm.Lib.Dictionary
import HashStorm.Payments.Rewards
import Mathlib.Tactic.Ring

/-!
# The PPLNS payment scheme

`PPLNSPaymentScheme.CalculateRewardsAsync` reads the shares of a pool backwards
from the block, page by page, until the accumulated score fills the window. An
exception stops the pass like the full window does. The abstract behaviour is a
single pass over the ordered shares; the pages are transparent exactly when no
boundary they reach falls between shares of one timestamp.
-/

namespace HashStorm.Payments

open Contracts Paging Dictionary

namespace Pplns

/-- The local variables of `CalculateRewardsAsync`; `threw` after an exception. -/
structure Progress where
  accumulatedScore : Rat
  blockRewardRemaining : Rat
  shareCutOffDate : Option DateTime
  shares : List (String × Rat)
  rewards : List (String × Rat)
  done : Bool
  threw : Bool
  deriving DecidableEq, Repr

/-- The loop over a page ends. -/
def Progress.halted (p : Progress) : Bool := p.done || p.threw

/-- The variables before the first page. -/
def Progress.initial (blockReward : Rat) : Progress :=
  ⟨0, blockReward, none, [], [], false, false⟩

variable (scale : ShareScale) (window blockReward : Rat)

/-- The loop body for one share. A network difficulty of zero makes the score an
infinity or no number, which cannot be converted; a window of zero is a division by
zero. -/
def visit (p : Progress) (share : Share) : Progress :=
  let shares := addTo p.shares share.miner (scale.adjustShareDifficulty share.difficulty)
  if share.networkDifficulty = 0 ∨ window = 0 then { p with shares := shares, threw := true }
  else
    -- a score that would cross the threshold is capped to the remaining value
    let fills := window ≤ p.accumulatedScore + scale.score share
    let score := if fills then window - p.accumulatedScore else scale.score share
    let reward := score * blockReward / window
    let remaining := p.blockRewardRemaining - reward
    { accumulatedScore := p.accumulatedScore + score
      blockRewardRemaining := remaining
      shareCutOffDate := if fills then some share.created else p.shareCutOffDate
      shares := shares
      rewards := if 0 < reward then addTo p.rewards share.miner reward else p.rewards
      done := fills
      threw := remaining ≤ 0 ∧ ¬fills }

/-- The results of the local variables, unless an exception was raised. -/
def Progress.result (p : Progress) : Option Rewards :=
  if p.threw then none else some ⟨p.shareCutOffDate, p.shares, p.rewards⟩

/-- `PPLNSPaymentScheme.CalculateRewardsAsync`; the source has a page size of 50000. -/
def calculateRewards (pageSize : Nat) (table : List Share) (poolId : String) (block : Block)
    (cancelled : Nat → Bool) (time : Nat) : Calculation :=
  let out := pageLoop (visit scale window blockReward) Progress.halted Share.created pageSize
    (fun c => readSharesBefore table poolId c.before c.inclusive pageSize) cancelled
    (table.length + 1) time ⟨block.created, true⟩ (.initial blockReward) []
  ⟨out.trace, if out.exit = .failed then none else out.state.result, out.time⟩

/-- The abstract behaviour: one pass over all shares up to the block. -/
def singlePass (table : List Share) (poolId : String) (block : Block) :
    List Share × Option Rewards :=
  let rows := eligible table poolId block
  (visited (visit scale window blockReward) Progress.halted (.initial blockReward) rows,
    (visitAll (visit scale window blockReward) Progress.halted (.initial blockReward)
      rows).result)

/-- The shares have a score, and it does not fill the window. -/
def WindowOpen (shares : List Share) : Prop :=
  (∀ s ∈ shares, s.networkDifficulty ≠ 0) ∧ scale.totalScore shares < window

variable {scale window blockReward}

/-- The pass is open: it has accumulated `score`, which does not fill the window. -/
structure Progress.Open (window blockReward : Rat) (p : Progress) (score : Rat) : Prop where
  halted : p.halted = false
  accumulated : p.accumulatedScore = score
  remaining : p.blockRewardRemaining = blockReward - score * blockReward / window
  nonneg : 0 ≤ score

theorem open_initial : (Progress.initial blockReward).Open window blockReward 0 :=
  ⟨rfl, rfl, by simp [Progress.initial], le_refl 0⟩

/-- A share that does not fill the window leaves the pass open. -/
theorem Progress.Open.visit {p : Progress} {score : Rat} (h : p.Open window blockReward score)
    (hr : 0 < blockReward) {share : Share} (hn : share.networkDifficulty ≠ 0)
    (hlt : score + scale.score share < window) :
    (visit scale window blockReward p share).Open window blockReward
      (score + scale.score share) := by
  have hs := scale.score_nonneg share
  have hnonneg : 0 ≤ score + scale.score share := add_nonneg h.nonneg hs
  have hw : 0 < window := lt_of_le_of_lt hnonneg hlt
  have hfills : ¬window ≤ p.accumulatedScore + scale.score share := by
    rw [h.accumulated]
    exact not_le.mpr hlt
  have hremaining : p.blockRewardRemaining - scale.score share * blockReward / window =
      blockReward - (score + scale.score share) * blockReward / window := by
    rw [h.remaining]
    ring
  have hpos : 0 < blockReward - (score + scale.score share) * blockReward / window := by
    have : (score + scale.score share) * blockReward / window < blockReward := by
      rw [div_lt_iff₀ hw, mul_comm]
      exact mul_lt_mul_of_pos_left hlt hr
    linarith
  have hthrow : ¬(share.networkDifficulty = 0 ∨ window = 0) := not_or.mpr ⟨hn, hw.ne'⟩
  refine ⟨?_, ?_, ?_, hnonneg⟩
  · simp only [Pplns.visit, if_neg hthrow, if_neg hfills, Progress.halted, hremaining]
    simpa [hfills] using hpos
  · simp only [Pplns.visit, if_neg hthrow, if_neg hfills]
    rw [h.accumulated]
  · simp only [Pplns.visit, if_neg hthrow, if_neg hfills, hremaining]

/-- A share without a score, or one that fills the window, ends the pass. -/
theorem halted_visit {p : Progress} {share : Share}
    (h : share.networkDifficulty = 0 ∨ window ≤ p.accumulatedScore + scale.score share) :
    (visit scale window blockReward p share).halted = true := by
  by_cases hthrow : share.networkDifficulty = 0 ∨ window = 0
  · simp [visit, hthrow, Progress.halted]
  · rcases h with h | h
    · exact absurd (Or.inl h) hthrow
    · simp only [visit, if_neg hthrow, h, Progress.halted]
      simp

/-- An open pass stays open over shares exactly when they do not fill the window. -/
theorem Progress.Open.not_halted_iff {p : Progress} {score : Rat}
    (h : p.Open window blockReward score) (hr : 0 < blockReward) (hw : score < window)
    (shares : List Share) :
    (visitAll (Pplns.visit scale window blockReward) Progress.halted p shares).halted = false ↔
      (∀ s ∈ shares, s.networkDifficulty ≠ 0) ∧ score + scale.totalScore shares < window := by
  induction shares generalizing p score with
  | nil => simp [visitAll, h.halted, ShareScale.totalScore, hw]
  | cons s shares ih =>
    have htotal : scale.totalScore (s :: shares) = scale.score s + scale.totalScore shares := by
      simp [ShareScale.totalScore]
    have hrest := scale.totalScore_nonneg shares
    rw [visitAll, if_neg (by simp [h.halted]), htotal, List.forall_mem_cons]
    by_cases hgo : s.networkDifficulty ≠ 0 ∧ score + scale.score s < window
    · rw [ih (h.visit hr hgo.1 hgo.2) hgo.2, add_assoc]
      exact ⟨fun hall => ⟨⟨hgo.1, hall.1⟩, hall.2⟩, fun hall => ⟨hall.1.2, hall.2⟩⟩
    · have hstop : s.networkDifficulty = 0 ∨
          window ≤ p.accumulatedScore + scale.score s := by
        rw [h.accumulated]
        by_contra hno
        rw [not_or, not_le] at hno
        exact hgo hno
      have hhalt : (Pplns.visit scale window blockReward p s).halted = true :=
        halted_visit hstop
      rw [visitAll_of_halted hhalt, hhalt]
      constructor
      · intro hf
        cases hf
      · rintro ⟨⟨hn, _⟩, hlt⟩
        exact absurd ⟨hn, by linarith⟩ hgo

/-- The pass from the start stays open exactly while the window is open. -/
theorem not_halted_iff (hr : 0 < blockReward) {shares : List Share} (hne : shares ≠ []) :
    (visitAll (visit scale window blockReward) Progress.halted (.initial blockReward)
      shares).halted = false ↔ WindowOpen scale window shares := by
  rw [WindowOpen]
  by_cases hw : 0 < window
  · simpa using open_initial.not_halted_iff hr hw shares
  · have hrest := scale.totalScore_nonneg shares
    refine ⟨fun h => ?_, fun h => absurd (lt_of_le_of_lt hrest h.2) hw⟩
    cases shares with
    | nil => exact absurd rfl hne
    | cons s shares =>
      have hs := scale.score_nonneg s
      have hhalt : (visit scale window blockReward (.initial blockReward) s).halted = true :=
        halted_visit (Or.inr (by simp only [Progress.initial]; linarith))
      rw [visitAll, if_neg (by simp [Progress.initial, Progress.halted]),
        visitAll_of_halted hhalt, hhalt] at h
      cases h

section Rewards

/-- The rewards never exceed the block reward, they are in proportion to the
accumulated score while the pass is open, and a full window distributes everything. -/
structure Progress.Bounded (window blockReward : Rat) (p : Progress) : Prop where
  pos : ∀ e ∈ p.rewards, 0 < e.2
  total_le : total p.rewards ≤ max blockReward 0
  proportional : p.halted = false → 0 ≤ p.accumulatedScore ∧
    (p.accumulatedScore = 0 ∨ p.accumulatedScore < window) ∧
    total p.rewards = p.accumulatedScore / window * max blockReward 0
  full : p.done = true → total p.rewards = max blockReward 0

theorem bounded_initial (window blockReward : Rat) :
    (Progress.initial blockReward).Bounded window blockReward where
  pos := by simp [Progress.initial]
  total_le := by simp [Progress.initial]
  proportional _ := by simp [Progress.initial]
  full h := by simp [Progress.initial] at h

/-- A reward is recorded if it is positive, and no reward is negative otherwise. -/
theorem total_reward (rewards : List (String × Rat)) (miner : String) {score : Rat}
    (h : 0 ≤ score / window) :
    total (if 0 < score * blockReward / window then
        addTo rewards miner (score * blockReward / window) else rewards) =
      total rewards + score / window * max blockReward 0 := by
  have hreward : score * blockReward / window = score / window * blockReward := by ring
  rw [hreward]
  by_cases hr : 0 ≤ blockReward
  · rw [max_eq_left hr]
    split
    · rw [total_addTo]
    · rename_i hno
      rw [le_antisymm (not_lt.mp hno) (mul_nonneg h hr), add_zero]
  · have hle := (not_le.mp hr).le
    rw [max_eq_right hle, if_neg (not_lt.mpr (mul_nonpos_of_nonneg_of_nonpos h hle))]
    ring

theorem Progress.Bounded.visit {p : Progress} (h : p.Bounded window blockReward)
    (hopen : p.halted = false) (share : Share) :
    (visit scale window blockReward p share).Bounded window blockReward := by
  obtain ⟨hacc, hlt, htotal⟩ := h.proportional hopen
  have hdone : p.done = false := by
    simp only [Progress.halted, Bool.or_eq_false_iff] at hopen
    exact hopen.1
  have hs := scale.score_nonneg share
  by_cases hthrow : share.networkDifficulty = 0 ∨ window = 0
  · simp only [Pplns.visit, if_pos hthrow]
    refine ⟨h.pos, h.total_le, fun hf => ?_, fun hf => ?_⟩
    · simp [Progress.halted] at hf
    · simp [hdone] at hf
  have hw : window ≠ 0 := fun hw => hthrow (Or.inr hw)
  have hpos (score : Rat) : ∀ e ∈ (if 0 < score * blockReward / window then
      addTo p.rewards share.miner (score * blockReward / window) else p.rewards), 0 < e.2 := by
    split
    · exact forall_addTo h.pos ‹_› fun w hw' => add_pos hw' ‹_›
    · exact h.pos
  by_cases hfills : window ≤ p.accumulatedScore + scale.score share
  · have hc : 0 ≤ (window - p.accumulatedScore) / window := by
      rcases hlt with hzero | hlt
      · rw [hzero, sub_zero, div_self hw]
        exact zero_le_one
      · exact div_nonneg (sub_nonneg.mpr hlt.le) (hacc.trans hlt.le)
    have hall : total p.rewards + (window - p.accumulatedScore) / window * max blockReward 0 =
        max blockReward 0 := by
      rw [htotal, ← add_mul, ← add_div, add_sub_cancel, div_self hw, one_mul]
    simp only [Pplns.visit, if_neg hthrow, if_pos hfills]
    refine ⟨hpos _, ?_, fun hf => ?_, fun _ => ?_⟩
    · rw [total_reward _ _ hc, hall]
    · simp [Progress.halted, hfills] at hf
    · rw [total_reward _ _ hc, hall]
  · have hwpos : 0 < window := lt_of_le_of_lt (add_nonneg hacc hs) (not_le.mp hfills)
    have hc : 0 ≤ scale.score share / window := div_nonneg hs hwpos.le
    have hsum : total p.rewards + scale.score share / window * max blockReward 0 =
        (p.accumulatedScore + scale.score share) / window * max blockReward 0 := by
      rw [htotal]
      ring
    have hle : (p.accumulatedScore + scale.score share) / window ≤ 1 :=
      (div_le_one hwpos).mpr (not_le.mp hfills).le
    simp only [Pplns.visit, if_neg hthrow, if_neg hfills]
    refine ⟨hpos _, ?_, fun _ => ⟨add_nonneg hacc hs, Or.inr (not_le.mp hfills), ?_⟩, fun hf => ?_⟩
    · rw [total_reward _ _ hc, hsum]
      exact mul_le_of_le_one_left (le_max_right _ _) hle
    · rw [total_reward _ _ hc, hsum]
    · simp [hfills] at hf

theorem Progress.Bounded.visitAll {p : Progress} (h : p.Bounded window blockReward)
    (scale : ShareScale) (shares : List Share) :
    (visitAll (Pplns.visit scale window blockReward) Progress.halted p shares).Bounded window
      blockReward := by
  induction shares generalizing p with
  | nil => exact h
  | cons s shares ih =>
    unfold Paging.visitAll
    split
    · exact h
    · exact ih (h.visit (by simpa using ‹¬p.halted = true›) s)

end Rewards

section Open

/-- A visit that does not halt takes the share into the open window. -/
theorem visit_of_not_halted {p : Progress} {share : Share}
    (h : (visit scale window blockReward p share).halted = false) :
    share.networkDifficulty ≠ 0 ∧ p.accumulatedScore + scale.score share < window ∧
      (visit scale window blockReward p share).accumulatedScore =
        p.accumulatedScore + scale.score share ∧
      (visit scale window blockReward p share).shareCutOffDate = p.shareCutOffDate := by
  have hn : share.networkDifficulty ≠ 0 := fun hn => by
    rw [halted_visit (Or.inl hn)] at h
    cases h
  have hfills : ¬window ≤ p.accumulatedScore + scale.score share := fun hfills => by
    rw [halted_visit (Or.inr hfills)] at h
    cases h
  have hw : window ≠ 0 := fun hw => by simp [visit, hw, Progress.halted] at h
  have hthrow : ¬(share.networkDifficulty = 0 ∨ window = 0) := not_or.mpr ⟨hn, hw⟩
  refine ⟨hn, not_le.mp hfills, ?_, ?_⟩ <;> simp [visit, hthrow, hfills]

/-- A pass that does not halt takes all its shares into the open window, and it has no
cut-off. -/
theorem visitAll_of_not_halted {p : Progress} {shares : List Share}
    (h : (visitAll (visit scale window blockReward) Progress.halted p shares).halted = false) :
    (∀ s ∈ shares, s.networkDifficulty ≠ 0) ∧
      (shares ≠ [] → p.accumulatedScore + scale.totalScore shares < window) ∧
      (visitAll (visit scale window blockReward) Progress.halted p shares).accumulatedScore =
        p.accumulatedScore + scale.totalScore shares ∧
      (visitAll (visit scale window blockReward) Progress.halted p shares).shareCutOffDate =
        p.shareCutOffDate := by
  induction shares generalizing p with
  | nil => simp [visitAll, ShareScale.totalScore]
  | cons s shares ih =>
    have htotal : scale.totalScore (s :: shares) = scale.score s + scale.totalScore shares := by
      simp [ShareScale.totalScore]
    have hp : ¬p.halted = true := fun hp => by
      rw [visitAll_of_halted hp, hp] at h
      cases h
    simp only [visitAll, if_neg hp] at h ⊢
    have hs : (visit scale window blockReward p s).halted = false := by
      by_contra hs
      rw [Bool.not_eq_false] at hs
      rw [visitAll_of_halted hs, hs] at h
      cases h
    obtain ⟨hn, hlt, hacc, hcut⟩ := visit_of_not_halted hs
    obtain ⟨hns, hlts, haccs, hcuts⟩ := ih h
    rw [hacc] at hlts haccs
    rw [htotal, ← add_assoc]
    refine ⟨List.forall_mem_cons.mpr ⟨hn, hns⟩, fun _ => ?_, haccs, hcuts.trans hcut⟩
    cases shares with
    | nil => simpa [ShareScale.totalScore] using hlt
    | cons s' shares => exact hlts (by simp)

/-- The pass is open at the start and while the window is. -/
theorem not_halted_take (hr : 0 < blockReward) {shares : List Share} {n : Nat}
    (hopen : n = 0 ∨ WindowOpen scale window (shares.take n)) :
    (visitAll (visit scale window blockReward) Progress.halted (.initial blockReward)
      (shares.take n)).halted = false := by
  by_cases hnil : shares.take n = []
  · rw [hnil]
    simp [visitAll, Progress.initial, Progress.halted]
  · rcases hopen with rfl | hopen
    · exact absurd List.take_zero hnil
    · exact (not_halted_iff hr hnil).mpr hopen

/-- A longer pass that raises no exception distributes more. -/
theorem total_take_lt (hr : 0 < blockReward) {shares : List Share}
    (hpos : ∀ s ∈ shares, 0 < scale.score s) {n : Nat} (hn : n < shares.length)
    (hopen : n = 0 ∨ WindowOpen scale window (shares.take n))
    (hthrew : (visitAll (visit scale window blockReward) Progress.halted (.initial blockReward)
      shares).threw = false) :
    total (visitAll (visit scale window blockReward) Progress.halted (.initial blockReward)
        (shares.take n)).rewards <
      total (visitAll (visit scale window blockReward) Progress.halted (.initial blockReward)
        shares).rewards := by
  have hpart := not_halted_take hr hopen
  have hbounded := bounded_initial window blockReward
  obtain ⟨_, hacc, htotal⟩ := (hbounded.visitAll scale (shares.take n)).proportional hpart
  obtain ⟨_, _, hscore, _⟩ := visitAll_of_not_halted hpart
  have hzero : (Progress.initial blockReward).accumulatedScore = 0 := rfl
  rw [hscore, hzero, zero_add] at hacc htotal
  rw [htotal, max_eq_left hr.le]
  cases hfull : (visitAll (visit scale window blockReward) Progress.halted (.initial blockReward)
      shares).halted with
  | true =>
    have hdone : (visitAll (visit scale window blockReward) Progress.halted
        (.initial blockReward) shares).done = true := by
      simpa [Progress.halted, hthrew] using hfull
    rw [(hbounded.visitAll scale shares).full hdone, max_eq_left hr.le]
    refine mul_lt_of_lt_one_left hr ?_
    rcases hacc with hacc | hacc
    · rw [hacc, zero_div]
      exact one_pos
    · exact (div_lt_one (lt_of_le_of_lt (scale.totalScore_nonneg _) hacc)).mpr hacc
  | false =>
    obtain ⟨_, hlt, hscore', _⟩ := visitAll_of_not_halted hfull
    obtain ⟨_, _, htotal'⟩ := (hbounded.visitAll scale shares).proportional hfull
    have hw : 0 < window := by
      have := hlt (List.ne_nil_of_length_pos (by omega))
      rw [hzero, zero_add] at this
      exact lt_of_le_of_lt (scale.totalScore_nonneg _) this
    have hrest : 0 < scale.totalScore (shares.drop n) := by
      cases hdrop : shares.drop n with
      | nil =>
        have := List.drop_eq_nil_iff.mp hdrop
        omega
      | cons s rest =>
        have hs := hpos s (List.mem_of_mem_drop (hdrop ▸ List.mem_cons_self))
        have := scale.totalScore_nonneg rest
        simp only [ShareScale.totalScore, List.map_cons, List.sum_cons] at this ⊢
        linarith
    have hsplit : scale.totalScore shares =
        scale.totalScore (shares.take n) + scale.totalScore (shares.drop n) := by
      conv_lhs => rw [← List.take_append_drop n shares]
      simp [ShareScale.totalScore]
    rw [htotal', hscore', hzero, zero_add, max_eq_left hr.le]
    refine mul_lt_mul_of_pos_right ?_ hr
    rw [hsplit]
    exact div_lt_div_of_pos_right (by linarith) hw

end Open

/-- Without cancellation the pass visits the shares of the pages. -/
theorem calculateRewards_uncancelled (scale : ShareScale) (window blockReward : Rat)
    {pageSize : Nat} (hp : 0 < pageSize) (table : List Share) (poolId : String) (block : Block)
    {cancelled : Nat → Bool} (hnever : ∀ i, cancelled i = false) (time : Nat) :
    let paged := items Share.created pageSize (eligible table poolId block)
    let calculation :=
      calculateRewards scale window blockReward pageSize table poolId block cancelled time
    calculation.visited =
        visited (visit scale window blockReward) Progress.halted (.initial blockReward) paged ∧
      calculation.result = (visitAll (visit scale window blockReward) Progress.halted
        (.initial blockReward) paged).result := by
  obtain ⟨hexit, hstate, htrace, _⟩ := pageLoop_uncancelled (visit scale window blockReward)
    Progress.halted cancelled hp (fun c => readSharesBefore_eq table poolId c pageSize)
    (length_admitted_lt table poolId ⟨block.created, true⟩) hnever (.initial blockReward) time []
  intro paged calculation
  rw [← eligible_eq] at hstate htrace
  refine ⟨htrace, ?_⟩
  simp only [calculation, calculateRewards, hstate]
  rw [if_neg]
  rcases hexit with h | h <;> rw [h] <;> decide

/-- A block of the pool, found at the given time. -/
def blockAt (created : DateTime) : Block :=
  ⟨1, "pool", .pending, "tx", "a", 0, 0, created, none, none⟩

/-- A share of unit score. -/
def unitShare (miner : String) (created : DateTime) : Share := .unit "pool" miner created

end Pplns

end HashStorm.Payments
