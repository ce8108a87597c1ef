import HashStorm.Payments.Repository
import Mathlib.Algebra.Order.Field.Basic
import Mathlib.Tactic.Linarith

/-!
# What the share based schemes have in common

Scores of shares, the shares a block is paid for, the result of a reward
calculation, and the removal of discarded shares.
-/

namespace HashStorm.Payments

open Contracts Paging

/-- What the schemes use of a payout handler: `AdjustShareDifficulty` multiplies by
a constant of the coin. -/
structure ShareScale where
  multiplier : Rat
  multiplier_pos : 0 < multiplier := by decide
  deriving DecidableEq, Repr

/-- `AdjustShareDifficulty`. -/
def ShareScale.adjustShareDifficulty (scale : ShareScale) (difficulty : Rat) : Rat :=
  difficulty * scale.multiplier

/-- `AdjustBlockEffort`. -/
def ShareScale.adjustBlockEffort (scale : ShareScale) (effort : Rat) : Rat :=
  effort * scale.multiplier

/-- The score of a share. -/
def ShareScale.score (scale : ShareScale) (share : Share) : Rat :=
  scale.adjustShareDifficulty share.difficulty / share.networkDifficulty

theorem ShareScale.score_nonneg (scale : ShareScale) (share : Share) : 0 ≤ scale.score share :=
  div_nonneg (mul_nonneg share.difficulty_nonneg scale.multiplier_pos.le)
    share.networkDifficulty_nonneg

/-- The accumulated score of shares. -/
def ShareScale.totalScore (scale : ShareScale) (shares : List Share) : Rat :=
  (shares.map scale.score).sum

theorem ShareScale.totalScore_nonneg (scale : ShareScale) (shares : List Share) :
    0 ≤ scale.totalScore shares := by
  induction shares with
  | nil => simp [totalScore]
  | cons s shares ih =>
    have hs := scale.score_nonneg s
    simp only [totalScore, List.map_cons, List.sum_cons] at ih ⊢
    linarith

/-- What `CalculateRewardsAsync` returns and fills. -/
structure Rewards where
  shareCutOffDate : Option DateTime
  shares : List (String × Rat)
  rewards : List (String × Rat)
  deriving DecidableEq, Repr

/-- The shares that were visited, the result if no exception was raised, and the
number of times the cancellation token was looked at. -/
structure Calculation where
  visited : List Share
  result : Option Rewards
  time : Nat
  deriving DecidableEq, Repr

/-- The shares up to the block, newest first. -/
def eligible (table : List Share) (poolId : String) (block : Block) : List Share :=
  (poolShares table poolId).filter fun s => s.created ≤ block.created

theorem eligible_eq (table : List Share) (poolId : String) (block : Block) :
    eligible table poolId block =
      (poolShares table poolId).filter (Cursor.admits Share.created ⟨block.created, true⟩) := by
  rw [eligible]
  apply List.filter_congr
  intro s _
  simp [Cursor.admits]

theorem descending_eligible (table : List Share) (poolId : String) (block : Block) :
    Descending Share.created (eligible table poolId block) :=
  List.Pairwise.filter _ (descending_poolShares table poolId)

/-- There are enough pages for all shares. -/
theorem length_admitted_lt (table : List Share) (poolId : String) (c : Cursor DateTime) :
    ((poolShares table poolId).filter (c.admits Share.created)).length < table.length + 1 := by
  refine Nat.lt_succ_of_le ((List.length_filter_le _ _).trans ?_)
  rw [poolShares, List.length_insertionSort]
  exact List.length_filter_le _ _

/-- The removal of discarded shares at the end of `UpdateBalancesAsync`. -/
def discardShares (table : List Share) (poolId : String) (cutOff : Option DateTime) :
    List Share :=
  match cutOff with
  | none => table
  | some date =>
    if 0 < countSharesBefore table poolId date then deleteSharesBefore table poolId date
    else table

/-- Counting first makes no difference. -/
theorem discardShares_some (table : List Share) (poolId : String) (date : DateTime) :
    discardShares table poolId (some date) = deleteSharesBefore table poolId date := by
  rw [discardShares]
  split
  · rfl
  · rename_i hzero
    have hnone := List.length_eq_zero_iff.mp (Nat.eq_zero_of_not_pos hzero)
    rw [List.filter_eq_nil_iff] at hnone
    rw [deleteSharesBefore, eq_comm, List.filter_eq_self]
    intro s hs
    have := hnone s hs
    simp only [decide_eq_true_eq] at this ⊢
    exact this

end HashStorm.Payments
