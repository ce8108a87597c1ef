import HashStorm.Blockchain.Ethereum.PayoutHandler
import Mathlib.Tactic.Linarith

/-!
# Maturity of Ethereum blocks

A block may be confirmed once the chain is `MinConfimations` above it, and given
up at three quarters of that. The differences are those of unsigned numbers, so
this holds of a decision exactly when the height it rests on is not above the
latest one that was fetched.
-/

namespace HashStorm.Ethereum.Payout

open Contracts Payments

/-- The height a decision rests on: that of the matched uncle, or that of the block. -/
def Decision.height (d : Decision) : UInt64 :=
  match d.ground with
  | .uncle uheight _ _ => uheight
  | _ => d.before.blockHeight

/-- The decision is one for an uncle without a reward. -/
def Decision.Worthless (d : Decision) : Prop :=
  match d.ground with
  | .uncle _ _ reward => reward = 0
  | .duplicate reward => reward = 0
  | _ => False

/-- A block is confirmed when the latest height is `MinConfimations` above the one the decision
rests on, and orphaned when it is three quarters of that above the block, or without a reward as
an uncle. -/
structure Decision.Mature (d : Decision) : Prop where
  confirmed : d.after.status = .confirmed →
    d.height.toNat + minConfimations.toNat ≤ d.latestBlockHeight.toNat
  orphaned : d.after.status = .orphaned →
    d.before.blockHeight.toNat + 3 * minConfimations.toNat / 4 ≤ d.latestBlockHeight.toNat ∨
      d.Worthless

/-- The height a decision rests on is not above the latest height, unless nothing is decided or
it is about an uncle without a reward. -/
def Decision.InRange (d : Decision) : Prop :=
  match d.ground with
  | .undecided => True
  | .duplicate reward => reward ≠ 0 → d.before.blockHeight ≤ d.latestBlockHeight
  | .mainChain _ => d.before.blockHeight ≤ d.latestBlockHeight
  | .uncle uheight _ reward => reward ≠ 0 → uheight ≤ d.latestBlockHeight
  | .lost => d.before.blockHeight ≤ d.latestBlockHeight

instance : DecidablePred Decision.InRange
  | ⟨_, _, _, .undecided⟩ => isTrue trivial
  | ⟨latest, before, _, .duplicate reward⟩ =>
    inferInstanceAs (Decidable (reward ≠ 0 → before.blockHeight ≤ latest))
  | ⟨latest, before, _, .mainChain _⟩ => inferInstanceAs (Decidable (before.blockHeight ≤ latest))
  | ⟨latest, _, _, .uncle uheight _ reward⟩ =>
    inferInstanceAs (Decidable (reward ≠ 0 → uheight ≤ latest))
  | ⟨latest, before, _, .lost⟩ => inferInstanceAs (Decidable (before.blockHeight ≤ latest))

/-- A difference of at least `MinConfimations` is one of the heights themselves if they are in
order. -/
theorem add_le_iff_of_mature {latest height : UInt64} (h : minConfimations ≤ latest - height) :
    height.toNat + minConfimations.toNat ≤ latest.toNat ↔ height ≤ latest := by
  have hmin : minConfimations.toNat = 16 := rfl
  rw [UInt64.le_iff_toNat_le] at h ⊢
  rw [hmin] at h ⊢
  constructor
  · omega
  · intro hle
    rw [UInt64.toNat_sub_of_le _ _ (UInt64.le_iff_toNat_le.mpr hle)] at h
    omega

/-- The same for three quarters of it. -/
theorem add_le_iff_of_progress {latest height : UInt64}
    (h : 3 / 4 < confirmationProgress latest height) :
    height.toNat + 3 * minConfimations.toNat / 4 ≤ latest.toNat ↔ height ≤ latest := by
  have hmin : minConfimations.toNat = 16 := rfl
  have hlt : 12 < (latest - height).toNat := by
    have h16 := lt_of_lt_of_le h (min_le_right _ _)
    rw [hmin] at h16
    have : (12 : Rat) < ((latest - height).toNat : Rat) := by
      push_cast at h16
      linarith
    exact_mod_cast this
  rw [hmin, UInt64.le_iff_toNat_le]
  constructor
  · omega
  · intro hle
    rw [UInt64.toNat_sub_of_le _ _ (UInt64.le_iff_toNat_le.mpr hle)] at hlt
    omega

/-- A block that is decided as an uncle. -/
theorem mature_uncle_iff {latest height : UInt64} {status : BlockStatus} {reward : Rat} {P : Prop}
    (hreward : 0 ≤ reward) (hmature : minConfimations ≤ latest - height)
    (hstatus : status = if 0 < reward then .confirmed else .orphaned) :
    ((status = .confirmed → height.toNat + minConfimations.toNat ≤ latest.toNat) ∧
      (status = .orphaned → P ∨ reward = 0)) ↔ (reward ≠ 0 → height ≤ latest) := by
  rw [add_le_iff_of_mature hmature]
  by_cases hzero : reward = 0
  · rw [if_neg (by rw [hzero]; exact lt_irrefl 0)] at hstatus
    simp [hstatus, hzero]
  · rw [if_pos (lt_of_le_of_ne hreward (Ne.symm hzero))] at hstatus
    simp [hstatus, hzero]

/-- A grounded decision about a pending block is mature exactly when its height is in range. -/
theorem Decision.Grounded.mature_iff {handler : Handler} {daemon : Daemon} {rows : List Row}
    {d : Decision} (h : d.Grounded handler daemon rows) (hpending : d.before.status = .pending) :
    d.Mature ↔ d.InRange := by
  obtain ⟨latest, before, after, ground⟩ := d
  have hmature_iff : Decision.Mature ⟨latest, before, after, ground⟩ ↔
      (after.status = .confirmed → (Decision.height ⟨latest, before, after, ground⟩).toNat +
        minConfimations.toNat ≤ latest.toNat) ∧
      (after.status = .orphaned →
        before.blockHeight.toNat + 3 * minConfimations.toNat / 4 ≤ latest.toNat ∨
          Decision.Worthless ⟨latest, before, after, ground⟩) :=
    ⟨fun h => ⟨h.confirmed, h.orphaned⟩, fun h => ⟨h.1, h.2⟩⟩
  rw [hmature_iff]
  cases ground with
  | undecided =>
    obtain ⟨reward, progress, hafter⟩ := h
    have hstatus : after.status = .pending := (congrArg Row.status hafter).trans hpending
    simp [Decision.InRange, hstatus]
  | duplicate reward =>
    obtain ⟨hreward, hmature, hafter⟩ := h
    exact mature_uncle_iff hreward hmature (congrArg Row.status hafter)
  | mainChain hash =>
    obtain ⟨hmature, -, -, reward, hafter⟩ := h
    have hstatus : after.status = .confirmed := congrArg Row.status hafter
    simpa [Decision.InRange, Decision.height, hstatus] using add_le_iff_of_mature hmature
  | uncle uheight hash reward =>
    obtain ⟨hreward, hmature, -, -, progress, hafter⟩ := h
    exact mature_uncle_iff hreward hmature (congrArg Row.status hafter)
  | lost =>
    obtain ⟨hprogress, progress, hafter⟩ := h
    have hstatus : after.status = .orphaned := congrArg Row.status hafter
    simpa [Decision.InRange, Decision.Worthless, hstatus] using add_le_iff_of_progress hprogress

/-- The decisions of a call about pending blocks are mature exactly when no height they rest on
is above the latest one. -/
theorem blocks_mature_iff (handler : Handler) (daemon : Daemon) (rows : List Row)
    {blocks : List Row} (hpending : ∀ block ∈ blocks, block.status = .pending) :
    (∀ d ∈ (classifyBlocks handler daemon rows blocks).decisions, d.Mature) ↔
      ∀ d ∈ (classifyBlocks handler daemon rows blocks).decisions, d.InRange := by
  obtain ⟨hsub, hgrounded⟩ := classifyBlocks_spec handler daemon rows blocks
  refine forall₂_congr fun d hd => (hgrounded d hd).mature_iff ?_
  exact hpending d.before (hsub.subset (List.mem_map_of_mem hd))

/-- A pool on the main chain. -/
def exampleHandler : Handler where
  poolId := "pool"
  address := "0x52908400098527886E0F7030069857D2E4169EE7"
  chainType := .main
  maxUncles := 2
  burnsBaseFee := false
  extraConfig := some ⟨true, true, 2⟩

/-- A pending block. -/
def pendingBlock (id : Nat) (height : UInt64) (created : DateTime) : Row :=
  ⟨id, "pool", height, .pending, none, 0, "", 0, created⟩

/-- A daemon whose chain has the given blocks and uncles, and whose latest height was another one
when it was asked for it. -/
def exampleDaemon (latest : UInt64) (block : UInt64 → ChainBlock)
    (uncle : UInt64 → Option ChainBlock) : Daemon where
  enoughPeers := true
  latest _ := some latest
  block _ height := some (block height)
  uncle _ height _ := uncle height
  receipt _ _ := none

/-- Every block was mined by the pool. -/
def ownChain (height : UInt64) : ChainBlock where
  height := some height
  hash := "0xa"
  miner := exampleHandler.address

/-- A block with sixteen others on top of it is confirmed. -/
theorem blocks_mature_sixteen :
    ((classifyBlocks exampleHandler (exampleDaemon 116 ownChain fun _ => none)
      [pendingBlock 1 100 5] [pendingBlock 1 100 5]).decisions.map fun d => d.after.status) =
        [.confirmed] ∧
    ∀ d ∈ (classifyBlocks exampleHandler (exampleDaemon 116 ownChain fun _ => none)
      [pendingBlock 1 100 5] [pendingBlock 1 100 5]).decisions, d.Mature :=
  ⟨by decide +kernel, (blocks_mature_iff exampleHandler (exampleDaemon 116 ownChain fun _ => none)
    [pendingBlock 1 100 5] (by decide)).mpr (by decide +kernel)⟩

/-- The chain grew by one block after its latest height was fetched. The block that is new is
confirmed at once. -/
theorem new_block_confirmed : ∃ d ∈ (classifyBlocks exampleHandler
    (exampleDaemon 99 ownChain fun _ => none) [pendingBlock 1 100 5]
      [pendingBlock 1 100 5]).decisions, d.after.status = .confirmed ∧ ¬d.Mature := by
  have hdecisions : ∃ d ∈ (classifyBlocks exampleHandler
      (exampleDaemon 99 ownChain fun _ => none) [pendingBlock 1 100 5]
        [pendingBlock 1 100 5]).decisions, d.after.status = .confirmed ∧
      d.latestBlockHeight.toNat < d.height.toNat + minConfimations.toNat := by decide +kernel
  obtain ⟨d, hd, hconfirmed, hlow⟩ := hdecisions
  exact ⟨d, hd, hconfirmed, fun h => absurd (h.confirmed hconfirmed) (not_le.mpr hlow)⟩

end HashStorm.Ethereum.Payout
