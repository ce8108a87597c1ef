import HashStorm.Blockchain.Ethereum.PayoutHandler
import Mathlib.Algebra.Order.Field.Basic
import Mathlib.Tactic.Linarith
import Mathlib.Tactic.Ring

/-!
# Block rewards and their schedules

The base rewards of `EthereumPayoutHandler`, compared with the schedules that its
constants describe: tables of forks, eras of constant length, and halvings. Uncles
get a part of the base reward that goes down with the difference of the heights.
Decimals and doubles are exact rationals.
-/

namespace HashStorm.Ethereum.Payout

section Tables

variable {height height' : UInt64} {initial reward : Rat} {forks : List (UInt64 × Rat)}

/-- A reward is that of the last fork that has taken place at a height, or the initial one. -/
def Listed (initial : Rat) (forks : List (UInt64 × Rat)) (height : UInt64) (reward : Rat) : Prop :=
  (∃ fork ∈ forks, fork.1 ≤ height ∧
    (∀ other ∈ forks, other.1 ≤ height → other.1 ≤ fork.1) ∧ reward = fork.2) ∨
    (∀ fork ∈ forks, height < fork.1) ∧ reward = initial

/-- Testing the forks from the last to the first finds the reward that is listed. -/
theorem rewardAt_listed (height : UInt64) (initial : Rat)
    (h : forks.Pairwise fun fork earlier => earlier.1 ≤ fork.1) :
    Listed initial forks height (rewardAt height initial forks) := by
  induction forks with
  | nil => exact Or.inr ⟨nofun, rfl⟩
  | cons fork forks ih =>
    obtain ⟨hfork, hforks⟩ := List.pairwise_cons.mp h
    rw [rewardAt]
    by_cases hle : fork.1 ≤ height
    · rw [if_pos hle]
      refine Or.inl ⟨fork, List.mem_cons_self, hle, fun other hother _ => ?_, rfl⟩
      rcases List.mem_cons.mp hother with rfl | hother
      · exact UInt64.le_refl _
      · exact hfork other hother
    · rw [if_neg hle]
      rcases ih hforks with ⟨found, hmem, hfound, hlast, hreward⟩ | ⟨hnone, hreward⟩
      · refine Or.inl ⟨found, List.mem_cons_of_mem _ hmem, hfound, fun other hother hle' => ?_,
          hreward⟩
        rcases List.mem_cons.mp hother with rfl | hother
        · exact absurd hle' hle
        · exact hlast other hother hle'
      · refine Or.inr ⟨fun other hother => ?_, hreward⟩
        rcases List.mem_cons.mp hother with rfl | hother
        · exact UInt64.not_le.mp hle
        · exact hnone other hother

theorem rewardAt_mem (height : UInt64) (initial : Rat) (forks : List (UInt64 × Rat)) :
    rewardAt height initial forks ∈ initial :: forks.map Prod.snd := by
  induction forks with
  | nil => exact List.mem_cons_self
  | cons fork forks ih =>
    rw [rewardAt]
    split
    · simp
    · rcases List.mem_cons.mp ih with hinitial | hmem
      · rw [hinitial]
        exact List.mem_cons_self
      · exact List.mem_cons_of_mem _ (List.mem_cons_of_mem _ hmem)

/-- If no fork raises the reward, it never increases. -/
theorem rewardAt_antitone (hle : height ≤ height')
    (h : forks.Pairwise fun fork earlier => fork.2 ≤ earlier.2)
    (hinitial : ∀ fork ∈ forks, fork.2 ≤ initial) :
    rewardAt height' initial forks ≤ rewardAt height initial forks := by
  induction forks with
  | nil => exact le_refl _
  | cons fork forks ih =>
    obtain ⟨hfork, hforks⟩ := List.pairwise_cons.mp h
    obtain ⟨hfirst, hinitial⟩ := List.forall_mem_cons.mp hinitial
    rw [rewardAt, rewardAt]
    by_cases hreached : fork.1 ≤ height
    · rw [if_pos hreached, if_pos (UInt64.le_trans hreached hle)]
    · rw [if_neg hreached]
      by_cases hreached' : fork.1 ≤ height'
      · rw [if_pos hreached']
        rcases List.mem_cons.mp (rewardAt_mem height initial forks) with heq | hmem
        · rw [heq]
          exact hfirst
        · obtain ⟨other, hother, heq⟩ := List.mem_map.mp hmem
          rw [← heq]
          exact hfork other hother
      · rw [if_neg hreached']
        exact ih hforks hinitial

end Tables

section Policy

/-- The chains that `GetBaseBlockReward` supports. -/
def ChainType.Supported (chainType : ChainType) : Prop :=
  chainType ≠ .ropsten ∧ chainType ≠ .unknown

/-- The reward of ECIP-1017: a fifth less with every era of five million blocks, which starts
with the first block. -/
def eraReward (height : Nat) : Rat := 5 * (4 / 5) ^ ((height - 1) / 5000000)

/-- The reward is halved once per full period. -/
def halvedReward (period height : Nat) : Rat := 7 * (1 / 2) ^ (height / period)

/-- The reward that the constants describe for a height. The eras start with height one. -/
def ChainType.Scheduled (chainType : ChainType) (height : UInt64) (reward : Rat) : Prop :=
  match chainType with
  | .main | .mainPow => Listed 5 [(4370000, 3), (7280000, 2)] height reward
  | .ubiq => Listed 8 [(358363, 7), (716727, 6), (1075090, 5), (1433454, 4), (1791793, 3 / 2)]
      height reward
  | .octaSpace | .octaSpaceTestnet => Listed (13 / 2) [(650000, 5), (1000000, 4),
      (1500000, 7 / 2), (2000000, 3), (2500000, 28 / 10), (3000000, 23 / 10),
      (4000000, 185 / 100), (6000000, 12 / 10), (8000000, 11 / 10), (10000000, 1)] height reward
  | .hypra => Listed 4 [(15787969, 3), (27200177, 2), (40725107, 1)] height reward
  | .classic | .mordor => 1 ≤ height → reward = eraReward height.toNat
  | .cortex | .bernard => reward = halvedReward 8409600 height.toNat
  | .dolores => reward = halvedReward 1000000 height.toNat
  | .etherOne => reward = 2
  | .pink => reward = 1
  | .callisto => reward = 7776 / 100 / 2
  | .ropsten | .unknown => True

/-- A supported chain has a base reward at a height, the one of its schedule. -/
def FollowsPolicy (chainType : ChainType) (height : UInt64) : Prop :=
  chainType.Supported →
    ∃ reward, getBaseBlockReward chainType height = some reward ∧
      chainType.Scheduled height reward

/-- The heights of a chain at which the base reward is that of the schedule. -/
def OnSchedule (chainType : ChainType) (height : UInt64) : Prop :=
  match chainType with
  | .hypra => height < 27200177
  | .classic | .mordor =>
    5000001 * ((height.toNat - 1) / 5000000) ≤ height.toNat ∧ height.toNat < 42 * 5000001
  | .cortex | .bernard => height < 8409600
  | .dolores => height < 1000000
  | _ => True

variable {height height' : UInt64} {reward reward' : Rat}

theorem Listed.reverse {initial : Rat} {forks : List (UInt64 × Rat)}
    (h : Listed initial forks height reward) : Listed initial forks.reverse height reward := by
  simpa only [Listed, List.mem_reverse] using h

/-- A power of five fits a decimal up to the era 41. -/
theorem pow_le_decimalMax_iff {era : Nat} : 5 ^ era ≤ decimalMax ↔ era < 42 := by
  constructor
  · intro h
    by_contra hge
    have hpow : 5 ^ 42 ≤ 5 ^ era := Nat.pow_le_pow_right (by decide) (not_lt.mp hge)
    have hmax : decimalMax < 5 ^ 42 := by decide
    omega
  · intro h
    have hpow : 5 ^ era ≤ 5 ^ 41 := Nat.pow_le_pow_right (by decide) (by omega)
    exact hpow.trans (by decide)

/-- The eras of the code are longer than those of the policy by one block. -/
theorem classicReward_eq (height : UInt64) :
    (if decimalMax < 5 ^ (height / eraLength).toNat then none
      else some ((5 : Rat) * 4 ^ (height / eraLength).toNat / 5 ^ (height / eraLength).toNat)) =
      if height.toNat < 42 * 5000001 then some (5 * (4 / 5) ^ (height.toNat / 5000001))
      else none := by
  have hera : (height / eraLength).toNat = height.toNat / 5000001 := UInt64.toNat_div _ _
  rw [hera]
  by_cases hlt : height.toNat < 42 * 5000001
  · have hfits := pow_le_decimalMax_iff.mpr (show height.toNat / 5000001 < 42 by omega)
    rw [if_neg (not_lt.mpr hfits), if_pos hlt, div_pow, mul_div_assoc]
  · have hlarge := mt pow_le_decimalMax_iff.mp (show ¬height.toNat / 5000001 < 42 by omega)
    rw [if_pos (not_le.mp hlarge), if_neg hlt]

theorem eraReward_eq_iff {height : Nat} :
    5 * (4 / 5 : Rat) ^ (height / 5000001) = eraReward height ↔
      5000001 * ((height - 1) / 5000000) ≤ height := by
  have hinj : Function.Injective fun n : Nat => (4 / 5 : Rat) ^ n :=
    pow_right_injective₀ (by norm_num) (by norm_num)
  rw [eraReward, mul_right_inj' (by norm_num), hinj.eq_iff]
  omega

/-- Dividing by the number of periods is halving only before the end of the first one. -/
theorem cortexReward_eq_iff {period : UInt64} (hperiod : 0 < period.toNat) :
    cortexReward height period = halvedReward period.toNat height.toNat ↔ height < period := by
  simp only [cortexReward, halvedReward, UInt64.lt_iff_toNat_lt, UInt64.le_iff_toNat_le]
  by_cases hlt : height.toNat < period.toNat
  · rw [if_neg (not_le.mpr hlt), Nat.div_eq_of_lt hlt]
    simp [hlt]
  · have hpos : 0 < height.toNat / period.toNat := Nat.div_pos (not_lt.mp hlt) hperiod
    rw [if_pos (not_lt.mp hlt)]
    refine iff_of_false (fun heq => ?_) hlt
    have hpow : (height.toNat / period.toNat : Nat) < 2 ^ (height.toNat / period.toNat) :=
      Nat.lt_two_pow_self
    rw [one_div, inv_pow, div_eq_mul_inv, mul_right_inj' (by norm_num), inv_inj] at heq
    exact hpow.ne (by exact_mod_cast heq)

theorem cortexReward_antitone (period : UInt64) (hperiod : 0 < period.toNat)
    (hle : height ≤ height') : cortexReward height' period ≤ cortexReward height period := by
  rw [UInt64.le_iff_toNat_le] at hle
  simp only [cortexReward, UInt64.le_iff_toNat_le]
  by_cases hreached : period.toNat ≤ height.toNat
  · have hpos : 0 < height.toNat / period.toNat := Nat.div_pos hreached hperiod
    rw [if_pos hreached, if_pos (hreached.trans hle)]
    exact div_le_div_of_nonneg_left (by norm_num) (Nat.cast_pos.mpr hpos)
      (Nat.cast_le.mpr (Nat.div_le_div_right hle))
  · rw [if_neg hreached]
    split
    · rename_i hreached'
      have hpos : 0 < height'.toNat / period.toNat := Nat.div_pos hreached' hperiod
      exact div_le_self (by norm_num) (Nat.one_le_cast.mpr hpos)
    · exact le_refl _

/-- The first fork of Hypra that is tested is the earliest one. -/
theorem rewardAt_hypra (height : UInt64) :
    rewardAt height 4 [(15787969, 3), (27200177, 2), (40725107, 1)] =
      if 15787969 ≤ height then 3 else 4 := by
  simp only [rewardAt]
  split
  · rfl
  · rename_i hbelow
    rw [UInt64.le_iff_toNat_le] at hbelow
    rw [if_neg, if_neg] <;>
    · rw [UInt64.le_iff_toNat_le]
      intro h
      exact hbelow (le_trans (by decide) h)

theorem listed_hypra_iff :
    Listed 4 [(15787969, 3), (27200177, 2), (40725107, 1)] height
      (if 15787969 ≤ height then 3 else 4) ↔ height < 27200177 := by
  constructor
  · rintro (⟨fork, hmem, hle, hlast, hreward⟩ | ⟨hnone, -⟩)
    · by_contra hge
      have hreached : 27200177 ≤ height := UInt64.not_lt.mp hge
      have hfork := hlast (27200177, 2) (by simp) hreached
      rw [if_pos (UInt64.le_trans (by decide) hreached)] at hreward
      simp only [List.mem_cons, List.not_mem_nil, or_false] at hmem
      rcases hmem with rfl | rfl | rfl
      · exact absurd hfork (by decide)
      · norm_num at hreward
      · norm_num at hreward
    · exact hnone (27200177, 2) (by simp)
  · intro hlt
    have hlt' : height < 40725107 := UInt64.lt_trans hlt (by decide)
    by_cases hreached : 15787969 ≤ height
    · rw [if_pos hreached]
      refine Or.inl ⟨(15787969, 3), by simp, hreached, fun other hother hle => ?_, rfl⟩
      simp only [List.mem_cons, List.not_mem_nil, or_false] at hother
      rcases hother with rfl | rfl | rfl
      · exact UInt64.le_refl _
      · exact absurd hle (UInt64.not_le.mpr hlt)
      · exact absurd hle (UInt64.not_le.mpr hlt')
    · rw [if_neg hreached]
      refine Or.inr ⟨fun other hother => ?_, rfl⟩
      simp only [List.mem_cons, List.not_mem_nil, or_false] at hother
      rcases hother with rfl | rfl | rfl
      · exact UInt64.not_le.mp hreached
      · exact hlt
      · exact hlt'

/-- A table that is tested from the last fork to the first is followed. -/
theorem exists_listed {initial : Rat} {forks : List (UInt64 × Rat)} {rewardOf : Option Rat}
    (hreward : rewardOf = some (rewardAt height initial forks.reverse))
    (hforks : forks.reverse.Pairwise fun fork earlier => earlier.1 ≤ fork.1) :
    ∃ reward, rewardOf = some reward ∧ Listed initial forks height reward := by
  have hlisted := (rewardAt_listed height initial hforks).reverse
  rw [List.reverse_reverse] at hlisted
  exact ⟨_, hreward, hlisted⟩

theorem exists_some_iff {α : Type*} {a : α} {p : α → Prop} :
    (∃ b, some a = some b ∧ p b) ↔ p a := by
  simp only [Option.some.injEq, exists_eq_left']

/-- An era of the code is that of the policy unless it has not started there. -/
theorem exists_eraReward_iff :
    (∃ reward, (if height.toNat < 42 * 5000001 then
        some (5 * (4 / 5 : Rat) ^ (height.toNat / 5000001)) else none) = some reward ∧
      (1 ≤ height → reward = eraReward height.toNat)) ↔
      5000001 * ((height.toNat - 1) / 5000000) ≤ height.toNat ∧ height.toNat < 42 * 5000001 := by
  by_cases hfits : height.toNat < 42 * 5000001
  · rw [if_pos hfits, exists_some_iff, eraReward_eq_iff, and_iff_left hfits]
    constructor
    · intro h
      by_cases hstart : 1 ≤ height
      · exact h hstart
      · rw [UInt64.le_iff_toNat_le] at hstart
        have hzero : height.toNat = 0 := Nat.lt_one_iff.mp (not_le.mp hstart)
        rw [hzero]
    · exact fun h _ => h
  · rw [if_neg hfits]
    exact iff_of_false nofun fun h => hfits h.2

theorem eraReward_antitone (hle : height ≤ height')
    (h : (if height.toNat < 42 * 5000001 then
      some (5 * (4 / 5 : Rat) ^ (height.toNat / 5000001)) else none) = some reward)
    (h' : (if height'.toNat < 42 * 5000001 then
      some (5 * (4 / 5 : Rat) ^ (height'.toNat / 5000001)) else none) = some reward') :
    reward' ≤ reward := by
  rw [UInt64.le_iff_toNat_le] at hle
  split at h
  · split at h'
    · obtain rfl := Option.some.inj h
      obtain rfl := Option.some.inj h'
      exact mul_le_mul_of_nonneg_left
        (pow_le_pow_of_le_one (by norm_num) (by norm_num) (Nat.div_le_div_right hle)) (by norm_num)
    · cases h'
  · cases h

theorem rewardAt_hypra_antitone (hle : height ≤ height') :
    (if 15787969 ≤ height' then (3 : Rat) else 4) ≤ if 15787969 ≤ height then 3 else 4 := by
  by_cases hreached : 15787969 ≤ height
  · rw [if_pos hreached, if_pos (UInt64.le_trans hreached hle)]
  · rw [if_neg hreached]
    split <;> norm_num

instance (chainType : ChainType) : Decidable chainType.Supported :=
  inferInstanceAs (Decidable (_ ∧ _))

/-- **When the base reward is that of the schedule**, for every chain and height. The reward of
a chain never increases with the height. -/
theorem followsPolicy_iff (chainType : ChainType) :
    (∀ height, FollowsPolicy chainType height ↔ OnSchedule chainType height) ∧
      ∀ height height' reward reward', height ≤ height' →
        getBaseBlockReward chainType height = some reward →
        getBaseBlockReward chainType height' = some reward' → reward' ≤ reward := by
  refine ⟨fun height => ?_, fun height height' reward reward' hle h h' => ?_⟩
  · cases chainType with
    | ropsten => exact iff_of_true (fun h => absurd rfl h.1) trivial
    | unknown => exact iff_of_true (fun h => absurd rfl h.2) trivial
    | main | mainPow | ubiq | octaSpace | octaSpaceTestnet =>
      exact iff_of_true (fun _ => exists_listed rfl (by decide)) trivial
    | etherOne | pink => exact iff_of_true (fun _ => ⟨_, rfl, rfl⟩) trivial
    | callisto =>
      exact iff_of_true (fun _ => ⟨_, rfl, by rw [ChainType.Scheduled]; norm_num⟩) trivial
    | cortex | bernard | dolores =>
      rw [FollowsPolicy, imp_iff_right (by decide)]
      simp only [getBaseBlockReward, exists_some_iff]
      exact cortexReward_eq_iff (by decide)
    | hypra =>
      rw [FollowsPolicy, imp_iff_right (by decide)]
      simp only [getBaseBlockReward, exists_some_iff, rewardAt_hypra]
      exact listed_hypra_iff
    | classic | mordor =>
      rw [FollowsPolicy, imp_iff_right (by decide)]
      simp only [getBaseBlockReward, classicReward_eq]
      exact exists_eraReward_iff
  · cases chainType with
    | ropsten | unknown => cases h
    | main | mainPow | ubiq | octaSpace | octaSpaceTestnet =>
      obtain rfl := Option.some.inj h
      obtain rfl := Option.some.inj h'
      exact rewardAt_antitone hle (by decide +kernel) (by decide +kernel)
    | etherOne | pink | callisto =>
      obtain rfl := Option.some.inj h
      obtain rfl := Option.some.inj h'
      exact le_refl _
    | cortex | bernard | dolores =>
      obtain rfl := Option.some.inj h
      obtain rfl := Option.some.inj h'
      exact cortexReward_antitone _ (by decide) hle
    | hypra =>
      obtain rfl := Option.some.inj h
      obtain rfl := Option.some.inj h'
      rw [rewardAt_hypra, rewardAt_hypra]
      exact rewardAt_hypra_antitone hle
    | classic | mordor =>
      simp only [getBaseBlockReward, classicReward_eq] at h h'
      exact eraReward_antitone hle h h'

/-- At the end of its first period, the reward of Cortex is not halved. -/
theorem cortex_not_halved : ¬∀ chainType height, FollowsPolicy chainType height := by
  intro hclaim
  obtain ⟨reward, hreward, hscheduled⟩ := hclaim .cortex 8409600 (by decide)
  have hseven : getBaseBlockReward .cortex 8409600 = some 7 := by decide +kernel
  obtain rfl := Option.some.inj (hseven.symm.trans hreward)
  have hhalf : halvedReward 8409600 (8409600 : UInt64).toNat = 7 / 2 := by decide +kernel
  rw [ChainType.Scheduled, hhalf] at hscheduled
  norm_num at hscheduled

end Policy

section Uncles

/-- The chains and heights at which the reward of an uncle goes down with the difference of the
heights. -/
def ChainType.Linear (chainType : ChainType) (height : UInt64) : Prop :=
  match chainType with
  | .hypra => False
  | .classic | .mordor => height / eraLength = 0
  | _ => True

/-- The difference from which on an uncle gets nothing. -/
def ChainType.scheduleLength : ChainType → UInt64
  | .ubiq => 2
  | _ => 8

/-- The reward of an uncle of a supported chain lies between nothing and the base reward. Where
it goes down with the difference, it does not increase, and comes to nothing in the end. -/
def UncleBounded (chainType : ChainType) (uheight height : UInt64)
    (totalDuplicateBlockBefore : Nat) (maxUncles : Int) : Prop :=
  chainType.Supported →
    ∃ base reward, getBaseBlockReward chainType height = some base ∧
      getUncleReward chainType uheight height totalDuplicateBlockBefore maxUncles =
        some reward ∧
      0 ≤ reward ∧ reward ≤ base ∧
      (chainType.Linear height →
        (chainType.scheduleLength.toNat ≤ height.toNat - uheight.toNat → reward = 0) ∧
          ∀ uheight' reward', uheight ≤ uheight' → uheight' < height →
            getUncleReward chainType uheight' height totalDuplicateBlockBefore maxUncles =
              some reward' → reward ≤ reward')

/-- The base reward is a decimal, and the difference is not longer than the schedule, where it
counts. -/
def UncleInRange (chainType : ChainType) (uheight height : UInt64)
    (totalDuplicateBlockBefore : Nat) (maxUncles : Int) : Prop :=
  chainType.Supported →
    (chainType = .classic ∨ chainType = .mordor → height.toNat < 42 * 5000001) ∧
      (maxUncles < totalDuplicateBlockBefore ∨ ¬chainType.Linear height ∨
        height.toNat - uheight.toNat ≤ chainType.scheduleLength.toNat)

/-- The part of an uncle of a linear schedule. -/
def uncleShare (base : Rat) (generations uheight height : UInt64) : Rat :=
  (if uheight ≠ height then base * (uheight + generations - height).toNat else base) /
    generations.toNat

variable {chainType : ChainType} {uheight uheight' height generations : UInt64} {base : Rat}
  {before : Nat} {maxUncles : Int}

/-- The factor wraps behind the end of the schedule. -/
theorem toNat_generations (hle : uheight ≤ height) (hsmall : generations.toNat < 2 ^ 63) :
    (uheight + generations - height).toNat =
      if height.toNat - uheight.toNat ≤ generations.toNat then
        generations.toNat - (height.toNat - uheight.toNat)
      else 2 ^ 64 + generations.toNat - (height.toNat - uheight.toNat) := by
  rw [UInt64.le_iff_toNat_le] at hle
  have hheight := height.toNat_lt
  rw [UInt64.toNat_sub, UInt64.toNat_add]
  split <;> omega

/-- The part is at most the base reward up to the end of the schedule. -/
theorem uncleShare_le_iff (hbase : 0 < base) (hle : uheight ≤ height)
    (hpos : 0 < generations.toNat) (hsmall : generations.toNat < 2 ^ 63) :
    uncleShare base generations uheight height ≤ base ↔
      height.toNat - uheight.toNat ≤ generations.toNat := by
  have hgenerations : (0 : Rat) < generations.toNat := Nat.cast_pos.mpr hpos
  rw [uncleShare, div_le_iff₀ hgenerations]
  by_cases heq : uheight = height
  · subst heq
    rw [if_neg (not_not.mpr rfl)]
    refine iff_of_true ?_ (by omega)
    exact le_mul_of_one_le_right hbase.le (Nat.one_le_cast.mpr hpos)
  · rw [if_pos heq, mul_le_mul_iff_right₀ hbase, Nat.cast_le, toNat_generations hle hsmall]
    rw [UInt64.le_iff_toNat_le] at hle
    have hheight := height.toNat_lt
    split
    · exact iff_of_true (by omega) (by assumption)
    · exact iff_of_false (by omega) (by assumption)

/-- The part is nothing at the end of the schedule. -/
theorem uncleShare_end (hle : uheight ≤ height) (hpos : 0 < generations.toNat)
    (hsmall : generations.toNat < 2 ^ 63)
    (hend : height.toNat - uheight.toNat = generations.toNat) :
    uncleShare base generations uheight height = 0 := by
  have hne : uheight ≠ height := by
    rintro rfl
    omega
  rw [uncleShare, if_pos hne, toNat_generations hle hsmall, hend, if_pos (le_refl _), Nat.sub_self,
    Nat.cast_zero, mul_zero, zero_div]

/-- Up to the end of the schedule, the part does not increase with the difference. -/
theorem uncleShare_mono (hbase : 0 ≤ base) (hle : uheight ≤ uheight') (hlt : uheight' < height)
    (hsmall : generations.toNat < 2 ^ 63)
    (hrange : height.toNat - uheight.toNat ≤ generations.toNat) :
    uncleShare base generations uheight height ≤ uncleShare base generations uheight' height := by
  have hlt' : uheight < height := UInt64.lt_of_le_of_lt hle hlt
  rw [uncleShare, uncleShare, if_pos (UInt64.ne_of_lt hlt'), if_pos (UInt64.ne_of_lt hlt),
    toNat_generations (UInt64.le_of_lt hlt') hsmall, toNat_generations (UInt64.le_of_lt hlt) hsmall]
  rw [UInt64.le_iff_toNat_le] at hle
  rw [if_pos hrange, if_pos (by omega)]
  refine div_le_div_of_nonneg_right (mul_le_mul_of_nonneg_left ?_ hbase) (Nat.cast_nonneg _)
  exact Nat.cast_le.mpr (by omega)

theorem scheduleLength_bounds (chainType : ChainType) :
    0 < chainType.scheduleLength.toNat ∧ chainType.scheduleLength.toNat < 2 ^ 63 := by
  cases chainType <;> decide

theorem getBaseBlockReward_pos (h : getBaseBlockReward chainType height = some base) :
    0 < base := by
  cases chainType <;> simp only [getBaseBlockReward] at h
  case classic | mordor =>
    split at h <;> cases h
    positivity
  all_goals cases h
  case main | mainPow | ubiq | octaSpace | octaSpaceTestnet | hypra =>
    have hall : ∀ initial forks, (∀ reward ∈ initial :: forks.map Prod.snd, 0 < reward) →
        0 < rewardAt height initial forks := fun initial forks hall =>
      hall _ (rewardAt_mem height initial forks)
    exact hall _ _ (by decide +kernel)
  case cortex | bernard | dolores =>
    rw [cortexReward]
    split
    · rename_i hreached
      rw [UInt64.le_iff_toNat_le] at hreached
      have hpos := Nat.div_pos hreached (by decide)
      positivity
    · norm_num
  all_goals norm_num

/-- Only a power that is too large leaves a supported chain without a base reward. -/
theorem exists_base_iff (hsupported : chainType.Supported) :
    (∃ base, getBaseBlockReward chainType height = some base) ↔
      (chainType = .classic ∨ chainType = .mordor → height.toNat < 42 * 5000001) := by
  cases chainType with
  | ropsten => exact absurd rfl hsupported.1
  | unknown => exact absurd rfl hsupported.2
  | classic | mordor =>
    simp only [getBaseBlockReward, classicReward_eq]
    split
    · rename_i hfits
      exact iff_of_true ⟨_, rfl⟩ fun _ => hfits
    · rename_i hlarge
      exact iff_of_false (by simp) fun h => hlarge (h (by simp))
  | _ => exact iff_of_true ⟨_, rfl⟩ (by simp)

theorem getUncleReward_linear (hbase : getBaseBlockReward chainType height = some base)
    (hlinear : chainType.Linear height) (uheight : UInt64) (before : Nat) (maxUncles : Int) :
    getUncleReward chainType uheight height before maxUncles =
      some (if maxUncles < before then 0
        else uncleShare base chainType.scheduleLength uheight height) := by
  rw [getUncleReward, hbase]
  cases chainType with
  | hypra => exact absurd hlinear id
  | classic | mordor =>
    have hera : height / eraLength = 0 := hlinear
    simp only [Option.bind_eq_bind, Option.bind_some, if_pos hera]
    rfl
  | _ => rfl

theorem getUncleReward_constant (hbase : getBaseBlockReward chainType height = some base)
    (hlinear : ¬chainType.Linear height) (uheight : UInt64) (before : Nat) (maxUncles : Int) :
    ∃ reward, getUncleReward chainType uheight height before maxUncles =
        some (if maxUncles < before then 0 else reward) ∧ 0 ≤ reward ∧ reward ≤ base := by
  have hpos := getBaseBlockReward_pos hbase
  rw [getUncleReward, hbase]
  cases chainType with
  | hypra =>
    refine ⟨1 / 10, rfl, by norm_num, ?_⟩
    simp only [getBaseBlockReward, rewardAt_hypra, Option.some.injEq] at hbase
    subst hbase
    split <;> norm_num
  | classic | mordor =>
    have hera : ¬height / eraLength = 0 := hlinear
    simp only [Option.bind_eq_bind, Option.bind_some, if_neg hera]
    exact ⟨base / 32, rfl, by positivity, div_le_self hpos.le (by norm_num)⟩
  | _ => exact absurd trivial hlinear

/-- **When the reward of an uncle is bounded.** -/
theorem uncleBounded_iff (hle : uheight ≤ height) :
    UncleBounded chainType uheight height before maxUncles ↔
      UncleInRange chainType uheight height before maxUncles := by
  refine forall_congr' fun hsupported => ?_
  rw [← exists_base_iff hsupported]
  constructor
  · rintro ⟨base, reward, hbase, hreward, -, hbound, -⟩
    refine ⟨⟨base, hbase⟩, ?_⟩
    by_contra hout
    rw [not_or, not_or, not_not] at hout
    obtain ⟨hcount, hlinear, hlong⟩ := hout
    rw [getUncleReward_linear hbase hlinear, if_neg hcount] at hreward
    obtain rfl := Option.some.inj hreward
    obtain ⟨hpos, hsmall⟩ := scheduleLength_bounds chainType
    exact hlong ((uncleShare_le_iff (getBaseBlockReward_pos hbase) hle hpos hsmall).mp hbound)
  · rintro ⟨⟨base, hbase⟩, hrange⟩
    have hpositive := getBaseBlockReward_pos hbase
    by_cases hlinear : chainType.Linear height
    · have hreward := fun u => getUncleReward_linear hbase hlinear u before maxUncles
      refine ⟨base, _, hbase, hreward uheight, ?_⟩
      by_cases hcount : maxUncles < before
      · simp only [if_pos hcount] at hreward ⊢
        refine ⟨le_refl _, hpositive.le, fun _ => ⟨fun _ => trivial, fun u r _ _ hr => ?_⟩⟩
        exact (Option.some.inj ((hreward u).symm.trans hr)).le
      · have hshort := (hrange.resolve_left hcount).resolve_left (not_not.mpr hlinear)
        obtain ⟨hpos, hsmall⟩ := scheduleLength_bounds chainType
        simp only [if_neg hcount] at hreward ⊢
        refine ⟨?_, (uncleShare_le_iff hpositive hle hpos hsmall).mpr hshort, fun _ => ⟨?_, ?_⟩⟩
        · rw [uncleShare]
          refine div_nonneg ?_ (Nat.cast_nonneg _)
          split <;> positivity
        · exact fun hend => uncleShare_end hle hpos hsmall (le_antisymm hshort hend)
        · intro u r hu hlt hr
          rw [← Option.some.inj ((hreward u).symm.trans hr)]
          exact uncleShare_mono hpositive.le hu hlt hsmall hshort
    · obtain ⟨reward, hreward, hnonneg, hbound⟩ :=
        getUncleReward_constant hbase hlinear uheight before maxUncles
      refine ⟨base, _, hbase, hreward, ?_, ?_, fun h => absurd h hlinear⟩
      · split
        · exact le_refl _
        · exact hnonneg
      · split
        · exact hpositive.le
        · exact hbound

/-- A block nine heights behind its uncle pays more than the whole supply. -/
theorem distant_uncle_unbounded :
    ¬∀ chainType uheight height before maxUncles, uheight ≤ height →
      UncleBounded chainType uheight height before maxUncles := by
  intro hclaim
  obtain ⟨base, reward, hbase, hreward, -, hbound, -⟩ :=
    hclaim .main 91 100 1 2 (by decide) (by decide)
  have hfive : getBaseBlockReward .main 100 = some 5 := by decide +kernel
  have huge : getUncleReward .main 91 100 1 2 = some (5 * (2 ^ 64 - 1) / 8) := by decide +kernel
  obtain rfl := Option.some.inj (hfive.symm.trans hbase)
  obtain rfl := Option.some.inj (huge.symm.trans hreward)
  norm_num at hbound

/-- An uncle of the height before is bounded. -/
theorem uncleBounded_next : UncleBounded .main 99 100 1 2 :=
  (uncleBounded_iff (by decide)).mpr fun _ => ⟨by decide, Or.inr (Or.inr (by decide))⟩

end Uncles

end HashStorm.Ethereum.Payout
