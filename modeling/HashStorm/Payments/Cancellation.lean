import HashStorm.Payments.PayoutManager

/-!
# Cancellation of a reward calculation

The paging loops of PPLNS and PROP take a fired cancellation token for the end of
the shares. When the token is first seen there, and shares are still to be read,
PPLNS goes on with the rewards of the pages read so far, has no cut-off, and so
never looks at the token again: the block is confirmed with a part of its
credits. PROP does so only in front of the first page. Everywhere else the token
is seen by a database call, which raises an exception and rolls everything back.
-/

namespace HashStorm.Payments

open Contracts Paging Dictionary

/-- The token that fires at a moment, counted in observations. -/
def firesAt (moment : Nat) : Nat → Bool := fun t => moment ≤ t

section Efforts

/-- How often the token is looked at while the efforts are filled in. -/
def effortReads (block : Block) : Nat :=
  (if block.effort.isNone then 1 else 0) + if block.minerEffort.isNone then 1 else 0

variable {config : PoolConfig} {db : Database} {block block' : Block} {cancelled : Nat → Bool}
  {t t' : Nat}

theorem calculateBlockEffort_time
    (h : (if block.effort.isNone then calculateBlockEffort config db block cancelled t
      else some (block, t)) = some (block', t')) :
    t' = t + (if block.effort.isNone then 1 else 0) ∧ block'.minerEffort = block.minerEffort := by
  split at h
  · rename_i hnone
    unfold calculateBlockEffort at h
    split at h
    · cases h
    · obtain ⟨effort, _, heq⟩ := Option.map_eq_some_iff.mp h
      cases heq
      simp [hnone]
  · rename_i hsome
    cases h
    simp [hsome]

theorem fillEfforts_time (h : fillEfforts config db block cancelled t = some (block', t')) :
    t' = t + effortReads block := by
  rw [fillEfforts, Option.bind_eq_some_iff] at h
  obtain ⟨⟨filled, t₁⟩, hfill, h⟩ := h
  obtain ⟨ht₁, hminer⟩ := calculateBlockEffort_time hfill
  simp only [hminer] at h
  rw [effortReads, ← Nat.add_assoc, ← ht₁]
  split at h
  · rename_i hnone
    unfold calculateMinerEffort at h
    split at h
    · cases h
    · obtain ⟨effort, _, heq⟩ := Option.map_eq_some_iff.mp h
      cases heq
      simp [hnone]
  · rename_i hsome
    cases h
    simp [hsome]

/-- A token that is not seen makes no difference. -/
theorem fillEfforts_unseen
    (h : ∀ m, t ≤ m → m < t + effortReads block → cancelled m = false) :
    fillEfforts config db block cancelled t = fillEfforts config db block never t := by
  have hfirst : (if block.effort.isNone then calculateBlockEffort config db block cancelled t
      else some (block, t)) = if block.effort.isNone then
        calculateBlockEffort config db block never t else some (block, t) := by
    split
    · rename_i hnone
      have hc : cancelled t = false := h t (Nat.le_refl t) (by simp [effortReads, hnone])
      simp [calculateBlockEffort, hc]
    · rfl
  rw [fillEfforts, fillEfforts, hfirst]
  cases hfill : (if block.effort.isNone then calculateBlockEffort config db block never t
      else some (block, t)) with
  | none => rfl
  | some result =>
    obtain ⟨filled, t₁⟩ := result
    obtain ⟨ht₁, hminer⟩ := calculateBlockEffort_time hfill
    simp only [Option.bind_some, hminer]
    split
    · rename_i hnone
      have hc : cancelled t₁ = false := by
        refine h t₁ (by omega) ?_
        rw [effortReads, ← Nat.add_assoc, ← ht₁, if_pos hnone]
        omega
      simp [calculateMinerEffort, hc]
    · rfl

/-- A token that is seen raises an exception. -/
theorem fillEfforts_seen {m : Nat} (hm : t ≤ m) (hlt : m < t + effortReads block)
    (hc : cancelled m = true) : fillEfforts config db block cancelled t = none := by
  cases hfill : fillEfforts config db block cancelled t with
  | none => rfl
  | some result =>
    exfalso
    rw [fillEfforts, Option.bind_eq_some_iff] at hfill
    obtain ⟨⟨filled, t₁⟩, hfirst, hfill⟩ := hfill
    obtain ⟨ht₁, hminer⟩ := calculateBlockEffort_time hfirst
    simp only [hminer] at hfill
    rw [effortReads, ← Nat.add_assoc, ← ht₁] at hlt
    by_cases hlate : t₁ ≤ m
    · have hnone : block.minerEffort.isNone := by
        by_contra hnone
        rw [if_neg hnone] at hlt
        omega
      rw [if_pos hnone] at hlt hfill
      obtain rfl : m = t₁ := by omega
      simp [calculateMinerEffort, hc] at hfill
    · have hnone : block.effort.isNone := by
        by_contra hnone
        rw [if_neg hnone] at ht₁
        omega
      rw [if_pos hnone] at ht₁ hfirst
      obtain rfl : m = t := by omega
      simp [calculateBlockEffort, hc] at hfirst

end Efforts

section Settle

variable {config : PoolConfig} {db db' : Database} {cancelled : Nat → Bool} {pageSize : Nat}
  {calculation : Calculation} {r : Rewards} {t' : Nat}

/-- A token that is seen while shares are deleted raises an exception. -/
theorem settle_cancelled :
    settle config db cancelled pageSize calculation = none ∨
      settle config db cancelled pageSize calculation =
        settle config db never pageSize calculation := by
  simp only [settle]
  cases calculation.result with
  | none => exact Or.inl rfl
  | some r =>
    simp only [Option.bind_some]
    rcases deleteDiscardedShares_cancelled db.shares config.id pageSize cancelled
      calculation.time r.shareCutOffDate with h | h
    · left
      rw [h]
      rfl
    · right
      rw [h]

/-- Without a cut-off the token is not looked at any more. -/
theorem settle_of_no_cutOff (hr : calculation.result = some r) (hcut : r.shareCutOffDate = none) :
    settle config db cancelled pageSize calculation =
      some ({ creditRewards db config.id r.rewards with shares := db.shares },
        calculation.time) := by
  simp [settle, hr, hcut, deleteDiscardedShares]

/-- With a cut-off the token is looked at once more. -/
theorem settle_of_cutOff (hr : calculation.result = some r) {date : DateTime}
    (hcut : r.shareCutOffDate = some date) (hc : cancelled calculation.time = true) :
    settle config db cancelled pageSize calculation = none := by
  simp [settle, hr, hcut, deleteDiscardedShares, hc]

/-- What was recorded tells what was distributed. -/
theorem settle_balanceChanges
    (h : settle config db cancelled pageSize calculation = some (db', t'))
    (hr : calculation.result = some r) (hpos : ∀ e ∈ r.rewards, 0 < e.2) :
    db'.balanceChanges =
      db.balanceChanges ++ r.rewards.map fun e => ⟨config.id, e.1, e.2⟩ := by
  simp only [settle, hr, Option.bind_some] at h
  obtain ⟨⟨shares, time⟩, _, heq⟩ := Option.map_eq_some_iff.mp h
  cases heq
  simp only [creditRewards_of_pos db config.id hpos, Database.addAmounts_balanceChanges]

theorem total_eq_of_balanceChanges {db : Database} {poolId : String}
    {rewards rewards' : List (String × Rat)}
    (h : (db.balanceChanges ++ rewards.map fun e => (⟨poolId, e.1, e.2⟩ : BalanceChange)) =
      db.balanceChanges ++ rewards'.map fun e => ⟨poolId, e.1, e.2⟩) :
    total rewards = total rewards' := by
  have hmap := congrArg (List.map BalanceChange.amount) (List.append_cancel_left h)
  simp only [List.map_map] at hmap
  exact congrArg List.sum hmap

end Settle

/-- The shares on the pages that are read for a block. -/
def pagedShares (pageSize : Nat) (table : List Share) (poolId : String) (block : Block) :
    List Share :=
  items Share.created pageSize (eligible table poolId block)

namespace Pplns

variable {scale : ShareScale} {window blockReward : Rat} {pageSize : Nat} {table : List Share}
  {poolId : String} {block : Block} {cancelled : Nat → Bool} {t : Nat}

/-- A calculation fails, or the token makes no difference, or it is first seen in front of
a page while the window is open. -/
theorem calculateRewards_cases (hp : 0 < pageSize) :
    (calculateRewards scale window blockReward pageSize table poolId block cancelled t).result =
        none ∨
      calculateRewards scale window blockReward pageSize table poolId block cancelled t =
        calculateRewards scale window blockReward pageSize table poolId block never t ∨
      ∃ j, (∀ i < 2 * j, cancelled (t + i) = false) ∧ cancelled (t + 2 * j) = true ∧
        (visitAll (visit scale window blockReward) Progress.halted (.initial blockReward)
          ((pagedShares pageSize table poolId block).take
            (j * pageSize))).halted = false ∧
        (calculateRewards scale window blockReward pageSize table poolId block cancelled
            t).result =
          (visitAll (visit scale window blockReward) Progress.halted (.initial blockReward)
            ((pagedShares pageSize table poolId block).take
              (j * pageSize))).result := by
  rcases pageLoop_cases (visit scale window blockReward) Progress.halted cancelled hp
    (fun c => readSharesBefore_eq table poolId c pageSize)
    (length_admitted_lt table poolId ⟨block.created, true⟩) (.initial blockReward) t [] with
    ⟨hexit, _⟩ | ⟨hsame, _⟩ | ⟨j, hexit, _, hbefore, hat, _, hopen, hstate⟩
  · left
    simp [calculateRewards, hexit]
  · right; left
    simp only [calculateRewards, hsame]
    rfl
  · right; right
    rw [← eligible_eq] at hopen hstate
    refine ⟨j, hbefore, hat, hopen, ?_⟩
    simp only [calculateRewards, hexit, hstate, pagedShares]
    rw [if_neg (by decide)]

/-- A token that is first seen in front of a page which still has to be read ends the
calculation there. -/
theorem calculateRewards_cut (hp : 0 < pageSize) {j : Nat}
    (hbefore : ∀ i < 2 * j, cancelled (t + i) = false) (hat : cancelled (t + 2 * j) = true)
    (hlen : j * pageSize ≤ (pagedShares pageSize table poolId block).length)
    (hopen : (visitAll (visit scale window blockReward) Progress.halted (.initial blockReward)
      ((pagedShares pageSize table poolId block).take
        (j * pageSize))).halted = false) :
    (calculateRewards scale window blockReward pageSize table poolId block cancelled t).result =
      (visitAll (visit scale window blockReward) Progress.halted (.initial blockReward)
        ((pagedShares pageSize table poolId block).take
          (j * pageSize))).result := by
  rw [pagedShares, eligible_eq] at hlen hopen
  obtain ⟨hexit, _, hstate⟩ := pageLoop_cancelled_at (visit scale window blockReward)
    Progress.halted cancelled hp (fun c => readSharesBefore_eq table poolId c pageSize)
    (length_admitted_lt table poolId ⟨block.created, true⟩) [] hbefore hat hlen hopen
  simp only [calculateRewards, hexit, hstate, pagedShares, ← eligible_eq]
  rw [if_neg (by decide)]

/-- The result of a pass that has not halted has no cut-off. -/
theorem result_of_not_halted {p : Progress} (h : p.halted = false) :
    p.result = some ⟨p.shareCutOffDate, p.shares, p.rewards⟩ := by
  simp only [Progress.halted, Bool.or_eq_false_iff] at h
  simp [Progress.result, h.2]

section Update

variable {config : PoolConfig} {db : Database} {factor : Option Rat}

/-- Where the token is not first seen in front of a page that still has to be read, the
scheme raises an exception or does what it does without cancellation. -/
theorem updateBalances_complete
    (h : ∀ j, (∀ i < 2 * j, cancelled (t + i) = false) → cancelled (t + 2 * j) = true →
      (pagedShares Pplns.pageSize db.shares config.id block).length ≤ j * Pplns.pageSize ∨
        j ≠ 0 ∧ ¬WindowOpen config.scale (Pplns.window factor)
          ((pagedShares Pplns.pageSize db.shares config.id block).take (j * Pplns.pageSize))) :
    (updateBalances config db block blockReward cancelled factor t).map Prod.fst = none ∨
      (updateBalances config db block blockReward cancelled factor t).map Prod.fst =
        (updateBalances config db block blockReward never factor t).map Prod.fst := by
  simp only [updateBalances]
  rcases calculateRewards_cases Pplns.pageSize_pos with hnone | hsame |
    ⟨j, hbefore, hat, hopen, hresult⟩
  · left
    rw [settle, hnone]
    rfl
  · rw [hsame]
    rcases settle_cancelled with hsettle | hsettle
    · left
      rw [hsettle]
      rfl
    · right
      rw [hsettle]
  · right
    -- the window is still open, so there is nothing left to be read
    have hread : (pagedShares Pplns.pageSize db.shares config.id block).length ≤
        j * Pplns.pageSize := by
      by_contra hmore
      rcases h j hbefore hat with hle | ⟨hj, hfull⟩
      · exact hmore hle
      · have hpage : 0 < j * Pplns.pageSize := Nat.mul_pos (by omega) Pplns.pageSize_pos
        obtain ⟨hn, hlt, _⟩ := visitAll_of_not_halted hopen
        refine hfull ⟨hn, ?_⟩
        have := hlt (List.ne_nil_of_length_pos (by rw [List.length_take]; omega))
        simpa [Progress.initial] using this
    rw [List.take_of_length_le hread] at hopen hresult
    obtain ⟨_, _, _, hcut⟩ := visitAll_of_not_halted hopen
    rw [result_of_not_halted hopen, hcut] at hresult
    have hnever := (calculateRewards_uncancelled config.scale (Pplns.window factor) blockReward
      Pplns.pageSize_pos db.shares config.id block never_eq t).2
    rw [← pagedShares, result_of_not_halted hopen, hcut] at hnever
    rw [settle_of_no_cutOff hresult rfl, settle_of_no_cutOff hnever rfl]
    rfl

/-- Where it is, the scheme records a part of the credits. -/
theorem updateBalances_cut (hr : 0 < blockReward)
    (hpos : ∀ s ∈ pagedShares Pplns.pageSize db.shares config.id block, 0 < config.scale.score s)
    {j : Nat} (hbefore : ∀ i < 2 * j, cancelled (t + i) = false)
    (hat : cancelled (t + 2 * j) = true)
    (hlen : j * Pplns.pageSize < (pagedShares Pplns.pageSize db.shares config.id block).length)
    (hopen : j = 0 ∨ WindowOpen config.scale (Pplns.window factor)
      ((pagedShares Pplns.pageSize db.shares config.id block).take (j * Pplns.pageSize))) :
    ∃ result, updateBalances config db block blockReward cancelled factor t = some result ∧
      ∀ full, updateBalances config db block blockReward never factor t = some full →
        result.1.balanceChanges ≠ full.1.balanceChanges := by
  have hstart : j * Pplns.pageSize = 0 ∨ WindowOpen config.scale (Pplns.window factor)
      ((pagedShares Pplns.pageSize db.shares config.id block).take (j * Pplns.pageSize)) :=
    hopen.imp_left fun hj => by rw [hj, Nat.zero_mul]
  have hpart := not_halted_take hr hstart
  obtain ⟨_, _, _, hcut⟩ := visitAll_of_not_halted hpart
  have hresult := calculateRewards_cut Pplns.pageSize_pos hbefore hat hlen.le hpart
  rw [result_of_not_halted hpart, hcut] at hresult
  have hbounded := bounded_initial (Pplns.window factor) blockReward
  have hcommit : updateBalances config db block blockReward cancelled factor t = some _ :=
    settle_of_no_cutOff hresult rfl
  refine ⟨_, hcommit, fun (db', t') hfull heq => ?_⟩
  have hnever := (calculateRewards_uncancelled config.scale (Pplns.window factor) blockReward
    Pplns.pageSize_pos db.shares config.id block never_eq t).2
  rw [← pagedShares, Progress.result] at hnever
  split at hnever
  · simp [updateBalances, settle, hnever] at hfull
  · rename_i hthrew
    rw [Bool.not_eq_true] at hthrew
    have hlt := total_take_lt hr hpos hlen hstart hthrew
    rw [settle_balanceChanges hcommit hresult (hbounded.visitAll config.scale _).pos,
      settle_balanceChanges hfull hnever (hbounded.visitAll config.scale _).pos] at heq
    exact hlt.ne (total_eq_of_balanceChanges heq)

end Update

end Pplns

namespace Proportional

variable {scale : ShareScale} {blockReward : Rat} {pageSize : Nat} {table : List Share}
  {poolId : String} {block : Block} {moment t : Nat}

theorem isSome_shareCutOffDate_visitAll {p : Progress} (h : p.shareCutOffDate.isSome)
    (shares : List Share) :
    (visitAll (visit scale) Progress.threw p shares).shareCutOffDate.isSome := by
  induction shares generalizing p with
  | nil => exact h
  | cons s shares ih =>
    unfold visitAll
    split
    · exact h
    · refine ih ?_
      obtain ⟨date, hdate⟩ := Option.isSome_iff_exists.mp h
      by_cases hn : s.networkDifficulty = 0
      · simp [visit, hn, hdate]
      · by_cases hlater : date < s.created <;> simp [visit, hn, hdate, laterCutOff, hlater]

/-- A pass over some shares has a cut-off. -/
theorem exists_shareCutOffDate {shares : List Share} (hne : shares ≠ [])
    (h : (visitAll (visit scale) Progress.threw .initial shares).threw = false) :
    ∃ date, (visitAll (visit scale) Progress.threw .initial shares).shareCutOffDate =
      some date := by
  cases shares with
  | nil => exact absurd rfl hne
  | cons s shares =>
    rw [visitAll, if_neg (by simp [Progress.initial])] at h ⊢
    have hn := networkDifficulty_ne_zero h
    refine Option.isSome_iff_exists.mp (isSome_shareCutOffDate_visitAll ?_ shares)
    simp [visit, hn, laterCutOff, Progress.initial]

/-- A token that is seen in front of the first page ends the calculation there. -/
theorem calculateRewards_cut (hr : 0 < blockReward) (hat : firesAt moment t = true) :
    (calculateRewards scale blockReward pageSize table poolId block (firesAt moment) t).result =
      some ⟨none, [], []⟩ := by
  simp [calculateRewards, pageLoop, hat, Progress.initial, Progress.blockRewardRemaining,
    Progress.rewards, hr]

/-- Without shares there is nothing to distribute. -/
theorem calculateRewards_empty (hp : 0 < pageSize)
    (hnil : pagedShares pageSize table poolId block = []) :
    (calculateRewards scale blockReward pageSize table poolId block never t).result =
      some ⟨none, [], []⟩ := by
  obtain ⟨_, hstate, _, hlast⟩ := pageLoop_uncancelled (visit scale) Progress.threw never hp
    (fun c => readSharesBefore_eq table poolId c pageSize)
    (length_admitted_lt table poolId ⟨block.created, true⟩) never_eq .initial t []
  rw [← eligible_eq, ← pagedShares, hnil] at hstate
  simp only [calculateRewards, hstate, hlast (by rw [hstate]; rfl)]
  simp [visitAll, Progress.initial, Progress.rewards]

/-- A calculation fails, or the token makes no difference, or it is seen in front of the
first page, or it will be seen again by the deletion of shares. -/
theorem calculateRewards_cases (hp : 0 < pageSize) :
    (calculateRewards scale blockReward pageSize table poolId block (firesAt moment) t).result =
        none ∨
      calculateRewards scale blockReward pageSize table poolId block (firesAt moment) t =
        calculateRewards scale blockReward pageSize table poolId block never t ∨
      (firesAt moment t = true ∧ 0 < blockReward) ∨
      ∃ r date, (calculateRewards scale blockReward pageSize table poolId block (firesAt moment)
          t).result = some r ∧ r.shareCutOffDate = some date ∧
        firesAt moment (calculateRewards scale blockReward pageSize table poolId block
          (firesAt moment) t).time = true := by
  rcases pageLoop_cases (visit scale) Progress.threw (firesAt moment) hp
    (fun c => readSharesBefore_eq table poolId c pageSize)
    (length_admitted_lt table poolId ⟨block.created, true⟩) .initial t [] with
    ⟨hexit, _⟩ | ⟨hsame, _⟩ | ⟨j, hexit, htime, _, hat, hle, hopen, hstate⟩
  · left
    simp [calculateRewards, hexit]
  · right; left
    simp only [calculateRewards, hsame]
    rfl
  · rw [← eligible_eq] at hle hopen hstate
    cases hresult : (calculateRewards scale blockReward pageSize table poolId block
        (firesAt moment) t).result with
    | none => exact Or.inl rfl
    | some r =>
      right; right
      cases j with
      | zero =>
        left
        refine ⟨by simpa using hat, ?_⟩
        by_contra hr
        simp only [calculateRewards, hexit, hstate] at hresult
        simp [visitAll, Progress.initial, Progress.blockRewardRemaining, not_lt.mp hr] at hresult
      | succ j =>
        right
        have hpage : 0 < (j + 1) * pageSize := Nat.mul_pos (by omega) hp
        obtain ⟨date, hdate⟩ := exists_shareCutOffDate
          (List.ne_nil_of_length_pos (by rw [List.length_take]; omega)) hopen
        refine ⟨r, date, rfl, ?_, ?_⟩
        · simp only [calculateRewards, hstate] at hresult
          split at hresult
          · cases hresult
          · cases hresult
            exact hdate
        · simp only [calculateRewards, htime, firesAt, decide_eq_true_eq] at hat ⊢
          omega

section Update

variable {config : PoolConfig} {db : Database}

/-- Where the token is not seen in front of the first page, the scheme raises an exception
or does what it does without cancellation. -/
theorem updateBalances_complete
    (h : firesAt moment t = true → 0 < blockReward →
      pagedShares Proportional.pageSize db.shares config.id block = []) :
    (updateBalances config db block blockReward (firesAt moment) t).map Prod.fst = none ∨
      (updateBalances config db block blockReward (firesAt moment) t).map Prod.fst =
        (updateBalances config db block blockReward never t).map Prod.fst := by
  simp only [updateBalances]
  rcases calculateRewards_cases Proportional.pageSize_pos with hnone | hsame | ⟨hat, hr⟩ |
    ⟨r, date, hresult, hcut, hc⟩
  · left
    rw [settle, hnone]
    rfl
  · rw [hsame]
    rcases settle_cancelled with hsettle | hsettle
    · left
      rw [hsettle]
      rfl
    · right
      rw [hsettle]
  · right
    rw [settle_of_no_cutOff (calculateRewards_cut hr hat) rfl,
      settle_of_no_cutOff (calculateRewards_empty Proportional.pageSize_pos (h hat hr)) rfl]
    rfl
  · left
    rw [settle_of_cutOff hresult hcut hc]
    rfl

/-- Where it is, the scheme records no credits. -/
theorem updateBalances_cut (hr : 0 < blockReward)
    (hpos : ∀ s ∈ pagedShares Proportional.pageSize db.shares config.id block,
      0 < config.scale.score s)
    (hat : firesAt moment t = true)
    (hne : pagedShares Proportional.pageSize db.shares config.id block ≠ []) :
    ∃ result, updateBalances config db block blockReward (firesAt moment) t = some result ∧
      ∀ full, updateBalances config db block blockReward never t = some full →
        result.1.balanceChanges ≠ full.1.balanceChanges := by
  have hcommit : updateBalances config db block blockReward (firesAt moment) t = some _ :=
    settle_of_no_cutOff (calculateRewards_cut hr hat) rfl
  refine ⟨_, hcommit, fun (db', t') hfull heq => ?_⟩
  cases hnever : (calculateRewards config.scale blockReward Proportional.pageSize db.shares
      config.id block never t).result with
  | none => simp [updateBalances, settle, hnever] at hfull
  | some r =>
    obtain ⟨_, _, htotal⟩ := calculateRewards_some Proportional.pageSize_pos never_eq t hnever
    have hscore : 0 < config.scale.totalScore
        (pagedShares Proportional.pageSize db.shares config.id block) := by
      cases hrows : pagedShares Proportional.pageSize db.shares config.id block with
      | nil => exact absurd hrows hne
      | cons s rest =>
        have hs := hpos s (hrows ▸ List.mem_cons_self)
        have := config.scale.totalScore_nonneg rest
        simp only [ShareScale.totalScore, List.map_cons, List.sum_cons] at this ⊢
        linarith
    have hrewards : ∀ e ∈ r.rewards, 0 < e.2 := by
      simp only [calculateRewards] at hnever
      split at hnever
      · cases hnever
      · cases hnever
        exact pos_rewards _
    rw [← pagedShares, if_pos ⟨hscore, hr⟩] at htotal
    rw [settle_balanceChanges hcommit (calculateRewards_cut hr hat) (by simp),
      settle_balanceChanges hfull hnever hrewards] at heq
    have := total_eq_of_balanceChanges heq
    rw [htotal, total_nil] at this
    exact hr.ne this

end Update

end Proportional

section Manager

variable (config : PoolConfig) (db : Database) (block : Block) (blockReward : Rat)
  (moment t : Nat)

/-- From observation `t` on the token is not first seen in front of a page that still has
to be read: PPLNS has read all shares or filled the window, PROP has begun to read. -/
def PagesComplete : Prop :=
  match config.payoutScheme with
  | .pplns factor => ∀ j, (∀ i < 2 * j, firesAt moment (t + i) = false) →
      firesAt moment (t + 2 * j) = true →
      (pagedShares Pplns.pageSize db.shares config.id block).length ≤ j * Pplns.pageSize ∨
        j ≠ 0 ∧ ¬Pplns.WindowOpen config.scale (Pplns.window factor)
          ((pagedShares Pplns.pageSize db.shares config.id block).take (j * Pplns.pageSize))
  | .prop => firesAt moment t = true → 0 < blockReward →
      pagedShares Proportional.pageSize db.shares config.id block = []
  | .solo => True

/-- The same for the transaction of a block, unless the token is seen before. -/
def CompletesPaging : Prop :=
  (∀ m, t ≤ m → m < t + effortReads block → firesAt moment m = false) →
    PagesComplete config db block (updateBlockRewardBalances config block db).1 moment
      (t + effortReads block)

/-- The transaction is rolled back, or it commits what it commits without cancellation. -/
def AllOrNothing : Prop :=
  (processBlock config db block (firesAt moment) t).map Prod.fst = none ∨
    (processBlock config db block (firesAt moment) t).map Prod.fst =
      (processBlock config db block never t).map Prod.fst

variable {config db block blockReward moment t}

theorem updateBalances_complete (h : PagesComplete config db block blockReward moment t) :
    (updateBalances config db block blockReward (firesAt moment) t).map Prod.fst = none ∨
      (updateBalances config db block blockReward (firesAt moment) t).map Prod.fst =
        (updateBalances config db block blockReward never t).map Prod.fst := by
  rw [PagesComplete] at h
  rw [updateBalances, updateBalances]
  cases hscheme : config.payoutScheme with
  | pplns factor =>
    rw [hscheme] at h
    exact Pplns.updateBalances_complete h
  | prop =>
    rw [hscheme] at h
    exact Proportional.updateBalances_complete h
  | solo =>
    simp only [Solo.updateBalances, never]
    cases firesAt moment t <;> cases firesAt moment (t + 1) <;>
      by_cases hcount : 0 < countSharesByMiner db.shares config.id block.miner <;> simp [hcount]

/-- The credits of a calculation that is cut short are not those of a complete one. -/
theorem updateBalances_cut (hr : 0 < blockReward)
    (hpos : ∀ s ∈ eligible db.shares config.id block, 0 < config.scale.score s)
    (h : ¬PagesComplete config db block blockReward moment t) :
    ∃ result, updateBalances config db block blockReward (firesAt moment) t = some result ∧
      ∀ full, updateBalances config db block blockReward never t = some full →
        result.1.balanceChanges ≠ full.1.balanceChanges := by
  rw [PagesComplete] at h
  simp only [updateBalances]
  cases hscheme : config.payoutScheme with
  | pplns factor =>
    simp only [hscheme] at h
    push Not at h
    obtain ⟨j, hbefore, hat, hlen, hopen⟩ := h
    exact Pplns.updateBalances_cut hr
      (fun s hs => hpos s (mem_of_mem_items Pplns.pageSize_pos hs)) hbefore hat hlen
      (or_iff_not_imp_left.mpr hopen)
  | prop =>
    simp only [hscheme] at h
    push Not at h
    obtain ⟨hat, _, hne⟩ := h
    exact Proportional.updateBalances_cut hr
      (fun s hs => hpos s (mem_of_mem_items Proportional.pageSize_pos hs)) hat hne
  | solo =>
    rw [hscheme] at h
    exact absurd trivial h

theorem pagesComplete_congr {db' : Database} {block' : Block} (hshares : db'.shares = db.shares)
    (hcreated : block'.created = block.created) :
    PagesComplete config db' block' blockReward moment t ↔
      PagesComplete config db block blockReward moment t := by
  have hpaged (n : Nat) : pagedShares n db'.shares config.id block' =
      pagedShares n db.shares config.id block := by
    simp [pagedShares, eligible, hshares, hcreated]
  simp only [PagesComplete, hpaged]

/-- The case of a confirmed block. -/
theorem distribute_complete
    (h : PagesComplete config db block (updateBlockRewardBalances config block db).1 moment t) :
    (distribute config db block (firesAt moment) t).map Prod.fst = none ∨
      (distribute config db block (firesAt moment) t).map Prod.fst =
        (distribute config db block never t).map Prod.fst := by
  have hshares : (updateBlockRewardBalances config block db).2.shares = db.shares := by
    simp [updateBlockRewardBalances_eq]
  have hcases := updateBalances_complete ((pagesComplete_congr hshares rfl).mpr h)
  simp only [distribute, Option.map_map]
  have hmap (result : Option (Database × Nat)) :
      result.map (Prod.fst ∘ fun e : Database × Nat =>
        ({ e.1 with blocks := updateBlock e.1.blocks block }, e.2)) =
      (result.map Prod.fst).map fun db =>
        ({ db with blocks := updateBlock db.blocks block } : Database) := by
    cases result <;> rfl
  rw [hmap, hmap]
  rcases hcases with hnone | hsame
  · left
    rw [hnone]
    rfl
  · right
    rw [hsame]

/-- Nothing else distributes nothing or everything. -/
theorem pagesComplete_of_distribute
    (h : (distribute config db block (firesAt moment) t).map Prod.fst = none ∨
      (distribute config db block (firesAt moment) t).map Prod.fst =
        (distribute config db block never t).map Prod.fst)
    (hr : 0 < (updateBlockRewardBalances config block db).1)
    (hpos : ∀ s ∈ eligible db.shares config.id block, 0 < config.scale.score s) :
    PagesComplete config db block (updateBlockRewardBalances config block db).1 moment t := by
  have hshares : (updateBlockRewardBalances config block db).2.shares = db.shares := by
    simp [updateBlockRewardBalances_eq]
  by_contra hcut
  obtain ⟨result, hresult, hdiffer⟩ := updateBalances_cut hr (by rwa [hshares])
    (mt (pagesComplete_congr hshares rfl).mp hcut)
  simp only [distribute, hresult] at h
  rcases h with hnone | hsame
  · cases hnone
  · obtain ⟨_, hmap, hdb⟩ := Option.map_eq_some_iff.mp hsame.symm
    obtain ⟨full, hfull, rfl⟩ := Option.map_eq_some_iff.mp hmap
    exact hdiffer full hfull (congrArg Database.balanceChanges hdb).symm

theorem exists_sumScores (rows : List Share) (h : ∀ s ∈ rows, s.networkDifficulty ≠ 0) :
    ∃ sum, sumScores rows = some sum := by
  rw [sumScores, if_neg (fun ⟨s, hs, hn⟩ => h s hs hn)]
  split <;> exact ⟨_, rfl⟩

/-- The efforts can be computed if every share has a score. -/
theorem exists_fillEfforts
    (hpos : ∀ s ∈ eligible db.shares config.id block, 0 < config.scale.score s) :
    ∃ result, fillEfforts config db block never t = some result := by
  have hn : ∀ s ∈ db.shares, s.poolId = config.id → s.created < block.created →
      s.networkDifficulty ≠ 0 := by
    intro s hs hpool hlt hzero
    have hmem : s ∈ eligible db.shares config.id block := by
      simp [eligible, poolShares, List.mem_insertionSort, hs, hpool, hlt.le]
    have := hpos s hmem
    rw [ShareScale.score, hzero, div_zero] at this
    exact this.false
  have hblock : ∃ result, (if block.effort.isNone then
      calculateBlockEffort config db block never t else some (block, t)) = some result := by
    split
    · obtain ⟨sum, hsum⟩ := exists_sumScores (db.shares.filter fun s => s.poolId = config.id ∧
        effortStart config db block < s.created ∧ s.created < block.created) fun s hs => by
          obtain ⟨hs, hkey⟩ := List.mem_filter.mp hs
          simp only [decide_eq_true_eq] at hkey
          exact hn s hs hkey.1 hkey.2.2
      rw [calculateBlockEffort, if_neg (by simp),
        getEffectiveAccumulatedShareDifficultyBetween, hsum]
      exact ⟨_, rfl⟩
    · exact ⟨_, rfl⟩
  obtain ⟨⟨filled, t'⟩, hfilled⟩ := hblock
  have hcreated : filled.created = block.created := by
    split at hfilled
    · obtain ⟨effort, rfl⟩ := calculateBlockEffort_some hfilled
      rfl
    · cases hfilled
      rfl
  rw [fillEfforts, hfilled, Option.bind_some]
  simp only
  split
  · obtain ⟨sum, hsum⟩ := exists_sumScores (db.shares.filter fun s => s.poolId = config.id ∧
      s.miner = filled.miner ∧ effortStart config db filled < s.created ∧
        s.created < filled.created) fun s hs => by
        obtain ⟨hs, hkey⟩ := List.mem_filter.mp hs
        simp only [decide_eq_true_eq, hcreated] at hkey
        exact hn s hs hkey.1 hkey.2.2.2
    rw [calculateMinerEffort, if_neg (by simp), getMinerShareDifficultyBetween, hsum]
    exact ⟨_, rfl⟩
  · exact ⟨_, rfl⟩

/-- A confirmed block is distributed when its efforts are known. -/
theorem processBlock_confirmed {cancelled : Nat → Bool} {block' : Block} {t' : Nat}
    (hfill : fillEfforts config db block cancelled t = some (block', t'))
    (hstatus : block'.status = .confirmed) :
    processBlock config db block cancelled t = distribute config db block' cancelled t' := by
  rw [processBlock, hfill, Option.bind_some]
  simp only [hstatus]

/-- A reward calculation that is cancelled commits nothing or everything if the token is
not first seen in front of a page that still has to be read. Where every share has a score
and there is something to distribute, only if. -/
theorem allOrNothing_iff (hstatus : block.status = .confirmed) :
    (CompletesPaging config db block moment t → AllOrNothing config db block moment t) ∧
      ((∀ s ∈ eligible db.shares config.id block, 0 < config.scale.score s) →
        0 < (updateBlockRewardBalances config block db).1 →
        (AllOrNothing config db block moment t ↔ CompletesPaging config db block moment t)) := by
  have hcomplete : CompletesPaging config db block moment t →
      AllOrNothing config db block moment t := by
    intro h
    by_cases hunseen : ∀ m, t ≤ m → m < t + effortReads block → firesAt moment m = false
    · cases hfill : fillEfforts config db block never t with
      | none =>
        left
        rw [processBlock, fillEfforts_unseen hunseen, hfill]
        rfl
      | some result =>
        obtain ⟨block', t'⟩ := result
        obtain rfl := fillEfforts_time hfill
        obtain ⟨effort, minerEffort, rfl⟩ := fillEfforts_some hfill
        rw [AllOrNothing, processBlock_confirmed hfill hstatus,
          processBlock_confirmed ((fillEfforts_unseen hunseen).trans hfill) hstatus]
        exact distribute_complete ((pagesComplete_congr rfl rfl).mpr (h hunseen))
    · left
      push Not at hunseen
      obtain ⟨m, hm, hlt, hc⟩ := hunseen
      rw [processBlock, fillEfforts_seen hm hlt (by simpa using hc)]
      rfl
  refine ⟨hcomplete, fun hpos hr => ⟨fun hall hunseen => ?_, hcomplete⟩⟩
  obtain ⟨⟨block', t'⟩, hfill⟩ := exists_fillEfforts (t := t) hpos
  obtain rfl := fillEfforts_time hfill
  obtain ⟨effort, minerEffort, rfl⟩ := fillEfforts_some hfill
  rw [AllOrNothing, processBlock_confirmed hfill hstatus,
    processBlock_confirmed ((fillEfforts_unseen hunseen).trans hfill) hstatus] at hall
  have hpages := pagesComplete_of_distribute hall hr hpos
  exact (pagesComplete_congr rfl rfl).mp hpages

end Manager

section Witness

/-- A PPLNS pool without fees. -/
def pplnsPool : PoolConfig := .plain "BTC" [] (.pplns none)

/-- The share of the only miner, and the block it found, now confirmed. -/
def minedBlock : Database × Block :=
  ({ shares := [.unit "pool" "miner" 4]
     blocks := [⟨7, "pool", .pending, "tx", "miner", 0, 0, 5, none, none⟩] },
    ⟨7, "pool", .confirmed, "tx", "miner", 10, 1, 5, none, none⟩)

/-- The token fires while the first page is read, and the block stays pending. -/
theorem allOrNothing_during_read :
    AllOrNothing pplnsPool minedBlock.1 minedBlock.2 3 0 := by
  refine ((allOrNothing_iff rfl).2 (by decide +kernel) (by decide +kernel)).mpr ?_
  intro hunseen j hbefore hat
  have hlen : (pagedShares Pplns.pageSize minedBlock.1.shares pplnsPool.id
      minedBlock.2).length = 1 := by decide +kernel
  left
  have hpage : Pplns.pageSize = 50000 := rfl
  cases j with
  | zero =>
    have : effortReads minedBlock.2 = 2 := rfl
    simp [firesAt, this] at hat
  | succ j =>
    rw [hlen, hpage]
    omega

/-- The token fires between the efforts and the first page: the block is confirmed, and
nobody is credited. -/
theorem not_allOrNothing_before_read :
    minedBlock.2.status = .confirmed ∧
      ¬AllOrNothing pplnsPool minedBlock.1 minedBlock.2 2 0 := by
  have hcut : (processBlock pplnsPool minedBlock.1 minedBlock.2 (firesAt 2) 0).map
      (fun e => (e.1.blocks.map Block.status, e.1.balanceChanges)) =
        some ([.confirmed], []) := by decide +kernel
  have hfull : (processBlock pplnsPool minedBlock.1 minedBlock.2 never 0).map
      (fun e => (e.1.blocks.map Block.status, e.1.balanceChanges)) =
        some ([.confirmed], [⟨"pool", "miner", 5⟩]) := by decide +kernel
  refine ⟨rfl, fun h => ?_⟩
  obtain ⟨cut, hcut, hcutEq⟩ := Option.map_eq_some_iff.mp hcut
  obtain ⟨full, hfull, hfullEq⟩ := Option.map_eq_some_iff.mp hfull
  rw [AllOrNothing, hcut, hfull] at h
  rcases h with hnone | hsame
  · cases hnone
  · rw [Option.map_some, Option.map_some, Option.some.injEq] at hsame
    rw [hsame, hfullEq] at hcutEq
    exact absurd hcutEq (by decide +kernel)

end Witness

end HashStorm.Payments
