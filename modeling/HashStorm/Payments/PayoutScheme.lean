import HashStorm.Payments.PayoutHandler
import HashStorm.Payments.Pplns
import HashStorm.Payments.Proportional

/-!
# The payout schemes

`UpdateBalancesAsync` credits the rewards of a block and deletes the shares that
are not needed any more. A cancellation token is a function from the number of
observations made of it to what is seen; `none` is an exception. A token that
never fires is transparent, and then the credits stay within the block reward.
-/

namespace HashStorm.Payments

open Contracts Paging Dictionary

/-- The token that is never cancelled. -/
def never : Nat → Bool := fun _ => false

@[simp] theorem never_eq (i : Nat) : never i = false := rfl

section Credit

/-- The loop that credits the rewards. -/
def creditRewards (db : Database) (poolId : String) (rewards : List (String × Rat)) : Database :=
  rewards.foldl (fun db e => if 0 < e.2 then db.addAmount poolId e.1 e.2 else db) db

theorem creditRewards_eq (db : Database) (poolId : String) (rewards : List (String × Rat)) :
    creditRewards db poolId rewards =
      db.addAmounts poolId (rewards.filter fun e => 0 < e.2) := by
  induction rewards generalizing db with
  | nil => rfl
  | cons e rewards ih =>
    simp only [creditRewards, List.foldl_cons] at ih ⊢
    rw [ih]
    by_cases he : 0 < e.2
    · simp [he, Database.addAmounts_cons]
    · simp [he]

/-- Positive rewards are all credited. -/
theorem creditRewards_of_pos (db : Database) (poolId : String) {rewards : List (String × Rat)}
    (h : ∀ e ∈ rewards, 0 < e.2) :
    creditRewards db poolId rewards = db.addAmounts poolId rewards := by
  rw [creditRewards_eq, List.filter_eq_self.mpr]
  simpa using h

end Credit

section Discard

variable (table : List Share) (poolId : String) (pageSize : Nat) (cancelled : Nat → Bool)

/-- `LogDiscardedSharesAsync`. Nothing but its observations of the token is visible
outside the log; the result is the number of observations. -/
def logDiscardedShares : Nat → Nat → DateTime → Option Nat
  | 0, _, _ => none
  | fuel + 1, t, before =>
    if cancelled t then none
    else
      let page := readSharesBefore table poolId before false pageSize
      if page.length < pageSize then some (t + 1)
      else page.getLast?.bind fun share => logDiscardedShares fuel (t + 1) share.created

/-- The end of `UpdateBalancesAsync`: count, log and delete the discarded shares. -/
def deleteDiscardedShares (t : Nat) (cutOff : Option DateTime) : Option (List Share × Nat) :=
  match cutOff with
  | none => some (table, t)
  | some date =>
    if cancelled t then none
    else if 0 < countSharesBefore table poolId date then
      (logDiscardedShares table poolId pageSize cancelled (table.length + 1) (t + 1) date).bind
        fun t => if cancelled t then none else some (deleteSharesBefore table poolId date, t + 1)
    else some (table, t + 1)

variable {pageSize}

/-- There are enough pages. -/
theorem logDiscardedShares_never (hp : 0 < pageSize) {fuel : Nat} (t : Nat) (before : DateTime)
    (hfuel : ((poolShares table poolId).filter
      (Cursor.admits Share.created ⟨before, false⟩)).length < fuel) :
    ∃ t', logDiscardedShares table poolId pageSize never fuel t before = some t' := by
  induction fuel generalizing t before with
  | zero => omega
  | succ fuel ih =>
    have hpage := readSharesBefore_eq table poolId ⟨before, false⟩ pageSize
    by_cases hshort : ((poolShares table poolId).filter
        (Cursor.admits Share.created ⟨before, false⟩)).length < pageSize
    · refine ⟨t + 1, ?_⟩
      simp only at hpage
      simp only [logDiscardedShares, never, hpage, List.length_take]
      simp [hshort]
    · obtain ⟨a, ha, hlen, hlt, _⟩ := full_page hp hshort
      obtain ⟨t', ht'⟩ := ih (t + 1) a.created (by omega)
      refine ⟨t', ?_⟩
      simp only at hpage
      simp only [logDiscardedShares, hpage, hlen, ha]
      simpa [never] using ht'

/-- Without cancellation the discarded shares are deleted. -/
theorem deleteDiscardedShares_never (hp : 0 < pageSize) (t : Nat) (cutOff : Option DateTime) :
    (deleteDiscardedShares table poolId pageSize never t cutOff).map Prod.fst =
      some (discardShares table poolId cutOff) := by
  cases cutOff with
  | none => rfl
  | some date =>
    simp only [deleteDiscardedShares, discardShares]
    obtain ⟨t', ht'⟩ := logDiscardedShares_never table poolId hp (t + 1) date
      (length_admitted_lt table poolId ⟨date, false⟩)
    by_cases hcount : 0 < countSharesBefore table poolId date
    · simp [hcount, ht', never]
    · simp [hcount, never]

variable (pageSize)

/-- A cancelled log raises an exception, any other one makes no difference. -/
theorem logDiscardedShares_cancelled (fuel t : Nat) (before : DateTime) :
    logDiscardedShares table poolId pageSize cancelled fuel t before = none ∨
      logDiscardedShares table poolId pageSize cancelled fuel t before =
        logDiscardedShares table poolId pageSize never fuel t before := by
  induction fuel generalizing t before with
  | zero => exact Or.inl rfl
  | succ fuel ih =>
    by_cases hc : cancelled t = true
    · left
      simp [logDiscardedShares, hc]
    · simp only [logDiscardedShares, hc, never]
      by_cases hshort : (readSharesBefore table poolId before false pageSize).length < pageSize
      · simp [hshort]
      · cases (readSharesBefore table poolId before false pageSize).getLast? with
        | none => simp
        | some share => simpa [hshort] using ih (t + 1) share.created

/-- A cancelled deletion raises an exception, any other one makes no difference. -/
theorem deleteDiscardedShares_cancelled (t : Nat) (cutOff : Option DateTime) :
    deleteDiscardedShares table poolId pageSize cancelled t cutOff = none ∨
      deleteDiscardedShares table poolId pageSize cancelled t cutOff =
        deleteDiscardedShares table poolId pageSize never t cutOff := by
  cases cutOff with
  | none => exact Or.inr rfl
  | some date =>
    by_cases hc : cancelled t = true
    · left
      simp [deleteDiscardedShares, hc]
    by_cases hcount : 0 < countSharesBefore table poolId date
    · simp only [deleteDiscardedShares, hc, hcount, never]
      rcases logDiscardedShares_cancelled table poolId pageSize cancelled (table.length + 1)
        (t + 1) date with hlog | hlog
      · left
        simp [hlog]
      · rw [hlog]
        change _ ∨ _ = Option.bind (logDiscardedShares table poolId pageSize never
          (table.length + 1) (t + 1) date) _
        cases logDiscardedShares table poolId pageSize never (table.length + 1) (t + 1) date with
        | none => exact Or.inl rfl
        | some t' => cases cancelled t' <;> simp
    · right
      simp [deleteDiscardedShares, hc, hcount, never]

end Discard

section Schemes

/-- The page size of the PPLNS scheme. -/
def Pplns.pageSize : Nat := 50000

theorem Pplns.pageSize_pos : 0 < Pplns.pageSize := by decide

/-- The page size of the PROP scheme. -/
def Proportional.pageSize : Nat := 100000

theorem Proportional.pageSize_pos : 0 < Proportional.pageSize := by decide

/-- The PPLNS window; the factor is 2 unless configured. -/
def Pplns.window (factor : Option Rat) : Rat := factor.getD 2

variable (config : PoolConfig) (db : Database) (block : Block) (blockReward : Rat)
  (cancelled : Nat → Bool)

/-- What PPLNS and PROP do with a calculation: credit the rewards, delete shares. -/
def settle (pageSize : Nat) (calculation : Calculation) : Option (Database × Nat) :=
  calculation.result.bind fun r =>
    (deleteDiscardedShares db.shares config.id pageSize cancelled calculation.time
      r.shareCutOffDate).map fun (shares, t) =>
        ({ creditRewards db config.id r.rewards with shares := shares }, t)

/-- `PPLNSPaymentScheme.UpdateBalancesAsync`. -/
def Pplns.updateBalances (factor : Option Rat) (t : Nat) : Option (Database × Nat) :=
  settle config db cancelled Pplns.pageSize
    (Pplns.calculateRewards config.scale (Pplns.window factor) blockReward Pplns.pageSize
      db.shares config.id block cancelled t)

/-- `PROPPaymentScheme.UpdateBalancesAsync`. -/
def Proportional.updateBalances (t : Nat) : Option (Database × Nat) :=
  settle config db cancelled Proportional.pageSize
    (Proportional.calculateRewards config.scale blockReward Proportional.pageSize
      db.shares config.id block cancelled t)

/-- `SOLOPaymentScheme.UpdateBalancesAsync`: the miner of the block gets everything,
and all shares of the miner are deleted. -/
def Solo.updateBalances (t : Nat) : Option (Database × Nat) :=
  let db' := creditRewards db config.id [(block.miner, blockReward)]
  if cancelled t then none
  else if 0 < countSharesByMiner db.shares config.id block.miner then
    if cancelled (t + 1) then none
    else some ({ db' with shares := deleteSharesByMiner db.shares config.id block.miner }, t + 2)
  else some (db', t + 1)

/-- `IPayoutScheme.UpdateBalancesAsync` of the configured scheme. -/
def updateBalances (t : Nat) : Option (Database × Nat) :=
  match config.payoutScheme with
  | .pplns factor => Pplns.updateBalances config db block blockReward cancelled factor t
  | .prop => Proportional.updateBalances config db block blockReward cancelled t
  | .solo => Solo.updateBalances config db block blockReward cancelled t

end Schemes

section Bound

variable {config : PoolConfig} {db db' : Database} {block : Block} {blockReward : Rat} {t t' : Nat}

/-- The second database is the first one with amounts added to balances of the pool,
at most `bound` altogether, and with other shares. -/
def Credited (poolId : String) (bound : Rat) (db db' : Database) : Prop :=
  ∃ credits shares, db' = { db.addAmounts poolId credits with shares := shares } ∧
    total credits ≤ bound

/-- Settling credits what the calculation distributes. -/
theorem credited_settle {pageSize : Nat} {cancelled : Nat → Bool} {calculation : Calculation}
    {bound : Rat} (hresult : ∀ r, calculation.result = some r →
      (∀ e ∈ r.rewards, 0 < e.2) ∧ total r.rewards ≤ bound)
    (h : settle config db cancelled pageSize calculation = some (db', t')) :
    Credited config.id bound db db' := by
  rw [settle, Option.bind_eq_some_iff] at h
  obtain ⟨r, hr, h⟩ := h
  rw [Option.map_eq_some_iff] at h
  obtain ⟨⟨shares, time⟩, _, h⟩ := h
  obtain ⟨hpos, hle⟩ := hresult r hr
  cases h
  exact ⟨r.rewards, shares, by rw [creditRewards_of_pos _ _ hpos], hle⟩

/-- Without cancellation a scheme credits no more than the block reward. -/
theorem credited_updateBalances
    (h : updateBalances config db block blockReward never t = some (db', t')) :
    Credited config.id (max blockReward 0) db db' := by
  rw [updateBalances] at h
  cases hscheme : config.payoutScheme with
  | pplns factor =>
    rw [hscheme] at h
    refine credited_settle (fun r hr => ?_) h
    have hbounded := (Pplns.bounded_initial (Pplns.window factor) blockReward).visitAll
      config.scale (items Share.created Pplns.pageSize (eligible db.shares config.id block))
    rw [(Pplns.calculateRewards_uncancelled config.scale (Pplns.window factor) blockReward
      Pplns.pageSize_pos db.shares config.id block never_eq t).2, Pplns.Progress.result] at hr
    split at hr
    · cases hr
    · cases hr
      exact ⟨hbounded.pos, hbounded.total_le⟩
  | prop =>
    rw [hscheme] at h
    refine credited_settle (fun r hr => ?_) h
    obtain ⟨_, _, htotal⟩ := Proportional.calculateRewards_some Proportional.pageSize_pos never_eq
      t hr
    have hpos : ∀ e ∈ r.rewards, 0 < e.2 := by
      simp only [Proportional.calculateRewards] at hr
      split at hr
      · cases hr
      · cases hr
        exact Proportional.pos_rewards _
    refine ⟨hpos, ?_⟩
    rw [htotal]
    split
    · exact le_max_left _ _
    · exact le_max_right _ _
  | solo =>
    rw [hscheme] at h
    simp only [Solo.updateBalances, never, creditRewards_eq] at h
    have hle : total ([(block.miner, blockReward)].filter fun e => 0 < e.2) ≤
        max blockReward 0 := by
      by_cases hr : 0 < blockReward <;> simp [hr]
    by_cases hcount : 0 < countSharesByMiner db.shares config.id block.miner
    · simp only [hcount] at h
      cases h
      exact ⟨_, _, rfl, hle⟩
    · simp only [hcount] at h
      cases h
      exact ⟨_, _, rfl, hle⟩

end Bound

end HashStorm.Payments
