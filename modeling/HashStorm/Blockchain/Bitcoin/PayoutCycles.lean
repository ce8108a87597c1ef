import HashStorm.Blockchain.Bitcoin.PayoutHandler
import Mathlib.Algebra.Order.Group.MinMax

/-!
# Runs of Bitcoin payout cycles

Balances are credited and paid out again and again. A payout is safe if every
transfer that the daemon executes comes with a transaction id, is not rounded up,
and is recorded. Over runs of safe payouts no address gets more than it was
credited with. One transfer without a transaction id is enough to pay a balance
twice.
-/

namespace HashStorm.Bitcoin

open Payments Dictionary Rounding Machine

section Payout

variable {config : PoolConfig} {db : Database} {handler : Handler} {balances : List Balance}
  {daemon : Daemon} {outcomes : List TxOutcome}

/-- The exchange in which an address is paid. -/
def Handler.exchange (handler : Handler) (daemon : Daemon) (address : String) : Exchange :=
  if handler.hasBrokenSendMany then daemon.sendToAddress address else daemon.sendMany

/-- Every transfer that is executed comes with a transaction id, is recorded, and is not
rounded up. -/
def SafePayout (handler : Handler) (balances : List Balance) (daemon : Daemon)
    (outcomes : List TxOutcome) : Prop :=
  ∀ b ∈ balances, 0 < b.amount → ∀ txId ∈ (handler.exchange daemon b.address).transferred,
    txId ≠ "" ∧ faultPolicy retryCount outcomes = true ∧
      roundTo handler.payoutDecimalPlaces b.amount ≤ b.amount

instance : Decidable (SafePayout handler balances daemon outcomes) :=
  inferInstanceAs (Decidable (∀ b ∈ balances, 0 < b.amount →
    ∀ txId ∈ (handler.exchange daemon b.address).transferred, _))

theorem mem_executed {config : PoolConfig} {amounts : List (String × Rat)}
    {exchange : String → Exchange} {e : Balance × String} :
    e ∈ executed config amounts exchange ↔ ∃ a ∈ amounts,
      ∃ txId ∈ (exchange a.1).transferred, e = (⟨config.id, a.1, a.2⟩, txId) := by
  simp only [executed, List.mem_filterMap, Option.map_eq_some_iff, Option.mem_def]
  constructor
  · rintro ⟨a, ha, txId, htx, rfl⟩
    exact ⟨a, ha, txId, htx, rfl⟩
  · rintro ⟨a, ha, txId, htx, rfl⟩
    exact ⟨a, ha, txId, htx, rfl⟩

theorem sublist_executed (config : PoolConfig) (amounts : List (String × Rat))
    (exchange : String → Exchange) :
    ((executed config amounts exchange).map fun e => (e.1.address, e.1.amount)).Sublist
      amounts := by
  induction amounts with
  | nil => simp [executed]
  | cons a amounts ih =>
    simp only [executed, List.filterMap_cons] at ih ⊢
    cases (exchange a.1).transferred with
    | none => exact ih.cons _
    | some txId => exact ih.cons_cons _

/-- What an address gets, and what it has left. -/
def Payout.Covered (config : PoolConfig) (db : Database) (payout : Payout) : Prop :=
  ∀ a, totalAt payout.sent a + max (payout.db.balanceOf config.id a) 0 ≤
    max (db.balanceOf config.id a) 0

theorem covered_nothing (completed : Bool) : Payout.Covered config db ⟨[], db, completed⟩ := by
  intro a
  simp

/-- A safe transfer to all addresses is covered by their balances. -/
theorem covered_sendMany (hbalance : ∀ b ∈ balances, db.balanceOf config.id b.address = b.amount)
    (hnodup : (balances.map Balance.address).Nodup) (hbroken : handler.hasBrokenSendMany = false)
    (hne : amounts handler.payoutDecimalPlaces balances ≠ [])
    (hsafe : SafePayout handler balances daemon outcomes) :
    (sendMany config db balances (amounts handler.payoutDecimalPlaces balances) daemon.sendMany
      outcomes).Covered config db := by
  rw [sendMany]
  cases htx : daemon.sendMany.transferred with
  | none => exact covered_nothing false
  | some txId =>
    have hsafe' : ∀ b ∈ balances, 0 < b.amount → txId ≠ "" ∧
        faultPolicy retryCount outcomes = true ∧
          roundTo handler.payoutDecimalPlaces b.amount ≤ b.amount := fun b hb hpos =>
      hsafe b hb hpos txId (by simp [Handler.exchange, hbroken, htx])
    obtain ⟨e, he⟩ := List.exists_mem_of_ne_nil _ hne
    obtain ⟨b₀, hb₀, hpos₀, _⟩ := mem_amounts.mp he
    obtain ⟨hid, hpersist, _⟩ := hsafe' b₀ hb₀ hpos₀
    simp only [persistPaymentsAsync, if_neg hid, if_pos hpersist]
    intro a
    have hresets : ((balances.map fun b => (b, txId)).map fun e => (e.1.address, e.1.amount)) =
        balances.map fun b => (b.address, b.amount) := List.map_map
    simp only [persistPayments_balanceOf, if_true, hresets]
    by_cases hmem : ∃ b ∈ balances, b.address = a
    · obtain ⟨b, hb, rfl⟩ := hmem
      rw [totalAt_balances hnodup hb, hbalance b hb, sub_self, max_self, add_zero]
      by_cases hpos : 0 < b.amount
      · rw [totalAt_amounts_of_pos hnodup hb hpos]
        exact (hsafe' b hb hpos).2.2.trans (le_max_left _ _)
      · rw [totalAt_amounts_of_not_pos hnodup hb hpos]
        exact le_max_right _ _
    · rw [totalAt_amounts_of_not_mem hmem, totalAt_balances_of_not_mem hmem, sub_zero, zero_add]

/-- Safe transfers to single addresses are covered by their balances. -/
theorem covered_sendToAddresses
    (hbalance : ∀ b ∈ balances, db.balanceOf config.id b.address = b.amount)
    (hnodup : (balances.map Balance.address).Nodup) (hbroken : handler.hasBrokenSendMany = true)
    (hsafe : SafePayout handler balances daemon outcomes) :
    (sendToAddresses config db (amounts handler.payoutDecimalPlaces balances)
      daemon.sendToAddress outcomes).Covered config db := by
  -- every executed transfer is one of a balance, and a safe one
  have hexecuted : ∀ e ∈ executed config (amounts handler.payoutDecimalPlaces balances)
      daemon.sendToAddress, e.2 ≠ "" ∧ faultPolicy retryCount outcomes = true ∧
        e.1.amount ≤ db.balanceOf config.id e.1.address := by
    intro e he
    obtain ⟨a, ha, txId, htx, rfl⟩ := mem_executed.mp he
    obtain ⟨b, hb, hpos, rfl⟩ := mem_amounts.mp ha
    obtain ⟨hid, hpersist, hle⟩ := hsafe b hb hpos txId (by
      simpa [Handler.exchange, hbroken] using htx)
    exact ⟨hid, hpersist, hle.trans (hbalance b hb).ge⟩
  have hall : (executed config (amounts handler.payoutDecimalPlaces balances)
      daemon.sendToAddress).filter (fun e => e.2 ≠ "") =
        executed config (amounts handler.payoutDecimalPlaces balances) daemon.sendToAddress := by
    rw [List.filter_eq_self]
    intro e he
    simpa using (hexecuted e he).1
  rw [sendToAddresses]
  simp only [hall]
  split
  · rename_i hnone
    rw [hnone]
    exact covered_nothing _
  · rename_i hsome
    obtain ⟨e₀, he₀⟩ := List.exists_mem_of_ne_nil _ hsome
    simp only [persistEachPaymentAsync, if_neg hsome, if_pos (hexecuted e₀ he₀).2.1]
    intro a
    simp only [persistPayments_balanceOf, if_true]
    have hkeys := ((sublist_executed config (amounts handler.payoutDecimalPlaces balances)
      daemon.sendToAddress).map Prod.fst).nodup (nodup_amounts _ hnodup)
    by_cases hmem : a ∈ ((executed config (amounts handler.payoutDecimalPlaces balances)
        daemon.sendToAddress).map fun e => (e.1.address, e.1.amount)).map Prod.fst
    · obtain ⟨p, hp, rfl⟩ := List.mem_map.mp hmem
      rw [totalAt_of_mem hkeys hp]
      obtain ⟨e, he, rfl⟩ := List.mem_map.mp hp
      have hle := (hexecuted e he).2.2
      rw [max_eq_left (sub_nonneg.mpr hle), add_sub_cancel]
      exact le_max_left _ _
    · rw [totalAt_of_not_mem hmem, sub_zero, zero_add]

/-- A safe payout is covered by the balances. -/
theorem covered_payoutAsync
    (hbalance : ∀ b ∈ balances, db.balanceOf config.id b.address = b.amount)
    (hnodup : (balances.map Balance.address).Nodup)
    (hsafe : SafePayout handler balances daemon outcomes) :
    (payoutAsync config db handler balances daemon outcomes).Covered config db := by
  simp only [payoutAsync]
  split
  · exact covered_nothing false
  split
  · exact covered_nothing true
  rename_i hne
  split
  · exact covered_sendToAddresses hbalance hnodup ‹_› hsafe
  · exact covered_sendMany hbalance hnodup (by simpa using ‹¬handler.hasBrokenSendMany = true›)
      hne hsafe

/-- A payout resets balances, or leaves the database alone. -/
theorem payoutAsync_db (config : PoolConfig) (db : Database) (handler : Handler)
    (balances : List Balance) (daemon : Daemon) (outcomes : List TxOutcome) :
    ∃ resets, (payoutAsync config db handler balances daemon outcomes).db =
      persistPayments config db resets := by
  simp only [payoutAsync, sendToAddresses, sendMany, persistPaymentsAsync, persistEachPaymentAsync]
  split
  · exact ⟨[], rfl⟩
  split
  · exact ⟨[], rfl⟩
  split
  · split
    · exact ⟨[], rfl⟩
    · cases faultPolicy retryCount outcomes
      · exact ⟨[], rfl⟩
      · exact ⟨_, rfl⟩
  · cases daemon.sendMany.transferred with
    | none => exact ⟨[], rfl⟩
    | some txId =>
      simp only
      by_cases hid : txId = ""
      · rw [if_pos hid]
        exact ⟨[], rfl⟩
      · rw [if_neg hid]
        cases faultPolicy retryCount outcomes
        · exact ⟨[], rfl⟩
        · exact ⟨_, rfl⟩

end Payout

section Cycles

/-- The database, what the daemon has sent, and what was credited, by pool and address. -/
structure State where
  db : Database
  sent : List ((String × String) × Rat)
  credited : List ((String × String) × Rat)

/-- Nothing has happened yet. -/
def State.initial : State := ⟨{}, [], []⟩

/-- An amount is credited, or the balances of a pool are paid out. -/
inductive Op where
  | credit (poolId address : String) (amount : Rat) (nonneg : 0 ≤ amount)
  | payout (config : PoolConfig) (settings : String → Option Rat) (handler : Handler)
      (daemon : Daemon) (outcomes : List TxOutcome)

/-- `PayoutPoolBalancesAsync`. -/
def payoutPoolBalances (db : Database) (config : PoolConfig) (settings : String → Option Rat)
    (handler : Handler) (daemon : Daemon) (outcomes : List TxOutcome) : Payout :=
  let balances := getPoolBalancesOverThreshold config db settings
  if 0 < balances.length then payoutAsync config db handler balances daemon outcomes
  else ⟨[], db, true⟩

/-- One step. -/
def step (s : State) : Op → Option State
  | .credit poolId address amount _ => some
    { s with
      db := s.db.addAmount poolId address amount
      credited := s.credited ++ [((poolId, address), amount)] }
  | .payout config settings handler daemon outcomes =>
    let payout := payoutPoolBalances s.db config settings handler daemon outcomes
    some
      { s with
        db := payout.db
        sent := s.sent ++ payout.sent.map fun e => ((config.id, e.1), e.2) }

/-- The payouts of the step are safe. -/
def Op.Safe (s : State) : Op → Prop
  | .credit .. => True
  | .payout config settings handler daemon outcomes =>
    SafePayout handler (getPoolBalancesOverThreshold config s.db settings) daemon outcomes

instance (s : State) : DecidablePred (Op.Safe s)
  | .credit .. => isTrue trivial
  | .payout config settings handler daemon outcomes =>
    inferInstanceAs (Decidable (SafePayout handler
      (getPoolBalancesOverThreshold config s.db settings) daemon outcomes))

/-- What was sent and what is still owed is covered by what was credited. -/
structure State.Inv (s : State) : Prop where
  keyed : s.db.Keyed
  covered : ∀ p a, totalAt s.sent (p, a) + max (s.db.balanceOf p a) 0 ≤
    totalAt s.credited (p, a)

theorem inv_initial : State.initial.Inv := by
  refine ⟨List.nodup_nil, fun p a => ?_⟩
  simp [State.initial, Database.balanceOf, amountIn]

theorem totalAt_map_pool (poolId : String) (sent : List (String × Rat)) (p a : String) :
    totalAt (sent.map fun e => ((poolId, e.1), e.2)) (p, a) =
      if poolId = p then totalAt sent a else 0 := by
  induction sent with
  | nil => simp
  | cons e sent ih =>
    rw [List.map_cons, totalAt_cons, totalAt_cons, ih]
    by_cases hp : poolId = p <;> by_cases ha : e.1 = a <;> simp [hp, ha]

/-- A credit keeps the invariant. -/
theorem State.Inv.credit {s : State} (h : s.Inv) (poolId address : String) {amount : Rat}
    (hnonneg : 0 ≤ amount) :
    State.Inv { s with
      db := s.db.addAmount poolId address amount
      credited := s.credited ++ [((poolId, address), amount)] } := by
  refine ⟨h.keyed.addAmount poolId address amount, fun p a => ?_⟩
  have hcovered := h.covered p a
  simp only [Database.balanceOf_addAmount, totalAt_append, totalAt_cons, totalAt_nil,
    Prod.mk.injEq]
  split
  · have : max (s.db.balanceOf p a + amount) 0 ≤ max (s.db.balanceOf p a) 0 + amount :=
      max_le (by linarith [le_max_left (s.db.balanceOf p a) 0])
        (by linarith [le_max_right (s.db.balanceOf p a) 0])
    linarith
  · simpa using hcovered

/-- The balances that are paid out are those of the pool's addresses. -/
theorem balanceOf_of_mem_overThreshold {db : Database} (h : db.Keyed) {config : PoolConfig}
    {settings : String → Option Rat} {b : Balance}
    (hb : b ∈ getPoolBalancesOverThreshold config db settings) :
    db.balanceOf config.id b.address = b.amount := by
  obtain ⟨hmem, hkey⟩ := List.mem_filter.mp hb
  simp only [decide_eq_true_eq] at hkey
  rw [← hkey.1]
  exact amountIn_of_mem h hmem

theorem nodup_overThreshold {db : Database} (h : db.Keyed) (config : PoolConfig)
    (settings : String → Option Rat) :
    ((getPoolBalancesOverThreshold config db settings).map Balance.address).Nodup := by
  refine List.Nodup.of_map (fun a => (config.id, a)) ?_
  rw [List.map_map]
  have hsub : ((getPoolBalancesOverThreshold config db settings).map fun b =>
      (b.poolId, b.address)).Nodup := (List.filter_sublist.map _).nodup h
  convert hsub using 1
  apply List.map_congr_left
  intro b hb
  have hkey := (List.mem_filter.mp hb).2
  simp only [decide_eq_true_eq] at hkey
  simp [hkey.1]

/-- A safe payout keeps the invariant. -/
theorem State.Inv.payout {s : State} (h : s.Inv) {config : PoolConfig}
    {settings : String → Option Rat} {handler : Handler} {daemon : Daemon}
    {outcomes : List TxOutcome}
    (hsafe : SafePayout handler (getPoolBalancesOverThreshold config s.db settings) daemon
      outcomes) :
    State.Inv { s with
      db := (payoutPoolBalances s.db config settings handler daemon outcomes).db
      sent := s.sent ++ (payoutPoolBalances s.db config settings handler daemon
        outcomes).sent.map fun e => ((config.id, e.1), e.2) } := by
  have hdb : ∃ resets, (payoutPoolBalances s.db config settings handler daemon outcomes).db =
      persistPayments config s.db resets := by
    rw [payoutPoolBalances]
    split
    · exact payoutAsync_db ..
    · exact ⟨[], rfl⟩
  have hpayout : (payoutPoolBalances s.db config settings handler daemon outcomes).Covered config
      s.db := by
    rw [payoutPoolBalances]
    split
    · exact covered_payoutAsync (fun b hb => balanceOf_of_mem_overThreshold h.keyed hb)
        (nodup_overThreshold h.keyed config settings) hsafe
    · exact covered_nothing true
  obtain ⟨resets, hdb⟩ := hdb
  refine ⟨by rw [hdb]; exact h.keyed.persistPayments resets, fun p a => ?_⟩
  have hcovered := h.covered p a
  rw [totalAt_append, totalAt_map_pool]
  by_cases hp : config.id = p
  · have := hpayout a
    subst hp
    rw [if_pos rfl]
    linarith
  · rw [if_neg hp, hdb, persistPayments_balanceOf, if_neg hp, sub_zero, add_zero]
    exact hcovered

theorem State.Inv.step {s s' : State} {op : Op} (h : s.Inv) (hsafe : op.Safe s)
    (hstep : step s op = some s') : s'.Inv := by
  cases op with
  | credit poolId address amount hnonneg =>
    cases hstep
    exact h.credit poolId address hnonneg
  | payout config settings handler daemon outcomes =>
    cases hstep
    exact h.payout hsafe

/-- Over every run of safe payouts no address is sent more than it was credited with. -/
theorem sent_le_credited {ops : List Op} {s : State} (hrun : run step State.initial ops = some s)
    (hsafe : Meets step (fun s op => op.Safe s) State.initial ops) (poolId address : String) :
    totalAt s.sent (poolId, address) ≤ totalAt s.credited (poolId, address) := by
  have hinv := run_invariant State.Inv (fun _ _ _ h hok hstep => h.step hok hstep) inv_initial
    hsafe hrun
  have hcovered := hinv.covered poolId address
  have := le_max_right (s.db.balanceOf poolId address) 0
  linarith

/-- A pool that pays out from one coin on. -/
def examplePool : PoolConfig := .plain "BTC" [] .solo

/-- A payout by `sendmany` that is answered with the given transaction id. -/
def payoutWith (txId : String) : Op :=
  .payout examplePool (fun _ => none) ⟨false, 4⟩
    ⟨⟨.success txId, false, .error 0⟩, fun _ => ⟨.error 0, false, .error 0⟩⟩ []

/-- A miner is credited with one coin, and gets it. -/
theorem sent_le_credited_once : ∃ s,
    run step State.initial [.credit "pool" "miner" 1 (by decide), payoutWith "tx"] = some s ∧
      totalAt s.sent ("pool", "miner") = 1 ∧
      totalAt s.sent ("pool", "miner") ≤ totalAt s.credited ("pool", "miner") := by
  have hsafe : Meets step (fun s op => op.Safe s) State.initial
      [.credit "pool" "miner" 1 (by decide), payoutWith "tx"] := by decide +kernel
  exact ⟨_, rfl, by decide +kernel, sent_le_credited rfl hsafe "pool" "miner"⟩

/-- The daemon executes the first transfer but returns no transaction id, so the balance is
not reset and the second payout sends it again. -/
theorem sent_twice : ∃ s,
    run step State.initial
      [.credit "pool" "miner" 1 (by decide), payoutWith "", payoutWith "tx"] = some s ∧
      ¬totalAt s.sent ("pool", "miner") ≤ totalAt s.credited ("pool", "miner") := by
  refine ⟨_, rfl, ?_⟩
  decide +kernel

end Cycles

end HashStorm.Bitcoin
