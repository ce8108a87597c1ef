import HashStorm.Lib.Machine
import HashStorm.Lib.Rounding
import HashStorm.Payments.PayoutHandler

/-!
# Bitcoin payouts

`BitcoinPayoutHandler.PayoutAsync` asks the daemon to send the rounded balances,
all of them in one transaction or each in its own, and resets balances
afterwards. The coins are gone with the daemon's answer, and the balances are
reset in a later step that may not happen: an empty transaction id or a failing
database leave them to be paid again.
-/

namespace HashStorm.Bitcoin

open Payments Dictionary Rounding Machine

/-- What the daemon answers to a transfer. An answer without an error means that it was
executed; a missing transaction id is an empty one. -/
inductive Answer where
  | error (code : Int)
  | success (txId : String)
  deriving DecidableEq, Repr

/-- `RPC_WALLET_UNLOCK_NEEDED`. -/
def walletUnlockNeeded : Int := -13

/-- A transfer: the first answer, whether the wallet could be unlocked, and the answer to
the second attempt. -/
structure Exchange where
  first : Answer
  unlocked : Bool
  second : Answer
  deriving DecidableEq, Repr

/-- The transaction id of the transfer, if it was executed. -/
def Exchange.transferred (e : Exchange) : Option String :=
  match e.first with
  | .success txId => some txId
  | .error code =>
    if code = walletUnlockNeeded ∧ e.unlocked then
      match e.second with
      | .success txId => some txId
      | .error _ => none
    else none

/-- What the daemon has sent, the database afterwards, and whether every transfer was
made and recorded. -/
structure Payout where
  sent : List (String × Rat)
  db : Database
  completed : Bool
  deriving DecidableEq, Repr

/-- What the handler reads of its coin. -/
structure Handler where
  hasBrokenSendMany : Bool
  payoutDecimalPlaces : Nat
  deriving DecidableEq, Repr

/-- The balances that are paid, rounded. -/
def amounts (places : Nat) (balances : List Balance) : List (String × Rat) :=
  (balances.filter fun b => 0 < b.amount).map fun b => (b.address, roundTo places b.amount)

variable (config : PoolConfig) (db : Database)

/-- The `sendmany` path: one transfer, and all balances are reset. -/
def sendMany (balances : List Balance) (amounts : List (String × Rat)) (exchange : Exchange)
    (outcomes : List TxOutcome) : Payout :=
  match exchange.transferred with
  | none => ⟨[], db, false⟩
  | some txId =>
    match persistPaymentsAsync config db balances txId outcomes with
    | none => ⟨amounts, db, false⟩
    | some db' => ⟨amounts, db', true⟩

/-- The transfers of the `sendtoaddress` path that are executed. -/
def executed (amounts : List (String × Rat)) (exchange : String → Exchange) :
    List (Balance × String) :=
  amounts.filterMap fun (address, amount) =>
    (exchange address).transferred.map fun txId => (⟨config.id, address, amount⟩, txId)

/-- The `sendtoaddress` path: a transfer for each address; those that come with a
transaction id are recorded. -/
def sendToAddresses (amounts : List (String × Rat)) (exchange : String → Exchange)
    (outcomes : List TxOutcome) : Payout :=
  let executed := executed config amounts exchange
  let successBalances := executed.filter fun e => e.2 ≠ ""
  let sent := executed.map fun e => (e.1.address, e.1.amount)
  let completed := successBalances.length = amounts.length
  if successBalances = [] then ⟨sent, db, completed⟩
  else
    match persistEachPaymentAsync config db successBalances outcomes with
    | none => ⟨sent, db, false⟩
    | some db' => ⟨sent, db', completed⟩

/-- The daemon's answers for one payout. -/
structure Daemon where
  sendMany : Exchange
  sendToAddress : String → Exchange

/-- `PayoutAsync`; two balances of one address are an exception. -/
def payoutAsync (handler : Handler) (balances : List Balance) (daemon : Daemon)
    (outcomes : List TxOutcome) : Payout :=
  let amounts := amounts handler.payoutDecimalPlaces balances
  if ¬(amounts.map Prod.fst).Nodup then ⟨[], db, false⟩
  else if amounts = [] then ⟨[], db, true⟩
  else if handler.hasBrokenSendMany then
    sendToAddresses config db amounts daemon.sendToAddress outcomes
  else sendMany config db balances amounts daemon.sendMany outcomes

/-- `BalanceRepository.GetPoolBalancesOverThresholdAsync`. -/
def getPoolBalancesOverThreshold (settings : String → Option Rat) : List Balance :=
  db.balances.filter fun b =>
    b.poolId = config.id ∧ (settings b.address).getD config.minimumPayment ≤ b.amount

section Amounts

variable {balances : List Balance}

theorem mem_amounts {places : Nat} {e : String × Rat} :
    e ∈ amounts places balances ↔
      ∃ b ∈ balances, 0 < b.amount ∧ e = (b.address, roundTo places b.amount) := by
  simp only [amounts, List.mem_map, List.mem_filter, decide_eq_true_eq]
  constructor
  · rintro ⟨b, ⟨hb, hpos⟩, rfl⟩
    exact ⟨b, hb, hpos, rfl⟩
  · rintro ⟨b, hb, hpos, rfl⟩
    exact ⟨b, ⟨hb, hpos⟩, rfl⟩

theorem nodup_amounts (places : Nat) (hnodup : (balances.map Balance.address).Nodup) :
    ((amounts places balances).map Prod.fst).Nodup := by
  rw [amounts, List.map_map]
  exact (List.filter_sublist.map _).nodup hnodup

/-- An address that is not paid is not among the amounts. -/
theorem totalAt_amounts_of_not_pos {places : Nat} (hnodup : (balances.map Balance.address).Nodup)
    {b : Balance} (hb : b ∈ balances) (hpos : ¬0 < b.amount) :
    totalAt (amounts places balances) b.address = 0 := by
  refine totalAt_of_not_mem fun hmem => ?_
  obtain ⟨e, he, haddress⟩ := List.mem_map.mp hmem
  obtain ⟨c, hc, hcpos, rfl⟩ := mem_amounts.mp he
  rw [List.inj_on_of_nodup_map hnodup hc hb haddress] at hcpos
  exact hpos hcpos

theorem totalAt_amounts_of_pos {places : Nat} (hnodup : (balances.map Balance.address).Nodup)
    {b : Balance} (hb : b ∈ balances) (hpos : 0 < b.amount) :
    totalAt (amounts places balances) b.address = roundTo places b.amount :=
  totalAt_of_mem (nodup_amounts places hnodup) (mem_amounts.mpr ⟨b, hb, hpos, rfl⟩)

/-- An address without a balance is not among the amounts. -/
theorem totalAt_amounts_of_not_mem {places : Nat} {a : String}
    (h : ¬∃ b ∈ balances, b.address = a) : totalAt (amounts places balances) a = 0 := by
  refine totalAt_of_not_mem fun hmem => ?_
  obtain ⟨e, he, rfl⟩ := List.mem_map.mp hmem
  obtain ⟨b, hb, _, rfl⟩ := mem_amounts.mp he
  exact h ⟨b, hb, rfl⟩

/-- The balances have one amount for every address. -/
theorem totalAt_balances (hnodup : (balances.map Balance.address).Nodup) {b : Balance}
    (hb : b ∈ balances) :
    totalAt (balances.map fun b => (b.address, b.amount)) b.address = b.amount := by
  refine totalAt_of_mem (e := (b.address, b.amount)) ?_ (List.mem_map.mpr ⟨b, hb, rfl⟩)
  rwa [List.map_map]

theorem totalAt_balances_of_not_mem {a : String} (h : ¬∃ b ∈ balances, b.address = a) :
    totalAt (balances.map fun b => (b.address, b.amount)) a = 0 := by
  refine totalAt_of_not_mem fun hmem => ?_
  simp only [List.map_map, List.mem_map, Function.comp_apply] at hmem
  exact h hmem

end Amounts

end HashStorm.Bitcoin
