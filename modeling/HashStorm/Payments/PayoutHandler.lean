import HashStorm.Lib.Dictionary
import HashStorm.Payments.Rewards
import Mathlib.Tactic.Ring

/-!
# The payout handlers' share of the ledger

`PayoutHandlerBase` credits the reward recipients of a confirmed block and resets
the balances that were paid out. Both only add amounts to balances; the results
below say which ones.
-/

namespace HashStorm.Payments

open Contracts Dictionary

/-- `RewardRecipient`. -/
structure RewardRecipient where
  address : String
  percentage : Rat
  deriving DecidableEq, Repr

/-- The payout schemes, with the configured factor of the PPLNS window. -/
inductive PayoutScheme where
  | pplns (factor : Option Rat)
  | prop
  | solo
  deriving DecidableEq, Repr

/-- What the payout code reads of a pool: its configuration, and what the handler of
its coin adjusts shares by and keeps back for transaction fees. -/
structure PoolConfig where
  id : String
  symbol : String
  address : String
  rewardRecipients : List RewardRecipient
  payoutScheme : PayoutScheme
  minimumPayment : Rat
  scale : ShareScale
  staticTransactionFeeReserve : Rat
  staticTransactionFeeReserve_nonneg : 0 ≤ staticTransactionFeeReserve := by decide
  deriving Repr

/-- A pool that pays out from one coin on and keeps nothing back. -/
def PoolConfig.plain (symbol : String) (rewardRecipients : List RewardRecipient)
    (payoutScheme : PayoutScheme) : PoolConfig where
  id := "pool"
  symbol := symbol
  address := "wallet"
  rewardRecipients := rewardRecipients
  payoutScheme := payoutScheme
  minimumPayment := 1
  scale := ⟨1, by decide⟩
  staticTransactionFeeReserve := 0

section Recipients

variable (config : PoolConfig) (block : Block)

/-- The recipients that get something. -/
def PoolConfig.payees : List RewardRecipient :=
  config.rewardRecipients.filter fun x => 0 < x.percentage

/-- The loop body of `UpdateBlockRewardBalancesAsync`. -/
def creditRecipient (state : Rat × Database) (recipient : RewardRecipient) : Rat × Database :=
  let amount := block.reward * (recipient.percentage / 100)
  (state.1 - amount,
    -- skip transfers from pool wallet to pool wallet
    if recipient.address ≠ config.address then
      state.2.addAmount config.id recipient.address amount
    else state.2)

/-- `UpdateBlockRewardBalancesAsync`. -/
def updateBlockRewardBalances (db : Database) : Rat × Database :=
  let state := config.payees.foldl (creditRecipient config block) (block.reward, db)
  (state.1 - config.staticTransactionFeeReserve, state.2)

/-- The amounts the recipients are credited with. -/
def recipientCredits (recipients : List RewardRecipient) : List (String × Rat) :=
  (recipients.filter fun x => x.address ≠ config.address).map fun x =>
    (x.address, block.reward * (x.percentage / 100))

/-- The part of the reward that goes to recipients, in percent. -/
def totalPercentage (recipients : List RewardRecipient) : Rat :=
  (recipients.map RewardRecipient.percentage).sum

theorem foldl_creditRecipient (recipients : List RewardRecipient) (state : Rat × Database) :
    recipients.foldl (creditRecipient config block) state =
      (state.1 - block.reward * (totalPercentage recipients / 100),
        state.2.addAmounts config.id (recipientCredits config block recipients)) := by
  induction recipients generalizing state with
  | nil => simp [totalPercentage, recipientCredits]
  | cons x recipients ih =>
    rw [List.foldl_cons, ih, creditRecipient]
    refine Prod.ext ?_ ?_
    · simp only [totalPercentage, List.map_cons, List.sum_cons]
      ring
    · by_cases hx : x.address = config.address
      · simp [recipientCredits, hx]
      · simp [recipientCredits, hx, Database.addAmounts_cons]

/-- What is left of the reward, and what was credited. -/
theorem updateBlockRewardBalances_eq (db : Database) :
    updateBlockRewardBalances config block db =
      (block.reward - block.reward * (totalPercentage config.payees / 100) -
          config.staticTransactionFeeReserve,
        db.addAmounts config.id (recipientCredits config block config.payees)) := by
  rw [updateBlockRewardBalances, foldl_creditRecipient]

variable {block}

/-- The recipients get no more than their percentages. -/
theorem sum_recipientCredits_le (h : 0 ≤ block.reward) {recipients : List RewardRecipient}
    (hpos : ∀ x ∈ recipients, 0 < x.percentage) :
    ((recipientCredits config block recipients).map Prod.snd).sum ≤
      block.reward * (totalPercentage recipients / 100) := by
  induction recipients with
  | nil => simp [totalPercentage, recipientCredits]
  | cons x recipients ih =>
    obtain ⟨hx, hrest⟩ := List.forall_mem_cons.mp hpos
    have hshare : 0 ≤ block.reward * (x.percentage / 100) :=
      mul_nonneg h (div_nonneg hx.le (by norm_num))
    have htotal : block.reward * (totalPercentage (x :: recipients) / 100) =
        block.reward * (x.percentage / 100) +
          block.reward * (totalPercentage recipients / 100) := by
      simp only [totalPercentage, List.map_cons, List.sum_cons]
      ring
    have hrec := ih hrest
    rw [htotal]
    by_cases hown : x.address = config.address
    · have : recipientCredits config block (x :: recipients) =
          recipientCredits config block recipients := by simp [recipientCredits, hown]
      rw [this]
      linarith
    · have : recipientCredits config block (x :: recipients) =
          (x.address, block.reward * (x.percentage / 100)) ::
            recipientCredits config block recipients := by simp [recipientCredits, hown]
      rw [this, List.map_cons, List.sum_cons]
      linarith

end Recipients

section Persist

variable (config : PoolConfig)

/-- The loop body of `PersistPaymentsAsync`: record the payment, reset the balance. -/
def persistPayment (db : Database) (balance : Balance) (transactionConfirmation : String) :
    Database :=
  let db :=
    if transactionConfirmation ≠ "" ∧
        ∀ x ∈ config.rewardRecipients, x.address ≠ balance.address then
      { db with
        payments := db.payments ++ [⟨config.id, config.symbol, balance.address, balance.amount,
          transactionConfirmation⟩] }
    else db
  db.addAmount config.id balance.address (-balance.amount)

/-- The transaction of `PersistPaymentsAsync`. -/
def persistPayments (db : Database) (balances : List (Balance × String)) : Database :=
  balances.foldl (fun db e => persistPayment config db e.1 e.2) db

/-- How an attempt to run a transaction ends: it commits, or it is rolled back by an
exception that the fault policy handles, or by another one. -/
inductive TxOutcome where
  | committed
  | transientFault
  | otherFault
  deriving DecidableEq, Repr

/-- `RetryCount`. -/
def retryCount : Nat := 8

/-- `faultPolicy`: whether one of the attempts commits. Attempts without an outcome do. -/
def faultPolicy : Nat → List TxOutcome → Bool
  | _, [] | _, .committed :: _ => true
  | _, .otherFault :: _ => false
  | 0, .transientFault :: _ => false
  | retries + 1, .transientFault :: outcomes => faultPolicy retries outcomes

/-- `PersistPaymentsAsync` for balances that share a transaction; `none` on an exception,
such as the one for an empty transaction id. -/
def persistPaymentsAsync (db : Database) (balances : List Balance)
    (transactionConfirmation : String) (outcomes : List TxOutcome) : Option Database :=
  if transactionConfirmation = "" then none
  else if faultPolicy retryCount outcomes then
    some (persistPayments config db (balances.map fun b => (b, transactionConfirmation)))
  else none

/-- `PersistPaymentsAsync` for balances with a transaction each. -/
def persistEachPaymentAsync (db : Database) (balances : List (Balance × String))
    (outcomes : List TxOutcome) : Option Database :=
  if balances = [] then none
  else if faultPolicy retryCount outcomes then some (persistPayments config db balances)
  else none

@[simp] theorem persistPayments_nil (db : Database) : persistPayments config db [] = db := rfl

theorem persistPayments_cons (db : Database) (e : Balance × String)
    (balances : List (Balance × String)) :
    persistPayments config db (e :: balances) =
      persistPayments config (persistPayment config db e.1 e.2) balances := rfl

variable {config} {db : Database}

theorem Database.Ledger.persistPayment (h : db.Ledger) (balance : Balance) (tx : String) :
    (persistPayment config db balance tx).Ledger := by
  rw [Payments.persistPayment]
  refine Ledger.addAmount ?_ _ _ _
  split <;> exact ⟨h.amount_eq, h.exists_balance⟩

theorem Database.Ledger.persistPayments (h : db.Ledger) (balances : List (Balance × String)) :
    (persistPayments config db balances).Ledger := by
  induction balances generalizing db with
  | nil => exact h
  | cons e balances ih => exact ih (h.persistPayment e.1 e.2)

theorem persistPayment_blocks (balance : Balance) (tx : String) :
    (persistPayment config db balance tx).blocks = db.blocks := by
  simp only [persistPayment, Database.addAmount]
  split <;> rfl

theorem persistPayments_blocks (balances : List (Balance × String)) :
    (persistPayments config db balances).blocks = db.blocks := by
  induction balances generalizing db with
  | nil => rfl
  | cons e balances ih => rw [persistPayments_cons, ih, persistPayment_blocks]

theorem Database.Keyed.persistPayments (h : db.Keyed) (balances : List (Balance × String)) :
    (persistPayments config db balances).Keyed := by
  induction balances generalizing db with
  | nil => exact h
  | cons e balances ih =>
    refine ih (Keyed.addAmount ?_ _ _ _)
    split <;> exact h

/-- The balances go down by what is reset, in this pool only. -/
theorem persistPayments_balanceOf (balances : List (Balance × String)) (p a : String) :
    (persistPayments config db balances).balanceOf p a =
      db.balanceOf p a - if config.id = p then
        totalAt (balances.map fun e => (e.1.address, e.1.amount)) a else 0 := by
  induction balances generalizing db with
  | nil => simp
  | cons e balances ih =>
    have hstep : (persistPayment config db e.1 e.2).balanceOf p a =
        db.balanceOf p a + if config.id = p ∧ e.1.address = a then -e.1.amount else 0 := by
      rw [persistPayment, Database.balanceOf_addAmount]
      split <;> rfl
    rw [persistPayments_cons, ih, hstep, List.map_cons, totalAt_cons]
    by_cases hp : config.id = p <;> by_cases ha : e.1.address = a <;> simp [hp, ha]
    ring

end Persist

end HashStorm.Payments
