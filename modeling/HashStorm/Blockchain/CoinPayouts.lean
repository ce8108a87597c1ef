import HashStorm.Blockchain.Cryptonote.PayoutHandler
import HashStorm.Blockchain.PayoutLoops

/-!
# The payouts of single coins

`PayoutAsync` of the Ethereum and Beam handlers pays the balances one after the
other, that of Ergo all of them at once and that of Xelis in pages. Kaspa and
Warthog send first and record at the end. Each payout pays for its balances when
no answer is lost, every transaction id is recorded, and nothing is rounded up.
-/

namespace HashStorm

open Payments Dictionary Rounding Bitcoin Payouts

section Units

/-- `decimal.MaxValue`. -/
def decimalMaxValue : Rat := 79228162514264337593543950335

theorem floor_div_le {amount unit : Rat} (hunit : 0 < unit) :
    (⌊amount * unit⌋ : Rat) / unit ≤ amount :=
  (div_le_iff₀ hunit).mpr (Int.floor_le _)

/-- The coins of an amount that is cast to `ulong` in the smallest unit. -/
def ulongCoins (unit amount : Rat) : Option Rat :=
  (Cryptonote.toULong (amount * unit)).map fun n : Nat => (n : Rat) / unit

theorem ulongCoins_le {unit amount c : Rat} (hunit : 0 < unit) (h : c ∈ ulongCoins unit amount) :
    0 ≤ c ∧ c ≤ amount := by
  obtain ⟨n, hn, rfl⟩ := Option.map_eq_some_iff.mp h
  simp only [Cryptonote.toULong, Option.ite_none_right_eq_some, Option.some.injEq] at hn
  obtain ⟨⟨hnonneg, -⟩, rfl⟩ := hn
  refine ⟨div_nonneg (Nat.cast_nonneg _) hunit.le, ?_⟩
  have hfloor : ((amount * unit).floor.toNat : Rat) = ⌊amount * unit⌋ := by
    have := Int.toNat_of_nonneg hnonneg
    exact_mod_cast congrArg (Int.cast : Int → Rat) this
  rw [hfloor]
  exact floor_div_le hunit

end Units

section Ethereum

namespace Ethereum

/-- `Wei`. -/
def wei : Rat := 1000000000000000000

/-- `MinPayoutPeerCount`. -/
def minPayoutPeerCount : Int := 1

/-- `ZeroHashPattern`, which is `^0?x?0+$`. The end may stand in front of a last line feed. -/
def zeroHashPattern (s : String) : Bool :=
  let zeros := fun chars : List Char => !chars.isEmpty && chars.all (· == '0')
  let chars := if s.toList.getLast? = some '\n' then s.toList.dropLast else s.toList
  match chars with
  | '0' :: 'x' :: rest => zeros rest
  | 'x' :: rest => zeros rest
  | rest => zeros rest

/-- What a payout meets: the chain's rule about peers, their number unless it could not be read,
the answers to `SendTx`, and how the records of the payments end. -/
structure Daemon where
  needsPeers : Bool
  peerCount : Option Int
  sendTx : String → Reply
  outcomes : String → List TxOutcome

/-- `EnsureDaemonsSynchedAsync`. -/
def Daemon.ensureDaemonsSynched (daemon : Daemon) : Bool :=
  !daemon.needsPeers || daemon.peerCount.any (minPayoutPeerCount ≤ ·)

/-- The value of a transaction, in coins; `none` when the amount overflows. -/
def coins (amount : Rat) : Option Rat :=
  if |amount * wei| ≤ decimalMaxValue then some (⌊amount * wei⌋ / wei) else none

/-- `PayoutAsync`. -/
def payoutAsync (config : PoolConfig) (db : Database) (daemon : Daemon) (balances : List Balance) :
    Payout :=
  if daemon.ensureDaemonsSynched then
    payEach config coins (fun txHash => !zeroHashPattern txHash) daemon.sendTx daemon.outcomes
      balances db
  else ⟨[], db, false⟩

/-- Every transaction that is sent is recorded. -/
def Daemon.Safe (daemon : Daemon) (balances : List Balance) : Prop :=
  ∀ b ∈ balances, (daemon.sendTx b.address).Recorded (fun txHash => !zeroHashPattern txHash)
    (daemon.outcomes b.address)

instance (daemon : Daemon) (balances : List Balance) : Decidable (daemon.Safe balances) :=
  inferInstanceAs (Decidable (∀ b ∈ balances, _))

theorem pays_payoutAsync {config : PoolConfig} {db : Database} {daemon : Daemon}
    {balances : List Balance} (hnodup : (balances.map Balance.address).Nodup)
    (hbalance : ∀ b ∈ balances, db.balanceOf config.id b.address = b.amount)
    (hsafe : daemon.Safe balances) :
    Pays config db (balances.map Balance.address) (payoutAsync config db daemon balances) := by
  rw [payoutAsync]
  split
  · refine pays_payEach hnodup hbalance (fun amount c hc => ?_) hsafe
    simp only [coins, Option.mem_def, Option.ite_none_right_eq_some, Option.some.injEq] at hc
    obtain ⟨-, rfl⟩ := hc
    exact (floor_div_le (by norm_num [wei])).trans (le_max_left _ _)
  · exact pays_nothing false

end Ethereum

end Ethereum

section Beam

namespace Beam

/-- `SmallestUnit`. -/
def coinUnit : Rat := 100000000

/-- What a payout meets: the number of peers and the balance of the wallet, unless they could not
be read, the answers to `SendTransaction`, and how the records of the payments end. -/
structure Daemon where
  peersCount : Option Int
  walletBalance : Option Rat
  sendTransaction : String → Reply
  outcomes : String → List TxOutcome

/-- `EnsureBalance`. -/
def Daemon.ensureBalance (daemon : Daemon) (requiredAmount : Rat) : Bool :=
  daemon.walletBalance.any fun balance => requiredAmount ≤ balance / coinUnit

/-- `PayoutAsync`. -/
def payoutAsync (config : PoolConfig) (db : Database) (daemon : Daemon) (balances : List Balance) :
    Payout :=
  if daemon.peersCount.any (3 ≤ ·) && daemon.ensureBalance (balances.map Balance.amount).sum then
    payEach config (ulongCoins coinUnit) (fun _ => true) daemon.sendTransaction daemon.outcomes
      balances db
  else ⟨[], db, false⟩

/-- Every transaction that is sent is recorded. -/
def Daemon.Safe (daemon : Daemon) (balances : List Balance) : Prop :=
  ∀ b ∈ balances,
    (daemon.sendTransaction b.address).Recorded (fun _ => true) (daemon.outcomes b.address)

instance (daemon : Daemon) (balances : List Balance) : Decidable (daemon.Safe balances) :=
  inferInstanceAs (Decidable (∀ b ∈ balances, _))

theorem pays_payoutAsync {config : PoolConfig} {db : Database} {daemon : Daemon}
    {balances : List Balance} (hnodup : (balances.map Balance.address).Nodup)
    (hbalance : ∀ b ∈ balances, db.balanceOf config.id b.address = b.amount)
    (hsafe : daemon.Safe balances) :
    Pays config db (balances.map Balance.address) (payoutAsync config db daemon balances) := by
  rw [payoutAsync]
  split
  · refine pays_payEach hnodup hbalance (fun amount c hc => ?_) hsafe
    exact (ulongCoins_le (by norm_num [coinUnit]) hc).2.trans (le_max_left _ _)
  · exact pays_nothing false

end Beam

end Beam

section Kaspa

namespace Kaspa

/-- What a payout meets: whether the wallet is configured, the answers to `SendAsync`, how the
record of the payments ends, and the formatting of amounts. -/
structure Wallet where
  configured : Bool
  send : String → Reply
  outcomes : List TxOutcome
  formatAmount : Rat → String

/-- The positive amount formatted with at most eight decimal places, the middle rounded up. -/
def coins (amount : Rat) : Option Rat :=
  some (⌊amount * 100000000 + 1 / 2⌋ / 100000000)

/-- The transaction id; one is made up when the answer has none. -/
def txIdOf (formatAmount : Rat → String) (address : String) (amountKas : Rat) :
    Reply → Option String
  | .refused | .lost => none
  | .executed txId => some (txId.getD ("send:" ++ address ++ ":" ++ formatAmount amountKas))

/-- `PayoutAsync`; two balances of one address are an exception. -/
def payoutAsync (config : PoolConfig) (db : Database) (wallet : Wallet) (balances : List Balance) :
    Payout :=
  let amounts := positiveAmounts balances
  if ¬(amounts.map Prod.fst).Nodup then ⟨[], db, false⟩
  else if amounts = [] then ⟨[], db, true⟩
  else if ¬wallet.configured then ⟨[], db, false⟩
  else payCollected config db amounts coins (txIdOf wallet.formatAmount) wallet.send wallet.outcomes

/-- No answer of a transfer is lost, the payments are recorded, and no amount is rounded up. -/
def Wallet.Safe (wallet : Wallet) (balances : List Balance) : Prop :=
  ∀ b ∈ balances, 0 < b.amount → (wallet.send b.address).sends = true →
    wallet.send b.address ≠ .lost ∧ faultPolicy retryCount wallet.outcomes = true ∧
      ∀ c ∈ coins b.amount, c ≤ b.amount

instance (wallet : Wallet) (balances : List Balance) : Decidable (wallet.Safe balances) :=
  inferInstanceAs (Decidable (∀ b ∈ balances, _ → _ → _ ∧ _ ∧ ∀ c ∈ some _, _))

theorem pays_payoutAsync {config : PoolConfig} {db : Database} {wallet : Wallet}
    {balances : List Balance} (hnodup : (balances.map Balance.address).Nodup)
    (hbalance : ∀ b ∈ balances, db.balanceOf config.id b.address = b.amount)
    (hsafe : wallet.Safe balances) :
    Pays config db (balances.map Balance.address) (payoutAsync config db wallet balances) := by
  simp only [payoutAsync]
  split
  · exact pays_nothing false
  split
  · exact pays_nothing true
  split
  · exact pays_nothing false
  refine pays_positiveAmounts hnodup hbalance fun b hb hpos hsends => ?_
  obtain ⟨hlost, hpersist, hround⟩ := hsafe b hb hpos hsends
  refine ⟨?_, hpersist, hround⟩
  cases hreply : wallet.send b.address with
  | refused => simp [hreply, Reply.sends] at hsends
  | lost => exact absurd hreply hlost
  | executed txId => simp [txIdOf]

end Kaspa

end Kaspa

section Warthog

namespace Warthog

/-- `SmallestUnit`. -/
def coinUnit : Rat := 100000000

/-- What a payout meets: the fees it is configured with, whether the node answers about every
address, the balance of the wallet unless it could not be read, the ends of the transfers, and how
the record of the payments ends. -/
structure Node where
  keepTransactionFees : Option Bool
  maximumTransactionFees : Rat
  validates : Bool
  walletBalance : Option Rat
  sendTransaction : String → Reply
  outcomes : List TxOutcome

/-- The amount of a transaction. Unless the pool is configured to pay it, the fee is deducted from
an amount that is greater. -/
def Node.coins (node : Node) (amount : Rat) : Option Rat :=
  let fee := node.maximumTransactionFees / coinUnit
  ulongCoins coinUnit
    (if node.keepTransactionFees = some false then amount
    else if fee < amount then amount - fee else amount)

/-- A transfer without a transaction id is an exception. -/
def txIdOf (_address : String) (_amount : Rat) : Reply → Option String
  | .refused | .lost => none
  | .executed txId => if txId.getD "" = "" then none else txId

/-- `PayoutAsync`; two balances of one address are an exception. -/
def payoutAsync (config : PoolConfig) (db : Database) (node : Node) (balances : List Balance) :
    Payout :=
  let amounts := positiveAmounts balances
  if ¬(amounts.map Prod.fst).Nodup then ⟨[], db, false⟩
  else if amounts = [] then ⟨[], db, true⟩
  else if node.validates && node.walletBalance.any fun balance =>
      total amounts ≤ balance / coinUnit then
    payCollected config db amounts node.coins txIdOf node.sendTransaction node.outcomes
  else ⟨[], db, false⟩

/-- The fee is not negative, and every transaction that is sent has an id and is recorded. -/
def Node.Safe (node : Node) (balances : List Balance) : Prop :=
  0 ≤ node.maximumTransactionFees ∧
    ∀ b ∈ balances, 0 < b.amount → (node.sendTransaction b.address).sends = true →
      txIdOf b.address b.amount (node.sendTransaction b.address) ≠ none ∧
        faultPolicy retryCount node.outcomes = true

instance (node : Node) (balances : List Balance) : Decidable (node.Safe balances) :=
  inferInstanceAs (Decidable (_ ∧ ∀ b ∈ balances, _ → _ → _ ∧ _))

theorem pays_payoutAsync {config : PoolConfig} {db : Database} {node : Node}
    {balances : List Balance} (hnodup : (balances.map Balance.address).Nodup)
    (hbalance : ∀ b ∈ balances, db.balanceOf config.id b.address = b.amount)
    (hsafe : node.Safe balances) :
    Pays config db (balances.map Balance.address) (payoutAsync config db node balances) := by
  simp only [payoutAsync]
  split
  · exact pays_nothing false
  split
  · exact pays_nothing true
  split
  · refine pays_positiveAmounts hnodup hbalance fun b hb hpos hsends => ?_
    obtain ⟨htx, hpersist⟩ := hsafe.2 b hb hpos hsends
    refine ⟨htx, hpersist, fun c hc => (ulongCoins_le (by norm_num [coinUnit]) hc).2.trans ?_⟩
    have hfee : 0 ≤ node.maximumTransactionFees / coinUnit :=
      div_nonneg hsafe.1 (by norm_num [coinUnit])
    split
    · exact le_refl _
    split
    · linarith
    · exact le_refl _
  · exact pays_nothing false

end Warthog

end Warthog

section Ergo

namespace Ergo

/-- `SmallestUnit`. -/
def coinUnit : Rat := 1000000000

/-- What a payout meets: whether the wallet is initialised and could be unlocked, its balance
unless it could not be read, the answer to the payment, and how the record ends. -/
structure Wallet where
  ready : Bool
  balance : Option Rat
  generateAndSend : Reply
  outcomes : List TxOutcome

/-- `PayoutAsync`; two balances of one address are an exception, and so is an amount that does not
fit into a `long`. -/
def payoutAsync (config : PoolConfig) (db : Database) (wallet : Wallet) (balances : List Balance) :
    Payout :=
  let amounts := amounts 4 balances
  if ¬(amounts.map Prod.fst).Nodup then ⟨[], db, false⟩
  else if amounts = [] then ⟨[], db, true⟩
  else if (wallet.ready && wallet.balance.any fun balance => total amounts ≤ balance / coinUnit) &&
      amounts.all fun e => e.2 * coinUnit < 2 ^ 63 then
    payTogether config db balances amounts (fun _ => true) wallet.generateAndSend wallet.outcomes
  else ⟨[], db, false⟩

/-- The payment is recorded if it is sent, and no amount is rounded up. -/
def Wallet.Safe (wallet : Wallet) (balances : List Balance) : Prop :=
  wallet.generateAndSend.Recorded (fun _ => true) wallet.outcomes ∧
    ∀ b ∈ balances, 0 < b.amount → roundTo 4 b.amount ≤ b.amount

instance (wallet : Wallet) (balances : List Balance) : Decidable (wallet.Safe balances) :=
  inferInstanceAs (Decidable (_ ∧ ∀ b ∈ balances, _ → _))

theorem pays_payoutAsync {config : PoolConfig} {db : Database} {wallet : Wallet}
    {balances : List Balance} (hnodup : (balances.map Balance.address).Nodup)
    (hbalance : ∀ b ∈ balances, db.balanceOf config.id b.address = b.amount)
    (hsafe : wallet.Safe balances) :
    Pays config db (balances.map Balance.address) (payoutAsync config db wallet balances) := by
  simp only [payoutAsync]
  split
  · exact pays_nothing false
  split
  · exact pays_nothing true
  split
  · refine pays_payTogether hnodup hbalance (fun a => ?_) hsafe.1
    by_cases hmem : ∃ b ∈ balances, b.address = a
    · obtain ⟨b, hb, rfl⟩ := hmem
      rw [Equihash.resets, totalAt_balances hnodup hb]
      by_cases hpos : 0 < b.amount
      · rw [totalAt_amounts_of_pos hnodup hb hpos]
        exact (hsafe.2 b hb hpos).trans (le_max_left _ _)
      · rw [totalAt_amounts_of_not_pos hnodup hb hpos]
        exact le_max_right _ _
    · rw [totalAt_amounts_of_not_mem hmem]
      exact le_max_right _ _
  · exact pays_nothing false

end Ergo

end Ergo

section Xelis

namespace Xelis

/-- `SmallestUnit`. -/
def coinUnit : Rat := 100000000

/-- `MaximumDestinationPerTransfer`. -/
def maximumDestinationPerTransfer : Nat := 255

/-- What a payout meets: the configured number of destinations, whether the miners pay the fees,
whether there are enough peers, the balance of the wallet unless it could not be read, and for each
page the estimated fees, the answer to `BuildTransaction`, and how the record ends. -/
structure Wallet where
  maximumDestinations : Option Nat
  keepTransactionFees : Bool
  enoughPeers : Bool
  balance : Option Rat
  estimateFees : Nat → Option Nat
  buildTransaction : Nat → Reply
  outcomes : Nat → List TxOutcome

/-- The transfers of a page, from each of which a share of the fees is deducted if it is greater;
`none` when one of them does not fit. -/
def pageTransfers (feeShare : Rat) (page : List Balance) : Option (List (String × Rat)) :=
  (page.filter fun x => 0 < x.amount).mapM fun x =>
    (ulongCoins coinUnit (if feeShare < x.amount then x.amount - feeShare else x.amount)).map
      fun c => (x.address, c)

/-- Page `i`, and whether the loop goes on behind it: a page without an estimate or a transaction
is left out, and what does not fit or is not recorded is an exception. -/
def Wallet.payPage (config : PoolConfig) (wallet : Wallet) (i : Nat) (page : List Balance)
    (db : Database) : Payout × Bool :=
  match pageTransfers 0 page,
      if wallet.keepTransactionFees then wallet.estimateFees i else some 0 with
  | none, _ => (⟨[], db, false⟩, false)
  | some _, none => (⟨[], db, false⟩, true)
  | some _, some fees =>
    match pageTransfers (fees / coinUnit / page.length) page with
    | none => (⟨[], db, false⟩, false)
    | some transfers =>
      let payout := payTogether config db page transfers (fun _ => true)
        (wallet.buildTransaction i) (wallet.outcomes i)
      (payout, payout.completed || match wallet.buildTransaction i with
        | .executed txId => txId.getD "" = ""
        | _ => true)

/-- The pages of the balances. -/
def Wallet.pages (wallet : Wallet) (balances : List Balance) : List (List Balance) :=
  Equihash.pages (wallet.maximumDestinations.getD maximumDestinationPerTransfer) balances

/-- `PayoutAsync`; two balances of one address are an exception. -/
def payoutAsync (config : PoolConfig) (db : Database) (wallet : Wallet) (balances : List Balance) :
    Payout :=
  let amounts := positiveAmounts balances
  if ¬wallet.enoughPeers ∨ ¬(amounts.map Prod.fst).Nodup then ⟨[], db, false⟩
  else if amounts = [] then ⟨[], db, true⟩
  else if wallet.balance.any fun balance => total amounts ≤ balance / coinUnit then
    payLoop (wallet.payPage config) 0 (wallet.pages balances) db
  else ⟨[], db, false⟩

/-- Every transaction that is sent has an id and is recorded. -/
def Wallet.Safe (wallet : Wallet) (balances : List Balance) : Prop :=
  ∀ i < (wallet.pages balances).length,
    (wallet.buildTransaction i).Recorded (fun _ => true) (wallet.outcomes i)

instance (wallet : Wallet) (balances : List Balance) : Decidable (wallet.Safe balances) :=
  inferInstanceAs (Decidable (∀ i < _, _))

theorem eq_filterMap_of_mapM {α β : Type*} {f : α → Option β} {xs : List α} {ys : List β}
    (h : xs.mapM f = some ys) : ys = xs.filterMap f := by
  induction xs generalizing ys with
  | nil =>
    cases h
    rfl
  | cons x xs ih =>
    rw [List.mapM_cons, Option.bind_eq_bind, Option.bind_eq_some_iff] at h
    obtain ⟨y, hy, h⟩ := h
    obtain ⟨rest, hrest, heq⟩ := Option.bind_eq_some_iff.mp h
    cases heq
    rw [List.filterMap_cons_some hy, ← ih hrest]

/-- Fees only make the transfers smaller. -/
theorem totalAt_pageTransfers_le {feeShare : Rat} (hfee : 0 ≤ feeShare) {page : List Balance}
    {transfers : List (String × Rat)} (h : pageTransfers feeShare page = some transfers)
    (hnodup : (page.map Balance.address).Nodup) (a : String) :
    totalAt transfers a ≤ max (totalAt (Equihash.resets page) a) 0 := by
  have hcoins : transfers = page.filterMap fun x => (if 0 < x.amount then ulongCoins coinUnit
      (if feeShare < x.amount then x.amount - feeShare else x.amount) else none).map
        fun c => (x.address, c) := by
    rw [eq_filterMap_of_mapM h, List.filterMap_filter]
    refine List.filterMap_congr fun x _ => ?_
    by_cases hpos : 0 < x.amount <;> simp [hpos]
  rw [hcoins]
  refine totalAt_coins_le _ (fun x _ c hc => ?_) hnodup a
  by_cases hpos : 0 < x.amount
  · rw [if_pos hpos] at hc
    refine (ulongCoins_le (by norm_num [coinUnit]) hc).2.trans (le_trans ?_ (le_max_left _ _))
    split
    · linarith
    · exact le_refl _
  · rw [if_neg hpos] at hc
    cases hc

theorem pays_payPage {config : PoolConfig} {db : Database} {wallet : Wallet} {i : Nat}
    {page : List Balance} (hnodup : (page.map Balance.address).Nodup)
    (hbalance : ∀ b ∈ page, db.balanceOf config.id b.address = b.amount)
    (hrecorded : (wallet.buildTransaction i).Recorded (fun _ => true) (wallet.outcomes i)) :
    Pays config db (page.map Balance.address) (wallet.payPage config i page db).1 := by
  rw [Wallet.payPage]
  split
  · exact pays_nothing false
  · exact pays_nothing false
  · rename_i fees _ _
    split
    · exact pays_nothing false
    · rename_i transfers htransfers
      have hshare : (0 : Rat) ≤ fees / coinUnit / page.length :=
        div_nonneg (div_nonneg (Nat.cast_nonneg _) (by norm_num [coinUnit])) (Nat.cast_nonneg _)
      exact pays_payTogether hnodup hbalance
        (totalAt_pageTransfers_le hshare htransfers hnodup) hrecorded

theorem pays_payoutAsync {config : PoolConfig} {db : Database} {wallet : Wallet}
    {balances : List Balance} (hnodup : (balances.map Balance.address).Nodup)
    (hbalance : ∀ b ∈ balances, db.balanceOf config.id b.address = b.amount)
    (hsafe : wallet.Safe balances) :
    Pays config db (balances.map Balance.address) (payoutAsync config db wallet balances) := by
  have hpages : ((wallet.pages balances).flatMap id).Sublist balances := by
    rw [List.flatMap_id, Wallet.pages, Equihash.pages, Equihash.flatten_pages]
    exact List.take_sublist _ _
  simp only [payoutAsync]
  split
  · exact pays_nothing false
  split
  · exact pays_nothing true
  split
  · have hnodup' := (hpages.map Balance.address).nodup hnodup
    refine Pays.subset (pays_payLoop id (fun i page db hpage hi hamount => ?_) hnodup'
      fun b hb => hbalance b (hpages.subset hb)) (hpages.map Balance.address).subset
    refine pays_payPage ?_ hamount (hsafe i (by omega))
    rw [List.flatMap_id] at hnodup'
    exact ((List.sublist_flatten_of_mem hpage).map Balance.address).nodup hnodup'
  · exact pays_nothing false

end Xelis

end Xelis

end HashStorm
