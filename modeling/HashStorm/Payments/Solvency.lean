import HashStorm.Blockchain.CoinPayouts
import HashStorm.Blockchain.Cryptonote.PayoutCycles
import HashStorm.Payments.PaymentCycles
import Mathlib.Algebra.Order.BigOperators.Group.List

/-!
# A pool pays no more than it earned

The payment processor confirms blocks, credits their rewards and pays balances
out, pool after pool and cycle after cycle, through the handler of the coin. What
a pool has sent and what it still owes its miners are covered by the rewards of
its own confirmed blocks: crediting a block adds at most its reward to the
balances, and a payout takes from them what it sends.
-/

namespace HashStorm.Payments.Solvency

open Contracts Dictionary Machine Payouts

section Handlers

/-- The payout handlers, each with what its payout meets. -/
inductive Handler where
  | bitcoin (handler : Bitcoin.Handler) (daemon : Bitcoin.Daemon) (outcomes : List TxOutcome)
  | equihash (answers : Nat → Equihash.PageAnswers) (outcomes : Nat → List TxOutcome)
  | cryptonote (handler : Cryptonote.Handler) (wallet : Cryptonote.Wallet)
  | ethereum (daemon : Ethereum.Daemon)
  | beam (daemon : Beam.Daemon)
  | kaspa (wallet : Kaspa.Wallet)
  | warthog (node : Warthog.Node)
  | ergo (wallet : Ergo.Wallet)
  | xelis (wallet : Xelis.Wallet)

/-- The balances that the transfers of a Cryptonote payout pay, by address. -/
def cryptonoteSent (events : List Cryptonote.Event) : List (String × Rat) :=
  events.flatMap fun
    | .transferred _ paid => paid.map fun b => (b.address, b.amount)
    | .debited _ => []

/-- `IPayoutHandler.PayoutAsync`. -/
def Handler.payoutAsync (config : PoolConfig) (db : Database) (balances : List Balance) :
    Handler → Bitcoin.Payout
  | .bitcoin handler daemon outcomes =>
    Bitcoin.payoutAsync config db handler balances daemon outcomes
  | .equihash answers outcomes => Equihash.payoutZSendMany config db balances answers outcomes
  | .cryptonote handler wallet =>
    let attempt := Cryptonote.payoutAsync config handler db wallet balances
    ⟨cryptonoteSent attempt.events, attempt.db, attempt.result = some true⟩
  | .ethereum daemon => Ethereum.payoutAsync config db daemon balances
  | .beam daemon => Beam.payoutAsync config db daemon balances
  | .kaspa wallet => Kaspa.payoutAsync config db wallet balances
  | .warthog node => Warthog.payoutAsync config db node balances
  | .ergo wallet => Ergo.payoutAsync config db wallet balances
  | .xelis wallet => Xelis.payoutAsync config db wallet balances

/-- The operation of a page has an id and an end, and a transaction of it is recorded. -/
def PageSafe (answers : Equihash.PageAnswers) (outcomes : List TxOutcome) : Prop :=
  ∀ operationId ∈ answers.exchange.transferred, operationId ≠ "" ∧
    match answers.operation with
    | .success txId => txId ≠ "" ∧ faultPolicy retryCount outcomes = true
    | .interrupted => False
    | .cancelled | .failed | .unrecognized => True

instance (answers : Equihash.PageAnswers) (outcomes : List TxOutcome) :
    Decidable (PageSafe answers outcomes) := by
  unfold PageSafe
  have : ∀ operation : Equihash.Operation, Decidable (match operation with
      | .success txId => txId ≠ "" ∧ faultPolicy retryCount outcomes = true
      | .interrupted => False
      | .cancelled | .failed | .unrecognized => True)
    | .success _ => inferInstanceAs (Decidable (_ ∧ _))
    | .interrupted => isFalse id
    | .cancelled | .failed | .unrecognized => isTrue trivial
  infer_instance

/-- The pages of a `z_sendmany` payout are recorded, and no amount is rounded up. -/
def EquihashSafe (answers : Nat → Equihash.PageAnswers) (outcomes : Nat → List TxOutcome)
    (balances : List Balance) : Prop :=
  (∀ b ∈ balances, 0 < b.amount →
    Rounding.roundTo Equihash.decimalPlaces b.amount ≤ b.amount) ∧
  ∀ i < (Equihash.pages Equihash.pageSize balances).length, PageSafe (answers i) (outcomes i)

/-- Every transfer of the payout is recorded, and none is above its balance. -/
def Handler.Safe (config : PoolConfig) (balances : List Balance) : Handler → Prop
  | .bitcoin handler daemon outcomes => Bitcoin.SafePayout handler balances daemon outcomes
  | .equihash answers outcomes => EquihashSafe answers outcomes balances
  | .cryptonote handler wallet =>
    ∀ i < (Cryptonote.paymentIdBalances config handler (handler.valid balances)).length,
      ¬(wallet.paymentId i).Split handler
  | .ethereum daemon => daemon.Safe balances
  | .beam daemon => daemon.Safe balances
  | .kaspa wallet => wallet.Safe balances
  | .warthog node => node.Safe balances
  | .ergo wallet => wallet.Safe balances
  | .xelis wallet => wallet.Safe balances

instance (config : PoolConfig) (balances : List Balance) :
    DecidablePred (Handler.Safe config balances)
  | .bitcoin handler daemon outcomes =>
    inferInstanceAs (Decidable (Bitcoin.SafePayout handler balances daemon outcomes))
  | .equihash answers outcomes =>
    inferInstanceAs (Decidable (_ ∧ ∀ i < _, PageSafe (answers i) (outcomes i)))
  | .cryptonote handler wallet =>
    inferInstanceAs (Decidable (∀ i < _, ¬(wallet.paymentId i).Split handler))
  | .ethereum daemon => inferInstanceAs (Decidable (daemon.Safe balances))
  | .beam daemon => inferInstanceAs (Decidable (daemon.Safe balances))
  | .kaspa wallet => inferInstanceAs (Decidable (wallet.Safe balances))
  | .warthog node => inferInstanceAs (Decidable (node.Safe balances))
  | .ergo wallet => inferInstanceAs (Decidable (wallet.Safe balances))
  | .xelis wallet => inferInstanceAs (Decidable (wallet.Safe balances))

variable {config : PoolConfig} {db : Database} {balances : List Balance}

/-- The `sendmany` path takes the balances as they are. -/
theorem resets_sendMany {amounts : List (String × Rat)} {exchange : Bitcoin.Exchange}
    {outcomes : List TxOutcome} (hnodup : (balances.map Balance.address).Nodup)
    (hbalance : ∀ b ∈ balances, db.balanceOf config.id b.address = b.amount) :
    ∃ paid, (Bitcoin.sendMany config db balances amounts exchange outcomes).db =
        persistPayments config db paid ∧
      (∀ e ∈ paid, e.1.address ∈ balances.map Balance.address) ∧
        ∀ a, totalAt (taken paid) a ≤ max (db.balanceOf config.id a) 0 := by
  have hnothing := (@pays_nothing config db (balances.map Balance.address) true).resets
  rw [Bitcoin.sendMany]
  cases exchange.transferred with
  | none => exact hnothing
  | some txId =>
    cases hpersist : persistPaymentsAsync config db balances txId outcomes with
    | none => simpa only [hpersist] using hnothing
    | some db' =>
      simp only [hpersist]
      simp only [persistPaymentsAsync, Option.ite_none_left_eq_some,
        Option.ite_none_right_eq_some, Option.some.injEq] at hpersist
      obtain ⟨-, -, rfl⟩ := hpersist
      refine ⟨_, rfl, fun e he => ?_, fun a => ?_⟩
      · obtain ⟨b, hb, rfl⟩ := List.mem_map.mp he
        exact List.mem_map_of_mem hb
      · have hresets : taken (balances.map fun b => (b, txId)) = Equihash.resets balances :=
          List.map_map
        rw [hresets]
        rcases totalAt_resets hnodup hbalance a with hnone | hall
        · rw [hnone]
          exact le_max_right _ _
        · rw [hall]
          exact le_max_left _ _

/-- The `sendtoaddress` path takes rounded balances. -/
theorem resets_sendToAddresses {handler : Bitcoin.Handler} {daemon : Bitcoin.Daemon}
    {outcomes : List TxOutcome} (hnodup : (balances.map Balance.address).Nodup)
    (hbalance : ∀ b ∈ balances, db.balanceOf config.id b.address = b.amount)
    (hbroken : handler.hasBrokenSendMany = true)
    (hsafe : Bitcoin.SafePayout handler balances daemon outcomes) :
    ∃ paid, (Bitcoin.sendToAddresses config db
        (Bitcoin.amounts handler.payoutDecimalPlaces balances) daemon.sendToAddress outcomes).db =
          persistPayments config db paid ∧
      (∀ e ∈ paid, e.1.address ∈ balances.map Balance.address) ∧
        ∀ a, totalAt (taken paid) a ≤ max (db.balanceOf config.id a) 0 := by
  have hnothing := (@pays_nothing config db (balances.map Balance.address) true).resets
  have hexecuted : ∀ e ∈ Bitcoin.executed config
      (Bitcoin.amounts handler.payoutDecimalPlaces balances) daemon.sendToAddress,
      e.1.address ∈ balances.map Balance.address ∧
        e.1.amount ≤ db.balanceOf config.id e.1.address := by
    intro e he
    obtain ⟨a, ha, txId, htx, rfl⟩ := Bitcoin.mem_executed.mp he
    obtain ⟨b, hb, hpos, rfl⟩ := Bitcoin.mem_amounts.mp ha
    have hround := (hsafe b hb hpos txId (by
      simpa [Bitcoin.Handler.exchange, hbroken] using htx)).2.2
    exact ⟨List.mem_map.mpr ⟨b, hb, rfl⟩, hround.trans (hbalance b hb).ge⟩
  simp only [Bitcoin.sendToAddresses]
  split
  · exact hnothing
  rename_i hsome
  simp only [persistEachPaymentAsync, if_neg hsome]
  by_cases hpersist : faultPolicy retryCount outcomes = true
  · simp only [if_pos hpersist]
    refine ⟨_, rfl, fun e he => (hexecuted e (List.mem_filter.mp he).1).1, fun a => ?_⟩
    have hsub : (taken ((Bitcoin.executed config
        (Bitcoin.amounts handler.payoutDecimalPlaces balances) daemon.sendToAddress).filter
          fun e => e.2 ≠ "")).Sublist (Bitcoin.amounts handler.payoutDecimalPlaces balances) :=
      (List.filter_sublist.map _).trans (Bitcoin.sublist_executed config _ daemon.sendToAddress)
    have hkeys := (hsub.map Prod.fst).nodup (Bitcoin.nodup_amounts _ hnodup)
    by_cases hmem : a ∈ (taken ((Bitcoin.executed config
        (Bitcoin.amounts handler.payoutDecimalPlaces balances) daemon.sendToAddress).filter
          fun e => e.2 ≠ "")).map Prod.fst
    · obtain ⟨p, hp, rfl⟩ := List.mem_map.mp hmem
      rw [totalAt_of_mem hkeys hp]
      obtain ⟨e, he, rfl⟩ := List.mem_map.mp hp
      exact (hexecuted e (List.mem_filter.mp he).1).2.trans (le_max_left _ _)
    · rw [totalAt_of_not_mem hmem]
      exact le_max_right _ _
  · simp only [if_neg hpersist]
    exact hnothing

theorem pays_bitcoin {handler : Bitcoin.Handler} {daemon : Bitcoin.Daemon}
    {outcomes : List TxOutcome} (hnodup : (balances.map Balance.address).Nodup)
    (hbalance : ∀ b ∈ balances, db.balanceOf config.id b.address = b.amount)
    (hsafe : Bitcoin.SafePayout handler balances daemon outcomes) :
    Pays config db (balances.map Balance.address)
      (Bitcoin.payoutAsync config db handler balances daemon outcomes) := by
  refine ⟨?_, Bitcoin.covered_payoutAsync hbalance hnodup hsafe⟩
  have hnothing : ∃ paid, db = persistPayments config db paid ∧
      (∀ e ∈ paid, e.1.address ∈ balances.map Balance.address) ∧
        ∀ a, totalAt (taken paid) a ≤ max (db.balanceOf config.id a) 0 :=
    (pays_nothing true).resets
  simp only [Bitcoin.payoutAsync]
  split
  · exact hnothing
  split
  · exact hnothing
  rename_i hsome
  split
  · rename_i hbroken
    exact resets_sendToAddresses hnodup hbalance hbroken hsafe
  · exact resets_sendMany hnodup hbalance

/-- A page that is recorded takes its balances. -/
theorem pays_page {page : List Balance} {txId : String}
    (hnodup : (page.map Balance.address).Nodup)
    (hbalance : ∀ b ∈ page, db.balanceOf config.id b.address = b.amount)
    (hround : ∀ b ∈ page, 0 < b.amount →
      Rounding.roundTo Equihash.decimalPlaces b.amount ≤ b.amount) :
    Pays config db (page.map Balance.address) ⟨Bitcoin.amounts Equihash.decimalPlaces page,
      persistPayments config db (page.map fun b => (b, txId)), true⟩ := by
  have hresets : taken (page.map fun b => (b, txId)) = Equihash.resets page := List.map_map
  refine pays_of_resets (fun e he => ?_) (fun a => ?_) (fun a => ?_) true
  · obtain ⟨b, hb, rfl⟩ := List.mem_map.mp he
    exact List.mem_map_of_mem hb
  · rw [hresets]
    exact totalAt_resets hnodup hbalance a
  · rw [hresets]
    by_cases hmem : ∃ b ∈ page, b.address = a
    · obtain ⟨b, hb, rfl⟩ := hmem
      rw [Equihash.resets, Bitcoin.totalAt_balances hnodup hb]
      by_cases hpos : 0 < b.amount
      · rw [Bitcoin.totalAt_amounts_of_pos hnodup hb hpos]
        exact (hround b hb hpos).trans (le_max_left _ _)
      · rw [Bitcoin.totalAt_amounts_of_not_pos hnodup hb hpos]
        exact le_max_right _ _
    · rw [Bitcoin.totalAt_amounts_of_not_mem hmem]
      exact le_max_right _ _

theorem pays_payoutPages {answers : Nat → Equihash.PageAnswers} {outcomes : Nat → List TxOutcome}
    {pages : List (List Balance)} {i : Nat} (hnodup : (pages.flatten.map Balance.address).Nodup)
    (hbalance : ∀ b ∈ pages.flatten, db.balanceOf config.id b.address = b.amount)
    (hround : ∀ b ∈ pages.flatten, 0 < b.amount →
      Rounding.roundTo Equihash.decimalPlaces b.amount ≤ b.amount)
    (hsafe : ∀ j < i + pages.length, i ≤ j → PageSafe (answers j) (outcomes j)) :
    Pays config db (pages.flatten.map Balance.address)
      (Equihash.payoutPages config answers outcomes i pages db) := by
  induction pages generalizing i db with
  | nil => exact pays_nothing true
  | cons page rest ih =>
    rw [List.flatten_cons] at hbalance hround
    rw [List.flatten_cons, List.map_append] at hnodup ⊢
    obtain ⟨hpage, hrest, hdisjoint⟩ := List.nodup_append.mp hnodup
    have hround' := fun b hb => hround b (List.mem_append_right page hb)
    have hsafe' : ∀ j < i + 1 + rest.length, i + 1 ≤ j → PageSafe (answers j) (outcomes j) :=
      fun j hj hi => hsafe j (by rw [List.length_cons]; omega) (by omega)
    have hskip := (ih hrest (fun b hb => hbalance b (List.mem_append_right _ hb)) hround'
      hsafe').subset (List.subset_append_right (page.map Balance.address) _)
    have hgiveUp : Pays config db (page.map Balance.address ++ rest.flatten.map Balance.address)
        { Equihash.payoutPages config answers outcomes (i + 1) rest db with completed := false } :=
      ⟨hskip.resets, hskip.covered⟩
    have hanswer := hsafe i (by simp) (le_refl i)
    simp only [Equihash.payoutPages]
    split
    · exact pays_nothing true
    split
    · exact pays_nothing false
    split
    · exact pays_nothing false
    cases htransferred : (answers i).exchange.transferred with
    | none => exact pays_nothing false
    | some operationId =>
      obtain ⟨hid, hend⟩ := hanswer operationId htransferred
      simp only [if_neg hid]
      cases hoperation : (answers i).operation with
      | success txId =>
        rw [hoperation] at hend
        have hfirst := @pays_page config db page txId hpage
          (fun b hb => hbalance b (List.mem_append_left _ hb))
          fun b hb => hround b (List.mem_append_left _ hb)
        have hlater := ih hrest (fun b hb => by
          rw [hfirst.balanceOf_eq fun hmem => hdisjoint _ hmem _ (List.mem_map_of_mem hb) rfl]
          exact hbalance b (List.mem_append_right _ hb)) hround' hsafe'
        simp only [persistPaymentsAsync, if_neg hend.1, if_pos hend.2]
        exact hfirst.append hlater _
      | interrupted =>
        rw [hoperation] at hend
        exact hend.elim
      | cancelled => exact hgiveUp
      | failed => exact hgiveUp
      | unrecognized => exact hgiveUp

theorem pays_equihash {answers : Nat → Equihash.PageAnswers} {outcomes : Nat → List TxOutcome}
    (hnodup : (balances.map Balance.address).Nodup)
    (hbalance : ∀ b ∈ balances, db.balanceOf config.id b.address = b.amount)
    (hsafe : EquihashSafe answers outcomes balances) :
    Pays config db (balances.map Balance.address)
      (Equihash.payoutZSendMany config db balances answers outcomes) := by
  have hsub : (Equihash.pages Equihash.pageSize balances).flatten.Sublist balances := by
    rw [Equihash.pages, Equihash.flatten_pages]
    exact List.take_sublist _ _
  exact (pays_payoutPages ((hsub.map _).nodup hnodup) (fun b hb => hbalance b (hsub.subset hb))
    (fun b hb => hsafe.1 b (hsub.subset hb))
    fun j hj _ => hsafe.2 j (by omega)).subset (hsub.map _).subset

/-- Balances of nothing do not count. -/
theorem totalAt_resets_of_same {paid : List Balance} (hsame : Cryptonote.SameBalances paid balances)
    (a : String) : totalAt (Equihash.resets paid) a = totalAt (Equihash.resets balances) a := by
  have hfilter : ∀ l : List Balance,
      totalAt (Equihash.resets (l.filter fun b => b.amount ≠ 0)) a =
        totalAt (Equihash.resets l) a := by
    intro l
    induction l with
    | nil => rfl
    | cons b l ih =>
      by_cases hb : b.amount = 0
      · rw [List.filter_cons_of_neg (by simpa using hb), ih, Equihash.resets, Equihash.resets,
          List.map_cons, totalAt_cons, hb]
        simp
      · rw [List.filter_cons_of_pos (by simpa using hb)]
        simp only [Equihash.resets, List.map_cons, totalAt_cons] at ih ⊢
        rw [ih]
  rw [← hfilter paid, hsame, hfilter]

/-- Settled balances are paid for. -/
theorem pays_settles {settled : List Balance} {events : List Cryptonote.Event} {db' : Database}
    (h : Cryptonote.Settles config db settled events db')
    (hnodup : (settled.map Balance.address).Nodup)
    (hbalance : ∀ b ∈ settled, db.balanceOf config.id b.address = b.amount) (completed : Bool) :
    Pays config db (settled.map Balance.address) ⟨cryptonoteSent events, db', completed⟩ := by
  induction h with
  | nothing db => exact pays_nothing completed
  | @payment db db' request paid balances rest txHash events same _ ih =>
    rw [List.map_append] at hnodup ⊢
    obtain ⟨hfirst, hrest, hdisjoint⟩ := List.nodup_append.mp hnodup
    have hresets : taken (balances.map fun b => (b, txHash)) = Equihash.resets balances :=
      List.map_map
    have hpays : Pays config db (balances.map Balance.address) ⟨Equihash.resets paid,
        persistPayments config db (balances.map fun b => (b, txHash)), true⟩ := by
      refine pays_of_resets (fun e he => ?_) (fun a => ?_) (fun a => ?_) true
      · obtain ⟨b, hb, rfl⟩ := List.mem_map.mp he
        exact List.mem_map_of_mem hb
      · rw [hresets]
        exact totalAt_resets hfirst (fun b hb => hbalance b (List.mem_append_left _ hb)) a
      · rw [hresets, totalAt_resets_of_same same]
        exact le_max_left _ _
    exact hpays.append (ih hrest fun b hb => by
      rw [hpays.balanceOf_eq fun hmem => hdisjoint _ hmem _ (List.mem_map_of_mem hb) rfl]
      exact hbalance b (List.mem_append_right _ hb)) completed

theorem pays_cryptonote {handler : Cryptonote.Handler} {wallet : Cryptonote.Wallet}
    (hnodup : (balances.map Balance.address).Nodup)
    (hbalance : ∀ b ∈ balances, db.balanceOf config.id b.address = b.amount)
    (hnonneg : ∀ b ∈ balances, 0 ≤ b.amount)
    (hsafe : Handler.Safe config balances (.cryptonote handler wallet)) (completed : Bool) :
    Pays config db (balances.map Balance.address)
      ⟨cryptonoteSent (Cryptonote.payoutAsync config handler db wallet balances).events,
        (Cryptonote.payoutAsync config handler db wallet balances).db, completed⟩ := by
  obtain ⟨settled, hsettled, hsub, hsettles⟩ :=
    @Cryptonote.settles_payoutAsync config handler db wallet balances hnodup hnonneg hsafe
  exact (pays_settles hsettles hsettled (fun b hb => hbalance b (hsub hb)) completed).subset
    (List.map_subset _ hsub)

/-- A safe payout pays for its balances. -/
theorem Handler.pays (handler : Handler) (hnodup : (balances.map Balance.address).Nodup)
    (hbalance : ∀ b ∈ balances, db.balanceOf config.id b.address = b.amount)
    (hnonneg : ∀ b ∈ balances, 0 ≤ b.amount) (hsafe : handler.Safe config balances) :
    Pays config db (balances.map Balance.address) (handler.payoutAsync config db balances) := by
  cases handler with
  | bitcoin => exact pays_bitcoin hnodup hbalance hsafe
  | equihash => exact pays_equihash hnodup hbalance hsafe
  | cryptonote => exact pays_cryptonote hnodup hbalance hnonneg hsafe _
  | ethereum => exact Ethereum.pays_payoutAsync hnodup hbalance hsafe
  | beam => exact Beam.pays_payoutAsync hnodup hbalance hsafe
  | kaspa => exact Kaspa.pays_payoutAsync hnodup hbalance hsafe
  | warthog => exact Warthog.pays_payoutAsync hnodup hbalance hsafe
  | ergo => exact Ergo.pays_payoutAsync hnodup hbalance hsafe
  | xelis => exact Xelis.pays_payoutAsync hnodup hbalance hsafe

end Handlers

section Credits

/-- The second database has recorded changes more than the first one, none of them negative. -/
def AddsCredits (db db' : Database) : Prop :=
  ∃ credits, db'.balanceChanges = db.balanceChanges ++ credits ∧ ∀ c ∈ credits, 0 ≤ c.amount

variable {config : PoolConfig} {db db' db'' : Database} {block : Block}

theorem AddsCredits.trans (h : AddsCredits db db') (h' : AddsCredits db' db'') :
    AddsCredits db db'' := by
  obtain ⟨credits, heq, hcredits⟩ := h
  obtain ⟨more, heq', hmore⟩ := h'
  exact ⟨credits ++ more, by rw [heq', heq, List.append_assoc],
    List.forall_mem_append.mpr ⟨hcredits, hmore⟩⟩

theorem addsCredits_addAmounts {amounts : List (String × Rat)} (h : ∀ e ∈ amounts, 0 ≤ e.2) :
    AddsCredits db (db.addAmounts config.id amounts) := by
  refine ⟨_, db.addAmounts_balanceChanges config.id amounts, fun c hc => ?_⟩
  obtain ⟨e, he, rfl⟩ := List.mem_map.mp hc
  exact h e he

/-- Only positive rewards are credited. -/
theorem addsCredits_creditRewards (rewards : List (String × Rat)) :
    AddsCredits db (creditRewards db config.id rewards) := by
  rw [creditRewards_eq]
  refine addsCredits_addAmounts fun e he => ?_
  have hpos := (List.mem_filter.mp he).2
  simp only [decide_eq_true_eq] at hpos
  exact hpos.le

theorem addsCredits_updateBlockRewardBalances (hreward : 0 ≤ block.reward) :
    AddsCredits db (updateBlockRewardBalances config block db).2 := by
  rw [updateBlockRewardBalances_eq]
  refine addsCredits_addAmounts fun e he => ?_
  obtain ⟨x, hx, rfl⟩ := List.mem_map.mp he
  have hpos := (List.mem_filter.mp (List.mem_filter.mp hx).1).2
  simp only [decide_eq_true_eq] at hpos
  exact mul_nonneg hreward (div_nonneg hpos.le (by norm_num))

theorem addsCredits_settle {cancelled : Nat → Bool} {pageSize t' : Nat} {calculation : Calculation}
    (h : settle config db cancelled pageSize calculation = some (db', t')) :
    AddsCredits db db' := by
  rw [settle, Option.bind_eq_some_iff] at h
  obtain ⟨r, -, h⟩ := h
  obtain ⟨⟨shares, t⟩, -, heq⟩ := Option.map_eq_some_iff.mp h
  cases heq
  exact @addsCredits_creditRewards config db r.rewards

theorem addsCredits_updateBalances {blockReward : Rat} {t t' : Nat}
    (h : updateBalances config db block blockReward never t = some (db', t')) :
    AddsCredits db db' := by
  rw [updateBalances] at h
  split at h
  · exact addsCredits_settle h
  · exact addsCredits_settle h
  · have hcredits := @addsCredits_creditRewards config db [(block.miner, blockReward)]
    simp only [Solo.updateBalances, never, Bool.false_eq_true, if_false] at h
    split at h
    · cases h
      exact hcredits
    · cases h
      exact hcredits

/-- Processing a block credits no negative amount. -/
theorem addsCredits_processBlock (hreward : 0 ≤ block.reward) {t' : Nat}
    (h : processBlock config db block never 0 = some (db', t')) : AddsCredits db db' := by
  rw [processBlock, Option.bind_eq_some_iff] at h
  obtain ⟨⟨filled, t⟩, hfill, h⟩ := h
  obtain ⟨effort, minerEffort, rfl⟩ := fillEfforts_some hfill
  simp only at h
  split at h
  · rw [distribute] at h
    obtain ⟨⟨db₁, t₁⟩, hupdate, heq⟩ := Option.map_eq_some_iff.mp h
    cases heq
    have hfees := @addsCredits_updateBlockRewardBalances config db
      { block with effort := effort, minerEffort := minerEffort } hreward
    obtain ⟨credits, heq, hcredits⟩ := hfees.trans (addsCredits_updateBalances hupdate)
    exact ⟨credits, heq, hcredits⟩
  all_goals
    cases h
    exact ⟨[], by simp, by simp⟩

/-- A committed transaction adds credits that are not negative, within the reward of a confirmed
block, and writes the row of the block. -/
theorem exists_credits (hreward : 0 ≤ block.reward) (hfees : totalPercentage config.payees ≤ 100)
    {t' : Nat} (h : processBlock config db block never 0 = some (db', t')) :
    ∃ credits shares effort minerEffort,
      db' = { db.addAmounts config.id credits with
        shares := shares
        blocks := updateBlock db.blocks
          { block with effort := effort, minerEffort := minerEffort } } ∧
      (∀ e ∈ credits, 0 ≤ e.2) ∧
      total credits ≤ if block.status = .confirmed then block.reward else 0 := by
  by_cases hstatus : block.status = .confirmed
  · obtain ⟨credits, shares, effort, minerEffort, rfl, hle⟩ := processBlock_some h
    obtain ⟨changes, heq, hnonneg⟩ := addsCredits_processBlock hreward h
    refine ⟨credits, shares, effort, minerEffort, rfl, fun e he => ?_, ?_⟩
    · simp only [Database.addAmounts_balanceChanges, List.append_cancel_left_eq] at heq
      have hmem : (⟨config.id, e.1, e.2⟩ : BalanceChange) ∈ changes :=
        heq ▸ List.mem_map.mpr ⟨e, he, rfl⟩
      exact hnonneg _ hmem
    · rw [if_pos hstatus]
      exact hle hreward hfees
  · rw [processBlock, Option.bind_eq_some_iff] at h
    obtain ⟨⟨filled, t⟩, hfill, h⟩ := h
    obtain ⟨effort, minerEffort, rfl⟩ := fillEfforts_some hfill
    refine ⟨[], db.shares, effort, minerEffort, ?_, by simp, by simp [hstatus]⟩
    simp only at h
    split at h
    · rename_i hconfirmed
      exact absurd hconfirmed hstatus
    all_goals
      cases h
      rfl

end Credits

section Accounts

/-- What a pool owes the addresses that have something. -/
def owed (db : Database) (poolId : String) : Rat :=
  ((db.balances.filter fun b => b.poolId = poolId).map fun b => max b.amount 0).sum

/-- The rewards of the confirmed blocks of a pool. -/
def earned (blocks : List Block) (poolId : String) : Rat :=
  ((blocks.filter fun b => b.poolId = poolId ∧ b.status = .confirmed).map Block.reward).sum

/-- What a pool has sent. -/
def sentBy (sent : List ((String × String) × Rat)) (poolId : String) : Rat :=
  ((sent.filter fun e => e.1.1 = poolId).map Prod.snd).sum

variable {db db' : Database} {poolId : String}

/-- What the rows of a pool have, by address. -/
def positives (db : Database) (poolId : String) : List (String × Rat) :=
  (db.balances.filter fun b => b.poolId = poolId).map fun b => (b.address, max b.amount 0)

theorem total_positives (db : Database) (poolId : String) :
    total (positives db poolId) = owed db poolId := by
  rw [total, positives, List.map_map]
  rfl

theorem totalAt_positives (h : db.Keyed) (poolId a : String) :
    totalAt (positives db poolId) a = max (db.balanceOf poolId a) 0 := by
  rw [positives, Database.balanceOf]
  rw [Database.Keyed] at h
  generalize db.balances = balances at h
  induction balances with
  | nil => simp [amountIn]
  | cons b balances ih =>
    rw [List.map_cons, List.nodup_cons] at h
    have hrest := ih h.2
    rw [amountIn_cons]
    by_cases hpool : b.poolId = poolId
    · rw [List.filter_cons_of_pos (by simpa using hpool), List.map_cons, totalAt_cons, hrest]
      by_cases haddress : b.address = a
      · have hnone : amountIn balances poolId a = 0 := by
          refine amountIn_of_not_mem ?_
          rintro ⟨b', hb', hpool', haddress'⟩
          refine h.1 (List.mem_map.mpr ⟨b', hb', ?_⟩)
          rw [hpool', haddress', hpool, haddress]
        rw [if_pos haddress, if_pos ⟨hpool, haddress⟩, hnone, max_self, add_zero]
      · rw [if_neg haddress, if_neg fun hkey => haddress hkey.2, zero_add]
    · rw [List.filter_cons_of_neg (by simpa using hpool), hrest, if_neg fun hkey => hpool hkey.1]

/-- What holds for every address holds for the pool. -/
theorem add_owed_le (h : db.Keyed) (h' : db'.Keyed) (poolId : String)
    (sent credits : List (String × Rat))
    (hle : ∀ a, totalAt sent a + max (db'.balanceOf poolId a) 0 ≤
      totalAt credits a + max (db.balanceOf poolId a) 0) :
    total sent + owed db' poolId ≤ total credits + owed db poolId := by
  obtain ⟨keys, hnodup, hkeys⟩ : ∃ keys : List String, keys.Nodup ∧
      ∀ e ∈ sent ++ credits ++ positives db poolId ++ positives db' poolId, e.1 ∈ keys :=
    ⟨_, List.nodup_dedup _, fun e he => List.mem_dedup.mpr (List.mem_map_of_mem he)⟩
  simp only [List.mem_append] at hkeys
  have hsum := List.sum_le_sum (l := keys) (f := fun a => totalAt sent a +
    totalAt (positives db' poolId) a) (g := fun a => totalAt credits a +
      totalAt (positives db poolId) a) fun a _ => by
        rw [totalAt_positives h', totalAt_positives h]
        exact hle a
  rw [List.sum_map_add, List.sum_map_add, sum_totalAt hnodup fun e he => hkeys e (by simp [he]),
    sum_totalAt hnodup fun e he => hkeys e (by simp [he]),
    sum_totalAt hnodup fun e he => hkeys e (by simp [he]),
    sum_totalAt hnodup fun e he => hkeys e (by simp [he]), total_positives, total_positives] at hsum
  exact hsum

theorem balanceOf_addAmounts (db : Database) (poolId : String) (amounts : List (String × Rat))
    (p a : String) : (db.addAmounts poolId amounts).balanceOf p a =
      db.balanceOf p a + if poolId = p then totalAt amounts a else 0 := by
  induction amounts generalizing db with
  | nil => simp
  | cons e amounts ih =>
    rw [Database.addAmounts_cons, ih, Database.balanceOf_addAmount, totalAt_cons]
    by_cases hp : poolId = p <;> by_cases ha : e.1 = a <;> simp [hp, ha, add_assoc]

theorem keyed_addAmounts (h : db.Keyed) (amounts : List (String × Rat)) :
    (db.addAmounts poolId amounts).Keyed := by
  induction amounts generalizing db with
  | nil => exact h
  | cons e amounts ih => exact ih (h.addAmount poolId e.1 e.2)

theorem totalAt_nonneg {amounts : List (String × Rat)} (h : ∀ e ∈ amounts, 0 ≤ e.2) (a : String) :
    0 ≤ totalAt amounts a := by
  refine List.sum_nonneg fun x hx => ?_
  obtain ⟨e, he, rfl⟩ := List.mem_map.mp hx
  exact h e (List.mem_filter.mp he).1

/-- Credits raise what their pool owes by at most their sum, and nothing else. -/
theorem owed_addAmounts_le (poolId : String) (h : db.Keyed) {amounts : List (String × Rat)}
    (hnonneg : ∀ e ∈ amounts, 0 ≤ e.2) (p : String) :
    owed (db.addAmounts poolId amounts) p ≤
      owed db p + if poolId = p then total amounts else 0 := by
  have hle : ∀ credits : List (String × Rat), (∀ a, 0 ≤ totalAt credits a) →
      (∀ a, (db.addAmounts poolId amounts).balanceOf p a = db.balanceOf p a + totalAt credits a) →
        owed (db.addAmounts poolId amounts) p ≤ owed db p + total credits := by
    intro credits hcredits hbalance
    have hkeyed : (db.addAmounts poolId amounts).Keyed := keyed_addAmounts h amounts
    have := add_owed_le h hkeyed p [] credits fun a => by
        rw [hbalance a, totalAt_nil, zero_add]
        rcases max_cases (db.balanceOf p a + totalAt credits a) 0 with hmax | hmax <;>
          linarith [hcredits a, le_max_left (db.balanceOf p a) 0, le_max_right (db.balanceOf p a) 0]
    rw [total_nil, zero_add] at this
    linarith
  split
  · rename_i hp
    refine hle amounts (totalAt_nonneg hnonneg) fun a => ?_
    rw [balanceOf_addAmounts, if_pos hp]
  · rename_i hp
    simpa using hle [] (by simp) fun a => by
      rw [balanceOf_addAmounts, if_neg hp, totalAt_nil]

/-- Writing the row of a pending block adds its reward if it is confirmed. -/
theorem earned_updateBlock {blocks : List Block} (hnodup : (blocks.map Block.id).Nodup)
    (block : Block) {row : Block} (hrow : row ∈ blocks) (hid : row.id = block.id)
    (hpending : row.status = .pending) (p : String) :
    earned (updateBlock blocks block) p = earned blocks p +
      if row.poolId = p ∧ block.status = .confirmed then block.reward else 0 := by
  induction blocks with
  | nil => cases hrow
  | cons b blocks ih =>
    rw [List.map_cons, List.nodup_cons] at hnodup
    rcases List.mem_cons.mp hrow with rfl | hrow
    · have hrest : updateBlock blocks block = blocks := by
        rw [updateBlock]
        conv_rhs => rw [← List.map_id blocks]
        refine List.map_congr_left fun b hb => if_neg fun heq => hnodup.1 ?_
        rw [hid, ← heq]
        exact List.mem_map_of_mem hb
      have hwritten : updateBlock (row :: blocks) block =
          { row with
            status := block.status
            reward := block.reward
            effort := block.effort
            minerEffort := block.minerEffort
            confirmationProgress := block.confirmationProgress } :: blocks := by
        rw [updateBlock, List.map_cons, if_pos hid]
        exact congrArg (List.cons _) hrest
      have hold : earned (row :: blocks) p = earned blocks p := by
        rw [earned, List.filter_cons_of_neg (by simp [hpending]), earned]
      rw [hwritten, hold]
      by_cases hb : row.poolId = p ∧ block.status = .confirmed
      · rw [earned, List.filter_cons_of_pos (by simpa using hb), List.map_cons, List.sum_cons,
          if_pos hb, add_comm, earned]
      · rw [earned, List.filter_cons_of_neg (by simpa using hb), if_neg hb, add_zero, earned]
    · have hne : b.id ≠ block.id := fun heq => hnodup.1 (by
        rw [heq, ← hid]
        exact List.mem_map_of_mem hrow)
      have hrest := ih hnodup.2 hrow
      simp only [earned, updateBlock, List.map_cons, if_neg hne] at hrest ⊢
      by_cases hb : b.poolId = p ∧ b.status = .confirmed
      · rw [List.filter_cons_of_pos (by simpa using hb),
          List.filter_cons_of_pos (by simpa using hb), List.map_cons, List.map_cons, List.sum_cons,
          List.sum_cons, hrest, add_assoc]
      · rw [List.filter_cons_of_neg (by simpa using hb),
          List.filter_cons_of_neg (by simpa using hb), hrest]

end Accounts

section Runs

/-- The payment cycles, and what was sent, by pool and address. -/
structure State where
  cycles : Cycles.State
  sent : List ((String × String) × Rat)

/-- Nothing has happened yet. -/
def State.initial : State := ⟨.initial, []⟩

/-- What can happen: something in the cycles that confirm and credit blocks, or the balances of a
pool are paid out through its handler. -/
inductive Op where
  | cycle (op : Cycles.Op)
  | payout (config : PoolConfig) (settings : String → Option Rat) (handler : Handler)

/-- `PayoutPoolBalancesAsync`. -/
def payoutPoolBalances (db : Database) (config : PoolConfig) (settings : String → Option Rat)
    (handler : Handler) : Bitcoin.Payout :=
  let balances := Bitcoin.getPoolBalancesOverThreshold config db settings
  if 0 < balances.length then handler.payoutAsync config db balances else ⟨[], db, true⟩

/-- One step. -/
def step (s : State) : Op → Option State
  | .cycle (.payout ..) => none
  | .cycle op => (Cycles.step s.cycles op).map fun cycles => { s with cycles := cycles }
  | .payout config settings handler =>
    let payout := payoutPoolBalances s.cycles.db config settings handler
    some
      { cycles := { s.cycles with db := payout.db }
        sent := s.sent ++ payout.sent.map fun e => ((config.id, e.1), e.2) }

/-- The recipients of a pool get at most the whole reward, and payouts are safe. -/
def Op.Ok (s : State) : Op → Prop
  | .cycle op => op.FeesWithinReward
  | .payout config settings handler =>
    handler.Safe config (Bitcoin.getPoolBalancesOverThreshold config s.cycles.db settings)

instance (s : State) : DecidablePred (Op.Ok s)
  | .cycle op => inferInstanceAs (Decidable op.FeesWithinReward)
  | .payout config settings handler => inferInstanceAs (Decidable (handler.Safe config
      (Bitcoin.getPoolBalancesOverThreshold config s.cycles.db settings)))

/-- What was sent and what is owed is covered by what was earned. -/
structure State.Inv (s : State) : Prop where
  cycles : s.cycles.Inv
  keyed : s.cycles.db.Keyed
  nonneg : ∀ p a, 0 ≤ s.cycles.db.balanceOf p a
  pools : ∀ e ∈ s.cycles.queue, e.2.poolId = e.1.id ∧
    ∀ b ∈ s.cycles.db.blocks, b.id = e.2.id → b.poolId = e.2.poolId
  covered : ∀ p, sentBy s.sent p + owed s.cycles.db p ≤ earned s.cycles.db.blocks p

theorem inv_initial : State.initial.Inv where
  cycles := Cycles.inv_initial
  keyed := List.nodup_nil
  nonneg p a := by simp [State.initial, Cycles.State.initial, Database.balanceOf, amountIn]
  pools := by simp [State.initial, Cycles.State.initial]
  covered p := by simp [State.initial, Cycles.State.initial, sentBy, owed, earned]

variable {s : State} {config : PoolConfig} {block : Block}

theorem sentBy_append (sent more : List ((String × String) × Rat)) (p : String) :
    sentBy (sent ++ more) p = sentBy sent p + sentBy more p := by
  simp [sentBy]

theorem sentBy_pool (poolId : String) (sent : List (String × Rat)) (p : String) :
    sentBy (sent.map fun e => ((poolId, e.1), e.2)) p = if poolId = p then total sent else 0 := by
  induction sent with
  | nil => simp [sentBy]
  | cons e sent ih =>
    by_cases hp : poolId = p
    · simp only [sentBy, List.map_cons, total_cons, if_pos hp] at ih ⊢
      rw [List.filter_cons_of_pos (by simpa using hp), List.map_cons, List.sum_cons, ih]
    · simp only [sentBy, List.map_cons, if_neg hp] at ih ⊢
      rw [List.filter_cons_of_neg (by simpa using hp), ih]

/-- A safe payout keeps the invariant. -/
theorem State.Inv.payout (h : s.Inv) {settings : String → Option Rat} {handler : Handler}
    (hsafe : handler.Safe config
      (Bitcoin.getPoolBalancesOverThreshold config s.cycles.db settings)) :
    State.Inv
      { cycles := { s.cycles with
          db := (payoutPoolBalances s.cycles.db config settings handler).db }
        sent := s.sent ++ (payoutPoolBalances s.cycles.db config settings handler).sent.map
          fun e => ((config.id, e.1), e.2) } := by
  have hpays : Pays config s.cycles.db
      ((Bitcoin.getPoolBalancesOverThreshold config s.cycles.db settings).map Balance.address)
      (payoutPoolBalances s.cycles.db config settings handler) := by
    simp only [payoutPoolBalances]
    split
    · refine handler.pays (Bitcoin.nodup_overThreshold h.keyed config settings)
        (fun b hb => Bitcoin.balanceOf_of_mem_overThreshold h.keyed hb) (fun b hb => ?_) hsafe
      rw [← Bitcoin.balanceOf_of_mem_overThreshold h.keyed hb]
      exact h.nonneg config.id b.address
    · exact pays_nothing true
  generalize payoutPoolBalances s.cycles.db config settings handler = payout at hpays
  obtain ⟨paid, hdb, -⟩ := hpays.resets
  have hkeyed : payout.db.Keyed := by
    rw [hdb]
    exact h.keyed.persistPayments paid
  have hblocks : payout.db.blocks = s.cycles.db.blocks := by rw [hdb, persistPayments_blocks]
  refine ⟨?_, hkeyed, fun p a => hpays.nonneg (h.nonneg p a), ?_, fun p => ?_⟩
  · have hcycle : Cycles.step s.cycles (.payout config paid) =
        some { s.cycles with db := payout.db } := by
      rw [hdb]
      rfl
    have hfees : Cycles.Op.FeesWithinReward (.payout config paid) := trivial
    exact h.cycles.step hfees hcycle
  · simp only [hblocks]
    exact h.pools
  · have hcovered := h.covered p
    simp only [hblocks, sentBy_append, sentBy_pool]
    split
    · rename_i hp
      subst hp
      have hle := add_owed_le h.keyed hkeyed config.id payout.sent [] fun a => by
        rw [totalAt_nil, zero_add]
        exact hpays.covered a
      rw [total_nil, zero_add] at hle
      linarith
    · rename_i hp
      have hle := add_owed_le h.keyed hkeyed p [] [] fun a => by
        rw [hdb, persistPayments_balanceOf, if_neg hp, sub_zero]
      rw [total_nil, zero_add, zero_add] at hle
      linarith

/-- The cycle is over. -/
theorem State.Inv.endCycle (h : s.Inv) :
    State.Inv { s with cycles := { s.cycles with queue := [] } } :=
  ⟨h.cycles.endCycle, h.keyed, h.nonneg, by simp, h.covered⟩

theorem exists_row_of_mem_classifyBlocks {answers : List (Option Cycles.Classification)}
    {pending : List Block} {b : Block} (h : b ∈ Cycles.classifyBlocks answers pending) :
    ∃ b' ∈ pending, b'.id = b.id ∧ b'.poolId = b.poolId := by
  obtain ⟨⟨answer, b'⟩, hmem, hb⟩ := List.mem_filterMap.mp h
  obtain ⟨c, -, rfl⟩ := Option.map_eq_some_iff.mp hb
  exact ⟨b', (List.of_mem_zip hmem).2, rfl, rfl⟩

theorem exists_row_of_mem_updateBlock {blocks : List Block} {b : Block}
    (h : b ∈ updateBlock blocks block) : ∃ b' ∈ blocks, b'.id = b.id ∧ b'.poolId = b.poolId := by
  obtain ⟨b', hb', rfl⟩ := List.mem_map.mp h
  refine ⟨b', hb', ?_⟩
  split <;> exact ⟨rfl, rfl⟩

/-- What a block adds to the balances it adds to the earnings as well. -/
theorem State.Inv.processNext (h : s.Inv) {queue : List (PoolConfig × Block)}
    (hqueue : s.cycles.queue = (config, block) :: queue) :
    State.Inv { s with cycles := Cycles.processNext s.cycles config block queue } := by
  have hhead : (config, block) ∈ s.cycles.queue := by rw [hqueue]; exact List.mem_cons_self
  have htail : ∀ e ∈ queue, e ∈ s.cycles.queue := by
    rw [hqueue]
    exact fun e he => List.mem_cons_of_mem _ he
  have hcycles := h.cycles.processNext hqueue
  rw [Cycles.processNext] at hcycles ⊢
  cases hprocess : processBlock config s.cycles.db block never 0 with
  | none => exact h.endCycle
  | some result =>
    obtain ⟨db', t'⟩ := result
    rw [hprocess] at hcycles
    obtain ⟨credits, shares, effort, minerEffort, rfl, hnonneg, hle⟩ := exists_credits
      (h.cycles.reward_nonneg _ hhead) (h.cycles.fees _ hhead) hprocess
    obtain ⟨row, hrow, hid, hpending⟩ := h.cycles.pending _ hhead
    obtain ⟨hpool, hrows⟩ := h.pools _ hhead
    refine ⟨hcycles, keyed_addAmounts h.keyed credits, fun p a => ?_, fun e he => ?_, fun p => ?_⟩
    · have hbalance := balanceOf_addAmounts s.cycles.db config.id credits p a
      refine le_of_le_of_eq ?_ hbalance.symm
      have hp := h.nonneg p a
      split
      · exact add_nonneg hp (totalAt_nonneg hnonneg a)
      · rwa [add_zero]
    · obtain ⟨hpool', hrows'⟩ := h.pools e (htail e he)
      refine ⟨hpool', fun b hb hbid => ?_⟩
      obtain ⟨b', hb', hid', hpool''⟩ := exists_row_of_mem_updateBlock hb
      rw [← hpool'']
      exact hrows' b' hb' (hid'.trans hbid)
    · have hcovered := h.covered p
      have hearned := earned_updateBlock h.cycles.nodup_blocks
        { block with effort := effort, minerEffort := minerEffort } hrow hid hpending p
      have howed := owed_addAmounts_le config.id h.keyed hnonneg p
      have hrowPool : row.poolId = config.id := (hrows row hrow hid).trans hpool
      rw [hrowPool] at hearned
      refine le_of_le_of_eq ?_ hearned.symm
      have hcredited : (if config.id = p then total credits else 0) ≤
          if config.id = p ∧ block.status = .confirmed then block.reward else 0 := by
        by_cases hp : config.id = p
        · simpa only [hp, true_and, if_true] using hle
        · simp only [hp, false_and, if_false, le_refl]
      exact (add_le_add_right howed _).trans (by linarith)

theorem State.Inv.step {s' : State} {op : Op} (h : s.Inv) (hok : op.Ok s)
    (hstep : step s op = some s') : s'.Inv := by
  cases op with
  | payout config settings handler =>
    cases hstep
    exact h.payout hok
  | cycle op =>
    cases op with
    | payout => cases hstep
    | insertShare share =>
      cases hstep
      have hfees : Cycles.Op.FeesWithinReward (.insertShare share) := trivial
      exact ⟨h.cycles.step hfees rfl, h.keyed, h.nonneg, h.pools, h.covered⟩
    | insertBlock block =>
      simp only [Solvency.step, Option.map_eq_some_iff] at hstep
      obtain ⟨cycles, hcycle, rfl⟩ := hstep
      have hfees : Cycles.Op.FeesWithinReward (.insertBlock block) := trivial
      have hcycles := h.cycles.step hfees hcycle
      rw [Cycles.step] at hcycle
      split at hcycle
      · cases hcycle
      · rename_i hfresh
        cases hcycle
        refine ⟨hcycles, h.keyed, h.nonneg, fun e he => ?_, fun p => ?_⟩
        · obtain ⟨hpool, hrows⟩ := h.pools e he
          refine ⟨hpool, fun b hb hid => ?_⟩
          rcases List.mem_append.mp hb with hb | hb
          · exact hrows b hb hid
          · obtain ⟨b', hb', hid', -⟩ := h.cycles.pending e he
            rw [List.mem_singleton.mp hb] at hid
            exact absurd (List.mem_map.mpr ⟨b', hb', hid'.trans hid.symm⟩) hfresh
        · have hpending : earned (s.cycles.db.blocks ++ [{ block with status := .pending }]) p =
              earned s.cycles.db.blocks p := by
            simp [earned]
          exact le_of_le_of_eq (h.covered p) hpending.symm
    | beginCycle config answers =>
      simp only [Solvency.step, Option.map_eq_some_iff] at hstep
      obtain ⟨cycles, hcycle, rfl⟩ := hstep
      have hfees : Cycles.Op.FeesWithinReward (.beginCycle config answers) := hok
      have hcycles := h.cycles.step hfees hcycle
      rw [Cycles.step] at hcycle
      split at hcycle
      · cases hcycle
      · cases hcycle
        refine ⟨hcycles, h.keyed, h.nonneg, fun e he => ?_, h.covered⟩
        obtain ⟨b, hb, rfl⟩ := List.mem_map.mp he
        obtain ⟨b', hb', hid', hpool'⟩ := exists_row_of_mem_classifyBlocks
          ((Cycles.orderByCreated_perm _).mem_iff.mp hb)
        obtain ⟨hrow, hkey⟩ := List.mem_filter.mp hb'
        simp only [decide_eq_true_eq] at hkey
        refine ⟨hpool'.symm.trans hkey.1, fun row hmem hid => ?_⟩
        rw [List.inj_on_of_nodup_map h.cycles.nodup_blocks hmem hrow (hid.trans hid'.symm)]
        exact hpool'
    | processNext fails =>
      simp only [Solvency.step, Option.map_eq_some_iff] at hstep
      obtain ⟨cycles, hcycle, rfl⟩ := hstep
      rw [Cycles.step] at hcycle
      split at hcycle
      · cases hcycle
      · rename_i config block queue hqueue
        cases hcycle
        split
        · exact h.endCycle
        · exact h.processNext hqueue
    | restart =>
      cases hstep
      exact h.endCycle

/-- A pool with a fee of one percent. -/
def feePool : PoolConfig := Cycles.soloPool [⟨"fee", 1⟩]

/-- A block of the pool is confirmed with a reward of ten, and the balances are paid twice. -/
def paidTwice : List Op :=
  let payout := .payout feePool (fun _ => none)
    (.ethereum ⟨true, some 3, fun _ => .executed (some "0xab"), fun _ => [.transientFault]⟩)
  (Cycles.confirmRun [⟨"fee", 1⟩]).map .cycle ++ [payout, payout]

end Runs

end HashStorm.Payments.Solvency
