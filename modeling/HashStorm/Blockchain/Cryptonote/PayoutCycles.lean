import HashStorm.Blockchain.Cryptonote.PayoutHandler

/-!
# Runs of Cryptonote payout cycles

A payout is settled when every transfer is followed at once by the reset of the
balances it paid. The batches of a payout are settled whatever the wallet answers;
a single payment is unless the wallet executes it as `transfer_split`. Over runs
without such a payment nobody is paid a balance twice.
-/

namespace HashStorm.Cryptonote

open Payments Dictionary Machine Bitcoin

section Settled

/-- The same balances, apart from those of nothing. -/
def SameBalances (paid balances : List Balance) : Prop :=
  (paid.filter fun b => b.amount ≠ 0) = balances.filter fun b => b.amount ≠ 0

/-- Every transfer is followed at once by the reset of the balances it paid, and nothing else
is reset. -/
def Settled : List Event → Prop
  | [] => True
  | .transferred _ paid :: .debited balances :: events =>
    SameBalances paid balances ∧ Settled events
  | _ => False

instance decidableSettled : DecidablePred Settled
  | [] => isTrue trivial
  | [.transferred ..] => isFalse id
  | .transferred _ _ :: .transferred _ _ :: _ => isFalse id
  | .debited _ :: _ => isFalse id
  | .transferred _ paid :: .debited balances :: events =>
    have := decidableSettled events
    inferInstanceAs (Decidable ((paid.filter fun b => b.amount ≠ 0) =
      (balances.filter fun b => b.amount ≠ 0) ∧ Settled events))

/-- The amounts that the owners of balances were paid. -/
def paidBy (events : List Event) : List ((String × String) × Rat) :=
  events.flatMap fun
    | .transferred _ paid => paid.map fun b => ((b.poolId, b.address), b.amount)
    | .debited _ => []

/-- Payments for the given balances lead from one database to another. -/
inductive Settles (config : PoolConfig) :
    Database → List Balance → List Event → Database → Prop
  | nothing (db : Database) : Settles config db [] [] db
  | payment {db db' : Database} {request : TransferRequest} {paid balances rest : List Balance}
      {txHash : String} {events : List Event} (same : SameBalances paid balances)
      (later : Settles config (persistPayments config db (balances.map fun b => (b, txHash)))
        rest events db') :
      Settles config db (balances ++ rest)
        (.transferred request paid :: .debited balances :: events) db'

variable {config : PoolConfig} {db db' : Database} {balances : List Balance}
  {events : List Event}

theorem Settles.append (h : Settles config db balances events db') {more : List Balance}
    {moreEvents : List Event} {db'' : Database} (h' : Settles config db' more moreEvents db'') :
    Settles config db (balances ++ more) (events ++ moreEvents) db'' := by
  induction h with
  | nothing db => exact h'
  | payment same _ ih =>
    rw [List.append_assoc]
    exact .payment same (ih h')

theorem Settles.settled (h : Settles config db balances events db') : Settled events := by
  induction h with
  | nothing db => trivial
  | payment same _ ih => exact ⟨same, ih⟩

theorem Settles.keyed (h : Settles config db balances events db') (hkeyed : db.Keyed) :
    db'.Keyed := by
  induction h with
  | nothing db => exact hkeyed
  | payment _ _ ih => exact ih (hkeyed.persistPayments _)

/-- The balances go down by what was settled. -/
theorem Settles.balanceOf (h : Settles config db balances events db') (p a : String) :
    db'.balanceOf p a = db.balanceOf p a -
      if config.id = p then totalAt (Equihash.resets balances) a else 0 := by
  induction h with
  | nothing db => simp [Equihash.resets]
  | @payment db db' _ _ balances rest txHash _ _ _ ih =>
    have hmap : ((balances.map fun b => (b, txHash)).map fun e => (e.1.address, e.1.amount)) =
        Equihash.resets balances := List.map_map
    rw [ih, persistPayments_balanceOf, hmap, Equihash.resets_append, totalAt_append]
    split <;> ring

/-- Balances of nothing do not count. -/
theorem totalAt_filter_ne_zero (balances : List Balance) (k : String × String) :
    totalAt ((balances.filter fun b => b.amount ≠ 0).map fun b =>
        ((b.poolId, b.address), b.amount)) k =
      totalAt (balances.map fun b => ((b.poolId, b.address), b.amount)) k := by
  induction balances with
  | nil => rfl
  | cons b balances ih =>
    by_cases hb : b.amount = 0
    · rw [List.filter_cons_of_neg (by simpa using hb), ih, List.map_cons, totalAt_cons, hb]
      simp
    · rw [List.filter_cons_of_pos (by simpa using hb), List.map_cons, List.map_cons,
        totalAt_cons, totalAt_cons, ih]

/-- What was paid is what was settled. -/
theorem Settles.totalAt_paidBy (h : Settles config db balances events db')
    (k : String × String) :
    totalAt (paidBy events) k =
      totalAt (balances.map fun b => ((b.poolId, b.address), b.amount)) k := by
  induction h with
  | nothing db => rfl
  | @payment db db' request paid balances rest txHash events same _ ih =>
    have hpaid : paidBy (.transferred request paid :: .debited balances :: events) =
        (paid.map fun b => ((b.poolId, b.address), b.amount)) ++ paidBy events := rfl
    rw [hpaid, totalAt_append, ih, List.map_append, totalAt_append,
      ← totalAt_filter_ne_zero paid, same, totalAt_filter_ne_zero]

end Settled

section Payout

variable {config : PoolConfig} {handler : Handler} {db : Database}

/-- Some of the balances are settled by an attempt, and nothing else is done. -/
def SettlesSome (config : PoolConfig) (db : Database) (balances : List Balance)
    (attempt : Attempt) : Prop :=
  ∃ settled, settled.Sublist balances ∧ Settles config db settled attempt.events attempt.db

theorem settlesSome_nothing (balances : List Balance) (result : Option Bool) :
    SettlesSome config db balances ⟨[], db, result⟩ :=
  ⟨[], List.nil_sublist _, .nothing db⟩

/-- A transfer with a transaction hash is settled. -/
theorem settlesSome_persist {paid balances : List Balance} (hsame : SameBalances paid balances)
    {txHash : String} (hne : txHash ≠ "") (request : TransferRequest) :
    SettlesSome config db balances
      ((persist config db balances (some txHash)).after [.transferred request paid]) := by
  have hpersist : persistPaymentsAsync config db balances txHash [] =
      some (persistPayments config db (balances.map fun b => (b, txHash))) := by
    simp [persistPaymentsAsync, hne, faultPolicy]
  refine ⟨balances, List.Sublist.refl _, ?_⟩
  have hsettles := @Settles.payment config db _ request paid balances [] txHash [] hsame
    (.nothing _)
  rw [List.append_nil] at hsettles
  simpa [persist, hpersist, Attempt.after] using hsettles

/-- Batches are settled, however the wallet answers. -/
theorem settlesSome_payoutBatch (wallet : Answers) {balances : List Balance}
    (hnonneg : ∀ b ∈ balances, 0 ≤ b.amount) :
    SettlesSome config db balances (payoutBatch config handler db wallet balances) := by
  have hsame : SameBalances (balances.filter fun x => 0 < x.amount) balances := by
    rw [SameBalances, List.filter_filter]
    refine List.filter_congr fun b hb => ?_
    have hpos : (0 < b.amount) ↔ b.amount ≠ 0 :=
      ⟨fun h => h.ne', fun h => lt_of_le_of_ne (hnonneg b hb) h.symm⟩
    simp [hpos]
  rw [payoutBatch]
  split
  · exact settlesSome_nothing balances _
  simp only
  split
  · exact settlesSome_nothing balances _
  split
  · exact settlesSome_nothing balances _
  split
  · cases wallet.transferSplit with
    | error code => exact settlesSome_nothing balances _
    | executed txHash more feeList hne => exact settlesSome_persist hsame hne _
  · cases wallet.transfer with
    | error code => exact settlesSome_nothing balances _
    | executed txHash fee hne => exact settlesSome_persist hsame hne _

/-- The wallet refuses `transfer` because the transaction would be too large, and executes
`transfer_split`. -/
def Answers.Split (handler : Handler) (wallet : Answers) : Prop :=
  handler.walletSupportsTransferSplit = true ∧ wallet.transfer = .error transactionTooLarge ∧
    wallet.transferSplit.isExecuted = true

instance (wallet : Answers) : Decidable (wallet.Split handler) :=
  inferInstanceAs (Decidable (_ ∧ _ ∧ _))

/-- A single payment that the wallet does not split is settled. -/
theorem settlesSome_payoutToPaymentId {wallet : Answers} (hsplit : ¬wallet.Split handler)
    (balance : Balance) :
    SettlesSome config db [balance] (payoutToPaymentId config handler db wallet balance) := by
  have hsame : SameBalances [balance] [balance] := rfl
  rw [payoutToPaymentId]
  split
  · exact settlesSome_nothing _ _
  split
  · exact settlesSome_nothing _ _
  split
  · rename_i hlarge
    cases hanswer : wallet.transferSplit with
    | error code => exact settlesSome_nothing _ _
    | executed txHash more feeList hne =>
      exact absurd ⟨hlarge.2, hlarge.1, by rw [hanswer]; rfl⟩ hsplit
  · cases wallet.transfer with
    | error code => exact settlesSome_nothing _ _
    | executed txHash fee hne => exact settlesSome_persist hsame hne _

/-- A loop settles what its payments settle. -/
theorem settlesSome_payEach {α : Type*} (pay : Database → Nat → α → Attempt)
    (owned : α → List Balance) {xs : List α} {start : Nat}
    (hpay : ∀ db i x, x ∈ xs → i < start + xs.length →
      SettlesSome config db (owned x) (pay db i x)) (db : Database) :
    SettlesSome config db (xs.flatMap owned) (payEach pay db start xs) := by
  induction xs generalizing start db with
  | nil => exact settlesSome_nothing _ _
  | cons x rest ih =>
    obtain ⟨settled, hsub, hsettles⟩ := hpay db start x List.mem_cons_self (by simp)
    rw [payEach, List.flatMap_cons]
    split
    · obtain ⟨more, hmore, hlater⟩ := @ih (start + 1) (fun db i y hy hi =>
        hpay db i y (List.mem_cons_of_mem _ hy) (by rw [List.length_cons]; omega))
        (pay db start x).db
      exact ⟨settled ++ more, hsub.append hmore, hsettles.append hlater⟩
    · exact ⟨settled, hsub.trans (List.sublist_append_left _ _), hsettles⟩

/-- The balances of the batches are some of the simple ones. -/
theorem sublist_flatten_pages (size : Nat) (balances : List Balance) :
    ((Equihash.pages size balances).flatMap id).Sublist balances := by
  rw [List.flatMap_id, Equihash.pages, Equihash.flatten_pages]
  exact List.take_sublist _ _

theorem mem_simpleBalances {balances : List Balance} {b : Balance} :
    b ∈ simpleBalances handler balances ↔ b ∈ balances ∧ handler.isSimple b = true := by
  rw [simpleBalances, List.mem_insertionSort, List.mem_filter]

theorem mem_of_mem_paymentIdBalances {balances : List Balance} {b : Balance}
    (hb : b ∈ paymentIdBalances config handler balances) :
    b ∈ balances ∧ b ∉ simpleBalances handler balances := by
  have h := (List.mem_filter.mp hb).1
  rw [List.mem_dedup, List.mem_filter] at h
  exact ⟨h.1, by simpa using h.2⟩

/-- No address is paid in a batch and on its own. -/
theorem nodup_simple_append_paymentId {balances : List Balance}
    (hnodup : (balances.map Balance.address).Nodup) :
    ((simpleBalances handler balances ++ paymentIdBalances config handler balances).map
      Balance.address).Nodup := by
  rw [List.map_append, List.nodup_append]
  refine ⟨?_, ?_, ?_⟩
  · have hperm := ((balances.filter handler.isSimple).perm_insertionSort
      fun a b => b.amount ≤ a.amount).map Balance.address
    exact hperm.nodup_iff.mpr ((List.filter_sublist.map _).nodup hnodup)
  · refine (List.Sublist.map _ ?_).nodup hnodup
    exact (List.filter_sublist.trans (List.dedup_sublist _)).trans List.filter_sublist
  · intro a ha a' ha' heq
    obtain ⟨b, hb, rfl⟩ := List.mem_map.mp ha
    obtain ⟨c, hc, rfl⟩ := List.mem_map.mp ha'
    obtain ⟨hcmem, hcnot⟩ := mem_of_mem_paymentIdBalances hc
    have hbc := List.inj_on_of_nodup_map hnodup (mem_simpleBalances.mp hb).1 hcmem heq
    exact hcnot (hbc ▸ hb)

/-- The balances that `PayoutAsync` looks at are those of valid addresses. -/
def Handler.valid (handler : Handler) (balances : List Balance) : List Balance :=
  balances.filter handler.isValid

/-- A payout without a split single payment settles some balances, each once. -/
theorem settles_payoutAsync (wallet : Wallet) {balances : List Balance}
    (hnodup : (balances.map Balance.address).Nodup) (hnonneg : ∀ b ∈ balances, 0 ≤ b.amount)
    (hsplit : ∀ i < (paymentIdBalances config handler (handler.valid balances)).length,
      ¬(wallet.paymentId i).Split handler) :
    ∃ settled, (settled.map Balance.address).Nodup ∧ settled ⊆ balances ∧
      Settles config db settled (payoutAsync config handler db wallet balances).events
        (payoutAsync config handler db wallet balances).db := by
  have hnothing : ∃ settled, (settled.map Balance.address).Nodup ∧ settled ⊆ balances ∧
      Settles config db settled [] db :=
    ⟨[], List.nodup_nil, List.nil_subset _, .nothing db⟩
  rw [payoutAsync]
  split
  · exact hnothing
  split
  · exact hnothing
  split
  · exact hnothing
  have hvalid : (handler.valid balances).Sublist balances := List.filter_sublist
  have hboth := @nodup_simple_append_paymentId config handler _ ((hvalid.map _).nodup hnodup)
  have hsimple : simpleBalances handler (handler.valid balances) ⊆ balances :=
    fun b hb => hvalid.subset (mem_simpleBalances.mp hb).1
  have hsingle : paymentIdBalances config handler (handler.valid balances) ⊆ balances :=
    fun b hb => hvalid.subset (mem_of_mem_paymentIdBalances hb).1
  have hpages := sublist_flatten_pages handler.maxBatchSize
    (simpleBalances handler (handler.valid balances))
  obtain ⟨batched, hbatched, hbatches⟩ := @settlesSome_payEach config _
    (fun db i => payoutBatch config handler db (wallet.batch i)) id
    (Equihash.pages handler.maxBatchSize (simpleBalances handler (handler.valid balances))) 0
    (fun db i page hpage _ => settlesSome_payoutBatch (wallet.batch i)
      fun b hb => hnonneg b (hsimple (hpages.subset (List.mem_flatMap.mpr ⟨page, hpage, hb⟩)))) db
  have hbatched := hbatched.trans hpages
  simp only
  split
  · exact ⟨batched, ((hbatched.trans (List.sublist_append_left _ _)).map _).nodup hboth,
      List.Subset.trans hbatched.subset hsimple, hbatches⟩
  · obtain ⟨single, hsub, hsettles⟩ := @settlesSome_payEach config _
      (fun db i => payoutToPaymentId config handler db (wallet.paymentId i)) (fun b => [b])
      (paymentIdBalances config handler (handler.valid balances)) 0
      (fun db i b _ hi => settlesSome_payoutToPaymentId (hsplit i (by omega)) b)
      (payEach (fun db i => payoutBatch config handler db (wallet.batch i)) db 0
        (Equihash.pages handler.maxBatchSize
          (simpleBalances handler (handler.valid balances)))).db
    rw [List.flatMap_singleton'] at hsub
    refine ⟨batched ++ single, ((hbatched.append hsub).map _).nodup hboth, ?_,
      hbatches.append hsettles⟩
    exact List.append_subset.mpr ⟨List.Subset.trans hbatched.subset hsimple,
      List.Subset.trans hsub.subset hsingle⟩

end Payout

section Cycles

/-- The database, the events of every payout, and what was credited, by pool and address. -/
structure State where
  db : Database
  log : List (List Event)
  credited : List ((String × String) × Rat)

/-- Nothing has happened yet. -/
def State.initial : State := ⟨{}, [], []⟩

/-- An amount is credited, or the balances of a pool are paid out. -/
inductive Op where
  | credit (poolId address : String) (amount : Rat) (nonneg : 0 ≤ amount)
  | payout (config : PoolConfig) (settings : String → Option Rat) (handler : Handler)
      (wallet : Wallet)

/-- `PayoutPoolBalancesAsync`. -/
def payoutPoolBalances (db : Database) (config : PoolConfig) (settings : String → Option Rat)
    (handler : Handler) (wallet : Wallet) : Attempt :=
  let balances := getPoolBalancesOverThreshold config db settings
  if 0 < balances.length then payoutAsync config handler db wallet balances
  else ⟨[], db, some true⟩

/-- One step. -/
def step (s : State) : Op → Option State
  | .credit poolId address amount _ => some
    { s with
      db := s.db.addAmount poolId address amount
      credited := s.credited ++ [((poolId, address), amount)] }
  | .payout config settings handler wallet =>
    let attempt := payoutPoolBalances s.db config settings handler wallet
    some { s with db := attempt.db, log := s.log ++ [attempt.events] }

/-- No single payment of the step is split. -/
def Op.Unsplit (s : State) : Op → Prop
  | .credit .. => True
  | .payout config settings handler wallet =>
    ∀ i < (paymentIdBalances config handler
        (handler.valid (getPoolBalancesOverThreshold config s.db settings))).length,
      ¬(wallet.paymentId i).Split handler

instance (s : State) : DecidablePred (Op.Unsplit s)
  | .credit .. => isTrue trivial
  | .payout config settings handler wallet =>
    inferInstanceAs (Decidable (∀ i < (paymentIdBalances config handler
        (handler.valid (getPoolBalancesOverThreshold config s.db settings))).length,
      ¬(wallet.paymentId i).Split handler))

/-- The payouts are settled, no balance is negative, and what was paid and what is still owed
is what was credited. -/
structure State.Inv (s : State) : Prop where
  keyed : s.db.Keyed
  settled : ∀ cycle ∈ s.log, Settled cycle
  nonneg : ∀ p a, 0 ≤ s.db.balanceOf p a
  credited : ∀ p a, totalAt (s.log.flatMap paidBy) (p, a) + s.db.balanceOf p a =
    totalAt s.credited (p, a)

theorem inv_initial : State.initial.Inv where
  keyed := List.nodup_nil
  settled := by simp [State.initial]
  nonneg p a := by simp [State.initial, Database.balanceOf, amountIn]
  credited p a := by simp [State.initial, Database.balanceOf, amountIn]

/-- A credit keeps the invariant. -/
theorem State.Inv.credit {s : State} (h : s.Inv) (poolId address : String) {amount : Rat}
    (hnonneg : 0 ≤ amount) :
    State.Inv { s with
      db := s.db.addAmount poolId address amount
      credited := s.credited ++ [((poolId, address), amount)] } where
  keyed := h.keyed.addAmount poolId address amount
  settled := h.settled
  nonneg p a := by
    have hp := h.nonneg p a
    rw [Database.balanceOf_addAmount]
    split
    · exact add_nonneg hp hnonneg
    · rwa [add_zero]
  credited p a := by
    simp only [Database.balanceOf_addAmount, totalAt_append, totalAt_cons, totalAt_nil,
      Prod.mk.injEq, add_zero]
    rw [← add_assoc, h.credited p a]

/-- The balances over the threshold are settled, each once, or nothing is done. -/
theorem settles_payoutPoolBalances {s : State} (h : s.Inv) {config : PoolConfig}
    {settings : String → Option Rat} {handler : Handler} {wallet : Wallet}
    (hunsplit : Op.Unsplit s (.payout config settings handler wallet)) :
    ∃ settled, (settled.map Balance.address).Nodup ∧
      settled ⊆ getPoolBalancesOverThreshold config s.db settings ∧
      Settles config s.db settled (payoutPoolBalances s.db config settings handler wallet).events
        (payoutPoolBalances s.db config settings handler wallet).db := by
  rw [payoutPoolBalances]
  split
  · refine settles_payoutAsync wallet (nodup_overThreshold h.keyed config settings) ?_ hunsplit
    intro b hb
    rw [← balanceOf_of_mem_overThreshold h.keyed hb]
    exact h.nonneg config.id b.address
  · exact ⟨[], List.nodup_nil, List.nil_subset _, .nothing _⟩

/-- Every settled balance is the one of its address, so it is nothing afterwards. -/
theorem nonneg_of_settles {config : PoolConfig} {db db' : Database} {settled : List Balance}
    {events : List Event} (hsettles : Settles config db settled events db')
    (hnodup : (settled.map Balance.address).Nodup)
    (hbalance : ∀ b ∈ settled, db.balanceOf config.id b.address = b.amount)
    (hnonneg : ∀ p a, 0 ≤ db.balanceOf p a) (p a : String) : 0 ≤ db'.balanceOf p a := by
  have hp := hnonneg p a
  rw [hsettles.balanceOf]
  split
  · rename_i hid
    subst hid
    by_cases hmem : ∃ b ∈ settled, b.address = a
    · obtain ⟨b, hb, rfl⟩ := hmem
      rw [Equihash.resets, totalAt_balances hnodup hb, hbalance b hb, sub_self]
    · rw [Equihash.resets, totalAt_balances_of_not_mem hmem, sub_zero]
      exact hp
  · rwa [sub_zero]

/-- Balances of one pool, by pool and address. -/
theorem totalAt_poolBalances {poolId : String} {balances : List Balance}
    (hpool : ∀ b ∈ balances, b.poolId = poolId) (p a : String) :
    totalAt (balances.map fun b => ((b.poolId, b.address), b.amount)) (p, a) =
      if poolId = p then totalAt (Equihash.resets balances) a else 0 := by
  have hmap : (balances.map fun b => ((b.poolId, b.address), b.amount)) =
      (Equihash.resets balances).map fun e => ((poolId, e.1), e.2) := by
    rw [Equihash.resets, List.map_map]
    exact List.map_congr_left fun b hb => by simp [hpool b hb]
  rw [hmap, totalAt_map_pool]

/-- A payout without a split single payment keeps the invariant. -/
theorem State.Inv.payout {s : State} (h : s.Inv) {config : PoolConfig}
    {settings : String → Option Rat} {handler : Handler} {wallet : Wallet}
    (hunsplit : Op.Unsplit s (.payout config settings handler wallet)) :
    State.Inv { s with
      db := (payoutPoolBalances s.db config settings handler wallet).db
      log := s.log ++ [(payoutPoolBalances s.db config settings handler wallet).events] } := by
  obtain ⟨settled, hnodup, hsub, hsettles⟩ := settles_payoutPoolBalances h hunsplit
  have hpool : ∀ b ∈ settled, b.poolId = config.id := fun b hb => by
    have hkey := (List.mem_filter.mp (hsub hb)).2
    simp only [decide_eq_true_eq] at hkey
    exact hkey.1
  refine ⟨hsettles.keyed h.keyed, ?_, ?_, ?_⟩
  · intro cycle hcycle
    rcases List.mem_append.mp hcycle with hcycle | hcycle
    · exact h.settled cycle hcycle
    · rw [List.mem_singleton.mp hcycle]
      exact hsettles.settled
  · exact nonneg_of_settles hsettles hnodup
      (fun b hb => balanceOf_of_mem_overThreshold h.keyed (hsub hb)) h.nonneg
  · intro p a
    have hcredited := h.credited p a
    simp only [List.flatMap_append, List.flatMap_singleton, totalAt_append]
    rw [hsettles.totalAt_paidBy, totalAt_poolBalances hpool, hsettles.balanceOf]
    linarith

theorem State.Inv.step {s s' : State} {op : Op} (h : s.Inv) (hunsplit : op.Unsplit s)
    (hstep : step s op = some s') : s'.Inv := by
  cases op with
  | credit poolId address amount hnonneg =>
    cases hstep
    exact h.credit poolId address hnonneg
  | payout config settings handler wallet =>
    cases hstep
    exact h.payout hunsplit

/-- Over every run without a split single payment, every executed transfer is followed in its
payout by the reset of the balances it paid and nothing else is reset, and what an address was
paid and what it is still owed is what it was credited with. -/
theorem balances_paid_once {ops : List Op} {s : State}
    (hrun : run step State.initial ops = some s)
    (hunsplit : Meets step (fun s op => op.Unsplit s) State.initial ops) :
    (∀ cycle ∈ s.log, Settled cycle) ∧ ∀ poolId address,
      0 ≤ s.db.balanceOf poolId address ∧
      totalAt (s.log.flatMap paidBy) (poolId, address) + s.db.balanceOf poolId address =
        totalAt s.credited (poolId, address) := by
  have hinv := run_invariant State.Inv (fun _ _ _ h hok hstep => h.step hok hstep) inv_initial
    hunsplit hrun
  exact ⟨hinv.settled, fun p a => ⟨hinv.nonneg p a, hinv.credited p a⟩⟩

/-- A pool of Monero that pays out from one coin on. -/
def examplePool : PoolConfig := .plain "XMR" [] .solo

/-- An address of the main network. -/
def exampleAddress : String :=
  "48nhyWcSey31ngSEhV8j8NPm6B8PistCQJBjjDjmTvRSTWYg6iocAw131vE2JPh3ps33vgQDKLrUx3fcErusYWcMJBxpm1d"

/-- A miner with a payment id. -/
def exampleMiner : String :=
  exampleAddress ++ ".0123456789abcdef0123456789abcdef0123456789abcdef0123456789abcdef"

/-- A handler on the main network, for a wallet that knows `transfer_split`. -/
def exampleHandler : Handler where
  smallestUnit := 1000000000000
  addressPrefixes
    | .main => ⟨18, 42, 19⟩
    | .test => ⟨53, 63, 54⟩
    | .stage => ⟨24, 36, 25⟩
  networkType := .main
  extraConfig := none
  walletSupportsTransferSplit := true
  decodeAddress address := if address = exampleAddress then 18 else 0
  decodeIntegratedAddress _ := 0

/-- A payout from a wallet with ten coins in which every transfer is answered in one way. -/
def payoutWith (transfer : TransferAnswer) (transferSplit : SplitAnswer) : Op :=
  let answers : Answers := ⟨.balances 10000000000000 [], transfer, transferSplit⟩
  .payout examplePool (fun _ => none) exampleHandler ⟨some (4, 8), fun _ => answers,
    fun _ => answers⟩

/-- Two miners are credited with two coins each, and get them: the one without a payment id by
`transfer_split`. -/
theorem balances_paid_once_two_miners : ∃ s,
    run step State.initial [.credit "pool" exampleAddress 2 (by decide),
      payoutWith (.error (-4)) (.executed "tx" [] [1] (by decide)),
      .credit "pool" exampleMiner 2 (by decide),
      payoutWith (.executed "tx'" 1 (by decide)) (.error 0)] = some s ∧
    (∀ cycle ∈ s.log, Settled cycle) ∧
    totalAt (s.log.flatMap paidBy) ("pool", exampleMiner) + s.db.balanceOf "pool" exampleMiner =
      totalAt s.credited ("pool", exampleMiner) ∧
    totalAt (s.log.flatMap paidBy) ("pool", exampleAddress) = 2 ∧
    totalAt (s.log.flatMap paidBy) ("pool", exampleMiner) = 2 := by
  have hunsplit : Meets step (fun s op => op.Unsplit s) State.initial
      [.credit "pool" exampleAddress 2 (by decide),
        payoutWith (.error (-4)) (.executed "tx" [] [1] (by decide)),
        .credit "pool" exampleMiner 2 (by decide),
        payoutWith (.executed "tx'" 1 (by decide)) (.error 0)] := by decide +kernel
  have hpaid := balances_paid_once rfl hunsplit
  refine ⟨_, rfl, hpaid.1, (hpaid.2 "pool" exampleMiner).2, ?_⟩
  decide +kernel

/-- The wallet splits the payment of a balance with a payment id, and executes it. The balance is
not reset, so it is paid again in the next cycle. -/
theorem split_payment_repeated : ∃ s,
    run step State.initial [.credit "pool" exampleMiner 2 (by decide),
      payoutWith (.error (-4)) (.executed "tx" [] [1] (by decide)),
      payoutWith (.executed "tx'" 1 (by decide)) (.error 0)] = some s ∧
    ¬(∀ cycle ∈ s.log, Settled cycle) ∧
    totalAt s.credited ("pool", exampleMiner) <
      totalAt (s.log.flatMap paidBy) ("pool", exampleMiner) := by
  refine ⟨_, rfl, ?_⟩
  decide +kernel

end Cycles

end HashStorm.Cryptonote
