import HashStorm.Blockchain.Bitcoin.PayoutHandler
import Mathlib.Data.List.Flatten

/-!
# What a payout sends and what it records

`EquihashPayoutHandler` pays in pages of fifty balances by `z_sendmany`. Like the
`sendmany` path of the Bitcoin handler it sends the rounded positive balances and
resets all of them by their exact amounts, so the ledger records what was sent
only if rounding changes nothing. The `sendtoaddress` path records the rounded
amounts.
-/

namespace HashStorm.Equihash

open Payments Dictionary Rounding Bitcoin

/-- How the operation of a `z_sendmany` ends; waiting for it may raise an exception. -/
inductive Operation where
  | success (txId : String)
  | cancelled
  | failed
  | unrecognized
  | interrupted
  deriving DecidableEq, Repr

/-- What the daemon answers for one page: the shielded balance, if it is known, the
operation id, and the end of the operation. -/
structure PageAnswers where
  zBalance : Option Rat
  exchange : Exchange
  operation : Operation
  deriving DecidableEq, Repr

/-- `TransferFee`. -/
def transferFee : Rat := 1 / 10000

/-- The number of decimal places of an amount. -/
def decimalPlaces : Nat := 8

/-- The recipients of one transaction. -/
def pageSize : Nat := 50

/-- The pages of the balances. -/
def pages (size : Nat) (balances : List Balance) : List (List Balance) :=
  (List.range ((balances.length + size - 1) / size)).map fun i =>
    (balances.drop (i * size)).take size

/-- The loop of `PayoutZSendManyAsync`, from page `i` on. -/
def payoutPages (config : PoolConfig) (answers : Nat → PageAnswers)
    (outcomes : Nat → List TxOutcome) : Nat → List (List Balance) → Database → Payout
  | _, [], db => ⟨[], db, true⟩
  | i, page :: rest, db =>
    let amounts := amounts decimalPlaces page
    let giveUp := { payoutPages config answers outcomes (i + 1) rest db with completed := false }
    if amounts = [] then ⟨[], db, true⟩
    else
      match (answers i).zBalance with
      | none => ⟨[], db, false⟩
      | some zBalance =>
        if zBalance - transferFee < total amounts then ⟨[], db, false⟩
        else
          match (answers i).exchange.transferred with
          | none => ⟨[], db, false⟩
          | some operationId =>
            -- a page without a result is given up, and the next one is tried
            if operationId = "" then giveUp
            else
              match (answers i).operation with
              | .interrupted => ⟨[], db, false⟩
              | .cancelled | .failed | .unrecognized => giveUp
              | .success txId =>
                match persistPaymentsAsync config db page txId (outcomes i) with
                | none => ⟨amounts, db, false⟩
                | some db' =>
                  let later := payoutPages config answers outcomes (i + 1) rest db'
                  { later with sent := amounts ++ later.sent }

/-- `PayoutZSendManyAsync`. -/
def payoutZSendMany (config : PoolConfig) (db : Database) (balances : List Balance)
    (answers : Nat → PageAnswers) (outcomes : Nat → List TxOutcome) : Payout :=
  payoutPages config answers outcomes 0 (pages pageSize balances) db

section Recorded

variable {config : PoolConfig} {db : Database} {balances : List Balance}

/-- For every address the daemon was handed what its balance went down by. -/
def Recorded (config : PoolConfig) (db : Database) (payout : Payout) : Prop :=
  ∀ a, totalAt payout.sent a = db.balanceOf config.id a - payout.db.balanceOf config.id a

/-- The amount is not negative and has no more than the given decimal places. -/
def ExactAmount (places : Nat) (amount : Rat) : Prop :=
  0 ≤ amount ∧ ∃ n : Int, amount * 10 ^ places = n

/-- The balances of the pages in front of the first one that has nothing to pay. -/
def processed (places : Nat) (pages : List (List Balance)) : List Balance :=
  (pages.takeWhile fun page => amounts places page ≠ []).flatten

/-- What is reset by one transaction. -/
def resets (balances : List Balance) : List (String × Rat) :=
  balances.map fun b => (b.address, b.amount)

theorem amounts_append (places : Nat) (page rest : List Balance) :
    amounts places (page ++ rest) = amounts places page ++ amounts places rest := by
  simp [amounts]

theorem resets_append (page rest : List Balance) :
    resets (page ++ rest) = resets page ++ resets rest := by
  simp [resets]

/-- Sent and reset amounts agree exactly when rounding changes nothing. -/
theorem totalAt_amounts_eq_resets_iff {places : Nat}
    (hnodup : (balances.map Balance.address).Nodup) :
    (∀ a, totalAt (amounts places balances) a = totalAt (resets balances) a) ↔
      ∀ b ∈ balances, ExactAmount places b.amount := by
  have hbalance : ∀ b ∈ balances,
      (totalAt (amounts places balances) b.address = totalAt (resets balances) b.address ↔
        ExactAmount places b.amount) := by
    intro b hb
    rw [resets, totalAt_balances hnodup hb, ExactAmount, ← roundTo_eq_self_iff]
    by_cases hpos : 0 < b.amount
    · rw [totalAt_amounts_of_pos hnodup hb hpos]
      exact (and_iff_right hpos.le).symm
    · rw [totalAt_amounts_of_not_pos hnodup hb hpos]
      constructor
      · intro hzero
        rw [← hzero]
        exact ⟨le_refl 0, by rw [roundTo_eq_self_iff]; exact ⟨0, by simp⟩⟩
      · exact fun h => le_antisymm h.1 (not_lt.mp hpos)
  constructor
  · exact fun h b hb => (hbalance b hb).mp (h b.address)
  · intro h a
    by_cases hmem : ∃ b ∈ balances, b.address = a
    · obtain ⟨b, hb, rfl⟩ := hmem
      exact (hbalance b hb).mpr (h b hb)
    · rw [totalAt_amounts_of_not_mem hmem, resets, totalAt_balances_of_not_mem hmem]

/-- Recording a payment for several balances takes their amounts off. -/
theorem persistPaymentsAsync_some {txId : String} {outcomes : List TxOutcome} {db' : Database}
    (h : persistPaymentsAsync config db balances txId outcomes = some db') (a : String) :
    db'.balanceOf config.id a = db.balanceOf config.id a - totalAt (resets balances) a := by
  unfold persistPaymentsAsync at h
  split at h
  · cases h
  split at h
  · cases h
    rw [persistPayments_balanceOf, if_pos rfl, List.map_map]
    rfl
  · cases h

/-- Recording payments of their own does the same. -/
theorem persistEachPaymentAsync_some {paid : List (Balance × String)}
    {outcomes : List TxOutcome} {db' : Database}
    (h : persistEachPaymentAsync config db paid outcomes = some db') (a : String) :
    db'.balanceOf config.id a =
      db.balanceOf config.id a - totalAt (paid.map fun e => (e.1.address, e.1.amount)) a := by
  unfold persistEachPaymentAsync at h
  split at h
  · cases h
  split at h
  · cases h
    rw [persistPayments_balanceOf, if_pos rfl]
  · cases h

/-- The addresses of one transaction after the other are handed the rounded positive
amounts, and their balances are reset. -/
structure Resets (config : PoolConfig) (db : Database) (places : Nat) (paid : List Balance)
    (payout : Payout) : Prop where
  sent_eq : payout.sent = amounts places paid
  balanceOf_eq : ∀ a, payout.db.balanceOf config.id a =
    db.balanceOf config.id a - totalAt (resets paid) a

theorem Resets.recorded_iff {places : Nat} {paid : List Balance} {payout : Payout}
    (h : Resets config db places paid payout) (hnodup : (paid.map Balance.address).Nodup) :
    Recorded config db payout ↔ ∀ b ∈ paid, ExactAmount places b.amount := by
  rw [Recorded, ← totalAt_amounts_eq_resets_iff hnodup, h.sent_eq]
  refine forall_congr' fun a => ?_
  rw [h.balanceOf_eq, sub_sub_cancel]

end Recorded

section Pages

variable {config : PoolConfig} {db : Database} {balances : List Balance}

/-- The first pages hold the first balances. -/
theorem flatten_pages (size k : Nat) :
    ((List.range k).map fun i => (balances.drop (i * size)).take size).flatten =
      balances.take (k * size) := by
  induction k with
  | zero => simp
  | succ k ih =>
    rw [List.range_succ, List.map_append, List.flatten_append, ih, Nat.succ_mul, List.take_add]
    simp

theorem processed_sublist (places size : Nat) :
    (processed places (pages size balances)).Sublist balances := by
  have hflatten : (processed places (pages size balances)).Sublist (pages size balances).flatten :=
    (List.takeWhile_sublist _).flatten
  rw [pages, flatten_pages] at hflatten
  exact hflatten.trans (List.take_sublist _ _)

theorem processed_cons_of_eq_nil {places : Nat} {page : List Balance}
    (h : amounts places page = []) (rest : List (List Balance)) :
    processed places (page :: rest) = [] := by
  simp [processed, h]

theorem processed_cons_of_ne_nil {places : Nat} {page : List Balance}
    (h : amounts places page ≠ []) (rest : List (List Balance)) :
    processed places (page :: rest) = page ++ processed places rest := by
  simp [processed, h]

variable {answers : Nat → PageAnswers} {outcomes : Nat → List TxOutcome}

/-- A page of a completed payout has nothing to pay, or it is sent and recorded. -/
theorem payoutPages_cons_cases {i : Nat} {page : List Balance} {rest : List (List Balance)}
    (h : (payoutPages config answers outcomes i (page :: rest) db).completed = true) :
    (amounts decimalPlaces page = [] ∧
        payoutPages config answers outcomes i (page :: rest) db = ⟨[], db, true⟩) ∨
      (amounts decimalPlaces page ≠ [] ∧ ∃ txId db',
        persistPaymentsAsync config db page txId (outcomes i) = some db' ∧
        payoutPages config answers outcomes i (page :: rest) db =
          { payoutPages config answers outcomes (i + 1) rest db' with
            sent := amounts decimalPlaces page ++
              (payoutPages config answers outcomes (i + 1) rest db').sent }) := by
  rw [payoutPages] at h ⊢
  by_cases hamounts : amounts decimalPlaces page = []
  · exact .inl ⟨hamounts, if_pos hamounts⟩
  simp only [if_neg hamounts] at h ⊢
  refine .inr ⟨hamounts, ?_⟩
  split at h
  · cases h
  split at h
  · cases h
  split at h
  · cases h
  split at h
  · cases h
  split at h
  · cases h
  · cases h
  · cases h
  · cases h
  split at h
  · cases h
  · rename_i hpersist
    exact ⟨_, _, hpersist, by simp [*]⟩

/-- A completed payout has sent and reset the pages up to the first one that has nothing
to pay. -/
theorem payoutPages_resets {pages : List (List Balance)} {i : Nat}
    (h : (payoutPages config answers outcomes i pages db).completed = true) :
    Resets config db decimalPlaces (processed decimalPlaces pages)
      (payoutPages config answers outcomes i pages db) := by
  induction pages generalizing i db with
  | nil => exact ⟨rfl, fun a => by simp [payoutPages, processed, resets]⟩
  | cons page rest ih =>
    rcases payoutPages_cons_cases h with ⟨hamounts, heq⟩ | ⟨hamounts, txId, db', hpersist, heq⟩
    · rw [heq, processed_cons_of_eq_nil hamounts]
      exact ⟨rfl, fun a => by simp [resets]⟩
    · rw [heq] at h ⊢
      obtain ⟨hsent, hbalance⟩ := ih h
      rw [processed_cons_of_ne_nil hamounts]
      refine ⟨?_, fun a => ?_⟩
      · rw [amounts_append, ← hsent]
      · rw [hbalance, persistPaymentsAsync_some hpersist, resets_append, totalAt_append, sub_sub]

end Pages

section Routes

variable {config : PoolConfig} {db : Database} {balances : List Balance}

/-- A completed `sendmany` has sent and reset all balances. -/
theorem sendMany_resets {places : Nat} {exchange : Exchange} {outcomes : List TxOutcome}
    (h : (sendMany config db balances (amounts places balances) exchange outcomes).completed =
      true) :
    Resets config db places balances
      (sendMany config db balances (amounts places balances) exchange outcomes) := by
  rw [sendMany] at h ⊢
  cases htransferred : exchange.transferred with
  | none => simp [htransferred] at h
  | some txId =>
    cases hpersist : persistPaymentsAsync config db balances txId outcomes with
    | none => simp [htransferred, hpersist] at h
    | some db' =>
      simp only [hpersist]
      exact ⟨rfl, persistPaymentsAsync_some hpersist⟩

/-- Completed transfers to single addresses are recorded as they were sent. -/
theorem sendToAddresses_recorded {amounts : List (String × Rat)} {exchange : String → Exchange}
    {outcomes : List TxOutcome}
    (h : (sendToAddresses config db amounts exchange outcomes).completed = true) :
    Recorded config db (sendToAddresses config db amounts exchange outcomes) := by
  have hall : ((executed config amounts exchange).filter fun e => e.2 ≠ "").length =
      amounts.length → (executed config amounts exchange).filter (fun e => e.2 ≠ "") =
        executed config amounts exchange := by
    intro hlength
    refine List.filter_sublist.eq_of_length_le ?_
    rw [hlength]
    exact List.length_filterMap_le _ _
  rw [sendToAddresses] at h ⊢
  by_cases hnone : (executed config amounts exchange).filter (fun e => e.2 ≠ "") = []
  · simp only [if_pos hnone] at h ⊢
    have hexecuted : executed config amounts exchange = [] := by
      rw [← hall (of_decide_eq_true h), hnone]
    intro a
    simp only [hexecuted, List.map_nil, totalAt_nil, sub_self]
  · simp only [if_neg hnone] at h ⊢
    cases hpersist : persistEachPaymentAsync config db
        ((executed config amounts exchange).filter fun e => e.2 ≠ "") outcomes with
    | none =>
      simp only [hpersist] at h
      cases h
    | some db' =>
      simp only [hpersist] at h ⊢
      rw [hall (of_decide_eq_true h)] at hpersist
      intro a
      rw [persistEachPaymentAsync_some hpersist, sub_sub_cancel]

/-- The code paths that send and reset: those of the Bitcoin handler and `z_sendmany`. -/
inductive Route where
  | bitcoin (handler : Handler) (daemon : Daemon) (outcomes : List TxOutcome)
  | zSendMany (answers : Nat → PageAnswers) (outcomes : Nat → List TxOutcome)

/-- The payout of a route. -/
def Route.payout (config : PoolConfig) (db : Database) (balances : List Balance) :
    Route → Payout
  | .bitcoin handler daemon outcomes => payoutAsync config db handler balances daemon outcomes
  | .zSendMany answers outcomes => payoutZSendMany config db balances answers outcomes

/-- The balances that one transaction pays together with others, and their decimal places. -/
def Route.batched (balances : List Balance) : Route → Nat × List Balance
  | .bitcoin handler _ _ =>
    (handler.payoutDecimalPlaces,
      if handler.hasBrokenSendMany then []
      else processed handler.payoutDecimalPlaces [balances])
  | .zSendMany _ _ => (decimalPlaces, processed decimalPlaces (pages pageSize balances))

/-- **What was sent is recorded exactly if rounding changes no balance.** -/
theorem recorded_iff_exact (route : Route) (hnodup : (balances.map Balance.address).Nodup)
    (hcompleted : (route.payout config db balances).completed = true) :
    Recorded config db (route.payout config db balances) ↔
      ∀ b ∈ (route.batched balances).2, ExactAmount (route.batched balances).1 b.amount := by
  cases route with
  | zSendMany answers outcomes =>
    exact (payoutPages_resets hcompleted).recorded_iff
      (((processed_sublist _ _).map _).nodup hnodup)
  | bitcoin handler daemon outcomes =>
    simp only [Route.payout, Route.batched] at hcompleted ⊢
    have hamounts := nodup_amounts handler.payoutDecimalPlaces hnodup
    rw [payoutAsync] at hcompleted ⊢
    simp only [hamounts, not_true_eq_false, if_false] at hcompleted ⊢
    by_cases hnil : amounts handler.payoutDecimalPlaces balances = []
    · simp [hnil, processed_cons_of_eq_nil hnil, Recorded]
    simp only [if_neg hnil] at hcompleted ⊢
    by_cases hbroken : handler.hasBrokenSendMany = true
    · simp only [if_pos hbroken] at hcompleted ⊢
      exact iff_of_true (sendToAddresses_recorded hcompleted) (by simp)
    · simp only [if_neg hbroken] at hcompleted ⊢
      rw [processed_cons_of_ne_nil hnil]
      simp only [processed, List.takeWhile_nil, List.flatten_nil, List.append_nil]
      exact (sendMany_resets hcompleted).recorded_iff hnodup

/-- A pool that pays out from one coin on. -/
def examplePool : PoolConfig := .plain "ZEC" [] .solo

/-- A `z_sendmany` that succeeds. -/
def succeeding : Route :=
  .zSendMany (fun _ => ⟨some 5, ⟨.success "opid", false, .error 0⟩, .success "tx"⟩) fun _ => []

/-- One and a half coins are sent and recorded. -/
theorem recorded_three_halves :
    Recorded examplePool { balances := [⟨"pool", "t1", 3 / 2⟩] }
      (succeeding.payout examplePool { balances := [⟨"pool", "t1", 3 / 2⟩] }
        [⟨"pool", "t1", 3 / 2⟩]) := by
  refine (recorded_iff_exact succeeding (by decide) (by decide +kernel)).mpr ?_
  have hbatched : succeeding.batched [⟨"pool", "t1", 3 / 2⟩] = (8, [⟨"pool", "t1", 3 / 2⟩]) := by
    decide +kernel
  rw [hbatched]
  intro b hb
  rw [List.mem_singleton.mp hb]
  exact ⟨by norm_num, 150000000, by norm_num⟩

/-- Of a balance with nine decimal places eight are sent, and all of it is reset. -/
theorem not_recorded_nine_places :
    (succeeding.payout examplePool { balances := [⟨"pool", "t1", 1000000004 / 1000000000⟩] }
        [⟨"pool", "t1", 1000000004 / 1000000000⟩]).completed = true ∧
      ¬Recorded examplePool { balances := [⟨"pool", "t1", 1000000004 / 1000000000⟩] }
        (succeeding.payout examplePool
          { balances := [⟨"pool", "t1", 1000000004 / 1000000000⟩] }
          [⟨"pool", "t1", 1000000004 / 1000000000⟩]) := by
  refine ⟨by decide +kernel, fun h => ?_⟩
  have hsent := h "t1"
  revert hsent
  decide +kernel

end Routes

end HashStorm.Equihash
