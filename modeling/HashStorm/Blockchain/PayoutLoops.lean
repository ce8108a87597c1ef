import HashStorm.Blockchain.Bitcoin.PayoutCycles
import HashStorm.Blockchain.Equihash.PayoutHandler

/-!
# Transfers and what is recorded of them

A payout handler asks a daemon to send coins and resets balances when the answer
has a transaction id. It does so for one balance after the other, for some
balances at once, or it makes all transfers first. A payout pays for addresses if
it resets balances of theirs only, and if what it sends to an address and what it
leaves there are covered by what the address had.
-/

namespace HashStorm.Payouts

open Payments Dictionary Bitcoin Equihash

/-- How a request to send coins ends: nothing is sent, or the coins are sent and the answer is
lost, or it has a transaction id, which may be missing. -/
inductive Reply where
  | refused
  | lost
  | executed (txId : Option String)
  deriving DecidableEq, Repr

/-- The coins are sent. -/
def Reply.sends : Reply → Bool
  | .refused => false
  | .lost | .executed _ => true

/-- The request is refused, or it is answered with an accepted transaction id and the balances are
reset. -/
def Reply.Recorded (accepts : String → Bool) (outcomes : List TxOutcome) : Reply → Prop
  | .refused => True
  | .lost => False
  | .executed txId => txId.getD "" ≠ "" ∧ accepts (txId.getD "") = true ∧
      faultPolicy retryCount outcomes = true

instance (accepts : String → Bool) (outcomes : List TxOutcome) :
    DecidablePred (Reply.Recorded accepts outcomes)
  | .refused => isTrue trivial
  | .lost => isFalse id
  | .executed _ => inferInstanceAs (Decidable (_ ∧ _ ∧ _))

section Pays

variable (config : PoolConfig) (db : Database)

/-- What is taken from the balances that are reset. -/
def taken (paid : List (Balance × String)) : List (String × Rat) :=
  paid.map fun e => (e.1.address, e.1.amount)

/-- The payout resets balances of the addresses, none below zero, and what it sends is covered by
them. -/
structure Pays (addresses : List String) (payout : Payout) : Prop where
  resets : ∃ paid, payout.db = persistPayments config db paid ∧
    (∀ e ∈ paid, e.1.address ∈ addresses) ∧
    ∀ a, totalAt (taken paid) a ≤ max (db.balanceOf config.id a) 0
  covered : payout.Covered config db

variable {config db} {addresses more : List String} {payout : Payout} {balances : List Balance}

theorem pays_nothing (completed : Bool) : Pays config db addresses ⟨[], db, completed⟩ where
  resets := ⟨[], rfl, by simp, fun a => by simp [taken]⟩
  covered := covered_nothing completed

theorem pays_of_unsent {sent : List (String × Rat)} (h : ∀ a, totalAt sent a ≤ 0)
    (completed : Bool) : Pays config db addresses ⟨sent, db, completed⟩ where
  resets := ⟨[], rfl, by simp, fun a => by simp [taken]⟩
  covered a := by
    have hsent := h a
    simp only
    linarith

theorem Pays.subset (h : Pays config db addresses payout) (hsub : addresses ⊆ more) :
    Pays config db more payout where
  resets := h.resets.imp fun _ hpaid => ⟨hpaid.1, fun e he => hsub (hpaid.2.1 e he), hpaid.2.2⟩
  covered := h.covered

theorem persistPayments_append (config : PoolConfig) (db : Database)
    (paid paid' : List (Balance × String)) :
    persistPayments config db (paid ++ paid') =
      persistPayments config (persistPayments config db paid) paid' :=
  List.foldl_append

/-- The balances go down by what is taken. -/
theorem balanceOf_persistPayments (paid : List (Balance × String)) (a : String) :
    (persistPayments config db paid).balanceOf config.id a =
      db.balanceOf config.id a - totalAt (taken paid) a := by
  rw [persistPayments_balanceOf, if_pos rfl, taken]

/-- What two payouts pay, one after the other. -/
theorem Pays.append (h : Pays config db addresses payout) {later : Payout}
    (h' : Pays config payout.db more later) (completed : Bool) :
    Pays config db (addresses ++ more) ⟨payout.sent ++ later.sent, later.db, completed⟩ := by
  obtain ⟨paid, hdb, hpaid, htaken⟩ := h.resets
  obtain ⟨paid', hdb', hpaid', htaken'⟩ := h'.resets
  constructor
  · refine ⟨paid ++ paid', ?_, fun e he => ?_, fun a => ?_⟩
    · rw [persistPayments_append, ← hdb, hdb']
    · rcases List.mem_append.mp he with he | he
      · exact List.mem_append_left _ (hpaid e he)
      · exact List.mem_append_right _ (hpaid' e he)
    · have hfirst := htaken a
      have hlater := htaken' a
      rw [hdb, balanceOf_persistPayments] at hlater
      have happend : totalAt (taken (paid ++ paid')) a =
          totalAt (taken paid) a + totalAt (taken paid') a := by
        rw [taken, List.map_append, totalAt_append]
        rfl
      rw [happend]
      rcases max_cases (db.balanceOf config.id a - totalAt (taken paid) a) 0 with hmax | hmax <;>
        linarith [le_max_left (db.balanceOf config.id a) 0]
  · intro a
    have hfirst := h.covered a
    have hlater := h'.covered a
    rw [totalAt_append]
    linarith

/-- Balances of other addresses stay. -/
theorem Pays.balanceOf_eq (h : Pays config db addresses payout) {a : String}
    (ha : a ∉ addresses) (p : String) : payout.db.balanceOf p a = db.balanceOf p a := by
  obtain ⟨paid, hdb, hpaid, -⟩ := h.resets
  have hnone : totalAt (taken paid) a = 0 := by
    refine totalAt_of_not_mem fun hmem => ha ?_
    obtain ⟨_, hentry, rfl⟩ := List.mem_map.mp hmem
    obtain ⟨e, he, rfl⟩ := List.mem_map.mp hentry
    exact hpaid e he
  rw [taken] at hnone
  rw [hdb, persistPayments_balanceOf, hnone, ite_self, sub_zero]

/-- No balance becomes negative. -/
theorem Pays.nonneg (h : Pays config db addresses payout) {p a : String}
    (hnonneg : 0 ≤ db.balanceOf p a) : 0 ≤ payout.db.balanceOf p a := by
  obtain ⟨paid, hdb, -, htaken⟩ := h.resets
  rw [hdb, persistPayments_balanceOf]
  split
  · rename_i hp
    subst hp
    have hle := htaken a
    rw [max_eq_left hnonneg, taken] at hle
    exact sub_nonneg.mpr hle
  · rwa [sub_zero]

/-- Every address gets no more than is reset, and a balance is reset as a whole or not at all. -/
theorem pays_of_resets {paid : List (Balance × String)} {sent : List (String × Rat)}
    (hpaid : ∀ e ∈ paid, e.1.address ∈ addresses)
    (hreset : ∀ a, totalAt (taken paid) a = 0 ∨
      totalAt (taken paid) a = db.balanceOf config.id a)
    (hsent : ∀ a, totalAt sent a ≤ max (totalAt (taken paid) a) 0) (completed : Bool) :
    Pays config db addresses ⟨sent, persistPayments config db paid, completed⟩ where
  resets := by
    refine ⟨paid, rfl, hpaid, fun a => ?_⟩
    rcases hreset a with hnone | hall
    · rw [hnone]
      exact le_max_right _ _
    · rw [hall]
      exact le_max_left _ _
  covered := by
    intro a
    have hle := hsent a
    simp only [balanceOf_persistPayments]
    rcases hreset a with hnone | hall
    · rw [hnone, max_self] at hle
      rw [hnone, sub_zero]
      linarith
    · rw [hall] at hle
      rw [hall, sub_self, max_self, add_zero]
      exact hle

/-- Balances of different addresses are reset as a whole. -/
theorem totalAt_resets (hnodup : (balances.map Balance.address).Nodup)
    (hbalance : ∀ b ∈ balances, db.balanceOf config.id b.address = b.amount) (a : String) :
    totalAt (resets balances) a = 0 ∨ totalAt (resets balances) a = db.balanceOf config.id a := by
  by_cases hmem : ∃ b ∈ balances, b.address = a
  · obtain ⟨b, hb, rfl⟩ := hmem
    right
    rw [hbalance b hb]
    exact totalAt_balances hnodup hb
  · exact Or.inl (totalAt_balances_of_not_mem hmem)

end Pays

section Together

variable (config : PoolConfig) (db : Database)

/-- One transfer for some balances; they are reset when the answer has an accepted transaction
id. -/
def payTogether (balances : List Balance) (coins : List (String × Rat)) (accepts : String → Bool)
    (reply : Reply) (outcomes : List TxOutcome) : Payout :=
  match reply with
  | .refused => ⟨[], db, false⟩
  | .lost => ⟨coins, db, false⟩
  | .executed txId =>
    if accepts (txId.getD "") then
      match persistPaymentsAsync config db balances (txId.getD "") outcomes with
      | none => ⟨coins, db, false⟩
      | some db' => ⟨coins, db', true⟩
    else ⟨coins, db, false⟩

variable {config db} {balances : List Balance} {coins : List (String × Rat)}
  {accepts : String → Bool} {reply : Reply} {outcomes : List TxOutcome}

/-- A recorded transfer pays for the balances. -/
theorem pays_payTogether (hnodup : (balances.map Balance.address).Nodup)
    (hbalance : ∀ b ∈ balances, db.balanceOf config.id b.address = b.amount)
    (hcoins : ∀ a, totalAt coins a ≤ max (totalAt (resets balances) a) 0)
    (hrecorded : reply.Recorded accepts outcomes) :
    Pays config db (balances.map Balance.address)
      (payTogether config db balances coins accepts reply outcomes) := by
  cases reply with
  | refused => exact pays_nothing false
  | lost => exact hrecorded.elim
  | executed txId =>
    obtain ⟨hne, haccepts, hpersist⟩ := hrecorded
    have hresets : taken (balances.map fun b => (b, txId.getD "")) = resets balances :=
      List.map_map
    simp only [payTogether, haccepts, persistPaymentsAsync, if_neg hne, if_pos hpersist, if_true]
    refine pays_of_resets (fun e he => ?_) ?_ ?_ true
    · obtain ⟨b, hb, rfl⟩ := List.mem_map.mp he
      exact List.mem_map_of_mem hb
    · rw [hresets]
      exact totalAt_resets hnodup hbalance
    · rw [hresets]
      exact hcoins

/-- What is sent for each of the balances is at most its amount. -/
theorem totalAt_coins_le (coinsFor : Balance → Option Rat)
    (hcoins : ∀ b ∈ balances, ∀ c ∈ coinsFor b, c ≤ max b.amount 0)
    (hnodup : (balances.map Balance.address).Nodup) (a : String) :
    totalAt (balances.filterMap fun b => (coinsFor b).map fun c => (b.address, c)) a ≤
      max (totalAt (resets balances) a) 0 := by
  have hsub : ((balances.filterMap fun b => (coinsFor b).map fun c => (b.address, c)).map
      Prod.fst).Sublist (balances.map Balance.address) := by
    clear hcoins hnodup
    induction balances with
    | nil => exact List.Sublist.refl _
    | cons b balances ih =>
      rw [List.filterMap_cons]
      cases coinsFor b with
      | none => exact ih.cons _
      | some c => exact ih.cons_cons _
  by_cases hmem : a ∈ (balances.filterMap fun b => (coinsFor b).map fun c =>
      (b.address, c)).map Prod.fst
  · obtain ⟨e, he, rfl⟩ := List.mem_map.mp hmem
    rw [totalAt_of_mem (hsub.nodup hnodup) he]
    obtain ⟨b, hb, hentry⟩ := List.mem_filterMap.mp he
    obtain ⟨c, hc, rfl⟩ := Option.map_eq_some_iff.mp hentry
    rw [resets, totalAt_balances hnodup hb]
    exact hcoins b hb c hc
  · rw [totalAt_of_not_mem hmem]
    exact le_max_right _ _

end Together

section Loop

variable {α : Type*}

/-- A loop over payments. Each of them says whether the loop goes on behind it. -/
def payLoop (pay : Nat → α → Database → Payout × Bool) : Nat → List α → Database → Payout
  | _, [], db => ⟨[], db, true⟩
  | i, x :: rest, db =>
    let (payout, goesOn) := pay i x db
    if goesOn then
      let later := payLoop pay (i + 1) rest payout.db
      ⟨payout.sent ++ later.sent, later.db, payout.completed && later.completed⟩
    else payout

/-- A loop pays for the balances that its payments pay for. -/
theorem pays_payLoop {config : PoolConfig} {pay : Nat → α → Database → Payout × Bool}
    (owned : α → List Balance) {xs : List α} {start : Nat} {db : Database}
    (hpay : ∀ i x db, x ∈ xs → i < start + xs.length →
      (∀ b ∈ owned x, db.balanceOf config.id b.address = b.amount) →
        Pays config db ((owned x).map Balance.address) (pay i x db).1)
    (hnodup : ((xs.flatMap owned).map Balance.address).Nodup)
    (hbalance : ∀ b ∈ xs.flatMap owned, db.balanceOf config.id b.address = b.amount) :
    Pays config db ((xs.flatMap owned).map Balance.address) (payLoop pay start xs db) := by
  induction xs generalizing start db with
  | nil => exact pays_nothing true
  | cons x rest ih =>
    rw [List.flatMap_cons] at hbalance
    rw [List.flatMap_cons, List.map_append] at hnodup ⊢
    obtain ⟨-, hrest, hdisjoint⟩ := List.nodup_append.mp hnodup
    have hfirst := hpay start x db List.mem_cons_self (by simp) fun b hb =>
      hbalance b (List.mem_append_left _ hb)
    have hlater := @ih (start + 1) (pay start x db).1.db
      (fun i y db hy hi => hpay i y db (List.mem_cons_of_mem _ hy)
        (by rw [List.length_cons]; omega)) hrest
      (fun b hb => by
        rw [hfirst.balanceOf_eq fun hmem => hdisjoint _ hmem _ (List.mem_map_of_mem hb) rfl]
        exact hbalance b (List.mem_append_right _ hb))
    simp only [payLoop]
    split
    · exact hfirst.append hlater _
    · exact hfirst.subset (List.subset_append_left _ _)

/-- A loop over the balances that sends and records one after the other, and goes on whatever
happens. -/
def payEach (config : PoolConfig) (coins : Rat → Option Rat) (accepts : String → Bool)
    (reply : String → Reply) (outcomes : String → List TxOutcome) (balances : List Balance)
    (db : Database) : Payout :=
  payLoop (fun _ balance db =>
    (match coins balance.amount with
      | none => ⟨[], db, false⟩
      | some c => payTogether config db [balance] [(balance.address, c)] accepts
          (reply balance.address) (outcomes balance.address), true)) 0 balances db

/-- When every transfer is recorded, the loop pays for its balances. -/
theorem pays_payEach {config : PoolConfig} {coins : Rat → Option Rat} {accepts : String → Bool}
    {reply : String → Reply} {outcomes : String → List TxOutcome} {balances : List Balance}
    {db : Database} (hnodup : (balances.map Balance.address).Nodup)
    (hbalance : ∀ b ∈ balances, db.balanceOf config.id b.address = b.amount)
    (hcoins : ∀ amount, ∀ c ∈ coins amount, c ≤ max amount 0)
    (hrecorded : ∀ b ∈ balances, (reply b.address).Recorded accepts (outcomes b.address)) :
    Pays config db (balances.map Balance.address)
      (payEach config coins accepts reply outcomes balances db) := by
  have hsingle : balances.flatMap (fun b => [b]) = balances := List.flatMap_singleton' balances
  rw [← hsingle] at hnodup hbalance
  have hpays := @pays_payLoop _ config (fun _ balance db =>
    (match coins balance.amount with
      | none => ⟨[], db, false⟩
      | some c => payTogether config db [balance] [(balance.address, c)] accepts
          (reply balance.address) (outcomes balance.address), true)) (fun b => [b]) balances 0 db
    (fun i b db hb _ hamount => by
      cases hc : coins b.amount with
      | none => exact pays_nothing false
      | some c =>
        refine pays_payTogether (List.nodup_singleton _) hamount (fun a => ?_) (hrecorded b hb)
        have hle := hcoins b.amount c hc
        simp only [resets, List.map_cons, List.map_nil, totalAt_cons, totalAt_nil, add_zero]
        split
        · exact hle
        · exact le_max_right _ _) hnodup hbalance
  rw [hsingle] at hpays
  exact hpays

end Loop

section Collected

variable {α : Type*} (config : PoolConfig) (db : Database)

/-- The positive balances, by address. -/
def positiveAmounts (balances : List Balance) : List (String × Rat) :=
  (balances.filter fun x => 0 < x.amount).map fun x => (x.address, x.amount)

/-- The transfers that are made for some amounts: their coins are sent. An amount that does not
fit its type is an exception in its own transfer. -/
def transfers (amounts : List (String × Rat)) (coins : Rat → Option Rat) (reply : String → Reply) :
    List (String × Rat) :=
  amounts.filterMap fun (address, amount) =>
    (coins amount).bind fun c => if (reply address).sends then some (address, c) else none

/-- The transfers that are noted with a transaction id. -/
def successBalances (amounts : List (String × Rat)) (coins : Rat → Option Rat)
    (txIdOf : String → Rat → Reply → Option String) (reply : String → Reply) :
    List (Balance × String) :=
  amounts.filterMap fun (address, amount) =>
    (coins amount).bind fun _ => (txIdOf address amount (reply address)).map fun txId =>
      (⟨config.id, address, amount⟩, txId)

/-- One transfer for each address; the balances of those that are noted are reset at the end. -/
def payCollected (amounts : List (String × Rat)) (coins : Rat → Option Rat)
    (txIdOf : String → Rat → Reply → Option String) (reply : String → Reply)
    (outcomes : List TxOutcome) : Payout :=
  let sent := transfers amounts coins reply
  let paid := successBalances config amounts coins txIdOf reply
  let completed := paid.length = amounts.length
  if paid = [] then ⟨sent, db, completed⟩
  else
    match persistEachPaymentAsync config db paid outcomes with
    | none => ⟨sent, db, false⟩
    | some db' => ⟨sent, db', completed⟩

variable {config db} {amounts : List (String × Rat)} {coins : Rat → Option Rat}
  {txIdOf : String → Rat → Reply → Option String} {reply : String → Reply}
  {outcomes : List TxOutcome}

theorem sublist_successBalances (config : PoolConfig) (amounts : List (String × Rat))
    (coins : Rat → Option Rat) (txIdOf : String → Rat → Reply → Option String)
    (reply : String → Reply) :
    (taken (successBalances config amounts coins txIdOf reply)).Sublist amounts := by
  induction amounts with
  | nil => exact List.Sublist.refl _
  | cons e amounts ih =>
    simp only [taken, successBalances, List.filterMap_cons] at ih ⊢
    cases coins e.2 with
    | none => exact ih.cons _
    | some c =>
      cases htx : txIdOf e.1 e.2 (reply e.1) with
      | none => simpa [htx] using ih.cons e
      | some txId => simpa [htx] using ih.cons_cons e

/-- Entry by entry, and so altogether. -/
theorem totalAt_filterMap_le {xs : List α} {f g : α → Option (String × Rat)} {a : String}
    (h : ∀ x ∈ xs, totalAt (f x).toList a ≤ totalAt (g x).toList a) :
    totalAt (xs.filterMap f) a ≤ totalAt (xs.filterMap g) a := by
  induction xs with
  | nil => exact le_refl _
  | cons x xs ih =>
    obtain ⟨hx, hrest⟩ := List.forall_mem_cons.mp h
    have hcons : ∀ f : α → Option (String × Rat),
        (x :: xs).filterMap f = (f x).toList ++ xs.filterMap f := by
      intro f
      rw [List.filterMap_cons]
      cases f x <;> rfl
    rw [hcons, hcons, totalAt_append, totalAt_append]
    exact add_le_add hx (ih hrest)

/-- When every transfer is noted, every address gets at most what is reset. -/
theorem totalAt_transfers_le (config : PoolConfig) (hpos : ∀ e ∈ amounts, 0 < e.2)
    (hcoins : ∀ e ∈ amounts, (reply e.1).sends = true → ∀ c ∈ coins e.2, c ≤ e.2)
    (hnoted : ∀ e ∈ amounts, (reply e.1).sends = true → txIdOf e.1 e.2 (reply e.1) ≠ none)
    (a : String) : totalAt (transfers amounts coins reply) a ≤
      totalAt (taken (successBalances config amounts coins txIdOf reply)) a := by
  rw [transfers, taken, successBalances, List.map_filterMap]
  refine totalAt_filterMap_le ?_
  rintro ⟨address, amount⟩ he
  have hamount := hpos _ he
  have hle := hcoins _ he
  have hsome := hnoted _ he
  dsimp only at hamount hle hsome ⊢
  cases hc : coins amount with
  | none => simp
  | some c =>
    simp only [Option.bind_some]
    cases hsends : (reply address).sends with
    | true =>
      obtain ⟨txId, htx⟩ := Option.ne_none_iff_exists'.mp (hsome hsends)
      simp only [htx, Option.map_some, Option.toList_some, if_true, totalAt_cons, totalAt_nil,
        add_zero]
      split
      · exact hle hsends c hc
      · exact le_refl _
    | false =>
      cases txIdOf address amount (reply address) with
      | none => simp
      | some txId =>
        simp only [Option.map_some, Option.toList_some, Bool.false_eq_true, if_false,
          Option.toList_none, totalAt_cons, totalAt_nil, add_zero]
        split
        · exact hamount.le
        · exact le_refl _

/-- When every transfer is noted and the record succeeds, the payout pays for the addresses. -/
theorem pays_payCollected (hnodup : (amounts.map Prod.fst).Nodup)
    (hbalance : ∀ e ∈ amounts, db.balanceOf config.id e.1 = e.2) (hpos : ∀ e ∈ amounts, 0 < e.2)
    (hcoins : ∀ e ∈ amounts, (reply e.1).sends = true → ∀ c ∈ coins e.2, c ≤ e.2)
    (hnoted : ∀ e ∈ amounts, (reply e.1).sends = true →
      txIdOf e.1 e.2 (reply e.1) ≠ none ∧ faultPolicy retryCount outcomes = true) :
    Pays config db (amounts.map Prod.fst)
      (payCollected config db amounts coins txIdOf reply outcomes) := by
  have hle := totalAt_transfers_le config hpos hcoins fun e he hsends => (hnoted e he hsends).1
  have hsub := sublist_successBalances config amounts coins txIdOf reply
  have hkeys := (hsub.map Prod.fst).nodup hnodup
  simp only [payCollected]
  split
  · rename_i hnone
    refine pays_of_unsent (fun a => ?_) _
    simpa [hnone, taken] using hle a
  rename_i hsome
  by_cases hpersist : faultPolicy retryCount outcomes = true
  · simp only [persistEachPaymentAsync, if_neg hsome, if_pos hpersist]
    refine pays_of_resets (fun e he => ?_) (fun a => ?_)
      (fun a => (hle a).trans (le_max_left _ _)) _
    · exact (hsub.map Prod.fst).subset
        (List.mem_map_of_mem (List.mem_map_of_mem he))
    · by_cases hmem : a ∈ (taken (successBalances config amounts coins txIdOf reply)).map Prod.fst
      · obtain ⟨e, he, rfl⟩ := List.mem_map.mp hmem
        right
        rw [totalAt_of_mem hkeys he, hbalance e (hsub.subset he)]
      · exact Or.inl (totalAt_of_not_mem hmem)
  · -- no transfer was executed
    have hunsent : transfers amounts coins reply = [] := by
      rw [transfers, List.filterMap_eq_nil_iff]
      rintro ⟨address, amount⟩ he
      have hrefused : (reply address).sends = false := by
        by_contra hsends
        exact hpersist (hnoted _ he (by simpa using hsends)).2
      cases coins amount <;> simp [hrefused]
    simp only [persistEachPaymentAsync, if_neg hsome, if_neg hpersist]
    exact pays_of_unsent (fun a => by rw [hunsent, totalAt_nil]) _

theorem mem_positiveAmounts {balances : List Balance} {e : String × Rat} :
    e ∈ positiveAmounts balances ↔ ∃ b ∈ balances, 0 < b.amount ∧ e = (b.address, b.amount) := by
  simp only [positiveAmounts, List.mem_map, List.mem_filter, decide_eq_true_eq]
  constructor
  · rintro ⟨b, ⟨hb, hpos⟩, rfl⟩
    exact ⟨b, hb, hpos, rfl⟩
  · rintro ⟨b, hb, hpos, rfl⟩
    exact ⟨b, ⟨hb, hpos⟩, rfl⟩

/-- A payout of the positive balances pays for the balances when every transfer is noted, the
record succeeds, and no transfer is above its amount. -/
theorem pays_positiveAmounts {balances : List Balance}
    (hnodup : (balances.map Balance.address).Nodup)
    (hbalance : ∀ b ∈ balances, db.balanceOf config.id b.address = b.amount)
    (hsafe : ∀ b ∈ balances, 0 < b.amount → (reply b.address).sends = true →
      txIdOf b.address b.amount (reply b.address) ≠ none ∧
        faultPolicy retryCount outcomes = true ∧ ∀ c ∈ coins b.amount, c ≤ b.amount) :
    Pays config db (balances.map Balance.address)
      (payCollected config db (positiveAmounts balances) coins txIdOf reply outcomes) := by
  have hkeys : ((positiveAmounts balances).map Prod.fst).Sublist
      (balances.map Balance.address) := by
    rw [positiveAmounts, List.map_map]
    exact List.filter_sublist.map _
  have hpays := @pays_payCollected config db (positiveAmounts balances) coins txIdOf reply outcomes
    (hkeys.nodup hnodup)
    (fun e he => by
      obtain ⟨b, hb, -, rfl⟩ := mem_positiveAmounts.mp he
      exact hbalance b hb)
    (fun e he => by
      obtain ⟨b, -, hpos, rfl⟩ := mem_positiveAmounts.mp he
      exact hpos)
    (fun e he hsends => by
      obtain ⟨b, hb, hpos, rfl⟩ := mem_positiveAmounts.mp he
      exact (hsafe b hb hpos hsends).2.2)
    (fun e he hsends => by
      obtain ⟨b, hb, hpos, rfl⟩ := mem_positiveAmounts.mp he
      exact ⟨(hsafe b hb hpos hsends).1, (hsafe b hb hpos hsends).2.1⟩)
  exact hpays.subset hkeys.subset

end Collected

end HashStorm.Payouts
