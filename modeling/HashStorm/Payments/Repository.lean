import HashStorm.Contracts.ShareEvent
import HashStorm.Lib.Paging
import Mathlib.Algebra.BigOperators.Group.List.Basic
import Mathlib.Algebra.Order.Ring.Rat

/-!
# The payment tables

The rows the payout code works on, and the repositories it uses as the SQL they
run. `double` and `decimal` columns are exact rationals. A share carries the fact
that its difficulties are not negative: every row is written from validated work.
The table has no key, so `row` tells equal rows apart; no query looks at it.
-/

namespace HashStorm.Payments

open Contracts Paging

/-- A row of `shares`. -/
structure Share where
  row : Nat
  poolId : String
  miner : String
  difficulty : Rat
  networkDifficulty : Rat
  created : DateTime
  difficulty_nonneg : 0 ≤ difficulty := by decide
  networkDifficulty_nonneg : 0 ≤ networkDifficulty := by decide
  deriving DecidableEq, Repr

/-- A share of difficulty one, at a network difficulty of one. -/
def Share.unit (poolId miner : String) (created : DateTime) : Share where
  row := 0
  poolId := poolId
  miner := miner
  difficulty := 1
  networkDifficulty := 1
  created := created

/-- `BlockStatus`. -/
inductive BlockStatus where
  | pending
  | orphaned
  | confirmed
  deriving DecidableEq, Repr

/-- A row of `blocks`. -/
structure Block where
  id : Nat
  poolId : String
  status : BlockStatus
  transactionConfirmationData : String
  miner : String
  reward : Rat
  confirmationProgress : Rat
  created : DateTime
  effort : Option Rat := none
  minerEffort : Option Rat := none
  deriving DecidableEq, Repr

/-- A row of `balances`. -/
structure Balance where
  poolId : String
  address : String
  amount : Rat
  deriving DecidableEq, Repr

/-- A row of `balance_changes`. -/
structure BalanceChange where
  poolId : String
  address : String
  amount : Rat
  deriving DecidableEq, Repr

/-- A row of `payments`. -/
structure Payment where
  poolId : String
  coin : String
  address : String
  amount : Rat
  transactionConfirmationData : String
  deriving DecidableEq, Repr

/-- The tables of the payout code. -/
structure Database where
  shares : List Share := []
  blocks : List Block := []
  balances : List Balance := []
  balanceChanges : List BalanceChange := []
  payments : List Payment := []
  deriving DecidableEq, Repr

section Shares

/-- `ORDER BY created DESC`. -/
def newestFirst (a b : Share) : Prop := b.created ≤ a.created

instance : DecidableRel newestFirst := fun a b => Nat.decLe b.created a.created

instance : IsTrans Share newestFirst := ⟨fun _ _ _ hab hbc => Nat.le_trans hbc hab⟩

instance : Std.Total newestFirst := ⟨fun a b => Nat.le_total b.created a.created⟩

/-- `ShareRepository.ReadSharesBeforeAsync`. -/
def readSharesBefore (shares : List Share) (poolId : String) (before : DateTime)
    (inclusive : Bool) (pageSize : Nat) : List Share :=
  ((shares.filter fun s => s.poolId = poolId ∧
    if inclusive then s.created ≤ before else s.created < before).insertionSort
      newestFirst).take pageSize

/-- `ShareRepository.CountSharesBeforeAsync`. -/
def countSharesBefore (shares : List Share) (poolId : String) (before : DateTime) : Nat :=
  (shares.filter fun s => s.poolId = poolId ∧ s.created < before).length

/-- `ShareRepository.DeleteSharesBeforeAsync`. -/
def deleteSharesBefore (shares : List Share) (poolId : String) (before : DateTime) : List Share :=
  shares.filter fun s => ¬(s.poolId = poolId ∧ s.created < before)

/-- `ShareRepository.CountSharesByMinerAsync`. -/
def countSharesByMiner (shares : List Share) (poolId miner : String) : Nat :=
  (shares.filter fun s => s.poolId = poolId ∧ s.miner = miner).length

/-- `ShareRepository.DeleteSharesByMinerAsync`. -/
def deleteSharesByMiner (shares : List Share) (poolId miner : String) : List Share :=
  shares.filter fun s => ¬(s.poolId = poolId ∧ s.miner = miner)

/-- The shares of a pool in the order in which a query returns them. -/
def poolShares (shares : List Share) (poolId : String) : List Share :=
  (shares.filter fun s => s.poolId = poolId).insertionSort newestFirst

theorem descending_poolShares (shares : List Share) (poolId : String) :
    Descending Share.created (poolShares shares poolId) :=
  List.pairwise_insertionSort newestFirst _

/-- A page is cut out of the ordered shares of the pool. -/
theorem readSharesBefore_eq (shares : List Share) (poolId : String) (c : Cursor DateTime)
    (pageSize : Nat) :
    readSharesBefore shares poolId c.before c.inclusive pageSize =
      ((poolShares shares poolId).filter (c.admits Share.created)).take pageSize := by
  rw [readSharesBefore, poolShares, filter_insertionSort, List.filter_filter]
  congr 2
  apply List.filter_congr
  intro s _
  cases hi : c.inclusive <;> simp [Cursor.admits, hi, Bool.and_comm]

end Shares

section Balances

/-- The balance of the address is changed, or inserted. -/
def addToBalance (balances : List Balance) (poolId address : String) (amount : Rat) :
    List Balance :=
  if ∃ b ∈ balances, b.poolId = poolId ∧ b.address = address then
    balances.map fun b =>
      if b.poolId = poolId ∧ b.address = address then { b with amount := b.amount + amount }
      else b
  else balances ++ [⟨poolId, address, amount⟩]

/-- `BalanceRepository.AddAmountAsync`. -/
def Database.addAmount (db : Database) (poolId address : String) (amount : Rat) : Database :=
  { db with
    balanceChanges := db.balanceChanges ++ [⟨poolId, address, amount⟩]
    balances := addToBalance db.balances poolId address amount }

/-- Several amounts are added, one after the other. -/
def Database.addAmounts (db : Database) (poolId : String) (amounts : List (String × Rat)) :
    Database :=
  amounts.foldl (fun db e => db.addAmount poolId e.1 e.2) db

/-- The sum of the balance changes of an address. -/
def Database.changed (db : Database) (poolId address : String) : Rat :=
  ((db.balanceChanges.filter fun c => c.poolId = poolId ∧ c.address = address).map
    BalanceChange.amount).sum

/-- Every balance is the sum of the recorded changes, and every change has its balance. -/
structure Database.Ledger (db : Database) : Prop where
  amount_eq : ∀ b ∈ db.balances, b.amount = db.changed b.poolId b.address
  exists_balance : ∀ c ∈ db.balanceChanges,
    ∃ b ∈ db.balances, b.poolId = c.poolId ∧ b.address = c.address

variable {db : Database} {poolId address : String}

theorem Database.changed_addAmount (db : Database) (poolId address : String) (amount : Rat)
    (p a : String) :
    (db.addAmount poolId address amount).changed p a =
      db.changed p a + if poolId = p ∧ address = a then amount else 0 := by
  simp only [changed, addAmount, List.filter_append, List.map_append, List.sum_append]
  by_cases h : poolId = p ∧ address = a <;> simp [h]

/-- Recording a change keeps the ledger. -/
theorem Database.Ledger.addAmount (h : db.Ledger) (poolId address : String) (amount : Rat) :
    (db.addAmount poolId address amount).Ledger := by
  by_cases hex : ∃ b ∈ db.balances, b.poolId = poolId ∧ b.address = address
  · refine ⟨fun b hb => ?_, fun c hc => ?_⟩
    · rw [changed_addAmount]
      simp only [Database.addAmount, addToBalance, if_pos hex, List.mem_map] at hb
      obtain ⟨b', hb', rfl⟩ := hb
      by_cases hkey : b'.poolId = poolId ∧ b'.address = address
      · simp only [if_pos hkey]
        rw [h.amount_eq b' hb', if_pos ⟨hkey.1.symm, hkey.2.symm⟩]
      · simp only [if_neg hkey]
        rw [h.amount_eq b' hb', if_neg (fun hk => hkey ⟨hk.1.symm, hk.2.symm⟩), add_zero]
    · simp only [Database.addAmount, addToBalance, if_pos hex, List.mem_map] at hc ⊢
      rcases List.mem_append.mp hc with hc | hc
      · obtain ⟨b, hb, hkey⟩ := h.exists_balance c hc
        refine ⟨_, ⟨b, hb, rfl⟩, ?_⟩
        split <;> exact hkey
      · rw [List.mem_singleton.mp hc]
        obtain ⟨b, hb, hkey⟩ := hex
        refine ⟨_, ⟨b, hb, rfl⟩, ?_⟩
        rw [if_pos hkey]
        exact hkey
  · have hnone : db.changed poolId address = 0 := by
      have : (db.balanceChanges.filter fun c => c.poolId = poolId ∧ c.address = address) = [] := by
        rw [List.filter_eq_nil_iff]
        intro c hc hkey
        obtain ⟨b, hb, hb'⟩ := h.exists_balance c hc
        simp only [decide_eq_true_eq] at hkey
        exact hex ⟨b, hb, hb'.1.trans hkey.1, hb'.2.trans hkey.2⟩
      rw [changed, this]
      rfl
    refine ⟨fun b hb => ?_, fun c hc => ?_⟩
    · rw [changed_addAmount]
      simp only [Database.addAmount, addToBalance, if_neg hex] at hb
      rcases List.mem_append.mp hb with hb | hb
      · have hkey : ¬(poolId = b.poolId ∧ address = b.address) := fun hk =>
          hex ⟨b, hb, hk.1.symm, hk.2.symm⟩
        rw [h.amount_eq b hb, if_neg hkey, add_zero]
      · rw [List.mem_singleton.mp hb]
        simp only [and_self, if_true]
        rw [hnone, zero_add]
    · simp only [Database.addAmount, addToBalance, if_neg hex] at hc ⊢
      rcases List.mem_append.mp hc with hc | hc
      · obtain ⟨b, hb, hkey⟩ := h.exists_balance c hc
        exact ⟨b, List.mem_append_left _ hb, hkey⟩
      · rw [List.mem_singleton.mp hc]
        exact ⟨_, List.mem_append_right _ List.mem_cons_self, rfl, rfl⟩

section BalanceOf

/-- The amount of the first row of an address; an address without a row has nothing. -/
def amountIn (balances : List Balance) (poolId address : String) : Rat :=
  (balances.find? fun b => b.poolId = poolId ∧ b.address = address).elim 0 Balance.amount

/-- `BalanceRepository.GetBalanceAsync`. -/
def Database.balanceOf (db : Database) (poolId address : String) : Rat :=
  amountIn db.balances poolId address

/-- An address has one balance in a pool. -/
def Database.Keyed (db : Database) : Prop :=
  (db.balances.map fun b => (b.poolId, b.address)).Nodup

theorem amountIn_cons (b : Balance) (balances : List Balance) (p a : String) :
    amountIn (b :: balances) p a =
      if b.poolId = p ∧ b.address = a then b.amount else amountIn balances p a := by
  by_cases hb : b.poolId = p ∧ b.address = a
  · rw [amountIn, List.find?_cons_of_pos (by simpa using hb), if_pos hb]
    rfl
  · rw [amountIn, List.find?_cons_of_neg (by simpa using hb), if_neg hb]
    rfl

theorem amountIn_of_not_mem {balances : List Balance} {p a : String}
    (h : ¬∃ b ∈ balances, b.poolId = p ∧ b.address = a) : amountIn balances p a = 0 := by
  have hfind : (balances.find? fun b => b.poolId = p ∧ b.address = a) = none :=
    List.find?_eq_none.mpr fun b hb hkey => h ⟨b, hb, by simpa using hkey⟩
  rw [amountIn, hfind]
  rfl

theorem amountIn_append (balances : List Balance) (b : Balance) {p a : String}
    (h : ¬∃ b ∈ balances, b.poolId = p ∧ b.address = a) :
    amountIn (balances ++ [b]) p a = amountIn [b] p a := by
  induction balances with
  | nil => rfl
  | cons c balances ih =>
    rw [List.cons_append, amountIn_cons, if_neg fun hc => h ⟨c, List.mem_cons_self, hc⟩]
    exact ih fun ⟨d, hd, hkey⟩ => h ⟨d, List.mem_cons_of_mem _ hd, hkey⟩

theorem amountIn_of_mem {balances : List Balance}
    (h : (balances.map fun b => (b.poolId, b.address)).Nodup) {b : Balance} (hb : b ∈ balances) :
    amountIn balances b.poolId b.address = b.amount := by
  induction balances with
  | nil => cases hb
  | cons c balances ih =>
    rw [List.map_cons, List.nodup_cons] at h
    rw [amountIn_cons]
    rcases List.mem_cons.mp hb with rfl | hb
    · rw [if_pos ⟨rfl, rfl⟩]
    · rw [if_neg, ih h.2 hb]
      rintro ⟨hpool, haddress⟩
      exact h.1 (List.mem_map.mpr ⟨b, hb, by rw [hpool, haddress]⟩)

theorem amountIn_map (balances : List Balance) (poolId address : String) (amount : Rat)
    (p a : String) (hex : poolId = p → address = a →
      ∃ b ∈ balances, b.poolId = poolId ∧ b.address = address) :
    amountIn (balances.map fun b =>
        if b.poolId = poolId ∧ b.address = address then { b with amount := b.amount + amount }
        else b) p a =
      amountIn balances p a + if poolId = p ∧ address = a then amount else 0 := by
  induction balances with
  | nil =>
    rw [if_neg fun hkey => by simpa using hex hkey.1 hkey.2]
    simp [amountIn]
  | cons b balances ih =>
    rw [List.map_cons, amountIn_cons, amountIn_cons]
    by_cases hb : b.poolId = poolId ∧ b.address = address
    · simp only [if_pos hb]
      by_cases hkey : b.poolId = p ∧ b.address = a
      · rw [if_pos hkey, if_pos hkey, if_pos ⟨hb.1.symm.trans hkey.1, hb.2.symm.trans hkey.2⟩]
      · have hne : ¬(poolId = p ∧ address = a) := fun h =>
          hkey ⟨hb.1.trans h.1, hb.2.trans h.2⟩
        rw [if_neg hkey, if_neg hkey]
        exact ih fun hp ha => absurd ⟨hp, ha⟩ hne
    · simp only [if_neg hb]
      by_cases hkey : b.poolId = p ∧ b.address = a
      · have hne : ¬(poolId = p ∧ address = a) := fun h =>
          hb ⟨hkey.1.trans h.1.symm, hkey.2.trans h.2.symm⟩
        rw [if_pos hkey, if_pos hkey, if_neg hne, add_zero]
      · rw [if_neg hkey, if_neg hkey]
        refine ih fun hp ha => ?_
        obtain ⟨c, hc, hmatch⟩ := hex hp ha
        rcases List.mem_cons.mp hc with rfl | hc
        · exact absurd hmatch hb
        · exact ⟨c, hc, hmatch⟩

/-- Adding to a balance changes it by the amount, and no other one. -/
theorem amountIn_addToBalance (balances : List Balance) (poolId address : String) (amount : Rat)
    (p a : String) :
    amountIn (addToBalance balances poolId address amount) p a =
      amountIn balances p a + if poolId = p ∧ address = a then amount else 0 := by
  unfold addToBalance
  split
  · exact amountIn_map balances poolId address amount p a fun _ _ => ‹_›
  · rename_i hnone
    by_cases hother : ∃ b ∈ balances, b.poolId = p ∧ b.address = a
    · have hne : ¬(poolId = p ∧ address = a) := fun h => hnone (by rw [h.1, h.2]; exact hother)
      rw [if_neg hne, add_zero]
      obtain ⟨b, hb, hkey⟩ := hother
      simp only [amountIn, List.find?_append]
      cases hfind : balances.find? fun b => b.poolId = p ∧ b.address = a with
      | none => exact absurd (by simpa using hkey) (List.find?_eq_none.mp hfind b hb)
      | some c => rfl
    · rw [amountIn_append _ _ hother, amountIn_of_not_mem hother, amountIn_cons, zero_add]
      rfl

theorem Database.balanceOf_addAmount (db : Database) (poolId address : String) (amount : Rat)
    (p a : String) :
    (db.addAmount poolId address amount).balanceOf p a =
      db.balanceOf p a + if poolId = p ∧ address = a then amount else 0 :=
  amountIn_addToBalance db.balances poolId address amount p a

theorem Database.Keyed.addAmount (h : db.Keyed) (poolId address : String) (amount : Rat) :
    (db.addAmount poolId address amount).Keyed := by
  simp only [Keyed, Database.addAmount, addToBalance] at h ⊢
  split
  · rw [List.map_map]
    convert h using 1
    apply List.map_congr_left
    intro b _
    simp only [Function.comp_apply]
    split <;> rfl
  · rename_i hnone
    rw [List.map_append, List.nodup_append]
    refine ⟨h, List.nodup_singleton _, ?_⟩
    intro k hk k' hk' heq
    obtain ⟨b, hb, rfl⟩ := List.mem_map.mp hk
    rw [List.map_singleton, List.mem_singleton] at hk'
    rw [hk', Prod.mk.injEq] at heq
    exact hnone ⟨b, hb, heq⟩

end BalanceOf

section AddAmounts

variable (db : Database) (poolId : String) (amounts : List (String × Rat))

@[simp] theorem Database.addAmounts_nil : db.addAmounts poolId [] = db := rfl

theorem Database.addAmounts_cons (e : String × Rat) :
    db.addAmounts poolId (e :: amounts) =
      (db.addAmount poolId e.1 e.2).addAmounts poolId amounts := rfl

theorem Database.addAmounts_append (more : List (String × Rat)) :
    db.addAmounts poolId (amounts ++ more) =
      (db.addAmounts poolId amounts).addAmounts poolId more :=
  List.foldl_append

@[simp] theorem Database.addAmounts_shares : (db.addAmounts poolId amounts).shares = db.shares := by
  induction amounts generalizing db with
  | nil => rfl
  | cons e amounts ih => rw [addAmounts_cons, ih, addAmount]

@[simp] theorem Database.addAmounts_blocks : (db.addAmounts poolId amounts).blocks = db.blocks := by
  induction amounts generalizing db with
  | nil => rfl
  | cons e amounts ih => rw [addAmounts_cons, ih, addAmount]

theorem Database.addAmounts_balanceChanges :
    (db.addAmounts poolId amounts).balanceChanges =
      db.balanceChanges ++ amounts.map fun e => ⟨poolId, e.1, e.2⟩ := by
  induction amounts generalizing db with
  | nil => simp
  | cons e amounts ih => simp [addAmounts_cons, ih, addAmount]

variable {db} in
theorem Database.Ledger.addAmounts (h : db.Ledger) : (db.addAmounts poolId amounts).Ledger := by
  induction amounts generalizing db with
  | nil => exact h
  | cons e amounts ih => exact ih (h.addAmount poolId e.1 e.2)

end AddAmounts

end Balances

end HashStorm.Payments
