import HashStorm.Lib.Machine
import HashStorm.Payments.Proportional

/-!
# Rounds of the PROP scheme

Blocks of a pool are processed in the order of their creation while new shares
arrive. The cut-off of a round is its newest share, and only the shares strictly
in front of it are deleted, so a non-empty round always leaves a share behind
that the next block is paid for once more.
-/

namespace HashStorm.Payments.Proportional

open Contracts Paging Dictionary Machine

/-- One processed block: the shares it found, the ones it was paid for, and the
rewards. -/
structure Round where
  block : Block
  blockReward : Rat
  table : List Share
  visited : List Share
  rewards : List (String × Rat)
  deriving DecidableEq, Repr

/-- The share table, the next free row, and the processed blocks. -/
structure State where
  shares : List Share
  nextRow : Nat
  rounds : List Round
  deriving DecidableEq, Repr

/-- A share is recorded, or a confirmed block is processed. -/
inductive Op where
  | insert (share : Share)
  | process (block : Block) (blockReward : Rat)
  deriving DecidableEq, Repr

/-- No shares and no rounds. -/
def State.initial : State := ⟨[], 0, []⟩

variable (scale : ShareScale) (pageSize : Nat) (poolId : String)

/-- Execute one step. An exception in `UpdateBalancesAsync` rolls the transaction
back; a block that is older than a processed one is not enabled. -/
def step (s : State) : Op → Option State
  | .insert share =>
    some { s with
      shares := s.shares ++ [{ share with row := s.nextRow }]
      nextRow := s.nextRow + 1 }
  | .process block blockReward =>
    if ∀ r ∈ s.rounds, r.block.created ≤ block.created then
      let calculation :=
        calculateRewards scale blockReward pageSize s.shares poolId block (fun _ => false) 0
      match calculation.result with
      | none => some s
      | some result =>
        some { s with
          shares := discardShares s.shares poolId result.shareCutOffDate
          rounds := s.rounds ++
            [⟨block, blockReward, s.shares, calculation.visited, result.rewards⟩] }
    else none

/-- The shares a round could be paid for. -/
def Round.eligible (r : Round) : List Share := Payments.eligible r.table poolId r.block

/-- No share is paid for by two rounds, and a round with a share of positive score
distributes its reward. -/
def PaidOnce (rounds : List Round) : Prop :=
  (rounds.Pairwise fun r r' => ∀ share ∈ r.visited, share ∉ r'.visited) ∧
    ∀ r ∈ rounds, (∃ share ∈ r.eligible poolId, 0 < scale.score share) →
      total r.rewards = r.blockReward

/-- Only the last processed block found shares, and the pages of a round with a share
of positive score contain such a share, unless there is nothing to distribute. -/
def OnlyLastPays (rounds : List Round) : Prop :=
  (∀ r ∈ rounds.dropLast, r.eligible poolId = []) ∧
    ∀ r ∈ rounds, (∃ share ∈ r.eligible poolId, 0 < scale.score share) →
      r.blockReward = 0 ∨ (0 < r.blockReward ∧
        0 < scale.totalScore (items Share.created pageSize (r.eligible poolId)))

/-- The first share of a timestamp in the table. -/
def firstAt (shares : List Share) (created : DateTime) : Option Share :=
  (shares.filter fun s => s.poolId = poolId ∧ s.created = created).head?

variable {scale pageSize poolId}

section FirstAt

variable {shares : List Share} {created : DateTime}

theorem firstAt_append {a : Share} (h : firstAt poolId shares created = some a)
    (more : List Share) : firstAt poolId (shares ++ more) created = some a := by
  rw [firstAt, List.filter_append, List.head?_append_of_ne_nil]
  · exact h
  · intro hnil
    rw [firstAt, hnil] at h
    cases h

/-- Shares at the cut-off are not deleted. -/
theorem firstAt_deleteSharesBefore :
    firstAt poolId (deleteSharesBefore shares poolId created) created =
      firstAt poolId shares created := by
  rw [firstAt, firstAt, deleteSharesBefore, List.filter_filter]
  congr 1
  apply List.filter_congr
  intro s _
  by_cases hs : s.poolId = poolId ∧ s.created = created
  · simp [hs]
  · simp [hs]

/-- Equal timestamps keep the order of the table. -/
theorem filter_eligible {block : Block} (hle : created ≤ block.created) :
    (Payments.eligible shares poolId block).filter (fun s => s.created = created) =
      shares.filter fun s => s.poolId = poolId ∧ s.created = created := by
  rw [Payments.eligible, poolShares, List.filter_filter, filter_insertionSort, List.filter_filter]
  have hsame : (shares.filter fun s => decide (s.created = created) &&
      decide (s.created ≤ block.created) && decide (s.poolId = poolId)) =
        shares.filter fun s => s.poolId = poolId ∧ s.created = created := by
    apply List.filter_congr
    intro s _
    by_cases hs : s.created = created
    · simp [hs, hle]
    · simp [hs]
  rw [hsame]
  apply List.Pairwise.insertionSort_eq
  refine List.pairwise_of_forall_mem_list fun a ha b hb => ?_
  have hcreated : ∀ c ∈ shares.filter (fun s => s.poolId = poolId ∧ s.created = created),
      c.created = created := by
    intro c hc
    have := (List.mem_filter.mp hc).2
    simp only [decide_eq_true_eq] at this
    exact this.2
  rw [newestFirst, hcreated a ha, hcreated b hb]

/-- The newest eligible share is the first one of its timestamp. -/
theorem firstAt_of_head {block : Block} {a : Share}
    (h : (Payments.eligible shares poolId block).head? = some a) :
    a.created ≤ block.created ∧ firstAt poolId shares a.created = some a := by
  have hmem := List.mem_of_mem_head? h
  have hle : a.created ≤ block.created := by
    simpa [Payments.eligible] using (List.mem_filter.mp hmem).2
  refine ⟨hle, ?_⟩
  rw [firstAt, ← filter_eligible hle]
  cases hrows : Payments.eligible shares poolId block with
  | nil =>
    rw [hrows] at h
    cases h
  | cons b rows =>
    rw [hrows] at h
    cases h
    simp

/-- A first share of its timestamp is read by every later block. -/
theorem mem_items_of_firstAt (hp : 0 < pageSize) {block : Block} {a : Share}
    (h : firstAt poolId shares a.created = some a) (hle : a.created ≤ block.created) :
    a ∈ items Share.created pageSize (Payments.eligible shares poolId block) := by
  refine mem_items_of_head hp (descending_eligible shares poolId block) (k := a.created) ?_
  rw [filter_eligible hle]
  exact h

end FirstAt

/-- What is true of every round and of the shares the last one has left. -/
structure Inv (scale : ShareScale) (pageSize : Nat) (poolId : String) (s : State) : Prop where
  visited : ∀ r ∈ s.rounds, r.visited = items Share.created pageSize (r.eligible poolId)
  rewards : ∀ r ∈ s.rounds, total r.rewards =
    if 0 < scale.totalScore (items Share.created pageSize (r.eligible poolId)) ∧
      0 < r.blockReward then r.blockReward else 0
  /-- A round that found shares was the last one, or some share was paid twice. -/
  overlap : (∀ r ∈ s.rounds.dropLast, r.eligible poolId = []) ∨
    ¬s.rounds.Pairwise fun r r' => ∀ share ∈ r.visited, share ∉ r'.visited
  /-- The newest share of the last round is still the first one of its timestamp. -/
  left : ∀ r ∈ s.rounds.getLast?, ∀ a ∈ (r.eligible poolId).head?,
    a.created ≤ r.block.created ∧ firstAt poolId s.shares a.created = some a

theorem inv_initial : Inv scale pageSize poolId State.initial := by
  constructor <;> simp [State.initial]

theorem Inv.insert {s : State} (h : Inv scale pageSize poolId s) (share : Share) :
    Inv scale pageSize poolId
      { s with shares := s.shares ++ [share], nextRow := s.nextRow + 1 } := by
  refine ⟨h.visited, h.rewards, h.overlap, fun r hr a ha => ?_⟩
  obtain ⟨hle, hfirst⟩ := h.left r hr a ha
  exact ⟨hle, firstAt_append hfirst _⟩

/-- A round that found shares leaves its newest one behind. -/
theorem firstAt_discardShares {shares : List Share} {block : Block} {a : Share}
    (ha : (Payments.eligible shares poolId block).head? = some a) :
    firstAt poolId (discardShares shares poolId
      ((Payments.eligible shares poolId block).head?.map Share.created)) a.created = some a := by
  rw [ha, Option.map_some, discardShares_some, firstAt_deleteSharesBefore]
  exact (firstAt_of_head ha).2

theorem Inv.process (hp : 0 < pageSize) {s : State} (h : Inv scale pageSize poolId s)
    {block : Block} {blockReward : Rat} {result : Rewards}
    (horder : ∀ r ∈ s.rounds, r.block.created ≤ block.created)
    (hresult : (calculateRewards scale blockReward pageSize s.shares poolId block
      (fun _ => false) 0).result = some result) :
    Inv scale pageSize poolId { s with
      shares := discardShares s.shares poolId result.shareCutOffDate
      rounds := s.rounds ++ [⟨block, blockReward, s.shares,
        (calculateRewards scale blockReward pageSize s.shares poolId block
          (fun _ => false) 0).visited, result.rewards⟩] } := by
  obtain ⟨hvisited, hcutoff, htotal⟩ := calculateRewards_some hp (fun _ => rfl) 0 hresult
  refine ⟨?_, ?_, ?_, ?_⟩
  · intro r hr
    rcases List.mem_append.mp hr with hr | hr
    · exact h.visited r hr
    · rw [List.mem_singleton.mp hr]
      exact hvisited
  · intro r hr
    rcases List.mem_append.mp hr with hr | hr
    · exact h.rewards r hr
    · rw [List.mem_singleton.mp hr]
      exact htotal
  · simp only [List.dropLast_concat]
    rcases h.overlap with hempty | hpaid
    · cases hlast : s.rounds.getLast? with
      | none =>
        left
        rw [List.getLast?_eq_none_iff.mp hlast]
        simp
      | some r =>
        have hsplit := List.dropLast_append_getLast? r hlast
        cases hrows : (r.eligible poolId).head? with
        | none =>
          left
          intro r' hr'
          rw [← hsplit] at hr'
          rcases List.mem_append.mp hr' with hr' | hr'
          · exact hempty r' hr'
          · rw [List.mem_singleton.mp hr']
            exact List.head?_eq_none_iff.mp hrows
        | some a =>
          -- the newest share of the last round is read again
          right
          obtain ⟨hle, hfirst⟩ := h.left r hlast a hrows
          have hr : r ∈ s.rounds := List.mem_of_getLast? hlast
          intro hpairwise
          refine (List.pairwise_append.mp hpairwise).2.2 r hr _ List.mem_cons_self a ?_ ?_
          · rw [h.visited r hr]
            exact mem_items_of_firstAt hp (firstAt_of_head hrows).2 hle
          · simp only [hvisited]
            exact mem_items_of_firstAt hp hfirst (hle.trans (horder r hr))
    · exact Or.inr fun hpairwise => hpaid (List.pairwise_append.mp hpairwise).1
  · intro r hr a ha
    rw [List.getLast?_concat, Option.mem_some_iff] at hr
    subst hr
    refine ⟨(firstAt_of_head ha).1, ?_⟩
    simp only [hcutoff]
    exact firstAt_discardShares ha

theorem Inv.step (hp : 0 < pageSize) {s s' : State} {op : Op} (h : Inv scale pageSize poolId s)
    (hstep : step scale pageSize poolId s op = some s') : Inv scale pageSize poolId s' := by
  cases op with
  | insert share =>
    cases hstep
    exact h.insert _
  | process block blockReward =>
    simp only [Proportional.step] at hstep
    split at hstep
    · rename_i horder
      split at hstep
      · cases hstep
        exact h
      · rename_i result hresult
        cases hstep
        exact h.process hp horder hresult
    · cases hstep

/-- In every reachable state every share was paid for once and every reward was
distributed exactly when no block but the last one found shares and the pages did
not miss all scores. -/
theorem paidOnce_iff (hp : 0 < pageSize) (ops : List Op) (s : State)
    (hrun : run (step scale pageSize poolId) State.initial ops = some s) :
    PaidOnce scale poolId s.rounds ↔ OnlyLastPays scale pageSize poolId s.rounds := by
  have h : Inv scale pageSize poolId s :=
    run_preserves (Inv scale pageSize poolId) (fun _ _ _ h hstep => h.step hp hstep)
      inv_initial hrun
  constructor
  · rintro ⟨hpairwise, hsum⟩
    refine ⟨h.overlap.resolve_right (not_not.mpr hpairwise), fun r hr hpos => ?_⟩
    have htotal := hsum r hr hpos
    rw [h.rewards r hr] at htotal
    split at htotal
    · rename_i hand
      exact Or.inr ⟨hand.2, hand.1⟩
    · exact Or.inl htotal.symm
  · rintro ⟨hempty, hpages⟩
    refine ⟨?_, fun r hr hpos => ?_⟩
    · cases hlast : s.rounds.getLast? with
      | none =>
        rw [List.getLast?_eq_none_iff.mp hlast]
        exact List.Pairwise.nil
      | some r =>
        have hnone : ∀ r ∈ s.rounds.dropLast, r.visited = [] := by
          intro r hr
          rw [h.visited r ((List.dropLast_sublist _).mem hr), hempty r hr,
            items_of_short (by simpa using hp)]
        rw [← List.dropLast_append_getLast? r hlast, List.pairwise_append]
        refine ⟨?_, List.pairwise_singleton _ _, ?_⟩
        · exact List.pairwise_of_forall_mem_list fun x hx y _ share hshare => by
            rw [hnone x hx] at hshare
            cases hshare
        · intro x hx y _ share hshare
          rw [hnone x hx] at hshare
          cases hshare
    · rw [h.rewards r hr]
      rcases hpages r hr hpos with hzero | ⟨hreward, hscore⟩
      · rw [hzero]
        split <;> rfl
      · rw [if_pos ⟨hscore, hreward⟩]

/-- A share of unit score. -/
def oneShare : Share := .unit "pool" "a" 5

/-- A confirmed block, found at the given time. -/
def confirmedAt (created : DateTime) : Block :=
  ⟨created, "pool", .confirmed, "tx", "a", 10, 1, created, none, none⟩

/-- One round distributes its reward. -/
theorem paidOnce_first_round : ∃ s,
    run (step ⟨1, by decide⟩ 100000 "pool") State.initial
      [.insert oneShare, .process (confirmedAt 6) 10] = some s ∧
      PaidOnce ⟨1, by decide⟩ "pool" s.rounds := by
  have hrounds : ((run (step ⟨1, by decide⟩ 100000 "pool") State.initial
      [.insert oneShare, .process (confirmedAt 6) 10]).map State.rounds) =
        some [⟨confirmedAt 6, 10, [oneShare], [oneShare], [("a", 10)]⟩] := by
    decide +kernel
  obtain ⟨s, hs, hr⟩ := Option.map_eq_some_iff.mp hrounds
  refine ⟨s, hs, (paidOnce_iff (by decide) _ s hs).mpr ?_⟩
  rw [hr]
  refine ⟨by simp, fun r hr' _ => Or.inr ?_⟩
  rw [List.mem_singleton.mp hr']
  decide +kernel

/-- The only share of the first round is paid for again by the second one. -/
theorem not_paidOnce_second_round : ∃ s,
    run (step ⟨1, by decide⟩ 100000 "pool") State.initial
      [.insert oneShare, .process (confirmedAt 6) 10, .process (confirmedAt 7) 10] = some s ∧
      ¬PaidOnce ⟨1, by decide⟩ "pool" s.rounds := by
  have hrounds : ((run (step ⟨1, by decide⟩ 100000 "pool") State.initial
      [.insert oneShare, .process (confirmedAt 6) 10, .process (confirmedAt 7) 10]).map
        State.rounds) =
        some [⟨confirmedAt 6, 10, [oneShare], [oneShare], [("a", 10)]⟩,
          ⟨confirmedAt 7, 10, [oneShare], [oneShare], [("a", 10)]⟩] := by
    decide +kernel
  obtain ⟨s, hs, hr⟩ := Option.map_eq_some_iff.mp hrounds
  refine ⟨s, hs, fun h => ?_⟩
  rw [hr] at h
  exact (List.pairwise_cons.mp h.1).1 _ List.mem_cons_self oneShare List.mem_cons_self
    List.mem_cons_self

end HashStorm.Payments.Proportional
