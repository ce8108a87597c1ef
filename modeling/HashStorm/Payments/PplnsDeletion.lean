import HashStorm.Payments.PplnsExact

/-!
# Deleted shares and later blocks

A block that is paid for deletes the shares older than its cut-off date. The pass of a
later block starts above them and has seen the shares that fill the earlier window when
it comes to the cut-off date, so it halts there at the latest. What was deleted is
invisible to it, whatever shares were recorded in between.
-/

namespace HashStorm.Payments.Pplns

open Contracts Paging Dictionary

variable {scale : ShareScale} {window blockReward : Rat}

section Table

variable {table table' : List Share} {poolId : String} {date : DateTime}

/-- Shares of distinct times are read in one order, in whichever order they are stored. -/
theorem poolShares_perm (h : table.Perm table') (hdistinct : (table.map Share.created).Nodup)
    (poolId : String) : poolShares table poolId = poolShares table' poolId := by
  have hperm : (poolShares table poolId).Perm (poolShares table' poolId) :=
    (List.perm_insertionSort _ _).trans
      ((h.filter _).trans (List.perm_insertionSort _ _).symm)
  have hmem : ∀ u ∈ poolShares table poolId, u ∈ table := by
    intro u hu
    rw [poolShares, List.mem_insertionSort] at hu
    exact List.mem_of_mem_filter hu
  have hanti : ∀ s t, s ∈ poolShares table poolId → t ∈ poolShares table' poolId →
      newestFirst s t → newestFirst t s → s = t := by
    intro s t hs ht hst hts
    exact List.inj_on_of_nodup_map hdistinct (hmem s hs) (hmem t (hperm.symm.subset ht))
      (Nat.le_antisymm hts hst)
  exact hperm.eq_of_pairwise hanti (descending_poolShares table poolId)
    (descending_poolShares table' poolId)

/-- Shares of distinct times are read in strictly descending order. -/
theorem strict_poolShares (hdistinct : (table.map Share.created).Nodup) (poolId : String) :
    (poolShares table poolId).Pairwise fun s t => t.created < s.created := by
  have hnodup : ((poolShares table poolId).map Share.created).Nodup := by
    have hperm := (List.perm_insertionSort newestFirst
      (table.filter fun s => s.poolId = poolId)).map Share.created
    rw [poolShares, hperm.nodup_iff]
    exact hdistinct.sublist (List.Sublist.map _ List.filter_sublist)
  rw [List.Nodup, List.pairwise_map] at hnodup
  exact ((descending_poolShares table poolId).and hnodup).imp fun h =>
    lt_of_le_of_ne h.1 (Ne.symm h.2)

/-- Of the pool, the shares from the date on are left. -/
theorem poolShares_deleteSharesBefore (table : List Share) (poolId : String) (date : DateTime) :
    poolShares (deleteSharesBefore table poolId date) poolId =
      (poolShares table poolId).filter fun s => date ≤ s.created := by
  rw [poolShares, poolShares, filter_insertionSort, deleteSharesBefore, List.filter_filter,
    List.filter_filter]
  congr 1
  apply List.filter_congr
  intro s _
  by_cases hpool : s.poolId = poolId <;> simp [hpool]

theorem totalScore_filter_le (p : Share → Bool) (shares : List Share) :
    scale.totalScore (shares.filter p) ≤ scale.totalScore shares := by
  induction shares with
  | nil => simp
  | cons s shares ih =>
    have hs := scale.score_nonneg s
    have htotal : scale.totalScore (s :: shares) = scale.score s + scale.totalScore shares := by
      simp [ShareScale.totalScore]
    rw [List.filter_cons]
    split
    · have hfilter : scale.totalScore (s :: shares.filter p) =
          scale.score s + scale.totalScore (shares.filter p) := by
        simp [ShareScale.totalScore]
      rw [hfilter, htotal]
      exact add_le_add_right ih _
    · rw [htotal]
      linarith

/-- Descending rows are those from a date on, followed by those before it. -/
theorem filter_append_filter {rows : List Share} (h : Descending Share.created rows)
    (date : DateTime) :
    (rows.filter fun s => date ≤ s.created) ++ (rows.filter fun s => s.created < date) = rows := by
  induction rows with
  | nil => rfl
  | cons s rows ih =>
    obtain ⟨hs, hrows⟩ := List.pairwise_cons.mp h
    by_cases hle : date ≤ s.created
    · rw [List.filter_cons_of_pos (by simpa using hle),
        List.filter_cons_of_neg (by simpa using hle), List.cons_append, ih hrows]
    · have hnone : (rows.filter fun s => date ≤ s.created) = [] := by
        rw [List.filter_eq_nil_iff]
        intro t ht
        simp only [decide_eq_true_eq, not_le]
        exact lt_of_le_of_lt (hs t ht) (not_le.mp hle)
      have hall : (rows.filter fun s => s.created < date) = rows := by
        rw [List.filter_eq_self]
        intro t ht
        simp only [decide_eq_true_eq]
        exact lt_of_le_of_lt (hs t ht) (not_le.mp hle)
      rw [List.filter_cons_of_neg (by simpa using hle),
        List.filter_cons_of_pos (by simpa using not_le.mp hle), hnone, hall, List.nil_append]

end Table

section CutOff

/-- A visit that sets the cut-off date crosses the window. -/
theorem crosses_of_cutOff {p : Progress} {share : Share} {date : DateTime}
    (hnone : p.shareCutOffDate = none)
    (h : (visit scale window blockReward p share).shareCutOffDate = some date) :
    share.created = date ∧ window ≤ p.accumulatedScore + scale.score share := by
  unfold visit at h
  split at h
  · rw [hnone] at h
    cases h
  · simp only at h
    split at h
    · exact ⟨Option.some.inj h, ‹_›⟩
    · rw [hnone] at h
      cases h

/-- The share that sets the cut-off date crosses the window. -/
theorem exists_of_cutOff {p : Progress} {rows : List Share} {date : DateTime}
    (hnone : p.shareCutOffDate = none)
    (h : (visitAll (visit scale window blockReward) Progress.halted p rows).shareCutOffDate =
      some date) :
    ∃ before s rest, rows = before ++ s :: rest ∧ s.created = date ∧
      window ≤ p.accumulatedScore + scale.totalScore (before ++ [s]) := by
  induction rows generalizing p with
  | nil =>
    rw [visitAll, hnone] at h
    cases h
  | cons s rows ih =>
    rw [visitAll] at h
    split at h
    · rw [hnone] at h
      cases h
    by_cases hhalt : (visit scale window blockReward p s).halted = true
    · rw [visitAll_of_halted hhalt] at h
      obtain ⟨hcreated, hcross⟩ := crosses_of_cutOff hnone h
      exact ⟨[], s, rows, rfl, hcreated, by simpa using hcross⟩
    · obtain ⟨_, _, hacc, hcut⟩ := visit_of_not_halted (by simpa using hhalt)
      obtain ⟨before, t, rest, rfl, hcreated, hcross⟩ := ih (hcut.trans hnone) h
      refine ⟨s :: before, t, rest, rfl, hcreated, ?_⟩
      have htotal : scale.totalScore (s :: before ++ [t]) =
          scale.score s + scale.totalScore (before ++ [t]) := by
        simp [ShareScale.totalScore]
      rw [htotal, ← add_assoc, ← hacc]
      exact hcross

/-- A pass over shares whose scores reach the window halts. -/
theorem halted_of_totalScore (blockReward : Rat) {shares : List Share} (hne : shares ≠ [])
    (h : window ≤ scale.totalScore shares) :
    (visitAll (visit scale window blockReward) Progress.halted (.initial blockReward)
      shares).halted = true := by
  by_contra hopen
  rw [Bool.not_eq_true] at hopen
  have hlt := (visitAll_of_not_halted hopen).2.1 hne
  have hzero : (Progress.initial blockReward).accumulatedScore = 0 := rfl
  rw [hzero, zero_add] at hlt
  exact absurd h (not_le.mpr hlt)

/-- The shares of the pool from the cut-off date of a block on fill the window, if they are
distinct in time. -/
theorem cutOff_fills {pageSize : Nat} (hp : 0 < pageSize) {table : List Share}
    (hdistinct : (table.map Share.created).Nodup) {poolId : String} {block : Block}
    {cancelled : Nat → Bool} {time : Nat} {r : Rewards} {date : DateTime}
    (hresult : (calculateRewards scale window blockReward pageSize table poolId block cancelled
      time).result = some r) (hcut : r.shareCutOffDate = some date) :
    (eligible table poolId block).filter (fun s => date ≤ s.created) ≠ [] ∧
      window ≤ scale.totalScore
        ((eligible table poolId block).filter fun s => date ≤ s.created) := by
  obtain ⟨taken, htaken, _, hstate⟩ := pageLoop_prefix (visit scale window blockReward)
    Progress.halted cancelled hp (c := ⟨block.created, true⟩)
    (fun c => readSharesBefore_eq table poolId c pageSize) (table.length + 1)
    (.initial blockReward) time []
  have hstrict : (eligible table poolId block).Pairwise fun s t => t.created < s.created :=
    (strict_poolShares hdistinct poolId).filter _
  rw [← eligible_eq, items_of_strict hp hstrict] at htaken
  have hdate : (visitAll (visit scale window blockReward) Progress.halted (.initial blockReward)
      taken).shareCutOffDate = some date := by
    simp only [calculateRewards, hstate] at hresult
    split at hresult
    · cases hresult
    · unfold Progress.result at hresult
      split at hresult
      · cases hresult
      · cases hresult
        exact hcut
  obtain ⟨before, s, rest, rfl, rfl, hcross⟩ := exists_of_cutOff rfl hdate
  have hzero : (Progress.initial blockReward).accumulatedScore = 0 := rfl
  rw [hzero, zero_add] at hcross
  obtain ⟨behind, hbehind⟩ := htaken
  -- the shares up to the crossing one are not older than it
  have hkept : (before ++ [s]).filter (fun t => s.created ≤ t.created) = before ++ [s] := by
    rw [List.filter_eq_self]
    intro t ht
    rw [← hbehind, List.append_assoc, List.pairwise_append] at hstrict
    rcases List.mem_append.mp ht with ht | ht
    · simpa using (hstrict.2.2 t ht s (by simp)).le
    · simp [List.mem_singleton.mp ht]
  have hsplit : (eligible table poolId block).filter (fun t => s.created ≤ t.created) =
      before ++ [s] ++ (rest ++ behind).filter fun t => s.created ≤ t.created := by
    rw [← hbehind]
    conv_rhs => rw [← hkept]
    rw [← List.filter_append]
    simp
  rw [hsplit]
  constructor
  · simp
  · rw [totalScore_append]
    have := scale.totalScore_nonneg ((rest ++ behind).filter fun t => s.created ≤ t.created)
    linarith

end CutOff

section Later

variable {table inserted after without : List Share} {poolId : String} {block b1 b2 : Block}
  {date : DateTime} {pageSize : Nat}

/-- Shares that are stored in another order make no difference. -/
theorem calculateRewards_perm (scale : ShareScale) (window blockReward : Rat)
    (hperm : after.Perm without) (hdistinct : (after.map Share.created).Nodup) (pageSize : Nat)
    (poolId : String) (block : Block) (cancelled : Nat → Bool) (time : Nat) :
    calculateRewards scale window blockReward pageSize after poolId block cancelled time =
      calculateRewards scale window blockReward pageSize without poolId block cancelled time := by
  have hfetch : ∀ c : Cursor DateTime,
      readSharesBefore after poolId c.before c.inclusive pageSize =
        readSharesBefore without poolId c.before c.inclusive pageSize := by
    intro c
    rw [readSharesBefore_eq, readSharesBefore_eq, poolShares_perm hperm hdistinct]
  simp only [calculateRewards, hfetch, hperm.length_eq]

/-- Shares before a date from which on the window is full make no difference. -/
theorem calculateRewards_from (hp : 0 < pageSize)
    (hdistinct : (without.map Share.created).Nodup)
    (hafter : poolShares after poolId =
      (poolShares without poolId).filter fun s => date ≤ s.created)
    (hne : (eligible without poolId block).filter (fun s => date ≤ s.created) ≠ [])
    (hfills : window ≤ scale.totalScore
      ((eligible without poolId block).filter fun s => date ≤ s.created))
    (cancelled : Nat → Bool) (time : Nat) :
    calculateRewards scale window blockReward pageSize after poolId block cancelled time =
      calculateRewards scale window blockReward pageSize without poolId block cancelled time := by
  have hrows : (poolShares after poolId).filter
      (Cursor.admits Share.created ⟨block.created, true⟩) =
        (eligible without poolId block).filter fun s => date ≤ s.created := by
    rw [hafter, eligible_eq, List.filter_filter, List.filter_filter]
    exact List.filter_congr fun s _ => Bool.and_comm _ _
  have hsplit : poolShares after poolId ++
      (poolShares without poolId).filter (fun s => s.created < date) =
        poolShares without poolId := by
    rw [hafter]
    exact filter_append_filter (descending_poolShares without poolId) date
  have hstrict : (poolShares after poolId).Pairwise fun s t => t.created < s.created := by
    rw [hafter]
    exact (strict_poolShares hdistinct poolId).filter _
  have hfuel := length_admitted_lt after poolId ⟨block.created, true⟩
  have hfuel' : ((poolShares after poolId).filter
      (Cursor.admits Share.created ⟨block.created, true⟩)).length < without.length + 1 := by
    rw [hrows]
    have := length_admitted_lt without poolId ⟨block.created, true⟩
    rw [← eligible_eq] at this
    exact lt_of_le_of_lt (List.length_filter_le _ _) this
  have hfetch : ∀ c : Cursor DateTime,
      readSharesBefore without poolId c.before c.inclusive pageSize =
        ((poolShares after poolId ++ (poolShares without poolId).filter
          (fun s => s.created < date)).filter (c.admits Share.created)).take pageSize := by
    intro c
    rw [hsplit, readSharesBefore_eq]
  have hhalt := halted_of_totalScore blockReward hne hfills
  rw [← hrows] at hhalt
  obtain ⟨hstate, htrace, htime, hexit⟩ := pageLoop_behind_halt cancelled hp hfetch
    (fun c => readSharesBefore_eq after poolId c pageSize) hstrict time [] hfuel' hfuel hhalt
  simp only [calculateRewards, hstate, htrace, htime, hexit]

/-- What is inserted behind a block is not read for it. -/
theorem eligible_inserted (hwithout : without.Perm (table ++ inserted))
    (hdistinct : ((table ++ inserted).map Share.created).Nodup)
    (hinserted : ∀ s ∈ inserted, block.created < s.created) :
    eligible without poolId block = eligible table poolId block := by
  have hnone : (inserted.filter fun s => s.poolId = poolId).filter
      (fun s => s.created ≤ block.created) = [] := by
    rw [List.filter_eq_nil_iff]
    intro s hs
    simpa using hinserted s (List.mem_of_mem_filter hs)
  rw [eligible, ← poolShares_perm hwithout.symm hdistinct, poolShares, filter_insertionSort,
    List.filter_append, List.filter_append, hnone, List.append_nil, ← filter_insertionSort]
  rfl

/-- The shares that fill the window of a block fill that of a later one. -/
theorem fills_later (hle : b1.created ≤ b2.created)
    (hsame : eligible without poolId b1 = eligible table poolId b1)
    (hfills : window ≤ scale.totalScore
      ((eligible table poolId b1).filter fun s => date ≤ s.created)) :
    window ≤ scale.totalScore
      ((eligible without poolId b2).filter fun s => date ≤ s.created) := by
  refine hfills.trans ?_
  have hearlier : (eligible table poolId b1).filter (fun s => date ≤ s.created) =
      ((eligible without poolId b2).filter fun s => date ≤ s.created).filter
        fun s => s.created ≤ b1.created := by
    rw [← hsame, eligible, eligible, List.filter_filter, List.filter_filter, List.filter_filter]
    apply List.filter_congr
    intro s _
    by_cases hs : s.created ≤ b1.created
    · simp [hs, hs.trans hle]
    · simp [hs]
  rw [hearlier]
  exact totalScore_filter_le _ _

/-- The shares that are left when the balances have been updated. -/
theorem deleteDiscardedShares_some {cancelled : Nat → Bool} {t t' : Nat}
    {cutOff : Option DateTime} {shares : List Share} (hp : 0 < pageSize)
    (h : deleteDiscardedShares table poolId pageSize cancelled t cutOff = some (shares, t')) :
    shares = discardShares table poolId cutOff := by
  have hnever := deleteDiscardedShares_never table poolId hp t cutOff
  rcases deleteDiscardedShares_cancelled table poolId pageSize cancelled t cutOff with hnone | hsame
  · rw [hnone] at h
    cases h
  · rw [← hsame, h] at hnever
    exact Option.some.inj hnever

/-- Shares that are not older than the date are kept. -/
theorem deleteSharesBefore_append {shares later : List Share} {poolId : String} {date : DateTime}
    (h : ∀ s ∈ later, date ≤ s.created) :
    deleteSharesBefore (shares ++ later) poolId date =
      deleteSharesBefore shares poolId date ++ later := by
  have hkept : deleteSharesBefore later poolId date = later := by
    rw [deleteSharesBefore, List.filter_eq_self]
    intro s hs
    simp [(h s hs).not_gt]
  rw [deleteSharesBefore, List.filter_append]
  exact congrArg _ hkept

/-- **Deleted shares are invisible to later blocks.** -/
theorem calculateRewards_after_deletion {config : PoolConfig} {db db1 : Database}
    {factor : Option Rat} {reward1 : Rat} {cancelled1 : Nat → Bool} {t1 t1' : Nat}
    (hupdate : Pplns.updateBalances config db b1 reward1 cancelled1 factor t1 = some (db1, t1'))
    (hle : b1.created ≤ b2.created) (hinserted : ∀ s ∈ inserted, b1.created < s.created)
    (hdistinct : ((db.shares ++ inserted).map Share.created).Nodup)
    (hafter : after.Perm (db1.shares ++ inserted))
    (hwithout : without.Perm (db.shares ++ inserted)) (reward2 : Rat) (cancelled2 : Nat → Bool)
    (t2 : Nat) :
    calculateRewards config.scale (Pplns.window factor) reward2 Pplns.pageSize after config.id b2
        cancelled2 t2 =
      calculateRewards config.scale (Pplns.window factor) reward2 Pplns.pageSize without config.id b2
        cancelled2 t2 := by
  rw [updateBalances, settle, Option.bind_eq_some_iff] at hupdate
  obtain ⟨r, hresult, hupdate⟩ := hupdate
  obtain ⟨⟨shares, t⟩, hshares, hdb1⟩ := Option.map_eq_some_iff.mp hupdate
  have hleft : db1.shares = discardShares db.shares config.id r.shareCutOffDate := by
    rw [← deleteDiscardedShares_some pageSize_pos hshares]
    exact (congrArg (fun p => p.1.shares) hdb1).symm
  cases hcut : r.shareCutOffDate with
  | none =>
    have hkept : db1.shares = db.shares := by rw [hleft, hcut, discardShares]
    rw [hkept] at hafter
    refine calculateRewards_perm _ _ _ (hafter.trans hwithout.symm) ?_ _ _ _ _ _
    rwa [(hafter.map Share.created).nodup_iff]
  | some date =>
    have hdb : (db.shares.map Share.created).Nodup :=
      hdistinct.sublist (List.Sublist.map _ (List.sublist_append_left _ _))
    obtain ⟨hne, hfills⟩ := cutOff_fills pageSize_pos hdb hresult hcut
    -- the cut-off date is not behind the block, so nothing that was inserted is deleted
    have hdate : date ≤ b1.created := by
      obtain ⟨s, hs⟩ := List.exists_mem_of_ne_nil _ hne
      have hsfilter := List.mem_filter.mp hs
      have hseligible := (List.mem_filter.mp hsfilter.1).2
      simp only [decide_eq_true_eq] at hseligible hsfilter
      exact hsfilter.2.trans hseligible
    have hdeleted : db1.shares ++ inserted =
        deleteSharesBefore (db.shares ++ inserted) config.id date := by
      rw [deleteSharesBefore_append fun s hs => hdate.trans (hinserted s hs).le, hleft, hcut,
        discardShares_some]
    have hsame : eligible without config.id b1 = eligible db.shares config.id b1 :=
      eligible_inserted hwithout hdistinct hinserted
    have hpool : poolShares after config.id =
        (poolShares without config.id).filter fun s => date ≤ s.created := by
      rw [poolShares_perm hwithout ((hwithout.map Share.created).nodup_iff.mpr hdistinct),
        ← poolShares_deleteSharesBefore, ← hdeleted]
      refine poolShares_perm hafter ((hafter.map Share.created).nodup_iff.mpr ?_) _
      rw [hdeleted]
      exact hdistinct.sublist (List.Sublist.map _ List.filter_sublist)
    have hne2 : (eligible without config.id b2).filter (fun s => date ≤ s.created) ≠ [] := by
      obtain ⟨s, hs⟩ := List.exists_mem_of_ne_nil _ hne
      refine List.ne_nil_of_mem (a := s) ?_
      rw [← hsame] at hs
      simp only [eligible, List.mem_filter, decide_eq_true_eq] at hs ⊢
      exact ⟨⟨hs.1.1, hs.1.2.trans hle⟩, hs.2⟩
    exact calculateRewards_from pageSize_pos
      ((hwithout.map Share.created).nodup_iff.mpr hdistinct) hpool hne2
      (fills_later hle hsame hfills) cancelled2 t2

/-- Three shares of unit score; the window of the first block holds two. -/
def threeShares : Database :=
  { shares := [unitShare "a" 5, unitShare "b" 4, unitShare "a" 3] }

/-- The oldest share is deleted, and a later block is paid for the inserted share and for the
newest of the others. -/
theorem calculateRewards_after_deletion_three_shares :
    ∃ result ∈ Pplns.updateBalances (PoolConfig.plain "ETH" [] (.pplns none)) threeShares
        (blockAt 6) 10 never (some 2) 0,
      result.1.shares.length = 2 ∧
        calculateRewards ⟨1, by decide⟩ 2 10 Pplns.pageSize
            (result.1.shares ++ [unitShare "c" 7]) "pool" (blockAt 9) never 0 =
          calculateRewards ⟨1, by decide⟩ 2 10 Pplns.pageSize
            (threeShares.shares ++ [unitShare "c" 7]) "pool" (blockAt 9) never 0 := by
  have hsome : ∃ result ∈ Pplns.updateBalances (PoolConfig.plain "ETH" [] (.pplns none))
      threeShares (blockAt 6) 10 never (some 2) 0, result.1.shares.length = 2 := by
    decide +kernel
  obtain ⟨result, hresult, hlength⟩ := hsome
  have hle : (blockAt 6).created ≤ (blockAt 9).created := by decide
  have hinserted : ∀ s ∈ [unitShare "c" 7], (blockAt 6).created < s.created := by decide
  have hagree := calculateRewards_after_deletion hresult hle hinserted (by decide)
    (List.Perm.refl _) (List.Perm.refl _) 10 never 0
  exact ⟨result, hresult, hlength, hagree⟩

end Later

end HashStorm.Payments.Pplns
