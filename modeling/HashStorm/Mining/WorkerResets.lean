import HashStorm.Mining.StatsRecorder

/-!
# Which workers are reset

A key that is left over is always split into two names without a dot. The workers that are reset
are those that went silent if and only if no silent worker has a dot in its names, and no miner in
the window is called like a silent worker with its miner.
-/

namespace HashStorm.Mining.StatsRecorder

open Stratum

section Keys

variable {miner worker item : Text} {pair : Text × Text}

/-- A miner and a worker as they are stored. -/
def storedPair (key : Text × Option Text) : Text × Text := (key.1, key.2.getD [])

@[simp] theorem buildKey_none (miner : Text) : buildKey miner none = miner := rfl

theorem buildKey_some_nil (miner : Text) : buildKey miner (some []) = miner := rfl

theorem buildKey_of_ne (miner : Text) (h : worker ≠ []) :
    buildKey miner (some worker) = miner ++ keySeparator :: worker := by
  cases worker with
  | nil => exact absurd rfl h
  | cons c worker => rfl

/-- No part of a split text has the separator. -/
theorem not_mem_of_mem_splitOn {part : Text} (h : part ∈ item.splitOn keySeparator) :
    keySeparator ∉ part := by
  induction item generalizing part with
  | nil =>
    rw [List.splitOn_nil, List.mem_singleton] at h
    rw [h]
    exact List.not_mem_nil
  | cons c item ih =>
    rw [List.splitOn_cons_eq_if_modifyHead] at h
    split at h
    · rcases List.mem_cons.mp h with rfl | h
      · exact List.not_mem_nil
      · exact ih h
    · rename_i hne
      cases hparts : item.splitOn keySeparator with
      | nil => exact absurd hparts (List.splitOn_ne_nil _ _)
      | cons head tail =>
        rw [hparts] at h ih
        rw [List.modifyHead_cons] at h
        rcases List.mem_cons.mp h with rfl | h
        · rw [List.mem_cons]
          rintro (heq | hmem)
          · exact hne (beq_iff_eq.mpr heq.symm)
          · exact ih List.mem_cons_self hmem
        · exact ih (List.mem_cons_of_mem _ h)

/-- The names an orphaned key is split into have no dot. -/
theorem not_mem_splitKey (item : Text) :
    keySeparator ∉ (storedPair (splitKey item)).1 ∧
      keySeparator ∉ (storedPair (splitKey item)).2 := by
  constructor
  · cases hparts : item.splitOn keySeparator with
    | nil => exact absurd hparts (List.splitOn_ne_nil _ _)
    | cons head tail =>
      simp only [storedPair, splitKey, hparts, List.headD_cons]
      exact not_mem_of_mem_splitOn (hparts ▸ List.mem_cons_self)
  · simp only [storedPair, splitKey]
    cases hpart : (item.splitOn keySeparator)[1]? with
    | none => exact List.not_mem_nil
    | some part => exact not_mem_of_mem_splitOn (List.mem_of_getElem? hpart)

/-- Names without a dot are read back from their key. -/
theorem splitKey_buildKey (hminer : keySeparator ∉ miner) (hworker : keySeparator ∉ worker) :
    storedPair (splitKey (buildKey miner (some worker))) = (miner, worker) := by
  by_cases hnil : worker = []
  · rw [hnil, buildKey_some_nil, splitKey, List.splitOn_eq_singleton hminer]
    rfl
  · rw [buildKey_of_ne miner hnil, splitKey, List.splitOn_append_cons_self,
      List.splitOn_eq_singleton hminer, List.splitOn_eq_singleton hworker]
    rfl

/-- A key is the miner, or the miner and a worker. -/
theorem buildKey_cases (miner : Text) (worker : Option Text) :
    buildKey miner worker = miner ∨
      ∃ w, w ≠ [] ∧ worker = some w ∧ buildKey miner worker = miner ++ keySeparator :: w := by
  cases worker with
  | none => exact .inl rfl
  | some w =>
    by_cases hnil : w = []
    · exact .inl (by rw [hnil, buildKey_some_nil])
    · exact .inr ⟨w, hnil, rfl, buildKey_of_ne miner hnil⟩

/-- A text with one dot is joined in one way only. -/
theorem eq_of_join_eq {miner' worker' : Text} (hminer : keySeparator ∉ miner)
    (hworker : keySeparator ∉ worker)
    (h : miner ++ keySeparator :: worker = miner' ++ keySeparator :: worker') :
    miner' = miner ∧ worker' = worker := by
  have hparts := congrArg (List.splitOn keySeparator) h
  rw [List.splitOn_append_cons_self, List.splitOn_append_cons_self,
    List.splitOn_eq_singleton hminer, List.splitOn_eq_singleton hworker] at hparts
  have hread (whole : Text) {part : Text} (heq : whole.splitOn keySeparator = [part]) :
      whole = part := by
    have hjoin : [keySeparator].intercalate (whole.splitOn keySeparator) = whole :=
      List.intercalate_splitOn keySeparator
    rw [heq, List.intercalate_singleton] at hjoin
    exact hjoin.symm
  cases hm : miner'.splitOn keySeparator with
  | nil => exact absurd hm (List.splitOn_ne_nil _ _)
  | cons head tail =>
    rw [hm, List.singleton_append, List.cons_append, List.cons.injEq] at hparts
    obtain ⟨rfl, htail⟩ := hparts
    cases tail with
    | nil => exact ⟨hread _ hm, hread _ htail.symm⟩
    | cons t ts =>
      rw [List.cons_append, List.cons.injEq] at htail
      exact absurd (List.append_eq_nil_iff.mp htail.2.symm).2 (List.splitOn_ne_nil _ _)

end Keys

section Window

variable {result : List MinerWorkerHashes} {pair : Text × Text} {key : Text}

/-- The pair has no shares in the window; without a worker, the miner has none at all. -/
def Silent (result : List MinerWorkerHashes) (pair : Text × Text) : Prop :=
  if pair.2 = [] then ∀ r ∈ result, r.miner ≠ pair.1
  else ∀ r ∈ result, ¬(r.miner = pair.1 ∧ r.worker = some pair.2)

instance (result : List MinerWorkerHashes) (pair : Text × Text) :
    Decidable (Silent result pair) := by
  unfold Silent
  infer_instance

/-- Groups have the rows of the window with their miner. -/
theorem mem_byMiner {g : Text × List MinerWorkerHashes} : g ∈ byMiner result ↔
    (∃ r ∈ result, r.miner = g.1) ∧ g.2 = result.filter fun x => x.miner = g.1 := by
  rw [byMiner, List.mem_map]
  constructor
  · rintro ⟨miner, hminer, rfl⟩
    exact ⟨List.mem_map.mp (List.mem_eraseDups.mp hminer), rfl⟩
  · rintro ⟨hminer, hrows⟩
    exact ⟨g.1, List.mem_eraseDups.mpr (List.mem_map.mpr hminer), Prod.ext rfl hrows.symm⟩

/-- The keys of the window: of its miners, and of its miners with their workers. -/
theorem mem_currentNonZeroMinerWorkers : key ∈ currentNonZeroMinerWorkers result ↔
    ∃ r ∈ result, key = r.miner ∨ key = buildKey r.miner r.worker := by
  rw [currentNonZeroMinerWorkers, List.mem_flatMap]
  constructor
  · rintro ⟨g, hg, hkey⟩
    obtain ⟨⟨r, hr, hminer⟩, hrows⟩ := mem_byMiner.mp hg
    rcases List.mem_cons.mp hkey with rfl | hkey
    · exact ⟨r, hr, .inl hminer.symm⟩
    · obtain ⟨item, hitem, rfl⟩ := List.mem_map.mp hkey
      rw [hrows, List.mem_filter, decide_eq_true_eq] at hitem
      exact ⟨item, hitem.1, .inr (by rw [hitem.2])⟩
  · rintro ⟨r, hr, hkey⟩
    refine ⟨(r.miner, result.filter fun x => x.miner = r.miner),
      mem_byMiner.mpr ⟨⟨r, hr, rfl⟩, rfl⟩,
      ?_⟩
    rcases hkey with rfl | rfl
    · exact List.mem_cons_self
    · apply List.mem_cons_of_mem
      exact List.mem_map.mpr ⟨r, List.mem_filter.mpr ⟨hr, decide_eq_true rfl⟩, rfl⟩

/-- A pair whose key is not a key of the window is silent. -/
theorem silent_of_not_mem
    (h : buildKey pair.1 (some pair.2) ∉ currentNonZeroMinerWorkers result) :
    Silent result pair := by
  rw [mem_currentNonZeroMinerWorkers] at h
  rw [Silent]
  split
  · rename_i hnil
    intro r hr hminer
    rw [hnil, buildKey_some_nil] at h
    exact h ⟨r, hr, .inl hminer.symm⟩
  · rintro r hr ⟨hminer, hworker⟩
    exact h ⟨r, hr, .inr (by rw [hminer, hworker])⟩

/-- No name has a dot, and no miner in the window is called like the pair. -/
def Unambiguous (result : List MinerWorkerHashes) (pair : Text × Text) : Prop :=
  keySeparator ∉ pair.1 ∧ keySeparator ∉ pair.2 ∧
    (pair.2 ≠ [] → ∀ r ∈ result, r.miner ≠ pair.1 ++ keySeparator :: pair.2)

instance (result : List MinerWorkerHashes) (pair : Text × Text) :
    Decidable (Unambiguous result pair) := by
  unfold Unambiguous
  infer_instance

/-- The key of a silent pair whose names have no dot is a key of the window only as the name of a
miner. -/
theorem not_mem_iff_of_silent (hsilent : Silent result pair) (hminer : keySeparator ∉ pair.1)
    (hworker : keySeparator ∉ pair.2) :
    buildKey pair.1 (some pair.2) ∉ currentNonZeroMinerWorkers result ↔
      (pair.2 ≠ [] → ∀ r ∈ result, r.miner ≠ pair.1 ++ keySeparator :: pair.2) := by
  rw [mem_currentNonZeroMinerWorkers, Silent] at *
  by_cases hnil : pair.2 = []
  · rw [if_pos hnil] at hsilent
    refine iff_of_true ?_ fun hne => absurd hnil hne
    rw [hnil, buildKey_some_nil]
    rintro ⟨r, hr, hkey | hkey⟩
    · exact hsilent r hr hkey.symm
    · rcases buildKey_cases r.miner r.worker with heq | ⟨w, -, -, heq⟩
      · exact hsilent r hr (hkey.trans heq).symm
      · apply hminer
        rw [hkey, heq]
        exact List.mem_append_right _ List.mem_cons_self
  · rw [if_neg hnil] at hsilent
    rw [buildKey_of_ne _ hnil]
    constructor
    · exact fun h _ r hr heq => h ⟨r, hr, .inl heq.symm⟩
    · rintro h ⟨r, hr, hkey | hkey⟩
      · exact h hnil r hr hkey.symm
      · rcases buildKey_cases r.miner r.worker with heq | ⟨w, -, hw, heq⟩
        · exact h hnil r hr (hkey.trans heq).symm
        · obtain ⟨hm, rfl⟩ := eq_of_join_eq hminer hworker (hkey.trans heq)
          exact hsilent r hr ⟨hm, hw⟩

end Window

section Orphans

variable {previous : List MinerStats} {result : List MinerWorkerHashes} {pair : Text × Text}
  {item : Text}

theorem mem_orphaned : item ∈ orphanedHashrateForMinerWorker previous result ↔
    (∃ x ∈ previous, buildKey x.miner (some x.worker) = item) ∧
      item ∉ currentNonZeroMinerWorkers result := by
  simp only [orphanedHashrateForMinerWorker, List.mem_filter, List.mem_eraseDups, List.mem_map,
    List.contains_eq_mem, Bool.not_eq_true', decide_eq_false_iff_not]

/-- The pairs that are reset. -/
def resetPairs (previous : List MinerStats) (result : List MinerWorkerHashes) :
    List (Text × Text) :=
  (orphanedHashrateForMinerWorker previous result).map fun item => storedPair (splitKey item)

theorem mem_resetPairs : pair ∈ resetPairs previous result ↔
    ∃ x ∈ previous, buildKey x.miner (some x.worker) ∉ currentNonZeroMinerWorkers result ∧
      storedPair (splitKey (buildKey x.miner (some x.worker))) = pair := by
  rw [resetPairs, List.mem_map]
  constructor
  · rintro ⟨item, hitem, hpair⟩
    obtain ⟨⟨x, hx, rfl⟩, hcurrent⟩ := mem_orphaned.mp hitem
    exact ⟨x, hx, hcurrent, hpair⟩
  · rintro ⟨x, hx, hcurrent, hpair⟩
    exact ⟨_, mem_orphaned.mpr ⟨⟨x, hx, rfl⟩, hcurrent⟩, hpair⟩

/-- Where every silent pair is unambiguous, the silent pairs are reset, and no others. -/
theorem mem_resetPairs_iff
    (h : ∀ x ∈ previous, Silent result x.pair → Unambiguous result x.pair) :
    pair ∈ resetPairs previous result ↔ (∃ x ∈ previous, x.pair = pair) ∧ Silent result pair := by
  rw [mem_resetPairs]
  constructor
  · rintro ⟨x, hx, hcurrent, rfl⟩
    have hsilent : Silent result x.pair := silent_of_not_mem hcurrent
    obtain ⟨hminer, hworker, -⟩ := h x hx hsilent
    have hread : storedPair (splitKey (buildKey x.miner (some x.worker))) = x.pair :=
      splitKey_buildKey hminer hworker
    rw [hread]
    exact ⟨⟨x, hx, rfl⟩, hsilent⟩
  · rintro ⟨⟨x, hx, rfl⟩, hsilent⟩
    obtain ⟨hminer, hworker, hname⟩ := h x hx hsilent
    exact ⟨x, hx, (not_mem_iff_of_silent hsilent hminer hworker).mpr hname,
      splitKey_buildKey hminer hworker⟩

/-- Only unambiguous pairs can be reset without resetting others. -/
theorem unambiguous_of_resetPairs (h : ∀ pair, pair ∈ resetPairs previous result ↔
      (∃ x ∈ previous, x.pair = pair) ∧ Silent result pair) {x : MinerStats} (hx : x ∈ previous)
    (hsilent : Silent result x.pair) : Unambiguous result x.pair := by
  -- whatever is reset was split, so it has no dots
  have hdots (y : MinerStats) (hy : y ∈ previous) (hys : Silent result y.pair) :
      keySeparator ∉ y.miner ∧ keySeparator ∉ y.worker := by
    obtain ⟨z, -, -, hz⟩ := mem_resetPairs.mp ((h y.pair).mpr ⟨⟨y, hy, rfl⟩, hys⟩)
    have hsplit := not_mem_splitKey (buildKey z.miner (some z.worker))
    rw [hz] at hsplit
    exact hsplit
  obtain ⟨hminer, hworker⟩ := hdots x hx hsilent
  obtain ⟨y, hy, hcurrent, hpair⟩ := mem_resetPairs.mp ((h x.pair).mpr ⟨⟨x, hx, rfl⟩, hsilent⟩)
  obtain ⟨hminer', hworker'⟩ := hdots y hy (silent_of_not_mem hcurrent)
  rw [splitKey_buildKey hminer' hworker'] at hpair
  obtain ⟨hm, hw⟩ := Prod.mk.inj hpair
  rw [hm, hw] at hcurrent
  exact ⟨hminer, hworker, (not_mem_iff_of_silent hsilent hminer hworker).mp hcurrent⟩

end Orphans

variable {u : Update} {pool : Pool} {pools : List Pool} {s : State} {r x : MinerStats}
  {rows : List MinerStats} {poolId : Text}

section Rows

/-- The reset samples of a pool. -/
def resetRows (u : Update) (pool : Pool) (rows : List MinerStats) : List MinerStats :=
  (orphanedHashrateForMinerWorker (getPoolMinerWorkerHashrates rows)
    (u.accumulated pool.id)).map (resetRow u pool.id)

theorem mem_resetRows (h : r ∈ resetRows u pool rows) :
    r.poolId = pool.id ∧ r.hashrate = 0 ∧ r.created = u.now := by
  obtain ⟨item, -, rfl⟩ := List.mem_map.mp h
  exact ⟨rfl, rfl, rfl⟩

theorem pairs_resetRows (u : Update) (pool : Pool) (rows : List MinerStats) :
    (resetRows u pool rows).map (·.pair) =
      resetPairs (getPoolMinerWorkerHashrates rows) (u.accumulated pool.id) := by
  rw [resetRows, List.map_map]
  rfl

/-- A sample is one of a miner and worker in the window. -/
theorem mem_samples {result : List MinerWorkerHashes} (h : r ∈ samples u pool result) :
    r.poolId = pool.id ∧ ∃ item ∈ result, r.pair = storedPair (item.miner, item.worker) := by
  obtain ⟨g, hg, hr⟩ := List.mem_flatMap.mp h
  obtain ⟨item, hitem, rfl⟩ := List.mem_map.mp hr
  rw [(mem_byMiner.mp hg).2, List.mem_filter] at hitem
  exact ⟨rfl, item, hitem.1, rfl⟩

/-- A silent pair has no sample in the window. -/
theorem not_silent_of_mem_samples {result : List MinerWorkerHashes}
    (h : r ∈ samples u pool result) : ¬Silent result r.pair := by
  obtain ⟨-, item, hitem, hpair⟩ := mem_samples h
  intro hsilent
  rw [hpair, Silent] at hsilent
  split at hsilent
  · exact hsilent item hitem rfl
  · rename_i hne
    apply hsilent item hitem
    cases hworker : item.worker with
    | none => exact absurd (congrArg (·.getD []) hworker) hne
    | some worker => exact ⟨rfl, rfl⟩

/-- No sample is later than the latest. -/
theorem created_le_of_latest (h : rows.maxOn? (·.created) = some x) (hr : r ∈ rows) :
    r.created ≤ x.created := by
  have hget := List.le_apply_get_maxOn?_of_mem (f := MinerStats.created) hr
  simpa only [h, Option.get_some] using hget

/-- The previous hashrates are the latest samples that are not zero. -/
theorem mem_getPoolMinerWorkerHashrates : x ∈ getPoolMinerWorkerHashrates rows ↔
    latest rows x.pair = some x ∧ 0 < x.hashrate := by
  have hlatest {pair : Text × Text} (h : latest rows pair = some x) :
      x ∈ rows ∧ x.pair = pair := by
    have hmem := List.maxOn?_mem h
    rwa [List.mem_filter, decide_eq_true_eq] at hmem
  rw [getPoolMinerWorkerHashrates, List.mem_filterMap]
  constructor
  · rintro ⟨pair, -, hx⟩
    rw [Option.filter_eq_some_iff, decide_eq_true_eq] at hx
    obtain ⟨hsome, hpos⟩ := hx
    rw [(hlatest hsome).2]
    exact ⟨hsome, hpos⟩
  · rintro ⟨hsome, hpos⟩
    refine ⟨x.pair, ?_, ?_⟩
    · exact List.mem_eraseDups.mpr (List.mem_map_of_mem (hlatest hsome).1)
    · rw [Option.filter_eq_some_iff, decide_eq_true_eq]
      exact ⟨hsome, hpos⟩

theorem poolRows_append (rows rows' : List MinerStats) (poolId : Text) :
    poolRows (rows ++ rows') poolId = poolRows rows poolId ++ poolRows rows' poolId :=
  List.filter_append rows rows'

theorem poolRows_eq_self (h : ∀ r ∈ rows, r.poolId = poolId) : poolRows rows poolId = rows :=
  List.filter_eq_self.mpr fun r hr => decide_eq_true (h r hr)

theorem poolRows_eq_nil (h : ∀ r ∈ rows, r.poolId ≠ poolId) : poolRows rows poolId = [] :=
  List.filter_eq_nil_iff.mpr fun r hr => by simpa using h r hr

end Rows

section Pools

/-- The iteration for a pool writes its samples and its resets. -/
theorem updatePool_self (u : Update) (s : State) (pool : Pool) :
    poolRows (updatePool u s pool).minerStats pool.id =
        poolRows s.minerStats pool.id ++ samples u pool (u.accumulated pool.id) ++
          resetRows u pool (poolRows s.minerStats pool.id) ∧
      poolRows (updatePool u s pool).resets pool.id =
        poolRows s.resets pool.id ++ resetRows u pool (poolRows s.minerStats pool.id) := by
  have hsamples : ∀ r ∈ samples u pool (u.accumulated pool.id), r.poolId = pool.id :=
    fun r hr => (mem_samples hr).1
  have hresets : ∀ r ∈ resetRows u pool (poolRows s.minerStats pool.id), r.poolId = pool.id :=
    fun r hr => (mem_resetRows hr).1
  constructor
  · change poolRows (s.minerStats ++ _ ++ resetRows u pool _) pool.id = _
    rw [poolRows_append, poolRows_append, poolRows_eq_self hsamples, poolRows_eq_self hresets]
  · change poolRows (s.resets ++ resetRows u pool _) pool.id = _
    rw [poolRows_append, poolRows_eq_self hresets]

/-- It leaves the other pools alone. -/
theorem updatePool_of_ne (h : pool.id ≠ poolId) :
    poolRows (updatePool u s pool).minerStats poolId = poolRows s.minerStats poolId ∧
      poolRows (updatePool u s pool).resets poolId = poolRows s.resets poolId := by
  have hsamples : ∀ r ∈ samples u pool (u.accumulated pool.id), r.poolId ≠ poolId :=
    fun r hr => (mem_samples hr).1 ▸ h
  have hresets : ∀ r ∈ resetRows u pool (poolRows s.minerStats pool.id), r.poolId ≠ poolId :=
    fun r hr => (mem_resetRows hr).1 ▸ h
  constructor
  · change poolRows (s.minerStats ++ _ ++ resetRows u pool _) poolId = _
    rw [poolRows_append, poolRows_append, poolRows_eq_nil hsamples, poolRows_eq_nil hresets,
      List.append_nil, List.append_nil]
  · change poolRows (s.resets ++ resetRows u pool _) poolId = _
    rw [poolRows_append, poolRows_eq_nil hresets, List.append_nil]

theorem foldl_updatePool_of_ne (h : ∀ pool ∈ pools, pool.id ≠ poolId) :
    poolRows (pools.foldl (updatePool u) s).minerStats poolId = poolRows s.minerStats poolId ∧
      poolRows (pools.foldl (updatePool u) s).resets poolId = poolRows s.resets poolId := by
  induction pools generalizing s with
  | nil => exact ⟨rfl, rfl⟩
  | cons pool pools ih =>
    obtain ⟨hpool, hpools⟩ := List.forall_mem_cons.mp h
    obtain ⟨hrows, hresets⟩ := updatePool_of_ne (u := u) (s := s) hpool
    rw [List.foldl_cons, ← hrows, ← hresets]
    exact ih hpools

/-- The run writes, for each of its pools, the samples and the resets of the pool. -/
theorem foldl_updatePool_mem (hpools : (pools.map Pool.id).Nodup) (hpool : pool ∈ pools) :
    poolRows (pools.foldl (updatePool u) s).minerStats pool.id =
        poolRows s.minerStats pool.id ++ samples u pool (u.accumulated pool.id) ++
          resetRows u pool (poolRows s.minerStats pool.id) ∧
      poolRows (pools.foldl (updatePool u) s).resets pool.id =
        poolRows s.resets pool.id ++ resetRows u pool (poolRows s.minerStats pool.id) := by
  induction pools generalizing s with
  | nil => exact absurd hpool List.not_mem_nil
  | cons first pools ih =>
    rw [List.map_cons, List.nodup_cons] at hpools
    obtain ⟨hfirst, hpools⟩ := hpools
    rw [List.foldl_cons]
    rcases List.mem_cons.mp hpool with rfl | hmem
    · have hothers : ∀ p ∈ pools, p.id ≠ pool.id := by
        intro p hp heq
        exact hfirst (heq ▸ List.mem_map_of_mem hp)
      obtain ⟨hrows, hresets⟩ := updatePool_self u s pool
      rw [(foldl_updatePool_of_ne hothers).1, (foldl_updatePool_of_ne hothers).2]
      exact ⟨hrows, hresets⟩
    · have hne : first.id ≠ pool.id := by
        intro heq
        exact hfirst (heq ▸ List.mem_map_of_mem hmem)
      obtain ⟨hrows, hresets⟩ := updatePool_of_ne (u := u) (s := s) hne
      rw [← hrows, ← hresets]
      exact ih hpools hmem

end Pools

section Resets

/-- The pairs of a pool that are reset are those that went silent, and then no silent pair has a
latest sample that is not zero. -/
def ResetsExact (u : Update) (pools : List Pool) (minerStats : List MinerStats)
    (poolStats : List PoolStats) (pool : Pool) : Prop :=
  let s := updatePoolHashrates u pools minerStats poolStats
  (∀ pair, (∃ r ∈ s.resets, r.poolId = pool.id ∧ r.pair = pair) ↔
    (∃ x ∈ getPoolMinerWorkerHashrates (poolRows minerStats pool.id), x.pair = pair) ∧
      Silent (u.accumulated pool.id) pair) ∧
  ((∀ r ∈ minerStats, r.created < u.now) →
    ∀ x ∈ getPoolMinerWorkerHashrates (poolRows s.minerStats pool.id),
      ¬Silent (u.accumulated pool.id) x.pair)

variable {minerStats : List MinerStats} {poolStats : List PoolStats}

/-- The resets of a pool in a run are those of its iteration. -/
theorem exists_reset_iff (hpools : (pools.map Pool.id).Nodup) (hpool : pool ∈ pools)
    {pair : Text × Text} :
    (∃ r ∈ (updatePoolHashrates u pools minerStats poolStats).resets,
        r.poolId = pool.id ∧ r.pair = pair) ↔
      pair ∈ resetPairs (getPoolMinerWorkerHashrates (poolRows minerStats pool.id))
        (u.accumulated pool.id) := by
  obtain ⟨-, hresets⟩ := foldl_updatePool_mem (u := u) (s := ⟨minerStats, poolStats, [], []⟩)
    hpools hpool
  have hrows : poolRows (updatePoolHashrates u pools minerStats poolStats).resets pool.id =
      resetRows u pool (poolRows minerStats pool.id) := hresets
  rw [← pairs_resetRows, ← hrows, List.mem_map]
  simp only [poolRows, List.mem_filter, decide_eq_true_eq, and_assoc]

/-- After resets of exactly the pairs that went silent, no silent pair has a latest sample that is
not zero. -/
theorem not_silent_of_latest (hold : ∀ r ∈ rows, r.created < u.now)
    (hresets : ∀ pair,
      pair ∈ resetPairs (getPoolMinerWorkerHashrates rows) (u.accumulated pool.id) ↔
        (∃ x ∈ getPoolMinerWorkerHashrates rows, x.pair = pair) ∧
          Silent (u.accumulated pool.id) pair)
    (hx : x ∈ getPoolMinerWorkerHashrates
      (rows ++ samples u pool (u.accumulated pool.id) ++ resetRows u pool rows)) :
    ¬Silent (u.accumulated pool.id) x.pair := by
  intro hsilent
  obtain ⟨hlatest, hpos⟩ := mem_getPoolMinerWorkerHashrates.mp hx
  have hsamples : (samples u pool (u.accumulated pool.id)).filter (fun r => r.pair = x.pair) =
      [] := by
    apply List.filter_eq_nil_iff.mpr
    intro r hr
    rw [decide_eq_true_eq]
    intro hpair
    exact not_silent_of_mem_samples hr (hpair ▸ hsilent)
  rw [latest, List.filter_append, List.filter_append, hsamples, List.append_nil] at hlatest
  by_cases hreset : x.pair ∈ resetPairs (getPoolMinerWorkerHashrates rows) (u.accumulated pool.id)
  · -- the reset is later than what was there before
    rw [← pairs_resetRows] at hreset
    obtain ⟨r, hr, hpair⟩ := List.mem_map.mp hreset
    have hmem : r ∈ (resetRows u pool rows).filter fun r => r.pair = x.pair :=
      List.mem_filter.mpr ⟨hr, decide_eq_true hpair⟩
    have hle := created_le_of_latest hlatest (List.mem_append_right _ hmem)
    rw [(mem_resetRows hr).2.2] at hle
    rcases List.mem_append.mp (List.maxOn?_mem hlatest) with hx' | hx'
    · exact absurd (hold x (List.mem_filter.mp hx').1) (not_lt.mpr hle)
    · rw [(mem_resetRows (List.mem_filter.mp hx').1).2.1] at hpos
      exact lt_irrefl _ hpos
  · have hnone : (resetRows u pool rows).filter (fun r => r.pair = x.pair) = [] := by
      apply List.filter_eq_nil_iff.mpr
      intro r hr
      rw [decide_eq_true_eq]
      intro hpair
      apply hreset
      rw [← pairs_resetRows, ← hpair]
      exact List.mem_map_of_mem hr
    rw [hnone, List.append_nil] at hlatest
    apply hreset
    exact (hresets x.pair).mpr
      ⟨⟨x, mem_getPoolMinerWorkerHashrates.mpr ⟨hlatest, hpos⟩, rfl⟩, hsilent⟩

/-- A run resets exactly the pairs that went silent if and only if the silent pairs are
unambiguous. -/
theorem resets_exact_iff (hpools : (pools.map Pool.id).Nodup) (hpool : pool ∈ pools) :
    ResetsExact u pools minerStats poolStats pool ↔
      ∀ x ∈ getPoolMinerWorkerHashrates (poolRows minerStats pool.id),
        Silent (u.accumulated pool.id) x.pair → Unambiguous (u.accumulated pool.id) x.pair := by
  simp only [ResetsExact, exists_reset_iff hpools hpool]
  constructor
  · rintro ⟨hresets, -⟩ x hx hsilent
    exact unambiguous_of_resetPairs hresets hx hsilent
  · intro h
    refine ⟨fun _ => mem_resetPairs_iff h, fun hold x hx => ?_⟩
    have hrows : poolRows (updatePoolHashrates u pools minerStats poolStats).minerStats pool.id =
        poolRows minerStats pool.id ++ samples u pool (u.accumulated pool.id) ++
          resetRows u pool (poolRows minerStats pool.id) :=
      (foldl_updatePool_mem hpools hpool).1
    rw [hrows] at hx
    apply not_silent_of_latest ?_ (fun _ => mem_resetPairs_iff h) hx
    exact fun r hr => hold r (List.mem_of_mem_filter hr)

/-- One pool, of which one worker has shares in the last update. -/
def onePool : Pool := ⟨text "pool", fun shares interval => shares / interval⟩

/-- The update of the pool. -/
def oneWorker (miner worker : Text) : Update where
  now := 6000000000
  window := 6000000000
  accumulated _ := [⟨600, 3, miner, some worker, 1, 2⟩]

/-- The samples of two workers from the last update. -/
def previousSamples (worker : Text) : List MinerStats :=
  [⟨text "pool", text "a", worker, 1, 1, 5⟩, ⟨text "pool", text "c", text "d", 1, 1, 5⟩]

theorem resets_exact_one :
    ResetsExact (oneWorker (text "c") (text "d")) [onePool] (previousSamples (text "b")) []
      onePool := by
  have hpools : ([onePool].map Pool.id).Nodup := by decide
  have hpool : onePool ∈ [onePool] := List.mem_cons_self
  exact (resets_exact_iff hpools hpool).mpr (by decide +kernel)

/-- A worker with a dot: the reset names another worker, and the silent one keeps its hashrate. -/
theorem resets_not_exact :
    let s := updatePoolHashrates (oneWorker (text "c") (text "d")) [onePool]
      (previousSamples (text "b.c")) []
    s.resets.map (·.pair) = [(text "a", text "b")] ∧
    (getPoolMinerWorkerHashrates (poolRows s.minerStats onePool.id)).map (·.pair) =
      [(text "a", text "b.c"), (text "c", text "d")] ∧
    ¬ResetsExact (oneWorker (text "c") (text "d")) [onePool] (previousSamples (text "b.c")) []
      onePool := by
  refine ⟨by decide +kernel, by decide +kernel, fun hexact => ?_⟩
  have hreset := (hexact.1 (text "a", text "b")).mp (by decide +kernel)
  exact absurd hreset.1 (by decide +kernel)

end Resets

end HashStorm.Mining.StatsRecorder
