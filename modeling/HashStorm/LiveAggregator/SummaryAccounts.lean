import HashStorm.LiveAggregator.WrittenEvents

/-!
# What the live summaries account for

The summaries of a pool are those of its miners and workers as long as their names are told apart
by the keys and without regard to case, and no miner with workers has a tab in its name. A
subject was last seen at its latest event if this is the one that was delivered last for the
text of its worker.
-/

namespace HashStorm.LiveAggregator

open Contracts Dictionary

section Names

variable {w : Writer}

/-- The miner of a pair is read up to the first tab. -/
theorem parseWorkerPair_of_tab {miner worker : String} (h : '\t' ∉ miner.toList) :
    parseWorkerPair (miner ++ "\t" ++ worker) = (miner, worker) := by
  have htab : ("\t" : String).toList = ['\t'] := rfl
  have hkept : ∀ c ∈ miner.toList, (decide (c ≠ '\t')) = true :=
    fun c hc => decide_eq_true (ne_of_mem_of_not_mem hc h)
  have hlist : (miner ++ "\t" ++ worker).toList = miner.toList ++ '\t' :: worker.toList := by
    rw [String.toList_append, String.toList_append, htab, List.append_assoc, List.singleton_append]
  rw [parseWorkerPair, hlist, List.dropWhile_append_of_pos hkept,
    List.takeWhile_append_of_pos hkept,
    List.dropWhile_cons_of_neg (by simp), List.takeWhile_cons_of_neg (by simp), List.append_nil]
  simp only [String.ofList_toList]

theorem tab_not_mem_parseWorkerPair (value : String) :
    '\t' ∉ (parseWorkerPair value).1.toList := by
  rw [parseWorkerPair]
  split
  · decide
  · rw [String.toList_ofList]
    intro h
    simpa using List.mem_takeWhile_imp h

/-- Names that are the same but for their case have a tab or have none. -/
theorem tab_mem_ignoreCase {text : String} : '\t' ∈ w.ignoreCase text ↔ '\t' ∈ text.toList := by
  rw [Writer.ignoreCase, List.mem_map]
  constructor
  · rintro ⟨c, hc, htab⟩
    rwa [← (w.upper_tab c).mp htab]
  · exact fun h => ⟨'\t', h, (w.upper_tab _).mpr rfl⟩

theorem ignoreCase_tabbed (e : ShareEvent) :
    w.ignoreCase (tabbed e) =
      w.ignoreCase (minerName e) ++ '\t' :: w.ignoreCase (workerName e) := by
  have htab : w.upper '\t' = '\t' := (w.upper_tab _).mpr rfl
  simp [Writer.ignoreCase, tabbed, htab]

/-- Pairs that are the same but for their case are of such miners and workers. -/
theorem ignoreCase_tabbed_inj {e e' : ShareEvent} (he : '\t' ∉ (minerName e).toList)
    (he' : '\t' ∉ (minerName e').toList)
    (h : w.ignoreCase (tabbed e) = w.ignoreCase (tabbed e')) :
    w.ignoreCase (minerName e) = w.ignoreCase (minerName e') ∧
      w.ignoreCase (workerName e) = w.ignoreCase (workerName e') := by
  rw [ignoreCase_tabbed, ignoreCase_tabbed] at h
  exact append_cons_inj (tab_mem_ignoreCase.not.mpr he) (tab_mem_ignoreCase.not.mpr he') h

end Names

section Subjects

/-- The event is of a miner with the name. -/
def OfMiner (miner : String) (e : ShareEvent) : Prop := HasMiner e ∧ minerName e = miner

/-- The event is of a worker with the names. -/
def OfWorker (miner worker : String) (e : ShareEvent) : Prop :=
  HasWorker e ∧ minerName e = miner ∧ workerName e = worker

instance (miner : String) : DecidablePred (OfMiner miner) :=
  fun _ => inferInstanceAs (Decidable (_ ∧ _))

instance (miner worker : String) : DecidablePred (OfWorker miner worker) :=
  fun _ => inferInstanceAs (Decidable (_ ∧ _ ∧ _))

/-- The Unix seconds of the events of a subject. -/
def seconds (events : List ShareEvent) (P : ShareEvent → Prop) : Set Int :=
  {t | ∃ e ∈ events, P e ∧ second e = t}

/-- The sums of a miner summary, or nothing. -/
def Writer.minerSums (w : Writer) (state : LiveState) (poolId : Option String) (miner : String) :
    Sums :=
  match w.get state (.minerSummary poolId miner) with
  | some (.miner summary) => summary.toSums
  | _ => 0

/-- The summaries of a pool account for exactly the events of their subjects. -/
structure Accounted (w : Writer) (poolId : Option String) (events : List ShareEvent)
    (state : LiveState) : Prop where
  pool : ∃ summary, w.get state (.summary poolId) = some (.pool summary) ∧
    summary.toSums = sums events
  miners : ∀ e ∈ events, HasMiner e →
    ∃ summary, w.get state (.minerSummary poolId (minerName e)) = some (.miner summary) ∧
      summary.miner = minerName e ∧
      summary.toSums = sums (events.filter (OfMiner (minerName e))) ∧
      IsGreatest (seconds events (OfMiner (minerName e))) summary.lastSeen
  workers : ∀ e ∈ events, HasWorker e →
    ∃ summary, w.get state (.workerSummary poolId (minerName e) (workerName e)) =
        some (.worker summary) ∧
      summary.miner = minerName e ∧ summary.worker = workerName e ∧
      summary.toSums = sums (events.filter (OfWorker (minerName e) (workerName e))) ∧
      IsGreatest (seconds events (OfWorker (minerName e) (workerName e))) summary.lastSeen
  total : (((events.filter HasMiner).map minerName).dedup.map (w.minerSums state poolId)).sum =
    sums (events.filter HasMiner)

/-- The names of the subjects are told apart, and the event that is delivered last for the text of
a worker is its latest one, and as late as any of its miner's. -/
structure Accountable (w : Writer) (events : List ShareEvent) : Prop where
  miners : ∀ e ∈ events, ∀ e' ∈ events, HasMiner e → HasMiner e' →
    encode w.unicode (minerName e) = encode w.unicode (minerName e') ∨
      w.ignoreCase (minerName e) = w.ignoreCase (minerName e') →
    minerName e = minerName e'
  workers : ∀ e ∈ events, ∀ e' ∈ events, HasWorker e → HasWorker e' → minerName e = minerName e' →
    encode w.unicode (workerName e) = encode w.unicode (workerName e') ∨
      w.ignoreCase (workerName e) = w.ignoreCase (workerName e') →
    workerName e = workerName e'
  tabs : ∀ e ∈ events, HasWorker e → '\t' ∉ (minerName e).toList
  workersSeen : ∀ e ∈ events, HasWorker e → ∀ last ∈ lastDelivered events (dotted e),
    IsGreatest (seconds events (OfWorker (minerName e) (workerName e))) (second last)
  minersSeen : ∀ e ∈ events, HasMiner e →
    (∃ e' ∈ events, OfMiner (minerName e) e' ∧ HasWorker e' ∧ second e ≤ second e') ∨
      (∀ e' ∈ events, OfMiner (minerName e) e' → ¬HasWorker e') ∧
        IsGreatest (seconds events (OfMiner (minerName e))) 0

/-- The store has what is written of the events of one pool, which are in the window. -/
structure Covered (w : Writer) (now : DateTime) (poolId : Option String)
    (events : List ShareEvent) (store : Store) : Prop where
  written : Written w.toConfig events store
  pool : ∀ e ∈ events, e.poolId = poolId
  nonblank : isNullOrWhiteSpace poolId = false
  window : ∀ e ∈ events, w.InWindow now e

end Subjects

section Listed

variable {w : Writer} {now : DateTime} {poolId : Option String} {events : List ShareEvent}
  {store : Store}

/-- The miners that are listed for the window. -/
def Writer.minersOf (w : Writer) (now : DateTime) (store : Store) (poolId : Option String) :
    List String :=
  w.unionMembers store (w.buckets now) (.bucketMiners poolId)

/-- The workers that are listed for a miner of the window. -/
def Writer.workersOf (w : Writer) (now : DateTime) (store : Store) (poolId : Option String)
    (miner : String) : List String :=
  w.workersByMiner (w.unionMembers store (w.buckets now) (.bucketWorkers poolId)) miner

theorem Covered.mem_minersOf (h : Covered w now poolId events store) {miner : String}
    (hmem : miner ∈ w.minersOf now store poolId) :
    ∃ e ∈ events, HasMiner e ∧ minerName e = miner :=
  (mem_unionMembers_of_injOn h.window fun _ _ =>
    h.written.mem_bucketMiners h.pool h.nonblank).1 miner hmem

/-- Miners that are told apart are all listed. -/
theorem Covered.minerName_mem (h : Covered w now poolId events store) (ha : Accountable w events)
    {e : ShareEvent} (he : e ∈ events) (hminer : HasMiner e) :
    minerName e ∈ w.minersOf now store poolId :=
  (mem_unionMembers_of_injOn h.window fun _ _ =>
    h.written.mem_bucketMiners h.pool h.nonblank).2
      (fun a ha' b hb hma hmb hcase => ha.miners a ha' b hb hma hmb (.inr hcase)) e he hminer

theorem Covered.mem_workersOf (h : Covered w now poolId events store) {miner worker : String}
    (hmem : worker ∈ w.workersOf now store poolId miner) :
    ∃ e ∈ events, HasWorker e ∧ (parseWorkerPair (tabbed e)).2 = worker ∧
      w.ignoreCase (parseWorkerPair (tabbed e)).1 = w.ignoreCase miner := by
  have hbase := KeyedSet.mem_of_mem_ofList hmem
  simp only [List.mem_map, List.mem_filter, decide_eq_true_eq] at hbase
  obtain ⟨_, ⟨⟨⟨pair, hpair, rfl⟩, -⟩, hcase⟩, hworker⟩ := hbase
  obtain ⟨e, he, hhas, rfl⟩ := (mem_unionMembers_of_injOn h.window fun _ _ =>
    h.written.mem_bucketWorkers h.pool h.nonblank).1 pair hpair
  exact ⟨e, he, hhas, hworker, hcase⟩

theorem parseWorkerPair_tabbed {e : ShareEvent} (h : '\t' ∉ (minerName e).toList) :
    parseWorkerPair (tabbed e) = (minerName e, workerName e) :=
  parseWorkerPair_of_tab h

/-- Workers that are told apart are all listed for their miner. -/
theorem Covered.workerName_mem (h : Covered w now poolId events store) (ha : Accountable w events)
    {e : ShareEvent} (he : e ∈ events) (hworker : HasWorker e) :
    workerName e ∈ w.workersOf now store poolId (minerName e) := by
  have hpair : tabbed e ∈ w.unionMembers store (w.buckets now) (.bucketWorkers poolId) := by
    refine (mem_unionMembers_of_injOn h.window fun _ _ =>
      h.written.mem_bucketWorkers h.pool h.nonblank).2 (fun a ha' b hb hwa hwb hcase => ?_) e he
        hworker
    obtain ⟨hminer, hname⟩ := ignoreCase_tabbed_inj (ha.tabs a ha' hwa) (ha.tabs b hb hwb) hcase
    have hsame := ha.miners a ha' b hb hwa.1 hwb.1 (.inr hminer)
    rw [tabbed, tabbed, hsame, ha.workers a ha' b hb hwa hwb hsame (.inr hname)]
  refine (KeyedSet.mem_ofList_of_injOn ?_).mpr ?_
  · intro x hx y hy hcase
    simp only [List.mem_map, List.mem_filter, decide_eq_true_eq] at hx hy
    obtain ⟨_, ⟨⟨⟨pairx, hpairx, rfl⟩, -⟩, hminerx⟩, rfl⟩ := hx
    obtain ⟨_, ⟨⟨⟨pairy, hpairy, rfl⟩, -⟩, hminery⟩, rfl⟩ := hy
    have hlisted := (mem_unionMembers_of_injOn h.window fun _ _ =>
      h.written.mem_bucketWorkers h.pool h.nonblank).1
    obtain ⟨a, ha', hwa, rfl⟩ := hlisted pairx hpairx
    obtain ⟨b, hb, hwb, rfl⟩ := hlisted pairy hpairy
    rw [parseWorkerPair_tabbed (ha.tabs a ha' hwa)] at hcase hminerx ⊢
    rw [parseWorkerPair_tabbed (ha.tabs b hb hwb)] at hcase hminery ⊢
    have hsame := ha.miners a ha' b hb hwa.1 hwb.1 (.inr (hminerx.trans hminery.symm))
    exact ha.workers a ha' b hb hwa hwb hsame (.inr hcase)
  · have hblank : (!isNullOrWhiteSpace (some (minerName e)) &&
        !isNullOrWhiteSpace (some (workerName e))) = true := by
      rw [← hworker.1.miner_eq, ← hworker.worker_eq, hworker.1, hworker.2]
      rfl
    refine List.mem_map.mpr ⟨(minerName e, workerName e), List.mem_filter.mpr
      ⟨List.mem_filter.mpr ⟨List.mem_map.mpr ⟨tabbed e, hpair,
        parseWorkerPair_tabbed (ha.tabs e he hworker)⟩, hblank⟩, decide_eq_true rfl⟩, rfl⟩

/-- The workers that are listed for a miner are those of its events. -/
theorem Covered.mem_workersOf_iff (h : Covered w now poolId events store)
    (ha : Accountable w events) {e : ShareEvent} (he : e ∈ events) (hminer : HasMiner e)
    {worker : String} :
    worker ∈ w.workersOf now store poolId (minerName e) ↔
      ∃ e' ∈ events, OfWorker (minerName e) worker e' := by
  constructor
  · intro hmem
    obtain ⟨e', he', hworker, hname, hcase⟩ := h.mem_workersOf hmem
    rw [parseWorkerPair_tabbed (ha.tabs e' he' hworker)] at hname hcase
    exact ⟨e', he', hworker, ha.miners e' he' e he hworker.1 hminer (.inr hcase), hname⟩
  · rintro ⟨e', he', hworker, hsame, rfl⟩
    rw [← hsame]
    exact h.workerName_mem ha he' hworker

end Listed

section Summed

variable {w : Writer} {now : DateTime} {poolId : Option String} {events : List ShareEvent}
  {store : Store}

theorem Covered.poolSums (h : Covered w now poolId events store) :
    (w.rebuildCounter store (w.buckets now) (.poolBucket poolId)).toSums = sums events := by
  have hkey : ∀ e ∈ events, ∀ bucket,
      (LiveKey.poolBucket poolId bucket).name w.unicode ∈ bucketNames w.toConfig e ↔
        True ∧ bucketStart w.toConfig e = bucket := by
    intro e he bucket
    have hnonblank := h.nonblank
    rw [← h.pool e he] at hnonblank ⊢
    rw [mem_bucketNames_pool hnonblank, true_and]
  simpa using (h.written.rebuildCounter_eq h.window hkey).1

/-- The sums of a miner are those of all miners with the encoded name. -/
theorem Covered.minerSums (h : Covered w now poolId events store) (miner : Option String) :
    (w.rebuildCounter store (w.buckets now) (.minerBucket poolId miner)).toSums =
      sums (events.filter fun e =>
        HasMiner e ∧ encode w.unicode e.miner = encode w.unicode miner) :=
  (h.written.rebuildCounter_eq h.window fun e he bucket => by
    have hnonblank := h.nonblank
    rw [← h.pool e he] at hnonblank ⊢
    exact mem_bucketNames_miner hnonblank).1

theorem Covered.workerCounter (h : Covered w now poolId events store)
    (miner worker : Option String) :
    (w.rebuildCounter store (w.buckets now) (.workerBucket poolId miner worker)).toSums =
        sums (events.filter fun e => HasWorker e ∧
          encode w.unicode e.miner = encode w.unicode miner ∧
          encode w.unicode e.worker = encode w.unicode worker) ∧
      (w.rebuildCounter store (w.buckets now) (.workerBucket poolId miner worker)).total =
        (events.filter fun e => HasWorker e ∧
          encode w.unicode e.miner = encode w.unicode miner ∧
          encode w.unicode e.worker = encode w.unicode worker).length :=
  h.written.rebuildCounter_eq h.window fun e he bucket => by
    have hnonblank := h.nonblank
    rw [← h.pool e he] at hnonblank ⊢
    exact mem_bucketNames_worker hnonblank

/-- The encoded names of miners that are told apart are those of one miner. -/
theorem Accountable.filter_miner (ha : Accountable w events) {e : ShareEvent} (he : e ∈ events)
    (hminer : HasMiner e) :
    (events.filter fun e' => HasMiner e' ∧
      encode w.unicode e'.miner = encode w.unicode (minerName e)) =
        events.filter (OfMiner (minerName e)) := by
  refine List.filter_congr fun e' he' => decide_eq_decide.mpr (and_congr_right fun hminer' => ?_)
  rw [hminer'.miner_eq]
  exact ⟨fun hencode => ha.miners e' he' e he hminer' hminer (.inl hencode), fun h => by rw [h]⟩

theorem Accountable.filter_worker (ha : Accountable w events) {e : ShareEvent} (he : e ∈ events)
    (hworker : HasWorker e) :
    (events.filter fun e' => HasWorker e' ∧
      encode w.unicode e'.miner = encode w.unicode (minerName e) ∧
      encode w.unicode e'.worker = encode w.unicode (workerName e)) =
        events.filter (OfWorker (minerName e) (workerName e)) := by
  refine List.filter_congr fun e' he' => decide_eq_decide.mpr (and_congr_right fun hworker' => ?_)
  rw [hworker'.1.miner_eq, hworker'.worker_eq]
  constructor
  · rintro ⟨hminer, hname⟩
    have hsame := ha.miners e' he' e he hworker'.1 hworker.1 (.inl hminer)
    exact ⟨hsame, ha.workers e' he' e he hworker' hworker hsame (.inl hname)⟩
  · rintro ⟨hminer, hname⟩
    rw [hminer, hname]
    exact ⟨rfl, rfl⟩

end Summed

section Seen

variable {w : Writer} {now : DateTime} {poolId : Option String} {events : List ShareEvent}
  {store : Store}

theorem latest_eq_none {result score : Option Int} :
    latest result score = none ↔ result = none ∧ score = none := by
  cases score with
  | none => simp [latest]
  | some seen =>
    cases result with
    | none => simp [latest]
    | some r =>
      rw [latest]
      split <;> simp

theorem mem_latest {result score : Option Int} {t : Int} (h : t ∈ latest result score) :
    (t ∈ result ∨ t ∈ score) ∧ (∀ s ∈ result, s ≤ t) ∧ ∀ s ∈ score, s ≤ t := by
  cases score with
  | none => exact ⟨.inl h, fun s hs => (Option.mem_unique hs h).le, by simp⟩
  | some seen =>
    cases result with
    | none =>
      obtain rfl : seen = t := by simpa [latest] using h
      simp
    | some r =>
      simp only [latest, Option.all_some, decide_eq_true_eq] at h
      split at h
      · cases h
        simp
        omega
      · cases h
        simp
        omega

/-- The latest of the scores that are there. -/
theorem foldl_latest (seen : String → Option Int) (workers : List String) (result : Option Int) :
    (workers.foldl (fun result worker => latest result (seen worker)) result = none ↔
        result = none ∧ ∀ worker ∈ workers, seen worker = none) ∧
      ∀ t ∈ workers.foldl (fun result worker => latest result (seen worker)) result,
        (t ∈ result ∨ ∃ worker ∈ workers, t ∈ seen worker) ∧
          (∀ s ∈ result, s ≤ t) ∧ ∀ worker ∈ workers, ∀ s ∈ seen worker, s ≤ t := by
  induction workers generalizing result with
  | nil =>
    refine ⟨by simp, ?_⟩
    rintro t ht
    exact ⟨.inl ht, fun s hs => (Option.mem_unique hs ht).le, by simp⟩
  | cons worker workers ih =>
    simp only [List.foldl_cons, List.forall_mem_cons, List.exists_mem_cons_iff]
    obtain ⟨hnone, hsome⟩ := ih (latest result (seen worker))
    refine ⟨by rw [hnone, latest_eq_none, and_assoc], fun t ht => ?_⟩
    obtain ⟨hmem, hlatest, hrest⟩ := hsome t ht
    have hle : ∀ s, s ∈ result ∨ s ∈ seen worker → s ≤ t := by
      intro s hs
      cases hl : latest result (seen worker) with
      | none =>
        obtain ⟨hr, hw⟩ := latest_eq_none.mp hl
        simp [hr, hw] at hs
      | some u =>
        obtain ⟨-, hbefore, hthen⟩ := mem_latest hl
        have hut := hlatest u hl
        rcases hs with hs | hs
        · exact (hbefore s hs).trans hut
        · exact (hthen s hs).trans hut
    refine ⟨?_, fun s hs => hle s (.inl hs), fun s hs => hle s (.inr hs), hrest⟩
    rcases hmem with hmem | hmem
    · exact (mem_latest hmem).1.imp_right .inl
    · exact .inr (.inr hmem)

/-- `LatestWorkerSeenAsync` finds the latest time of the workers that have one. -/
theorem latestWorkerSeen_spec (w : Writer) (store : Store) (poolId : Option String)
    (miner : String) (workers : List String) :
    (w.latestWorkerSeen store poolId miner workers = none ↔
        ∀ worker ∈ workers, w.workerSeen store poolId miner worker = none) ∧
      ∀ t ∈ w.latestWorkerSeen store poolId miner workers,
        (∃ worker ∈ workers, t ∈ w.workerSeen store poolId miner worker) ∧
          ∀ worker ∈ workers, ∀ s ∈ w.workerSeen store poolId miner worker, s ≤ t := by
  obtain ⟨hnone, hsome⟩ := foldl_latest (w.workerSeen store poolId miner) workers none
  rw [← Writer.latestWorkerSeen] at hnone hsome
  refine ⟨hnone.trans (and_iff_right rfl), fun t ht => ?_⟩
  obtain ⟨hmem, -, hupper⟩ := hsome t ht
  exact ⟨hmem.resolve_left (Option.not_mem_none t), hupper⟩

/-- A worker was seen at the event that was delivered last for its text. -/
theorem Covered.workerSeen (h : Covered w now poolId events store) (miner worker : String) :
    w.workerSeen store poolId miner worker =
      (lastDelivered events (miner ++ "." ++ worker)).map second :=
  h.written.score_workersLastSeen h.pool h.nonblank _

theorem isSome_lastDelivered {e : ShareEvent} (he : e ∈ events) (hworker : HasWorker e) :
    ∃ last, lastDelivered events (dotted e) = some last := by
  have hmem : e ∈ events.filter fun e' => HasWorker e' ∧ dotted e' = dotted e :=
    List.mem_filter.mpr ⟨he, decide_eq_true ⟨hworker, rfl⟩⟩
  exact ⟨_, List.getLast?_eq_some_getLast (List.ne_nil_of_mem hmem)⟩

end Seen

section Strings

variable {w : Writer} {state : LiveState} {writes : List (LiveKey × Summary)} {key : LiveKey}
  {value : Summary}

/-- A key of one value has it. -/
theorem get_setStrings (hmem : (key, value) ∈ writes)
    (hunique : ∀ x ∈ writes, x.1.encoded w.unicode = key.encoded w.unicode → x.2 = value) :
    w.get (w.setStrings state writes) key = some value := by
  refine lookup_append_of_unique ?_ ?_
  · exact List.mem_reverse.mpr (List.mem_map.mpr ⟨(key, value), hmem, rfl⟩)
  · intro value' hvalue
    obtain ⟨x, hx, heq⟩ := List.mem_map.mp (List.mem_reverse.mp hvalue)
    obtain ⟨hname, rfl⟩ := Prod.mk.inj heq
    exact hunique x hx (LiveKey.name_eq_iff.mp hname)

/-- What a key has was written. -/
theorem mem_of_get_setStrings (hempty : state.strings = [])
    (h : w.get (w.setStrings state writes) key = some value) :
    ∃ x ∈ writes, x.1.encoded w.unicode = key.encoded w.unicode ∧ x.2 = value := by
  rw [Writer.get, Writer.setStrings] at h
  simp only [hempty, List.append_nil] at h
  obtain ⟨x, hx, heq⟩ := List.mem_map.mp (List.mem_reverse.mp (mem_of_lookup h))
  obtain ⟨hname, hvalue⟩ := Prod.mk.inj heq
  exact ⟨x, hx, LiveKey.name_eq_iff.mp hname, hvalue⟩

end Strings

section Rebuilt

variable {w : Writer} {now : DateTime} {poolId : Option String} {events : List ShareEvent}
  {store : Store}

/-- The store after the workers that were seen before the window are removed. -/
def Writer.remaining (w : Writer) (now : DateTime) (store : Store) (poolId : Option String) :
    Store :=
  w.removeSeenBefore store poolId (toUnixTimeSeconds (w.windowStart now))

/-- The summary of a miner of the window. -/
def Writer.summaryOf (w : Writer) (now : DateTime) (store : Store) (poolId : Option String)
    (miner : String) : MinerSummary :=
  w.minerSummary (w.remaining now store poolId) poolId (w.buckets now)
    (w.effectiveWindowSeconds store poolId now) miner (w.workersOf now store poolId miner)

/-- A miner was last seen at the latest time of the workers that are listed for it. -/
theorem lastSeen_summaryOf (w : Writer) (now : DateTime) (store : Store) (poolId : Option String)
    (miner : String) :
    (w.summaryOf now store poolId miner).lastSeen =
      (w.latestWorkerSeen (w.remaining now store poolId) poolId miner
        (w.workersOf now store poolId miner)).getD 0 := by
  rw [Writer.summaryOf, Writer.minerSummary]

theorem mem_rebuildSummaries {x : LiveKey × Summary} :
    x ∈ w.rebuildSummaries now store poolId ↔
      x = (.summary poolId, .pool (w.poolSummary store poolId now (w.minersOf now store poolId)
        (w.unionMembers store (w.buckets now) (.bucketWorkers poolId)))) ∨
      x = (.status poolId, .status (w.poolStatus store poolId now)) ∨
      ∃ miner ∈ w.minersOf now store poolId, isNullOrWhiteSpace (some miner) = false ∧
        (x = (.minerSummary poolId miner, .miner (w.summaryOf now store poolId miner)) ∨
          ∃ worker ∈ w.workersOf now store poolId miner,
            w.rebuildWorker (w.remaining now store poolId) poolId (w.buckets now)
              (w.effectiveWindowSeconds store poolId now) miner worker = some x) := by
  rw [Writer.rebuildSummaries, Writer.rebuildMiners]
  simp only [List.mem_cons, List.mem_flatMap, List.mem_filter, List.mem_filterMap,
    Bool.not_eq_true', and_assoc]
  rfl

theorem Covered.remaining (h : Covered w now poolId events store) :
    Covered w now poolId events (w.remaining now store poolId) := by
  refine ⟨h.written.removeSeenBefore h.pool h.nonblank fun e he => ?_, h.pool, h.nonblank, h.window⟩
  exact toUnixTimeSeconds_mono (h.window e he).1

theorem rebuildWorker_eq_some {buckets : List Int} {effective : Int} {miner worker : String}
    {x : LiveKey × Summary} :
    w.rebuildWorker store poolId buckets effective miner worker = some x ↔
      (w.rebuildCounter store buckets (.workerBucket poolId miner worker)).total ≠ 0 ∧
        x = (.workerSummary poolId miner worker, .worker
          { (w.rebuildCounter store buckets (.workerBucket poolId miner worker)).toSums with
            poolId := poolId
            miner := miner
            worker := worker
            hashrate := (w.rebuildCounter store buckets
              (.workerBucket poolId miner worker)).difficulty / effective
            lastSeen := (w.workerSeen store poolId miner worker).getD 0 }) := by
  rw [Writer.rebuildWorker]
  split
  · rename_i hzero
    simp [hzero]
  · rename_i hnonzero
    simp [hnonzero, eq_comm]

/-- The last time of a worker is its latest one. -/
theorem Covered.workerSeen_isGreatest (h : Covered w now poolId events store)
    (ha : Accountable w events) {e : ShareEvent} (he : e ∈ events) (hworker : HasWorker e) :
    ∃ t, w.workerSeen store poolId (minerName e) (workerName e) = some t ∧
      IsGreatest (seconds events (OfWorker (minerName e) (workerName e))) t := by
  obtain ⟨last, hlast⟩ := isSome_lastDelivered he hworker
  refine ⟨second last, ?_, ha.workersSeen e he hworker last hlast⟩
  have hseen := h.workerSeen (minerName e) (workerName e)
  rw [← dotted, hlast] at hseen
  exact hseen

/-- The last time of a miner is its latest one. -/
theorem Covered.minerSeen_isGreatest (h : Covered w now poolId events store)
    (ha : Accountable w events) {e : ShareEvent} (he : e ∈ events) (hminer : HasMiner e) :
    IsGreatest (seconds events (OfMiner (minerName e)))
      (w.summaryOf now store poolId (minerName e)).lastSeen := by
  obtain ⟨hunseen, hlatest⟩ := latestWorkerSeen_spec w (w.remaining now store poolId) poolId
    (minerName e) (w.workersOf now store poolId (minerName e))
  -- the workers of an event of the miner are listed, with their latest times
  have hlisted : ∀ e' ∈ events, OfMiner (minerName e) e' → HasWorker e' →
      ∃ t,
        w.workerSeen (w.remaining now store poolId) poolId (minerName e) (workerName e') = some t ∧
        workerName e' ∈ w.workersOf now store poolId (minerName e) ∧ second e' ≤ t := by
    intro e' he' hsame hworker
    obtain ⟨t, hseen, hgreatest⟩ := h.remaining.workerSeen_isGreatest ha he' hworker
    have hmem := h.workerName_mem ha he' hworker
    rw [hsame.2] at hseen hmem
    exact ⟨t, hseen, hmem, hgreatest.2 ⟨e', he', ⟨hworker, rfl, rfl⟩, rfl⟩⟩
  cases hcase : w.latestWorkerSeen (w.remaining now store poolId) poolId (minerName e)
      (w.workersOf now store poolId (minerName e)) with
  | none =>
    have hnone := hunseen.mp hcase
    rw [lastSeen_summaryOf, hcase]
    rcases ha.minersSeen e he hminer with ⟨e', he', hsame, hworker, -⟩ | ⟨-, hepoch⟩
    · obtain ⟨t, hseen, hmem, -⟩ := hlisted e' he' hsame hworker
      rw [hnone _ hmem] at hseen
      cases hseen
    · exact hepoch
  | some t =>
    obtain ⟨⟨worker, hworkerMem, hseen⟩, hupper⟩ := hlatest t hcase
    rw [lastSeen_summaryOf, hcase]
    obtain ⟨e', he', hof⟩ := (h.mem_workersOf_iff ha he hminer).mp hworkerMem
    constructor
    · obtain ⟨t', hseen', hgreatest⟩ := h.remaining.workerSeen_isGreatest ha he' hof.1
      rw [hof.2.1, hof.2.2, Option.mem_def.mp hseen] at hseen'
      cases hseen'
      obtain ⟨e'', he'', hof'', hsecond⟩ := hgreatest.1
      exact ⟨e'', he'', ⟨hof''.1.1, hof''.2.1.trans hof.2.1⟩, hsecond⟩
    · rintro _ ⟨e₁, he₁, hsame, rfl⟩
      rcases ha.minersSeen e₁ he₁ hsame.1 with ⟨e₂, he₂, hsame₂, hworker₂, hle⟩ | ⟨hnone, -⟩
      · rw [hsame.2] at hsame₂
        obtain ⟨t₂, hseen₂, hmem₂, hle₂⟩ := hlisted e₂ he₂ hsame₂ hworker₂
        exact hle.trans (hle₂.trans (hupper _ hmem₂ t₂ hseen₂))
      · rw [hsame.2] at hnone
        exact absurd hof.1 (hnone e' he' ⟨hof.1.1, hof.2.1⟩)

end Rebuilt

section Accounts

variable {w : Writer} {now : DateTime} {poolId : Option String} {events : List ShareEvent}
  {store : Store} {state : LiveState}

theorem Covered.account_pool (h : Covered w now poolId events store) :
    ∃ summary, w.get (w.setStrings state (w.rebuildSummaries now store poolId)) (.summary poolId) =
        some (.pool summary) ∧ summary.toSums = sums events := by
  refine ⟨_, get_setStrings (mem_rebuildSummaries.mpr (.inl rfl)) ?_, h.poolSums⟩
  intro x hx hkey
  rcases mem_rebuildSummaries.mp hx with rfl | rfl | ⟨miner, -, -, rfl | ⟨worker, -, hx⟩⟩
  · rfl
  · simp [LiveKey.encoded] at hkey
  · simp [LiveKey.encoded] at hkey
  · obtain ⟨-, rfl⟩ := rebuildWorker_eq_some.mp hx
    simp [LiveKey.encoded] at hkey

theorem Covered.account_miner (h : Covered w now poolId events store) (ha : Accountable w events)
    {e : ShareEvent} (he : e ∈ events) (hminer : HasMiner e) :
    ∃ summary, w.get (w.setStrings state (w.rebuildSummaries now store poolId))
        (.minerSummary poolId (minerName e)) = some (.miner summary) ∧
      summary.miner = minerName e ∧
      summary.toSums = sums (events.filter (OfMiner (minerName e))) ∧
      IsGreatest (seconds events (OfMiner (minerName e))) summary.lastSeen := by
  refine ⟨w.summaryOf now store poolId (minerName e), get_setStrings ?_ ?_, rfl, ?_,
    h.minerSeen_isGreatest ha he hminer⟩
  · refine mem_rebuildSummaries.mpr (.inr (.inr ⟨minerName e, h.minerName_mem ha he hminer, ?_,
      .inl rfl⟩))
    rw [← hminer.miner_eq]
    exact hminer
  · intro x hx hkey
    rcases mem_rebuildSummaries.mp hx with rfl | rfl | ⟨miner, hmem, -, rfl | ⟨worker, -, hx⟩⟩
    · simp [LiveKey.encoded] at hkey
    · simp [LiveKey.encoded] at hkey
    · obtain ⟨e', he', hminer', rfl⟩ := h.mem_minersOf hmem
      have hencode : encode w.unicode (minerName e') = encode w.unicode (minerName e) := by
        simpa [LiveKey.encoded] using hkey
      rw [ha.miners e' he' e he hminer' hminer (.inl hencode)]
    · obtain ⟨-, rfl⟩ := rebuildWorker_eq_some.mp hx
      simp [LiveKey.encoded] at hkey
  · rw [← ha.filter_miner he hminer]
    exact h.remaining.minerSums (minerName e)

theorem Covered.account_worker (h : Covered w now poolId events store) (ha : Accountable w events)
    {e : ShareEvent} (he : e ∈ events) (hworker : HasWorker e) :
    ∃ summary, w.get (w.setStrings state (w.rebuildSummaries now store poolId))
        (.workerSummary poolId (minerName e) (workerName e)) = some (.worker summary) ∧
      summary.miner = minerName e ∧ summary.worker = workerName e ∧
      summary.toSums = sums (events.filter (OfWorker (minerName e) (workerName e))) ∧
      IsGreatest (seconds events (OfWorker (minerName e) (workerName e))) summary.lastSeen := by
  have hcounter := h.remaining.workerCounter (minerName e) (workerName e)
  rw [ha.filter_worker he hworker] at hcounter
  obtain ⟨t, hseen, hgreatest⟩ := h.remaining.workerSeen_isGreatest ha he hworker
  have hpositive : (w.rebuildCounter (w.remaining now store poolId) (w.buckets now)
      (.workerBucket poolId (minerName e) (workerName e))).total ≠ 0 := by
    rw [hcounter.2]
    have hmem : e ∈ events.filter (OfWorker (minerName e) (workerName e)) :=
      List.mem_filter.mpr ⟨he, decide_eq_true ⟨hworker, rfl, rfl⟩⟩
    have hlength := List.length_pos_of_mem hmem
    omega
  refine ⟨_, get_setStrings (mem_rebuildSummaries.mpr (.inr (.inr ⟨minerName e,
    h.minerName_mem ha he hworker.1, ?_, .inr ⟨workerName e, h.workerName_mem ha he hworker,
      rebuildWorker_eq_some.mpr ⟨hpositive, rfl⟩⟩⟩))) ?_, rfl, rfl, hcounter.1, ?_⟩
  · rw [← hworker.1.miner_eq]
    exact hworker.1
  · intro x hx hkey
    rcases mem_rebuildSummaries.mp hx with rfl | rfl | ⟨miner, hmem, -, rfl | ⟨worker, hlist, hx⟩⟩
    · simp [LiveKey.encoded] at hkey
    · simp [LiveKey.encoded] at hkey
    · simp [LiveKey.encoded] at hkey
    · obtain ⟨-, rfl⟩ := rebuildWorker_eq_some.mp hx
      obtain ⟨e₁, he₁, hminer₁, rfl⟩ := h.mem_minersOf hmem
      obtain ⟨e₂, he₂, hworker₂, hsame₂, rfl⟩ := (h.mem_workersOf_iff ha he₁ hminer₁).mp hlist
      have hencode : encode w.unicode (minerName e₁) = encode w.unicode (minerName e) ∧
          encode w.unicode (workerName e₂) = encode w.unicode (workerName e) := by
        simpa [LiveKey.encoded] using hkey
      have hminer := ha.miners e₁ he₁ e he hminer₁ hworker.1 (.inl hencode.1)
      have hname := ha.workers e₂ he₂ e he hworker₂ hworker (hsame₂.trans hminer) (.inl hencode.2)
      rw [hminer, hname]
  · rw [hseen]
    exact hgreatest

/-- Subjects that are told apart are accounted for. -/
theorem Covered.accounted (h : Covered w now poolId events store) (ha : Accountable w events) :
    Accounted w poolId events (w.setStrings state (w.rebuildSummaries now store poolId)) := by
  refine ⟨h.account_pool, fun e he hminer => h.account_miner ha he hminer,
    fun e he hworker => h.account_worker ha he hworker, ?_⟩
  have hsums : ∀ miner ∈ ((events.filter HasMiner).map minerName).dedup,
      w.minerSums (w.setStrings state (w.rebuildSummaries now store poolId)) poolId miner =
        ((events.filter fun e => HasMiner e ∧ minerName e = miner).map eventSums).sum := by
    intro miner hmem
    obtain ⟨e, he, rfl⟩ := List.mem_map.mp (List.mem_dedup.mp hmem)
    obtain ⟨hmem, hminer⟩ := List.mem_filter.mp he
    obtain ⟨summary, hget, -, hsummary, -⟩ :=
      @Covered.account_miner _ _ _ _ _ state h ha _ hmem (of_decide_eq_true hminer)
    rw [Writer.minerSums, hget]
    exact hsummary
  rw [List.map_congr_left hsums]
  refine sum_fibres eventSums minerName HasMiner (List.nodup_dedup _) fun e he hminer => ?_
  exact List.mem_dedup.mpr (List.mem_map_of_mem (List.mem_filter.mpr ⟨he, decide_eq_true hminer⟩))

/-- The summary of a miner is the one that was rebuilt for its name. -/
theorem Accounted.get_miner (hempty : state.strings = [])
    (hacc : Accounted w poolId events (w.setStrings state (w.rebuildSummaries now store poolId)))
    {e : ShareEvent} (he : e ∈ events) (hminer : HasMiner e) :
    w.get (w.setStrings state (w.rebuildSummaries now store poolId))
        (.minerSummary poolId (minerName e)) =
          some (.miner (w.summaryOf now store poolId (minerName e))) ∧
      minerName e ∈ w.minersOf now store poolId ∧
      IsGreatest (seconds events (OfMiner (minerName e)))
        (w.summaryOf now store poolId (minerName e)).lastSeen := by
  obtain ⟨summary, hget, hname, -, hseen⟩ := hacc.miners e he hminer
  obtain ⟨x, hx, -, hvalue⟩ := mem_of_get_setStrings hempty hget
  rcases mem_rebuildSummaries.mp hx with rfl | rfl | ⟨miner, hmem, -, rfl | ⟨worker, -, hx⟩⟩
  · cases hvalue
  · cases hvalue
  · cases hvalue
    obtain rfl : miner = minerName e := hname
    exact ⟨hget, hmem, hseen⟩
  · obtain ⟨-, rfl⟩ := rebuildWorker_eq_some.mp hx
    cases hvalue

/-- The summary of a worker is one that was rebuilt for its names. -/
theorem Accounted.get_worker (hempty : state.strings = [])
    (hacc : Accounted w poolId events (w.setStrings state (w.rebuildSummaries now store poolId)))
    {e : ShareEvent} (he : e ∈ events) (hworker : HasWorker e) :
    workerName e ∈ w.workersOf now store poolId (minerName e) ∧
      ∃ summary, w.get (w.setStrings state (w.rebuildSummaries now store poolId))
          (.workerSummary poolId (minerName e) (workerName e)) = some (.worker summary) ∧
        summary.worker = workerName e ∧
        IsGreatest (seconds events (OfWorker (minerName e) (workerName e)))
          ((w.workerSeen (w.remaining now store poolId) poolId (minerName e)
            (workerName e)).getD 0) := by
  obtain ⟨summary, hget, hminer, hname, -, hseen⟩ := hacc.workers e he hworker
  obtain ⟨x, hx, -, hvalue⟩ := mem_of_get_setStrings hempty hget
  rcases mem_rebuildSummaries.mp hx with rfl | rfl | ⟨miner, hmem, -, rfl | ⟨worker, hlist, hx⟩⟩
  · cases hvalue
  · cases hvalue
  · cases hvalue
  · obtain ⟨-, rfl⟩ := rebuildWorker_eq_some.mp hx
    cases hvalue
    obtain rfl : miner = minerName e := hminer
    obtain rfl : worker = workerName e := hname
    exact ⟨hlist, _, hget, rfl, hseen⟩

/-- Miners that are accounted for are told apart. -/
theorem Accounted.minerName_inj (hempty : state.strings = [])
    (hacc : Accounted w poolId events (w.setStrings state (w.rebuildSummaries now store poolId)))
    {e e' : ShareEvent} (he : e ∈ events) (he' : e' ∈ events) (hminer : HasMiner e)
    (hminer' : HasMiner e')
    (hsame : encode w.unicode (minerName e) = encode w.unicode (minerName e') ∨
      w.ignoreCase (minerName e) = w.ignoreCase (minerName e')) : minerName e = minerName e' := by
  obtain ⟨hget, hmem, -⟩ := hacc.get_miner hempty he hminer
  obtain ⟨hget', hmem', -⟩ := hacc.get_miner hempty he' hminer'
  rcases hsame with hencode | hcase
  · have hkey : (LiveKey.minerSummary poolId (minerName e)).name w.unicode =
        (LiveKey.minerSummary poolId (minerName e')).name w.unicode :=
      LiveKey.name_eq_iff.mpr (by rw [LiveKey.encoded, LiveKey.encoded, hencode])
    rw [Writer.get, hkey, ← Writer.get, hget'] at hget
    have hsummary := Summary.miner.inj (Option.some.inj hget)
    exact (congrArg MinerSummary.miner hsummary).symm
  · exact KeyedSet.eq_of_mem_ofList hmem hmem' hcase

theorem Accounted.workerName_inj (hempty : state.strings = [])
    (hacc : Accounted w poolId events (w.setStrings state (w.rebuildSummaries now store poolId)))
    {e e' : ShareEvent} (he : e ∈ events) (he' : e' ∈ events) (hworker : HasWorker e)
    (hworker' : HasWorker e') (hminer : minerName e = minerName e')
    (hsame : encode w.unicode (workerName e) = encode w.unicode (workerName e') ∨
      w.ignoreCase (workerName e) = w.ignoreCase (workerName e')) :
    workerName e = workerName e' := by
  obtain ⟨hmem, summary, hget, hname, -⟩ := hacc.get_worker hempty he hworker
  obtain ⟨hmem', summary', hget', hname', -⟩ := hacc.get_worker hempty he' hworker'
  rcases hsame with hencode | hcase
  · have hkey : (LiveKey.workerSummary poolId (minerName e) (workerName e)).name w.unicode =
        (LiveKey.workerSummary poolId (minerName e') (workerName e')).name w.unicode :=
      LiveKey.name_eq_iff.mpr (by rw [LiveKey.encoded, LiveKey.encoded, hminer, hencode])
    rw [Writer.get, hkey, ← Writer.get, hget'] at hget
    cases hget
    exact hname.symm.trans hname'
  · rw [hminer] at hmem
    exact KeyedSet.eq_of_mem_ofList hmem hmem' hcase

/-- Subjects that are accounted for are told apart. -/
theorem Covered.accountable (h : Covered w now poolId events store) (hempty : state.strings = [])
    (hacc : Accounted w poolId events (w.setStrings state (w.rebuildSummaries now store poolId))) :
    Accountable w events := by
  have htabs : ∀ e ∈ events, HasWorker e → '\t' ∉ (minerName e).toList := by
    intro e he hworker
    obtain ⟨e', -, -, -, hcase⟩ := h.mem_workersOf (hacc.get_worker hempty he hworker).1
    rw [← tab_mem_ignoreCase (w := w), ← hcase, tab_mem_ignoreCase]
    exact tab_not_mem_parseWorkerPair _
  have hseen : ∀ e ∈ events, HasWorker e → ∀ last ∈ lastDelivered events (dotted e),
      IsGreatest (seconds events (OfWorker (minerName e) (workerName e))) (second last) := by
    intro e he hworker last hlast
    obtain ⟨-, -, -, -, hgreatest⟩ := hacc.get_worker hempty he hworker
    rw [h.remaining.workerSeen, ← dotted, Option.mem_def.mp hlast] at hgreatest
    exact hgreatest
  refine ⟨fun e he e' he' hminer hminer' => hacc.minerName_inj hempty he he' hminer hminer',
    fun e he e' he' hworker hworker' => hacc.workerName_inj hempty he he' hworker hworker',
    htabs, hseen, fun e he hminer => ?_⟩
  obtain ⟨-, -, hgreatest⟩ := hacc.get_miner hempty he hminer
  obtain ⟨hunseen, hlatest⟩ := latestWorkerSeen_spec w (w.remaining now store poolId) poolId
    (minerName e) (w.workersOf now store poolId (minerName e))
  rw [lastSeen_summaryOf] at hgreatest
  cases hcase : w.latestWorkerSeen (w.remaining now store poolId) poolId (minerName e)
      (w.workersOf now store poolId (minerName e)) with
  | none =>
    rw [hcase] at hgreatest
    refine .inr ⟨fun e' he' hsame hworker => ?_, hgreatest⟩
    have hmem := (hacc.get_worker hempty he' hworker).1
    obtain ⟨last, hlast⟩ := isSome_lastDelivered he' hworker
    rw [hsame.2] at hmem
    have hnone := hunseen.mp hcase _ hmem
    rw [h.remaining.workerSeen, ← hsame.2, ← dotted, hlast] at hnone
    cases hnone
  | some t =>
    rw [hcase] at hgreatest
    obtain ⟨⟨worker, hworkerMem, hscore⟩, -⟩ := hlatest t hcase
    obtain ⟨e', he', hworker, hname, hminers⟩ := h.mem_workersOf hworkerMem
    rw [parseWorkerPair_tabbed (htabs e' he' hworker)] at hname hminers
    have hsame := hacc.minerName_inj hempty he' he hworker.1 hminer (.inr hminers)
    rw [h.remaining.workerSeen, ← hname, ← hsame, ← dotted] at hscore
    obtain ⟨last, hlast, rfl⟩ := Option.map_eq_some_iff.mp hscore
    obtain ⟨e'', he'', hof, hsecond⟩ := (hseen e' he' hworker last hlast).1
    refine .inl ⟨e'', he'', ⟨hof.1.1, hof.2.1.trans hsame⟩, hof.1, ?_⟩
    rw [hsecond]
    exact hgreatest.2 ⟨e, he, ⟨hminer, rfl⟩, rfl⟩

end Accounts

section Batches

variable {w : Writer} {now : DateTime} {poolId : Option String} {events batch : List ShareEvent}
  {state : LiveState}

/-- One pool is rebuilt behind a batch of its events. -/
theorem writeBatch_eq (hbatch : batch ≠ []) (hpool : ∀ e ∈ batch, e.poolId = poolId)
    (hnonblank : isNullOrWhiteSpace poolId = false) :
    w.writeBatch state now batch = w.rebuildPoolWindow now
      { state with store := batch.foldl (writeEvent w.toConfig) state.store } poolId := by
  have hnonempty : isNullOrEmpty poolId = false := by
    cases poolId with
    | none => simp [isNullOrWhiteSpace] at hnonblank
    | some text =>
      rw [isNullOrEmpty]
      by_contra hempty
      have htext : text = "" := by simpa using hempty
      simp [htext, isNullOrWhiteSpace] at hnonblank
  have hids : (batch.map ShareEvent.poolId).filter (fun poolId => !isNullOrEmpty poolId) =
      List.replicate batch.length poolId := by
    have hmap : batch.map ShareEvent.poolId = List.replicate batch.length poolId := by
      rw [List.eq_replicate_iff]
      exact ⟨List.length_map _, by simpa using hpool⟩
    rw [hmap, List.filter_replicate, hnonempty]
    rfl
  have hlength : batch.length ≠ 0 := mt List.length_eq_zero_iff.mp hbatch
  simp only [Writer.writeBatch, hids, KeyedSet.ofList_replicate hlength, List.foldl_cons,
    List.foldl_nil]

/-- What is written stays known over the batches, if no event leaves the window. -/
theorem Written.writeBatch (h : Written w.toConfig events state.store)
    (hpool : ∀ e ∈ events ++ batch, e.poolId = poolId)
    (hnonblank : isNullOrWhiteSpace poolId = false) (hids : DistinctIds (events ++ batch))
    (hseen : ∀ e ∈ events ++ batch, w.windowStart now ≤ e.created) :
    Written w.toConfig (events ++ batch) (w.writeBatch state now batch).store := by
  rcases eq_or_ne batch [] with rfl | hbatch
  · rw [List.append_nil]
    exact h
  · have hbatchPool : ∀ e ∈ batch, e.poolId = poolId :=
      fun e he => hpool e (List.mem_append_right _ he)
    have hwritten := h.writeEvents (fun e he => by rwa [hbatchPool e he]) hids
    rw [writeBatch_eq hbatch hbatchPool hnonblank]
    exact hwritten.removeSeenBefore hpool hnonblank fun e he =>
      toUnixTimeSeconds_mono (hseen e he)

/-- What is written of the events of batches that stay in the window. -/
theorem written_writeBatches {batches : List (DateTime × List ShareEvent)}
    (h : Written w.toConfig events state.store)
    (hpool : ∀ e ∈ events ++ batches.flatMap Prod.snd, e.poolId = poolId)
    (hnonblank : isNullOrWhiteSpace poolId = false)
    (hids : DistinctIds (events ++ batches.flatMap Prod.snd))
    (hseen : ∀ b ∈ batches, ∀ e ∈ events ++ batches.flatMap Prod.snd,
      w.windowStart b.1 ≤ e.created) :
    Written w.toConfig (events ++ batches.flatMap Prod.snd)
      (w.writeBatches state batches).store := by
  induction batches generalizing events state with
  | nil => simpa [Writer.writeBatches] using h
  | cons b batches ih =>
    rw [List.flatMap_cons, ← List.append_assoc] at hpool hids hseen ⊢
    obtain ⟨hfirst, hrest⟩ := List.forall_mem_cons.mp hseen
    have hsub : ∀ e ∈ events ++ b.2, e ∈ events ++ b.2 ++ batches.flatMap Prod.snd :=
      fun e he => List.mem_append_left _ he
    refine ih (h.writeBatch (fun e he => hpool e (hsub e he)) hnonblank
      (List.pairwise_append.mp hids).1 fun e he => hfirst e (hsub e he)) hpool hids hrest

/-- After one batch, the subjects that are accounted for are told apart. -/
theorem accountable_of_accounted (hnonblank : isNullOrWhiteSpace poolId = false)
    (hbatch : batch ≠ []) (hpool : ∀ e ∈ batch, e.poolId = poolId) (hids : DistinctIds batch)
    (hwindow : ∀ e ∈ batch, w.InWindow now e)
    (hacc : Accounted w poolId batch (w.writeBatch LiveState.empty now batch)) :
    Accountable w batch := by
  rw [writeBatch_eq hbatch hpool hnonblank] at hacc
  have hwritten : Written w.toConfig batch
      (batch.foldl (writeEvent w.toConfig) LiveState.empty.store) :=
    written_empty.writeEvents (fun e he => by rwa [hpool e he]) hids
  exact Covered.accountable ⟨hwritten, hpool, hnonblank, hwindow⟩ rfl hacc

/-- **When the live summaries account for every event.** For every sequence of batches of events of
one pool, all in the window of the last rebuild, the summaries account for the events if their
subjects are told apart and seen last at their latest events; after one batch, only if they are. -/
theorem summaries_account {earlier : List (DateTime × List ShareEvent)}
    (hnonblank : isNullOrWhiteSpace poolId = false) (hbatch : batch ≠ [])
    (hpool : ∀ e ∈ earlier.flatMap Prod.snd ++ batch, e.poolId = poolId)
    (hids : DistinctIds (earlier.flatMap Prod.snd ++ batch))
    (hclock : ∀ b ∈ earlier, b.1 ≤ now)
    (hwindow : ∀ e ∈ earlier.flatMap Prod.snd ++ batch, w.InWindow now e) :
    (Accountable w (earlier.flatMap Prod.snd ++ batch) →
      Accounted w poolId (earlier.flatMap Prod.snd ++ batch)
        (w.writeBatch (w.writeBatches LiveState.empty earlier) now batch)) ∧
    (earlier = [] → Accounted w poolId batch (w.writeBatch LiveState.empty now batch) →
      Accountable w batch) := by
  have hbatchPool : ∀ e ∈ batch, e.poolId = poolId :=
    fun e he => hpool e (List.mem_append_right _ he)
  have hsplit := List.pairwise_append.mp hids
  have hwritten : Written w.toConfig ([] ++ earlier.flatMap Prod.snd)
      (w.writeBatches LiveState.empty earlier).store := by
    refine written_writeBatches written_empty
      (fun e he => hpool e (List.mem_append_left _ he)) hnonblank hsplit.1 fun b hb e he => ?_
    exact (Nat.sub_le_sub_right (hclock b hb) _).trans
      (hwindow e (List.mem_append_left _ he)).1
  have hcovered : Covered w now poolId (earlier.flatMap Prod.snd ++ batch)
      (batch.foldl (writeEvent w.toConfig) (w.writeBatches LiveState.empty earlier).store) :=
    ⟨hwritten.writeEvents (fun e he => by rwa [hbatchPool e he]) hids, hpool, hnonblank, hwindow⟩
  constructor
  · intro ha
    rw [writeBatch_eq hbatch hbatchPool hnonblank]
    exact hcovered.accounted ha
  · rintro rfl
    exact accountable_of_accounted hnonblank hbatch hpool hids hwindow

/-- The capitals of the letters of ASCII. -/
def capital (c : Char) : Char :=
  if 97 ≤ c.toNat ∧ c.toNat < 123 then Char.ofNat (c.toNat - 32) else c

theorem capital_tab (c : Char) : capital c = '\t' ↔ c = '\t' := by
  have hletters : ∀ n < 123, 97 ≤ n → Char.ofNat (n - 32) ≠ '\t' := by decide
  rw [capital]
  split
  · rename_i hc
    refine iff_of_false (hletters _ hc.2 hc.1) ?_
    rintro rfl
    exact absurd hc.1 (by decide)
  · rfl

/-- A writer with a window of ten minutes. -/
def tenMinutes : Writer where
  toConfig := tenSeconds
  windowSeconds := 600
  upper := capital
  members sets key := (sets.filter fun x => x.1 = key).map Prod.snd
  bucketSeconds_pos := by decide
  upper_tab := capital_tab
  mem_members sets key member := by simp

/-- A share of the same worker, five seconds later. -/
def laterShare : ShareEvent :=
  { foundShare with eventId := some "later", created := foundShare.created + 50000000 }

/-- A share of a miner whose name differs in case. -/
def capitalShare : ShareEvent :=
  { foundShare with eventId := some "capital", miner := some "Miner" }

/-- A minute after the share. -/
def minuteLater : DateTime := foundShare.created + 600000000

/-- The events of one worker, in their order. -/
theorem accountable_example : Accountable tenMinutes [foundShare, laterShare] := by
  have hlast : lastDelivered [foundShare, laterShare] "miner.rig" = some laterShare := by
    decide +kernel
  have hlater : laterShare ∈ [foundShare, laterShare] := List.mem_cons_of_mem _ List.mem_cons_self
  have hgreatest : ∀ P : ShareEvent → Prop, P laterShare →
      IsGreatest (seconds [foundShare, laterShare] P) 5 := by
    intro P hP
    refine ⟨⟨laterShare, hlater, hP, by decide +kernel⟩, ?_⟩
    rintro _ ⟨e, he, -, rfl⟩
    exact (by decide +kernel : ∀ e ∈ [foundShare, laterShare], second e ≤ 5) e he
  have hnames : ∀ e ∈ [foundShare, laterShare], minerName e = "miner" ∧ workerName e = "rig" := by
    decide
  constructor
  · intro e he e' he' _ _ _
    rw [(hnames e he).1, (hnames e' he').1]
  · intro e he e' he' _ _ _ _
    rw [(hnames e he).2, (hnames e' he').2]
  · intro e he _
    rw [(hnames e he).1]
    decide
  · intro e he _ last hmem
    obtain ⟨hminer, hworker⟩ := hnames e he
    have hdotted : dotted e = "miner.rig" := by
      rw [dotted, hminer, hworker]
      decide
    rw [hdotted, hlast] at hmem
    cases hmem
    rw [hminer, hworker]
    exact hgreatest _ (by decide +kernel)
  · intro e he _
    refine .inl ⟨laterShare, hlater, ?_, by decide +kernel, ?_⟩
    · rw [(hnames e he).1]
      decide +kernel
    · exact (by decide +kernel : ∀ e ∈ [foundShare, laterShare], second e ≤ second laterShare) e he

/-- Two shares of a worker in two batches are accounted for. -/
theorem account_two_batches :
    Accounted tenMinutes (some "pool") [foundShare, laterShare]
      (tenMinutes.writeBatch
        (tenMinutes.writeBatches LiveState.empty [(foundShare.created, [foundShare])])
        minuteLater [laterShare]) := by
  have hpool : ∀ e ∈ [foundShare, laterShare], e.poolId = some "pool" := by decide
  have hids : DistinctIds [foundShare, laterShare] := by
    unfold DistinctIds
    decide +kernel
  have hwindow : ∀ e ∈ [foundShare, laterShare], tenMinutes.InWindow minuteLater e := by
    unfold Writer.InWindow
    decide +kernel
  exact (@summaries_account tenMinutes minuteLater (some "pool") [laterShare]
    [(foundShare.created, [foundShare])] (by decide) (by decide) hpool hids (by decide +kernel)
    hwindow).1 accountable_example

/-- Of miners whose names differ in case one is left out, and a worker is last seen at the event
that is delivered last. -/
theorem not_accounted :
    ¬Accounted tenMinutes (some "pool") [foundShare, capitalShare]
        (tenMinutes.writeBatch LiveState.empty minuteLater [foundShare, capitalShare]) ∧
      ¬Accounted tenMinutes (some "pool") [laterShare, foundShare]
        (tenMinutes.writeBatch LiveState.empty minuteLater [laterShare, foundShare]) := by
  constructor
  · intro hacc
    have ha := accountable_of_accounted (by decide) (by decide) (by decide)
      (by unfold DistinctIds; decide +kernel) (by unfold Writer.InWindow; decide +kernel) hacc
    have hsame := ha.miners foundShare (by decide) capitalShare (by decide) (by decide) (by decide)
      (.inr (by decide +kernel))
    exact absurd hsame (by decide)
  · intro hacc
    have ha := accountable_of_accounted (by decide) (by decide) (by decide)
      (by unfold DistinctIds; decide +kernel) (by unfold Writer.InWindow; decide +kernel) hacc
    have hlast : lastDelivered [laterShare, foundShare] (dotted laterShare) = some foundShare := by
      decide +kernel
    have hle := (ha.workersSeen laterShare (by decide) (by decide) foundShare hlast).2
      ⟨laterShare, by decide, by decide, rfl⟩
    exact absurd hle (by decide +kernel)

end Batches

end HashStorm.LiveAggregator
