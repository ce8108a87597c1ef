import HashStorm.LiveAggregator.LiveSummaries

/-!
# What is written of the events

The sets, the scores and the counters of the store after the events of one pool, when each event
is new: a bucket counts the events with its encoded names, its sets have their names, and a text
of a worker has the second of the event that was delivered last for it.
-/

namespace HashStorm.LiveAggregator

open Contracts Dictionary Rounding

section Written

variable {config : Config} {store : Store} {events : List ShareEvent} {e : ShareEvent}

/-- What a command makes the score of a member. -/
def Command.scored (key member : String) : Command → Option Int
  | .sortedSetAdd key' member' score => if (key', member') = (key, member) then some score else none
  | _ => none

/-- The commands for an event that was not seen, with its mark. -/
def eventCommands (config : Config) (e : ShareEvent) : List Command :=
  if isNullOrWhiteSpace e.poolId then []
  else
    (if isNullOrWhiteSpace e.eventId then []
      else [.setAdd (seenKey config e) (e.eventId.getD "")]) ++ countCommands config e

/-- The store has what the commands for the events write. -/
structure Written (config : Config) (events : List ShareEvent) (store : Store) : Prop where
  hashes : ∀ counter, store.hashes counter = contribution config events counter
  sets : ∀ key member, (key, member) ∈ store.sets ↔
    .setAdd key member ∈ events.flatMap (eventCommands config)
  scores : ∀ key member, store.score key member =
    ((events.flatMap (eventCommands config)).filterMap (Command.scored key member)).getLast?

theorem written_empty : Written config [] LiveState.empty.store := by
  constructor <;> simp [LiveState.empty, contribution, Store.score]

theorem score_exec (store : Store) (command : Command) (key member : String) :
    (store.exec command).score key member =
      (command.scored key member).or (store.score key member) := by
  cases command with
  | setAdd key' member' =>
    rw [Store.exec]
    split <;> rfl
  | sortedSetAdd key' member' score =>
    rw [Store.score, Store.exec, List.lookup_cons, Command.scored]
    by_cases hsame : (key', member') = (key, member)
    · rw [hsame, if_pos rfl, beq_self_eq_true, Option.some_or]
    · rw [beq_false_of_ne (Ne.symm hsame), if_neg hsame, Option.none_or, Store.score]
      have hkept : (store.scores.filter (·.1 ≠ (key', member'))).lookup (key, member) =
          store.scores.lookup (key, member) :=
        lookup_filter fun _ _ => decide_eq_true (Ne.symm hsame)
      exact hkept
  | _ => rfl

theorem foldl_exec_hashes (commands : List Command) (store : Store) (counter : String × String) :
    (commands.foldl Store.exec store).hashes counter =
      store.hashes counter + totalAt (commands.filterMap Command.increment) counter := by
  induction commands generalizing store with
  | nil => simp
  | cons command commands ih =>
    rw [List.foldl_cons, ih, Store.hashes_exec, add_assoc, ← totalAt_append, List.filterMap_cons]
    cases command.increment <;> rfl

theorem mem_foldl_exec_sets (commands : List Command) (store : Store) (key member : String) :
    (key, member) ∈ (commands.foldl Store.exec store).sets ↔
      (key, member) ∈ store.sets ∨ .setAdd key member ∈ commands := by
  induction commands generalizing store with
  | nil => simp
  | cons command commands ih =>
    rw [List.foldl_cons, ih, Store.mem_sets_exec, List.mem_cons, or_assoc, eq_comm]

theorem foldl_exec_score (commands : List Command) (store : Store) (key member : String) :
    (commands.foldl Store.exec store).score key member =
      (commands.filterMap (Command.scored key member)).getLast?.or (store.score key member) := by
  induction commands generalizing store with
  | nil => rfl
  | cons command commands ih =>
    rw [List.foldl_cons, ih, score_exec, ← Option.or_assoc, List.filterMap_cons]
    cases command.scored key member with
    | none => simp
    | some score => simp [List.getLast?_cons]

/-- An event whose mark is not there is counted. -/
theorem writeEvent_eq (hpool : isNullOrWhiteSpace e.poolId = false)
    (hnew : Identified e → (seenKey config e, e.eventId.getD "") ∉ store.sets) :
    writeEvent config store e = (eventCommands config e).foldl Store.exec store := by
  rw [writeEvent, eventCommands, hpool]
  by_cases hid : isNullOrWhiteSpace e.eventId
  · simp [hid]
  · have hmark := hnew (by simpa [Identified] using hid)
    simp [hid, hmark]

theorem contribution_snoc (events : List ShareEvent) (e : ShareEvent)
    (counter : String × String) :
    contribution config (events ++ [e]) counter =
      contribution config events counter + totalAt (increments config e) counter := by
  simp [contribution]

theorem increment_eventCommands (hpool : isNullOrWhiteSpace e.poolId = false) :
    (eventCommands config e).filterMap Command.increment = increments config e := by
  rw [eventCommands, hpool]
  simp only [Bool.false_eq_true, if_false, List.filterMap_append, increment_countCommands hpool]
  split <;> rfl

/-- The marks of a set are those of the events. -/
theorem mark_mem_eventCommands {e' : ShareEvent} {id : String}
    (h : .setAdd (seenKey config e) id ∈ eventCommands config e') :
    Identified e' ∧ id = e'.eventId.getD "" := by
  rw [eventCommands] at h
  split at h
  · cases h
  · rcases List.mem_append.mp h with h | h
    · split at h
      · cases h
      · rename_i hid
        obtain ⟨-, rfl⟩ := Command.setAdd.inj (List.mem_singleton.mp h)
        exact ⟨by simpa [Identified] using hid, rfl⟩
    · exact absurd rfl (ne_seenKey_of_mem h e)

/-- An event of a new id is counted. -/
theorem Written.writeEvent (h : Written config events store)
    (hpool : isNullOrWhiteSpace e.poolId = false)
    (hnew : ∀ e' ∈ events, Identified e' → e'.eventId ≠ e.eventId) :
    Written config (events ++ [e]) (writeEvent config store e) := by
  have hmark : Identified e → (seenKey config e, e.eventId.getD "") ∉ store.sets := by
    intro hid hmem
    obtain ⟨e', he', hcommand⟩ := List.mem_flatMap.mp ((h.sets _ _).mp hmem)
    obtain ⟨hid', heq⟩ := mark_mem_eventCommands hcommand
    exact hnew e' he' hid' (hid'.eventId_eq hid heq.symm)
  rw [writeEvent_eq hpool hmark]
  constructor
  · intro counter
    rw [foldl_exec_hashes, increment_eventCommands hpool, h.hashes, contribution_snoc]
  · intro key member
    rw [mem_foldl_exec_sets, h.sets, List.flatMap_append, List.mem_append]
    simp
  · intro key member
    rw [foldl_exec_score, h.scores, List.flatMap_append, List.filterMap_append,
      List.getLast?_append]
    simp

/-- The ids of the events tell them apart. -/
def DistinctIds (events : List ShareEvent) : Prop :=
  events.Pairwise fun e e' => Identified e → e.eventId ≠ e'.eventId

/-- A batch of events with new ids is counted. -/
theorem Written.writeEvents {batch : List ShareEvent} (h : Written config events store)
    (hpool : ∀ e ∈ batch, isNullOrWhiteSpace e.poolId = false)
    (hids : DistinctIds (events ++ batch)) :
    Written config (events ++ batch) (batch.foldl (LiveAggregator.writeEvent config) store) := by
  induction batch generalizing events store with
  | nil => simpa using h
  | cons e batch ih =>
    obtain ⟨hfirst, hrest⟩ := List.forall_mem_cons.mp hpool
    have hnew : ∀ e' ∈ events, Identified e' → e'.eventId ≠ e.eventId := fun e' he' =>
      (List.pairwise_append.mp hids).2.2 e' he' e List.mem_cons_self
    have hsplit : events ++ e :: batch = (events ++ [e]) ++ batch := by simp
    rw [hsplit] at hids ⊢
    exact ih (h.writeEvent hfirst hnew) hrest hids

end Written

section Subjects

variable {config : Config} {events : List ShareEvent} {e : ShareEvent} {poolId : Option String}
  {bucket : Int}

/-- The event is of a miner. -/
def HasMiner (e : ShareEvent) : Prop := isNullOrWhiteSpace e.miner = false

/-- The event is of a worker. -/
def HasWorker (e : ShareEvent) : Prop := HasMiner e ∧ isNullOrWhiteSpace e.worker = false

instance : DecidablePred HasMiner := fun _ => inferInstanceAs (Decidable (_ = false))

instance : DecidablePred HasWorker := fun _ => inferInstanceAs (Decidable (_ ∧ _))

/-- The name of the miner, or the empty text. -/
def minerName (e : ShareEvent) : String := e.miner.getD ""

/-- The name of the worker, or the empty text. -/
def workerName (e : ShareEvent) : String := e.worker.getD ""

theorem HasMiner.miner_eq (h : HasMiner e) : e.miner = some (minerName e) := by
  rw [HasMiner] at h
  rw [minerName]
  cases hminer : e.miner with
  | none => simp [isNullOrWhiteSpace, hminer] at h
  | some miner => rfl

theorem HasWorker.worker_eq (h : HasWorker e) : e.worker = some (workerName e) := by
  have hworker := h.2
  rw [workerName]
  cases hnone : e.worker with
  | none => simp [isNullOrWhiteSpace, hnone] at hworker
  | some worker => rfl

/-- The text that the last time of a worker is kept for. -/
def dotted (e : ShareEvent) : String := minerName e ++ "." ++ workerName e

/-- The pair of names in the set of workers of a bucket. -/
def tabbed (e : ShareEvent) : String := minerName e ++ "\t" ++ workerName e

/-- The Unix second of an event. -/
def second (e : ShareEvent) : Int := toUnixTimeSeconds e.created

/-- The event that was delivered last for the text of a worker. -/
def lastDelivered (events : List ShareEvent) (text : String) : Option ShareEvent :=
  (events.filter fun e => HasWorker e ∧ dotted e = text).getLast?

/-- The sets that an event is added to, with what is added. -/
theorem setAdd_mem_eventCommands (hpool : isNullOrWhiteSpace e.poolId = false)
    {key member : String} :
    .setAdd key member ∈ eventCommands config e ↔
      (Identified e ∧ key = seenKey config e ∧ member = e.eventId.getD "") ∨
      (HasMiner e ∧
        key = (LiveKey.bucketMiners e.poolId (bucketStart config e)).name config.unicode ∧
        member = minerName e) ∨
      (HasWorker e ∧
        key = (LiveKey.bucketWorkers e.poolId (bucketStart config e)).name config.unicode ∧
        member = tabbed e) := by
  have hmark : .setAdd key member ∈ (if isNullOrWhiteSpace e.eventId then []
      else [Command.setAdd (seenKey config e) (e.eventId.getD "")]) ↔
        Identified e ∧ key = seenKey config e ∧ member = e.eventId.getD "" := by
    simp only [List.mem_ite_nil_left, List.mem_singleton, Command.setAdd.injEq, Identified,
      Bool.not_eq_true]
  rw [eventCommands, hpool, if_neg Bool.false_ne_true, List.mem_append, hmark,
    setAdd_mem_countCommands]
  simp only [not_or, Bool.not_eq_true, HasMiner, HasWorker, minerName, workerName, tabbed]

theorem setAdd_bucketMiners_iff (hpool : isNullOrWhiteSpace e.poolId = false) {member : String} :
    .setAdd ((LiveKey.bucketMiners e.poolId bucket).name config.unicode) member ∈
      eventCommands config e ↔
        HasMiner e ∧ bucketStart config e = bucket ∧ minerName e = member := by
  rw [setAdd_mem_eventCommands hpool]
  simp [seenKey, LiveKey.name_eq_iff, LiveKey.encoded, eq_comm]

theorem setAdd_bucketWorkers_iff (hpool : isNullOrWhiteSpace e.poolId = false) {member : String} :
    .setAdd ((LiveKey.bucketWorkers e.poolId bucket).name config.unicode) member ∈
      eventCommands config e ↔
        HasWorker e ∧ bucketStart config e = bucket ∧ tabbed e = member := by
  rw [setAdd_mem_eventCommands hpool]
  simp [seenKey, LiveKey.name_eq_iff, LiveKey.encoded, eq_comm]

theorem scored_eventCommands (hpool : isNullOrWhiteSpace e.poolId = false) (text : String) :
    (eventCommands config e).filterMap
      (Command.scored ((LiveKey.workersLastSeen e.poolId).name config.unicode) text) =
        if HasWorker e ∧ dotted e = text then [second e] else [] := by
  have hbucket : ∀ key : LiveKey, (incrementBucket config key e).filterMap
      (Command.scored ((LiveKey.workersLastSeen e.poolId).name config.unicode) text) = [] := by
    simp [incrementBucket, Command.scored]
  rw [eventCommands, hpool, dotted, minerName, workerName]
  by_cases htext : e.miner.getD "" ++ "." ++ e.worker.getD "" = text <;>
    cases isNullOrWhiteSpace e.eventId <;> cases hminer : isNullOrWhiteSpace e.miner <;>
    cases hworker : isNullOrWhiteSpace e.worker <;>
    simp [countCommands, hbucket, Command.scored, HasMiner, HasWorker, htext, hminer, hworker,
      second, List.filterMap_cons]

/-- The member of a set of a bucket are the names of the events in it. -/
theorem Written.mem_bucketMiners {store : Store} (h : Written config events store)
    (hpool : ∀ e ∈ events, e.poolId = poolId) (hnonblank : isNullOrWhiteSpace poolId = false)
    {member : String} :
    ((LiveKey.bucketMiners poolId bucket).name config.unicode, member) ∈ store.sets ↔
      ∃ e ∈ events, HasMiner e ∧ bucketStart config e = bucket ∧ minerName e = member := by
  rw [h.sets, List.mem_flatMap]
  refine exists_congr fun e => and_congr_right fun he => ?_
  rw [← hpool e he] at hnonblank ⊢
  exact setAdd_bucketMiners_iff hnonblank

theorem Written.mem_bucketWorkers {store : Store} (h : Written config events store)
    (hpool : ∀ e ∈ events, e.poolId = poolId) (hnonblank : isNullOrWhiteSpace poolId = false)
    {member : String} :
    ((LiveKey.bucketWorkers poolId bucket).name config.unicode, member) ∈ store.sets ↔
      ∃ e ∈ events, HasWorker e ∧ bucketStart config e = bucket ∧ tabbed e = member := by
  rw [h.sets, List.mem_flatMap]
  refine exists_congr fun e => and_congr_right fun he => ?_
  rw [← hpool e he] at hnonblank ⊢
  exact setAdd_bucketWorkers_iff hnonblank

/-- The score of a text is the second of the event that was delivered last for it. -/
theorem Written.score_workersLastSeen {store : Store} (h : Written config events store)
    (hpool : ∀ e ∈ events, e.poolId = poolId) (hnonblank : isNullOrWhiteSpace poolId = false)
    (text : String) :
    store.score ((LiveKey.workersLastSeen poolId).name config.unicode) text =
      (lastDelivered events text).map second := by
  have hscored : (events.flatMap (eventCommands config)).filterMap
      (Command.scored ((LiveKey.workersLastSeen poolId).name config.unicode) text) =
        (events.filter fun e => HasWorker e ∧ dotted e = text).map second := by
    clear h
    induction events with
    | nil => rfl
    | cons e events ih =>
      obtain ⟨hfirst, hrest⟩ := List.forall_mem_cons.mp hpool
      have hnonblankFirst : isNullOrWhiteSpace e.poolId = false := hfirst ▸ hnonblank
      have hcommands := @scored_eventCommands config e hnonblankFirst text
      rw [hfirst] at hcommands
      rw [List.flatMap_cons, List.filterMap_append, ih hrest, hcommands, List.filter_cons]
      split <;> simp [*]
  rw [h.scores, hscored, lastDelivered, List.getLast?_map]

end Subjects

section Counting

instance : Zero Sums := ⟨⟨0, 0, 0, 0⟩⟩

instance : Add Sums :=
  ⟨fun a b => ⟨a.accepted + b.accepted, a.rejected + b.rejected, a.stale + b.stale,
    a.difficulty + b.difficulty⟩⟩

theorem Sums.zero_def : (0 : Sums) = ⟨0, 0, 0, 0⟩ := rfl

theorem Sums.add_def (a b : Sums) :
    a + b = ⟨a.accepted + b.accepted, a.rejected + b.rejected, a.stale + b.stale,
      a.difficulty + b.difficulty⟩ :=
  rfl

instance : AddCommMonoid Sums where
  add_assoc _ _ _ :=
    Sums.ext (add_assoc _ _ _) (add_assoc _ _ _) (add_assoc _ _ _) (add_assoc _ _ _)
  zero_add _ := Sums.ext (zero_add _) (zero_add _) (zero_add _) (zero_add _)
  add_zero _ := Sums.ext (add_zero _) (add_zero _) (add_zero _) (add_zero _)
  add_comm _ _ := Sums.ext (add_comm _ _) (add_comm _ _) (add_comm _ _) (add_comm _ _)
  nsmul := nsmulRec

/-- What an event adds to the sums of its subjects. -/
def eventSums (e : ShareEvent) : Sums :=
  match e.eventType with
  | .shareAccepted | .blockCandidate | .blockAccepted => ⟨1, 0, 0, weightedDifficulty e⟩
  | .shareStale => ⟨0, 0, 1, 0⟩
  | .shareRejected | .blockRejected => ⟨0, 1, 0, 0⟩
  | _ => ⟨0, 0, 0, 0⟩

/-- The sums of events. -/
def sums (events : List ShareEvent) : Sums := (events.map eventSums).sum

variable {config : Config} {store : Store} {events : List ShareEvent}

theorem sums_cons (e : ShareEvent) (events : List ShareEvent) :
    sums (e :: events) = eventSums e + sums events := by
  rw [sums, List.map_cons, List.sum_cons, sums]

theorem totalAt_entries (e : ShareEvent) :
    totalAt (entries e) "total" = 1 ∧ totalAt (entries e) "accepted" = (eventSums e).accepted ∧
      totalAt (entries e) "rejected" = (eventSums e).rejected ∧
      totalAt (entries e) "stale" = (eventSums e).stale ∧
      totalAt (entries e) "difficulty" = (eventSums e).difficulty := by
  cases htype : e.eventType <;> simp [entries, eventSums, htype, totalAt]

/-- The fields of a bucket are the sums of the events in it. -/
theorem fold_eq (events : List ShareEvent) :
    fold events "total" = events.length ∧ fold events "accepted" = (sums events).accepted ∧
      fold events "rejected" = (sums events).rejected ∧ fold events "stale" = (sums events).stale ∧
      fold events "difficulty" = (sums events).difficulty := by
  induction events with
  | nil =>
    refine ⟨rfl, ?_⟩
    simp [fold, sums, Sums.zero_def]
  | cons e events ih =>
    obtain ⟨htotal, haccepted, hrejected, hstale, hdifficulty⟩ := totalAt_entries e
    simp only [fold, List.map_cons, List.sum_cons, htotal, haccepted, hrejected, hstale,
      hdifficulty] at ih ⊢
    simp only [ih, sums_cons, Sums.add_def, List.length_cons, Int.cast_add, Nat.cast_add,
      Nat.cast_one, add_comm, and_self]

/-- A bucket that is read has the sums of the events in it. -/
theorem Written.readCounter_eq (h : Written config events store) (key : String) :
    readCounter store key = ⟨sums (events.filter (key ∈ bucketNames config ·)),
      (events.filter (key ∈ bucketNames config ·)).length⟩ := by
  have hfold : ∀ field, store.hashes (key, field) =
      fold (events.filter (key ∈ bucketNames config ·)) field := by
    intro field
    rw [h.hashes, contribution_eq_fold]
  obtain ⟨htotal, haccepted, hrejected, hstale, hdifficulty⟩ :=
    fold_eq (events.filter (key ∈ bucketNames config ·))
  simp only [readCounter, hfold, htotal, haccepted, hrejected, hstale, hdifficulty,
    truncate_intCast, ← Int.cast_natCast (R := Rat)]

end Counting

section Window

variable {w : Writer} {store : Store} {events : List ShareEvent} {poolId : Option String}
  {now : DateTime}

theorem mem_bucketNames_pool {config : Config} {e : ShareEvent}
    (hpool : isNullOrWhiteSpace e.poolId = false) {bucket : Int} :
    (LiveKey.poolBucket e.poolId bucket).name config.unicode ∈ bucketNames config e ↔
      bucketStart config e = bucket := by
  rw [bucketNames, bucketKeys]
  cases isNullOrWhiteSpace e.miner <;> cases isNullOrWhiteSpace e.worker <;>
    simp [hpool, LiveKey.name_eq_iff, LiveKey.encoded, eq_comm (a := bucket)]

theorem mem_bucketNames_miner {config : Config} {e : ShareEvent}
    (hpool : isNullOrWhiteSpace e.poolId = false) {bucket : Int} {miner : Option String} :
    (LiveKey.minerBucket e.poolId miner bucket).name config.unicode ∈ bucketNames config e ↔
      (HasMiner e ∧ encode config.unicode e.miner = encode config.unicode miner) ∧
        bucketStart config e = bucket := by
  rw [bucketNames, bucketKeys]
  cases hminer : isNullOrWhiteSpace e.miner <;> cases isNullOrWhiteSpace e.worker <;>
    simp [hpool, LiveKey.name_eq_iff, LiveKey.encoded, HasMiner, hminer, eq_comm (a := bucket),
      eq_comm (a := encode config.unicode miner)]

theorem mem_bucketNames_worker {config : Config} {e : ShareEvent}
    (hpool : isNullOrWhiteSpace e.poolId = false) {bucket : Int} {miner worker : Option String} :
    (LiveKey.workerBucket e.poolId miner worker bucket).name config.unicode ∈
      bucketNames config e ↔
      (HasWorker e ∧ encode config.unicode e.miner = encode config.unicode miner ∧
        encode config.unicode e.worker = encode config.unicode worker) ∧
        bucketStart config e = bucket := by
  rw [bucketNames, bucketKeys]
  cases hminer : isNullOrWhiteSpace e.miner <;> cases hworker : isNullOrWhiteSpace e.worker <;>
    simp [hpool, LiveKey.name_eq_iff, LiveKey.encoded, HasMiner, HasWorker, hminer, hworker,
      and_assoc, eq_comm (a := bucket), eq_comm (a := encode config.unicode miner),
      eq_comm (a := encode config.unicode worker)]

/-- The event lies in the window. -/
def Writer.InWindow (w : Writer) (now : DateTime) (e : ShareEvent) : Prop :=
  w.windowStart now ≤ e.created ∧ e.created ≤ now

theorem bucketAt_eq (s : Int) : w.bucketAt s = w.bucketSeconds * s.tdiv w.bucketSeconds := by
  rw [Writer.bucketAt, Int.tmod_def]
  omega

theorem bucketAt_mono {s t : Int} (h : s ≤ t) : w.bucketAt s ≤ w.bucketAt t := by
  have hsize := w.bucketSeconds_pos
  rw [bucketAt_eq, bucketAt_eq]
  exact mul_le_mul_of_nonneg_left (Int.tdiv_le_tdiv hsize h) hsize.le

theorem toUnixTimeSeconds_mono {s t : DateTime} (h : s ≤ t) :
    toUnixTimeSeconds s ≤ toUnixTimeSeconds t := by
  have hdiv := Nat.div_le_div_right (c := 10000000) h
  rw [toUnixTimeSeconds, toUnixTimeSeconds]
  omega

theorem nodup_buckets (w : Writer) (now : DateTime) : (w.buckets now).Nodup := by
  refine List.Nodup.map (fun i j h => ?_) List.nodup_range
  have hsize := w.bucketSeconds_pos
  have hmul : (i : Int) * w.bucketSeconds = j * w.bucketSeconds := by
    simpa using h
  exact_mod_cast Int.eq_of_mul_eq_mul_right hsize.ne' hmul

/-- The bucket of an event in the window is read. -/
theorem Writer.InWindow.bucketStart_mem {e : ShareEvent} (h : w.InWindow now e) :
    bucketStart w.toConfig e ∈ w.buckets now := by
  have hsize := w.bucketSeconds_pos
  have hlow : w.bucketAt _ ≤ w.bucketAt _ := bucketAt_mono (toUnixTimeSeconds_mono h.1)
  have hhigh : w.bucketAt _ ≤ w.bucketAt _ := bucketAt_mono (toUnixTimeSeconds_mono h.2)
  have hbucket : bucketStart w.toConfig e = w.bucketAt (toUnixTimeSeconds e.created) := rfl
  rw [hbucket, Writer.buckets]
  simp only [bucketAt_eq] at hlow hhigh ⊢
  generalize (toUnixTimeSeconds e.created).tdiv w.bucketSeconds = i at hlow hhigh ⊢
  generalize (toUnixTimeSeconds (w.windowStart now)).tdiv w.bucketSeconds = first at hlow ⊢
  generalize (toUnixTimeSeconds now).tdiv w.bucketSeconds = last at hhigh ⊢
  have hfirst := Int.le_of_mul_le_mul_left hlow hsize
  have hlast := Int.le_of_mul_le_mul_left hhigh hsize
  rw [← Int.mul_sub, Int.mul_ediv_cancel_left _ hsize.ne']
  refine List.mem_map.mpr ⟨(i - first).toNat, List.mem_range.mpr (by omega), ?_⟩
  rw [Int.toNat_of_nonneg (by omega)]
  ring

theorem Counter.toSums_foldl_add (counters : List Counter) (counter : Counter) :
    (counters.foldl Counter.add counter).toSums =
      counter.toSums + (counters.map Counter.toSums).sum := by
  induction counters generalizing counter with
  | nil => simp
  | cons c counters ih =>
    rw [List.foldl_cons, ih, List.map_cons, List.sum_cons, ← add_assoc]
    rfl

theorem Counter.total_foldl_add (counters : List Counter) (counter : Counter) :
    (counters.foldl Counter.add counter).total =
      counter.total + (counters.map Counter.total).sum := by
  induction counters generalizing counter with
  | nil => simp
  | cons c counters ih =>
    rw [List.foldl_cons, ih, List.map_cons, List.sum_cons, ← add_assoc]
    rfl

/-- The counters of a subject are the sums of its events. -/
theorem Written.rebuildCounter_eq (h : Written w.toConfig events store)
    (hwindow : ∀ e ∈ events, w.InWindow now e) {key : Int → LiveKey} {P : ShareEvent → Prop}
    [DecidablePred P]
    (hkey : ∀ e ∈ events, ∀ bucket, (key bucket).name w.unicode ∈ bucketNames w.toConfig e ↔
      P e ∧ bucketStart w.toConfig e = bucket) :
    (w.rebuildCounter store (w.buckets now) key).toSums = sums (events.filter P) ∧
      (w.rebuildCounter store (w.buckets now) key).total = (events.filter P).length := by
  have hread : ∀ bucket, readCounter store ((key bucket).name w.unicode) =
      ⟨sums (events.filter fun e => P e ∧ bucketStart w.toConfig e = bucket),
        (events.filter fun e => P e ∧ bucketStart w.toConfig e = bucket).length⟩ := by
    intro bucket
    rw [h.readCounter_eq]
    have hfilter : (events.filter fun e => (key bucket).name w.unicode ∈ bucketNames w.toConfig e) =
        events.filter fun e => P e ∧ bucketStart w.toConfig e = bucket :=
      List.filter_congr fun e he => decide_eq_decide.mpr (hkey e he bucket)
    rw [hfilter]
  have hfold : w.rebuildCounter store (w.buckets now) key =
      (((w.buckets now).map fun bucket =>
        readCounter store ((key bucket).name w.unicode)).foldl Counter.add ⟨⟨0, 0, 0, 0⟩, 0⟩) := by
    rw [List.foldl_map]
    rfl
  have hmem : ∀ e ∈ events, P e → bucketStart w.toConfig e ∈ w.buckets now :=
    fun e he _ => (hwindow e he).bucketStart_mem
  have hcount : ∀ (P : ShareEvent → Prop) [DecidablePred P],
      ((events.filter P).length : Int) = ((events.filter P).map fun _ => (1 : Int)).sum := by
    intro P _
    simp
  rw [hfold, Counter.toSums_foldl_add, Counter.total_foldl_add, List.map_map, List.map_map]
  constructor
  · have hsums := sum_fibres eventSums (bucketStart w.toConfig) P (nodup_buckets w now) hmem
    simp only [Function.comp_def, hread]
    exact (zero_add _).trans hsums
  · have htotals := sum_fibres (fun _ => (1 : Int)) (bucketStart w.toConfig) P
      (nodup_buckets w now) hmem
    simp only [Function.comp_def, hread, hcount]
    exact (zero_add _).trans htotals

/-- The members of the sets of the window, of which those that are the same but for their case are
listed once. -/
theorem mem_unionMembers_of_injOn {key : Int → LiveKey}
    {P : ShareEvent → Prop} {name : ShareEvent → String}
    (hwindow : ∀ e ∈ events, w.InWindow now e)
    (hkey : ∀ bucket member, ((key bucket).name w.unicode, member) ∈ store.sets ↔
      ∃ e ∈ events, P e ∧ bucketStart w.toConfig e = bucket ∧ name e = member) :
    (∀ member ∈ w.unionMembers store (w.buckets now) key, ∃ e ∈ events, P e ∧ name e = member) ∧
      ((∀ e ∈ events, ∀ e' ∈ events, P e → P e' →
          w.ignoreCase (name e) = w.ignoreCase (name e') → name e = name e') →
        ∀ e ∈ events, P e → name e ∈ w.unionMembers store (w.buckets now) key) := by
  have hmem : ∀ member, member ∈ (w.buckets now).flatMap (fun bucket =>
      w.members store.sets ((key bucket).name w.unicode)) ↔
        ∃ e ∈ events, P e ∧ name e = member := by
    intro member
    simp only [List.mem_flatMap, w.mem_members, hkey]
    constructor
    · rintro ⟨bucket, -, e, he, hP, -, hname⟩
      exact ⟨e, he, hP, hname⟩
    · rintro ⟨e, he, hP, hname⟩
      exact ⟨_, (hwindow e he).bucketStart_mem, e, he, hP, rfl, hname⟩
  refine ⟨fun member h => (hmem member).mp (KeyedSet.mem_of_mem_ofList h), fun hinj e he hP => ?_⟩
  refine (KeyedSet.mem_ofList_of_injOn ?_).mpr ((hmem _).mpr ⟨e, he, hP, rfl⟩)
  intro x hx y hy hcase
  obtain ⟨ex, hex, hPx, rfl⟩ := (hmem x).mp hx
  obtain ⟨ey, hey, hPy, rfl⟩ := (hmem y).mp hy
  exact hinj ex hex ey hey hPx hPy hcase

/-- No event of the window is forgotten. -/
theorem Written.removeSeenBefore (h : Written w.toConfig events store)
    (hpool : ∀ e ∈ events, e.poolId = poolId) (hnonblank : isNullOrWhiteSpace poolId = false)
    {seconds : Int} (hseen : ∀ e ∈ events, seconds ≤ second e) :
    Written w.toConfig events (w.removeSeenBefore store poolId seconds) := by
  refine ⟨h.hashes, h.sets, fun key member => ?_⟩
  rw [← h.scores key member]
  refine lookup_filter fun score hscore => decide_eq_true ?_
  rintro ⟨hkey, hbefore⟩
  have hlast := h.score_workersLastSeen hpool hnonblank member
  rw [← (show key = _ from hkey), Store.score, hscore] at hlast
  obtain ⟨e, he, rfl⟩ := Option.map_eq_some_iff.mp hlast.symm
  have hmem := (List.mem_filter.mp (List.mem_of_getLast? he)).1
  have hle := hseen e hmem
  omega

end Window

end HashStorm.LiveAggregator
