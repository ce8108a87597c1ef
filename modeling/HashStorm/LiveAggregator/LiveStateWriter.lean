import HashStorm.Contracts.RedisLiveKeyNames
import HashStorm.Lib.Dictionary
import HashStorm.Lib.Machine

/-!
# The live counters

`RedisLiveStateWriter.WriteEventAsync` marks an event as seen and counts it in the
buckets of its pool, its miner and its worker by separate Redis commands. A crash
or an error behind the mark leaves an event that no redelivery counts any more;
without one, an event is counted once however often it is delivered.
-/

namespace HashStorm.LiveAggregator

open Contracts Dictionary Machine

/-- The commands of `WriteEventAsync`. -/
inductive Command where
  | setAdd (key member : String)
  | sortedSetAdd (key member : String) (score : Int)
  | hashIncrement (key field : String) (amount : Rat)
  | keyExpire (key : String)
  deriving DecidableEq, Repr

/-- The keys of Redis that `WriteEventAsync` writes: sets, sorted sets and hashes. -/
structure Store where
  sets : List (String × String)
  scores : List ((String × String) × Int)
  hashes : String × String → Rat

/-- Execute a command; no key expires. -/
def Store.exec (store : Store) : Command → Store
  | .setAdd key member =>
    if (key, member) ∈ store.sets then store
    else { store with sets := (key, member) :: store.sets }
  | .sortedSetAdd key member score =>
    { store with scores := ((key, member), score) :: store.scores.filter (·.1 ≠ (key, member)) }
  | .hashIncrement key field amount =>
    { store with
      hashes := Function.update store.hashes (key, field) (store.hashes (key, field) + amount) }
  | .keyExpire _ => store

/-- The configuration of the writer: the size of the buckets, and how letters beyond ASCII
are classified. -/
structure Config where
  bucketSeconds : Int
  unicode : Char → Bool

/-- `DateTimeOffset.ToUnixTimeSeconds`. -/
def toUnixTimeSeconds (time : DateTime) : Int := (time / 10000000 : Nat) - 62135596800

/-- `WeightedDifficulty`. -/
def weightedDifficulty (e : ShareEvent) : Rat :=
  max e.difficulty 0 * if e.shareMultiplier > 0 then e.shareMultiplier else 1

/-- The entries of `IncrementBucketAsync`. -/
def entries (e : ShareEvent) : List (String × Rat) :=
  ("total", 1) ::
    match e.eventType with
    | .shareAccepted | .blockCandidate | .blockAccepted =>
      [("accepted", 1), ("difficulty", weightedDifficulty e)]
    | .shareStale => [("stale", 1)]
    | .shareRejected | .blockRejected => [("rejected", 1)]
    | _ => []

variable (config : Config)

/-- `BucketStart`, for the time of an event. -/
def bucketStart (e : ShareEvent) : Int :=
  toUnixTimeSeconds e.created - (toUnixTimeSeconds e.created).tmod config.bucketSeconds

/-- The buckets an event is counted in. -/
def bucketKeys (e : ShareEvent) : List LiveKey :=
  let bucket := bucketStart config e
  if isNullOrWhiteSpace e.poolId then []
  else
    .poolBucket e.poolId bucket ::
      ((if isNullOrWhiteSpace e.miner then [] else [.minerBucket e.poolId e.miner bucket]) ++
      if isNullOrWhiteSpace e.miner ∨ isNullOrWhiteSpace e.worker then []
      else [.workerBucket e.poolId e.miner e.worker bucket])

/-- The set that an event is marked in. -/
def seenKey (e : ShareEvent) : String :=
  (LiveKey.seenEvents e.poolId (bucketStart config e)).name config.unicode

/-- `IncrementBucketAsync`. -/
def incrementBucket (key : LiveKey) (e : ShareEvent) : List Command :=
  (entries e).map fun entry => .hashIncrement (key.name config.unicode) entry.1 entry.2

/-- The commands of `WriteEventAsync` for an event that was not seen. -/
def countCommands (e : ShareEvent) : List Command :=
  let bucket := bucketStart config e
  let name := LiveKey.name config.unicode
  let miner := e.miner.getD ""
  let worker := e.worker.getD ""
  incrementBucket config (.poolBucket e.poolId bucket) e ++
    .keyExpire (name (.poolBucket e.poolId bucket)) ::
    ((if isNullOrWhiteSpace e.miner then []
      else
        [.setAdd (name (.bucketMiners e.poolId bucket)) miner,
          .keyExpire (name (.bucketMiners e.poolId bucket))] ++
        incrementBucket config (.minerBucket e.poolId e.miner bucket) e ++
        [.keyExpire (name (.minerBucket e.poolId e.miner bucket))]) ++
    if isNullOrWhiteSpace e.miner ∨ isNullOrWhiteSpace e.worker then []
    else
      [.sortedSetAdd (name (.workersLastSeen e.poolId)) (miner ++ "." ++ worker)
          (toUnixTimeSeconds e.created),
        .setAdd (name (.bucketWorkers e.poolId bucket)) (miner ++ "\t" ++ worker),
        .keyExpire (name (.bucketWorkers e.poolId bucket))] ++
      incrementBucket config (.workerBucket e.poolId e.miner e.worker bucket) e ++
      [.keyExpire (name (.workerBucket e.poolId e.miner e.worker bucket))])

/-- A batch under way: the events that are written, the commands left of the last one of
them, and the events left. -/
structure Progress where
  written : List ShareEvent
  commands : List Command
  remaining : List ShareEvent
  deriving DecidableEq, Repr

/-- The store, the batch under way, the events that were delivered, those of completed
batches, and those whose writing was begun. -/
structure State where
  store : Store
  current : Option Progress
  delivered : List ShareEvent
  completed : List ShareEvent
  begun : List ShareEvent

/-- Nothing was delivered, and the store is empty. -/
def State.initial : State := ⟨⟨[], [], fun _ => 0⟩, none, [], [], []⟩

/-- What can happen: a batch is delivered, the next command is executed, or the batch is
given up by a crash, an error or a cancellation. -/
inductive Op where
  | deliver (batch : List ShareEvent)
  | next
  | crash
  deriving DecidableEq, Repr

/-- The start of `WriteEventAsync`, with `MarkSeenAsync`. -/
def State.begin (s : State) (written : List ShareEvent) (e : ShareEvent)
    (remaining : List ShareEvent) : State :=
  let begun := e :: s.begun
  if isNullOrWhiteSpace e.poolId then
    { s with current := some ⟨written ++ [e], [], remaining⟩, begun := begun }
  else if isNullOrWhiteSpace e.eventId then
    { s with
      current := some ⟨written ++ [e], countCommands config e, remaining⟩
      begun := begun }
  else
    let id := e.eventId.getD ""
    if (seenKey config e, id) ∈ s.store.sets then
      { s with
        current := some ⟨written ++ [e], [.keyExpire (seenKey config e)], remaining⟩
        begun := begun }
    else
      { s with
        store := s.store.exec (.setAdd (seenKey config e) id)
        current := some
          ⟨written ++ [e], .keyExpire (seenKey config e) :: countCommands config e, remaining⟩
        begun := begun }

/-- `WriteEventAsync` without a failure. -/
def writeEvent (store : Store) (e : ShareEvent) : Store :=
  if isNullOrWhiteSpace e.poolId then store
  else if isNullOrWhiteSpace e.eventId then (countCommands config e).foldl Store.exec store
  else
    let id := e.eventId.getD ""
    if (seenKey config e, id) ∈ store.sets then store
    else (countCommands config e).foldl Store.exec (store.exec (.setAdd (seenKey config e) id))

/-- The writing of an event step by step, without a failure, comes to the same. -/
theorem begin_writeEvent (s : State) (written : List ShareEvent) (e : ShareEvent)
    (remaining : List ShareEvent) :
    ∀ p ∈ (s.begin config written e remaining).current,
      p.commands.foldl Store.exec (s.begin config written e remaining).store =
        writeEvent config s.store e := by
  rw [State.begin, writeEvent]
  simp only
  split
  · rintro p ⟨rfl⟩
    rfl
  · split
    · rintro p ⟨rfl⟩
      rfl
    · split
      · rintro p ⟨rfl⟩
        rfl
      · rintro p ⟨rfl⟩
        rfl

/-- One step of the writer. A batch completes with `RebuildPoolWindowAsync`, which reads the
counters and writes other keys. -/
def step (s : State) : Op → Option State
  | .deliver batch =>
    match s.current with
    | none => some { s with current := some ⟨[], [], batch⟩, delivered := s.delivered ++ batch }
    | some _ => none
  | .next =>
    s.current.map fun p =>
      match p.commands, p.remaining with
      | command :: commands, _ =>
        { s with
          store := s.store.exec command
          current := some { p with commands := commands } }
      | [], e :: remaining => s.begin config p.written e remaining
      | [], [] => { s with current := none, completed := s.completed ++ p.written }
  | .crash => s.current.map fun _ => { s with current := none }

/-- What a command adds to a counter. -/
def Command.increment : Command → Option ((String × String) × Rat)
  | .hashIncrement key field amount => some ((key, field), amount)
  | _ => none

/-- What `WriteEventAsync` adds to the counters for an event that was not seen. -/
def increments (e : ShareEvent) : List ((String × String) × Rat) :=
  (bucketKeys config e).flatMap fun k =>
    (entries e).map fun entry => ((k.name config.unicode, entry.1), entry.2)

/-- The id of an event tells it from others. -/
def Identified (e : ShareEvent) : Prop := isNullOrWhiteSpace e.eventId = false

instance : DecidablePred Identified := fun _ => inferInstanceAs (Decidable (_ = false))

/-- Different events; each occurrence of an event without an id counts as another one. -/
def distinct (events : List ShareEvent) : List ShareEvent :=
  (events.filter Identified).dedup ++ events.filter (¬Identified ·)

/-- What the events add to a counter. -/
def contribution (events : List ShareEvent) (counter : String × String) : Rat :=
  (events.map fun e => totalAt (increments config e) counter).sum

/-- The ids of the events that are delivered identify them, and no batch is given up between
the mark of an event and its last counter. -/
def Op.Safe (s : State) : Op → Prop
  | .deliver batch =>
    ∀ e ∈ s.delivered ++ batch, ∀ e' ∈ s.delivered ++ batch,
      Identified e → e.eventId = e'.eventId → e = e'
  | .next => True
  | .crash => ∀ p ∈ s.current, ∀ command ∈ p.commands, command.increment = none

instance decidableSafe (s : State) : ∀ op : Op, Decidable (op.Safe s)
  | .deliver batch => inferInstanceAs (Decidable (∀ e ∈ s.delivered ++ batch,
      ∀ e' ∈ s.delivered ++ batch, Identified e → e.eventId = e'.eventId → e = e'))
  | .next => inferInstanceAs (Decidable True)
  | .crash => inferInstanceAs (Decidable (∀ p ∈ s.current, ∀ command ∈ p.commands,
      command.increment = none))

/-- What the commands left add to the counters. -/
def State.pending (s : State) : List ((String × String) × Rat) :=
  match s.current with
  | none => []
  | some p => p.commands.filterMap Command.increment

/-- Both events are marked by the same member of the same set. -/
def SameMark (e e' : ShareEvent) : Prop :=
  isNullOrWhiteSpace e.poolId = false ∧ seenKey config e = seenKey config e' ∧
    e.eventId = e'.eventId

/-- The counters and the commands left add up to the different events whose writing was
begun, and these are the ones that are marked. -/
structure Inv (s : State) : Prop where
  identified : ∀ e ∈ s.delivered, ∀ e' ∈ s.delivered, Identified e → e.eventId = e'.eventId → e = e'
  begun : s.begun ⊆ s.delivered
  completed : s.completed ⊆ s.begun
  written : ∀ p ∈ s.current, p.written ⊆ s.begun
  remaining : ∀ p ∈ s.current, p.remaining ⊆ s.delivered
  marks : ∀ p ∈ s.current, ∀ key member, .setAdd key member ∈ p.commands →
    ∀ e, key ≠ seenKey config e
  seen : ∀ e, Identified e →
    ((seenKey config e, e.eventId.getD "") ∈ s.store.sets ↔ ∃ e' ∈ s.begun, SameMark config e' e)
  counting : ∀ p ∈ s.current, (∃ command ∈ p.commands, command.increment ≠ none) →
    ∃ e ∈ s.begun, Identified e → e ∉ s.completed
  counters : ∀ counter, s.store.hashes counter + totalAt s.pending counter =
    contribution config (distinct s.begun) counter

section Commands

variable {config}

theorem Store.hashes_exec (store : Store) (command : Command) (counter : String × String) :
    (store.exec command).hashes counter =
      store.hashes counter + totalAt command.increment.toList counter := by
  cases command with
  | setAdd key member =>
    rw [Store.exec]
    split <;> simp [Command.increment]
  | hashIncrement key field amount =>
    by_cases h : (key, field) = counter
    · subst h
      simp [Store.exec, Command.increment, totalAt]
    · simp [Store.exec, Command.increment, totalAt, h, Function.update_of_ne (Ne.symm h)]
  | _ => simp [Store.exec, Command.increment]

theorem Store.mem_sets_exec {store : Store} {command : Command} {entry : String × String} :
    entry ∈ (store.exec command).sets ↔
      entry ∈ store.sets ∨ command = .setAdd entry.1 entry.2 := by
  cases command with
  | setAdd key member =>
    rw [Store.exec]
    split
    · rename_i h
      refine ⟨.inl, ?_⟩
      rintro (hentry | hentry)
      · exact hentry
      · cases hentry
        exact h
    · rw [List.mem_cons, or_comm, Prod.ext_iff]
      simp [eq_comm]
  | _ => simp [Store.exec]

/-- The commands for an event that was not seen count it. -/
theorem increment_countCommands {e : ShareEvent} (h : isNullOrWhiteSpace e.poolId = false) :
    (countCommands config e).filterMap Command.increment = increments config e := by
  have hbucket : ∀ key : LiveKey, (incrementBucket config key e).filterMap Command.increment =
      (entries e).map fun entry => ((key.name config.unicode, entry.1), entry.2) := by
    intro key
    rw [incrementBucket, List.filterMap_map, ← List.filterMap_eq_map]
    rfl
  simp only [countCommands, increments, bucketKeys, h]
  cases isNullOrWhiteSpace e.miner <;> cases isNullOrWhiteSpace e.worker <;>
    simp [hbucket, List.filterMap_cons, Command.increment]

/-- The sets that an event is counted in list its miner and its worker. -/
theorem setAdd_mem_countCommands {e : ShareEvent} {key member : String} :
    .setAdd key member ∈ countCommands config e ↔
      (¬isNullOrWhiteSpace e.miner ∧
        key = (LiveKey.bucketMiners e.poolId (bucketStart config e)).name config.unicode ∧
        member = e.miner.getD "") ∨
      (¬(isNullOrWhiteSpace e.miner ∨ isNullOrWhiteSpace e.worker) ∧
        key = (LiveKey.bucketWorkers e.poolId (bucketStart config e)).name config.unicode ∧
        member = e.miner.getD "" ++ "\t" ++ e.worker.getD "") := by
  have hbucket : ∀ k : LiveKey, .setAdd key member ∉ incrementBucket config k e := by
    simp [incrementBucket]
  simp only [countCommands, List.mem_append, List.mem_cons, hbucket, List.mem_ite_nil_left,
    reduceCtorEq, List.not_mem_nil, or_false, false_or, Command.setAdd.injEq]

/-- The sets of miners and workers are no sets of marks. -/
theorem ne_seenKey_of_mem {e : ShareEvent} {key member : String}
    (h : .setAdd key member ∈ countCommands config e) (e' : ShareEvent) :
    key ≠ seenKey config e' := by
  intro hseen
  rcases setAdd_mem_countCommands.mp h with ⟨-, hkey, -⟩ | ⟨-, hkey, -⟩
  · have hname := LiveKey.name_eq_iff.mp (hkey.symm.trans hseen)
    simp [LiveKey.encoded] at hname
  · have hname := LiveKey.name_eq_iff.mp (hkey.symm.trans hseen)
    simp [LiveKey.encoded] at hname

end Commands

section Distinct

variable {config} {events : List ShareEvent} {e : ShareEvent} {counter : String × String}

theorem contribution_cons (e : ShareEvent) (events : List ShareEvent) :
    contribution config (e :: events) counter =
      totalAt (increments config e) counter + contribution config events counter := by
  simp [contribution]

theorem contribution_append (events others : List ShareEvent) :
    contribution config (events ++ others) counter =
      contribution config events counter + contribution config others counter := by
  simp [contribution]

/-- An event that is there already adds nothing. -/
theorem distinct_cons_of_mem (h : Identified e) (hmem : e ∈ events) :
    distinct (e :: events) = distinct events := by
  have hfilter : e ∈ events.filter Identified := List.mem_filter.mpr ⟨hmem, by simpa using h⟩
  simp [distinct, h, List.dedup_cons_of_mem hfilter]

/-- A new event adds its increments. -/
theorem contribution_distinct_cons (h : Identified e → e ∉ events) :
    contribution config (distinct (e :: events)) counter =
      totalAt (increments config e) counter + contribution config (distinct events) counter := by
  by_cases he : Identified e
  · have hfilter : e ∉ events.filter Identified := fun hmem => h he (List.mem_filter.mp hmem).1
    simp [distinct, he, List.dedup_cons_of_notMem hfilter, contribution_cons]
  · simp only [distinct, he, List.filter_cons, contribution_append, not_false_eq_true,
      decide_true, decide_false, if_true, contribution_cons, Bool.false_eq_true, if_false]
    ring

end Distinct

section Steps

variable {config} {s : State}

theorem inv_initial : Inv config State.initial := by
  constructor <;> simp [State.initial, State.pending, distinct, contribution]

theorem pending_of_current {p : Progress} (h : s.current = some p) :
    s.pending = p.commands.filterMap Command.increment := by
  rw [State.pending, h]

theorem Identified.eventId_eq {e e' : ShareEvent} (he : Identified e) (he' : Identified e')
    (h : e.eventId.getD "" = e'.eventId.getD "") : e.eventId = e'.eventId := by
  cases hid : e.eventId with
  | none => simp [Identified, isNullOrWhiteSpace, hid] at he
  | some id =>
    cases hid' : e'.eventId with
    | none => simp [Identified, isNullOrWhiteSpace, hid'] at he'
    | some id' => simpa [hid, hid'] using h

/-- The writing of the next event is begun. -/
theorem Inv.begin_event (h : Inv config s) {written remaining : List ShareEvent} {e : ShareEvent}
    (hcurrent : s.current = some ⟨written, [], e :: remaining⟩) {store : Store}
    {commands : List Command}
    (hmarks : ∀ key member, .setAdd key member ∈ commands → ∀ e, key ≠ seenKey config e)
    (hseen : ∀ e', Identified e' → ((seenKey config e', e'.eventId.getD "") ∈ store.sets ↔
      SameMark config e e' ∨ (seenKey config e', e'.eventId.getD "") ∈ s.store.sets))
    (hcounting : (∃ command ∈ commands, command.increment ≠ none) → Identified e → e ∉ s.begun)
    (hcounters : ∀ counter, store.hashes counter +
        totalAt (commands.filterMap Command.increment) counter =
      contribution config (distinct (e :: s.begun)) counter) :
    Inv config { s with
      store := store
      current := some ⟨written ++ [e], commands, remaining⟩
      begun := e :: s.begun } := by
  have hremaining := h.remaining _ hcurrent
  have hwritten := h.written _ hcurrent
  refine ⟨h.identified, ?_, ?_, ?_, ?_, ?_, ?_, ?_, hcounters⟩
  · exact List.cons_subset.mpr ⟨hremaining List.mem_cons_self, h.begun⟩
  · exact fun x hx => List.mem_cons_of_mem _ (h.completed hx)
  · rintro p ⟨rfl⟩ x hx
    rcases List.mem_append.mp hx with hx | hx
    · exact List.mem_cons_of_mem _ (hwritten hx)
    · exact List.mem_singleton.mp hx ▸ List.mem_cons_self
  · rintro p ⟨rfl⟩ x hx
    exact hremaining (List.mem_cons_of_mem _ hx)
  · rintro p ⟨rfl⟩
    exact hmarks
  · intro e' hid
    rw [hseen e' hid, h.seen e' hid, List.exists_mem_cons_iff]
  · rintro p ⟨rfl⟩ hcommands
    exact ⟨e, List.mem_cons_self, fun hid he => hcounting hcommands hid (h.completed he)⟩

/-- An event that was delivered is marked when its writing was begun. -/
theorem Inv.marked_iff (h : Inv config s) {e : ShareEvent} (he : e ∈ s.delivered)
    (hid : Identified e) (hpool : isNullOrWhiteSpace e.poolId = false) :
    (seenKey config e, e.eventId.getD "") ∈ s.store.sets ↔ e ∈ s.begun := by
  rw [h.seen e hid]
  constructor
  · rintro ⟨e', he', -, -, hids⟩
    rwa [h.identified e he e' (h.begun he') hid hids.symm]
  · exact fun hbegun => ⟨e, hbegun, hpool, rfl, rfl⟩

theorem Inv.begin (h : Inv config s) {written remaining : List ShareEvent} {e : ShareEvent}
    (hcurrent : s.current = some ⟨written, [], e :: remaining⟩) :
    Inv config (s.begin config written e remaining) := by
  have he : e ∈ s.delivered := h.remaining _ hcurrent List.mem_cons_self
  have hcounters : ∀ counter, s.store.hashes counter =
      contribution config (distinct s.begun) counter := by
    intro counter
    have := h.counters counter
    rwa [pending_of_current hcurrent, List.filterMap_nil, totalAt_nil, add_zero] at this
  rw [State.begin]
  simp only
  split
  · -- an event without a pool adds nothing, whether it is new or not
    rename_i hpool
    have hnone : increments config e = [] := by simp [increments, bucketKeys, hpool]
    refine h.begin_event hcurrent (by simp) ?_ (by simp) ?_
    · intro e' hid
      refine (or_iff_right fun hmark => ?_).symm
      cases hpool.symm.trans hmark.1
    · intro counter
      rw [List.filterMap_nil, totalAt_nil, add_zero, hcounters]
      by_cases hmem : Identified e ∧ e ∈ s.begun
      · rw [distinct_cons_of_mem hmem.1 hmem.2]
      · rw [contribution_distinct_cons (not_and.mp hmem), hnone, totalAt_nil, zero_add]
  · rename_i hpool
    rw [Bool.not_eq_true] at hpool
    split
    · -- an event without an id is counted whenever it is written
      rename_i hid
      have hnot : ¬Identified e := by simpa [Identified] using hid
      refine h.begin_event hcurrent (fun key member => ne_seenKey_of_mem) ?_
        (fun _ hid => absurd hid hnot) ?_
      · intro e' hid'
        refine (or_iff_right fun hmark => hnot ?_).symm
        rwa [Identified, hmark.2.2]
      · intro counter
        rw [increment_countCommands hpool, contribution_distinct_cons (fun h => absurd h hnot),
          hcounters, add_comm]
    · rename_i hid
      have hid : Identified e := by simpa [Identified] using hid
      split
      · rename_i hmem
        refine h.begin_event hcurrent (by simp) ?_ (by simp [Command.increment]) ?_
        · intro e' hid'
          refine (or_iff_right_of_imp fun hmark => ?_).symm
          rwa [← hmark.2.1, ← hmark.2.2]
        · intro counter
          rw [distinct_cons_of_mem hid ((h.marked_iff he hid hpool).mp hmem), ← hcounters]
          simp [List.filterMap_cons, Command.increment]
      · rename_i hmem
        have hnew : e ∉ s.begun := (h.marked_iff he hid hpool).not.mp hmem
        refine h.begin_event hcurrent ?_ ?_ (fun _ _ => hnew) ?_
        · intro key member hcommand
          rcases List.mem_cons.mp hcommand with hcommand | hcommand
          · cases hcommand
          · exact ne_seenKey_of_mem hcommand
        · intro e' hid'
          rw [Store.mem_sets_exec, or_comm]
          refine or_congr_left ⟨fun hmark => ?_, fun hmark => ?_⟩
          · obtain ⟨hkeys, hids⟩ := Command.setAdd.inj hmark
            exact ⟨hpool, hkeys, hid.eventId_eq hid' hids⟩
          · rw [hmark.2.1, hmark.2.2]
        · intro counter
          rw [Store.hashes_exec, List.filterMap_cons]
          simp only [Command.increment, Option.toList_none, totalAt_nil, add_zero]
          rw [increment_countCommands hpool, contribution_distinct_cons fun _ => hnew, hcounters,
            add_comm]

theorem Inv.exec (h : Inv config s) {written remaining : List ShareEvent} {command : Command}
    {commands : List Command}
    (hcurrent : s.current = some ⟨written, command :: commands, remaining⟩) :
    Inv config { s with
      store := s.store.exec command
      current := some ⟨written, commands, remaining⟩ } := by
  refine ⟨h.identified, h.begun, h.completed, ?_, ?_, ?_, ?_, ?_, ?_⟩
  · rintro p ⟨rfl⟩
    exact fun x hx => h.written _ hcurrent hx
  · rintro p ⟨rfl⟩
    exact fun x hx => h.remaining _ hcurrent hx
  · rintro p ⟨rfl⟩ key member hmem
    exact h.marks _ hcurrent key member (List.mem_cons_of_mem _ hmem)
  · intro e hid
    rw [Store.mem_sets_exec, h.seen e hid]
    refine or_iff_left ?_
    rintro rfl
    exact h.marks _ hcurrent _ _ List.mem_cons_self e rfl
  · rintro p ⟨rfl⟩ ⟨c, hc, hincrement⟩
    exact h.counting _ hcurrent ⟨c, List.mem_cons_of_mem _ hc, hincrement⟩
  · intro counter
    have hcounter := h.counters counter
    rw [pending_of_current hcurrent] at hcounter
    rw [← hcounter, Store.hashes_exec, add_assoc, ← totalAt_append]
    cases hincrement : command.increment <;> simp [State.pending, hincrement]

/-- A batch ends while nothing is left to count. -/
theorem Inv.stop (h : Inv config s) {p : Progress} (hcurrent : s.current = some p)
    (hcommands : ∀ command ∈ p.commands, command.increment = none) {completed : List ShareEvent}
    (hcompleted : completed ⊆ s.begun) :
    Inv config { s with current := none, completed := completed } := by
  refine ⟨h.identified, h.begun, hcompleted, by simp, by simp, by simp, h.seen, by simp, ?_⟩
  intro counter
  rw [← h.counters counter, pending_of_current hcurrent, List.filterMap_eq_nil_iff.mpr hcommands]
  rfl

theorem Inv.step (h : Inv config s) {op : Op} (hsafe : op.Safe s) {s' : State}
    (hstep : step config s op = some s') : Inv config s' := by
  cases op with
  | deliver batch =>
    cases hcurrent : s.current with
    | some p => simp [LiveAggregator.step, hcurrent] at hstep
    | none =>
      rw [LiveAggregator.step, hcurrent] at hstep
      cases hstep
      refine ⟨hsafe, fun x hx => List.mem_append_left _ (h.begun hx), h.completed, ?_, ?_, ?_,
        h.seen, ?_, ?_⟩
      · rintro p ⟨rfl⟩
        exact List.nil_subset _
      · rintro p ⟨rfl⟩
        exact List.subset_append_right _ _
      · rintro p ⟨rfl⟩ key member hmem
        cases hmem
      · rintro p ⟨rfl⟩ ⟨command, hmem, -⟩
        cases hmem
      · intro counter
        rw [← h.counters counter, State.pending, State.pending, hcurrent]
        rfl
  | crash =>
    rw [LiveAggregator.step, Option.map_eq_some_iff] at hstep
    obtain ⟨p, hcurrent, rfl⟩ := hstep
    exact h.stop hcurrent (hsafe p hcurrent) h.completed
  | next =>
    rw [LiveAggregator.step, Option.map_eq_some_iff] at hstep
    obtain ⟨⟨written, commands, remaining⟩, hcurrent, rfl⟩ := hstep
    match commands, remaining with
    | command :: commands, _ => exact h.exec hcurrent
    | [], e :: remaining => exact h.begin hcurrent
    | [], [] =>
      refine h.stop hcurrent (by simp) ?_
      exact List.append_subset.mpr ⟨h.completed, h.written _ hcurrent⟩

end Steps

section Buckets

/-- The names of the buckets an event is counted in. -/
def bucketNames (e : ShareEvent) : List String :=
  (bucketKeys config e).map (LiveKey.name config.unicode)

/-- The value of a counter after the events. -/
def fold (events : List ShareEvent) (field : String) : Rat :=
  (events.map fun e => totalAt (entries e) field).sum

variable {config}

/-- The buckets of an event are different. -/
theorem nodup_bucketNames (e : ShareEvent) : (bucketNames config e).Nodup := by
  simp only [bucketNames, bucketKeys]
  cases isNullOrWhiteSpace e.poolId <;> cases isNullOrWhiteSpace e.miner <;>
    cases isNullOrWhiteSpace e.worker <;> simp [LiveKey.name_eq_iff, LiveKey.encoded]

/-- An event adds its entries to each of its buckets, and nothing to others. -/
theorem totalAt_increments (e : ShareEvent) (name field : String) :
    totalAt (increments config e) (name, field) =
      if name ∈ bucketNames config e then totalAt (entries e) field else 0 := by
  have hbucket : ∀ k : LiveKey, totalAt ((entries e).map fun entry =>
      ((k.name config.unicode, entry.1), entry.2)) (name, field) =
      if k.name config.unicode = name then totalAt (entries e) field else 0 := by
    intro k
    induction entries e with
    | nil => simp
    | cons entry rest ih =>
      rw [List.map_cons, totalAt_cons, totalAt_cons, ih]
      by_cases hname : k.name config.unicode = name <;> simp [hname]
  have hnodup : (bucketNames config e).Nodup := nodup_bucketNames e
  rw [bucketNames] at hnodup ⊢
  rw [increments]
  revert hnodup
  induction bucketKeys config e with
  | nil => simp
  | cons k keys ih =>
    intro hnodup
    rw [List.map_cons, List.nodup_cons] at hnodup
    rw [List.flatMap_cons, totalAt_append, ih hnodup.2, hbucket]
    by_cases hname : k.name config.unicode = name
    · subst hname
      simp [hnodup.1]
    · simp [hname, Ne.symm hname]

/-- The events that are counted in a bucket are all that counts for it. -/
theorem contribution_eq_fold (events : List ShareEvent) (name field : String) :
    contribution config events (name, field) =
      fold (events.filter (name ∈ bucketNames config ·)) field := by
  induction events with
  | nil => rfl
  | cons e events ih =>
    rw [contribution_cons, totalAt_increments, ih]
    by_cases hname : name ∈ bucketNames config e <;> simp [fold, hname]

/-- When nothing is left to count, the counters are those of the different events. -/
theorem Inv.hashes_eq {s : State} (h : Inv config s) (hpending : s.pending = [])
    (hcompleted : s.delivered ⊆ s.completed) (name field : String) :
    s.store.hashes (name, field) =
      fold (((s.delivered.filter Identified).dedup ++ s.begun.filter (¬Identified ·)).filter
        (name ∈ bucketNames config ·)) field := by
  have hperm : (s.begun.filter Identified).dedup.Perm (s.delivered.filter Identified).dedup := by
    refine (List.perm_ext_iff_of_nodup (List.nodup_dedup _) (List.nodup_dedup _)).mpr fun e => ?_
    simp only [List.mem_dedup, List.mem_filter, and_congr_left_iff]
    exact fun _ => ⟨fun he => h.begun he, fun he => h.completed (hcompleted he)⟩
  have hcounters := h.counters (name, field)
  rw [hpending, totalAt_nil, add_zero] at hcounters
  rw [hcounters, contribution_eq_fold]
  exact (((hperm.append_right _).filter _).map _).sum_eq

/-- **Every bucket counts each different event once**, when no batch is given up between the
mark of an event and its last counter. Miners whose names are encoded alike share a bucket,
and an event without an id is counted whenever it is written. -/
theorem counters_exactly_once {ops : List Op} {s : State}
    (hrun : run (step config) State.initial ops = some s)
    (hsafe : Meets (step config) (fun s op => op.Safe s) State.initial ops)
    (hcompleted : s.delivered ⊆ s.completed) :
    (s.current = none → ∀ name field, s.store.hashes (name, field) =
      fold (((s.delivered.filter Identified).dedup ++ s.begun.filter (¬Identified ·)).filter
        (name ∈ bucketNames config ·)) field) ∧
    ((∀ e ∈ s.delivered, Identified e) →
      ∀ k : LiveKey, (∀ e ∈ s.delivered, ∀ k' ∈ bucketKeys config e,
        k'.encoded config.unicode = k.encoded config.unicode → k' = k) →
      ∀ field, s.store.hashes (k.name config.unicode, field) =
        fold (s.delivered.dedup.filter (k ∈ bucketKeys config ·)) field) := by
  have hinv : Inv config s :=
    run_invariant (Inv config) (fun s op s' h hsafe => h.step hsafe) inv_initial hsafe hrun
  refine ⟨fun hidle => hinv.hashes_eq (by rw [State.pending, hidle]) hcompleted, ?_⟩
  intro hidentified k hseparate field
  have hpending : s.pending = [] := by
    cases hcurrent : s.current with
    | none => rw [State.pending, hcurrent]
    | some p =>
      rw [pending_of_current hcurrent, List.filterMap_eq_nil_iff]
      by_contra hcommands
      push Not at hcommands
      obtain ⟨e, he, hopen⟩ := hinv.counting p hcurrent hcommands
      have hdelivered := hinv.begun he
      exact hopen (hidentified e hdelivered) (hcompleted hdelivered)
  have hbegun : s.begun.filter (¬Identified ·) = [] := by
    rw [List.filter_eq_nil_iff]
    intro e he
    simpa using hidentified e (hinv.begun he)
  have hall : s.delivered.filter Identified = s.delivered := by
    rw [List.filter_eq_self]
    intro e he
    simpa using hidentified e he
  rw [hinv.hashes_eq hpending hcompleted, hbegun, hall, List.append_nil]
  congr 1
  refine List.filter_congr fun e he => ?_
  rw [decide_eq_decide, bucketNames, List.mem_map]
  constructor
  · rintro ⟨k', hk', hname⟩
    rwa [← hseparate e (List.mem_dedup.mp he) k' hk' (LiveKey.name_eq_iff.mp hname)]
  · exact fun hk => ⟨k, hk, rfl⟩

/-- A share that is found at the start of the bucket `0`. -/
def foundShare : ShareEvent :=
  { eventId := some "found", eventType := .shareAccepted, poolId := some "pool"
    miner := some "miner", worker := some "rig", created := 621355968000000000, difficulty := 2 }

/-- Buckets of ten seconds. -/
def tenSeconds : Config := ⟨10, fun _ => false⟩

/-- The share is delivered, counted and delivered again. -/
def redelivery : List Op :=
  .deliver [foundShare] :: List.replicate 20 .next ++
    .deliver [foundShare] :: List.replicate 3 .next

/-- A share that is delivered again is counted once. -/
theorem counters_redelivered :
    ∃ s, run (step tenSeconds) State.initial redelivery = some s ∧
      s.store.hashes ((LiveKey.minerBucket (some "pool") (some "miner") 0).name tenSeconds.unicode,
        "difficulty") = 2 := by
  have hevents : ∃ s ∈ run (step tenSeconds) State.initial redelivery,
      s.delivered = [foundShare, foundShare] ∧ s.completed = [foundShare, foundShare] := by
    decide +kernel
  obtain ⟨s, hs, hdelivered, hcompleted⟩ := hevents
  have hcounters := (counters_exactly_once hs (by decide +kernel)
    (by rw [hdelivered, hcompleted]; exact List.Subset.refl _)).2
  rw [hdelivered] at hcounters
  refine ⟨s, hs, ?_⟩
  rw [hcounters (by decide +kernel) (.minerBucket (some "pool") (some "miner") 0)
    (by decide +kernel)]
  decide +kernel

/-- The batch is given up behind the mark of the share, and delivered again. -/
def givenUpMarked : List Op :=
  .deliver [foundShare] :: .next :: .next :: .crash ::
    .deliver [foundShare] :: List.replicate 3 .next

/-- A share whose batch is given up behind its mark is missing after it is delivered again. -/
theorem counters_lose_marked :
    ∃ s, run (step tenSeconds) State.initial givenUpMarked = some s ∧
      s.current = none ∧ s.delivered ⊆ s.completed ∧ (∀ e ∈ s.delivered, Identified e) ∧
      let k := LiveKey.minerBucket (some "pool") (some "miner") 0
      (∀ e ∈ s.delivered, ∀ k' ∈ bucketKeys tenSeconds e,
        k'.encoded tenSeconds.unicode = k.encoded tenSeconds.unicode → k' = k) ∧
      s.store.hashes (k.name tenSeconds.unicode, "total") = 0 ∧
      fold (s.delivered.dedup.filter (k ∈ bucketKeys tenSeconds ·)) "total" = 1 := by
  obtain ⟨s, hs⟩ := Option.isSome_iff_exists.mp
    (by decide +kernel : (run (step tenSeconds) State.initial givenUpMarked).isSome = true)
  refine ⟨s, hs, ?_⟩
  revert s
  decide +kernel

end Buckets

end HashStorm.LiveAggregator
