import HashStorm.Contracts.ShareEvent
import HashStorm.Lib.Gauge
import HashStorm.Lib.Machine
import Mathlib.Order.Fin.Basic
import Mathlib.Tactic.Linarith

/-!
# The hand-off queue

`InMemoryShareEventQueue` is an unbounded channel with two gauges. `EnqueueAsync` writes to the
channel before it counts, and the consumer reads before it counts down, so that an event can leave
the gauges before it has entered them. The gauges are never negative in a run if and only if the
consumer never counts down more than the channel covers.
-/

namespace HashStorm.Eventing.Queue

open Contracts Machine Gauge

/-- An event with its size, a positive `int`. -/
structure QueuedShareEvent where
  event : ShareEvent
  approximateBytes : Fin (2 ^ 31)
  deriving DecidableEq, Repr

/-- The size as it is added to the gauge. -/
def QueuedShareEvent.bytes (queued : QueuedShareEvent) : Int := queued.approximateBytes.val

/-- Where the consumer stands in `DequeueAsync` or `TryDequeue`. -/
inductive Consumer where
  | idle
  /-- Before `Interlocked.Decrement`. -/
  | counting (queued : QueuedShareEvent)
  /-- Before `Interlocked.Add`. -/
  | adding (queued : QueuedShareEvent)
  deriving DecidableEq, Repr

/-- The channel, the gauges, the callers of `EnqueueAsync` before each of the two updates of
`AddQueued`, and the consumer. -/
structure State where
  channel : List QueuedShareEvent
  count : Int32
  approximateBytes : Int64
  counting : List (Nat × QueuedShareEvent)
  adding : List (Nat × QueuedShareEvent)
  consumer : Consumer
  deriving DecidableEq, Repr

/-- A new queue. -/
def State.initial : State := ⟨[], 0, 0, [], [], .idle⟩

/-- The atomic steps. A call that is cancelled before its write or read, and a `TryDequeue` of an
empty channel, change nothing. -/
inductive Op where
  | write (caller : Nat) (e : ShareEvent)
  | increment (caller : Nat)
  | addBytes (caller : Nat)
  | read
  | decrement
  | subtractBytes
  deriving DecidableEq, Repr

section Steps

variable (jsonLength : ShareEvent → Fin (2 ^ 31))

/-- `EstimateSize`, for the length of an event in JSON. -/
def estimateSize (e : ShareEvent) : Fin (2 ^ 31) := max 128 (jsonLength e)

/-- A step of a producer or of the consumer. -/
def step (s : State) : Op → Option State
  | .write caller e =>
    if caller ∈ (s.counting ++ s.adding).map Prod.fst then none
    else
      let queued : QueuedShareEvent := ⟨e, estimateSize jsonLength e⟩
      some { s with
        channel := s.channel ++ [queued]
        counting := s.counting ++ [(caller, queued)] }
  | .increment caller =>
    match s.counting.find? fun p => p.1 = caller with
    | some p =>
      some { s with
        count := s.count + 1
        counting := s.counting.eraseP fun p => p.1 = caller
        adding := s.adding ++ [p] }
    | none => none
  | .addBytes caller =>
    match s.adding.find? fun p => p.1 = caller with
    | some p =>
      some { s with
        approximateBytes := s.approximateBytes + Int64.ofInt p.2.bytes
        adding := s.adding.eraseP fun p => p.1 = caller }
    | none => none
  | .read =>
    match s.consumer, s.channel with
    | .idle, queued :: rest => some { s with channel := rest, consumer := .counting queued }
    | _, _ => none
  | .decrement =>
    match s.consumer with
    | .counting queued => some { s with count := s.count - 1, consumer := .adding queued }
    | _ => none
  | .subtractBytes =>
    match s.consumer with
    | .adding queued =>
      some { s with
        approximateBytes := s.approximateBytes + Int64.ofInt (-queued.bytes)
        consumer := .idle }
    | _ => none

end Steps

section Gauges

/-- What the consumer has taken and the count still counts. -/
def Consumer.counted : Consumer → List QueuedShareEvent
  | .counting queued => [queued]
  | _ => []

/-- What the consumer has taken and the bytes still count. -/
def Consumer.added : Consumer → List QueuedShareEvent
  | .idle => []
  | .counting queued => [queued]
  | .adding queued => [queued]

/-- The events on their way through the count. -/
def State.countFlow (s : State) : Flow QueuedShareEvent where
  queue := s.channel
  unadded := s.counting.map Prod.snd
  unremoved := s.consumer.counted

/-- The events on their way through the bytes. -/
def State.bytesFlow (s : State) : Flow QueuedShareEvent where
  queue := s.channel
  unadded := (s.counting ++ s.adding).map Prod.snd
  unremoved := s.consumer.added

/-- The size of some events. -/
def totalBytes (queued : List QueuedShareEvent) : Int := total QueuedShareEvent.bytes queued

/-- What `Count` counts. -/
def State.countLevel (s : State) : Int := s.countFlow.level fun _ => 1

/-- What `ApproximateBytes` counts. -/
def State.bytesLevel (s : State) : Int := s.bytesFlow.level QueuedShareEvent.bytes

/-- No call is in progress. -/
def State.Quiescent (s : State) : Prop := s.counting = [] ∧ s.adding = [] ∧ s.consumer = .idle

/-- The gauges are not negative, and exact when no call is in progress. -/
def Sound (s : State) : Prop :=
  0 ≤ s.count ∧ 0 ≤ s.approximateBytes ∧
    (s.Quiescent → s.count.toInt = s.channel.length ∧
      s.approximateBytes.toInt = totalBytes s.channel)

/-- A gauge is moved up within its width, and down by no more than the channel covers: the events
that are not in the gauge yet are no more, or no larger, than those in the channel. -/
def Covered (s : State) : Op → Prop
  | .increment caller =>
    s.channel.length + s.consumer.counted.length <
      2 ^ 31 + (s.counting.eraseP fun p => p.1 = caller).length
  | .addBytes caller =>
    totalBytes s.channel + totalBytes s.consumer.added <
      2 ^ 63 + totalBytes ((s.counting ++ s.adding.eraseP fun p => p.1 = caller).map Prod.snd)
  | .decrement => s.counting.length ≤ s.channel.length
  | .subtractBytes => totalBytes ((s.counting ++ s.adding).map Prod.snd) ≤ totalBytes s.channel
  | _ => True

instance (s : State) (op : Op) : Decidable (Covered s op) := by
  cases op <;> unfold Covered <;> infer_instance

end Gauges

variable {jsonLength : ShareEvent → Fin (2 ^ 31)} {s s' : State} {op : Op} {ops : List Op}

section Levels

/-- A step moves the gauges and their levels by the same. -/
structure Moves (s s' : State) (events bytes : Int) : Prop where
  count : s'.count = s.count + Int32.ofInt events
  countLevel : s'.countLevel = s.countLevel + events
  approximateBytes : s'.approximateBytes = s.approximateBytes + Int64.ofInt bytes
  bytesLevel : s'.bytesLevel = s.bytesLevel + bytes

theorem bytes_lt (queued : QueuedShareEvent) : 0 ≤ queued.bytes ∧ queued.bytes < 2 ^ 31 := by
  have hlt := queued.approximateBytes.isLt
  rw [QueuedShareEvent.bytes]
  omega

theorem moves_write {caller : Nat} {e : ShareEvent}
    (hstep : step jsonLength s (.write caller e) = some s') : Moves s s' 0 0 := by
  simp only [step] at hstep
  split at hstep
  · cases hstep
  · cases hstep
    refine ⟨(Int32.add_zero _).symm, ?_, (Int64.add_zero _).symm, ?_⟩
    · rw [Int.add_zero]
      apply level_put
      rw [List.map_append]
      exact List.perm_append_singleton _ _
    · rw [Int.add_zero]
      apply level_put
      rw [List.map_append, List.map_append, List.append_assoc, List.map_append]
      exact List.perm_middle

theorem moves_increment {caller : Nat}
    (hstep : step jsonLength s (.increment caller) = some s') : Moves s s' 1 0 := by
  simp only [step] at hstep
  split at hstep
  · rename_i p hfind
    cases hstep
    have hperm := perm_eraseP_of_find? hfind
    refine ⟨rfl, level_add (hperm.map Prod.snd), (Int64.add_zero _).symm, ?_⟩
    rw [Int.add_zero]
    apply level_of_perm
    apply List.Perm.map
    rw [← List.append_assoc]
    exact (List.perm_append_singleton _ _).trans (hperm.append_right _).symm
  · cases hstep

theorem moves_addBytes {caller : Nat}
    (hstep : step jsonLength s (.addBytes caller) = some s') :
    ∃ p ∈ s.adding, Moves s s' 0 p.2.bytes := by
  simp only [step] at hstep
  split at hstep
  · rename_i p hfind
    cases hstep
    have hperm := perm_eraseP_of_find? hfind
    refine ⟨p, hperm.mem_iff.mpr List.mem_cons_self, (Int32.add_zero _).symm, (Int.add_zero _).symm,
      rfl, level_add ?_⟩
    exact ((hperm.append_left _).trans List.perm_middle).map Prod.snd
  · cases hstep

theorem moves_read (hstep : step jsonLength s .read = some s') : Moves s s' 0 0 := by
  simp only [step] at hstep
  split at hstep
  · rename_i queued rest hconsumer hchannel
    cases hstep
    refine ⟨(Int32.add_zero _).symm, ?_, (Int64.add_zero _).symm, ?_⟩
    · rw [Int.add_zero]
      simp only [State.countLevel, State.countFlow, hconsumer, hchannel]
      exact level_take
    · rw [Int.add_zero]
      simp only [State.bytesLevel, State.bytesFlow, hconsumer, hchannel]
      exact level_take
  · cases hstep

theorem moves_decrement (hstep : step jsonLength s .decrement = some s') : Moves s s' (-1) 0 := by
  simp only [step] at hstep
  split at hstep
  · rename_i queued hconsumer
    cases hstep
    refine ⟨Int32.sub_eq_add_neg _ _, ?_, (Int64.add_zero _).symm, ?_⟩
    · simp only [State.countLevel, State.countFlow, hconsumer]
      exact level_remove
    · simp only [State.bytesLevel, State.bytesFlow, hconsumer, Int.add_zero]
      rfl
  · cases hstep

theorem moves_subtractBytes (hstep : step jsonLength s .subtractBytes = some s') :
    ∃ queued, s.consumer = .adding queued ∧ Moves s s' 0 (-queued.bytes) := by
  simp only [step] at hstep
  split at hstep
  · rename_i queued hconsumer
    cases hstep
    refine ⟨queued, hconsumer, (Int32.add_zero _).symm, ?_, rfl, ?_⟩
    · simp only [State.countLevel, State.countFlow, hconsumer, Int.add_zero]
      rfl
    · simp only [State.bytesLevel, State.bytesFlow, hconsumer]
      exact level_remove
  · cases hstep

/-- No step moves a level by as much as half the width of its gauge. -/
theorem exists_moves (hstep : step jsonLength s op = some s') :
    ∃ events bytes, Moves s s' events bytes ∧ |events| ≤ 1 ∧ |bytes| < 2 ^ 31 := by
  cases op with
  | write caller e => exact ⟨0, 0, moves_write hstep, by decide, by decide⟩
  | increment caller => exact ⟨1, 0, moves_increment hstep, by decide, by decide⟩
  | addBytes caller =>
    obtain ⟨p, -, h⟩ := moves_addBytes hstep
    exact ⟨0, _, h, by decide, abs_lt.mpr (by have := bytes_lt p.2; omega)⟩
  | read => exact ⟨0, 0, moves_read hstep, by decide, by decide⟩
  | decrement => exact ⟨-1, 0, moves_decrement hstep, by decide, by decide⟩
  | subtractBytes =>
    obtain ⟨queued, -, h⟩ := moves_subtractBytes hstep
    exact ⟨0, _, h, by decide, abs_lt.mpr (by have := bytes_lt queued; omega)⟩

/-- The gauges are their levels in 32 and 64 bits. -/
structure Levels (s : State) : Prop where
  count : s.count = Int32.ofInt s.countLevel
  bytes : s.approximateBytes = Int64.ofInt s.bytesLevel

theorem levels_initial : Levels .initial := ⟨rfl, rfl⟩

theorem Levels.step (h : Levels s) (hstep : step jsonLength s op = some s') : Levels s' := by
  obtain ⟨events, bytes, hmoves, -, -⟩ := exists_moves hstep
  constructor
  · rw [hmoves.count, hmoves.countLevel, h.count, Int32.ofInt_add]
  · rw [hmoves.approximateBytes, hmoves.bytesLevel, h.bytes, Int64.ofInt_add]

/-- The levels fit the gauges. -/
structure InRange (s : State) : Prop where
  count_nonneg : 0 ≤ s.countLevel
  count_lt : s.countLevel < 2 ^ 31
  bytes_nonneg : 0 ≤ s.bytesLevel
  bytes_lt : s.bytesLevel < 2 ^ 63

theorem InRange.toInt (h : InRange s) (hlevels : Levels s) :
    s.count.toInt = s.countLevel ∧ s.approximateBytes.toInt = s.bytesLevel := by
  obtain ⟨hcount, hcount', hbytes, hbytes'⟩ := h
  rw [hlevels.count, hlevels.bytes]
  exact ⟨Int32.toInt_ofInt_of_le (by omega) hcount', Int64.toInt_ofInt_of_le (by omega) hbytes'⟩

/-- Levels that fit make gauges that are sound. -/
theorem InRange.sound (h : InRange s) (hlevels : Levels s) : Sound s := by
  obtain ⟨hcount, hbytes⟩ := h.toInt hlevels
  refine ⟨?_, ?_, ?_⟩
  · rw [Int32.le_iff_toInt_le, hcount]
    exact h.count_nonneg
  · rw [Int64.le_iff_toInt_le, hbytes]
    exact h.bytes_nonneg
  · rintro ⟨hcounting, hadding, hconsumer⟩
    rw [hcount, hbytes]
    simp only [State.countLevel, State.countFlow, State.bytesLevel, State.bytesFlow, hcounting,
      hadding, hconsumer]
    exact ⟨level_settled.trans (total_one _), level_settled⟩

/-- A gauge that has left its width by less than half of it is negative. -/
theorem inRange_of_nonneg (hlevels : Levels s) (hcount : -1 ≤ s.countLevel)
    (hcount' : s.countLevel ≤ 2 ^ 31) (hbytes : -2 ^ 31 ≤ s.bytesLevel)
    (hbytes' : s.bytesLevel < 2 ^ 63 + 2 ^ 31) (hc : 0 ≤ s.count) (hb : 0 ≤ s.approximateBytes) :
    InRange s := by
  rw [hlevels.count, Int32.le_iff_toInt_le, Int32.toInt_ofInt, Int.bmod_def] at hc
  rw [hlevels.bytes, Int64.le_iff_toInt_le, Int64.toInt_ofInt, Int.bmod_def] at hb
  simp only [Int32.toInt_zero, Int32.size] at hc
  simp only [Int64.toInt_zero, Int64.size] at hb
  have hcountLevel : 0 ≤ s.countLevel ∧ s.countLevel < 2 ^ 31 := by
    clear hb
    split at hc <;> omega
  have hbytesLevel : 0 ≤ s.bytesLevel ∧ s.bytesLevel < 2 ^ 63 := by
    clear hc
    split at hb <;> omega
  exact ⟨hcountLevel.1, hcountLevel.2, hbytesLevel.1, hbytesLevel.2⟩

end Levels

section Runs

theorem countLevel_increment {caller : Nat}
    (hstep : step jsonLength s (.increment caller) = some s') :
    s'.countLevel = s.channel.length + s.consumer.counted.length -
      (s.counting.eraseP fun p => p.1 = caller).length := by
  simp only [step] at hstep
  split at hstep
  · cases hstep
    simp only [State.countLevel, State.countFlow, Flow.level, total_one, List.length_map]
  · cases hstep

theorem bytesLevel_addBytes {caller : Nat}
    (hstep : step jsonLength s (.addBytes caller) = some s') :
    s'.bytesLevel = totalBytes s.channel + totalBytes s.consumer.added -
      totalBytes ((s.counting ++ s.adding.eraseP fun p => p.1 = caller).map Prod.snd) := by
  simp only [step] at hstep
  split at hstep
  · cases hstep
    rfl
  · cases hstep

theorem countLevel_decrement (hstep : step jsonLength s .decrement = some s') :
    s'.countLevel = s.channel.length - s.counting.length := by
  simp only [step] at hstep
  split at hstep
  · cases hstep
    simp only [State.countLevel, State.countFlow, Flow.level, total_one, List.length_map,
      Consumer.counted, List.length_nil, Nat.cast_zero, Int.add_zero]
  · cases hstep

theorem bytesLevel_subtractBytes (hstep : step jsonLength s .subtractBytes = some s') :
    s'.bytesLevel = totalBytes s.channel - totalBytes ((s.counting ++ s.adding).map Prod.snd) := by
  simp only [step] at hstep
  split at hstep
  · cases hstep
    simp only [State.bytesLevel, State.bytesFlow, Flow.level, Consumer.added, total_nil,
      Int.add_zero, totalBytes]
  · cases hstep

/-- After a step from levels that fit, they fit if the step was covered, and only then. -/
theorem inRange_iff_covered (h : InRange s) (hstep : step jsonLength s op = some s') :
    InRange s' ↔ Covered s op := by
  obtain ⟨hcount, hcount', hbytes, hbytes'⟩ := h
  cases op with
  | write caller e =>
    obtain ⟨-, hc, -, hb⟩ := moves_write hstep
    refine iff_of_true ⟨?_, ?_, ?_, ?_⟩ trivial <;> omega
  | read =>
    obtain ⟨-, hc, -, hb⟩ := moves_read hstep
    refine iff_of_true ⟨?_, ?_, ?_, ?_⟩ trivial <;> omega
  | increment caller =>
    obtain ⟨-, hc, -, hb⟩ := moves_increment hstep
    have hlevel := countLevel_increment hstep
    rw [Covered]
    constructor
    · intro h
      have hlt := h.count_lt
      omega
    · intro hcovered
      refine ⟨?_, ?_, ?_, ?_⟩ <;> omega
  | addBytes caller =>
    obtain ⟨p, -, -, hc, -, hb⟩ := moves_addBytes hstep
    have hsize := bytes_lt p.2
    have hlevel := bytesLevel_addBytes hstep
    rw [Covered]
    constructor
    · intro h
      have hlt := h.bytes_lt
      omega
    · intro hcovered
      refine ⟨?_, ?_, ?_, ?_⟩ <;> omega
  | decrement =>
    obtain ⟨-, hc, -, hb⟩ := moves_decrement hstep
    have hlevel := countLevel_decrement hstep
    rw [Covered]
    constructor
    · intro h
      have hnonneg := h.count_nonneg
      omega
    · intro hcovered
      refine ⟨?_, ?_, ?_, ?_⟩ <;> omega
  | subtractBytes =>
    obtain ⟨queued, -, -, hc, -, hb⟩ := moves_subtractBytes hstep
    have hsize := bytes_lt queued
    have hlevel := bytesLevel_subtractBytes hstep
    rw [Covered]
    constructor
    · intro h
      have hnonneg := h.bytes_nonneg
      omega
    · intro hcovered
      refine ⟨?_, ?_, ?_, ?_⟩ <;> omega

/-- A step from levels that fit to gauges that are not negative has levels that fit. -/
theorem inRange_of_sound (hlevels : Levels s) (h : InRange s)
    (hstep : step jsonLength s op = some s') (hsound : Sound s') : InRange s' := by
  obtain ⟨events, bytes, hmoves, hevents, hbytes⟩ := exists_moves hstep
  obtain ⟨hcount, hcount', hbytes0, hbytes'⟩ := h
  rw [abs_le] at hevents
  rw [abs_lt] at hbytes
  have hc := hmoves.countLevel
  have hb := hmoves.bytesLevel
  exact inRange_of_nonneg (hlevels.step hstep) (by omega) (by omega) (by omega) (by omega) hsound.1
    hsound.2.1

theorem sound_iff_covered (hlevels : Levels s) (h : InRange s)
    (hstep : step jsonLength s op = some s') : Sound s' ↔ Covered s op := by
  rw [← inRange_iff_covered h hstep]
  constructor
  · exact inRange_of_sound hlevels h hstep
  · exact fun h' => h'.sound (hlevels.step hstep)

/-- The gauges of a run are sound in every state if and only if every step is covered. -/
theorem gauges_sound_iff (hrun : run (step jsonLength) .initial ops = some s) :
    Throughout (step jsonLength) Sound .initial ops ↔
      Meets (step jsonLength) Covered .initial ops := by
  have hrange : InRange .initial := ⟨by decide, by decide, by decide, by decide⟩
  apply throughout_iff_meets (fun s => Levels s ∧ InRange s) ?_ ?_ ⟨levels_initial, hrange⟩
    (hrange.sound levels_initial) hrun
  · exact fun s op s' h hstep => sound_iff_covered h.1 h.2 hstep
  · exact fun s op s' h hstep hsound => ⟨h.1.step hstep, inRange_of_sound h.1 h.2 hstep hsound⟩

/-- A second producer is between its updates while the first event is taken. -/
def overlappingCalls (e : ShareEvent) : List Op :=
  [.write 1 e, .increment 1, .write 2 e, .read, .addBytes 1, .decrement, .increment 2, .addBytes 2,
    .subtractBytes]

theorem gauges_sound_overlapping : ∃ s,
    run (step fun _ => 200) .initial (overlappingCalls {}) = some s ∧
    s.count = 1 ∧ s.approximateBytes = 200 ∧
    Throughout (step fun _ => 200) Sound .initial (overlappingCalls {}) := by
  refine ⟨_, rfl, by decide, by decide, ?_⟩
  exact (gauges_sound_iff rfl).mpr (by decide +kernel)

/-- The consumer takes an event and counts it down before its producer has counted it. -/
theorem gauges_negative : ∃ s,
    run (step fun _ => 200) .initial [.write 1 {}, .read, .decrement, .subtractBytes] = some s ∧
    s.count = -1 ∧ s.approximateBytes = -200 ∧ ¬Sound s := by
  refine ⟨_, rfl, by decide, by decide, fun hsound => ?_⟩
  exact absurd hsound.1 (by decide)

/-- However the steps interleave, the gauges are exact in their width when no call is in
progress. -/
theorem gauges_settle (hrun : run (step jsonLength) .initial ops = some s) (hidle : s.Quiescent) :
    s.count = Int32.ofInt s.channel.length ∧
      s.approximateBytes = Int64.ofInt (totalBytes s.channel) := by
  have h : Levels s :=
    run_preserves Levels (fun _ _ _ h hstep => h.step hstep) levels_initial hrun
  obtain ⟨hcounting, hadding, hconsumer⟩ := hidle
  rw [h.count, h.bytes, State.countLevel, State.countFlow, State.bytesLevel, State.bytesFlow,
    hcounting, hadding, hconsumer]
  exact ⟨congrArg Int32.ofInt (level_settled.trans (total_one _)),
    congrArg Int64.ofInt level_settled⟩

end Runs

end HashStorm.Eventing.Queue
