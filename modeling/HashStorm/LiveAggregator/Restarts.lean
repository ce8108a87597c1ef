import HashStorm.LiveAggregator.LiveAggregatorService

/-!
# The counters after a restart

A batch that is given up behind the mark of an event would leave the event out of the
counters. The service stops then, and its next start clears the pools and writes the
live window again, so that nothing is lost in the window and nothing is counted twice:
an event that was written from the stream is marked when the group delivers it again.
-/

namespace HashStorm.LiveAggregator

open Contracts

section Writer

variable {config : Config} {w w' : State}

theorem Distinguished.subset {events others : List ShareEvent} (h : Distinguished events)
    (hsubset : others ⊆ events) : Distinguished others :=
  fun e he e' he' => h e (hsubset he) e' (hsubset he')

/-- The events that are still to be written of the batch under way. -/
def State.remaining (w : State) : List ShareEvent := w.current.elim [] Progress.remaining

/-- The store behind the commands that are left of the last event. -/
def State.settled (w : State) : Store :=
  w.current.elim w.store fun p => p.commands.foldl Store.exec w.store

theorem remaining_of_idle (h : w.current = none) : w.remaining = [] := by
  rw [State.remaining, h]
  rfl

theorem settled_of_idle (h : w.current = none) : w.settled = w.store := by
  rw [State.settled, h]
  rfl

theorem counted_settled {poolId : Option String} {events : List ShareEvent}
    (h : w.current = none) (hcounted : Counted config poolId events w.store) :
    Counted config poolId events w.settled := by
  rwa [settled_of_idle h]

/-- The next command either leaves the events and the store behind it as they are, or it begins
the next event. -/
theorem next_cases (h : step config w .next = some w') :
    (w'.begun = w.begun ∧ w'.remaining = w.remaining ∧ w'.settled = w.settled) ∨
    ∃ e, w.remaining = e :: w'.remaining ∧ w'.begun = e :: w.begun ∧
      w'.settled = writeEvent config w.settled e := by
  rw [step, Option.map_eq_some_iff] at h
  obtain ⟨⟨written, commands, remaining⟩, hcurrent, rfl⟩ := h
  rcases commands with _ | ⟨command, commands⟩
  · rcases remaining with _ | ⟨e, remaining⟩
    · left
      simp [State.remaining, State.settled, hcurrent]
    right
    obtain ⟨commands, hcommands, hbegun⟩ : ∃ commands,
        (w.begin config written e remaining).current = some ⟨written ++ [e], commands, remaining⟩ ∧
          (w.begin config written e remaining).begun = e :: w.begun := by
      simp only [State.begin]
      split_ifs <;> exact ⟨_, rfl, rfl⟩
    have hsettled := begin_writeEvent config w written e remaining _ hcommands
    refine ⟨e, ?_, hbegun, ?_⟩
    · simp [State.remaining, hcurrent, hcommands]
    · simpa [State.settled, hcurrent, hcommands] using hsettled
  · left
    simp [State.remaining, State.settled, hcurrent]

/-- A batch is taken when none is under way. -/
theorem deliver_eq_some {batch : List ShareEvent} (h : step config w (.deliver batch) = some w') :
    w.current = none ∧ w'.begun = w.begun ∧ w'.remaining = batch ∧ w'.settled = w.settled := by
  cases hcurrent : w.current with
  | some p => simp [step, hcurrent] at h
  | none =>
    rw [step, hcurrent] at h
    cases h
    simp [State.remaining, State.settled, hcurrent]

end Writer

namespace Service

open Machine RangePages Transport

variable (config : ServiceConfig)

/-- The events that were given to the writer since the start. -/
def State.taken (s : State) : List ShareEvent := s.writer.begun ++ s.writer.remaining

/-- The entry is not left to the group: it was acknowledged, or it is older than the group. -/
def State.Closed (s : State) (e : StreamEntry) : Prop :=
  e ∈ s.stream.entries ∧ e ∉ s.stream.unacknowledged

/-- The counters of the cleared pools are those of the events written since. -/
def State.Counts (s : State) (pools : List (Option String)) : Prop :=
  ∀ pool ∈ pools, isNullOrWhiteSpace pool = false →
    Counted config.toConfig pool s.writer.begun s.writer.settled

/-- What holds in a phase. -/
def PhaseInv (s : State) : Phase → Prop
  | .stopped => s.writer.current = none
  | .clearing _ pools =>
    s.writer.current = none ∧ s.writer.begun = [] ∧
      ∃ cleared, config.pools = cleared ++ pools ∧ s.Counts config cleared
  | .rebuilding _ fromUtc now start =>
    s.Counts config config.pools ∧
      ∀ e, s.Closed e → e.id ≤ maxId now ∧ ∀ event ∈ entryEvents config e, event.created ≤ now ∧
        (fromUtc ≤ event.created → (∃ st ∈ start, st.admits e.id = true) ∨ event ∈ s.taken)
  | .running _ fromUtc writing records =>
    s.Counts config config.pools ∧
      (∀ e, s.Closed e → ∀ event ∈ entryEvents config e, fromUtc ≤ event.created →
        event ∈ s.writer.begun) ∧
      (∀ id ∈ writing, ∃ e ∈ s.stream.entries, e.id = id ∧ entryEvents config e ⊆ s.taken) ∧
      ∀ r ∈ records, ∃ e ∈ s.stream.entries, r = mapEntry config.deserialize e

/-- The entries have increasing ids and were added up to now, behind the creation of their events;
the writer has events of the stream only. -/
structure Inv (s : State) : Prop where
  sorted : s.stream.entries.Pairwise (·.id < ·.id)
  unacknowledged : s.stream.unacknowledged ⊆ s.stream.entries
  ungrouped : s.grouped = false → s.phase = .stopped ∧ s.stream.unacknowledged = []
  dated : ∀ e ∈ s.stream.entries, e.id ≤ maxId s.clock ∧ ∀ event ∈ entryEvents config e,
    Identified event ∧ event.created ≤ s.clock ∧
      messageId (toUnixTimeMilliseconds event.created) 0 ≤ e.id
  distinguished : Distinguished (s.events config)
  taken : s.taken ⊆ s.events config
  phase : PhaseInv config s s.phase

variable {config} {s s' : State}

theorem inv_initial (store : Store) : Inv config (State.initial store) := by
  constructor <;>
    simp [State.initial, Stream.empty, Stream.unacknowledged, State.events, Distinguished,
      State.taken, LiveAggregator.State.remaining, PhaseInv]

section Dates

theorem toUnixTimeMilliseconds_mono {t t' : DateTime} (h : t ≤ t') :
    toUnixTimeMilliseconds t ≤ toUnixTimeMilliseconds t' := by
  unfold toUnixTimeMilliseconds
  gcongr

theorem messageId_mono {milliseconds milliseconds' sequence : Nat}
    (h : milliseconds ≤ milliseconds') :
    messageId milliseconds sequence ≤ messageId milliseconds' sequence := by
  unfold messageId
  gcongr

theorem maxId_mono {t t' : DateTime} (h : t ≤ t') : maxId t ≤ maxId t' :=
  messageId_mono (toUnixTimeMilliseconds_mono h)

end Dates

section Steps

/-- The group is there as long as the service runs. -/
theorem Inv.grouped_of_phase (h : Inv config s) (hphase : s.phase ≠ .stopped) :
    s.grouped ≠ false :=
  fun hgrouped => hphase (h.ungrouped hgrouped).1

/-- The writer keeps the events it was given. -/
theorem next_taken {w : LiveAggregator.State}
    (hstep : LiveAggregator.step config.toConfig s.writer .next = some w) :
    s.writer.begun ⊆ w.begun ∧
      ∀ e, e ∈ State.taken { s with writer := w } ↔ e ∈ s.taken := by
  simp only [State.taken, List.mem_append]
  rcases next_cases hstep with ⟨hbegun, hremaining, -⟩ | ⟨e, hremaining, hbegun, -⟩
  · rw [hbegun, hremaining]
    exact ⟨List.Subset.refl _, fun e => Iff.rfl⟩
  · rw [hbegun, hremaining]
    refine ⟨List.subset_cons_self _ _, fun e' => ?_⟩
    rw [List.mem_cons, List.mem_cons]
    tauto

/-- The counters hold whatever the writer does next. -/
theorem State.Counts.next {pools : List (Option String)} (h : s.Counts config pools)
    (hids : Distinguished s.taken) {w : LiveAggregator.State}
    (hstep : LiveAggregator.step config.toConfig s.writer .next = some w) :
    State.Counts config { s with writer := w } pools := by
  intro pool hpool hblank
  rcases next_cases hstep with ⟨hbegun, -, hsettled⟩ | ⟨e, hremaining, hbegun, hsettled⟩
  · simp only [hbegun, hsettled]
    exact h pool hpool hblank
  · simp only [hbegun, hsettled]
    refine (h pool hpool hblank).writeEvent (hids.subset ?_)
    intro e' he'
    rw [State.taken, hremaining, List.mem_append]
    rcases List.mem_cons.mp he' with rfl | he'
    · exact .inr List.mem_cons_self
    · exact .inl he'

theorem Inv.next_writer (h : Inv config s) {p : Progress} (hcurrent : s.writer.current = some p)
    {w : LiveAggregator.State}
    (hstep : LiveAggregator.step config.toConfig s.writer .next = some w) :
    Inv config { s with writer := w } := by
  obtain ⟨hbegun, htaken⟩ := next_taken hstep
  have hcounts : ∀ pools, s.Counts config pools → State.Counts config { s with writer := w } pools :=
    fun pools hpools => hpools.next (h.distinguished.subset h.taken) hstep
  refine ⟨h.sorted, h.unacknowledged, h.ungrouped, h.dated, h.distinguished, ?_, ?_⟩
  · exact fun e he => h.taken ((htaken e).mp he)
  · have hphase := h.phase
    revert hphase
    cases s.phase with
    | stopped => simp [PhaseInv, hcurrent]
    | clearing consumer pools => simp [PhaseInv, hcurrent]
    | rebuilding consumer fromUtc now start =>
      rintro ⟨hpools, hclosed⟩
      refine ⟨hcounts _ hpools, fun e he => ?_⟩
      obtain ⟨hlast, hevents⟩ := hclosed e he
      refine ⟨hlast, fun event hevent => ?_⟩
      obtain ⟨hnow, hfrom⟩ := hevents event hevent
      exact ⟨hnow, fun hwindow => (hfrom hwindow).imp_right (htaken event).mpr⟩
    | running consumer fromUtc writing records =>
      rintro ⟨hpools, hclosed, hwriting, hrecords⟩
      refine ⟨hcounts _ hpools, fun e he event hevent hwindow => ?_, fun id hid => ?_, hrecords⟩
      · exact hbegun (hclosed e he event hevent hwindow)
      · obtain ⟨e, he, hsame, hevents⟩ := hwriting id hid
        exact ⟨e, he, hsame, fun event hevent => (htaken event).mpr (hevents hevent)⟩

/-- The clock goes on. -/
theorem Inv.tick (h : Inv config s) (ticks : Nat) :
    Inv config { s with clock := s.clock + ticks } := by
  refine ⟨h.sorted, h.unacknowledged, h.ungrouped, fun e he => ?_, h.distinguished, h.taken,
    ?_⟩
  · obtain ⟨hid, hevents⟩ := h.dated e he
    refine ⟨hid.trans (maxId_mono (Nat.le_add_right _ _)), fun event hevent => ?_⟩
    obtain ⟨hidentified, hcreated, hadded⟩ := hevents event hevent
    exact ⟨hidentified, hcreated.trans (Nat.le_add_right _ _), hadded⟩
  · have hphase := h.phase
    revert hphase
    cases s.phase <;> exact id

/-- The events that an entry has are those of its payload. -/
theorem events_snoc {stream : Stream} {id : Nat} {payload : String}
    (hentries : stream.entries = s.stream.entries ++ [⟨id, [("payload", payload)]⟩]) :
    State.events config { s with stream := stream } =
      s.events config ++ entryEvents config ⟨0, [("payload", payload)]⟩ := by
  rw [State.events, hentries, List.flatMap_append, List.flatMap_singleton]
  rfl

theorem Inv.add (h : Inv config s) {sequence : Nat} {payload : String} {stream : Stream}
    (hdated : (Op.add sequence payload).Dated config s)
    (hentries : stream.entries = s.stream.entries ++
      [⟨messageId (toUnixTimeMilliseconds s.clock) sequence, [("payload", payload)]⟩])
    (hlt : ∀ e ∈ s.stream.entries, e.id < messageId (toUnixTimeMilliseconds s.clock) sequence)
    (hopen : stream.unacknowledged = if s.grouped then s.stream.unacknowledged ++
      [⟨messageId (toUnixTimeMilliseconds s.clock) sequence, [("payload", payload)]⟩] else []) :
    Inv config { s with stream := stream } := by
  obtain ⟨hsequence, hevents, hids⟩ := hdated
  have hnew : State.events config { s with stream := stream } =
      s.events config ++ entryEvents config ⟨0, [("payload", payload)]⟩ := events_snoc hentries
  refine ⟨?_, ?_, ?_, ?_, ?_, ?_, ?_⟩
  · simp only [hentries, List.pairwise_append]
    refine ⟨h.sorted, List.pairwise_singleton _ _, fun a ha b hb => ?_⟩
    rw [List.mem_singleton.mp hb]
    exact hlt a ha
  · simp only [hopen, hentries]
    split
    · exact List.append_subset.mpr ⟨List.subset_append_of_subset_left _ h.unacknowledged,
        List.subset_append_right _ _⟩
    · exact List.nil_subset _
  · intro hgrouped
    exact ⟨(h.ungrouped hgrouped).1, by simp [hopen, show s.grouped = false from hgrouped]⟩
  · intro e he
    simp only [hentries, List.mem_append, List.mem_singleton] at he
    rcases he with he | rfl
    · exact h.dated e he
    · refine ⟨?_, fun event hevent => ?_⟩
      · exact Nat.add_le_add_left hsequence _
      · obtain ⟨hidentified, hcreated⟩ := hevents event hevent
        refine ⟨hidentified, hcreated, ?_⟩
        exact (messageId_mono (toUnixTimeMilliseconds_mono hcreated)).trans
          (Nat.add_le_add_left (Nat.zero_le _) _)
  · rw [hnew]
    exact hids
  · rw [hnew]
    exact fun e he => List.mem_append_left _ (h.taken he)
  · cases hgrouped : s.grouped with
    | false =>
      have hphase := h.phase
      rw [(h.ungrouped hgrouped).1] at hphase ⊢
      exact hphase
    | true =>
      have hclosed : ∀ e, State.Closed { s with stream := stream } e → s.Closed e := by
        rintro e ⟨he, hnot⟩
        simp only [hopen, hgrouped, if_true, hentries, List.mem_append, not_or] at he hnot
        exact ⟨he.resolve_right hnot.2, hnot.1⟩
      have hphase := h.phase
      revert hphase
      cases s.phase with
      | stopped => exact id
      | clearing consumer pools => exact id
      | rebuilding consumer fromUtc now start =>
        exact fun ⟨hpools, hcovered⟩ => ⟨hpools, fun e he => hcovered e (hclosed e he)⟩
      | running consumer fromUtc writing records =>
        rintro ⟨hpools, hcovered, hwriting, hrecords⟩
        have hkept : ∀ e ∈ s.stream.entries, e ∈ stream.entries := by
          rw [hentries]
          exact fun e he => List.mem_append_left _ he
        refine ⟨hpools, fun e he => hcovered e (hclosed e he), fun id hid => ?_, fun r hr => ?_⟩
        · obtain ⟨e, he, hevents⟩ := hwriting id hid
          exact ⟨e, hkept e he, hevents⟩
        · obtain ⟨e, he, hr⟩ := hrecords r hr
          exact ⟨e, hkept e he, hr⟩

/-- The service is started: nothing is known of the counters. -/
theorem Inv.start (h : Inv config s) (consumer : String) :
    Inv config { s with
      grouped := true
      phase := .clearing consumer config.pools
      writer := ⟨s.writer.store, none, [], [], []⟩ } := by
  refine ⟨h.sorted, h.unacknowledged, by simp, h.dated, h.distinguished, ?_, ?_⟩
  · exact List.nil_subset _
  · exact ⟨rfl, rfl, [], rfl, fun pool hpool => absurd hpool List.not_mem_nil⟩

theorem Inv.crash (h : Inv config s) :
    Inv config { s with phase := .stopped, writer.current := none } := by
  refine ⟨h.sorted, h.unacknowledged, ?_, h.dated, h.distinguished, ?_, rfl⟩
  · exact fun hgrouped => ⟨rfl, (h.ungrouped hgrouped).2⟩
  · intro e he
    have htaken : e ∈ s.writer.begun := by
      simpa [State.taken, LiveAggregator.State.remaining] using he
    exact h.taken (List.mem_append_left _ htaken)

/-- The records of the group are those of entries of the stream, and nothing is acknowledged. -/
theorem Inv.read (h : Inv config s) {consumer : String} {fromUtc : DateTime} (stale : List Nat)
    (hphase : s.phase = .running consumer fromUtc none []) :
    Inv config { s with
      stream := (s.stream.readPendingFirst config.deserialize consumer stale
        config.readBatchSize).2
      phase := .running consumer fromUtc none (s.stream.readPendingFirst config.deserialize consumer
        stale config.readBatchSize).1 } := by
  have hinv := h.phase
  rw [hphase] at hinv
  obtain ⟨hpools, hcovered, -, -⟩ := hinv
  have hopen : (s.stream.readPendingFirst config.deserialize consumer stale
      config.readBatchSize).2.unacknowledged = s.stream.unacknowledged :=
    Stream.unacknowledged_readPendingFirst _ _ consumer stale config.readBatchSize
  refine ⟨h.sorted, ?_, ?_, h.dated, h.distinguished, h.taken, hpools, ?_, by simp, ?_⟩
  · rw [hopen]
    exact h.unacknowledged
  · exact fun hgrouped => absurd hgrouped (h.grouped_of_phase (by simp [hphase]))
  · rintro e ⟨he, hnot⟩
    rw [hopen] at hnot
    exact hcovered e ⟨he, hnot⟩
  · intro r hr
    obtain ⟨e, ⟨p, hp, rfl⟩, -, hr⟩ := Stream.exists_entry_of_mem hr
    refine ⟨p.entry, h.unacknowledged ?_, hr⟩
    rw [← hopen]
    exact List.mem_append_left _ (List.mem_map_of_mem hp)

theorem mem_windowEvents {fromUtc now : DateTime} {page : List StreamEntry} {event : ShareEvent} :
    event ∈ windowEvents config fromUtc now page ↔
      (∃ e ∈ page, event ∈ entryEvents config e) ∧ fromUtc ≤ event.created ∧
        event.created ≤ now := by
  rw [windowEvents, List.mem_filter, Bool.and_eq_true, decide_eq_true_iff, decide_eq_true_iff,
    and_congr_left_iff]
  rintro -
  simp only [List.mem_flatMap, mapEntries, List.mem_filter, List.mem_map]
  constructor
  · rintro ⟨r, ⟨⟨e, he, rfl⟩, -⟩, hevent⟩
    exact ⟨e, he, hevent⟩
  · rintro ⟨e, he, hevent⟩
    refine ⟨_, ⟨⟨e, he, rfl⟩, ?_⟩, hevent⟩
    -- a record without a batch has no events
    rw [Option.isSome_iff_ne_none]
    intro hnone
    rw [entryEvents, recordEvents, hnone] at hevent
    cases hevent

theorem entryEvents_subset {e : StreamEntry} (he : e ∈ s.stream.entries) :
    entryEvents config e ⊆ s.events config :=
  fun _ hevent => List.mem_flatMap.mpr ⟨e, he, hevent⟩

/-- The next pool is cleared. -/
theorem Inv.clear (h : Inv config s) {consumer : String} {pool : Option String}
    {pools : List (Option String)} (hphase : s.phase = .clearing consumer (pool :: pools)) :
    Inv config { s with
      phase := .clearing consumer pools
      writer.store := clearPoolState config.toConfig s.writer.store pool } := by
  have hinv := h.phase
  rw [hphase] at hinv
  obtain ⟨hidle, hbegun, cleared, hsplit, hcounts⟩ := hinv
  refine ⟨h.sorted, h.unacknowledged, ?_, h.dated, h.distinguished, ?_, hidle, hbegun,
    cleared ++ [pool], by simp [hsplit], ?_⟩
  · exact fun hgrouped => absurd hgrouped (h.grouped_of_phase (by simp [hphase]))
  · simp [State.taken, hbegun, LiveAggregator.State.remaining, hidle]
  · intro other hother hblank
    refine counted_settled hidle ?_
    simp only [hbegun]
    rcases List.mem_append.mp hother with hother | hother
    · have hcounted := hcounts other hother hblank
      rw [hbegun, settled_of_idle hidle] at hcounted
      exact hcounted.clearPoolState pool
    · rw [List.mem_singleton] at hother
      subst hother
      exact counted_clearPoolState _ hblank

/-- The rebuilding begins: what the group does not deliver any more was added up to now. -/
theorem Inv.rebuild (h : Inv config s) {consumer : String}
    (hphase : s.phase = .clearing consumer []) (fromUtc : DateTime) :
    Inv config { s with
      phase := .rebuilding consumer fromUtc s.clock (some (minId fromUtc)) } := by
  have hinv := h.phase
  rw [hphase] at hinv
  obtain ⟨-, -, cleared, hsplit, hcounts⟩ := hinv
  rw [List.append_nil] at hsplit
  refine ⟨h.sorted, h.unacknowledged, ?_, h.dated, h.distinguished, h.taken, hsplit ▸ hcounts,
    ?_⟩
  · exact fun hgrouped => absurd hgrouped (h.grouped_of_phase (by simp [hphase]))
  · intro e he
    obtain ⟨hlast, hevents⟩ := h.dated e he.1
    refine ⟨hlast, fun event hevent => ?_⟩
    obtain ⟨-, hcreated, hadded⟩ := hevents event hevent
    refine ⟨hcreated, fun hwindow => .inl ⟨minId fromUtc, rfl, ?_⟩⟩
    have hfirst : messageId (toUnixTimeMilliseconds fromUtc) 0 ≤
        messageId (toUnixTimeMilliseconds event.created) 0 :=
      messageId_mono (toUnixTimeMilliseconds_mono hwindow)
    exact admits_minId.mpr (hfirst.trans hadded)

/-- The next page of the window is read and given to the writer. -/
theorem Inv.page (h : Inv config s) (hidle : s.writer.current = none) {consumer : String}
    {fromUtc now : DateTime} {start : Start Nat}
    (hphase : s.phase = .rebuilding consumer fromUtc now (some start)) {size : Nat}
    (hsize : 0 < size) {w : LiveAggregator.State}
    (hbegun : w.begun = s.writer.begun) (hsettled : w.settled = s.writer.settled)
    (hremaining : w.remaining = windowEvents config fromUtc now
      (RangePages.page StreamEntry.id s.stream.entries start (maxId now) size)) :
    Inv config { s with
      phase := .rebuilding consumer fromUtc now (following StreamEntry.id size
        (RangePages.page StreamEntry.id s.stream.entries start (maxId now) size))
      writer := w } := by
  have hinv := h.phase
  rw [hphase] at hinv
  obtain ⟨hcounts, hcovered⟩ := hinv
  have htaken : ∀ event ∈ s.taken, event ∈ s.writer.begun := by
    intro event hevent
    rwa [State.taken, remaining_of_idle hidle, List.append_nil] at hevent
  refine ⟨h.sorted, h.unacknowledged, ?_, h.dated, h.distinguished, ?_, ?_, ?_⟩
  · exact fun hgrouped => absurd hgrouped (h.grouped_of_phase (by simp [hphase]))
  · simp only [State.taken, hbegun, hremaining]
    refine List.append_subset.mpr ⟨fun e he => h.taken (List.mem_append_left _ he), ?_⟩
    intro event hevent
    obtain ⟨⟨e, he, hevent⟩, -⟩ := mem_windowEvents.mp hevent
    exact entryEvents_subset (mem_page he).1 hevent
  · intro pool hpool hblank
    simp only [hbegun, hsettled]
    exact hcounts pool hpool hblank
  · intro e he
    obtain ⟨hlast, hevents⟩ := hcovered e he
    refine ⟨hlast, fun event hevent => ?_⟩
    obtain ⟨hnow, hfrom⟩ := hevents event hevent
    refine ⟨hnow, fun hwindow => ?_⟩
    simp only [State.taken, hbegun, hremaining, List.mem_append]
    rcases hfrom hwindow with ⟨_, ⟨rfl⟩, hadmits⟩ | hevent
    · rcases mem_page_or_admits h.sorted hsize he.1 hadmits hlast with hpage | hlater
      · exact .inr (.inr (mem_windowEvents.mpr ⟨⟨e, hpage, hevent⟩, hwindow, hnow⟩))
      · exact .inl hlater
    · exact .inr (.inl (htaken event hevent))

/-- The window is rebuilt. -/
theorem Inv.rebuilt (h : Inv config s) (hidle : s.writer.current = none) {consumer : String}
    {fromUtc now : DateTime} (hphase : s.phase = .rebuilding consumer fromUtc now none) :
    Inv config { s with phase := .running consumer fromUtc none [] } := by
  have hinv := h.phase
  rw [hphase] at hinv
  obtain ⟨hcounts, hcovered⟩ := hinv
  refine ⟨h.sorted, h.unacknowledged, ?_, h.dated, h.distinguished, h.taken, hcounts, ?_,
    by simp, by simp⟩
  · exact fun hgrouped => absurd hgrouped (h.grouped_of_phase (by simp [hphase]))
  · intro e he event hevent hwindow
    rcases ((hcovered e he).2 event hevent).2 hwindow with ⟨_, hnone, -⟩ | htaken
    · cases hnone
    · rwa [State.taken, remaining_of_idle hidle, List.append_nil] at htaken

/-- The batch that was written is acknowledged. -/
theorem Inv.acknowledge (h : Inv config s) (hidle : s.writer.current = none) {consumer : String}
    {fromUtc : DateTime} {id : Nat} {records : List (RedisShareEventBatchRecord ShareEventBatch)}
    (hphase : s.phase = .running consumer fromUtc (some id) records) :
    Inv config { s with
      phase := .running consumer fromUtc none records
      stream := s.stream.acknowledge id } := by
  have hinv := h.phase
  rw [hphase] at hinv
  obtain ⟨hcounts, hcovered, hwriting, hrecords⟩ := hinv
  refine ⟨h.sorted, ?_, ?_, h.dated, h.distinguished, h.taken, hcounts, ?_, by simp, hrecords⟩
  · exact fun e he => h.unacknowledged ((Stream.acknowledge_sublist id).subset he)
  · exact fun hgrouped => absurd hgrouped (h.grouped_of_phase (by simp [hphase]))
  · rintro e ⟨he, hnot⟩ event hevent hwindow
    by_cases hopen : e ∈ s.stream.unacknowledged
    · have hid : e.id = id := by
        by_contra hid
        exact hnot (Stream.mem_acknowledge hopen hid)
      obtain ⟨written, hwritten, hsame, hevents⟩ := hwriting id rfl
      have hids : (s.stream.entries.map StreamEntry.id).Nodup :=
        List.pairwise_map.mpr (h.sorted.imp fun hlt => hlt.ne)
      have hunique : e = written :=
        List.inj_on_of_nodup_map hids he hwritten (hid.trans hsame.symm)
      have htaken := hevents (hunique ▸ hevent)
      rwa [State.taken, remaining_of_idle hidle, List.append_nil] at htaken
    · exact hcovered e ⟨he, hopen⟩ event hevent hwindow

/-- The next record of the group is given to the writer. -/
theorem Inv.record (h : Inv config s) {consumer : String} {fromUtc : DateTime}
    {r : RedisShareEventBatchRecord ShareEventBatch}
    {records : List (RedisShareEventBatchRecord ShareEventBatch)}
    (hphase : s.phase = .running consumer fromUtc none (r :: records)) {w : LiveAggregator.State}
    (hbegun : w.begun = s.writer.begun) (hsettled : w.settled = s.writer.settled)
    (hremaining : w.remaining = recordEvents r) :
    Inv config { s with
      phase := .running consumer fromUtc (some r.messageId) records
      writer := w } := by
  have hinv := h.phase
  rw [hphase] at hinv
  obtain ⟨hcounts, hcovered, -, hrecords⟩ := hinv
  obtain ⟨e, he, hr⟩ := hrecords r List.mem_cons_self
  have hevents : w.remaining = entryEvents config e := by rw [hremaining, hr, entryEvents]
  refine ⟨h.sorted, h.unacknowledged, ?_, h.dated, h.distinguished, ?_, ?_, ?_, ?_, ?_⟩
  · exact fun hgrouped => absurd hgrouped (h.grouped_of_phase (by simp [hphase]))
  · simp only [State.taken, hbegun, hevents]
    exact List.append_subset.mpr
      ⟨fun e he => h.taken (List.mem_append_left _ he), entryEvents_subset he⟩
  · intro pool hpool hblank
    simp only [hbegun, hsettled]
    exact hcounts pool hpool hblank
  · intro e he event hevent hwindow
    simp only [hbegun]
    exact hcovered e he event hevent hwindow
  · rintro id ⟨rfl⟩
    refine ⟨e, he, by rw [hr]; rfl, ?_⟩
    simp only [State.taken, hevents]
    exact List.subset_append_right _ _
  · exact fun r hr => hrecords r (List.mem_cons_of_mem _ hr)

/-- The next step of the service: the writer takes its next command, or the phase goes on. -/
theorem Inv.next (h : Inv config s) (hstep : s.next config = some s') : Inv config s' := by
  rw [State.next] at hstep
  cases hcurrent : s.writer.current with
  | some p =>
    rw [hcurrent, Option.isSome_some, if_pos rfl, Option.map_eq_some_iff] at hstep
    obtain ⟨w, hw, rfl⟩ := hstep
    exact h.next_writer hcurrent hw
  | none =>
    rw [hcurrent, Option.isSome_none, if_neg Bool.false_ne_true] at hstep
    cases hphase : s.phase with
    | stopped => simp [hphase] at hstep
    | clearing consumer pools =>
      cases pools with
      | nil =>
        rw [hphase] at hstep
        cases hstep
        exact h.rebuild hphase _
      | cons pool pools =>
        rw [hphase] at hstep
        cases hstep
        exact h.clear hphase
    | rebuilding consumer fromUtc now start =>
      cases start with
      | none =>
        rw [hphase] at hstep
        cases hstep
        exact h.rebuilt hcurrent hphase
      | some start =>
        rw [hphase] at hstep
        simp only at hstep
        split at hstep
        · rename_i hempty
          cases hstep
          refine h.page hcurrent hphase (pageSize_pos _) rfl rfl ?_
          rw [remaining_of_idle hcurrent, List.isEmpty_iff.mp hempty]
        · rw [State.writeBatch, Option.map_eq_some_iff] at hstep
          obtain ⟨w, hw, rfl⟩ := hstep
          obtain ⟨-, hbegun, hremaining, hsettled⟩ := deliver_eq_some hw
          exact h.page hcurrent hphase (pageSize_pos _) hbegun hsettled hremaining
    | running consumer fromUtc writing records =>
      match writing, records with
      | some id, records =>
        rw [hphase] at hstep
        cases hstep
        exact h.acknowledge hcurrent hphase
      | none, r :: records =>
        rw [hphase] at hstep
        simp only [State.writeBatch, Option.map_eq_some_iff] at hstep
        obtain ⟨w, hw, rfl⟩ := hstep
        obtain ⟨-, hbegun, hremaining, hsettled⟩ := deliver_eq_some hw
        exact h.record hphase hbegun hsettled hremaining
      | none, [] => simp [hphase] at hstep

theorem Inv.step {op : Op} (h : Inv config s) (hdated : op.Dated config s)
    (hstep : step config s op = some s') : Inv config s' := by
  cases op with
  | tick ticks =>
    cases hstep
    exact h.tick ticks
  | add sequence payload =>
    rw [Service.step, Option.map_eq_some_iff] at hstep
    obtain ⟨stream, hstream, rfl⟩ := hstep
    obtain ⟨hlt, hentries, hopen⟩ := Stream.add_eq_some hstream
    have hpending : stream.pending = s.stream.pending := by
      simp only [Stream.add, Option.ite_none_right_eq_some, Option.some.injEq] at hstream
      rw [← hstream.2]
    refine h.add hdated ?_ hlt ?_
    · rw [← hentries]
      split <;> rfl
    · by_cases hgrouped : s.grouped
      · rw [if_pos hgrouped, if_pos hgrouped, hopen]
      · have hnone := (h.ungrouped (by simpa using hgrouped)).2
        rw [Stream.unacknowledged, List.append_eq_nil_iff] at hnone
        rw [if_neg hgrouped, if_neg hgrouped, Stream.unacknowledged, hpending, hnone.1,
          List.append_nil]
  | start consumer =>
    cases hphase : s.phase with
    | stopped =>
      rw [Service.step, hphase] at hstep
      cases hstep
      exact h.start consumer
    | _ => simp [Service.step, hphase] at hstep
  | next => exact h.next hstep
  | read stale =>
    simp only [Service.step] at hstep
    split at hstep
    · rename_i hphase _
      cases hstep
      exact h.read stale hphase
    · cases hstep
  | crash =>
    cases hphase : s.phase with
    | stopped => simp [Service.step, hphase] at hstep
    | _ =>
      rw [Service.step, hphase] at hstep
      cases hstep
      exact h.crash

end Steps

section Windows

/-- All events of the stream have ids. -/
theorem Inv.identified (h : Inv config s) {event : ShareEvent} (hevent : event ∈ s.events config) :
    Identified event := by
  obtain ⟨e, he, hevent⟩ := List.mem_flatMap.mp hevent
  exact ((h.dated e he).2 event hevent).1

/-- The counters between two batches, while the service runs. -/
theorem Inv.hashes_running (h : Inv config s) {consumer : String} {fromUtc : DateTime}
    {writing : Option Nat} {records : List (RedisShareEventBatchRecord ShareEventBatch)}
    (hphase : s.phase = .running consumer fromUtc writing records)
    (hidle : s.writer.current = none) {pool : Option String} (hpool : pool ∈ config.pools)
    (hblank : isNullOrWhiteSpace pool = false) {key : LiveKey}
    (hkey : encode config.unicode key.poolId = encode config.unicode pool) (field : String) :
    s.writer.store.hashes (key.name config.unicode, field) =
      fold (s.writer.begun.dedup.filter (key.name config.unicode ∈ bucketNames config.toConfig ·))
        field := by
  have hinv := h.phase
  rw [hphase] at hinv
  have hcounted := hinv.1 pool hpool hblank
  rw [settled_of_idle hidle] at hcounted
  have hidentified : ∀ e ∈ s.writer.begun, Identified e :=
    fun e he => h.identified (h.taken (List.mem_append_left _ he))
  have hdistinct : distinct s.writer.begun = s.writer.begun.dedup := by
    have hall : s.writer.begun.filter Identified = s.writer.begun := by
      rw [List.filter_eq_self]
      exact fun e he => by simpa using hidentified e he
    have hnone : s.writer.begun.filter (¬Identified ·) = [] := by
      rw [List.filter_eq_nil_iff]
      exact fun e he => by simpa using hidentified e he
    rw [distinct, hall, hnone, List.append_nil]
  rw [hcounted.counters key hkey field, hdistinct, contribution_eq_fold]

/-- A batch with one share. -/
def foundBatch : ShareEventBatch :=
  { batchId := "", producerId := "", nodeId := "", clusterName := "", created := 0, sequence := 0
    eventCount := 1, approxBytes := 0, events := [foundShare], metadata := ⟨"", ""⟩ }

/-- A service for one pool with buckets of ten seconds. -/
def onePool : ServiceConfig :=
  { tenSeconds with
    readBatchSize := 1
    liveWindowSeconds := 600
    pools := [some "pool"]
    deserialize := fun payload => if payload = "found" then some foundBatch else none }

/-- The service is stopped behind the mark of the share and started under another name; it writes
the share from the stream, claims its batch and acknowledges it. -/
def restarted : List Op :=
  [.tick foundShare.created, .start "first", .next, .next, .next, .next, .add 0 "found", .read [],
    .next, .next, .crash, .start "second"] ++ List.replicate 24 .next ++
    .read [0] :: List.replicate 5 .next

end Windows

end Service

end HashStorm.LiveAggregator
