import HashStorm.Pipeline.EventPipeline

/-!
# From the outbox to the database

The invariant of the pipeline, kept by every step. An event of the log is behind
the checkpoint, in an entry that is not acknowledged, or in the database, which
holds the rows of one event for each event id.
-/

namespace HashStorm.Pipeline

open Contracts Machine Transport

variable {config : Config} {P : ShareEvent → Prop} {s s' : State}

section Outbox

/-- What is placed are events of the append. -/
theorem event_mem_of_placed {codec : Outbox.EventCodec} {segmentMaxBytes : Nat}
    {o : Outbox.FileOutbox} {events : List ShareEvent} {fault : Option (Nat × Outbox.AppendPoint)}
    {r : Outbox.Record} (hr : r ∈ (o.appendLoop codec segmentMaxBytes events fault).placed) :
    r.event ∈ events := by
  induction events generalizing o fault with
  | nil => cases hr
  | cons e es ih =>
    unfold Outbox.FileOutbox.appendLoop at hr
    split at hr
    · cases hr
    · split at hr
      · cases hr
      · rcases List.mem_cons.mp hr with rfl | hr
        · exact List.mem_cons_self
        · exact List.mem_cons_of_mem _ (ih hr)

/-- A step that does not publish keeps entries of the log, and writes new ones that were not
handed to the transport. -/
theorem log_of_step {codec : Outbox.EventCodec} {segmentMaxBytes : Nat} {o o' : Outbox.State}
    {op : Outbox.Op} (hstep : Outbox.step codec segmentMaxBytes o op = some o')
    (hop : op ≠ .publish) {e : Outbox.LogEntry} (he : e ∈ o'.log) :
    e ∈ o.log ∨ e.handed = false ∧ e.record.event ∈ op.events := by
  cases op with
  | append events flushToDisk fault =>
    cases hstep
    rcases List.mem_append.mp he with he | he
    · exact Or.inl he
    · obtain ⟨r, hr, rfl⟩ := List.mem_map.mp he
      exact Or.inr ⟨rfl, event_mem_of_placed hr⟩
  | rotate =>
    cases hstep
    exact Or.inl he
  | flush flushToDisk =>
    cases hstep
    exact Or.inl he
  | read count =>
    simp only [Outbox.step] at hstep
    split at hstep
    · cases hstep
      exact Or.inl he
    · cases hstep
  | publish => exact absurd rfl hop
  | advance limit =>
    simp only [Outbox.step] at hstep
    split at hstep
    · obtain ⟨last, -, rfl⟩ := Option.map_eq_some_iff.mp hstep
      exact Or.inl he
    · cases hstep
  | crash cut =>
    obtain ⟨o', -, rfl⟩ := Option.map_eq_some_iff.mp hstep
    exact Or.inl (List.mem_filter.mp he).1

theorem log_of_deliveryStep {codec : Outbox.EventCodec} {segmentMaxBytes : Nat}
    {d d' : Outbox.Delivery.State} {op : Outbox.Delivery.Op}
    (hstep : Outbox.Delivery.step codec segmentMaxBytes d op = some d')
    (hop : op ≠ .outbox .publish) {e : Outbox.LogEntry} (he : e ∈ d'.base.log) :
    e ∈ d.base.log ∨ e.handed = false ∧ e.record.event ∈ op.events := by
  cases op with
  | outbox op =>
    obtain ⟨base, hbase, rfl⟩ := Option.map_eq_some_iff.mp hstep
    exact log_of_step hbase (fun h => hop (by rw [h])) he
  | fail =>
    simp only [Outbox.Delivery.step] at hstep
    split at hstep
    · cases hstep
      exact Or.inl he
    · cases hstep
  | cancel =>
    cases hstep
    exact Or.inl he

end Outbox

section Entries

/-- The entry of a batch has its events. -/
theorem entryEvents_of_lossless {batch : ShareEventBatch} (h : config.batches.Lossless batch)
    (id : Nat) :
    Decodable config.batches.deserialize
        ⟨id, [("payload", config.batches.serialize batch)]⟩ ∧
      entryEvents config ⟨id, [("payload", config.batches.serialize batch)]⟩ = batch.events := by
  obtain ⟨hne, hevents⟩ := h
  obtain ⟨decoded, hdecoded, hsame⟩ := Option.map_eq_some_iff.mp hevents
  have hentry : mapEntry config.batches.deserialize
      ⟨id, [("payload", config.batches.serialize batch)]⟩ = ⟨id, some decoded⟩ := by
    simp [mapEntry, hne, hdecoded]
  refine ⟨?_, ?_⟩
  · rw [Decodable, hentry]
    rfl
  · rw [entryEvents, hentry]
    simpa [toRecord, DbWriter.StreamRecord.events] using hsame

end Entries

section First

/-- What a database writer has read is what it had, or is new. -/
theorem waiting_set_cases {α : Type*} {l : List α} {c d : Nat} {a b : α}
    (h : (l.set c a)[d]? = some b) : b = a ∨ l[d]? = some b := by
  rw [List.getElem?_set] at h
  split at h
  · split at h
    · cases h
      exact Or.inl rfl
    · cases h
  · exact Or.inr h

/-- A database writer moves on, and the others stand where they stood. -/
theorem first_set {consumers : List DbWriter.Consumer}
    {waiting : List (List (RedisShareEventBatchRecord ShareEventBatch))}
    (h : ∀ (d : Nat) (y : DbWriter.Consumer), consumers[d]? = some y →
      ∃ rs, waiting[d]? = some rs ∧ AtFirst rs y)
    {c : Nat} {x₀ x : DbWriter.Consumer} (hc : consumers[c]? = some x₀)
    {rs : List (RedisShareEventBatchRecord ShareEventBatch)} (hrs : AtFirst rs x) (d : Nat)
    (y : DbWriter.Consumer) (hy : (consumers.set c x)[d]? = some y) :
    ∃ rs', (waiting.set c rs)[d]? = some rs' ∧ AtFirst rs' y := by
  rcases DbWriter.getElem?_set_cases hy with ⟨rfl, rfl⟩ | ⟨hd, hy⟩
  · obtain ⟨rs₀, hrs₀, -⟩ := h d x₀ hc
    obtain ⟨hlt, -⟩ := List.getElem?_eq_some_iff.mp hrs₀
    exact ⟨rs, by rw [List.getElem?_set_self hlt], hrs⟩
  · obtain ⟨rs', hrs', hfirst⟩ := h d y hy
    exact ⟨rs', by rwa [List.getElem?_set_ne (Ne.symm hd)], hfirst⟩

/-- A database writer moves on with the records it has. -/
theorem first_move {consumers : List DbWriter.Consumer}
    {waiting : List (List (RedisShareEventBatchRecord ShareEventBatch))}
    (h : ∀ (d : Nat) (y : DbWriter.Consumer), consumers[d]? = some y →
      ∃ rs, waiting[d]? = some rs ∧ AtFirst rs y)
    {c : Nat} {x₀ x : DbWriter.Consumer} (hc : consumers[c]? = some x₀)
    (hx : ∀ rs, waiting[c]? = some rs → AtFirst rs x₀ → AtFirst rs x) (d : Nat)
    (y : DbWriter.Consumer) (hy : (consumers.set c x)[d]? = some y) :
    ∃ rs, waiting[d]? = some rs ∧ AtFirst rs y := by
  rcases DbWriter.getElem?_set_cases hy with ⟨rfl, rfl⟩ | ⟨hd, hy⟩
  · obtain ⟨rs, hrs, hfirst⟩ := h d x₀ hc
    exact ⟨rs, hrs, hx rs hrs hfirst⟩
  · exact h d y hy

end First

section Consumers

/-! What each step of a database writer does. -/

variable {streamName : String} {t t' : DbWriter.State} {c : Nat}

theorem of_deliver {record : DbWriter.StreamRecord} {now : DateTime}
    (h : DbWriter.step streamName t (c, .deliver record now) = some t') :
    t.consumers[c]? = some .idle ∧
      t' = { t with consumers := t.consumers.set c (.start record now) } := by
  cases hc : t.consumers[c]? with
  | none => simp [DbWriter.step, hc] at h
  | some x =>
    cases x with
    | idle =>
      simp only [DbWriter.step, hc, Option.some.injEq] at h
      exact ⟨rfl, h.symm⟩
    | persisting tx => simp [DbWriter.step, hc] at h
    | persisted record => simp [DbWriter.step, hc] at h

theorem of_persist {utcNow : DateTime}
    (h : DbWriter.step streamName t (c, .persist utcNow) = some t') :
    ∃ tx e rest rows, t.consumers[c]? = some (.persisting tx) ∧ tx.remaining = e :: rest ∧
      DbWriter.persistEvent streamName t.tables (DbWriter.heldBy t.consumers c) tx e utcNow =
        some rows ∧
      t' = { t with
        consumers :=
          t.consumers.set c (.persisting { tx with remaining := rest, rows := rows }) } := by
  cases hc : t.consumers[c]? with
  | none => simp [DbWriter.step, hc] at h
  | some x =>
    cases x with
    | idle => simp [DbWriter.step, hc] at h
    | persisting tx =>
      simp only [DbWriter.step, hc] at h
      split at h
      · cases h
      · obtain ⟨rows, hrows, rfl⟩ := Option.map_eq_some_iff.mp h
        exact ⟨tx, _, _, rows, rfl, ‹_›, hrows, rfl⟩
    | persisted record => simp [DbWriter.step, hc] at h

theorem of_commit (h : DbWriter.step streamName t (c, .commit) = some t') :
    ∃ tx, t.consumers[c]? = some (.persisting tx) ∧
      t' = { t with
        tables := t.tables ++ tx.rows
        consumers := t.consumers.set c (.persisted tx.record)
        committed := t.committed ++ tx.record.events } := by
  cases hc : t.consumers[c]? with
  | none => simp [DbWriter.step, hc] at h
  | some x =>
    cases x with
    | idle => simp [DbWriter.step, hc] at h
    | persisting tx =>
      simp only [DbWriter.step, hc, Option.ite_none_right_eq_some, Option.some.injEq] at h
      exact ⟨tx, rfl, h.2.symm⟩
    | persisted record => simp [DbWriter.step, hc] at h

theorem of_acknowledge (h : DbWriter.step streamName t (c, .acknowledge) = some t') :
    ∃ record, t.consumers[c]? = some (.persisted record) ∧
      t' = { t with
        consumers := t.consumers.set c .idle
        acknowledged := record :: t.acknowledged } := by
  cases hc : t.consumers[c]? with
  | none => simp [DbWriter.step, hc] at h
  | some x =>
    cases x with
    | idle => simp [DbWriter.step, hc] at h
    | persisting tx => simp [DbWriter.step, hc] at h
    | persisted record =>
      simp only [DbWriter.step, hc, Option.some.injEq] at h
      exact ⟨record, rfl, h.symm⟩

theorem of_crash (h : DbWriter.step streamName t (c, .crash) = some t') :
    (∃ x, t.consumers[c]? = some x) ∧
      t' = { t with consumers := t.consumers.set c .idle } := by
  cases hc : t.consumers[c]? with
  | none => simp [DbWriter.step, hc] at h
  | some x =>
    have hstep : DbWriter.step streamName t (c, .crash) =
        some { t with consumers := t.consumers.set c .idle } := by
      cases x <;> simp [DbWriter.step, hc]
    exact ⟨⟨x, rfl⟩, Option.some.inj (h.symm.trans hstep)⟩

end Consumers

section Inversion

/-! What a step of the pipeline does. -/

theorem of_outbox {op : Outbox.Delivery.Op} (h : step config s (.outbox op) = some s') :
    op ≠ .outbox .publish ∧ ∃ d,
      Outbox.Delivery.step config.codec config.segmentMaxBytes s.delivery op = some d ∧
        s' = { s with delivery := d } := by
  by_cases hop : op = .outbox .publish
  · subst hop
    cases h
  · rw [step] at h
    · obtain ⟨d, hd, rfl⟩ := Option.map_eq_some_iff.mp h
      exact ⟨hop, d, hd, rfl⟩
    · exact fun hpublish => hop hpublish

theorem of_attempt {header : BatchHeader} {id : Nat} {answered : Bool}
    (h : step config s (.attempt header id answered) = some s') :
    ∃ batch stream d, s.delivery.base.publisher = .collected batch ∧
      s.stream.add id (config.batches.serialize (batchOf config header batch)) = some stream ∧
      Outbox.Delivery.step config.codec config.segmentMaxBytes s.delivery
        (if answered then .outbox .publish else .fail) = some d ∧
      s' = { s with delivery := d, stream := stream } := by
  simp only [step, attempt] at h
  split at h
  · rename_i batch hcollected
    simp only [Option.bind_eq_some_iff, Option.map_eq_some_iff] at h
    obtain ⟨stream, hadd, d, hd, rfl⟩ := h
    exact ⟨batch, stream, d, hcollected, hadd, hd, rfl⟩
  · cases h

/-- The log behind an attempt: an answer marks the records of the batch. -/
theorem log_of_attempt {codec : Outbox.EventCodec} {segmentMaxBytes : Nat}
    {d d' : Outbox.Delivery.State} {batch : List Outbox.Record} {answered : Bool}
    (hcollected : d.base.publisher = .collected batch)
    (h : Outbox.Delivery.step codec segmentMaxBytes d
      (if answered then .outbox .publish else .fail) = some d') :
    d'.base.records = d.base.records ∧ ∀ e ∈ d'.base.log, e.handed = true →
      ∃ e' ∈ d.base.log, e.record = e'.record ∧ (e'.handed = true ∨ e'.record ∈ batch) := by
  cases answered with
  | true =>
    obtain ⟨base, hbase, rfl⟩ := Option.map_eq_some_iff.mp h
    simp only [Outbox.step, hcollected, Option.some.injEq] at hbase
    subst hbase
    refine ⟨Outbox.records_handOver _ _, fun e he hhanded => ?_⟩
    obtain ⟨e', he', rfl⟩ := List.mem_map.mp he
    refine ⟨e', he', Outbox.handOver_record _ _, ?_⟩
    unfold Outbox.handOver at hhanded
    split at hhanded
    · exact Or.inr ‹_›
    · exact Or.inl hhanded
  | false =>
    simp only [Bool.false_eq_true, if_false, Outbox.Delivery.step, hcollected,
      Option.some.injEq] at h
    subst h
    exact ⟨rfl, fun e he hhanded => ⟨e, he, rfl, Or.inl hhanded⟩⟩

/-- What a database writer does leaves the outbox and the entries of the stream alone. -/
theorem step_cases {op : Op} (h : step config s op = some s') :
    (∃ op', op = .outbox op') ∨ (∃ header id answered, op = .attempt header id answered) ∨
      s'.delivery = s.delivery ∧ s'.stream.entries = s.stream.entries ∧
        (s'.db = s.db ∨
          ∃ label, DbWriter.step config.options.streamName s.db label = some s'.db) := by
  cases op with
  | outbox op => exact Or.inl ⟨op, rfl⟩
  | attempt header id answered => exact Or.inr (Or.inl ⟨header, id, answered, rfl⟩)
  | read c stale count =>
    simp only [step] at h
    split at h
    · cases h
      exact Or.inr (Or.inr ⟨rfl, rfl, Or.inl rfl⟩)
    · cases h
  | begin c now =>
    simp only [step] at h
    split at h
    · obtain ⟨db, hdb, rfl⟩ := Option.map_eq_some_iff.mp h
      exact Or.inr (Or.inr ⟨rfl, rfl, Or.inr ⟨_, hdb⟩⟩)
    · cases h
  | acknowledge c =>
    simp only [step] at h
    split at h
    · obtain ⟨db, hdb, rfl⟩ := Option.map_eq_some_iff.mp h
      exact Or.inr (Or.inr ⟨rfl, rfl, Or.inr ⟨_, hdb⟩⟩)
    · cases h
  | persist c utcNow | commit c | crash c =>
    obtain ⟨db, hdb, rfl⟩ := Option.map_eq_some_iff.mp h
    exact Or.inr (Or.inr ⟨rfl, rfl, Or.inr ⟨_, hdb⟩⟩)

end Inversion

section Steps

theorem inv_initial (n : Nat) : Inv config P (State.initial n) where
  delivery := Outbox.Delivery.inv_initial
  db := ⟨[], DbWriter.inv_initial n⟩
  appended := by simp [State.logged, Outbox.State.records, State.initial,
    Outbox.Delivery.State.initial, Outbox.State.initial]
  decodable := by simp [State.initial, Stream.empty]
  ids := List.nodup_nil
  open_subset := by simp [State.initial, Stream.empty, Stream.unacknowledged]
  done := by simp [State.initial, Stream.empty]
  handed := by simp [State.initial, Outbox.Delivery.State.initial, Outbox.State.initial]
  read := by
    intro c rs hrs r hr
    rw [(List.mem_replicate.mp (List.mem_of_getElem? hrs)).2] at hr
    cases hr
  first := by
    intro c x hx
    obtain ⟨hlt, hget⟩ := List.getElem?_eq_some_iff.mp hx
    simp only [State.initial, DbWriter.State.initial, List.length_replicate] at hlt
    refine ⟨[], by simp [State.initial, hlt], ?_⟩
    have hidle : x = .idle := (List.mem_replicate.mp (List.mem_of_getElem? hx)).2
    rw [hidle]
    trivial
  committed := by simp [State.initial, DbWriter.State.initial]

/-- A logged event satisfies what all appended ones do. -/
theorem Inv.of_mem_records (h : Inv config P s) {r : Outbox.Record}
    (hr : r ∈ s.delivery.base.records) : P r.event :=
  h.appended _ (List.mem_map_of_mem hr)

/-- The outbox or its publisher moves on, without publishing. -/
theorem Inv.outbox (h : Inv config P s) (hlossless : ∀ e, P e → config.codec.Lossless e)
    {op : Outbox.Delivery.Op} {d : Outbox.Delivery.State} (hP : ∀ e ∈ op.events, P e)
    (hok : Outbox.Delivery.StepOk config.codec config.segmentMaxBytes s.delivery op)
    (hop : op ≠ .outbox .publish)
    (hstep : Outbox.Delivery.step config.codec config.segmentMaxBytes s.delivery op = some d) :
    Inv config P { s with delivery := d } := by
  refine ⟨h.delivery.step (fun e he => hlossless e (hP e he)) hok hstep, h.db, ?_, h.decodable,
    h.ids, h.open_subset, h.done, ?_, h.read, h.first, h.committed⟩
  · intro event hevent
    obtain ⟨r, hr, rfl⟩ := List.mem_map.mp hevent
    obtain ⟨e, he, rfl⟩ := List.mem_map.mp hr
    rcases log_of_deliveryStep hstep hop he with hold | ⟨-, hnew⟩
    · exact h.of_mem_records (List.mem_map_of_mem hold)
    · exact hP _ hnew
  · intro e he hhanded
    rcases log_of_deliveryStep hstep hop he with hold | ⟨hfresh, -⟩
    · exact h.handed e hold hhanded
    · rw [hhanded] at hfresh
      cases hfresh

/-- A batch is added to the stream, with or without an answer. -/
theorem Inv.attempt (h : Inv config P s) {header : BatchHeader} {id : Nat} {answered : Bool}
    (hok : Convertible config header s.delivery.base.publisher)
    (hstep : step config s (.attempt header id answered) = some s') : Inv config P s' := by
  obtain ⟨batch, stream, d, hcollected, hadd, hd, rfl⟩ := of_attempt hstep
  obtain ⟨hlt, hentries, hunacknowledged⟩ := Stream.add_eq_some hadd
  obtain ⟨hrecords, hlog⟩ := log_of_attempt hcollected hd
  rw [hcollected] at hok
  obtain ⟨hdecodable, hevents⟩ := entryEvents_of_lossless hok id
  have hP : ∀ e ∈ batch.map Outbox.Record.event, P e := by
    intro e he
    obtain ⟨r, hr, rfl⟩ := List.mem_map.mp he
    obtain ⟨front, hfront, -⟩ := h.delivery.batch batch hcollected
    exact h.of_mem_records (hfront.subset (List.mem_append_right _ hr))
  have hdelivery : Outbox.Delivery.Inv config.codec d := by
    refine h.delivery.step ?_ ?_ hd
    · cases answered <;> exact fun e he => by cases he
    · cases answered
      · trivial
      · exact ⟨trivial, trivial⟩
  refine ⟨hdelivery, h.db, ?_, ?_, ?_, ?_, ?_, ?_, ?_, h.first, h.committed⟩
  · intro event hevent
    simp only [State.logged, hrecords] at hevent
    exact h.appended event hevent
  · intro e he
    simp only [hentries] at he
    rcases List.mem_append.mp he with he | he
    · exact h.decodable e he
    · rw [List.mem_singleton.mp he]
      exact ⟨hdecodable, hevents ▸ hP⟩
  · simp only [hentries, List.map_append]
    refine h.ids.append (List.nodup_singleton _) ?_
    intro i hi hi'
    obtain ⟨e, he, rfl⟩ := List.mem_map.mp hi
    have hid : e.id = id := List.mem_singleton.mp hi'
    exact absurd hid (hlt e he).ne
  · simp only [hentries, hunacknowledged]
    refine List.append_subset.mpr ⟨fun e he => ?_, List.subset_append_right _ _⟩
    exact List.mem_append_left _ (h.open_subset he)
  · simp only [hentries, hunacknowledged]
    intro e he
    rcases List.mem_append.mp he with he | he
    · exact (h.done e he).imp_left (List.mem_append_left _)
    · exact Or.inl (List.mem_append_right _ he)
  · intro e he hhanded
    simp only [hentries]
    obtain ⟨e', he', hrecord, hcases⟩ := hlog e he hhanded
    rw [hrecord]
    rcases hcases with hold | hnew
    · obtain ⟨entry, hentry, hmem⟩ := h.handed e' he' hold
      exact ⟨entry, List.mem_append_left _ hentry, hmem⟩
    · refine ⟨_, List.mem_append_right _ (List.mem_singleton.mpr rfl), ?_⟩
      rw [hevents]
      exact List.mem_map_of_mem hnew
  · intro c rs hrs r hr
    obtain ⟨e, he, hmapped⟩ := h.read c rs hrs r hr
    exact ⟨e, by simp only [hentries]; exact List.mem_append_left _ he, hmapped⟩

/-- A database writer reads records. -/
theorem Inv.read_records (h : Inv config P s) {c : Nat} {stale : List Nat} {count : Nat}
    (hidle : s.db.consumers[c]? = some .idle) :
    Inv config P { s with
      stream := (s.stream.readPendingFirst config.batches.deserialize (config.consumerName c)
        stale count).2
      waiting := s.waiting.set c (s.stream.readPendingFirst config.batches.deserialize
        (config.consumerName c) stale count).1 } := by
  have hopen := Stream.unacknowledged_readPendingFirst s.stream config.batches.deserialize
    (config.consumerName c) stale count
  refine ⟨h.delivery, h.db, h.appended, h.decodable, h.ids, ?_, ?_, h.handed, ?_, ?_, h.committed⟩
  · simp only [hopen]
    exact h.open_subset
  · simp only [hopen]
    exact h.done
  · intro d rs hrs r hr
    rcases waiting_set_cases hrs with rfl | hrs
    · obtain ⟨e, ⟨p, hp, rfl⟩, -, hmapped⟩ := Stream.exists_entry_of_mem hr
      refine ⟨p.entry, h.open_subset ?_, hmapped⟩
      rw [← hopen]
      exact List.mem_append_left _ (List.mem_map_of_mem hp)
    · exact h.read d rs hrs r hr
  · intro d y hy
    obtain ⟨rs, hrs, hfirst⟩ := h.first d y hy
    by_cases hd : d = c
    · subst hd
      obtain ⟨hlt, -⟩ := List.getElem?_eq_some_iff.mp hrs
      obtain rfl := Option.some.inj (hidle.symm.trans hy)
      exact ⟨_, List.getElem?_set_self hlt, trivial⟩
    · exact ⟨rs, by rwa [List.getElem?_set_ne (Ne.symm hd)], hfirst⟩

/-- A database writer takes up the first of its records. -/
theorem Inv.begin (h : Inv config P s) {c : Nat} {now : DateTime}
    {r : RedisShareEventBatchRecord ShareEventBatch}
    {rest : List (RedisShareEventBatchRecord ShareEventBatch)}
    (hwaiting : s.waiting[c]? = some (r :: rest)) {db : DbWriter.State}
    (hstep : DbWriter.step config.options.streamName s.db (c, .deliver (toRecord r) now) =
      some db) : Inv config P { s with db := db } := by
  obtain ⟨effects, hdb⟩ := h.db
  have hdb' := hdb.step hstep
  obtain ⟨hc, rfl⟩ := of_deliver hstep
  refine ⟨h.delivery, hdb', h.appended, h.decodable, h.ids, h.open_subset, h.done, h.handed,
    h.read, ?_, h.committed⟩
  refine first_move h.first hc fun rs hrs _ => ?_
  obtain rfl := Option.some.inj (hwaiting.symm.trans hrs)
  unfold DbWriter.Consumer.start
  split
  · exact ⟨r, rest, rfl, rfl⟩
  · exact ⟨r, rest, rfl, rfl⟩

/-- An open transaction goes on. -/
theorem Inv.persist (h : Inv config P s) {c : Nat} {utcNow : DateTime} {db : DbWriter.State}
    (hstep : DbWriter.step config.options.streamName s.db (c, .persist utcNow) = some db) :
    Inv config P { s with db := db } := by
  obtain ⟨effects, hdb⟩ := h.db
  have hdb' := hdb.step hstep
  obtain ⟨tx, e, rest, rows, hc, -, -, rfl⟩ := of_persist hstep
  refine ⟨h.delivery, hdb', h.appended, h.decodable, h.ids, h.open_subset, h.done, h.handed,
    h.read, ?_, h.committed⟩
  exact first_move h.first hc fun rs _ hfirst => hfirst

/-- The record a database writer works at is an entry of the stream. -/
theorem Inv.exists_entry (h : Inv config P s) {c : Nat} {x : DbWriter.Consumer}
    (hc : s.db.consumers[c]? = some x) (record : DbWriter.StreamRecord)
    (hx : ∀ rs, AtFirst rs x → ∃ r rest, rs = r :: rest ∧ record = toRecord r) :
    ∃ e ∈ s.stream.entries, record.events = entryEvents config e := by
  obtain ⟨rs, hrs, hfirst⟩ := h.first c x hc
  obtain ⟨r, rest, rfl, rfl⟩ := hx rs hfirst
  obtain ⟨e, he, rfl⟩ := h.read c _ hrs r List.mem_cons_self
  exact ⟨e, he, rfl⟩

theorem Inv.commit (h : Inv config P s) {c : Nat} {db : DbWriter.State}
    (hstep : DbWriter.step config.options.streamName s.db (c, .commit) = some db) :
    Inv config P { s with db := db } := by
  obtain ⟨effects, hdb⟩ := h.db
  have hdb' := hdb.step hstep
  obtain ⟨tx, hc, rfl⟩ := of_commit hstep
  refine ⟨h.delivery, hdb', h.appended, h.decodable, h.ids, h.open_subset, ?_, h.handed, h.read,
    first_move h.first hc fun rs _ hfirst => hfirst, ?_⟩
  · exact fun e he => (h.done e he).imp_right fun hin event hevent =>
      List.mem_append_left _ (hin hevent)
  · intro event hevent
    rcases List.mem_append.mp hevent with hold | hnew
    · exact h.committed event hold
    · obtain ⟨e, he, hevents⟩ := h.exists_entry hc tx.record fun rs hfirst => hfirst
      exact (h.decodable e he).2 event (hevents ▸ hnew)

/-- An entry is acknowledged after its events were committed. -/
theorem Inv.acknowledge (h : Inv config P s) {c : Nat}
    {r : RedisShareEventBatchRecord ShareEventBatch}
    {rest : List (RedisShareEventBatchRecord ShareEventBatch)}
    (hwaiting : s.waiting[c]? = some (r :: rest)) {db : DbWriter.State}
    (hstep : DbWriter.step config.options.streamName s.db (c, .acknowledge) = some db) :
    Inv config P { s with
      db := db
      stream := s.stream.acknowledge r.messageId
      waiting := s.waiting.set c rest } := by
  obtain ⟨effects, hdb⟩ := h.db
  have hdb' := hdb.step hstep
  obtain ⟨record, hc, rfl⟩ := of_acknowledge hstep
  obtain ⟨rs, hrs, r', rest', hsplit, hrecord⟩ := h.first c _ hc
  obtain rfl := Option.some.inj (hwaiting.symm.trans hrs)
  obtain ⟨rfl, rfl⟩ := List.cons.inj hsplit
  obtain ⟨e₀, he₀, rfl⟩ := h.read c _ hwaiting r List.mem_cons_self
  refine ⟨h.delivery, hdb', h.appended, h.decodable, h.ids, ?_, ?_, h.handed, ?_,
    first_set h.first hc trivial, h.committed⟩
  · exact fun e he => h.open_subset ((Stream.acknowledge_sublist _).subset he)
  · intro e he
    rcases h.done e he with hopen | hin
    · by_cases hid : e.id = e₀.id
      · right
        obtain rfl := List.inj_on_of_nodup_map h.ids he he₀ hid
        intro event hevent
        exact hdb.agrees c _ hc event (hrecord ▸ hevent)
      · exact Or.inl (Stream.mem_acknowledge hopen hid)
    · exact Or.inr hin
  · intro d rs hrs r hr
    rcases waiting_set_cases hrs with rfl | hrs
    · exact h.read c _ hwaiting r (List.mem_cons_of_mem _ hr)
    · exact h.read d rs hrs r hr

/-- A database writer dies and starts over. -/
theorem Inv.crash (h : Inv config P s) {c : Nat} {db : DbWriter.State}
    (hstep : DbWriter.step config.options.streamName s.db (c, .crash) = some db) :
    Inv config P { s with db := db, waiting := s.waiting.set c [] } := by
  obtain ⟨effects, hdb⟩ := h.db
  have hdb' := hdb.step hstep
  obtain ⟨⟨x, hc⟩, rfl⟩ := of_crash hstep
  refine ⟨h.delivery, hdb', h.appended, h.decodable, h.ids, h.open_subset, h.done, h.handed, ?_,
    first_set h.first hc trivial, h.committed⟩
  intro d rs hrs r hr
  rcases waiting_set_cases hrs with rfl | hrs
  · cases hr
  · exact h.read d rs hrs r hr

/-- Every step keeps the invariant. -/
theorem Inv.step (h : Inv config P s) (hlossless : ∀ e, P e → config.codec.Lossless e)
    {op : Op} (hP : ∀ e ∈ op.events, P e) (hok : StepOk config s op)
    (hstep : step config s op = some s') : Inv config P s' := by
  cases op with
  | outbox op =>
    obtain ⟨hop, d, hd, rfl⟩ := of_outbox hstep
    exact h.outbox hlossless hP hok hop hd
  | attempt header id answered => exact h.attempt hok hstep
  | read c stale count =>
    simp only [Pipeline.step] at hstep
    split at hstep
    · cases hstep
      exact h.read_records ‹_›
    · cases hstep
  | begin c now =>
    simp only [Pipeline.step] at hstep
    split at hstep
    · obtain ⟨db, hdb, rfl⟩ := Option.map_eq_some_iff.mp hstep
      exact h.begin ‹_› hdb
    · cases hstep
  | persist c utcNow =>
    obtain ⟨db, hdb, rfl⟩ := Option.map_eq_some_iff.mp hstep
    exact h.persist hdb
  | commit c =>
    obtain ⟨db, hdb, rfl⟩ := Option.map_eq_some_iff.mp hstep
    exact h.commit hdb
  | acknowledge c =>
    simp only [Pipeline.step] at hstep
    split at hstep
    · obtain ⟨db, hdb, rfl⟩ := Option.map_eq_some_iff.mp hstep
      exact h.acknowledge ‹_› hdb
    · cases hstep
  | crash c =>
    obtain ⟨db, hdb, rfl⟩ := Option.map_eq_some_iff.mp hstep
    exact h.crash hdb

end Steps

section Runs

/-- Runs without torn records keep the invariant. -/
theorem inv_of_run {n : Nat} {ops : List Op}
    (hl : ∀ op ∈ ops, ∀ e ∈ op.events, config.codec.Lossless e)
    (hok : Meets (step config) (StepOk config) (State.initial n) ops)
    (hrun : run (step config) (State.initial n) ops = some s) :
    Inv config (fun e => config.codec.Lossless e ∧ ∃ op ∈ ops, e ∈ op.events) s := by
  have hevents : ∀ op ∈ ops, ∀ e ∈ op.events,
      config.codec.Lossless e ∧ ∃ op ∈ ops, e ∈ op.events :=
    fun op hop e he => ⟨hl op hop e he, op, hop, he⟩
  refine run_invariant _ ?_ (inv_initial n) (hok.and_forall hevents) hrun
  rintro t op t' ht ⟨hP, hop⟩ hstep
  exact ht.step (fun e he => he.1) hP hop hstep

/-- A logged event is behind the checkpoint, in an open entry of the stream, or committed. -/
theorem Inv.somewhere (h : Inv config P s) {e : ShareEvent} (he : e ∈ s.logged) :
    (∃ r ∈ s.unread config, r.event = e) ∨
      (∃ entry ∈ s.stream.unacknowledged, e ∈ entryEvents config entry) ∨ e ∈ s.db.committed := by
  obtain ⟨r, hr, rfl⟩ := List.mem_map.mp he
  obtain ⟨logged, hlogged, rfl⟩ := List.mem_map.mp hr
  rcases h.delivery.base.handed_or_yielded hlogged with hhanded | hunread
  · obtain ⟨entry, hentry, hevent⟩ := h.handed logged hlogged hhanded
    rcases h.done entry hentry with hopen | hin
    · exact Or.inr (Or.inl ⟨entry, hopen, hevent⟩)
    · exact Or.inr (Or.inr (hin hevent))
  · exact Or.inl ⟨_, hunread, rfl⟩

/-- **Every event reaches the database once.** In every run without torn records, the tables are
the rows of a list of effects with pairwise different event ids, all of events that were appended
to the outbox. A logged event without an effect is still behind the checkpoint or in an entry of
the stream that is not acknowledged; when there are neither, every logged event has its effect. -/
theorem events_reach_database_once {n : Nat} {ops : List Op}
    (hl : ∀ op ∈ ops, ∀ e ∈ op.events, config.codec.Lossless e)
    (hok : Meets (step config) (StepOk config) (State.initial n) ops)
    (hrun : run (step config) (State.initial n) ops = some s) :
    ∃ effects : List DbWriter.Effect,
      DbWriter.Reflects config.options.streamName s.db.tables effects ∧
      (effects.map DbWriter.Effect.id).Nodup ∧
      (∀ v ∈ effects, ∃ op ∈ ops, v.event ∈ op.events) ∧
      (∀ e ∈ s.logged, (∃ r ∈ s.unread config, r.event = e) ∨
        (∃ entry ∈ s.stream.unacknowledged, e ∈ entryEvents config entry) ∨
        ∃ v ∈ effects, e.eventId = some v.id) ∧
      (Set.InjOn ShareEvent.eventId {e | ∃ op ∈ ops, e ∈ op.events} →
        s.unread config = [] → s.stream.unacknowledged = [] →
          s.logged ⊆ effects.map DbWriter.Effect.event) := by
  have hinv := inv_of_run hl hok hrun
  obtain ⟨effects, hdb⟩ := hinv.db
  have hcarried : ∀ v ∈ effects, ∃ op ∈ ops, v.event ∈ op.events :=
    fun v hv => (hinv.committed _ (hdb.carried v hv)).2
  have hwhere : ∀ e ∈ s.logged, (∃ r ∈ s.unread config, r.event = e) ∨
      (∃ entry ∈ s.stream.unacknowledged, e ∈ entryEvents config entry) ∨
      ∃ v ∈ effects, e.eventId = some v.id :=
    fun e he => (hinv.somewhere he).imp_right (Or.imp_right (hdb.complete e))
  refine ⟨effects, hdb.tables, hdb.nodup, hcarried, hwhere, ?_⟩
  intro hinj hunread hopen e he
  rcases hwhere e he with ⟨r, hr, -⟩ | ⟨entry, hentry, -⟩ | ⟨v, hv, hid⟩
  · rw [hunread] at hr
    cases hr
  · rw [hopen] at hentry
    cases hentry
  · have hsame : v.event = e :=
      hinj (hcarried v hv) (hinv.appended e he).2 ((hdb.tables.eventId v hv).trans hid.symm)
    exact hsame ▸ List.mem_map_of_mem hv

/-- The text of a JSON object with the given field texts. -/
def objectText (fields : List (String × List Char)) : List Char :=
  let field := fun (f : String × List Char) => '"' :: f.1.toList ++ '"' :: ':' :: f.2
  '\x7b' :: [','].intercalate (fields.map field) ++ ['\x7d']

/-- The text `JsonConvert.SerializeObject` produces for a batch of bare events that was created at
the time zero. -/
def bareBatchText (batch : ShareEventBatch) : String :=
  let quote := fun text : String => '"' :: text.toList ++ ['"']
  let event := fun e : ShareEvent =>
    (Outbox.bareText (e.eventId.getD "")).map fun b => Char.ofNat b.toNat
  let number := fun n : Int => (toString n).toList
  .ofList (objectText [("BatchId", quote batch.batchId), ("ProducerId", quote batch.producerId),
    ("NodeId", quote batch.nodeId), ("ClusterName", quote batch.clusterName),
    ("Created", quote "0001-01-01T00:00:00"), ("Sequence", number batch.sequence),
    ("EventCount", number batch.eventCount), ("ApproxBytes", number batch.approxBytes),
    ("Events", '[' :: [','].intercalate (batch.events.map event) ++ [']']),
    ("Metadata", objectText [("StreamName", quote batch.metadata.streamName),
      ("BrokerType", quote batch.metadata.brokerType)])])

/-- The options of a publisher. -/
def bareOptions : ShareBatchPublisherOptions := ⟨"p", "n", "c", "redis", "shares"⟩

/-- What the batch with the event `a` has beside it. -/
def bareHeader : BatchHeader := ⟨"0", 0, 1, 413⟩

/-- The batch with the event `a`. -/
def bareBatch : ShareEventBatch := createBatch bareOptions bareHeader [Outbox.bareEvent "a"]

/-- The JSON conversion of this batch; the empty text is converted to `null`. -/
def bareBatches : BatchCodec :=
  ⟨bareBatchText, fun text => if text = "" then none else some bareBatch⟩

/-- The configuration of two database writers. -/
def bareConfig : Config where
  codec := Outbox.bareCodec
  batches := bareBatches
  segmentMaxBytes := 4096
  options := bareOptions
  consumerName c := if c = 0 then "first" else "second"

/-- A batch is added twice since the first answer is lost. The first database writer dies behind
its commit, and the second one claims both entries. -/
def twiceAdded : List Op :=
  [.outbox (.outbox (.append [Outbox.bareEvent "a"] true none)), .outbox (.outbox (.read 1)),
    .attempt bareHeader 1 false, .attempt bareHeader 2 true, .outbox (.outbox (.advance 8)),
    .read 0 [] 8, .begin 0 5, .persist 0 5, .commit 0, .crash 0,
    .read 1 [1, 2] 8, .begin 1 6, .persist 1 6, .commit 1, .acknowledge 1,
    .begin 1 7, .persist 1 7, .commit 1, .acknowledge 1]


theorem twiceAdded_reaches_database_once : ∃ s,
    run (step bareConfig) (State.initial 2) twiceAdded = some s ∧
      s.stream.unacknowledged = [] ∧
      ∃ effects, DbWriter.Reflects "shares" s.db.tables effects ∧
        [Outbox.bareEvent "a"] ⊆ effects.map DbWriter.Effect.event := by
  have hl : ∀ op ∈ twiceAdded, ∀ e ∈ op.events, bareConfig.codec.Lossless e := by
    decide +kernel
  have hok : Meets (step bareConfig) (StepOk bareConfig) (State.initial 2) twiceAdded := by
    decide +kernel
  have hrun : ((run (step bareConfig) (State.initial 2) twiceAdded).map fun s =>
      (s.stream.unacknowledged, s.unread bareConfig, s.logged)) =
        some ([], [], [Outbox.bareEvent "a"]) := by
    decide +kernel
  obtain ⟨s, hs, hstate⟩ := Option.map_eq_some_iff.mp hrun
  obtain ⟨hopen, hrest⟩ := Prod.mk.inj hstate
  obtain ⟨hunread, hlogged⟩ := Prod.mk.inj hrest
  obtain ⟨effects, htables, -, -, -, hall⟩ := events_reach_database_once hl hok hs
  refine ⟨s, hs, hopen, effects, htables, hlogged ▸ hall ?_ hunread hopen⟩
  have hevents : ∀ op ∈ twiceAdded, ∀ e ∈ op.events, e = Outbox.bareEvent "a" := by
    decide +kernel
  rintro e ⟨op, hop, he⟩ e' ⟨op', hop', he'⟩ -
  rw [hevents op hop e he, hevents op' hop' e' he']

end Runs

end HashStorm.Pipeline
