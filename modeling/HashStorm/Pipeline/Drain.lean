import HashStorm.Lib.Progress
import HashStorm.Pipeline.EndToEnd

/-!
# When the pipeline runs empty

The publisher and the database writers alone can bring all that is logged into the
database and acknowledge every entry, exactly when no event on its way violates a
constraint of the tables. An event that does keeps its entry in the group for good.
-/

namespace HashStorm.Pipeline

open Contracts Machine Transport

/-- No `NOT NULL` constraint stands against the rows of the event. -/
def Acceptable (e : ShareEvent) : Prop :=
  e.eventId ≠ none ∧ e.poolId ≠ none ∧
    (DbWriter.isPersistibleShare e = true → e.miner ≠ none ∧ e.ipAddress ≠ none) ∧
    (e.eventType = .blockCandidate → e.transactionConfirmationData ≠ none)

instance : DecidablePred Acceptable := fun _ => inferInstanceAs (Decidable (_ ∧ _ ∧ _ ∧ _))

/-- A step of the publisher or of a database writer, which takes at most `limit` records of the
outbox or at most `count` entries of the stream: nothing is appended, and the pool core is not
restarted. -/
def Op.Internal (limit count : Nat) : Op → Prop
  | .outbox (.outbox (.append _ _ _)) | .outbox (.outbox (.crash _)) => False
  | .outbox (.outbox (.read k)) => k = limit
  | .read _ _ k => k = count
  | _ => True

/-- The condition on these steps. -/
def InternalOk (config : Config) (limit count : Nat) (s : State) (op : Op) : Prop :=
  op.Internal limit count ∧ StepOk config s op

/-- The publisher and the database writers can bring everything into the database. -/
def Drains (config : Config) (limit count : Nat) (s : State) : Prop :=
  ∃ t, Leads (step config) (InternalOk config limit count) s t ∧
    t.unread config = [] ∧ t.stream.unacknowledged = []

variable {config : Config} {P : ShareEvent → Prop} {s t : State} {limit count : Nat}

section Constraints

variable {streamName : String}

/-- The rows satisfy the constraints of their tables. -/
structure TablesValid (tables : DbWriter.Tables) : Prop where
  shareEvents : ∀ row ∈ tables.shareEvents, row.poolId ≠ none
  shares : ∀ row ∈ tables.shares, row.poolId ≠ none ∧ row.miner ≠ none ∧ row.ipAddress ≠ none
  blocks : ∀ row ∈ tables.blocks, row.poolId ≠ none ∧ row.transactionConfirmationData ≠ none

theorem TablesValid.append {tables rows : DbWriter.Tables} (h : TablesValid tables)
    (h' : TablesValid rows) : TablesValid (tables ++ rows) := by
  rw [DbWriter.tables_append]
  exact ⟨List.forall_mem_append.mpr ⟨h.shareEvents, h'.shareEvents⟩,
    List.forall_mem_append.mpr ⟨h.shares, h'.shares⟩,
    List.forall_mem_append.mpr ⟨h.blocks, h'.blocks⟩⟩

theorem TablesValid.insertShareEvent {committed own rows : DbWriter.Tables}
    {tx : DbWriter.Transaction} {e : ShareEvent} (h : TablesValid own)
    (hrows : DbWriter.insertShareEvent committed tx e own = some rows) : TablesValid rows := by
  unfold DbWriter.insertShareEvent at hrows
  split at hrows
  · cases hrows
  · rename_i hnull
    rw [not_or] at hnull
    split at hrows
    · cases hrows
      exact h
    · cases hrows
      refine ⟨?_, h.shares, h.blocks⟩
      refine List.forall_mem_append.mpr ⟨h.shareEvents, ?_⟩
      simpa [DbWriter.shareEventRow] using hnull.2

theorem TablesValid.insertShare {own rows : DbWriter.Tables} {share : DbWriter.PersistedShare}
    (h : TablesValid own) (hrows : DbWriter.insertShare share own = some rows) :
    TablesValid rows := by
  unfold DbWriter.insertShare at hrows
  split at hrows
  · cases hrows
  · rename_i hnull
    cases hrows
    refine ⟨h.shareEvents, ?_, h.blocks⟩
    exact List.forall_mem_append.mpr ⟨h.shares, by simpa [not_or] using hnull⟩

theorem TablesValid.insertPendingBlock {own rows : DbWriter.Tables}
    {block : DbWriter.PendingBlockInsert} (h : TablesValid own)
    (hrows : DbWriter.insertPendingBlock block own = some rows) : TablesValid rows := by
  unfold DbWriter.insertPendingBlock at hrows
  split at hrows
  · cases hrows
  · rename_i hnull
    cases hrows
    refine ⟨h.shareEvents, h.shares, ?_⟩
    exact List.forall_mem_append.mpr ⟨h.blocks, by simpa [not_or] using hnull⟩

theorem TablesValid.persistEvent {committed rows : DbWriter.Tables} {held : List String}
    {tx : DbWriter.Transaction} {e : ShareEvent} {utcNow : DateTime} (h : TablesValid tx.rows)
    (hrows : DbWriter.persistEvent streamName committed held tx e utcNow = some rows) :
    TablesValid rows := by
  unfold DbWriter.persistEvent at hrows
  split at hrows
  · cases hrows
  · split at hrows
    · cases hrows
      exact h
    · split at hrows
      · cases hrows
      · simp only [Option.bind_eq_some_iff] at hrows
        obtain ⟨logged, hlogged, shared, hshared, hblocks⟩ := hrows
        have hmarked : TablesValid logged := by
          refine TablesValid.insertShareEvent ?_ hlogged
          exact ⟨h.shareEvents, h.shares, h.blocks⟩
        have hvalid : TablesValid shared := by
          split at hshared
          · exact hmarked.insertShare hshared
          · cases hshared
            exact hmarked
        split at hblocks
        · exact hvalid.insertPendingBlock hblocks
        · cases hblocks
          exact hvalid

/-- The committed tables and the rows of every open transaction satisfy the constraints. -/
def DbValid (db : DbWriter.State) : Prop :=
  TablesValid db.tables ∧
    ∀ (c : Nat) (tx : DbWriter.Transaction), db.consumers[c]? = some (.persisting tx) →
      TablesValid tx.rows

theorem dbValid_initial (n : Nat) : DbValid (DbWriter.State.initial n) := by
  refine ⟨⟨by simp [DbWriter.State.initial], by simp [DbWriter.State.initial],
    by simp [DbWriter.State.initial]⟩, fun c tx hc => ?_⟩
  have hidle := (List.mem_replicate.mp (List.mem_of_getElem? hc)).2
  cases hidle

/-- A database writer moves to a state in which it has prepared valid rows, if any. -/
theorem DbValid.move {db : DbWriter.State} (h : DbValid db) {c : Nat} {x : DbWriter.Consumer}
    (hx : ∀ tx, x = .persisting tx → TablesValid tx.rows) {tables : DbWriter.Tables}
    (htables : TablesValid tables) {acknowledged : List DbWriter.StreamRecord}
    {committed : List ShareEvent} :
    DbValid ⟨tables, db.consumers.set c x, acknowledged, committed⟩ := by
  refine ⟨htables, fun d tx hd => ?_⟩
  rcases waiting_set_cases hd with hnew | hold
  · exact hx tx hnew.symm
  · exact h.2 d tx hold

theorem DbValid.step {db db' : DbWriter.State} (h : DbValid db) {label : Nat × DbWriter.Op}
    (hstep : DbWriter.step streamName db label = some db') : DbValid db' := by
  obtain ⟨c, op⟩ := label
  cases op with
  | deliver record now =>
    obtain ⟨-, rfl⟩ := of_deliver hstep
    refine h.move (fun tx htx => ?_) h.1
    unfold DbWriter.Consumer.start at htx
    split at htx
    · cases htx
    · cases htx
      exact ⟨by simp, by simp, by simp⟩
  | persist utcNow =>
    obtain ⟨tx, e, rest, rows, hc, -, hrows, rfl⟩ := of_persist hstep
    refine h.move (fun tx' htx' => ?_) h.1
    cases htx'
    exact (h.2 c tx hc).persistEvent hrows
  | commit =>
    obtain ⟨tx, hc, rfl⟩ := of_commit hstep
    exact h.move (fun tx htx => by cases htx) (h.1.append (h.2 c tx hc))
  | acknowledge =>
    obtain ⟨record, -, rfl⟩ := of_acknowledge hstep
    exact h.move (fun tx htx => by cases htx) h.1
  | crash =>
    obtain ⟨-, rfl⟩ := of_crash hstep
    exact h.move (fun tx htx => by cases htx) h.1

end Constraints

section Necessary

/-- The events of the effects violate no constraint. -/
theorem acceptable_of_reflects {streamName : String} {tables : DbWriter.Tables}
    {effects : List DbWriter.Effect} (h : DbWriter.Reflects streamName tables effects)
    (hvalid : TablesValid tables) {v : DbWriter.Effect} (hv : v ∈ effects) :
    Acceptable v.event := by
  refine ⟨?_, ?_, fun hshare => ?_, fun hblock => ?_⟩
  · rw [h.eventId v hv]
    exact Option.some_ne_none _
  · refine hvalid.shareEvents (DbWriter.shareEventRow v.event v.now) ?_
    rw [h.shareEvents]
    exact List.mem_map.mpr ⟨v, hv, rfl⟩
  · refine (hvalid.shares (DbWriter.map v.event v.utcNow) ?_).2
    rw [h.shares]
    exact List.mem_map.mpr ⟨v, List.mem_filter.mpr ⟨hv, by simpa using hshare⟩, rfl⟩
  · refine (hvalid.blocks (DbWriter.mapPendingBlock v.event) ?_).2
    rw [h.blocks]
    exact List.mem_map.mpr ⟨v, List.mem_filter.mpr ⟨hv, by simpa using hblock⟩, rfl⟩

theorem DbValid.of_step {op : Op} (h : DbValid s.db)
    (hstep : Pipeline.step config s op = some t) : DbValid t.db := by
  rcases step_cases hstep with ⟨op', rfl⟩ | ⟨header, id, answered, rfl⟩ | ⟨-, -, heq | ⟨label, hdb⟩⟩
  · obtain ⟨-, d, -, rfl⟩ := of_outbox hstep
    exact h
  · obtain ⟨batch, stream, d, -, -, -, rfl⟩ := of_attempt hstep
    exact h
  · rwa [heq]
  · exact h.step hdb

/-- Without appends and restarts the log stays as it is. -/
theorem records_of_internal {codec : Outbox.EventCodec} {segmentMaxBytes : Nat}
    {d d' : Outbox.Delivery.State} {op : Outbox.Delivery.Op}
    (hinternal : (Op.outbox op).Internal limit count) (hop : op ≠ .outbox .publish)
    (hstep : Outbox.Delivery.step codec segmentMaxBytes d op = some d') :
    d'.base.records = d.base.records := by
  cases op with
  | fail =>
    simp only [Outbox.Delivery.step] at hstep
    split at hstep <;> cases hstep
    rfl
  | cancel =>
    cases hstep
    rfl
  | outbox op =>
    obtain ⟨base, hbase, rfl⟩ := Option.map_eq_some_iff.mp hstep
    cases op with
    | append events flushToDisk fault => exact absurd hinternal id
    | crash cut => exact absurd hinternal id
    | publish => exact absurd rfl hop
    | rotate | flush flushToDisk =>
      cases hbase
      rfl
    | read k =>
      simp only [Outbox.step] at hbase
      split at hbase <;> cases hbase
      rfl
    | advance k =>
      simp only [Outbox.step] at hbase
      split at hbase
      · obtain ⟨last, -, rfl⟩ := Option.map_eq_some_iff.mp hbase
        rfl
      · cases hbase

/-- The stream keeps its entries, and without appends and restarts the log stays as it is. -/
theorem kept_of_step {op : Op} (hop : op.Internal limit count)
    (hstep : step config s op = some t) :
    s.stream.entries ⊆ t.stream.entries ∧ t.logged = s.logged := by
  rcases step_cases hstep with ⟨op', rfl⟩ | ⟨header, id, answered, rfl⟩ | ⟨hsame, hentries, -⟩
  · obtain ⟨hpublish, d, hd, rfl⟩ := of_outbox hstep
    refine ⟨List.Subset.refl _, ?_⟩
    simp only [State.logged]
    rw [records_of_internal hop hpublish hd]
  · obtain ⟨batch, stream, d, hcollected, hadd, hd, rfl⟩ := of_attempt hstep
    refine ⟨by rw [(Stream.add_eq_some hadd).2.1]; exact List.subset_append_left _ _, ?_⟩
    simp only [State.logged]
    rw [(log_of_attempt hcollected hd).1]
  · rw [hentries]
    exact ⟨List.Subset.refl _, by rw [State.logged, hsame, State.logged]⟩

theorem Op.Internal.events_eq_nil {op : Op} (h : op.Internal limit count) : op.events = [] := by
  cases op with
  | outbox op =>
    cases op with
    | outbox op =>
      cases op with
      | append events flushToDisk fault => exact absurd h id
      | _ => rfl
    | fail => rfl
    | cancel => rfl
  | _ => rfl

/-- The states that the publisher and the database writers lead to. -/
theorem Inv.leads (h : Inv config P s) (hlossless : ∀ e, P e → config.codec.Lossless e)
    (hlead : Leads (Pipeline.step config) (InternalOk config limit count) s t) :
    Inv config P t := by
  refine hlead.invariant _ (fun s op s' hs hok hstep => ?_) h
  refine hs.step hlossless ?_ hok.2 hstep
  rw [hok.1.events_eq_nil]
  exact fun e he => by cases he

/-- What is in the database when everything has arrived violates no constraint. -/
theorem acceptable_of_drains (h : Inv config P s) (hvalid : DbValid s.db)
    (hlossless : ∀ e, P e → config.codec.Lossless e)
    (hinj : Set.InjOn ShareEvent.eventId {e | P e}) (hdrains : Drains config limit count s) :
    (∀ e ∈ s.logged, Acceptable e) ∧
      ∀ entry ∈ s.stream.unacknowledged, ∀ e ∈ entryEvents config entry, Acceptable e := by
  obtain ⟨t, hlead, hunread, hopen⟩ := hdrains
  have hinv := h.leads hlossless hlead
  have hkept : DbValid t.db ∧ s.stream.entries ⊆ t.stream.entries ∧ t.logged = s.logged := by
    refine hlead.invariant (fun t => DbValid t.db ∧ s.stream.entries ⊆ t.stream.entries ∧
      t.logged = s.logged) ?_ ⟨hvalid, List.Subset.refl _, rfl⟩
    rintro t op t' ⟨hvalid, hentries, hlogged⟩ hok hstep
    obtain ⟨hmore, hsame⟩ := kept_of_step hok.1 hstep
    exact ⟨hvalid.of_step hstep, fun e he => hmore (hentries he), hsame.trans hlogged⟩
  obtain ⟨hvalid', hentries, hlogged⟩ := hkept
  obtain ⟨effects, hdb⟩ := hinv.db
  have hcommitted : ∀ e ∈ t.db.committed, P e → Acceptable e := by
    intro e he hP
    obtain ⟨v, hv, hid⟩ := hdb.complete e he
    have hsame : v.event = e := hinj (hinv.committed _ (hdb.carried v hv)) hP
      ((hdb.tables.eventId v hv).trans hid.symm)
    exact hsame ▸ acceptable_of_reflects hdb.tables hvalid'.1 hv
  constructor
  · intro e he
    refine hcommitted e ?_ (h.appended e he)
    rcases hinv.somewhere (hlogged ▸ he) with ⟨r, hr, -⟩ | ⟨entry, hentry, -⟩ | hin
    · rw [hunread] at hr
      cases hr
    · rw [hopen] at hentry
      cases hentry
    · exact hin
  · intro entry hentry e he
    have hin := h.open_subset hentry
    refine hcommitted e ?_ ((h.decodable entry hin).2 e he)
    rcases hinv.done entry (hentries hin) with hmem | hcovered
    · rw [hopen] at hmem
      cases hmem
    · exact hcovered he

end Necessary

section Publish

/-- Of two records in the log, one lies in front of the other. -/
theorem before_or_before {l : List Outbox.Record} (h : l.Pairwise Outbox.Before)
    {r r' : Outbox.Record} (hr : r ∈ l) (hr' : r' ∈ l) :
    r = r' ∨ Outbox.Before r r' ∨ Outbox.Before r' r := by
  induction l with
  | nil => cases hr
  | cons a l ih =>
    obtain ⟨hhead, htail⟩ := List.pairwise_cons.mp h
    rcases List.mem_cons.mp hr with rfl | hin
    · rcases List.mem_cons.mp hr' with rfl | hin'
      · exact Or.inl rfl
      · exact Or.inr (Or.inl (hhead r' hin'))
    · rcases List.mem_cons.mp hr' with rfl | hin'
      · exact Or.inr (Or.inr (hhead r hin))
      · exact ih htail hin hin'

/-- What a checkpoint behind a record covers. -/
theorem covers_advance {codec : Outbox.EventCodec} {d : Outbox.Delivery.State}
    (h : Outbox.Delivery.Inv codec d) {last r : Outbox.Record} (hlast : last ∈ d.base.records)
    (hseg : ∃ seg ∈ d.base.outbox.segments, seg.index = last.segment) (hr : r ∈ d.base.records) :
    (⟨some last.segment, last.nextOffset⟩ : Outbox.Checkpoint).Covers r ↔
      r = last ∨ Outbox.Before r last := by
  obtain ⟨seg, hmem, hindex⟩ := hseg
  obtain ⟨q, tail, hchained, -⟩ := h.base.stored.holds seg hmem
  rw [hindex] at hchained
  have hon : last ∈ Outbox.onSegment d.base.records last.segment :=
    Outbox.mem_onSegment.mpr ⟨hlast, rfl⟩
  have hbounds := hchained.bounds hon
  constructor
  · rintro ⟨i, hi, hcovers⟩
    obtain rfl : last.segment = i := Option.some.inj hi
    rcases before_or_before h.sorted hr hlast with heq | hbefore | hbehind
    · exact Or.inl heq
    · exact Or.inr hbefore
    · exfalso
      simp only [Outbox.Before] at hbehind
      simp only at hcovers
      have hsame : r.segment = last.segment := by omega
      have hnext := hchained.nextOffset_le hon (Outbox.mem_onSegment.mpr ⟨hr, hsame⟩) (by omega)
      omega
  · rintro (rfl | hbefore)
    · exact ⟨r.segment, rfl, Or.inr ⟨rfl, hbounds.2.2.1⟩⟩
    · refine ⟨last.segment, rfl, ?_⟩
      simp only [Outbox.Before] at hbefore
      simp only
      omega

/-- What is left behind a checkpoint at the last of some records in a row. -/
theorem filter_behind {l front batch rest : List Outbox.Record} {last : Outbox.Record}
    (hsorted : l.Pairwise Outbox.Before) (hsplit : l = front ++ (batch ++ rest))
    (hlast : batch.getLast? = some last) {covers : Outbox.Record → Prop} [DecidablePred covers]
    (hcovers : ∀ r ∈ l, covers r ↔ r = last ∨ Outbox.Before r last) :
    l.filter (¬covers ·) = rest := by
  subst hsplit
  obtain ⟨before, rfl⟩ := List.getLast?_eq_some_iff.mp hlast
  rw [List.pairwise_append] at hsorted
  obtain ⟨-, hbehind, hfront⟩ := hsorted
  rw [List.pairwise_append, List.pairwise_append] at hbehind
  obtain ⟨⟨-, -, hbefore⟩, -, hrest⟩ := hbehind
  have hlastMem : last ∈ before ++ [last] := List.mem_append_right _ (List.mem_singleton.mpr rfl)
  have hfrontNil : front.filter (¬covers ·) = [] := by
    rw [List.filter_eq_nil_iff]
    intro r hr
    simp only [decide_eq_true_eq, not_not]
    exact (hcovers r (List.mem_append_left _ hr)).mpr
      (Or.inr (hfront r hr _ (List.mem_append_left _ hlastMem)))
  have hbatchNil : (before ++ [last]).filter (¬covers ·) = [] := by
    rw [List.filter_eq_nil_iff]
    intro r hr
    simp only [decide_eq_true_eq, not_not]
    refine (hcovers r (List.mem_append_right _ (List.mem_append_left _ hr))).mpr ?_
    rcases List.mem_append.mp hr with hr | hr
    · exact Or.inr (hbefore r hr _ (List.mem_singleton.mpr rfl))
    · exact Or.inl (List.mem_singleton.mp hr)
  have hrestSelf : rest.filter (¬covers ·) = rest := by
    rw [List.filter_eq_self]
    intro r hr
    have hahead := hrest _ hlastMem r hr
    simp only [decide_eq_true_eq]
    rw [hcovers r (List.mem_append_right _ (List.mem_append_right _ hr))]
    rintro (rfl | hback)
    · simp only [Outbox.Before] at hahead
      omega
    · simp only [Outbox.Before] at hahead hback
      omega
  rw [List.filter_append, List.filter_append, hfrontNil, hbatchNil, hrestSelf]
  rfl

section Round

variable {d : Outbox.Delivery.State} {batch : List Outbox.Record}

theorem read_eq (codec : Outbox.EventCodec) (segmentMaxBytes : Nat)
    (hidle : d.base.publisher = .idle)
    (hbatch : batch = (d.base.outbox.readFromCheckpointAsync codec d.base.checkpoint).take limit)
    (hne : batch ≠ []) :
    Outbox.Delivery.step codec segmentMaxBytes d (.outbox (.read limit)) =
      some ⟨{ d.base with publisher := .collected batch }, d.published⟩ := by
  rw [hbatch] at hne
  simp [Outbox.Delivery.step, Outbox.step, hidle, Outbox.Delivery.publishedBy, hne, hbatch]

theorem publish_eq (codec : Outbox.EventCodec) (segmentMaxBytes : Nat)
    (hcollected : d.base.publisher = .collected batch) :
    Outbox.Delivery.step codec segmentMaxBytes d (.outbox .publish) =
      some ⟨{ d.base with
        publisher := .published batch
        log := d.base.log.map (Outbox.handOver batch) }, d.published ++ batch⟩ := by
  simp [Outbox.Delivery.step, Outbox.step, hcollected, Outbox.Delivery.publishedBy]

theorem advance_eq (codec : Outbox.EventCodec) (segmentMaxBytes : Nat)
    (hpublished : d.base.publisher = .published batch) {last : Outbox.Record}
    (hlast : batch.getLast? = some last) (deletions : Nat) :
    Outbox.Delivery.step codec segmentMaxBytes d (.outbox (.advance deletions)) =
      some ⟨{ d.base with
        outbox := { d.base.outbox with
          closed := Outbox.deletePublishedSegments last.segment deletions d.base.outbox.closed }
        checkpoint := ⟨some last.segment, last.nextOffset⟩
        publisher := .idle }, d.published⟩ := by
  simp [Outbox.Delivery.step, Outbox.step, hpublished, hlast, Outbox.Delivery.publishedBy]

end Round

/-- An entry can always be added. -/
theorem exists_add (stream : Stream) (payload : String) :
    ∃ id added, stream.add id payload = some added := by
  have hbound : ∀ l : List StreamEntry, ∃ id, ∀ e ∈ l, e.id < id := by
    intro l
    induction l with
    | nil => exact ⟨0, fun e he => by cases he⟩
    | cons a l ih =>
      obtain ⟨id, hid⟩ := ih
      refine ⟨max id (a.id + 1), List.forall_mem_cons.mpr ⟨by omega, fun e he => ?_⟩⟩
      have hlt := hid e he
      omega
  obtain ⟨id, hid⟩ := hbound stream.entries
  exact ⟨id, _, if_pos (List.all_eq_true.mpr fun e he => decide_eq_true (hid e he))⟩

/-- The publisher collects records and has them added to the stream. -/
theorem exists_published (count : Nat) (h : Inv config P s)
    (hlossless : ∀ e, P e → config.codec.Lossless e) {header : BatchHeader} (hidle : s.delivery.base.publisher = .idle)
    (hne : (s.unread config).take limit ≠ [])
    (hbatch : config.batches.Lossless (batchOf config header ((s.unread config).take limit))) :
    ∃ t, Leads (step config) (InternalOk config limit count) s t ∧
      t.delivery.base.publisher = .idle ∧ t.unread config = (s.unread config).drop limit ∧
      t.db = s.db ∧ t.waiting = s.waiting ∧
      ∀ entry ∈ t.stream.unacknowledged, entry ∈ s.stream.unacknowledged ∨
        ∀ e ∈ entryEvents config entry, e ∈ s.logged := by
  generalize hbatchEq : (s.unread config).take limit = batch at hne hbatch
  obtain ⟨last, hlast⟩ : ∃ last, batch.getLast? = some last :=
    ⟨_, List.getLast?_eq_some_getLast hne⟩
  have hrecords : s.delivery.base.records = s.delivery.base.records.filter
      (s.delivery.base.checkpoint.Covers ·) ++ (batch ++ (s.unread config).drop limit) := by
    rw [← hbatchEq, List.take_append_drop]
    exact h.delivery.records_eq
  have hlogged : ∀ r ∈ batch, r ∈ s.delivery.base.records := fun r hr => by
    rw [hrecords]
    exact List.mem_append_right _ (List.mem_append_left _ hr)
  obtain ⟨id, stream, hadd⟩ :=
    exists_add s.stream (config.batches.serialize (batchOf config header batch))
  have hread := read_eq config.codec config.segmentMaxBytes hidle hbatchEq.symm hne
  generalize hd₁ : (⟨{ s.delivery.base with publisher := .collected batch },
    s.delivery.published⟩ : Outbox.Delivery.State) = d₁ at hread
  have hcollected : d₁.base.publisher = .collected batch := by rw [← hd₁]
  have hpublish := publish_eq config.codec config.segmentMaxBytes hcollected
  generalize hd₂ : (⟨{ d₁.base with
    publisher := .published batch
    log := d₁.base.log.map (Outbox.handOver batch) }, d₁.published ++ batch⟩ :
      Outbox.Delivery.State) = d₂ at hpublish
  have hpublished : d₂.base.publisher = .published batch := by rw [← hd₂]
  have hadvance := advance_eq config.codec config.segmentMaxBytes hpublished hlast 0
  generalize hd₃ : (⟨{ d₂.base with
    outbox := { d₂.base.outbox with
      closed := Outbox.deletePublishedSegments last.segment 0 d₂.base.outbox.closed }
    checkpoint := ⟨some last.segment, last.nextOffset⟩
    publisher := .idle }, d₂.published⟩ : Outbox.Delivery.State) = d₃ at hadvance
  have hfirst : step config s (.outbox (.outbox (.read limit))) =
      some { s with delivery := d₁ } := by
    simp only [step, hread, Option.map_some]
  have hsecond : step config { s with delivery := d₁ } (.attempt header id true) =
      some { s with delivery := d₂, stream := stream } := by
    simp only [step, attempt, hcollected, hadd, Option.bind_some, if_true, hpublish,
      Option.map_some]
  have hthird : step config { s with delivery := d₂, stream := stream }
      (.outbox (.outbox (.advance 0))) = some { s with delivery := d₃, stream := stream } := by
    simp only [step, hadvance, Option.map_some]
  have hlead : Leads (step config) (InternalOk config limit count) s
      { s with delivery := d₃, stream := stream } := by
    have hconvertible : Convertible config header d₁.base.publisher := by rwa [hcollected]
    refine ((Leads.one ?_ hfirst).trans (Leads.one ?_ hsecond)).trans (Leads.one ?_ hthird)
    · exact ⟨rfl, trivial, trivial⟩
    · exact ⟨trivial, hconvertible⟩
    · exact ⟨trivial, trivial, trivial⟩
  have hinv := h.leads hlossless hlead
  have hsame : d₃.base.records = s.delivery.base.records := by
    rw [← hd₃, ← hd₂, ← hd₁]
    exact Outbox.records_handOver _ _
  refine ⟨_, hlead, by rw [← hd₃], ?_, rfl, rfl, ?_⟩
  · have hcheckpoint : d₃.base.checkpoint = ⟨some last.segment, last.nextOffset⟩ := by rw [← hd₃]
    have hlastIn : last ∈ d₃.base.records :=
      hsame ▸ hlogged last (List.mem_of_getLast? hlast)
    obtain ⟨hsegment, -⟩ := hinv.delivery.base.boundary last.segment (by rw [hcheckpoint])
    simp only [State.unread]
    rw [hinv.delivery.read_eq]
    simp only
    refine filter_behind hinv.delivery.sorted (hsame.trans hrecords) hlast fun r hr => ?_
    rw [hcheckpoint]
    exact covers_advance hinv.delivery hlastIn hsegment hr
  · intro entry hentry
    rw [(Stream.add_eq_some hadd).2.2] at hentry
    rcases List.mem_append.mp hentry with hold | hnew
    · exact Or.inl hold
    · right
      intro e he
      rw [List.mem_singleton.mp hnew, (entryEvents_of_lossless hbatch id).2] at he
      obtain ⟨r, hr, rfl⟩ := List.mem_map.mp he
      exact List.mem_map_of_mem (hlogged r hr)

end Publish

section Consume

/-- An acceptable event is inserted, or known, unless another transaction holds its id. -/
theorem exists_persistEvent {e : ShareEvent} (he : Acceptable e) (streamName : String)
    (committed : DbWriter.Tables) (tx : DbWriter.Transaction) (utcNow : DateTime) :
    ∃ rows, DbWriter.persistEvent streamName committed [] tx e utcNow = some rows := by
  obtain ⟨hid, hpool, hshare, hblock⟩ := he
  obtain ⟨id, hid⟩ := Option.ne_none_iff_exists'.mp hid
  rw [← Option.isSome_iff_exists]
  simp only [DbWriter.persistEvent, hid, List.not_mem_nil, if_false]
  split
  · rfl
  · have hlogged : ∀ own, ∃ logged,
        DbWriter.insertShareEvent committed tx e own = some logged := by
      intro own
      simp only [DbWriter.insertShareEvent, hid, hpool, reduceCtorEq, or_self, if_false]
      split
      · exact ⟨_, rfl⟩
      · exact ⟨_, rfl⟩
    obtain ⟨logged, hlogged⟩ := hlogged _
    rw [hlogged, Option.bind_some]
    have hshared : ∃ shared, (if DbWriter.isPersistibleShare e = true then
        DbWriter.insertShare (DbWriter.map e utcNow) logged else some logged) = some shared := by
      split
      · rename_i hpersistible
        obtain ⟨hminer, hip⟩ := hshare hpersistible
        exact ⟨_, if_neg (by simp [DbWriter.map, hpool, hminer, hip])⟩
      · exact ⟨_, rfl⟩
    obtain ⟨shared, hshared⟩ := hshared
    rw [hshared, Option.bind_some]
    split
    · rename_i hcandidate
      simp [DbWriter.insertPendingBlock, DbWriter.mapPendingBlock, hpool, hblock hcandidate]
    · rfl

variable (config limit count)

/-- Every database writer but the first one is idle. -/
def Alone (s : State) : Prop :=
  ∀ (c : Nat) (x : DbWriter.Consumer), c ≠ 0 → s.db.consumers[c]? = some x → x = .idle

theorem Alone.heldBy (h : Alone s) : DbWriter.heldBy s.db.consumers 0 = [] := by
  rw [List.eq_nil_iff_forall_not_mem]
  intro id hid
  obtain ⟨d, x, hd, hx, hmem⟩ := DbWriter.mem_heldBy.mp hid
  rw [h d x hd hx] at hmem
  cases hmem

/-- The first database writer moves on. -/
theorem Alone.move (h : Alone s) {x : DbWriter.Consumer} {tables : DbWriter.Tables}
    {acknowledged : List DbWriter.StreamRecord} {committed : List ShareEvent}
    {delivery : Outbox.Delivery.State} {stream : Stream}
    {waiting : List (List (RedisShareEventBatchRecord ShareEventBatch))} :
    Alone ⟨delivery, stream, waiting,
      ⟨tables, s.db.consumers.set 0 x, acknowledged, committed⟩⟩ := by
  intro c y hc hy
  rw [List.getElem?_set_ne (Ne.symm hc)] at hy
  exact h c y hc hy

/-- The open transaction goes through its events. -/
theorem exists_persisted (halone : Alone s) {tx : DbWriter.Transaction}
    (hc : s.db.consumers[0]? = some (.persisting tx)) (hacc : ∀ e ∈ tx.remaining, Acceptable e) :
    ∃ t tx', Leads (step config) (InternalOk config limit count) s t ∧ Alone t ∧
      t.db.consumers[0]? = some (.persisting tx') ∧ tx'.remaining = [] ∧
      tx'.record = tx.record ∧ t.delivery = s.delivery ∧ t.stream = s.stream ∧
      t.waiting = s.waiting := by
  generalize hrem : tx.remaining = events at hacc
  induction events generalizing s tx with
  | nil => exact ⟨s, tx, Leads.refl, halone, hc, hrem, rfl, rfl, rfl, rfl⟩
  | cons e rest ih =>
    obtain ⟨hlt, -⟩ := List.getElem?_eq_some_iff.mp hc
    obtain ⟨hhead, htail⟩ := List.forall_mem_cons.mp hacc
    obtain ⟨rows, hrows⟩ :=
      exists_persistEvent hhead config.options.streamName s.db.tables tx 0
    have hstep : step config s (.persist 0 0) = some { s with
        db := { s.db with
          consumers := s.db.consumers.set 0
            (.persisting { tx with remaining := rest, rows := rows }) } } := by
      simp only [step, DbWriter.step, hc, hrem, halone.heldBy, hrows, Option.map_some]
    have hnext : (s.db.consumers.set 0
        (.persisting { tx with remaining := rest, rows := rows }))[0]? =
        some (.persisting { tx with remaining := rest, rows := rows }) :=
      List.getElem?_set_self hlt
    obtain ⟨t, tx', hlead, halone', hc', hnil, hrecord, hdelivery, hstream, hwaiting⟩ :=
      ih halone.move hnext rfl htail
    exact ⟨t, tx', (Leads.one (i := .persist 0 0) ⟨trivial, trivial⟩ hstep).trans hlead, halone',
      hc', hnil, hrecord, hdelivery, hstream, hwaiting⟩

/-- The first database writer persists and acknowledges a record. -/
theorem exists_processed (halone : Alone s) (hidle : s.db.consumers[0]? = some .idle)
    {r : RedisShareEventBatchRecord ShareEventBatch}
    {rest : List (RedisShareEventBatchRecord ShareEventBatch)}
    (hwaiting : s.waiting[0]? = some (r :: rest))
    (hacc : ∀ e ∈ (toRecord r).events, Acceptable e) :
    ∃ t, Leads (step config) (InternalOk config limit count) s t ∧ Alone t ∧
      t.db.consumers[0]? = some .idle ∧ t.waiting[0]? = some rest ∧
      t.stream = s.stream.acknowledge r.messageId ∧ t.delivery = s.delivery := by
  obtain ⟨hlt, -⟩ := List.getElem?_eq_some_iff.mp hidle
  obtain ⟨hltWaiting, -⟩ := List.getElem?_eq_some_iff.mp hwaiting
  have hbegin : step config s (.begin 0 0) = some { s with
      db := { s.db with
        consumers := s.db.consumers.set 0 (.start (toRecord r) 0) } } := by
    simp only [step, hwaiting, DbWriter.step, hidle, Option.map_some]
  have hstart := List.getElem?_set_self (a := DbWriter.Consumer.start (toRecord r) 0) hlt
  have hpersisted : ∃ t, Leads (step config) (InternalOk config limit count) s t ∧ Alone t ∧
      t.db.consumers[0]? = some (.persisted (toRecord r)) ∧ t.delivery = s.delivery ∧
      t.stream = s.stream ∧ t.waiting = s.waiting := by
    cases hbatch : (toRecord r).batch with
    | none =>
      -- a record without a batch has nothing to persist
      simp only [DbWriter.Consumer.start, hbatch] at hbegin hstart
      exact ⟨_, Leads.one (i := .begin 0 0) ⟨trivial, trivial⟩ hbegin, halone.move, hstart,
        rfl, rfl, rfl⟩
    | some events =>
      simp only [DbWriter.Consumer.start, hbatch] at hbegin hstart
      have hevents : ∀ e ∈ events, Acceptable e := by
        simpa [DbWriter.StreamRecord.events, hbatch] using hacc
      obtain ⟨t, tx, hlead, halone', hc, hnil, hrecord, hdelivery, hstream, hsame⟩ :=
        exists_persisted config limit count halone.move hstart hevents
      obtain ⟨hlt', -⟩ := List.getElem?_eq_some_iff.mp hc
      have hcommit : step config t (.commit 0) = some { t with
          db := { t.db with
            tables := t.db.tables ++ tx.rows
            consumers := t.db.consumers.set 0 (.persisted tx.record)
            committed := t.db.committed ++ tx.record.events } } := by
        simp only [step, DbWriter.step, hc, hnil, if_true, Option.map_some]
      refine ⟨_, ((Leads.one (i := .begin 0 0) ⟨trivial, trivial⟩ hbegin).trans hlead).trans
        (Leads.one (i := .commit 0) ⟨trivial, trivial⟩ hcommit), halone'.move, ?_, hdelivery,
        hstream, hsame⟩
      have hsameRecord : tx.record = toRecord r := hrecord
      simp only [hsameRecord]
      exact List.getElem?_set_self hlt'
  obtain ⟨t, hlead, halone', hc, hdelivery, hstream, hsame⟩ := hpersisted
  obtain ⟨hlt', -⟩ := List.getElem?_eq_some_iff.mp hc
  have hacknowledge : step config t (.acknowledge 0) = some { t with
      db := { t.db with
        consumers := t.db.consumers.set 0 .idle
        acknowledged := toRecord r :: t.db.acknowledged }
      stream := t.stream.acknowledge r.messageId
      waiting := t.waiting.set 0 rest } := by
    simp only [step, hsame, hwaiting, DbWriter.step, hc, Option.map_some]
  refine ⟨_, hlead.trans (Leads.one (i := .acknowledge 0) ⟨trivial, trivial⟩ hacknowledge),
    halone'.move, List.getElem?_set_self hlt', ?_, by rw [hstream], hdelivery⟩
  simp only [hsame]
  exact List.getElem?_set_self hltWaiting

/-- The first database writer goes through its records. -/
theorem exists_processedAll {rs : List (RedisShareEventBatchRecord ShareEventBatch)}
    (halone : Alone s) (hidle : s.db.consumers[0]? = some .idle)
    (hwaiting : s.waiting[0]? = some rs)
    (hacc : ∀ r ∈ rs, ∀ e ∈ (toRecord r).events, Acceptable e) :
    ∃ t, Leads (step config) (InternalOk config limit count) s t ∧ Alone t ∧
      t.db.consumers[0]? = some .idle ∧ t.waiting[0]? = some [] ∧
      t.stream = rs.foldl (fun stream r => stream.acknowledge r.messageId) s.stream ∧
      t.delivery = s.delivery := by
  induction rs generalizing s with
  | nil => exact ⟨s, Leads.refl, halone, hidle, hwaiting, rfl, rfl⟩
  | cons r rest ih =>
    obtain ⟨hhead, htail⟩ := List.forall_mem_cons.mp hacc
    obtain ⟨t, hlead, halone', hidle', hwaiting', hstream, hdelivery⟩ :=
      exists_processed config limit count halone hidle hwaiting hhead
    obtain ⟨u, hlead', halone'', hidle'', hwaiting'', hstream', hdelivery'⟩ :=
      ih halone' hidle' hwaiting' htail
    exact ⟨u, hlead.trans hlead', halone'', hidle'', hwaiting'', by rw [hstream', hstream]; rfl,
      hdelivery'.trans hdelivery⟩

/-- Acknowledging what is pending leaves fewer entries. -/
theorem acknowledge_lt {stream : Stream} {p : Owned} (hp : p ∈ stream.pending) :
    (stream.acknowledge p.entry.id).unacknowledged.length < stream.unacknowledged.length := by
  simp only [Stream.unacknowledged, Stream.acknowledge, List.length_append, List.length_map]
  refine Nat.add_lt_add_right ?_ _
  exact List.length_filter_lt_length_iff_exists.mpr ⟨p, hp, by simp⟩

theorem foldl_acknowledge_le (rs : List (RedisShareEventBatchRecord ShareEventBatch))
    (stream : Stream) :
    (rs.foldl (fun stream r => stream.acknowledge r.messageId) stream).unacknowledged.Sublist
      stream.unacknowledged := by
  induction rs generalizing stream with
  | nil => exact List.Sublist.refl _
  | cons r rest ih => exact (ih _).trans (Stream.acknowledge_sublist _)

/-- Of entries that all have a batch, some are read. -/
theorem exists_read (stream : Stream) (deserialize : String → Option ShareEventBatch)
    (name : String) (hcount : 0 < count)
    (hdecodable : ∀ e ∈ stream.unacknowledged, Decodable deserialize e)
    (hne : stream.unacknowledged ≠ []) :
    ∃ stale, (stream.readPendingFirst deserialize name stale count).1 ≠ [] := by
  refine ⟨stream.pending.map (·.entry.id), ?_⟩
  have hfew : (stream.view name (stream.pending.map (·.entry.id))).FewUndecodable deserialize
      count := by
    refine ⟨?_, ?_⟩
    · intro p hp
      obtain ⟨q, hq, rfl⟩ := List.mem_map.mp hp
      right
      simpa using ⟨q, hq, rfl⟩
    · rw [Stream.entries_view, List.countP_eq_zero.mpr]
      · exact hcount
      · intro e he
        simpa using hdecodable e he
  intro hread
  have hexhausted := (Group.progresses_iff_clear.mpr hfew.clear).2 hread
  rw [Group.exhausted_readPendingFirst] at hexhausted
  obtain ⟨e, he⟩ := List.exists_mem_of_ne_nil _ hne
  have hnot : ¬Decodable deserialize e := by
    rw [← Stream.entries_view name (stream.pending.map (·.entry.id))] at he
    rcases List.mem_append.mp he with hpending | hu
    · obtain ⟨p, hp, rfl⟩ := List.mem_map.mp hpending
      exact hexhausted.1 p hp (hfew.claimable p hp)
    · exact hexhausted.2 e hu
  exact hnot (hdecodable e he)

/-- The first database writer reads entries, persists and acknowledges them. -/
theorem exists_round (h : Inv config P s) (hcount : 0 < count) (halone : Alone s)
    (hidle : s.db.consumers[0]? = some .idle) (hwaiting : s.waiting[0]? = some [])
    (hacc : ∀ entry ∈ s.stream.unacknowledged, ∀ e ∈ entryEvents config entry, Acceptable e)
    (hne : s.stream.unacknowledged ≠ []) :
    ∃ t, Leads (step config) (InternalOk config limit count) s t ∧ Alone t ∧
      t.db.consumers[0]? = some .idle ∧ t.waiting[0]? = some [] ∧ t.delivery = s.delivery ∧
      t.stream.unacknowledged ⊆ s.stream.unacknowledged ∧
      t.stream.unacknowledged.length < s.stream.unacknowledged.length := by
  obtain ⟨stale, hread⟩ := exists_read count s.stream config.batches.deserialize
    (config.consumerName 0) hcount (fun e he => (h.decodable e (h.open_subset he)).1) hne
  obtain ⟨hlt, -⟩ := List.getElem?_eq_some_iff.mp hwaiting
  have hopen := Stream.unacknowledged_readPendingFirst s.stream config.batches.deserialize
    (config.consumerName 0) stale count
  have hentry : ∀ r ∈ (s.stream.readPendingFirst config.batches.deserialize
      (config.consumerName 0) stale count).1, ∃ p ∈ (s.stream.readPendingFirst
        config.batches.deserialize (config.consumerName 0) stale count).2.pending,
      r = mapEntry config.batches.deserialize p.entry := by
    intro r hr
    obtain ⟨_, ⟨p, hp, rfl⟩, -, hmapped⟩ := Stream.exists_entry_of_mem hr
    exact ⟨p, hp, hmapped⟩
  generalize hresult : s.stream.readPendingFirst config.batches.deserialize
    (config.consumerName 0) stale count = result at hread hopen hentry
  obtain ⟨records, stream⟩ := result
  simp only at hread hopen hentry
  have hstep : step config s (.read 0 stale count) =
      some { s with stream := stream, waiting := s.waiting.set 0 records } := by
    simp only [step, hidle, hwaiting, hresult]
  have hevents : ∀ r ∈ records, ∀ e ∈ (toRecord r).events, Acceptable e := by
    intro r hr e he
    obtain ⟨p, hp, rfl⟩ := hentry r hr
    refine hacc p.entry ?_ e he
    rw [← hopen]
    exact List.mem_append_left _ (List.mem_map_of_mem hp)
  have halone' : Alone { s with stream := stream, waiting := s.waiting.set 0 records } := halone
  obtain ⟨t, hlead, haloneT, hidleT, hwaitingT, hstreamT, hdelivery⟩ :=
    exists_processedAll config limit count halone' hidle (List.getElem?_set_self hlt) hevents
  refine ⟨t, (Leads.one (i := .read 0 stale count) ⟨rfl, trivial⟩ hstep).trans hlead, haloneT,
    hidleT, hwaitingT, hdelivery, ?_, ?_⟩
  · rw [hstreamT, ← hopen]
    exact (foldl_acknowledge_le records stream).subset
  · rw [hstreamT, ← hopen]
    obtain ⟨first, rest, rfl⟩ := List.exists_cons_of_ne_nil hread
    obtain ⟨p, hp, rfl⟩ := hentry first List.mem_cons_self
    exact lt_of_le_of_lt (foldl_acknowledge_le rest _).length_le (acknowledge_lt hp)

end Consume

section Drained

variable (config limit count)

/-- The database writers are stopped one after the other. -/
theorem exists_stopped (h : Inv config P s) (n : Nat) (hn : n ≤ s.db.consumers.length) :
    ∃ t, Leads (step config) (InternalOk config limit count) s t ∧ t.delivery = s.delivery ∧
      t.stream = s.stream ∧ t.db.consumers.length = s.db.consumers.length ∧
      t.waiting.length = s.waiting.length ∧
      ∀ c < n, t.db.consumers[c]? = some .idle ∧ t.waiting[c]? = some [] := by
  induction n with
  | zero => exact ⟨s, Leads.refl, rfl, rfl, rfl, rfl, fun c hc => absurd hc (Nat.not_lt_zero c)⟩
  | succ n ih =>
    obtain ⟨t, hlead, hdelivery, hstream, hconsumers, hwaiting, hidle⟩ := ih (Nat.le_of_succ_le hn)
    have hlt : n < t.db.consumers.length := by omega
    have hget : t.db.consumers[n]? = some t.db.consumers[n] := List.getElem?_eq_getElem hlt
    have hltWaiting : n < t.waiting.length := by
      obtain ⟨rs, hrs, -⟩ := h.first n _ (List.getElem?_eq_getElem (hconsumers ▸ hlt))
      obtain ⟨hbound, -⟩ := List.getElem?_eq_some_iff.mp hrs
      omega
    have hcrash : step config t (.crash n) = some { t with
        db := { t.db with consumers := t.db.consumers.set n .idle }
        waiting := t.waiting.set n [] } := by
      have hdb : DbWriter.step config.options.streamName t.db (n, .crash) =
          some { t.db with consumers := t.db.consumers.set n .idle } := by
        cases hx : t.db.consumers[n] <;> simp [DbWriter.step, hget, hx]
      simp only [step, hdb, Option.map_some]
    refine ⟨_, hlead.trans (Leads.one (i := .crash n) ⟨trivial, trivial⟩ hcrash), hdelivery,
      hstream, by simpa using hconsumers, by simpa using hwaiting, fun c hc => ?_⟩
    by_cases heq : c = n
    · subst heq
      exact ⟨List.getElem?_set_self hlt, List.getElem?_set_self hltWaiting⟩
    · rw [List.getElem?_set_ne (Ne.symm heq), List.getElem?_set_ne (Ne.symm heq)]
      exact hidle c (by omega)

/-- The first database writer is the only one at work, and through with its records. -/
structure Ready (s : State) : Prop where
  alone : Alone s
  idle : s.db.consumers[0]? = some .idle
  waiting : s.waiting[0]? = some []
  acceptable : ∀ entry ∈ s.stream.unacknowledged, ∀ e ∈ entryEvents config entry, Acceptable e

theorem logged_of_leads (hlead : Leads (step config) (InternalOk config limit count) s t) :
    t.logged = s.logged := by
  refine hlead.invariant (fun t => t.logged = s.logged) (fun u op v hu hok hstep => ?_) rfl
  exact (kept_of_step hok.1 hstep).2.trans hu

/-- The publisher brings all that is logged into the stream. -/
theorem exists_allPublished (h : Inv config P s) (hlossless : ∀ e, P e → config.codec.Lossless e)
    (hlimit : 0 < limit) {header : BatchHeader} (hready : Ready config s)
    (hidle : s.delivery.base.publisher = .idle) (hlogged : ∀ e ∈ s.logged, Acceptable e)
    (hbatches : ∀ i < (s.unread config).length,
      config.batches.Lossless (batchOf config header (((s.unread config).drop i).take limit))) :
    ∃ t, Leads (step config) (InternalOk config limit count) s t ∧ Inv config P t ∧
      Ready config t ∧ t.unread config = [] := by
  have hdecrease : ∀ u, (Inv config P u ∧ Ready config u ∧
      u.delivery.base.publisher = .idle ∧ (∀ e ∈ u.logged, Acceptable e) ∧
      ∀ i < (u.unread config).length, config.batches.Lossless
        (batchOf config header (((u.unread config).drop i).take limit))) →
      (u.unread config).length ≠ 0 →
      ∃ v, Leads (step config) (InternalOk config limit count) u v ∧ (Inv config P v ∧
        Ready config v ∧ v.delivery.base.publisher = .idle ∧ (∀ e ∈ v.logged, Acceptable e) ∧
        ∀ i < (v.unread config).length, config.batches.Lossless
          (batchOf config header (((v.unread config).drop i).take limit))) ∧
        (v.unread config).length < (u.unread config).length := by
    rintro u ⟨hinv, hready, hidle, hlogged, hbatches⟩ hne
    have htake : (u.unread config).take limit ≠ [] := by
      intro hnil
      have hlength := congrArg List.length hnil
      rw [List.length_take, List.length_nil] at hlength
      omega
    obtain ⟨v, hlead, hidleV, hunread, hdb, hwaiting, hentries⟩ :=
      exists_published count hinv hlossless hidle htake
        (hbatches 0 (Nat.pos_of_ne_zero hne))
    have hsame := logged_of_leads config limit count hlead
    refine ⟨v, hlead, ⟨hinv.leads hlossless hlead, ⟨?_, hdb ▸ hready.idle,
      hwaiting ▸ hready.waiting, ?_⟩, hidleV, hsame ▸ hlogged, ?_⟩, ?_⟩
    · intro c x hc hx
      exact hready.alone c x hc (hdb ▸ hx)
    · intro entry hentry e he
      rcases hentries entry hentry with hold | hnew
      · exact hready.acceptable entry hold e he
      · exact hlogged e (hnew e he)
    · intro i hi
      rw [hunread, List.length_drop] at hi
      rw [hunread, List.drop_drop]
      exact hbatches _ (by omega)
    · rw [hunread, List.length_drop]
      omega
  obtain ⟨t, hlead, ⟨hinv, hreadyT, -⟩, hzero⟩ :=
    exists_leads_zero (fun u : State => (u.unread config).length) hdecrease
      ⟨h, hready, hidle, hlogged, hbatches⟩
  exact ⟨t, hlead, hinv, hreadyT, List.length_eq_zero_iff.mp hzero⟩

/-- The first database writer brings all that is in the stream into the database. -/
theorem exists_allConsumed (h : Inv config P s) (hlossless : ∀ e, P e → config.codec.Lossless e)
    (hcount : 0 < count) (hready : Ready config s) :
    ∃ t, Leads (step config) (InternalOk config limit count) s t ∧
      t.unread config = s.unread config ∧ t.stream.unacknowledged = [] := by
  have hdecrease : ∀ u, (Inv config P u ∧ Ready config u ∧ u.delivery = s.delivery) →
      u.stream.unacknowledged.length ≠ 0 →
      ∃ v, Leads (step config) (InternalOk config limit count) u v ∧
        (Inv config P v ∧ Ready config v ∧ v.delivery = s.delivery) ∧
        v.stream.unacknowledged.length < u.stream.unacknowledged.length := by
    rintro u ⟨hinv, hready, hdelivery⟩ hne
    obtain ⟨v, hlead, halone, hidle, hwaiting, hsame, hsubset, hlt⟩ :=
      exists_round config limit count hinv hcount hready.alone hready.idle hready.waiting
        hready.acceptable fun hnil => hne (List.length_eq_zero_iff.mpr hnil)
    refine ⟨v, hlead, ⟨hinv.leads hlossless hlead, ⟨halone, hidle, hwaiting, ?_⟩,
      hsame.trans hdelivery⟩, hlt⟩
    exact fun entry hentry => hready.acceptable entry (hsubset hentry)
  obtain ⟨t, hlead, ⟨-, -, hdelivery⟩, hzero⟩ :=
    exists_leads_zero (fun u : State => u.stream.unacknowledged.length) hdecrease ⟨h, hready, rfl⟩
  exact ⟨t, hlead, by rw [State.unread, hdelivery, State.unread],
    List.length_eq_zero_iff.mp hzero⟩

/-- What violates no constraint can be brought into the database. -/
theorem drains_of_acceptable (h : Inv config P s) (hlossless : ∀ e, P e → config.codec.Lossless e)
    (hwriters : 0 < s.db.consumers.length) (hlimit : 0 < limit) (hcount : 0 < count)
    {header : BatchHeader}
    (hbatches : ∀ i < (s.unread config).length,
      config.batches.Lossless (batchOf config header (((s.unread config).drop i).take limit)))
    (hlogged : ∀ e ∈ s.logged, Acceptable e)
    (hopen : ∀ entry ∈ s.stream.unacknowledged, ∀ e ∈ entryEvents config entry, Acceptable e) :
    Drains config limit count s := by
  obtain ⟨t, hstopped, hdelivery, hstream, hlength, -, hidle⟩ :=
    exists_stopped config limit count h s.db.consumers.length le_rfl
  have hcancel : step config t (.outbox .cancel) = some { t with
      delivery := { t.delivery with base := { t.delivery.base with publisher := .idle } } } := rfl
  have hlead := hstopped.trans (Leads.one (i := .outbox .cancel) ⟨trivial, trivial⟩ hcancel)
  generalize hu : ({ t with
    delivery := { t.delivery with
      base := { t.delivery.base with publisher := .idle } } } : State) = u at hlead
  have hready : Ready config u := by
    subst hu
    refine ⟨fun c x hc hx => ?_, (hidle 0 hwriters).1, (hidle 0 hwriters).2, ?_⟩
    · obtain ⟨hlt, -⟩ := List.getElem?_eq_some_iff.mp hx
      exact Option.some.inj (hx.symm.trans (hidle c (hlength ▸ hlt)).1)
    · exact fun entry hentry => hopen entry (hstream ▸ hentry)
  have hunread : u.unread config = s.unread config := by
    subst hu
    simp only [State.unread, hdelivery]
  have hsame := logged_of_leads config limit count hlead
  obtain ⟨v, hlead', hinv, hreadyV, hempty⟩ :=
    exists_allPublished config limit count (h.leads hlossless hlead) hlossless hlimit hready
      (by subst hu; rfl) (hsame ▸ hlogged) (hunread ▸ hbatches)
  obtain ⟨w, hlead'', hunreadW, hopenW⟩ :=
    exists_allConsumed config limit count hinv hlossless hcount hreadyV
  exact ⟨w, (hlead.trans hlead').trans hlead'', hunreadW.trans hempty, hopenW⟩

/-- Database writers come from nowhere and go nowhere. -/
theorem length_of_dbStep {streamName : String} {db db' : DbWriter.State}
    {label : Nat × DbWriter.Op} (hstep : DbWriter.step streamName db label = some db') :
    db'.consumers.length = db.consumers.length := by
  obtain ⟨c, op⟩ := label
  cases op with
  | deliver record now =>
    obtain ⟨-, rfl⟩ := of_deliver hstep
    exact List.length_set
  | persist utcNow =>
    obtain ⟨tx, e, rest, rows, -, -, -, rfl⟩ := of_persist hstep
    exact List.length_set
  | commit =>
    obtain ⟨tx, -, rfl⟩ := of_commit hstep
    exact List.length_set
  | acknowledge =>
    obtain ⟨record, -, rfl⟩ := of_acknowledge hstep
    exact List.length_set
  | crash =>
    obtain ⟨-, rfl⟩ := of_crash hstep
    exact List.length_set

theorem length_of_step {op : Op} (hstep : step config s op = some t) :
    t.db.consumers.length = s.db.consumers.length := by
  rcases step_cases hstep with ⟨op', rfl⟩ | ⟨header, id, answered, rfl⟩ | ⟨-, -, heq | ⟨label, hdb⟩⟩
  · obtain ⟨-, d, -, rfl⟩ := of_outbox hstep
    rfl
  · obtain ⟨batch, stream, d, -, -, -, rfl⟩ := of_attempt hstep
    rfl
  · rw [heq]
  · exact length_of_dbStep hdb

end Drained

end HashStorm.Pipeline
