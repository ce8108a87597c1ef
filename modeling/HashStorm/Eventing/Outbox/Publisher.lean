import HashStorm.Eventing.Outbox.Stored
import HashStorm.Lib.Machine

/-!
# Runs of the outbox with its publisher

The writer appends and rotates, the publisher collects a batch from the
checkpoint, hands it to the transport and then advances the checkpoint, and the
process may crash between any two of these steps. Beside the outbox the state
keeps the completely written records in append order, each with the fact whether
it was handed to the transport. A record leaves this log only when a crash cuts
it off.

In every run whose crashes keep the bytes in front of the checkpoint and whose
appends start on a record boundary, no record is lost.
-/

namespace HashStorm.Outbox

open Contracts Scan Machine

/-- Where `ShareEventOutboxPublisher.ExecuteAsync` stands in its loop. -/
inductive Publisher where
  | idle
  | collected (batch : List Record)
  | published (batch : List Record)
  deriving DecidableEq, Repr

/-- A completely written record, and whether the transport has received it. -/
structure LogEntry where
  record : Record
  handed : Bool
  deriving DecidableEq, Repr

/-- The outbox, its checkpoint file, its publisher and its history. -/
structure State where
  outbox : FileOutbox
  checkpoint : Checkpoint
  publisher : Publisher
  log : List LogEntry
  deriving DecidableEq, Repr

/-- A record that was just written. -/
def LogEntry.fresh (r : Record) : LogEntry := ⟨r, false⟩

/-- The records of the log. -/
def State.records (s : State) : List Record := s.log.map LogEntry.record

/-- One step of the writer, of the publisher, or a crash. -/
inductive Op where
  | append (events : List ShareEvent) (flushToDisk : Bool) (fault : Option (Nat × AppendPoint))
  | rotate
  | flush (flushToDisk : Bool)
  /-- Collect at most `count` records from the checkpoint. -/
  | read (count : Nat)
  /-- The transport reports the batch as published. -/
  | publish
  /-- `AdvanceCheckpointAsync` of the last record, stopped after `limit` deletions. -/
  | advance (limit : Nat)
  | crash (cut : Nat)
  deriving DecidableEq, Repr

variable (codec : EventCodec) (segmentMaxBytes : Nat)

/-- The outbox on an empty directory. -/
def State.initial : State := ⟨FileOutbox.openLastSegment [] 0, {}, .idle, []⟩

/-- Remember which records the transport has received. -/
def handOver (batch : List Record) (e : LogEntry) : LogEntry :=
  if e.record ∈ batch then { e with handed := true } else e

/-- Execute one step; `none` when it is not enabled. -/
def step (s : State) : Op → Option State
  | .append events flushToDisk fault =>
    let result := s.outbox.appendAsync codec segmentMaxBytes events flushToDisk fault
    some { s with outbox := result.outbox, log := s.log ++ result.placed.map LogEntry.fresh }
  | .rotate => some { s with outbox := s.outbox.rotateAsync }
  | .flush flushToDisk => some { s with outbox := s.outbox.flushCore flushToDisk }
  | .read count =>
    match s.publisher with
    | .idle =>
      let batch := (s.outbox.readFromCheckpointAsync codec s.checkpoint).take count
      some { s with publisher := if batch = [] then .idle else .collected batch }
    | _ => none
  | .publish =>
    match s.publisher with
    | .collected batch =>
      some { s with publisher := .published batch, log := s.log.map (handOver batch) }
    | _ => none
  | .advance limit =>
    match s.publisher with
    | .published batch =>
      batch.getLast?.map fun last =>
        { s with
          outbox := { s.outbox with
            closed := deletePublishedSegments last.segment limit s.outbox.closed }
          checkpoint := ⟨some last.segment, last.nextOffset⟩
          publisher := .idle }
    | _ => none
  | .crash cut =>
    (s.outbox.crash codec cut).map fun outbox =>
      { s with
        outbox := outbox
        publisher := .idle
        log := s.log.filter fun e => survivors s.outbox cut e.record }

/-- Every record on disk is at or before one that was handed to the transport, or
a read that starts from the saved checkpoint yields it. -/
def NoLoss (s : State) : Prop :=
  ∀ (i : Nat) (e : LogEntry), s.log[i]? = some e →
    (∃ (j : Nat) (e' : LogEntry), i ≤ j ∧ s.log[j]? = some e' ∧ e'.handed = true) ∨
      e.record ∈ s.outbox.readFromCheckpointAsync codec s.checkpoint

/-- The reader finds the open segment complete. -/
def Complete (o : FileOutbox) : Prop :=
  ∃ result, readSegmentWithResult codec o.current.bytes o.current.index 0 = some result ∧
    result.isComplete = true

instance (o : FileOutbox) : Decidable (Complete codec o) :=
  match h : readSegmentWithResult codec o.current.bytes o.current.index 0 with
  | none => isFalse (by simp [Complete, h])
  | some result => decidable_of_iff (result.isComplete = true) (by simp [Complete, h])

/-- A crash keeps what lies in front of the checkpoint, and an append does not
write behind an incomplete record. -/
def StepOk (s : State) : Op → Prop
  | .append events _ _ =>
    Complete codec s.outbox ∨ ∀ e ∈ events.head?, s.outbox.MustRotate codec segmentMaxBytes e
  | .crash cut =>
    s.checkpoint.segmentName = some s.outbox.current.index → s.checkpoint.offset ≤ cut
  | _ => True

instance (s : State) (op : Op) : Decidable (StepOk codec segmentMaxBytes s op) :=
  match op with
  | .append events _ _ => inferInstanceAs (Decidable (_ ∨ ∀ e ∈ events.head?, _))
  | .crash _ => inferInstanceAs (Decidable (_ → _))
  | .rotate | .flush _ | .read _ | .publish | .advance _ => isTrue trivial

/-- The events a step appends. -/
def Op.events : Op → List ShareEvent
  | .append events _ _ => events
  | _ => []

/-- A batch on its way: its last record lies in the directory, not in front of
the checkpoint, and every record up to there satisfies `P`. -/
def InFlight (o : FileOutbox) (log : List LogEntry) (cp : Checkpoint) (batch : List Record)
    (P : LogEntry → Prop) : Prop :=
  ∃ last, batch.getLast? = some last ∧ last ∈ log.map LogEntry.record ∧ ¬cp.Covers last ∧
    (∃ seg ∈ o.segments, seg.index = last.segment) ∧
    ∀ e ∈ log, ¬Before last e.record → P e

/-- What the publisher has in hand agrees with the directory and the log. -/
def Publisher.Agrees (o : FileOutbox) (log : List LogEntry) (cp : Checkpoint) : Publisher → Prop
  | .idle => True
  | .collected batch => InFlight o log cp batch fun e => e.handed = true ∨ e.record ∈ batch
  | .published batch => InFlight o log cp batch fun e => e.handed = true

/-- The invariant of safe runs. -/
structure Inv (s : State) : Prop where
  stored : Stored codec s.outbox s.records
  boundary : AtBoundary codec s.outbox s.records s.checkpoint
  /-- Only segments in front of the checkpoint have been deleted. -/
  kept : ∀ e ∈ s.log, (∃ seg ∈ s.outbox.segments, seg.index = e.record.segment) ∨
    ∃ i, s.checkpoint.segmentName = some i ∧ e.record.segment < i
  /-- Everything in front of the checkpoint was handed to the transport. -/
  handed : ∀ e ∈ s.log, s.checkpoint.Covers e.record → e.handed = true
  publisher : s.publisher.Agrees s.outbox s.log s.checkpoint

variable {codec segmentMaxBytes} {s : State}

theorem mem_records {r : Record} : r ∈ s.records ↔ ∃ e ∈ s.log, e.record = r := by
  simp [State.records]

/-- A record of the log has been handed over or is yielded from the checkpoint. -/
theorem Inv.handed_or_yielded (h : Inv codec s) {e : LogEntry} (he : e ∈ s.log) :
    e.handed = true ∨ e.record ∈ s.outbox.readFromCheckpointAsync codec s.checkpoint := by
  by_cases hcov : s.checkpoint.Covers e.record
  · exact Or.inl (h.handed e he hcov)
  · right
    rw [h.stored.mem_readFromCheckpointAsync h.boundary]
    refine ⟨mem_records.mpr ⟨e, he, rfl⟩, hcov, ?_⟩
    rcases h.kept e he with hseg | ⟨i, hi, hlt⟩
    · exact hseg
    · exact absurd ⟨i, hi, Or.inl hlt⟩ hcov

theorem Inv.noLoss (h : Inv codec s) : NoLoss codec s := by
  intro i e hi
  rcases h.handed_or_yielded (List.mem_of_getElem? hi) with hh | hy
  · exact Or.inl ⟨i, e, le_rfl, hi, hh⟩
  · exact Or.inr hy

theorem inv_initial : Inv codec State.initial where
  stored :=
    { closed_lt := by simp [State.initial, FileOutbox.openLastSegment]
      sorted := List.Pairwise.nil
      holds := by
        intro seg hseg
        rw [List.mem_singleton.mp hseg]
        exact ⟨0, [], rfl, Or.inl rfl, rfl⟩
      le_current := by simp [State.records, State.initial] }
  boundary := by intro i hi; cases hi
  kept := by simp [State.initial]
  handed := by simp [State.initial]
  publisher := trivial

/-- A record behind the open segment's end is not covered by the checkpoint. -/
theorem Inv.not_covers (h : Inv codec s) {r : Record}
    (hr : s.outbox.current.index ≤ r.segment ∧
      (r.segment = s.outbox.current.index → s.outbox.current.bytes.length ≤ r.offset)) :
    ¬s.checkpoint.Covers r := by
  rintro ⟨i, hi, hlt⟩
  obtain ⟨⟨seg, hseg, hidx⟩, front, rest, hsplit, hoff⟩ := h.boundary i hi
  have hle : i ≤ s.outbox.current.index := by
    rcases List.mem_append.mp hseg with hc | hc
    · have := h.stored.closed_lt seg hc
      omega
    · rw [List.mem_singleton.mp hc] at hidx
      omega
  have hcur : r.segment = i ∧ i = s.outbox.current.index ∧ r.offset < s.checkpoint.offset := by
    omega
  have hlen := h.stored.current_holds.length_le
  rw [← hcur.2.1, hsplit, encodeAll_append, List.length_append] at hlen
  have := hr.2 (by omega)
  omega

/-- A stored record lies before everything behind the open segment's end. -/
theorem Inv.before_added (h : Inv codec s) {last r : Record} (hlast : last ∈ s.records)
    (hr : s.outbox.current.index ≤ r.segment ∧
      (r.segment = s.outbox.current.index → s.outbox.current.bytes.length ≤ r.offset)) :
    Before last r := by
  have hle := h.stored.le_current last hlast
  by_cases hseg : last.segment = s.outbox.current.index
  · have hon : last ∈ onSegment s.records s.outbox.current.index := mem_onSegment.mpr ⟨hlast, hseg⟩
    have hnext := h.stored.current_holds.nextOffset_le hon
    obtain ⟨q, tail, hc, _, _⟩ := h.stored.current_holds
    have hbd := hc.bounds hon
    by_cases hrs : r.segment = s.outbox.current.index
    · exact Or.inr ⟨by omega, by have := hr.2 hrs; omega⟩
    · exact Or.inl (by omega)
  · exact Or.inl (by omega)

/-- What the publisher has in hand stays valid when the outbox grows. -/
theorem Inv.inFlight_grow (h : Inv codec s) {o : FileOutbox} {added : List Record}
    (hgrew : Grew s.outbox o added) {batch : List Record} {P : LogEntry → Prop}
    (hf : InFlight s.outbox s.log s.checkpoint batch P) :
    InFlight o (s.log ++ added.map LogEntry.fresh) s.checkpoint batch P := by
  obtain ⟨last, hlast, hmem, hcov, ⟨seg, hseg, hidx⟩, hall⟩ := hf
  obtain ⟨seg', hseg', hidx'⟩ := hgrew.keeps seg hseg
  refine ⟨last, hlast, ?_, hcov, ⟨seg', hseg', hidx'.trans hidx⟩, ?_⟩
  · rw [List.map_append]
    exact List.mem_append_left _ hmem
  · intro e he hb
    rcases List.mem_append.mp he with he | he
    · exact hall e he hb
    · obtain ⟨r, hr, rfl⟩ := List.mem_map.mp he
      exact absurd (h.before_added hmem (hgrew.behind r hr)) hb

theorem records_append_fresh (log : List LogEntry) (added : List Record) :
    (log ++ added.map LogEntry.fresh).map LogEntry.record = log.map LogEntry.record ++ added := by
  simp [LogEntry.fresh, Function.comp_def]

/-- What grows at its end keeps the invariant. -/
theorem Inv.grow (h : Inv codec s) {o : FileOutbox} {added : List Record}
    (hstored : Stored codec o (s.records ++ added)) (hgrew : Grew s.outbox o added) :
    Inv codec { s with outbox := o, log := s.log ++ added.map LogEntry.fresh } := by
  have hrecords : State.records { s with
      outbox := o, log := s.log ++ added.map LogEntry.fresh } = s.records ++ added :=
    records_append_fresh s.log added
  refine ⟨by rw [hrecords]; exact hstored, ?_, ?_, ?_, ?_⟩
  · intro i hi
    obtain ⟨⟨seg, hseg, hidx⟩, front, rest, hsplit, hoff⟩ := h.boundary i hi
    obtain ⟨seg', hseg', hidx'⟩ := hgrew.keeps seg hseg
    refine ⟨⟨seg', hseg', hidx'.trans hidx⟩, front, rest ++ onSegment added i, ?_, hoff⟩
    rw [hrecords, onSegment_append, hsplit, List.append_assoc]
  · intro e he
    rcases List.mem_append.mp he with he | he
    · rcases h.kept e he with ⟨seg, hseg, hidx⟩ | hcov
      · obtain ⟨seg', hseg', hidx'⟩ := hgrew.keeps seg hseg
        exact Or.inl ⟨seg', hseg', hidx'.trans hidx⟩
      · exact Or.inr hcov
    · obtain ⟨r, hr, rfl⟩ := List.mem_map.mp he
      exact Or.inl (hgrew.exists_segment r hr)
  · intro e he hcov
    rcases List.mem_append.mp he with he | he
    · exact h.handed e he hcov
    · obtain ⟨r, hr, rfl⟩ := List.mem_map.mp he
      exact absurd hcov (h.not_covers (hgrew.behind r hr))
  · have hp := h.publisher
    simp only
    cases hpub : s.publisher with
    | idle => trivial
    | collected batch =>
      rw [hpub] at hp
      exact h.inFlight_grow hgrew hp
    | published batch =>
      rw [hpub] at hp
      exact h.inFlight_grow hgrew hp

/-- A step that writes no complete record keeps the log. -/
theorem Inv.grow_nil (h : Inv codec s) {o : FileOutbox} (hstored : Stored codec o s.records)
    (hgrew : Grew s.outbox o []) : Inv codec { s with outbox := o } := by
  have hstored' : Stored codec o (s.records ++ []) := by rwa [List.append_nil]
  have hgrown := h.grow hstored' hgrew
  simpa using hgrown

/-- The publisher collects a prefix of what is yielded. -/
theorem Inv.read (h : Inv codec s) {count : Nat} {batch : List Record}
    (hbatch : batch = (s.outbox.readFromCheckpointAsync codec s.checkpoint).take count)
    (hne : batch ≠ []) : Inv codec { s with publisher := .collected batch } := by
  refine ⟨h.stored, h.boundary, h.kept, h.handed, ?_⟩
  set yielded := s.outbox.readFromCheckpointAsync codec s.checkpoint with hy
  have hyielded : ∀ r ∈ batch, r ∈ yielded := by
    intro r hr
    rw [hbatch] at hr
    exact List.mem_of_mem_take hr
  have hmem : batch.getLast hne ∈ yielded := hyielded _ (List.getLast_mem hne)
  obtain ⟨hrec, hcov, hseg⟩ := (h.stored.mem_readFromCheckpointAsync h.boundary).mp hmem
  refine ⟨_, List.getLast?_eq_some_getLast hne, hrec, hcov, hseg, ?_⟩
  intro e he hb
  rcases h.handed_or_yielded he with hh | hyield
  · exact Or.inl hh
  · right
    -- what is yielded behind the batch lies behind its last record
    have hsorted := h.stored.readFromCheckpointAsync_sorted h.boundary
    rw [← hy, ← List.take_append_drop count yielded, ← hbatch, List.pairwise_append] at hsorted
    rw [← hy, ← List.take_append_drop count yielded, ← hbatch, List.mem_append] at hyield
    rcases hyield with hin | hout
    · exact hin
    · exact absurd (hsorted.2.2 _ (List.getLast_mem hne) _ hout) hb

@[simp] theorem handOver_record (batch : List Record) (e : LogEntry) :
    (handOver batch e).record = e.record := by
  unfold handOver
  split <;> rfl

theorem records_handOver (log : List LogEntry) (batch : List Record) :
    (log.map (handOver batch)).map LogEntry.record = log.map LogEntry.record := by
  simp [Function.comp_def]

theorem handOver_handed {batch : List Record} {e : LogEntry}
    (h : e.handed = true ∨ e.record ∈ batch) : (handOver batch e).handed = true := by
  unfold handOver
  split
  · rfl
  · exact h.resolve_right ‹_›

/-- The transport receives the batch. -/
theorem Inv.publish (h : Inv codec s) {batch : List Record}
    (hpub : s.publisher = .collected batch) :
    Inv codec { s with publisher := .published batch, log := s.log.map (handOver batch) } := by
  have hrecords : State.records { s with
      publisher := .published batch, log := s.log.map (handOver batch) } = s.records :=
    records_handOver s.log batch
  have hflight := h.publisher
  rw [hpub] at hflight
  obtain ⟨last, hlast, hmem, hcov, hseg, hall⟩ := hflight
  refine ⟨by rw [hrecords]; exact h.stored, ?_, ?_, ?_, ?_⟩
  · intro i hi
    rw [hrecords]
    exact h.boundary i hi
  · intro e he
    obtain ⟨e', he', rfl⟩ := List.mem_map.mp he
    simpa using h.kept e' he'
  · intro e he hcov
    obtain ⟨e', he', rfl⟩ := List.mem_map.mp he
    rw [handOver_record] at hcov
    exact handOver_handed (Or.inl (h.handed e' he' hcov))
  · refine ⟨last, hlast, ?_, hcov, hseg, ?_⟩
    · simpa [Function.comp_def] using hmem
    · intro e he hb
      obtain ⟨e', he', rfl⟩ := List.mem_map.mp he
      rw [handOver_record] at hb
      exact handOver_handed (hall e' he' hb)

/-- Deletion removes a prefix of the closed segments that does not contain the
published one. -/
theorem deletePublishedSegments_eq (published limit : Nat) (closed : List Segment) :
    ∃ dropped, closed = dropped ++ deletePublishedSegments published limit closed ∧
      ∀ seg ∈ dropped, seg.index ≠ published := by
  induction closed generalizing limit with
  | nil => exact ⟨[], by cases limit <;> rfl, by simp⟩
  | cons seg rest ih =>
    cases limit with
    | zero => exact ⟨[], rfl, by simp⟩
    | succ limit =>
      unfold deletePublishedSegments
      split
      · exact ⟨[], rfl, by simp⟩
      · rename_i hne
        obtain ⟨dropped, heq, hall⟩ := ih limit
        refine ⟨seg :: dropped, by rw [List.cons_append, ← heq], ?_⟩
        intro t ht
        rcases List.mem_cons.mp ht with rfl | ht
        · exact hne
        · exact hall t ht

/-- A record of an existing segment ends on a record boundary. -/
theorem Stored.boundary_of_mem {o : FileOutbox} {records : List Record} {r : Record}
    (h : Stored codec o records) (hr : r ∈ records)
    (hseg : ∃ seg ∈ o.segments, seg.index = r.segment) :
    ∃ front rest, onSegment records r.segment = front ++ rest ∧
      r.nextOffset = (encodeAll codec front).length := by
  obtain ⟨seg, hmem, hidx⟩ := hseg
  obtain ⟨q, tail, hc, _, _⟩ := h.holds seg hmem
  rw [hidx] at hc
  obtain ⟨front, rest, hsplit⟩ := List.append_of_mem (mem_onSegment.mpr ⟨hr, rfl⟩)
  refine ⟨front ++ [r], rest, by rw [hsplit]; simp, ?_⟩
  rw [hsplit, ← List.singleton_append, ← List.append_assoc, chained_append] at hc
  obtain ⟨m, hfront, _⟩ := hc
  have hm := hfront.end_eq
  rw [chained_append] at hfront
  obtain ⟨_, _, ⟨_, hend⟩⟩ := hfront
  simp only [Chained] at hend
  omega

/-- The checkpoint moves behind the last record of a published batch. -/
theorem Inv.advance (h : Inv codec s) {batch : List Record} {last : Record} (limit : Nat)
    (hpub : s.publisher = .published batch) (hlast : batch.getLast? = some last) :
    Inv codec { s with
      outbox := { s.outbox with
        closed := deletePublishedSegments last.segment limit s.outbox.closed }
      checkpoint := ⟨some last.segment, last.nextOffset⟩
      publisher := .idle } := by
  have hflight := h.publisher
  rw [hpub] at hflight
  obtain ⟨last', hlast', hmem, hcov, ⟨seg, hseg, hidx⟩, hall⟩ := hflight
  obtain rfl : last' = last := Option.some.inj (hlast'.symm.trans hlast)
  obtain ⟨dropped, hsplit, hdropped⟩ :=
    deletePublishedSegments_eq last'.segment limit s.outbox.closed
  set kept := deletePublishedSegments last'.segment limit s.outbox.closed
  have hsegments : s.outbox.segments = dropped ++ (kept ++ [s.outbox.current]) := by
    rw [FileOutbox.segments, hsplit, List.append_assoc]
  have hsorted := h.stored.segments_sorted
  rw [hsegments, List.pairwise_append] at hsorted
  have hseg' : seg ∈ kept ++ [s.outbox.current] := by
    rw [hsegments] at hseg
    rcases List.mem_append.mp hseg with hd | hk
    · exact absurd hidx (hdropped seg hd)
    · exact hk
  have hlt : ∀ t ∈ dropped, t.index < last'.segment := fun t ht =>
    hidx ▸ hsorted.2.2 t ht seg hseg'
  have hclosed : ∀ t ∈ kept, t ∈ s.outbox.closed := fun t ht => by
    rw [hsplit]
    exact List.mem_append_right _ ht
  have hchain := h.stored.holds seg hseg
  refine ⟨⟨?_, ?_, ?_, h.stored.le_current⟩, ?_, ?_, ?_, trivial⟩
  · exact fun t ht => h.stored.closed_lt t (hclosed t ht)
  · exact (List.pairwise_append.mp hsorted.2.1).1
  · intro t ht
    refine h.stored.holds t ?_
    rw [hsegments]
    exact List.mem_append_right _ ht
  · intro i hi
    obtain rfl : last'.segment = i := Option.some.inj hi
    exact ⟨⟨seg, hseg', hidx⟩, h.stored.boundary_of_mem hmem ⟨seg, hseg, hidx⟩⟩
  · intro e he
    rcases h.kept e he with ⟨t, ht, htidx⟩ | ⟨i, hi, hlti⟩
    · rw [hsegments] at ht
      rcases List.mem_append.mp ht with hd | hk
      · exact Or.inr ⟨_, rfl, htidx ▸ hlt t hd⟩
      · exact Or.inl ⟨t, hk, htidx⟩
    · refine Or.inr ⟨_, rfl, ?_⟩
      by_contra hge
      exact hcov ⟨i, hi, Or.inl (by omega)⟩
  · rintro e he ⟨i, hi, hcovers⟩
    obtain rfl : last'.segment = i := Option.some.inj hi
    apply hall e he
    rintro (hb | ⟨hsame, hb⟩)
    · omega
    · rcases hcovers with hc | ⟨_, hc⟩
      · omega
      · obtain ⟨q, tail, hchained, _, _⟩ := hchain
        rw [hidx] at hchained
        have hnext := hchained.nextOffset_le (mem_onSegment.mpr ⟨hmem, rfl⟩)
          (mem_onSegment.mpr ⟨mem_records.mpr ⟨e, he, rfl⟩, hsame.symm⟩) hb
        simp only at hc
        omega

theorem exists_segment_congr {o o' : FileOutbox}
    (h : o'.segments.map Segment.index = o.segments.map Segment.index) (i : Nat) :
    (∃ seg ∈ o'.segments, seg.index = i) ↔ ∃ seg ∈ o.segments, seg.index = i := by
  simp only [← List.mem_map, h]

theorem records_survivors (log : List LogEntry) (o : FileOutbox) (cut : Nat) :
    (log.filter fun e => survivors o cut e.record).map LogEntry.record =
      (log.map LogEntry.record).filter (survivors o cut) := by
  rw [List.filter_map]
  rfl

/-- A crash that keeps the bytes in front of the checkpoint keeps the invariant. -/
theorem Inv.crash (h : Inv codec s) {cut : Nat} {o : FileOutbox}
    (hcrash : s.outbox.crash codec cut = some o)
    (hcut : s.checkpoint.segmentName = some s.outbox.current.index →
      s.checkpoint.offset ≤ cut) :
    Inv codec { s with
      outbox := o
      publisher := .idle
      log := s.log.filter fun e => survivors s.outbox cut e.record } := by
  obtain ⟨hstored, hcurrent, hindex⟩ := h.stored.crash hcrash
  have hrecords : State.records { s with
      outbox := o, publisher := .idle,
      log := s.log.filter fun e => survivors s.outbox cut e.record } =
        s.records.filter (survivors s.outbox cut) :=
    records_survivors s.log s.outbox cut
  refine ⟨by rw [hrecords]; exact hstored, ?_, ?_, ?_, trivial⟩
  · intro i hi
    obtain ⟨hseg, front, rest, hsplit, hoff⟩ := h.boundary i hi
    rw [hrecords]
    refine ⟨(exists_segment_congr hindex i).mpr hseg, ?_⟩
    by_cases hcur : i = s.outbox.current.index
    · subst hcur
      obtain ⟨q, tail, hc, _, _⟩ := h.stored.current_holds
      rw [hsplit, chained_append] at hc
      obtain ⟨m, hfront, _⟩ := hc
      have hm := hfront.end_eq
      have hle := hcut hi
      refine ⟨front, rest.filter fun r => r.nextOffset ≤ cut, ?_, hoff⟩
      rw [onSegment_survivors_current, hsplit, List.filter_append]
      congr 1
      rw [List.filter_eq_self]
      intro r hr
      have := (hfront.bounds hr).2.2.2.1
      simp only [decide_eq_true_eq]
      omega
    · exact ⟨front, rest, by rw [onSegment_survivors_ne hcur, hsplit], hoff⟩
  · intro e he
    rcases h.kept e (List.mem_filter.mp he).1 with hseg | hcov
    · exact Or.inl ((exists_segment_congr hindex _).mpr hseg)
    · exact Or.inr hcov
  · intro e he hcov
    exact h.handed e (List.mem_filter.mp he).1 hcov

/-- A safe step keeps the invariant. -/
theorem Inv.step (h : Inv codec s) {op : Op} {s' : State}
    (hl : ∀ e ∈ op.events, codec.Lossless e) (hok : StepOk codec segmentMaxBytes s op)
    (hstep : step codec segmentMaxBytes s op = some s') : Inv codec s' := by
  cases op with
  | append events flushToDisk fault =>
    have hready : Ready codec segmentMaxBytes s.outbox s.records events :=
      hok.imp_left h.stored.isComplete_iff.mp
    cases hstep
    exact h.grow (h.stored.appendAsync hready hl flushToDisk fault)
      (grew_appendAsync _ events flushToDisk fault)
  | rotate =>
    cases hstep
    exact h.grow_nil h.stored.rotateAsync.1 (grew_rotateAsync _)
  | flush flushToDisk =>
    cases hstep
    exact h.grow_nil (h.stored.flushCore _) (grew_flushCore _ _)
  | read count =>
    simp only [Outbox.step] at hstep
    split at hstep
    · cases hstep
      split
      · exact ⟨h.stored, h.boundary, h.kept, h.handed, trivial⟩
      · exact h.read rfl ‹_›
    · contradiction
  | publish =>
    simp only [Outbox.step] at hstep
    split at hstep
    · cases hstep
      exact h.publish ‹_›
    · contradiction
  | advance limit =>
    simp only [Outbox.step] at hstep
    split at hstep
    · rw [Option.map_eq_some_iff] at hstep
      obtain ⟨last, hlast, rfl⟩ := hstep
      exact h.advance limit ‹_› hlast
    · contradiction
  | crash cut =>
    simp only [Outbox.step, Option.map_eq_some_iff] at hstep
    obtain ⟨o, hcrash, rfl⟩ := hstep
    exact h.crash hcrash hok

/-- Safe runs keep the invariant. -/
theorem inv_of_safe_run {ops : List Op} {s : State}
    (hl : ∀ op ∈ ops, ∀ e ∈ op.events, codec.Lossless e)
    (hok : Meets (step codec segmentMaxBytes) (StepOk codec segmentMaxBytes) State.initial ops)
    (hrun : run (step codec segmentMaxBytes) State.initial ops = some s) : Inv codec s := by
  refine run_invariant (Inv codec) ?_ inv_initial (hok.and_forall hl) hrun
  rintro t op t' ht ⟨hlop, hop⟩ hstep
  exact ht.step hlop hop hstep

/-- No run loses a record as long as every crash keeps the bytes in front of the
checkpoint and no append starts behind an incomplete record. -/
theorem noLoss_of_safe_run (ops : List Op) (s : State)
    (hl : ∀ op ∈ ops, ∀ e ∈ op.events, codec.Lossless e)
    (hok : Meets (step codec segmentMaxBytes) (StepOk codec segmentMaxBytes) State.initial ops)
    (hrun : run (step codec segmentMaxBytes) State.initial ops = some s) : NoLoss codec s :=
  (inv_of_safe_run hl hok hrun).noLoss

/-- One event is appended, flushed, published and passed by the checkpoint before
the process dies; another one is appended after the restart. -/
def restartRun (flushToDisk : Bool) (cut : Nat) : List Op :=
  [.append [bareEvent "a"] flushToDisk none, .read 1, .publish, .advance 8, .crash cut,
    .append [bareEvent "b"] true none]

/-- With a flush to disk the second event is yielded after the restart. -/
theorem noLoss_restartRun_flushed : ∃ s,
    run (step bareCodec 4096) State.initial (restartRun true 423) = some s ∧
      s.log.length = 2 ∧ NoLoss bareCodec s := by
  have hl : ∀ op ∈ restartRun true 423, ∀ e ∈ op.events, bareCodec.Lossless e := by
    decide +kernel
  have hok : Meets (step bareCodec 4096) (StepOk bareCodec 4096) State.initial
      (restartRun true 423) := by
    decide +kernel
  have hrun : ((run (step bareCodec 4096) State.initial (restartRun true 423)).map
      fun s => s.log.length) = some 2 := by
    decide +kernel
  obtain ⟨s, hs, hlen⟩ := Option.map_eq_some_iff.mp hrun
  exact ⟨s, hs, hlen, noLoss_of_safe_run _ s hl hok hs⟩

/-- Without it the checkpoint lies behind the cut, and the second event is never
yielded although it is completely on disk and was never handed over. -/
theorem not_noLoss_restartRun : ∃ s,
    run (step bareCodec 4096) State.initial (restartRun false 0) = some s ∧
      ¬NoLoss bareCodec s := by
  have hrun : ((run (step bareCodec 4096) State.initial (restartRun false 0)).map fun s =>
      (s.log, s.outbox.readFromCheckpointAsync bareCodec s.checkpoint)) =
        some ([⟨⟨1, 0, 423, bareEvent "b"⟩, false⟩], []) := by
    decide +kernel
  obtain ⟨s, hs, heq⟩ := Option.map_eq_some_iff.mp hrun
  obtain ⟨hlog, hread⟩ := Prod.mk.inj heq
  refine ⟨s, hs, fun h => ?_⟩
  rcases h 0 _ (by rw [hlog]; rfl) with ⟨j, e, _, hj, he⟩ | hy
  · rw [hlog] at hj
    have := List.mem_singleton.mp (List.mem_of_getElem? hj)
    rw [this] at he
    cases he
  · rw [hread] at hy
    cases hy

end HashStorm.Outbox
