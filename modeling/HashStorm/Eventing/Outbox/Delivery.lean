import HashStorm.Eventing.Outbox.Publisher
import HashStorm.Lib.Replay
import Mathlib.Data.List.Sort

/-!
# What the publisher delivers

Beside the outbox and its publisher, the records of the batches are kept that the
transport reported as published, in that order. The transport may fail, the
publisher may be stopped at any point, and the process may restart; some records
are then published again. Their first occurrences are the log in the order of
its appends, as far as it was published.
-/

namespace HashStorm.Outbox.Delivery

open Contracts Machine Replay

/-- The outbox with its publisher, and the records that were published. -/
structure State where
  base : Outbox.State
  published : List Record
  deriving DecidableEq, Repr

/-- What can happen. -/
inductive Op where
  | outbox (op : Outbox.Op)
  /-- The transport does not report the batch as published, and it is tried again. -/
  | fail
  /-- The stopping token fires: `PublishWithRetryAsync` returns without publishing, and
  `AdvanceCheckpointAsync` raises an exception at its gate. -/
  | cancel
  deriving DecidableEq, Repr

/-- The outbox on an empty directory. -/
def State.initial : State := ⟨Outbox.State.initial, []⟩

/-- The records of a batch that is published by a step. -/
def publishedBy (publisher : Publisher) (op : Outbox.Op) : List Record :=
  match op, publisher with
  | .publish, .collected batch => batch
  | _, _ => []

variable (codec : EventCodec) (segmentMaxBytes : Nat)

/-- One step of the outbox, its publisher or the transport. -/
def step (s : State) : Op → Option State
  | .outbox op =>
    (Outbox.step codec segmentMaxBytes s.base op).map fun base =>
      ⟨base, s.published ++ publishedBy s.base.publisher op⟩
  | .fail =>
    match s.base.publisher with
    | .collected _ => some s
    | _ => none
  | .cancel => some { s with base := { s.base with publisher := .idle } }

/-- No append writes behind a torn record, and a restart keeps what was published. -/
def StepOk (s : State) : Op → Prop
  | .outbox op =>
    Outbox.StepOk codec segmentMaxBytes s.base op ∧
      match op with
      | .crash cut => ∀ r ∈ s.published, survivors s.base.outbox cut r = true
      | _ => True
  | .fail | .cancel => True

instance (s : State) (op : Op) : Decidable (StepOk codec segmentMaxBytes s op) :=
  match op with
  | .outbox (.crash _) => inferInstanceAs (Decidable (_ ∧ ∀ r ∈ _, _))
  | .outbox (.append _ _ _) | .outbox .rotate | .outbox (.flush _) | .outbox (.read _)
  | .outbox .publish | .outbox (.advance _) => inferInstanceAs (Decidable (_ ∧ True))
  | .fail | .cancel => isTrue trivial

/-- The events a step appends. -/
def Op.events : Op → List ShareEvent
  | .outbox op => op.events
  | .fail | .cancel => []

/-- The order of checkpoints by segment and offset; the empty one comes first. -/
def Precedes (cp cp' : Checkpoint) : Prop :=
  ∀ i, cp.segmentName = some i → ∃ j, cp'.segmentName = some j ∧
    (i < j ∨ i = j ∧ cp.offset ≤ cp'.offset)

/-- The invariant of runs without torn records. -/
structure Inv (s : State) : Prop where
  base : Outbox.Inv codec s.base
  sorted : s.base.records.Pairwise Before
  handed : ∀ e ∈ s.base.log, e.handed = true → e.record ∈ s.published
  front : s.published.eraseDups <+: s.base.records
  /-- A batch is a part of the log behind records that were published. -/
  batch : ∀ batch, s.base.publisher = .collected batch →
    ∃ front, front ++ batch <+: s.base.records ∧ front ⊆ s.published

variable {codec segmentMaxBytes} {s s' : State}

section Order

instance : Std.Irrefl Before := ⟨fun r h => by simp only [Before] at h; omega⟩

instance : Std.Antisymm Before := ⟨fun r t h h' => by simp only [Before] at h h'; omega⟩

/-- What an append completes lies in the order of its completion. -/
theorem sorted_appendLoop (o : FileOutbox) (events : List ShareEvent)
    (fault : Option (Nat × AppendPoint)) :
    (o.appendLoop codec segmentMaxBytes events fault).placed.Pairwise Before := by
  induction events generalizing o fault with
  | nil => exact List.Pairwise.nil
  | cons e es ih =>
    unfold FileOutbox.appendLoop
    split
    · exact List.Pairwise.nil
    · split
      · exact List.Pairwise.nil
      · refine List.pairwise_cons.mpr ⟨?_, ih _ _⟩
        intro r hr
        obtain ⟨hsegment, hoffset⟩ := (grew_appendLoop _ es _).behind r hr
        simp only [FileOutbox.write, List.length_append, length_recordBytes] at hsegment hoffset
        have hpos := recordLength_pos codec e
        simp only [Before, FileOutbox.slot]
        omega

end Order

section Steps

theorem inv_initial : Inv codec State.initial := by
  refine ⟨Outbox.inv_initial, List.Pairwise.nil, ?_, List.prefix_rfl, ?_⟩
  · intro e he
    cases he
  · intro batch hbatch
    cases hbatch

theorem Inv.nodup (h : Inv codec s) : s.base.records.Nodup := h.sorted.nodup

/-- The outbox grows. -/
theorem Inv.grow (h : Inv codec s) {base : Outbox.State} {added : List Record}
    (hbase : Outbox.Inv codec base) (hlog : base.log = s.base.log ++ added.map LogEntry.fresh)
    (hpublisher : base.publisher = s.base.publisher) (hgrew : Grew s.base.outbox base.outbox added)
    (hadded : added.Pairwise Before) : Inv codec ⟨base, s.published⟩ := by
  have hrecords : base.records = s.base.records ++ added := by
    rw [Outbox.State.records, hlog, records_append_fresh]
    rfl
  have hextends : s.base.records <+: base.records := hrecords ▸ List.prefix_append _ _
  refine ⟨hbase, ?_, ?_, h.front.trans hextends, ?_⟩
  · simp only
    rw [hrecords]
    refine List.pairwise_append.mpr ⟨h.sorted, hadded, ?_⟩
    exact fun r hr t ht => h.base.before_added hr (hgrew.behind t ht)
  · intro e he hhanded
    simp only [hlog] at he
    rcases List.mem_append.mp he with he | he
    · exact h.handed e he hhanded
    · obtain ⟨r, -, rfl⟩ := List.mem_map.mp he
      cases hhanded
  · intro batch hbatch
    obtain ⟨front, hfront, hpublished⟩ := h.batch batch (hpublisher ▸ hbatch)
    exact ⟨front, hfront.trans hextends, hpublished⟩

/-- The records in front of the checkpoint were published. -/
theorem Inv.published_of_covers (h : Inv codec s) {r : Record} (hr : r ∈ s.base.records)
    (hcovers : s.base.checkpoint.Covers r) : r ∈ s.published := by
  obtain ⟨e, he, rfl⟩ := mem_records.mp hr
  exact h.handed e he (h.base.handed e he hcovers)

/-- What is read is the log behind the checkpoint. -/
theorem Inv.read_eq (h : Inv codec s) :
    s.base.outbox.readFromCheckpointAsync codec s.base.checkpoint =
      s.base.records.filter (¬s.base.checkpoint.Covers ·) := by
  refine (h.base.stored.readFromCheckpointAsync_sorted h.base.boundary).eq_of_mem_iff
    (h.sorted.filter _) fun r => ?_
  rw [h.base.stored.mem_readFromCheckpointAsync h.base.boundary, List.mem_filter,
    decide_eq_true_eq]
  refine and_congr_right fun hr => and_iff_left_of_imp fun hcovers => ?_
  obtain ⟨e, he, rfl⟩ := mem_records.mp hr
  rcases h.base.kept e he with hseg | ⟨i, hi, hlt⟩
  · exact hseg
  · exact absurd ⟨i, hi, Or.inl hlt⟩ hcovers

theorem covers_of_before {cp : Checkpoint} {r t : Record} (h : Before r t) (ht : cp.Covers t) :
    cp.Covers r := by
  obtain ⟨i, hi, hcovers⟩ := ht
  refine ⟨i, hi, ?_⟩
  simp only [Before] at h
  omega

/-- The log is what the checkpoint covers, followed by what is read. -/
theorem Inv.records_eq (h : Inv codec s) :
    s.base.records = s.base.records.filter (s.base.checkpoint.Covers ·) ++
      s.base.outbox.readFromCheckpointAsync codec s.base.checkpoint := by
  rw [h.read_eq]
  exact (filter_append_filter h.sorted _ fun r t => covers_of_before).symm

theorem Inv.read (h : Inv codec s) {count : Nat} {base : Outbox.State}
    (hbase : Outbox.Inv codec base)
    (hstep : Outbox.step codec segmentMaxBytes s.base (.read count) = some base) :
    Inv codec ⟨base, s.published⟩ := by
  simp only [Outbox.step] at hstep
  split at hstep
  · cases hstep
    refine ⟨hbase, h.sorted, h.handed, h.front, ?_⟩
    intro batch hbatch
    simp only at hbatch
    split at hbatch
    · cases hbatch
    · cases hbatch
      refine ⟨s.base.records.filter (s.base.checkpoint.Covers ·), ?_, ?_⟩
      · have hpart := (List.prefix_append_right_inj
          (s.base.records.filter (s.base.checkpoint.Covers ·))).mpr (List.take_prefix count
            (s.base.outbox.readFromCheckpointAsync codec s.base.checkpoint))
        rw [← h.records_eq] at hpart
        exact hpart
      · intro r hr
        obtain ⟨hr, hcovers⟩ := List.mem_filter.mp hr
        exact h.published_of_covers hr (of_decide_eq_true hcovers)
  · cases hstep

theorem Inv.publish (h : Inv codec s) {base : Outbox.State} (hbase : Outbox.Inv codec base)
    (hstep : Outbox.step codec segmentMaxBytes s.base .publish = some base) :
    Inv codec ⟨base, s.published ++ publishedBy s.base.publisher .publish⟩ := by
  simp only [Outbox.step] at hstep
  split at hstep
  · rename_i batch hcollected
    cases hstep
    simp only [publishedBy, hcollected]
    refine ⟨hbase, ?_, ?_, ?_, ?_⟩
    · simp only [Outbox.State.records]
      rw [records_handOver]
      exact h.sorted
    · intro e he hhanded
      obtain ⟨e', he', rfl⟩ := List.mem_map.mp he
      rw [handOver_record]
      unfold handOver at hhanded
      split at hhanded
      · rename_i hmem
        exact List.mem_append_right _ hmem
      · exact List.mem_append_left _ (h.handed e' he' hhanded)
    · obtain ⟨front, hfront, hpublished⟩ := h.batch batch hcollected
      simp only [Outbox.State.records]
      rw [records_handOver]
      exact eraseDups_append_isPrefix h.nodup h.front hfront hpublished
    · intro batch' hbatch'
      cases hbatch'
  · cases hstep

theorem Inv.crash (h : Inv codec s) {cut : Nat} {base : Outbox.State}
    (hbase : Outbox.Inv codec base)
    (hkept : ∀ r ∈ s.published, survivors s.base.outbox cut r = true)
    (hstep : Outbox.step codec segmentMaxBytes s.base (.crash cut) = some base) :
    Inv codec ⟨base, s.published⟩ := by
  simp only [Outbox.step, Option.map_eq_some_iff] at hstep
  obtain ⟨o, -, rfl⟩ := hstep
  refine ⟨hbase, ?_, fun e he => h.handed e (List.mem_filter.mp he).1, ?_, ?_⟩
  · simp only [Outbox.State.records]
    rw [records_survivors]
    exact h.sorted.filter _
  · have hfront := h.front.filter (survivors s.base.outbox cut)
    rw [List.filter_eq_self.mpr fun r hr => hkept r (List.mem_eraseDups.mp hr)] at hfront
    simp only [Outbox.State.records]
    rwa [records_survivors]
  · intro batch hbatch
    cases hbatch

theorem Inv.step {op : Op} (h : Inv codec s) (hl : ∀ e ∈ op.events, codec.Lossless e)
    (hok : StepOk codec segmentMaxBytes s op)
    (hstep : step codec segmentMaxBytes s op = some s') : Inv codec s' := by
  cases op with
  | fail =>
    simp only [Delivery.step] at hstep
    split at hstep
    · cases hstep
      exact h
    · cases hstep
  | cancel =>
    cases hstep
    refine ⟨⟨h.base.stored, h.base.boundary, h.base.kept, h.base.handed, trivial⟩, h.sorted,
      h.handed, h.front, ?_⟩
    intro batch hbatch
    cases hbatch
  | outbox op =>
    simp only [Delivery.step, Option.map_eq_some_iff] at hstep
    obtain ⟨base, hbase, rfl⟩ := hstep
    have hinv := h.base.step hl hok.1 hbase
    cases op with
    | append events flushToDisk fault =>
      simp only [publishedBy, List.append_nil]
      cases hbase
      exact h.grow hinv rfl rfl (grew_appendAsync _ events flushToDisk fault)
        (sorted_appendLoop _ events fault)
    | rotate =>
      simp only [publishedBy, List.append_nil]
      cases hbase
      exact h.grow hinv (by simp) rfl (grew_rotateAsync _) List.Pairwise.nil
    | flush flushToDisk =>
      simp only [publishedBy, List.append_nil]
      cases hbase
      exact h.grow hinv (by simp) rfl (grew_flushCore _ flushToDisk) List.Pairwise.nil
    | read count =>
      simp only [publishedBy, List.append_nil]
      exact h.read hinv hbase
    | publish => exact h.publish hinv hbase
    | advance limit =>
      simp only [publishedBy, List.append_nil]
      simp only [Outbox.step] at hbase
      split at hbase
      · obtain ⟨last, -, rfl⟩ := Option.map_eq_some_iff.mp hbase
        refine ⟨hinv, h.sorted, h.handed, h.front, ?_⟩
        intro batch hbatch
        cases hbatch
      · cases hbase
    | crash cut =>
      simp only [publishedBy, List.append_nil]
      exact h.crash hinv hok.2 hbase

theorem Precedes.refl (cp : Checkpoint) : Precedes cp cp :=
  fun i hi => ⟨i, hi, Or.inr ⟨rfl, le_rfl⟩⟩

theorem Precedes.trans {cp cp' cp'' : Checkpoint} (h : Precedes cp cp') (h' : Precedes cp' cp'') :
    Precedes cp cp'' := by
  intro i hi
  obtain ⟨j, hj, hij⟩ := h i hi
  obtain ⟨k, hk, hjk⟩ := h' j hj
  exact ⟨k, hk, by omega⟩

/-- The checkpoint moves forward. -/
theorem Inv.precedes {op : Op} (h : Inv codec s)
    (hstep : Delivery.step codec segmentMaxBytes s op = some s') :
    Precedes s.base.checkpoint s'.base.checkpoint := by
  cases op with
  | fail =>
    simp only [Delivery.step] at hstep
    split at hstep
    · cases hstep
      exact Precedes.refl _
    · cases hstep
  | cancel =>
    cases hstep
    exact Precedes.refl _
  | outbox op =>
    simp only [Delivery.step, Option.map_eq_some_iff] at hstep
    obtain ⟨base, hbase, rfl⟩ := hstep
    cases op with
    | append events flushToDisk fault =>
      cases hbase
      exact Precedes.refl _
    | rotate =>
      cases hbase
      exact Precedes.refl _
    | flush flushToDisk =>
      cases hbase
      exact Precedes.refl _
    | read count =>
      simp only [Outbox.step] at hbase
      split at hbase <;> cases hbase
      exact Precedes.refl _
    | publish =>
      simp only [Outbox.step] at hbase
      split at hbase <;> cases hbase
      exact Precedes.refl _
    | crash cut =>
      obtain ⟨o, -, rfl⟩ := Option.map_eq_some_iff.mp hbase
      exact Precedes.refl _
    | advance limit =>
      simp only [Outbox.step] at hbase
      split at hbase
      · rename_i batch hpublished
        obtain ⟨last, hlast, rfl⟩ := Option.map_eq_some_iff.mp hbase
        have hflight := h.base.publisher
        rw [hpublished] at hflight
        obtain ⟨last', hlast', hmem, hcovers, ⟨seg, hseg, hindex⟩, -⟩ := hflight
        obtain rfl : last' = last := Option.some.inj (hlast'.symm.trans hlast)
        obtain ⟨q, tail, hchained, -⟩ := h.base.stored.holds seg hseg
        rw [hindex] at hchained
        have hbounds := hchained.bounds (mem_onSegment.mpr ⟨hmem, rfl⟩)
        intro i hi
        refine ⟨last'.segment, rfl, ?_⟩
        by_contra hback
        exact hcovers ⟨i, hi, by simp only at hback; omega⟩
      · cases hbase

end Steps

section Runs

/-- A restart of the process, which keeps all that was written, meets the condition. -/
theorem Inv.stepOk_restart (h : Inv codec s) :
    StepOk codec segmentMaxBytes s (.outbox (.crash s.base.outbox.current.bytes.length)) := by
  have hholds := h.base.stored.current_holds
  constructor
  · intro hname
    obtain ⟨-, front, rest, hsplit, hoffset⟩ := h.base.boundary _ hname
    have hlength := hholds.length_le
    rw [hsplit, encodeAll_append, List.length_append] at hlength
    omega
  · intro r hr
    have hrecord : r ∈ s.base.records := h.front.subset (List.mem_eraseDups.mpr hr)
    by_cases hsegment : r.segment = s.base.outbox.current.index
    · have hnext := hholds.nextOffset_le (mem_onSegment.mpr ⟨hrecord, hsegment⟩)
      simp [survivors, hnext]
    · simp [survivors, hsegment]

/-- **The publisher delivers the log.** The checkpoint covers published records only and moves
forward, and the first occurrences of the published records are the front of the log in the
order of its appends: all of it when nothing is left to read. -/
theorem publisher_delivers_log {ops : List Op}
    (hl : ∀ op ∈ ops, ∀ e ∈ op.events, codec.Lossless e)
    (hok : Meets (step codec segmentMaxBytes) (StepOk codec segmentMaxBytes) State.initial ops)
    (hrun : run (step codec segmentMaxBytes) State.initial ops = some s) :
    (∀ r ∈ s.base.records, s.base.checkpoint.Covers r → r ∈ s.published) ∧
    (∀ more s', (∀ op ∈ more, ∀ e ∈ op.events, codec.Lossless e) →
      Meets (step codec segmentMaxBytes) (StepOk codec segmentMaxBytes) s more →
      run (step codec segmentMaxBytes) s more = some s' →
      Precedes s.base.checkpoint s'.base.checkpoint) ∧
    s.published.eraseDups <+: s.base.records ∧
    (s.base.outbox.readFromCheckpointAsync codec s.base.checkpoint = [] →
      s.published.eraseDups = s.base.records) := by
  have hstep : ∀ s op s', Inv codec s →
      ((∀ e ∈ op.events, codec.Lossless e) ∧ StepOk codec segmentMaxBytes s op) →
      step codec segmentMaxBytes s op = some s' → Inv codec s' :=
    fun s op s' h hop hs => h.step hop.1 hop.2 hs
  have hinv : Inv codec s :=
    run_invariant (Inv codec) hstep inv_initial (hok.and_forall hl) hrun
  refine ⟨fun r hr => hinv.published_of_covers hr, ?_, hinv.front, ?_⟩
  · intro more s' hlmore hmore hrunmore
    have hmoved : Inv codec s' ∧ Precedes s.base.checkpoint s'.base.checkpoint :=
      run_invariant (fun t => Inv codec t ∧ Precedes s.base.checkpoint t.base.checkpoint)
        (fun t op t' ht hop ht' => ⟨hstep t op t' ht.1 hop ht', ht.2.trans (ht.1.precedes ht')⟩)
        ⟨hinv, Precedes.refl _⟩ (hmore.and_forall hlmore) hrunmore
    exact hmoved.2
  · intro hread
    refine eq_of_prefix_of_subset hinv.nodup hinv.front fun r hr => ?_
    have hcovered := hinv.records_eq
    rw [hread, List.append_nil] at hcovered
    rw [hcovered] at hr
    obtain ⟨hr, hcovers⟩ := List.mem_filter.mp hr
    exact List.mem_eraseDups.mpr (hinv.published_of_covers hr (of_decide_eq_true hcovers))

/-- An event is published, published again after a cancelled advance and a restart, and then
another one is appended and published. -/
def republishRun : List Op :=
  [.outbox (.append [bareEvent "a"] true none), .outbox (.read 1), .fail, .outbox .publish,
    .cancel, .outbox (.crash 423), .outbox (.read 1), .outbox .publish, .outbox (.advance 8),
    .outbox (.append [bareEvent "b"] true none), .outbox (.read 1), .outbox .publish]

/-- The first event is published twice, and before the second one. -/
theorem publisher_republishes : ∃ s,
    run (step bareCodec 4096) State.initial republishRun = some s ∧
      s.published.map (fun r => r.event) = [bareEvent "a", bareEvent "a", bareEvent "b"] ∧
      s.published.eraseDups <+: s.base.records := by
  have hl : ∀ op ∈ republishRun, ∀ e ∈ op.events, bareCodec.Lossless e := by
    decide +kernel
  have hok : Meets (step bareCodec 4096) (StepOk bareCodec 4096) State.initial republishRun := by
    decide +kernel
  have hrun : ((run (step bareCodec 4096) State.initial republishRun).map
      fun s => s.published.map fun r => r.event) =
        some [bareEvent "a", bareEvent "a", bareEvent "b"] := by
    decide +kernel
  obtain ⟨s, hs, hpublished⟩ := Option.map_eq_some_iff.mp hrun
  exact ⟨s, hs, hpublished, (publisher_delivers_log hl hok hs).2.2.1⟩

end Runs

end HashStorm.Outbox.Delivery
