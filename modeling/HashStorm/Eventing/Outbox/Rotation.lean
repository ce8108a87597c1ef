import HashStorm.Eventing.Outbox.Publisher
import Mathlib.Data.String.Basic

/-!
# Rotation and deletion of segments

Whatever interrupts the appends and wherever a crash cuts, the names of the
segments order them as they were created, a record of an earlier segment was
appended before every record of a later one, only a record on its own makes a
segment longer than `SegmentMaxBytes`, and a segment is deleted only when the
checkpoint lies behind all its records.
-/

namespace HashStorm.Outbox

open Contracts Scan Machine

section Names

/-- The decimal digits of a number, with leading zeros up to a width. -/
def fixedDigits : Nat → Nat → List Char
  | 0, _ => []
  | width + 1, i => fixedDigits width (i / 10) ++ [Nat.digitChar (i % 10)]

/-- `SegmentName`. -/
def segmentName (index : Nat) : String := String.ofList (fixedDigits 20 index ++ ".wal".toList)

theorem length_fixedDigits (width i : Nat) : (fixedDigits width i).length = width := by
  induction width generalizing i with
  | zero => rfl
  | succ width ih => rw [fixedDigits, List.length_append, ih, List.length_singleton]

/-- A difference in front decides between texts of the same length. -/
theorem append_lt_append {xs ys : List Char} (h : xs < ys) (hlength : xs.length = ys.length)
    (xs' ys' : List Char) : xs ++ xs' < ys ++ ys' := by
  induction xs generalizing ys with
  | nil =>
    cases ys with
    | nil => exact absurd h (lt_irrefl _)
    | cons b ys => simp at hlength
  | cons a xs ih =>
    cases ys with
    | nil => simp at hlength
    | cons b ys =>
      rw [List.cons_lt_cons_iff] at h
      rw [List.cons_append, List.cons_append, List.cons_lt_cons_iff]
      rcases h with h | ⟨rfl, h⟩
      · exact Or.inl h
      · exact Or.inr ⟨rfl, ih h (by simpa using hlength)⟩

theorem digitChar_lt {m n : Nat} (h : m < n) (hn : n < 10) : Nat.digitChar m < Nat.digitChar n := by
  have hall : ∀ n : Fin 10, ∀ m : Fin n.val, Nat.digitChar m.val < Nat.digitChar n.val := by decide
  exact hall ⟨n, hn⟩ ⟨m, h⟩

theorem fixedDigits_lt {width i j : Nat} (h : i < j) (hj : j < 10 ^ width) :
    fixedDigits width i < fixedDigits width j := by
  induction width generalizing i j with
  | zero => omega
  | succ width ih =>
    rw [fixedDigits, fixedDigits]
    by_cases hfront : i / 10 < j / 10
    · refine append_lt_append (ih hfront ?_) ?_ _ _
      · rw [pow_succ] at hj
        omega
      · rw [length_fixedDigits, length_fixedDigits]
    · have heq : i / 10 = j / 10 := by omega
      rw [heq]
      refine List.append_left_lt ?_
      rw [List.cons_lt_cons_iff]
      exact Or.inl (digitChar_lt (by omega) (by omega))

theorem ofList_fixedDigits_lt {width i j : Nat} (h : i < j) (hj : j < 10 ^ width)
    (extension : List Char) :
    String.ofList (fixedDigits width i ++ extension) <
      String.ofList (fixedDigits width j ++ extension) := by
  rw [String.lt_iff_toList_lt, String.toList_ofList, String.toList_ofList]
  refine append_lt_append (fixedDigits_lt h hj) ?_ _ _
  rw [length_fixedDigits, length_fixedDigits]

/-- The ordinal order of the names is the order of the indices. -/
theorem segmentName_lt {i j : Nat} (h : i < j) (hj : j < 10 ^ 20) :
    segmentName i < segmentName j := by
  rw [segmentName, segmentName]
  exact ofList_fixedDigits_lt h hj _

end Names

section Directory

variable (codec : EventCodec) (segmentMaxBytes : Nat)

/-- The segment is not too long, or it holds one record, or what was written of one. -/
def Bounded (seg : Segment) : Prop :=
  seg.bytes.length ≤ segmentMaxBytes ∨ (∃ e, codec.Fits e ∧ seg.bytes = recordBytes codec e) ∨
    Torn codec seg.bytes

/-- The directory and the records in the order of their appends. -/
structure Laid (o : FileOutbox) (records : List Record) : Prop where
  sorted : o.segments.Pairwise fun a b => a.index < b.index
  le_current : ∀ r ∈ records, r.segment ≤ o.current.index
  ordered : records.Pairwise fun r t => r.segment ≤ t.segment
  bounded : ∀ seg ∈ o.segments, Bounded codec segmentMaxBytes seg

variable {codec segmentMaxBytes} {o : FileOutbox} {records : List Record}

/-- What is cut off leaves a segment within its bounds. -/
theorem Bounded.take {index : Nat} {bytes : List UInt8}
    (h : Bounded codec segmentMaxBytes ⟨index, bytes⟩) (n : Nat) :
    Bounded codec segmentMaxBytes ⟨index, bytes.take n⟩ := by
  rcases h with h | ⟨e, hf, h⟩ | h
  · refine Or.inl ?_
    simp only [List.length_take] at h ⊢
    omega
  · by_cases hn : bytes.length ≤ n
    · rw [List.take_of_length_le hn]
      exact Or.inr (Or.inl ⟨e, hf, h⟩)
    · refine Or.inr (Or.inr ⟨e, hf, ?_, ?_⟩)
      · simp only at h ⊢
        rw [h]
        exact List.take_prefix _ _
      · simp only at h ⊢
        rw [← length_recordBytes, ← h, List.length_take]
        omega
  · exact Or.inr (Or.inr (h.take codec n))

theorem Laid.rotateAsync (h : Laid codec segmentMaxBytes o records) :
    Laid codec segmentMaxBytes o.rotateAsync records := by
  have hlt : ∀ seg ∈ o.segments, seg.index < o.current.index + 1 := by
    intro seg hseg
    rcases List.mem_append.mp hseg with hclosed | hcurrent
    · have := (List.pairwise_append.mp h.sorted).2.2 seg hclosed _ (List.mem_singleton_self _)
      omega
    · rw [List.mem_singleton.mp hcurrent]
      exact Nat.lt_succ_self _
  refine ⟨?_, fun r hr => (h.le_current r hr).trans (Nat.le_succ _), h.ordered, ?_⟩
  · refine List.pairwise_append.mpr ⟨h.sorted, List.pairwise_singleton _ _, ?_⟩
    intro seg hseg t ht
    rw [List.mem_singleton.mp ht]
    exact hlt seg hseg
  · intro seg hseg
    rcases List.mem_append.mp hseg with hold | hnew
    · exact h.bounded seg hold
    · rw [List.mem_singleton.mp hnew]
      exact Or.inl (Nat.zero_le _)

theorem Laid.flushCore (h : Laid codec segmentMaxBytes o records) (flushToDisk : Bool) :
    Laid codec segmentMaxBytes (o.flushCore flushToDisk) records := by
  unfold FileOutbox.flushCore
  split
  · exact ⟨h.sorted, h.le_current, h.ordered, h.bounded⟩
  · exact h

/-- The open segment is written to, within its bounds. -/
theorem Laid.write (h : Laid codec segmentMaxBytes o records) {bytes : List UInt8}
    (hbounded : Bounded codec segmentMaxBytes (o.write bytes).current) :
    Laid codec segmentMaxBytes (o.write bytes) records := by
  refine ⟨?_, h.le_current, h.ordered, ?_⟩
  · obtain ⟨hclosed, -, hlt⟩ := List.pairwise_append.mp h.sorted
    refine List.pairwise_append.mpr ⟨hclosed, List.pairwise_singleton _ _, ?_⟩
    intro seg hseg t ht
    rw [List.mem_singleton.mp ht]
    exact hlt seg hseg o.current (List.mem_singleton_self _)
  · intro seg hseg
    rcases List.mem_append.mp hseg with hclosed | hcurrent
    · exact h.bounded seg (List.mem_append_left _ hclosed)
    · rwa [List.mem_singleton.mp hcurrent]

theorem Laid.makeRoom (h : Laid codec segmentMaxBytes o records) (e : ShareEvent) :
    Laid codec segmentMaxBytes (o.makeRoom codec segmentMaxBytes e) records := by
  unfold FileOutbox.makeRoom
  split
  · exact h.rotateAsync
  · exact h

/-- A segment that is not empty takes a record only when it stays short enough. -/
theorem makeRoom_fits (o : FileOutbox) (e : ShareEvent) :
    (o.makeRoom codec segmentMaxBytes e).current.bytes = [] ∨
      (o.makeRoom codec segmentMaxBytes e).current.bytes.length + recordLength codec e ≤
        segmentMaxBytes := by
  unfold FileOutbox.makeRoom
  split
  · exact Or.inl rfl
  · rename_i hno
    rw [FileOutbox.MustRotate, not_and, Nat.pos_iff_ne_zero, ne_eq, List.length_eq_zero_iff] at hno
    by_cases hempty : o.current.bytes = []
    · exact Or.inl hempty
    · exact Or.inr (Nat.not_lt.mp (hno hempty))

/-- Room was made for a record, and a part of it or all of it is written. -/
theorem Laid.writePart (h : Laid codec segmentMaxBytes o records) {e : ShareEvent}
    (hf : codec.Fits e) {part : List UInt8} (hpart : part <+: recordBytes codec e) :
    Laid codec segmentMaxBytes ((o.makeRoom codec segmentMaxBytes e).write part) records := by
  have hlength : part.length ≤ recordLength codec e := by
    rw [← length_recordBytes]
    exact hpart.length_le
  refine (h.makeRoom e).write ?_
  rcases @makeRoom_fits codec segmentMaxBytes o e with hempty | hfits
  · have hbytes : ((o.makeRoom codec segmentMaxBytes e).write part).current.bytes = part := by
      simp [FileOutbox.write, hempty]
    rw [Bounded, hbytes]
    rcases hlength.lt_or_eq with hlt | heq
    · exact Or.inr (Or.inr ⟨e, hf, hpart, hlt⟩)
    · refine Or.inr (Or.inl ⟨e, hf, hpart.eq_of_length ?_⟩)
      rw [heq, length_recordBytes]
  · refine Or.inl ?_
    simp only [FileOutbox.write, List.length_append]
    omega

theorem Laid.interrupt (h : Laid codec segmentMaxBytes o records) {e : ShareEvent}
    (hf : codec.Fits e) (point : AppendPoint) :
    Laid codec segmentMaxBytes (o.interrupt codec segmentMaxBytes e point) records := by
  have hpart : point.written codec e <+: recordBytes codec e := point.written_isPrefix e
  cases point with
  | check => exact h
  | header => exact h.writePart hf hpart
  | payload => exact h.writePart hf hpart
  | checksum => exact h.writePart hf hpart

theorem Laid.appendLoop {events : List ShareEvent} (h : Laid codec segmentMaxBytes o records)
    (fault : Option (Nat × AppendPoint)) :
    Laid codec segmentMaxBytes (o.appendLoop codec segmentMaxBytes events fault).outbox
      (records ++ (o.appendLoop codec segmentMaxBytes events fault).placed) := by
  induction events generalizing o records fault with
  | nil => simpa [FileOutbox.appendLoop] using h
  | cons e es ih =>
    unfold FileOutbox.appendLoop
    split
    · simpa using h
    · rename_i hgood
      have hf : codec.Fits e := by
        by_contra hf
        exact hgood (Or.inr hf)
      split
      · rename_i point _
        simpa using h.interrupt hf point
      · have hwritten := h.writePart hf (List.prefix_refl (recordBytes codec e))
        have hplaced : Laid codec segmentMaxBytes
            ((o.makeRoom codec segmentMaxBytes e).write (recordBytes codec e))
            (records ++ [(o.makeRoom codec segmentMaxBytes e).slot codec e]) := by
          refine ⟨hwritten.sorted, ?_, ?_, hwritten.bounded⟩
          · intro r hr
            rcases List.mem_append.mp hr with hr | hr
            · exact hwritten.le_current r hr
            · rw [List.mem_singleton.mp hr]
              exact le_rfl
          · refine List.pairwise_append.mpr ⟨h.ordered, List.pairwise_singleton _ _, ?_⟩
            intro r hr t ht
            rw [List.mem_singleton.mp ht]
            exact hwritten.le_current r hr
        have hrest := ih hplaced (fault.map fun f => (f.1 - 1, f.2))
        rwa [List.append_assoc] at hrest

theorem Laid.appendAsync (h : Laid codec segmentMaxBytes o records) (events : List ShareEvent)
    (flushToDisk : Bool) (fault : Option (Nat × AppendPoint)) :
    Laid codec segmentMaxBytes
      (o.appendAsync codec segmentMaxBytes events flushToDisk fault).outbox
      (records ++ (o.appendAsync codec segmentMaxBytes events flushToDisk fault).placed) :=
  (h.appendLoop fault).flushCore _

/-- Recovery keeps the names of the segments and only cuts something off. -/
theorem recover_cuts {directory directory' : List Segment}
    (h : recover codec directory = some directory') :
    directory'.map Segment.index = directory.map Segment.index ∧
      ∀ seg ∈ directory', ∃ old ∈ directory, ∃ n, seg = ⟨old.index, old.bytes.take n⟩ := by
  induction directory generalizing directory' with
  | nil =>
    cases h
    exact ⟨rfl, by simp⟩
  | cons s rest ih =>
    have hself : ∀ t : Segment, ∃ n, t = ⟨t.index, t.bytes.take n⟩ :=
      fun t => ⟨t.bytes.length, by rw [List.take_length]⟩
    simp only [recover] at h
    split at h
    · cases h
    · split at h
      · obtain ⟨rest', hrest, rfl⟩ := Option.map_eq_some_iff.mp h
        obtain ⟨hindex, hcuts⟩ := ih hrest
        refine ⟨by rw [List.map_cons, List.map_cons, hindex], ?_⟩
        intro seg hseg
        rcases List.mem_cons.mp hseg with rfl | hseg
        · exact ⟨seg, List.mem_cons_self, hself seg⟩
        · obtain ⟨old, hold, hcut⟩ := hcuts seg hseg
          exact ⟨old, List.mem_cons_of_mem _ hold, hcut⟩
      · rename_i result _ _
        cases h
        refine ⟨rfl, ?_⟩
        intro seg hseg
        rcases List.mem_cons.mp hseg with rfl | hseg
        · exact ⟨s, List.mem_cons_self, result.validLength, rfl⟩
        · exact ⟨seg, List.mem_cons_of_mem _ hseg, hself seg⟩

/-- The last segment of a directory that is not empty is opened. -/
theorem segments_openLastSegment {directory : List Segment} (h : directory ≠ []) (synced : Nat) :
    (FileOutbox.openLastSegment directory synced).segments = directory := by
  rw [FileOutbox.openLastSegment, List.getLast?_eq_some_getLast h]
  exact List.dropLast_concat_getLast h

/-- A crash with its restart keeps the names of the segments and only cuts something off. -/
theorem crash_cuts {o' : FileOutbox} {cut : Nat} (h : o.crash codec cut = some o') :
    o'.segments.map Segment.index = o.segments.map Segment.index ∧
      ∀ seg ∈ o'.segments, ∃ old ∈ o.segments, ∃ n, seg = ⟨old.index, old.bytes.take n⟩ := by
  unfold FileOutbox.crash at h
  split at h
  · cases h
  · rw [FileOutbox.reopen, Option.map_eq_some_iff] at h
    obtain ⟨directory, hrecover, rfl⟩ := h
    obtain ⟨hindex, hcuts⟩ := recover_cuts hrecover
    have hne : directory ≠ [] := by
      rintro rfl
      simp [FileOutbox.segments] at hindex
    rw [segments_openLastSegment hne]
    refine ⟨by rw [hindex]; simp [FileOutbox.segments], ?_⟩
    intro seg hseg
    obtain ⟨old, hold, n, rfl⟩ := hcuts seg hseg
    rcases List.mem_append.mp hold with hclosed | hcurrent
    · exact ⟨old, List.mem_append_left _ hclosed, n, rfl⟩
    · rw [List.mem_singleton.mp hcurrent]
      refine ⟨o.current, List.mem_append_right _ (List.mem_singleton_self _), min n cut, ?_⟩
      rw [List.take_take]

theorem index_current_of_map_eq {o' : FileOutbox}
    (h : o'.segments.map Segment.index = o.segments.map Segment.index) :
    o'.current.index = o.current.index := by
  have hlast := congrArg List.getLast? h
  simpa [FileOutbox.segments] using hlast

theorem Laid.crash (h : Laid codec segmentMaxBytes o records) {o' : FileOutbox} {cut : Nat}
    (hcrash : o.crash codec cut = some o') (kept : Record → Bool) :
    Laid codec segmentMaxBytes o' (records.filter kept) := by
  obtain ⟨hindex, hcuts⟩ := crash_cuts hcrash
  refine ⟨?_, ?_, h.ordered.filter _, ?_⟩
  · have hsorted := h.sorted
    rw [← List.pairwise_map (f := Segment.index) (R := (· < ·))] at hsorted ⊢
    rwa [hindex]
  · intro r hr
    rw [index_current_of_map_eq hindex]
    exact h.le_current r (List.mem_filter.mp hr).1
  · intro seg hseg
    obtain ⟨old, hold, n, rfl⟩ := hcuts seg hseg
    exact (h.bounded old hold).take n

/-- Records are read from segments that exist. -/
theorem exists_segment_of_mem_read {cp : Checkpoint} {r : Record}
    (hr : r ∈ o.readFromCheckpointAsync codec cp) : ∃ seg ∈ o.segments, seg.index = r.segment := by
  have hsnapshot : ∀ directory : List Segment, r ∈ readSnapshot codec cp directory →
      ∃ seg ∈ directory, seg.index = r.segment := by
    intro directory h
    induction directory with
    | nil => cases h
    | cons s rest ih =>
      have hitems : r ∈ (readSegmentRecords codec s.bytes s.index (cp.startOffset s)
          s.bytes.length).items → ∃ seg ∈ s :: rest, seg.index = r.segment := by
        intro hmem
        obtain ⟨q, next, -, hread⟩ :=
          exists_attempt_of_mem_scan (tryReadRecord_advances codec _ _ _) hmem
        exact ⟨s, List.mem_cons_self, (tryReadRecord_item codec hread).1.symm⟩
      simp only [readSnapshot] at h
      split at h
      · exact hitems h
      · rcases List.mem_append.mp h with h | h
        · exact hitems h
        · obtain ⟨seg, hseg, hindex⟩ := ih h
          exact ⟨seg, List.mem_cons_of_mem _ hseg, hindex⟩
  obtain ⟨seg, hseg, hindex⟩ := hsnapshot _ hr
  exact ⟨seg, (List.mem_filter.mp hseg).1, hindex⟩

end Directory

section Runs

/-- The records the publisher has in hand. -/
def Publisher.batch : Publisher → List Record
  | .idle => []
  | .collected batch | .published batch => batch

variable (codec : EventCodec) (segmentMaxBytes : Nat)

/-- The invariant of all runs. -/
structure RotationInv (s : State) : Prop where
  laid : Laid codec segmentMaxBytes s.outbox s.records
  batch : ∀ r ∈ s.publisher.batch, ∃ seg ∈ s.outbox.segments, seg.index = r.segment

variable {codec segmentMaxBytes} {s s' : State}

theorem rotationInv_initial : RotationInv codec segmentMaxBytes State.initial := by
  refine ⟨⟨List.pairwise_singleton _ _, by simp [State.records, State.initial],
    List.Pairwise.nil, ?_⟩, by simp [State.initial, Publisher.batch]⟩
  intro seg hseg
  rw [List.mem_singleton.mp hseg]
  exact Or.inl (Nat.zero_le _)

/-- The outbox grows. -/
theorem RotationInv.grow (h : RotationInv codec segmentMaxBytes s) {o : FileOutbox}
    {added : List Record} (hlaid : Laid codec segmentMaxBytes o (s.records ++ added))
    (hgrew : Grew s.outbox o added) :
    RotationInv codec segmentMaxBytes
      { s with outbox := o, log := s.log ++ added.map LogEntry.fresh } := by
  constructor
  · rwa [State.records, records_append_fresh]
  · intro r hr
    obtain ⟨seg, hseg, hindex⟩ := h.batch r hr
    obtain ⟨seg', hseg', hindex'⟩ := hgrew.keeps seg hseg
    exact ⟨seg', hseg', hindex'.trans hindex⟩

/-- The checkpoint advances: closed segments in front of the published one disappear. -/
theorem RotationInv.advance (h : RotationInv codec segmentMaxBytes s) {limit : Nat}
    (hstep : step codec segmentMaxBytes s (.advance limit) = some s') :
    ∃ last dropped, s'.checkpoint.segmentName = some last ∧
      s.outbox.segments = dropped ++ s'.outbox.segments ∧
      s'.outbox.current = s.outbox.current ∧ s'.log = s.log ∧ s'.publisher = .idle ∧
      ∀ seg ∈ dropped, seg.index < last := by
  simp only [step] at hstep
  split at hstep
  · rename_i batch hpublished
    rw [Option.map_eq_some_iff] at hstep
    obtain ⟨last, hlast, rfl⟩ := hstep
    obtain ⟨dropped, hsplit, hne⟩ :=
      deletePublishedSegments_eq last.segment limit s.outbox.closed
    have hsegments : s.outbox.segments = dropped ++
        (deletePublishedSegments last.segment limit s.outbox.closed ++ [s.outbox.current]) := by
      rw [← List.append_assoc, ← hsplit, FileOutbox.segments]
    have hmem : last ∈ s.publisher.batch := by
      rw [hpublished]
      exact List.mem_of_getLast? hlast
    obtain ⟨seg, hseg, hindex⟩ := h.batch last hmem
    have hsorted := h.laid.sorted
    rw [hsegments] at hseg hsorted
    refine ⟨last.segment, dropped, rfl, hsegments, rfl, rfl, rfl, ?_⟩
    intro t ht
    rcases List.mem_append.mp hseg with hdropped | hkept
    · exact absurd hindex (hne seg hdropped)
    · rw [← hindex]
      exact (List.pairwise_append.mp hsorted).2.2 t ht seg hkept
  · cases hstep

theorem RotationInv.step {op : Op} (h : RotationInv codec segmentMaxBytes s)
    (hstep : step codec segmentMaxBytes s op = some s') :
    RotationInv codec segmentMaxBytes s' := by
  cases op with
  | append events flushToDisk fault =>
    cases hstep
    exact h.grow (h.laid.appendAsync events flushToDisk fault)
      (grew_appendAsync _ events flushToDisk fault)
  | rotate =>
    cases hstep
    simpa using h.grow (by simpa using h.laid.rotateAsync) (grew_rotateAsync _)
  | flush flushToDisk =>
    cases hstep
    simpa using h.grow (by simpa using h.laid.flushCore flushToDisk) (grew_flushCore _ _)
  | read count =>
    simp only [Outbox.step] at hstep
    split at hstep
    · cases hstep
      refine ⟨h.laid, ?_⟩
      intro r hr
      simp only at hr
      split at hr
      · cases hr
      · exact exists_segment_of_mem_read (List.mem_of_mem_take hr)
    · cases hstep
  | publish =>
    simp only [Outbox.step] at hstep
    split at hstep
    · rename_i batch hcollected
      cases hstep
      refine ⟨?_, fun r hr => h.batch r (by rwa [hcollected])⟩
      rw [State.records, records_handOver]
      exact h.laid
    · cases hstep
  | advance limit =>
    obtain ⟨last, dropped, -, hsegments, hcurrent, hlog, hidle, -⟩ := h.advance hstep
    have hlaid := h.laid
    refine ⟨⟨?_, ?_, ?_, ?_⟩, by simp [hidle, Publisher.batch]⟩
    · have hsorted := hlaid.sorted
      rw [hsegments] at hsorted
      exact (List.pairwise_append.mp hsorted).2.1
    · rw [hcurrent, State.records, hlog]
      exact hlaid.le_current
    · rw [State.records, hlog]
      exact hlaid.ordered
    · intro seg hseg
      refine hlaid.bounded seg ?_
      rw [hsegments]
      exact List.mem_append_right _ hseg
  | crash cut =>
    simp only [Outbox.step, Option.map_eq_some_iff] at hstep
    obtain ⟨o, hcrash, rfl⟩ := hstep
    refine ⟨?_, by simp [Publisher.batch]⟩
    rw [State.records, records_survivors]
    exact h.laid.crash hcrash _

/-- **Rotation and deletion keep the log in order and bounded**, in every run. The segments are
listed as they were created, and the records as they were appended; every outbox between two
records of an append is that of a run, so the next name is free whenever it is rotated. -/
theorem rotation_keeps_order (ops : List Op) (s : State)
    (hrun : run (step codec segmentMaxBytes) State.initial ops = some s)
    (hindex : s.outbox.current.index < 2 ^ 63) :
    (s.outbox.segments.map fun seg => segmentName seg.index).Pairwise (· < ·) ∧
    s.records.Pairwise (fun r t => r.segment ≤ t.segment) ∧
    (∀ seg ∈ s.outbox.segments, segmentMaxBytes < seg.bytes.length →
      (∃ e, seg.bytes = recordBytes codec e) ∨ Torn codec seg.bytes) ∧
    (∀ seg ∈ s.outbox.segments,
      segmentName seg.index ≠ segmentName (s.outbox.current.index + 1)) ∧
    ∀ limit s', step codec segmentMaxBytes s (.advance limit) = some s' →
      ∀ seg ∈ s.outbox.segments, seg ∉ s'.outbox.segments →
        seg ≠ s.outbox.current ∧
          ∀ r ∈ s.records, r.segment = seg.index → s'.checkpoint.Covers r := by
  have hinv : RotationInv codec segmentMaxBytes s :=
    run_preserves (RotationInv codec segmentMaxBytes) (fun s op s' h => h.step)
      rotationInv_initial hrun
  have hle : ∀ seg ∈ s.outbox.segments, seg.index ≤ s.outbox.current.index := by
    intro seg hseg
    rcases List.mem_append.mp hseg with hclosed | hcurrent
    · exact ((List.pairwise_append.mp hinv.laid.sorted).2.2 seg hclosed _
        (List.mem_singleton_self _)).le
    · rw [List.mem_singleton.mp hcurrent]
  refine ⟨?_, hinv.laid.ordered, ?_, ?_, ?_⟩
  · rw [List.pairwise_map]
    refine hinv.laid.sorted.imp_of_mem ?_
    intro a b _ hb hlt
    exact segmentName_lt hlt (by have := hle b hb; omega)
  · intro seg hseg hlong
    rcases hinv.laid.bounded seg hseg with hshort | ⟨e, -, hbytes⟩ | htorn
    · omega
    · exact Or.inl ⟨e, hbytes⟩
    · exact Or.inr htorn
  · intro seg hseg
    have := hle seg hseg
    exact (segmentName_lt (by omega) (by omega)).ne
  · intro limit s' hstep seg hseg hgone
    obtain ⟨last, dropped, hname, hsegments, hcurrent, -, -, hlt⟩ := hinv.advance hstep
    have hdropped : seg ∈ dropped := by
      rw [hsegments] at hseg
      exact (List.mem_append.mp hseg).resolve_right hgone
    constructor
    · rintro rfl
      exact hgone (List.mem_append_right _ (by simp [hcurrent]))
    · intro r _ hr
      exact ⟨last, hname, Or.inl (hr ▸ hlt seg hdropped)⟩

/-- The second of two events goes to a second segment. -/
theorem rotation_two_segments : ∃ s,
    run (step bareCodec 500) State.initial
        [.append [bareEvent "a"] true none, .append [bareEvent "b"] true none] = some s ∧
      s.outbox.segments.length = 2 ∧
      (s.outbox.segments.map fun seg => segmentName seg.index).Pairwise (· < ·) := by
  have hrun : ((run (step bareCodec 500) State.initial
      [.append [bareEvent "a"] true none, .append [bareEvent "b"] true none]).map fun s =>
        (s.outbox.segments.length, s.outbox.current.index)) = some (2, 2) := by
    decide +kernel
  obtain ⟨s, hs, heq⟩ := Option.map_eq_some_iff.mp hrun
  obtain ⟨hlength, hindex⟩ := Prod.mk.inj heq
  exact ⟨s, hs, hlength, (rotation_keeps_order _ s hs (by rw [hindex]; decide)).1⟩

/-- An interrupted append leaves a segment that is too long and holds no record. -/
theorem rotation_torn_segment : ∃ s,
    run (step bareCodec 100) State.initial
        [.append [bareEvent "a"] true (some (0, .checksum))] = some s ∧
      ∃ seg ∈ s.outbox.segments, 100 < seg.bytes.length ∧
        (readSegmentRecords bareCodec seg.bytes seg.index 0 seg.bytes.length).items = [] := by
  have hrun : ((run (step bareCodec 100) State.initial
      [.append [bareEvent "a"] true (some (0, .checksum))]).map fun s =>
        (s.outbox.current.bytes.length, (readSegmentRecords bareCodec s.outbox.current.bytes
          s.outbox.current.index 0 s.outbox.current.bytes.length).items)) = some (419, []) := by
    decide +kernel
  obtain ⟨s, hs, heq⟩ := Option.map_eq_some_iff.mp hrun
  obtain ⟨hlength, hitems⟩ := Prod.mk.inj heq
  refine ⟨s, hs, s.outbox.current, List.mem_append_right _ (List.mem_singleton_self _), ?_, hitems⟩
  rw [hlength]
  decide

end Runs

end HashStorm.Outbox
