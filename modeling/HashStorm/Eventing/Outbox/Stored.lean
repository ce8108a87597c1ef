import HashStorm.Eventing.Outbox.File

/-!
# What the outbox directory holds

The abstract content of the directory is the list of completely written records.
Every segment is the concatenation of its records followed by a leftover. The
operations of the outbox are described by what they do to this list: a rotation
changes nothing, an append to a segment without leftover adds its records at the
end, a crash removes the records that reach past the cut, and recovery removes
none.
-/

namespace HashStorm.Outbox

open Contracts Scan

/-- The records of one segment. -/
def onSegment (records : List Record) (i : Nat) : List Record :=
  records.filter fun r => r.segment == i

@[simp] theorem onSegment_append (rs ss : List Record) (i : Nat) :
    onSegment (rs ++ ss) i = onSegment rs i ++ onSegment ss i := by
  simp [onSegment]

theorem mem_onSegment {records : List Record} {i : Nat} {r : Record} :
    r ∈ onSegment records i ↔ r ∈ records ∧ r.segment = i := by
  simp [onSegment]

variable (codec : EventCodec)

/-- The segment is its records, one behind the other, and a leftover. -/
def Holds (records : List Record) (s : Segment) : Prop :=
  ∃ q tail, Chained codec s.index 0 (onSegment records s.index) q ∧ Leftover codec tail ∧
    s.bytes = encodeAll codec (onSegment records s.index) ++ tail

/-- The directory holds exactly the given records on the segments it has. -/
structure Stored (o : FileOutbox) (records : List Record) : Prop where
  /-- The indices grow strictly; the open segment has the greatest one. -/
  closed_lt : ∀ s ∈ o.closed, s.index < o.current.index
  sorted : o.closed.Pairwise fun s t => s.index < t.index
  holds : ∀ s ∈ o.segments, Holds codec records s
  /-- No record lies on a segment that does not exist yet. -/
  le_current : ∀ r ∈ records, r.segment ≤ o.current.index

/-- The open segment ends with a complete record. -/
def Clean (o : FileOutbox) (records : List Record) : Prop :=
  o.current.bytes = encodeAll codec (onSegment records o.current.index)

variable {codec} {o : FileOutbox} {records : List Record}

theorem Holds.congr {s : Segment} {records' : List Record} (h : Holds codec records s)
    (he : onSegment records' s.index = onSegment records s.index) : Holds codec records' s := by
  simpa only [Holds, he] using h

theorem Holds.length_le {s : Segment} (h : Holds codec records s) :
    (encodeAll codec (onSegment records s.index)).length ≤ s.bytes.length := by
  obtain ⟨q, tail, _, _, hb⟩ := h
  rw [hb, List.length_append]
  omega

/-- A record of a segment ends inside the segment. -/
theorem Holds.nextOffset_le {s : Segment} (h : Holds codec records s) {r : Record}
    (hr : r ∈ onSegment records s.index) : r.nextOffset ≤ s.bytes.length := by
  have hle := h.length_le
  obtain ⟨q, tail, hc, _, _⟩ := h
  have hend := hc.end_eq
  have := (hc.bounds hr).2.2.2.1
  omega

theorem Stored.current_holds (h : Stored codec o records) : Holds codec records o.current :=
  h.holds o.current (by simp [FileOutbox.segments])

/-- The reader's completeness flag says that nothing is left over. -/
theorem Stored.isComplete_iff (h : Stored codec o records) :
    (∃ result, readSegmentWithResult codec o.current.bytes o.current.index 0 = some result ∧
      result.isComplete = true) ↔ Clean codec o records := by
  obtain ⟨q, tail, hc, hl, hb⟩ := h.current_holds
  rw [Clean, hb, readSegmentWithResult_chained hc hl]
  simp

/-- An empty leftover keeps the segment as it is. -/
theorem Clean.chained (h : Stored codec o records) (hclean : Clean codec o records) :
    Chained codec o.current.index 0 (onSegment records o.current.index)
      o.current.bytes.length := by
  obtain ⟨q, tail, hc, _, _⟩ := h.current_holds
  rw [hclean]
  have hend := hc.end_eq
  rw [Nat.zero_add] at hend
  exact hend ▸ hc

theorem onSegment_eq_nil_of_lt {i : Nat} (h : ∀ r ∈ records, r.segment < i) :
    onSegment records i = [] := by
  rw [onSegment, List.filter_eq_nil_iff]
  intro r hr
  have := h r hr
  simp only [beq_iff_eq]
  omega

section Append

/-- Rotation closes the segment as it is and opens an empty one. -/
theorem Stored.rotateAsync (h : Stored codec o records) :
    Stored codec o.rotateAsync records ∧ Clean codec o.rotateAsync records := by
  have hnew : onSegment records (o.current.index + 1) = [] :=
    onSegment_eq_nil_of_lt fun r hr => Nat.lt_succ_of_le (h.le_current r hr)
  refine ⟨⟨?_, ?_, ?_, ?_⟩, ?_⟩
  · intro s hs
    rcases List.mem_append.mp hs with hs | hs
    · have := h.closed_lt s hs
      simp only [FileOutbox.rotateAsync]
      omega
    · rw [List.mem_singleton.mp hs]
      exact Nat.lt_succ_self _
  · rw [FileOutbox.rotateAsync, List.pairwise_append]
    exact ⟨h.sorted, List.pairwise_singleton _ _, fun s hs t ht => by
      rw [List.mem_singleton.mp ht]
      exact h.closed_lt s hs⟩
  · intro s hs
    rcases List.mem_append.mp hs with hs | hs
    · exact h.holds s hs
    · rw [List.mem_singleton.mp hs]
      simp only [FileOutbox.rotateAsync, Holds, hnew]
      exact ⟨0, [], rfl, Or.inl rfl, rfl⟩
  · intro r hr
    exact Nat.le_succ_of_le (h.le_current r hr)
  · simp only [Clean, FileOutbox.rotateAsync, hnew, encodeAll_nil]

/-- Writing to the open segment leaves every closed one alone. -/
theorem Stored.write {bytes : List UInt8} (added : List Record) (h : Stored codec o records)
    (hadded : ∀ r ∈ added, r.segment = o.current.index)
    (hcurrent : Holds codec (records ++ added) (o.write bytes).current) :
    Stored codec (o.write bytes) (records ++ added) := by
  refine ⟨h.closed_lt, h.sorted, ?_, ?_⟩
  · intro s hs
    rcases List.mem_append.mp hs with hs | hs
    · have hlt := h.closed_lt s hs
      refine (h.holds s (List.mem_append_left _ hs)).congr ?_
      have hnone : onSegment added s.index = [] := by
        rw [onSegment, List.filter_eq_nil_iff]
        intro r hr
        simp only [beq_iff_eq, hadded r hr]
        omega
      rw [onSegment_append, hnone, List.append_nil]
    · rw [List.mem_singleton.mp hs]
      exact hcurrent
  · intro r hr
    rcases List.mem_append.mp hr with hr | hr
    · exact h.le_current r hr
    · exact (hadded r hr).le

/-- A complete record behind complete records is one more record. -/
theorem Stored.writeRecord {e : ShareEvent} (h : Stored codec o records)
    (hclean : Clean codec o records) (hl : codec.Lossless e) (hf : codec.Fits e) :
    Stored codec (o.write (recordBytes codec e)) (records ++ [o.slot codec e]) ∧
      Clean codec (o.write (recordBytes codec e)) (records ++ [o.slot codec e]) := by
  have hon : onSegment (records ++ [o.slot codec e]) o.current.index =
      onSegment records o.current.index ++ [o.slot codec e] := by
    simp [onSegment, FileOutbox.slot]
  have hbytes : (o.write (recordBytes codec e)).current.bytes =
      encodeAll codec (onSegment (records ++ [o.slot codec e]) o.current.index) := by
    rw [hon, encodeAll_append]
    simp only [FileOutbox.write, encodeAll_cons, encodeAll_nil, List.append_nil]
    rw [hclean]
    rfl
  have hchain : Chained codec o.current.index 0
      (onSegment (records ++ [o.slot codec e]) o.current.index)
      (o.current.bytes.length + recordLength codec e) := by
    rw [hon, chained_append]
    exact ⟨_, hclean.chained h, ⟨rfl, rfl, rfl, hl, hf⟩, rfl⟩
  refine ⟨h.write _ (fun r hr => by rw [List.mem_singleton.mp hr]; rfl) ?_, hbytes⟩
  exact ⟨_, [], hchain, Or.inl rfl, by rw [List.append_nil]; exact hbytes⟩

/-- Part of a record behind complete records is a leftover. -/
theorem Stored.writeTorn {bytes : List UInt8} (h : Stored codec o records)
    (hclean : Clean codec o records) (htorn : Leftover codec bytes) :
    Stored codec (o.write bytes) records := by
  have hcurrent : Holds codec (records ++ []) (o.write bytes).current := by
    rw [List.append_nil]
    refine ⟨o.current.bytes.length, bytes, hclean.chained h, htorn, ?_⟩
    simp only [FileOutbox.write]
    rw [hclean]
  simpa using h.write [] (by simp) hcurrent

/-- An exception leaves the beginning of the record. -/
theorem AppendPoint.written_isPrefix (e : ShareEvent) (p : AppendPoint) :
    p.written codec e <+: recordBytes codec e := by
  cases p with
  | check => exact List.nil_prefix
  | header => exact List.nil_prefix
  | payload =>
    rw [recordBytes, List.append_assoc]
    exact List.prefix_append _ _
  | checksum => exact List.prefix_append _ _

theorem AppendPoint.written_leftover {e : ShareEvent} (hf : codec.Fits e) (p : AppendPoint) :
    Leftover codec (p.written codec e) := by
  have hpart : p.written codec e <+: recordBytes codec e := p.written_isPrefix e
  cases p with
  | check => exact Or.inl rfl
  | header => exact Or.inl rfl
  | payload =>
    refine Or.inr ⟨e, hf, hpart, ?_⟩
    simp only [AppendPoint.written, length_headerBytes, recordLength]
    omega
  | checksum =>
    refine Or.inr ⟨e, hf, hpart, ?_⟩
    simp only [AppendPoint.written, List.length_append, length_headerBytes, recordLength]
    omega

/-- The next record starts on a record boundary: nothing is left over, or the
first record of the batch opens a new segment. -/
def Ready (codec : EventCodec) (segmentMaxBytes : Nat) (o : FileOutbox) (records : List Record)
    (events : List ShareEvent) : Prop :=
  Clean codec o records ∨ ∀ e ∈ events.head?, o.MustRotate codec segmentMaxBytes e

variable {segmentMaxBytes : Nat}

theorem Stored.makeRoom {e : ShareEvent} {es : List ShareEvent} (h : Stored codec o records)
    (hready : Ready codec segmentMaxBytes o records (e :: es)) :
    Stored codec (o.makeRoom codec segmentMaxBytes e) records ∧
      Clean codec (o.makeRoom codec segmentMaxBytes e) records := by
  unfold FileOutbox.makeRoom
  split
  · exact h.rotateAsync
  · rename_i hno
    exact ⟨h, hready.resolve_right fun hall => hno (hall e rfl)⟩

/-- The outbox grew: no segment disappeared or became shorter, and the added
records lie behind everything there was. -/
structure Grew (o o' : FileOutbox) (added : List Record) : Prop where
  current_le : o.current.index ≤ o'.current.index
  longer : o'.current.index = o.current.index → o.current.bytes.length ≤ o'.current.bytes.length
  keeps : ∀ s ∈ o.segments, ∃ s' ∈ o'.segments, s'.index = s.index
  behind : ∀ r ∈ added, o.current.index ≤ r.segment ∧
    (r.segment = o.current.index → o.current.bytes.length ≤ r.offset)
  exists_segment : ∀ r ∈ added, ∃ s' ∈ o'.segments, s'.index = r.segment

theorem Grew.refl (o : FileOutbox) : Grew o o [] :=
  ⟨le_rfl, fun _ => le_rfl, fun s hs => ⟨s, hs, rfl⟩, by simp, by simp⟩

theorem grew_rotateAsync (o : FileOutbox) : Grew o o.rotateAsync [] :=
  ⟨Nat.le_succ _, fun h => absurd h (Nat.succ_ne_self _),
    fun s hs => ⟨s, List.mem_append_left _ hs, rfl⟩, by simp, by simp⟩

theorem grew_makeRoom (o : FileOutbox) (e : ShareEvent) :
    Grew o (o.makeRoom codec segmentMaxBytes e) [] := by
  unfold FileOutbox.makeRoom
  split
  · exact grew_rotateAsync o
  · exact Grew.refl o

theorem grew_write (o : FileOutbox) (bytes : List UInt8) {added : List Record}
    (hadded : ∀ r ∈ added, r.segment = o.current.index ∧ r.offset = o.current.bytes.length) :
    Grew o (o.write bytes) added := by
  have hcurrent : (o.write bytes).current ∈ (o.write bytes).segments := by
    simp [FileOutbox.segments]
  refine ⟨le_rfl, fun _ => by simp [FileOutbox.write], fun s hs => ?_, fun r hr => ?_,
    fun r hr => ⟨_, hcurrent, (hadded r hr).1.symm⟩⟩
  · rcases List.mem_append.mp hs with hs | hs
    · exact ⟨s, List.mem_append_left _ hs, rfl⟩
    · rw [List.mem_singleton.mp hs]
      exact ⟨(o.write bytes).current, hcurrent, rfl⟩
  · obtain ⟨hseg, hoff⟩ := hadded r hr
    exact ⟨hseg.ge, fun _ => hoff.ge⟩

theorem grew_flushCore (o : FileOutbox) (flushToDisk : Bool) :
    Grew o (o.flushCore flushToDisk) [] := by
  unfold FileOutbox.flushCore
  split
  · exact ⟨le_rfl, fun _ => le_rfl, fun s hs => ⟨s, hs, rfl⟩, by simp, by simp⟩
  · exact Grew.refl o

theorem Grew.trans {o₁ o₂ o₃ : FileOutbox} {rs ss : List Record} (h : Grew o₁ o₂ rs)
    (h' : Grew o₂ o₃ ss) : Grew o₁ o₃ (rs ++ ss) := by
  have h12 := h.current_le
  have h23 := h'.current_le
  refine ⟨h12.trans h23, ?_, ?_, ?_, ?_⟩
  · intro he
    exact (h.longer (by omega)).trans (h'.longer (by omega))
  · intro s hs
    obtain ⟨t, ht, hts⟩ := h.keeps s hs
    obtain ⟨u, hu, hut⟩ := h'.keeps t ht
    exact ⟨u, hu, hut.trans hts⟩
  · intro r hr
    rcases List.mem_append.mp hr with hr | hr
    · exact h.behind r hr
    · obtain ⟨hle, hoff⟩ := h'.behind r hr
      refine ⟨h12.trans hle, fun he => ?_⟩
      exact (h.longer (by omega)).trans (hoff (by omega))
  · intro r hr
    rcases List.mem_append.mp hr with hr | hr
    · obtain ⟨t, ht, htr⟩ := h.exists_segment r hr
      obtain ⟨u, hu, hut⟩ := h'.keeps t ht
      exact ⟨u, hu, hut.trans htr⟩
    · exact h'.exists_segment r hr

theorem Stored.flushCore (h : Stored codec o records) (flushToDisk : Bool) :
    Stored codec (o.flushCore flushToDisk) records := by
  unfold FileOutbox.flushCore
  split
  · exact ⟨h.closed_lt, h.sorted, h.holds, h.le_current⟩
  · exact h

theorem grew_interrupt (o : FileOutbox) (e : ShareEvent) (point : AppendPoint) :
    Grew o (o.interrupt codec segmentMaxBytes e point) [] := by
  have hwrite (p : AppendPoint) :
      Grew o ((o.makeRoom codec segmentMaxBytes e).write (p.written codec e)) [] :=
    (grew_makeRoom o e).trans (grew_write _ _ (by simp))
  cases point with
  | check => exact Grew.refl o
  | header => exact hwrite .header
  | payload => exact hwrite .payload
  | checksum => exact hwrite .checksum

/-- What an append completes lies behind everything there was. -/
theorem grew_appendLoop (o : FileOutbox) (events : List ShareEvent)
    (fault : Option (Nat × AppendPoint)) :
    Grew o (o.appendLoop codec segmentMaxBytes events fault).outbox
      (o.appendLoop codec segmentMaxBytes events fault).placed := by
  induction events generalizing o fault with
  | nil => exact Grew.refl o
  | cons e es ih =>
    unfold FileOutbox.appendLoop
    split
    · exact Grew.refl o
    · split
      · exact grew_interrupt o e _
      · have hgrew : Grew o ((o.makeRoom codec segmentMaxBytes e).write (recordBytes codec e))
            [(o.makeRoom codec segmentMaxBytes e).slot codec e] :=
          (grew_makeRoom o e).trans (grew_write _ _ (by simp [FileOutbox.slot]))
        exact hgrew.trans (ih _ _)

theorem grew_appendAsync (o : FileOutbox) (events : List ShareEvent) (flushToDisk : Bool)
    (fault : Option (Nat × AppendPoint)) :
    Grew o (o.appendAsync codec segmentMaxBytes events flushToDisk fault).outbox
      (o.appendAsync codec segmentMaxBytes events flushToDisk fault).placed := by
  have hloop : Grew o (o.appendLoop codec segmentMaxBytes events fault).outbox
      (o.appendLoop codec segmentMaxBytes events fault).placed := grew_appendLoop o events fault
  have hflush := hloop.trans (grew_flushCore _
    (flushToDisk && (o.appendLoop codec segmentMaxBytes events fault).completed))
  rw [List.append_nil] at hflush
  exact hflush

theorem Stored.interrupt {e : ShareEvent} {es : List ShareEvent} (h : Stored codec o records)
    (hready : Ready codec segmentMaxBytes o records (e :: es)) (hf : codec.Fits e)
    (point : AppendPoint) :
    Stored codec (o.interrupt codec segmentMaxBytes e point) records := by
  obtain ⟨hroom, hclean⟩ := h.makeRoom hready
  have hwrite (p : AppendPoint) :
      Stored codec ((o.makeRoom codec segmentMaxBytes e).write (p.written codec e)) records :=
    hroom.writeTorn hclean (p.written_leftover hf)
  cases point with
  | check => exact h
  | header => exact hwrite .header
  | payload => exact hwrite .payload
  | checksum => exact hwrite .checksum

/-- An append that starts on a record boundary stores the records it completed
behind the ones there were, wherever it is interrupted. -/
theorem Stored.appendLoop {events : List ShareEvent} (h : Stored codec o records)
    (hready : Ready codec segmentMaxBytes o records events)
    (hl : ∀ e ∈ events, codec.Lossless e) (fault : Option (Nat × AppendPoint)) :
    Stored codec (o.appendLoop codec segmentMaxBytes events fault).outbox
      (records ++ (o.appendLoop codec segmentMaxBytes events fault).placed) := by
  induction events generalizing o records fault with
  | nil => simpa [FileOutbox.appendLoop] using h
  | cons e es ih =>
    unfold FileOutbox.appendLoop
    split
    · simpa using h
    · rename_i hgood
      have hf : codec.Fits e := by
        by_contra hf
        exact hgood (Or.inr hf)
      split
      · rename_i point _
        simpa using h.interrupt hready hf point
      · obtain ⟨hroom, hclean⟩ := h.makeRoom hready
        obtain ⟨hstored, hclean'⟩ :=
          hroom.writeRecord hclean (hl e List.mem_cons_self) hf
        have hrest := ih hstored (Or.inl hclean')
          (fun e he => hl e (List.mem_cons_of_mem _ he)) (fault.map fun f => (f.1 - 1, f.2))
        rwa [List.append_assoc] at hrest

/-- `AppendAsync` stores what it completed, whether or not it returns. -/
theorem Stored.appendAsync {events : List ShareEvent} (h : Stored codec o records)
    (hready : Ready codec segmentMaxBytes o records events)
    (hl : ∀ e ∈ events, codec.Lossless e) (flushToDisk : Bool)
    (fault : Option (Nat × AppendPoint)) :
    Stored codec (o.appendAsync codec segmentMaxBytes events flushToDisk fault).outbox
      (records ++ (o.appendAsync codec segmentMaxBytes events flushToDisk fault).placed) :=
  (h.appendLoop hready hl fault).flushCore _

end Append

section Read

/-- The record lies in front of the checkpoint. -/
def Checkpoint.Covers (cp : Checkpoint) (r : Record) : Prop :=
  ∃ i, cp.segmentName = some i ∧ (r.segment < i ∨ r.segment = i ∧ r.offset < cp.offset)

instance (cp : Checkpoint) (r : Record) : Decidable (cp.Covers r) :=
  match h : cp.segmentName with
  | none => isFalse (by rintro ⟨i, hi, _⟩; simp [h] at hi)
  | some i =>
    decidable_of_iff (r.segment < i ∨ r.segment = i ∧ r.offset < cp.offset)
      (by simp [Checkpoint.Covers, h])

/-- The checkpoint names a record boundary of an existing segment. -/
def AtBoundary (codec : EventCodec) (o : FileOutbox) (records : List Record)
    (cp : Checkpoint) : Prop :=
  ∀ i, cp.segmentName = some i → (∃ s ∈ o.segments, s.index = i) ∧
    ∃ front rest, onSegment records i = front ++ rest ∧
      cp.offset = (encodeAll codec front).length

/-- The records of a segment that the checkpoint does not cover. -/
def pending (cp : Checkpoint) (records : List Record) (i : Nat) : List Record :=
  (onSegment records i).filter fun r => ¬cp.Covers r

variable {cp : Checkpoint}

/-- The uncovered records of a segment are the ones behind the start offset. -/
theorem pending_split (hb : AtBoundary codec o records cp) {s : Segment}
    (hs : Holds codec records s) (hskip : cp.skips s = false) :
    ∃ front, onSegment records s.index = front ++ pending cp records s.index ∧
      cp.startOffset s = (encodeAll codec front).length := by
  obtain ⟨q, tail, hc, _, _⟩ := hs
  by_cases hname : cp.segmentName = some s.index
  · obtain ⟨_, front, rest, hsplit, hoff⟩ := hb s.index hname
    refine ⟨front, ?_, by rw [Checkpoint.startOffset, if_pos hname, hoff]⟩
    rw [hsplit, chained_append] at hc
    obtain ⟨m, hfront, hrest⟩ := hc
    have hm := hfront.end_eq
    have hcovered : front.filter (fun r => decide ¬cp.Covers r) = [] := by
      rw [List.filter_eq_nil_iff]
      intro r hr
      have hbd := hfront.bounds hr
      simp only [decide_not, Bool.not_eq_true', decide_eq_false_iff_not, not_not]
      exact ⟨s.index, hname, Or.inr ⟨hbd.1, by omega⟩⟩
    have huncovered : rest.filter (fun r => decide ¬cp.Covers r) = rest := by
      rw [List.filter_eq_self]
      intro r hr
      have hbd := hrest.bounds hr
      simp only [decide_not, Bool.not_eq_true', decide_eq_false_iff_not]
      rintro ⟨i, hi, hlt⟩
      rw [hname, Option.some.injEq] at hi
      omega
    rw [pending, hsplit, List.filter_append, hcovered, huncovered, List.nil_append]
  · refine ⟨[], ?_, by simp [Checkpoint.startOffset, hname]⟩
    rw [List.nil_append, pending, eq_comm, List.filter_eq_self]
    intro r hr
    have hseg := (mem_onSegment.mp hr).2
    simp only [decide_not, Bool.not_eq_true', decide_eq_false_iff_not]
    rintro ⟨i, hi, hlt⟩
    simp only [Checkpoint.skips, hi, decide_eq_false_iff_not] at hskip
    have hne : s.index ≠ i := fun he => hname (by rw [hi, he])
    omega

/-- Reading a segment from the checkpoint yields its uncovered records. -/
theorem readSegmentRecords_pending (hb : AtBoundary codec o records cp) {s : Segment}
    (hs : Holds codec records s) (hskip : cp.skips s = false) :
    ∃ q tail, readSegmentRecords codec s.bytes s.index (cp.startOffset s) s.bytes.length =
      ⟨pending cp records s.index, q, leftoverEnding tail⟩ := by
  obtain ⟨front, hsplit, hstart⟩ := pending_split hb hs hskip
  obtain ⟨q, tail, hc, hl, hbytes⟩ := hs
  rw [hsplit, chained_append] at hc
  obtain ⟨m, hfront, hrest⟩ := hc
  have hm := hfront.end_eq
  rw [Nat.zero_add] at hm
  rw [hsplit, encodeAll_append, List.append_assoc] at hbytes
  refine ⟨q, tail, ?_⟩
  rw [hstart, ← hm]
  refine readSegmentRecords_chained hrest ?_ ?_ hl
  · rw [hbytes, hm, List.drop_left' rfl]
  · rw [hbytes, List.length_append]
    omega

/-- A skipped or exhausted segment has no uncovered record. -/
theorem pending_eq_nil (hb : AtBoundary codec o records cp) {s : Segment}
    (hs : Holds codec records s)
    (h : (!cp.skips s && decide (cp.startOffset s < s.bytes.length)) = false) :
    pending cp records s.index = [] := by
  cases hskip : cp.skips s with
  | true =>
    rw [pending, List.filter_eq_nil_iff]
    intro r hr
    have hseg := (mem_onSegment.mp hr).2
    cases hname : cp.segmentName with
    | none => simp [Checkpoint.skips, hname] at hskip
    | some i =>
      simp only [Checkpoint.skips, hname, decide_eq_true_eq] at hskip
      simp only [decide_not, Bool.not_eq_true', decide_eq_false_iff_not, not_not]
      exact ⟨i, hname, Or.inl (by omega)⟩
  | false =>
    obtain ⟨front, hsplit, hstart⟩ := pending_split hb hs hskip
    simp only [hskip, Bool.not_false, Bool.true_and, decide_eq_false_iff_not] at h
    have hle := hs.length_le
    rw [hsplit, encodeAll_append, List.length_append] at hle
    cases hp : pending cp records s.index with
    | nil => rfl
    | cons r rs =>
      rw [hp, encodeAll_cons, List.length_append, length_recordBytes] at hle
      have := recordLength_pos codec r.event
      omega

/-- Reading from the checkpoint yields the uncovered records, segment by segment. -/
theorem Stored.readFromCheckpointAsync (h : Stored codec o records)
    (hb : AtBoundary codec o records cp) :
    o.readFromCheckpointAsync codec cp =
      o.segments.flatMap fun s => pending cp records s.index := by
  have hholds := h.holds
  rw [FileOutbox.readFromCheckpointAsync]
  generalize o.segments = directory at hholds ⊢
  induction directory with
  | nil => rfl
  | cons s rest ih =>
    have hs := hholds s List.mem_cons_self
    have hrest := ih fun t ht => hholds t (List.mem_cons_of_mem _ ht)
    rw [List.flatMap_cons]
    cases hcond : (!cp.skips s && decide (cp.startOffset s < s.bytes.length)) with
    | false =>
      rw [List.filter_cons_of_neg (by simp [hcond]), pending_eq_nil hb hs hcond, hrest]
      rfl
    | true =>
      have hskip : cp.skips s = false := by
        simp only [Bool.and_eq_true, Bool.not_eq_true'] at hcond
        exact hcond.1
      obtain ⟨q, tail, hread⟩ := readSegmentRecords_pending hb hs hskip
      rw [List.filter_cons_of_pos (by simpa using hcond), readSnapshot]
      simp only [hread, hrest]
      by_cases htail : tail = [] <;> simp [leftoverEnding, htail]

/-- Exactly the uncovered records of existing segments are yielded. -/
theorem Stored.mem_readFromCheckpointAsync (h : Stored codec o records)
    (hb : AtBoundary codec o records cp) {r : Record} :
    r ∈ o.readFromCheckpointAsync codec cp ↔
      r ∈ records ∧ ¬cp.Covers r ∧ ∃ s ∈ o.segments, s.index = r.segment := by
  rw [h.readFromCheckpointAsync hb, List.mem_flatMap]
  simp only [pending, List.mem_filter, mem_onSegment, decide_eq_true_eq]
  constructor
  · rintro ⟨s, hs, ⟨hr, hseg⟩, hcov⟩
    exact ⟨hr, hcov, s, hs, hseg.symm⟩
  · rintro ⟨hr, hcov, s, hs, hseg⟩
    exact ⟨s, hs, ⟨hr, hseg.symm⟩, hcov⟩

/-- The order in which records lie in the directory. -/
def Before (r s : Record) : Prop :=
  r.segment < s.segment ∨ r.segment = s.segment ∧ r.offset < s.offset

theorem Stored.segments_sorted (h : Stored codec o records) :
    o.segments.Pairwise fun s t => s.index < t.index := by
  rw [FileOutbox.segments, List.pairwise_append]
  exact ⟨h.sorted, List.pairwise_singleton _ _, fun s hs t ht => by
    rw [List.mem_singleton.mp ht]
    exact h.closed_lt s hs⟩

/-- Records are yielded in the order in which they lie in the directory. -/
theorem Stored.readFromCheckpointAsync_sorted (h : Stored codec o records)
    (hb : AtBoundary codec o records cp) :
    (o.readFromCheckpointAsync codec cp).Pairwise Before := by
  rw [h.readFromCheckpointAsync hb, List.pairwise_flatMap]
  constructor
  · intro s hs
    obtain ⟨q, tail, hc, _, _⟩ := h.holds s hs
    refine (hc.pairwise.filter _).imp_of_mem ?_
    intro r t hr ht hlt
    have hr' := (mem_onSegment.mp (List.mem_filter.mp hr).1).2
    have ht' := (mem_onSegment.mp (List.mem_filter.mp ht).1).2
    exact Or.inr ⟨hr'.trans ht'.symm, hlt⟩
  · refine h.segments_sorted.imp ?_
    intro s t hlt r hr u hu
    have hr' := (mem_onSegment.mp (List.mem_filter.mp hr).1).2
    have hu' := (mem_onSegment.mp (List.mem_filter.mp hu).1).2
    exact Or.inl (by omega)

end Read

section Crash

/-- The records that survive when the open segment keeps its first `cut` bytes. -/
def survivors (o : FileOutbox) (cut : Nat) (r : Record) : Bool :=
  r.segment != o.current.index || decide (r.nextOffset ≤ cut)

theorem onSegment_survivors_ne {cut i : Nat} (h : i ≠ o.current.index) :
    onSegment (records.filter (survivors o cut)) i = onSegment records i := by
  simp only [onSegment, List.filter_filter]
  apply List.filter_congr
  intro r _
  by_cases hr : r.segment = i
  · simp [survivors, hr, h]
  · simp [hr]

theorem onSegment_survivors_current {cut : Nat} :
    onSegment (records.filter (survivors o cut)) o.current.index =
      (onSegment records o.current.index).filter fun r => r.nextOffset ≤ cut := by
  simp only [onSegment, List.filter_filter]
  apply List.filter_congr
  intro r _
  by_cases hr : r.segment = o.current.index
  · simp [survivors, hr]
  · have hb : (r.segment == o.current.index) = false := by simpa using hr
    simp [hb]

/-- Recovery removes leftovers only, and never fails on what the outbox wrote. -/
theorem recover_holds {directory : List Segment}
    (h : ∀ s ∈ directory, Holds codec records s) :
    ∃ directory', recover codec directory = some directory' ∧
      (∀ s ∈ directory', Holds codec records s) ∧
      directory'.map Segment.index = directory.map Segment.index := by
  induction directory with
  | nil => exact ⟨[], rfl, by simp, rfl⟩
  | cons s rest ih =>
    obtain ⟨q, tail, hc, hl, hbytes⟩ := h s List.mem_cons_self
    have hread : readSegmentWithResult codec s.bytes s.index 0 =
        some ⟨onSegment records s.index, q, tail == []⟩ := by
      rw [hbytes, readSegmentWithResult_chained hc hl]
    have hrest := fun t ht => h t (List.mem_cons_of_mem _ ht)
    simp only [recover, hread]
    by_cases hnil : tail = []
    · obtain ⟨rest', hrec, hholds, hidx⟩ := ih hrest
      refine ⟨s :: rest', by simp [hnil, hrec], ?_, by simp [hidx]⟩
      intro t ht
      rcases List.mem_cons.mp ht with rfl | ht
      · exact ⟨q, tail, hc, hl, hbytes⟩
      · exact hholds t ht
    · refine ⟨{ s with bytes := s.bytes.take q } :: rest, by simp [hnil], ?_, by simp⟩
      intro t ht
      rcases List.mem_cons.mp ht with rfl | ht
      · have hend := hc.end_eq
        rw [Nat.zero_add] at hend
        refine ⟨q, [], hc, Or.inl rfl, ?_⟩
        simp only [hbytes, List.append_nil]
        rw [hend, List.take_left' rfl]
      · exact hrest t ht

/-- A restart loses no record. -/
theorem Stored.reopen (h : Stored codec o records) :
    ∃ o', o.reopen codec = some o' ∧ Stored codec o' records ∧
      o'.current.index = o.current.index ∧
      o'.segments.map Segment.index = o.segments.map Segment.index := by
  obtain ⟨directory, hrec, hholds, hidx⟩ := recover_holds h.holds
  have hsegments := hidx
  rw [FileOutbox.segments, List.map_append, List.map_singleton] at hidx
  have hne : directory ≠ [] := by
    rintro rfl
    simp at hidx
  obtain ⟨init, last, rfl⟩ := (List.eq_nil_or_concat' directory).resolve_left hne
  rw [List.map_append, List.map_singleton] at hidx
  obtain ⟨hinit, hlast⟩ := List.append_inj' hidx rfl
  have hlast' : last.index = o.current.index := by simpa using hlast
  refine ⟨⟨init, last, min o.synced last.bytes.length⟩, ?_, ⟨?_, ?_, hholds, ?_⟩, hlast',
    hsegments⟩
  · rw [FileOutbox.reopen, hrec, Option.map_some, FileOutbox.openLastSegment]
    simp
  · intro s hs
    have hmem : s.index ∈ o.closed.map Segment.index := by
      rw [← hinit]
      exact List.mem_map_of_mem hs
    obtain ⟨t, ht, hts⟩ := List.mem_map.mp hmem
    have := h.closed_lt t ht
    simp only
    omega
  · have := h.sorted
    rw [← List.pairwise_map (f := Segment.index) (R := (· < ·))] at this ⊢
    rwa [hinit]
  · intro r hr
    have := h.le_current r hr
    simp only
    omega

/-- Cutting the open segment keeps exactly the surviving records. -/
theorem Stored.cut (h : Stored codec o records) (cut : Nat) :
    Stored codec { o with current := { o.current with bytes := o.current.bytes.take cut } }
      (records.filter (survivors o cut)) := by
  refine ⟨h.closed_lt, h.sorted, ?_, fun r hr => h.le_current r (List.mem_filter.mp hr).1⟩
  intro s hs
  rcases List.mem_append.mp hs with hs | hs
  · have hne : s.index ≠ o.current.index := (h.closed_lt s hs).ne
    exact (h.holds s (List.mem_append_left _ hs)).congr (onSegment_survivors_ne hne)
  · rw [List.mem_singleton.mp hs]
    obtain ⟨q, tail, hc, hl, hbytes⟩ := h.current_holds
    obtain ⟨kept, m, tail', hkept, _, hchain, hleft, htake⟩ := hc.cut hl cut
    rw [Nat.zero_add] at hkept
    refine ⟨m, tail', ?_, hleft, ?_⟩
    · simp only
      rw [onSegment_survivors_current, hkept]
      exact hchain
    · simp only
      rw [onSegment_survivors_current, hkept, ← htake, hbytes]

/-- A crash with its restart keeps exactly the surviving records. -/
theorem Stored.crash {o' : FileOutbox} {cut : Nat} (h : Stored codec o records)
    (hcrash : o.crash codec cut = some o') :
    Stored codec o' (records.filter (survivors o cut)) ∧
      o'.current.index = o.current.index ∧
      o'.segments.map Segment.index = o.segments.map Segment.index := by
  unfold FileOutbox.crash at hcrash
  split at hcrash
  · contradiction
  obtain ⟨o'', hopen, hstored, hcurrent, hsegments⟩ := (h.cut cut).reopen
  obtain rfl : o'' = o' := Option.some.inj (hopen.symm.trans hcrash)
  refine ⟨hstored, hcurrent, ?_⟩
  rw [hsegments]
  simp [FileOutbox.segments]

end Crash

end HashStorm.Outbox
