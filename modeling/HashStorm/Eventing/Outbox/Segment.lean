import HashStorm.Eventing.Outbox.Record

/-!
# Segment reading and recovery

A segment file is scanned record by record. On a file that holds contiguous
records followed by whatever an interrupted write left, reading from any record
boundary yields exactly the remaining records, and recovery removes exactly the
leftover.
-/

namespace HashStorm.Outbox

open Contracts Scan

variable (codec : EventCodec)

/-- `ShareEventOutboxReader.ReadSegmentRecords`. -/
def readSegmentRecords (file : List UInt8) (segment startOffset endOffset : Nat) :
    Outcome Record :=
  let readLimit := min endOffset file.length
  scan (tryReadRecord codec file segment readLimit) readLimit readLimit
    (min startOffset file.length)

/-- `ShareEventOutboxReadResult`. -/
structure ReadResult where
  records : List Record
  validLength : Nat
  isComplete : Bool
  deriving DecidableEq, Repr

/-- `ShareEventOutboxReader.ReadSegmentWithResult`; `none` when it raises an exception. -/
def readSegmentWithResult (file : List UInt8) (segment startOffset : Nat) : Option ReadResult :=
  let outcome := readSegmentRecords codec file segment startOffset file.length
  match outcome.ending with
  | .throws => none
  | .stop => some ⟨outcome.items, outcome.position, false⟩
  | .limit => some ⟨outcome.items, outcome.position, outcome.position == file.length⟩

/-- A `.wal` file of the outbox directory, named by its index. -/
structure Segment where
  index : Nat
  bytes : List UInt8
  deriving DecidableEq, Repr

/-- `ShareEventOutboxRecovery.Recover` on the segments in name order: only the
first incomplete one is cut. -/
def recover : List Segment → Option (List Segment)
  | [] => some []
  | s :: rest =>
    match readSegmentWithResult codec s.bytes s.index 0 with
    | none => none
    | some result =>
      if result.isComplete then (recover rest).map (s :: ·)
      else some ({ s with bytes := s.bytes.take result.validLength } :: rest)

/-- The concatenated bytes of records. -/
def encodeAll (rs : List Record) : List UInt8 := rs.flatMap fun r => recordBytes codec r.event

@[simp] theorem encodeAll_nil : encodeAll codec [] = [] := rfl

@[simp] theorem encodeAll_cons (r : Record) (rs : List Record) :
    encodeAll codec (r :: rs) = recordBytes codec r.event ++ encodeAll codec rs := rfl

@[simp] theorem encodeAll_append (rs ss : List Record) :
    encodeAll codec (rs ++ ss) = encodeAll codec rs ++ encodeAll codec ss := by
  simp [encodeAll]

/-- A record that describes where its readable event was written. -/
def Placed (segment offset : Nat) (r : Record) : Prop :=
  r.segment = segment ∧ r.offset = offset ∧
    r.nextOffset = offset + recordLength codec r.event ∧
    codec.Lossless r.event ∧ codec.Fits r.event

/-- Records written one behind the other, from one offset of a segment to another. -/
def Chained (segment : Nat) : Nat → List Record → Nat → Prop
  | p, [], q => p = q
  | p, r :: rs, q => Placed codec segment p r ∧ Chained segment r.nextOffset rs q

variable {codec} {segment p q : Nat} {rs ss : List Record}

theorem Chained.end_eq (h : Chained codec segment p rs q) :
    q = p + (encodeAll codec rs).length := by
  induction rs generalizing p with
  | nil => simpa [Chained] using h.symm
  | cons r rs ih =>
    obtain ⟨⟨_, _, hn, _⟩, hrest⟩ := h
    rw [ih hrest, hn]
    simp only [encodeAll_cons, List.length_append, length_recordBytes]
    omega

theorem chained_append :
    Chained codec segment p (rs ++ ss) q ↔
      ∃ m, Chained codec segment p rs m ∧ Chained codec segment m ss q := by
  induction rs generalizing p with
  | nil => simp [Chained]
  | cons r rs ih =>
    simp only [List.cons_append, Chained, ih]
    constructor
    · rintro ⟨hp, m, hm, hq⟩
      exact ⟨m, ⟨hp, hm⟩, hq⟩
    · rintro ⟨m, ⟨hp, hm⟩, hq⟩
      exact ⟨hp, m, hm, hq⟩

/-- A chained record lies between the ends of its chain. -/
theorem Chained.bounds (h : Chained codec segment p rs q) {r : Record} (hr : r ∈ rs) :
    r.segment = segment ∧ p ≤ r.offset ∧ r.offset < r.nextOffset ∧ r.nextOffset ≤ q ∧
      codec.Lossless r.event ∧ codec.Fits r.event := by
  induction rs generalizing p with
  | nil => cases hr
  | cons s rs ih =>
    obtain ⟨⟨hseg, hoff, hnext, hl, hf⟩, hrest⟩ := h
    have hpos := recordLength_pos codec s.event
    rcases List.mem_cons.mp hr with rfl | hr
    · have hend := hrest.end_eq
      exact ⟨hseg, by omega, by omega, by omega, hl, hf⟩
    · obtain ⟨h1, h2, h3⟩ := ih hrest hr
      exact ⟨h1, by omega, h3⟩

/-- Offsets grow strictly along a chain. -/
theorem Chained.pairwise (h : Chained codec segment p rs q) :
    rs.Pairwise fun r s => r.offset < s.offset := by
  induction rs generalizing p with
  | nil => exact List.Pairwise.nil
  | cons r rs ih =>
    obtain ⟨⟨_, hoff, hnext, _⟩, hrest⟩ := h
    refine List.pairwise_cons.mpr ⟨fun s hs => ?_, ih hrest⟩
    have hpos := recordLength_pos codec r.event
    have := (hrest.bounds hs).2.1
    omega

/-- A later record of a chain starts behind the end of an earlier one. -/
theorem Chained.nextOffset_le (h : Chained codec segment p rs q) {r s : Record} (hr : r ∈ rs)
    (hs : s ∈ rs) (hlt : r.offset < s.offset) : r.nextOffset ≤ s.offset := by
  induction rs generalizing p with
  | nil => cases hr
  | cons t rs ih =>
    obtain ⟨⟨_, hoff, hnext, _⟩, hrest⟩ := h
    rcases List.mem_cons.mp hr with hrt | hr'
    · rcases List.mem_cons.mp hs with hst | hs'
      · rw [hrt, hst] at hlt
        omega
      · rw [hrt]
        exact (hrest.bounds hs').2.1
    · rcases List.mem_cons.mp hs with hst | hs'
      · have := (hrest.bounds hr').2.1
        have := recordLength_pos codec t.event
        rw [hst, hoff] at hlt
        omega
      · exact ih hrest hr' hs'

/-- The reader walks over chained records. -/
theorem Chained.path {file tail : List UInt8} (h : Chained codec segment p rs q) (limit : Nat)
    (hfile : file.drop p = encodeAll codec rs ++ tail) (hq : q ≤ limit) :
    Path (tryReadRecord codec file segment limit) p rs q := by
  induction rs generalizing p with
  | nil => exact h
  | cons r rs ih =>
    obtain ⟨⟨hseg, hoff, hnext, hl, hf⟩, hrest⟩ := h
    have hend := hrest.end_eq
    rw [encodeAll_cons, List.append_assoc] at hfile
    have hread : tryReadRecord codec file segment limit p = _ :=
      tryReadRecord_recordBytes codec hl hf hfile (by omega)
    have heq : (⟨segment, p, p + recordLength codec r.event, r.event⟩ : Record) = r := by
      cases r
      simp_all
    rw [heq] at hread
    refine ⟨r.nextOffset, by rw [hread, hnext], ih hrest ?_⟩
    rw [hnext, ← List.drop_drop, hfile, List.drop_left' (by simp)]

/-- What may stand behind the last complete record of a segment. -/
def Leftover (codec : EventCodec) (tail : List UInt8) : Prop := tail = [] ∨ Torn codec tail

theorem Leftover.take {tail : List UInt8} (h : Leftover codec tail) (n : Nat) :
    Leftover codec (tail.take n) := by
  rcases h with rfl | h
  · simp [Leftover]
  · exact Or.inr (h.take codec n)

/-- How a scan ends that has reached the leftover. -/
def leftoverEnding (tail : List UInt8) : Ending := if tail = [] then .limit else .stop

/-- Reading a segment from a record boundary yields exactly the records behind it. -/
theorem readSegmentRecords_chained {file tail : List UInt8} (hpq : Chained codec segment p rs q)
    (hfile : file.drop p = encodeAll codec rs ++ tail) (hp : p ≤ file.length)
    (htail : Leftover codec tail) :
    readSegmentRecords codec file segment p file.length = ⟨rs, q, leftoverEnding tail⟩ := by
  have hend := hpq.end_eq
  have hlen : file.length = q + tail.length := by
    have := congrArg List.length hfile
    rw [List.length_drop, List.length_append] at this
    omega
  have hadv := tryReadRecord_advances codec file segment file.length
  have hpath := hpq.path file.length hfile (by omega)
  simp only [readSegmentRecords, min_self, Nat.min_eq_left hp]
  rw [scan_fuel hadv (rs.length + (file.length + 1)) (by omega) (by omega),
    scan_path hadv hpath (by omega)]
  have hdrop : file.drop q = tail := by
    rw [hend, ← List.drop_drop, hfile, List.drop_left' rfl]
  by_cases hnil : tail = []
  · subst hnil
    rw [scan_of_limit_le (by simp [hlen])]
    simp [Outcome.prepend, leftoverEnding]
  · have hpos : 0 < tail.length := List.length_pos_iff.mpr hnil
    have htorn : Torn codec (file.drop q) := hdrop ▸ htail.resolve_left hnil
    rw [scan_of_stop (by omega) (tryReadRecord_torn codec htorn)]
    simp [Outcome.prepend, leftoverEnding, hnil]

/-- Reading a whole segment reports its records, where they end, and whether
anything is left over. -/
theorem readSegmentWithResult_chained {tail : List UInt8} (hq : Chained codec segment 0 rs q)
    (htail : Leftover codec tail) :
    readSegmentWithResult codec (encodeAll codec rs ++ tail) segment 0 =
      some ⟨rs, q, tail == []⟩ := by
  have hend := hq.end_eq
  simp only [readSegmentWithResult]
  rw [readSegmentRecords_chained hq rfl (Nat.zero_le _) htail]
  by_cases hnil : tail = []
  · simp [leftoverEnding, hnil, hend]
  · simp [leftoverEnding, hnil]

/-- Cutting a segment keeps the records that end before the cut; what is left of
the next one is a leftover. -/
theorem Chained.cut {tail : List UInt8} (h : Chained codec segment p rs q)
    (htail : Leftover codec tail) (cut : Nat) :
    ∃ kept m tail', rs.filter (fun r => r.nextOffset ≤ p + cut) = kept ∧ kept <+: rs ∧
      Chained codec segment p kept m ∧ Leftover codec tail' ∧
      (encodeAll codec rs ++ tail).take cut = encodeAll codec kept ++ tail' := by
  induction rs generalizing p cut with
  | nil =>
    exact ⟨[], p, tail.take cut, rfl, List.prefix_rfl, rfl, htail.take cut, by simp⟩
  | cons r rs ih =>
    obtain ⟨hplaced, hrest⟩ := h
    obtain ⟨hseg, hoff, hnext, hl, hf⟩ := hplaced
    by_cases hcut : recordLength codec r.event ≤ cut
    · obtain ⟨kept, m, tail', hfilter, hpre, hchain, hleft, htake⟩ :=
        ih hrest (cut - recordLength codec r.event)
      have hsum : r.nextOffset + (cut - recordLength codec r.event) = p + cut := by omega
      rw [hsum] at hfilter
      refine ⟨r :: kept, m, tail', ?_, List.cons_prefix_cons.mpr ⟨rfl, hpre⟩,
        ⟨⟨hseg, hoff, hnext, hl, hf⟩, hchain⟩, hleft, ?_⟩
      · rw [List.filter_cons_of_pos (by simp; omega), hfilter]
      · rw [encodeAll_cons, List.append_assoc, List.take_append, length_recordBytes, htake,
          List.take_of_length_le (by simpa using hcut), encodeAll_cons, List.append_assoc]
    · have hnone : (r :: rs).filter (fun s => decide (s.nextOffset ≤ p + cut)) = [] := by
        rw [List.filter_eq_nil_iff]
        intro s hs
        have hs' : r.nextOffset ≤ s.nextOffset := by
          rcases List.mem_cons.mp hs with rfl | hs
          · exact Nat.le_refl _
          · have := hrest.bounds hs
            omega
        simp only [decide_eq_true_eq]
        omega
      refine ⟨[], p, (recordBytes codec r.event).take cut, hnone, List.nil_prefix, rfl,
        Or.inr ⟨r.event, hf, List.take_prefix _ _, ?_⟩, ?_⟩
      · rw [List.length_take]
        omega
      · rw [encodeAll_cons, List.append_assoc, encodeAll_nil, List.nil_append,
          List.take_append_of_le_length (by simp; omega)]

end HashStorm.Outbox
