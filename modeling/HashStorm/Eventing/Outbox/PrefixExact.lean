import HashStorm.Eventing.Outbox.FailedAppend

/-!
# Prefixes of a written segment

Whatever first part of a segment is on the disk, reading it yields the records that lie
in it completely, and the reader reports it as complete exactly when it ends between two
records. The bounded loop of `ReadSegmentRecords` sees of the whole file what the
unbounded one sees of the part.
-/

namespace HashStorm.Outbox

open Contracts Scan

/-- The start of the segment, or the end of a record. -/
def Boundary (records : List Record) (p : Nat) : Prop :=
  p = 0 ∨ ∃ r ∈ records, r.nextOffset = p

instance (records : List Record) (p : Nat) : Decidable (Boundary records p) :=
  inferInstanceAs (Decidable (_ ∨ _))

/-- The records that lie completely between two positions. -/
def between (records : List Record) (p n : Nat) : List Record :=
  records.filter fun r => p ≤ r.offset ∧ r.nextOffset ≤ n

/-- Where the last record ends, or the position where there is none. -/
def endOf (p : Nat) (records : List Record) : Nat :=
  (records.getLast?.map Record.nextOffset).getD p

variable (codec : EventCodec)

/-- The segment is the encoding of the records, and every first part of it is read as the
records that lie in it. -/
structure PrefixExact (s : Segment) (records : List Record) : Prop where
  bytes_eq : s.bytes = encodeAll codec records
  chained : Chained codec s.index 0 records s.bytes.length
  isPrefix : ∀ n, between records 0 n <+: records
  isSuffix : ∀ p, between records p s.bytes.length <:+ records
  read : ∀ n ≤ s.bytes.length, ∀ p ≤ n, Boundary records p →
    readSegmentWithResult codec (s.bytes.take n) s.index p =
      some ⟨between records p n, endOf p (between records p n), decide (Boundary records n)⟩
  bounded : ∀ endOffset p, Boundary records p →
    let whole := readSegmentRecords codec s.bytes s.index p endOffset
    let part := readSegmentRecords codec (s.bytes.take endOffset) s.index p
      (s.bytes.take endOffset).length
    whole.items = part.items ∧ whole.ending ≠ .throws ∧ part.ending ≠ .throws

variable {codec} {segment p q : Nat} {records : List Record}

theorem endOf_cons (p : Nat) (r : Record) (records : List Record) :
    endOf p (r :: records) = endOf r.nextOffset records := by
  cases records with
  | nil => rfl
  | cons s records => simp [endOf, List.getLast?_cons]

/-- A chain ends where its last record ends. -/
theorem Chained.endOf_eq (h : Chained codec segment p records q) : endOf p records = q := by
  induction records generalizing p with
  | nil => exact h
  | cons r records ih => rw [endOf_cons, ih h.2]

/-- A chain is two chains, one up to a boundary and one from it. -/
theorem Chained.split (h : Chained codec segment p records q) {b : Nat}
    (hb : b = p ∨ ∃ r ∈ records, r.nextOffset = b) :
    ∃ before after, records = before ++ after ∧ Chained codec segment p before b ∧
      Chained codec segment b after q := by
  induction records generalizing p with
  | nil =>
    obtain rfl : b = p := by simpa using hb
    exact ⟨[], [], rfl, rfl, h⟩
  | cons r records ih =>
    by_cases hstart : b = p
    · subst hstart
      exact ⟨[], r :: records, rfl, rfl, h⟩
    · have hnext : b = r.nextOffset ∨ ∃ s ∈ records, s.nextOffset = b := by
        obtain ⟨s, hs, hsb⟩ := hb.resolve_left hstart
        rcases List.mem_cons.mp hs with rfl | hs
        · exact .inl hsb.symm
        · exact .inr ⟨s, hs, hsb⟩
      obtain ⟨before, after, rfl, hbefore, hafter⟩ := ih h.2 hnext
      exact ⟨r :: before, after, rfl, ⟨h.1, hbefore⟩, hafter⟩

/-- The records behind a boundary are those that are not in front of it. -/
theorem between_append {before after : List Record} {b n : Nat}
    (hbefore : Chained codec segment p before b) (hafter : Chained codec segment b after q) :
    between (before ++ after) b n = after.filter fun r => r.nextOffset ≤ n := by
  have hnone : before.filter (fun r => b ≤ r.offset ∧ r.nextOffset ≤ n) = [] := by
    rw [List.filter_eq_nil_iff]
    intro r hr
    have := hbefore.bounds hr
    simp only [decide_eq_true_eq]
    omega
  rw [between, List.filter_append, hnone, List.nil_append]
  apply List.filter_congr
  intro r hr
  have := (hafter.bounds hr).2.1
  simp [this]

/-- Where a cut at `n` leaves the reader that started at the boundary `b`. -/
theorem Chained.cut_between {file : List UInt8} (h : Chained codec segment 0 records file.length)
    (hfile : file = encodeAll codec records) {b n : Nat} (hb : Boundary records b) (hbn : b ≤ n)
    (hn : n ≤ file.length) :
    ∃ m tail rest, Chained codec segment b (between records b n) m ∧ Leftover codec tail ∧
      (file.take n).drop b = encodeAll codec (between records b n) ++ tail ∧
      file.drop b = encodeAll codec (between records b n) ++ encodeAll codec rest ∧
      Chained codec segment m rest file.length ∧ (∀ r ∈ rest, n < r.nextOffset) ∧
      (m = n ↔ Boundary records n) := by
  obtain ⟨before, after, rfl, hbefore, hafter⟩ := h.split hb
  have hbend := hbefore.end_eq
  rw [Nat.zero_add] at hbend
  have hdrop : file.drop b = encodeAll codec after := by
    rw [hfile, encodeAll_append, List.drop_left' hbend.symm]
  obtain ⟨kept, m, tail, hkept, ⟨rest, hrest⟩, hchain, htail, htake⟩ :=
    hafter.cut (Or.inl rfl) (n - b)
  have hsum : b + (n - b) = n := by omega
  rw [hsum] at hkept
  have hbetween : between (before ++ after) b n = kept := by
    rw [between_append hbefore hafter, hkept]
  rw [← hrest, chained_append] at hafter
  obtain ⟨m', hm', hchain'⟩ := hafter
  obtain rfl : m' = m := by rw [hm'.end_eq, hchain.end_eq]
  have hpart : (file.take n).drop b = encodeAll codec kept ++ tail := by
    rw [List.drop_take, hdrop, ← htake, List.append_nil]
  have hlong : ∀ r ∈ rest, n < r.nextOffset := by
    intro r hr
    by_contra hle
    have hmem : r ∈ kept := by
      rw [← hkept, ← hrest]
      exact List.mem_filter.mpr ⟨List.mem_append_right _ hr, by simpa using hle⟩
    have h1 := hm'.bounds hmem
    have h2 := hchain'.bounds hr
    omega
  rw [hbetween]
  refine ⟨m', tail, rest, hchain, htail, hpart, ?_, hchain', hlong, ?_⟩
  · rw [hdrop, ← hrest, encodeAll_append]
  · have hmn : m' ≤ n := by
      have hlength := congrArg List.length hpart
      have := hchain.end_eq
      simp only [List.length_drop, List.length_take, List.length_append] at hlength
      omega
    constructor
    · rintro rfl
      have hend := hchain.endOf_eq
      rcases hlast : kept.getLast? with _ | r
      · rw [endOf, hlast] at hend
        exact (show b = m' from hend) ▸ hb
      · rw [endOf, hlast] at hend
        have hr : r ∈ kept := List.mem_of_getLast? hlast
        exact .inr ⟨r, List.mem_append_right _ (hrest ▸ List.mem_append_left _ hr), hend⟩
    · have hbm := hchain.end_eq
      rintro (rfl | ⟨r, hr, rfl⟩)
      · omega
      · rw [← hrest, List.mem_append, List.mem_append] at hr
        rcases hr with hr | hr | hr
        · have := hbefore.bounds hr
          omega
        · have := hchain.bounds hr
          omega
        · have := hlong r hr
          omega

/-- The reader stops in front of a complete record that reaches past its limit. -/
theorem tryReadRecord_limited {file rest : List UInt8} {e : ShareEvent} {readLimit pos : Nat}
    (hf : codec.Fits e) (hfile : file.drop pos = recordBytes codec e ++ rest)
    (hlimit : readLimit < pos + recordLength codec e) :
    tryReadRecord codec file segment readLimit pos = .stop := by
  have hheader : (file.drop pos).take 10 = headerBytes (codec.serialize e).length := by
    rw [hfile, recordBytes, List.append_assoc, List.append_assoc, List.take_left' (by simp)]
  obtain ⟨hm, hv, hn⟩ := header_fields (n := (codec.serialize e).length) hf
  simp only [tryReadRecord, hheader, hm, hv, hn, bmod_length hf, length_headerBytes]
  rw [if_neg (by omega)]
  split
  · rfl
  · rw [if_pos]
    simp only [recordLength] at hlimit
    push_cast
    omega

variable {file : List UInt8} {b : Nat}

/-- A cut file is read as the records that lie in front of the cut. -/
theorem Chained.read_take (h : Chained codec segment 0 records file.length)
    (hfile : file = encodeAll codec records) (hb : Boundary records b) {n : Nat} (hbn : b ≤ n)
    (hn : n ≤ file.length) :
    (readSegmentRecords codec (file.take n) segment b (file.take n).length).items =
        between records b n ∧
      (readSegmentRecords codec (file.take n) segment b (file.take n).length).ending ≠ .throws ∧
      readSegmentWithResult codec (file.take n) segment b =
        some ⟨between records b n, endOf b (between records b n),
          decide (Boundary records n)⟩ := by
  obtain ⟨m, tail, rest, hchain, htail, hpart, -, -, -, hboundary⟩ := h.cut_between hfile hb hbn hn
  have hlength : (file.take n).length = n := by
    rw [List.length_take]
    omega
  have hend : n = m + tail.length := by
    have := congrArg List.length hpart
    have := hchain.end_eq
    simp only [List.length_drop, hlength, List.length_append] at *
    omega
  have hread := readSegmentRecords_chained hchain hpart (by omega) htail
  simp only [readSegmentWithResult, hread, ← hboundary, hchain.endOf_eq]
  by_cases hnil : tail = []
  · subst hnil
    obtain rfl : n = m := by simpa using hend
    simp [leftoverEnding, hlength]
  · have hpos : 0 < tail.length := List.length_pos_iff.mpr hnil
    have hne : ¬m = n := by omega
    simp [leftoverEnding, hnil, hne]

/-- The bounded loop over the whole file reads the records in front of its limit. -/
theorem Chained.read_bounded (h : Chained codec segment 0 records file.length)
    (hfile : file = encodeAll codec records) (hb : Boundary records b) {n : Nat} (hbn : b ≤ n)
    (hn : n < file.length) :
    (readSegmentRecords codec file segment b n).items = between records b n ∧
      (readSegmentRecords codec file segment b n).ending ≠ .throws := by
  obtain ⟨m, tail, rest, hchain, -, hpart, hdrop, hrest, hlong, -⟩ :=
    h.cut_between hfile hb hbn hn.le
  have hmn : m ≤ n := by
    have := congrArg List.length hpart
    have := hchain.end_eq
    simp only [List.length_drop, List.length_take, List.length_append] at *
    omega
  have hadv := tryReadRecord_advances codec file segment n
  have hpath := hchain.path n hdrop hmn
  simp only [readSegmentRecords, Nat.min_eq_left hn.le, Nat.min_eq_left (hbn.trans hn.le)]
  rw [scan_fuel hadv ((between records b n).length + (n + 1)) (by omega) (by omega),
    scan_path hadv hpath hmn]
  rcases hmn.lt_or_eq with hlt | rfl
  · -- the next record reaches past the limit
    cases rest with
    | nil =>
      have := hrest.end_eq
      simp only [encodeAll_nil, List.length_nil] at this
      omega
    | cons r rest =>
      obtain ⟨⟨_, hoff, hnext, _, hf⟩, -⟩ := hrest
      have hfile' : file.drop m = recordBytes codec r.event ++ encodeAll codec rest := by
        rw [hchain.end_eq, ← List.drop_drop, hdrop, List.drop_left' rfl, encodeAll_cons]
      have hover := hlong r List.mem_cons_self
      rw [scan_of_stop hlt (tryReadRecord_limited hf hfile' (by omega))]
      simp [Outcome.prepend]
  · rw [scan_of_limit_le le_rfl]
    simp [Outcome.prepend]

/-- The records from a position on are the last ones. -/
theorem Chained.between_suffix {p' n : Nat} (h : Chained codec segment p' records q) (p : Nat)
    (hn : q ≤ n) : between records p n <:+ records := by
  induction records generalizing p' with
  | nil => exact List.suffix_refl []
  | cons r records ih =>
    obtain ⟨⟨_, hoff, hnext, _⟩, hrest⟩ := id h
    by_cases hle : p ≤ r.offset
    · have hall : between (r :: records) p n = r :: records := by
        rw [between, List.filter_eq_self]
        intro t ht
        have ht' := h.bounds ht
        have hfirst : r.offset ≤ t.offset := by
          rcases List.mem_cons.mp ht with rfl | ht
          · exact le_rfl
          · have := hrest.bounds ht
            omega
        exact decide_eq_true (by omega)
      exact ⟨[], hall⟩
    · rw [between, List.filter_cons_of_neg (by simp; omega)]
      exact (ih hrest).trans (List.suffix_cons r records)

/-- Reading the encoding of chained records is exact for every first part of it. -/
theorem Chained.prefixExact {s : Segment} (h : Chained codec s.index 0 records s.bytes.length)
    (hbytes : s.bytes = encodeAll codec records) : PrefixExact codec s records where
  bytes_eq := hbytes
  chained := h
  isPrefix n := by
    have hnone : Leftover codec [] := Or.inl rfl
    obtain ⟨kept, _, _, hkept, hprefix, _⟩ := h.cut hnone n
    rw [Nat.zero_add] at hkept
    simpa [between, hkept] using hprefix
  isSuffix p := h.between_suffix p le_rfl
  read n hn p hp hb := (h.read_take hbytes hb hp hn).2.2
  bounded endOffset p hb := by
    rcases Nat.lt_or_ge endOffset p with hlt | hle
    · have hpast : ∀ bytes : List UInt8, ∀ stop, min stop bytes.length ≤ min p bytes.length →
          readSegmentRecords codec bytes s.index p stop = ⟨[], min p bytes.length, .limit⟩ := by
        intro bytes stop hstop
        simp only [readSegmentRecords]
        exact scan_of_limit_le hstop
      simp only
      rw [hpast _ _ (by omega), hpast _ _ (by rw [List.length_take]; omega)]
      simp
    rcases Nat.lt_or_ge endOffset s.bytes.length with hin | hout
    · obtain ⟨hitems, hending⟩ := h.read_bounded hbytes hb hle hin
      obtain ⟨hitems', hending', -⟩ := h.read_take hbytes hb hle hin.le
      exact ⟨hitems.trans hitems'.symm, hending, hending'⟩
    · have hwhole : readSegmentRecords codec s.bytes s.index p endOffset =
          readSegmentRecords codec s.bytes s.index p s.bytes.length := by
        simp only [readSegmentRecords, min_eq_right hout, min_self]
      have hp : p ≤ s.bytes.length := by
        rcases hb with rfl | ⟨r, hr, rfl⟩
        · exact Nat.zero_le _
        · exact (h.bounds hr).2.2.2.1
      have hread := h.read_take hbytes hb hp le_rfl
      rw [List.take_length] at hread
      simp only [List.take_of_length_le hout, hwhole, true_and, and_self]
      exact hread.2.1

section Append

variable {segmentMaxBytes : Nat} {o : FileOutbox}

/-- Every segment is the encoding of its records. -/
def Whole (codec : EventCodec) (o : FileOutbox) (records : List Record) : Prop :=
  ∀ s ∈ o.segments, s.bytes = encodeAll codec (onSegment records s.index)

theorem Whole.clean (h : Whole codec o records) : Clean codec o records :=
  h o.current (by simp [FileOutbox.segments])

/-- A rotation adds an empty segment. -/
theorem Whole.makeRoom (h : Whole codec o records) (hstored : Stored codec o records)
    (segmentMaxBytes : Nat) (e : ShareEvent) :
    Whole codec (o.makeRoom codec segmentMaxBytes e) records := by
  unfold FileOutbox.makeRoom
  split
  · intro s hs
    rcases List.mem_append.mp hs with hs | hs
    · exact h s hs
    · rw [List.mem_singleton.mp hs]
      exact hstored.rotateAsync.2
  · exact h

/-- A record that is written to the open segment adds its bytes. -/
theorem Whole.writeRecord (hstored : Stored codec o records) (h : Whole codec o records)
    {e : ShareEvent} (hl : codec.Lossless e) (hf : codec.Fits e) :
    Whole codec (o.write (recordBytes codec e)) (records ++ [o.slot codec e]) := by
  intro s hs
  rcases List.mem_append.mp hs with hs | hs
  · have hlt := hstored.closed_lt s hs
    have hnone : onSegment [o.slot codec e] s.index = [] :=
      List.filter_cons_of_neg (by simp [FileOutbox.slot, hlt.ne'])
    rw [onSegment_append, hnone, List.append_nil]
    exact h s (List.mem_append_left _ hs)
  · rw [List.mem_singleton.mp hs]
    exact (hstored.writeRecord h.clean hl hf).2

/-- An append without an interruption writes whole records only. -/
theorem Whole.appendLoop (h : Whole codec o records) (segmentMaxBytes : Nat)
    {events : List ShareEvent} (hstored : Stored codec o records)
    (hl : ∀ e ∈ events, codec.Lossless e) :
    let result := o.appendLoop codec segmentMaxBytes events none
    Stored codec result.outbox (records ++ result.placed) ∧
      Whole codec result.outbox (records ++ result.placed) ∧
      result.placed.map Record.event <+: events := by
  induction events generalizing o records with
  | nil => simpa [FileOutbox.appendLoop] using ⟨hstored, h⟩
  | cons e es ih =>
    unfold FileOutbox.appendLoop
    split
    · simpa using ⟨hstored, h⟩
    · rename_i hgood
      have hf : codec.Fits e := by
        by_contra hf
        exact hgood (Or.inr hf)
      have hready : Ready codec segmentMaxBytes o records (e :: es) := Or.inl h.clean
      have hroom := (hstored.makeRoom hready).1
      have hwhole := h.makeRoom hstored segmentMaxBytes e
      obtain ⟨hle, hles⟩ := List.forall_mem_cons.mp hl
      obtain ⟨hstored', hwhole', hprefix⟩ := ih (hwhole.writeRecord hroom hle hf)
        (hroom.writeRecord hwhole.clean hle hf).1 hles
      simp only [faultPoint, Option.map_none]
      rw [List.append_assoc] at hstored' hwhole'
      exact ⟨hstored', hwhole', List.cons_prefix_cons.mpr ⟨rfl, hprefix⟩⟩

/-- An append without an interruption returns if every event can be written. -/
theorem completed_appendLoop_iff {events : List ShareEvent} :
    (o.appendLoop codec segmentMaxBytes events none).completed = true ↔
      ∀ e ∈ events, isNullOrWhiteSpace e.eventId = false ∧ codec.Fits e := by
  induction events generalizing o with
  | nil => simp [FileOutbox.appendLoop]
  | cons e es ih =>
    rw [List.forall_mem_cons, FileOutbox.appendLoop]
    split
    · rename_i hbad
      simp only [Bool.false_eq_true, false_iff, not_and]
      rintro ⟨hid, hf⟩
      simp [hid, hf] at hbad
    · rename_i hgood
      rw [not_or, Bool.not_eq_true, not_not] at hgood
      simp only [faultPoint, Option.map_none, ih, hgood, true_and, and_self]

theorem stored_empty : Stored codec (FileOutbox.openLastSegment [] 0) [] where
  closed_lt := by simp [FileOutbox.openLastSegment]
  sorted := List.Pairwise.nil
  holds s hs := by
    obtain rfl : s = ⟨1, []⟩ := by
      simpa [FileOutbox.openLastSegment, FileOutbox.segments] using hs
    exact ⟨0, [], rfl, Or.inl rfl, rfl⟩
  le_current := by simp

/-- **The segments that `AppendAsync` writes are prefix-exact.** -/
theorem appendAsync_prefixExact {events : List ShareEvent} (hl : ∀ e ∈ events, codec.Lossless e)
    (segmentMaxBytes : Nat) (flushToDisk : Bool) :
    let result := (FileOutbox.openLastSegment [] 0).appendAsync codec segmentMaxBytes events
      flushToDisk none
    (result.completed = true ↔
        ∀ e ∈ events, isNullOrWhiteSpace e.eventId = false ∧ codec.Fits e) ∧
      (result.completed = true → result.placed.map Record.event = events) ∧
      result.placed.map Record.event <+: events ∧
      ∀ s ∈ result.outbox.segments, PrefixExact codec s (onSegment result.placed s.index) := by
  intro result
  have hempty : Whole codec (FileOutbox.openLastSegment [] 0) [] := by
    intro s hs
    obtain rfl : s = ⟨1, []⟩ := by
      simpa [FileOutbox.openLastSegment, FileOutbox.segments] using hs
    rfl
  obtain ⟨hstored, hwhole, hprefix⟩ :=
    hempty.appendLoop segmentMaxBytes stored_empty hl
  rw [List.nil_append] at hstored hwhole
  refine ⟨completed_appendLoop_iff, appendLoop_completed, hprefix, fun s hs => ?_⟩
  have hsegments : result.outbox.segments =
      ((FileOutbox.openLastSegment [] 0).appendLoop codec segmentMaxBytes events
        none).outbox.segments := by
    simp only [result, FileOutbox.appendAsync, FileOutbox.flushCore]
    split <;> rfl
  rw [hsegments] at hs
  have hbytes := hwhole s hs
  obtain ⟨q, tail, hchain, -, -⟩ := hstored.holds s hs
  have hend := hchain.end_eq
  rw [Nat.zero_add, ← hbytes] at hend
  exact Chained.prefixExact (hend ▸ hchain) hbytes

/-- Two events in one segment. -/
theorem appendAsync_prefixExact_two_events :
    let result := (FileOutbox.openLastSegment [] 0).appendAsync bareCodec 1048576
      [bareEvent "a", bareEvent "b"] true none
    (result.completed = true ↔ ∀ e ∈ [bareEvent "a", bareEvent "b"],
        isNullOrWhiteSpace e.eventId = false ∧ bareCodec.Fits e) ∧
      (result.completed = true →
        result.placed.map Record.event = [bareEvent "a", bareEvent "b"]) ∧
      result.placed.map Record.event <+: [bareEvent "a", bareEvent "b"] ∧
      ∀ s ∈ result.outbox.segments, PrefixExact bareCodec s (onSegment result.placed s.index) :=
  appendAsync_prefixExact (by decide +kernel) 1048576 true

end Append

end HashStorm.Outbox
