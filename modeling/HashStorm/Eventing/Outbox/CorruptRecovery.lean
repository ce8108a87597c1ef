import HashStorm.Eventing.Outbox.Segment

/-!
# Recovery of arbitrary segment files

The reader accepts exactly the byte strings that are a header, a payload the
JSON library turns into an event, and the payload's checksum. Whatever a segment
holds, reading it therefore ends behind its leading frames. What decides whether
reading ends with an exception is the header found there: a length no byte array
can have passes the bounds check when the file is long enough for it, and also
when the sum in `int` wraps to a negative number, however short the file is.
-/

namespace HashStorm.Outbox

open Contracts LittleEndian Scan

/-- The bytes of a record around a payload. -/
def frame (payload : List UInt8) : List UInt8 :=
  headerBytes payload.length ++ payload ++ leBytes 4 (checksum payload).toNat

@[simp] theorem length_frame (payload : List UInt8) :
    (frame payload).length = payload.length + 14 := by
  simp only [frame, List.length_append, length_headerBytes, length_leBytes]
  omega

/-- The bytes of records written one behind the other. -/
def frames (payloads : List (List UInt8)) : List UInt8 := payloads.flatMap frame

@[simp] theorem frames_nil : frames [] = [] := rfl

@[simp] theorem frames_cons (payload : List UInt8) (payloads : List (List UInt8)) :
    frames (payload :: payloads) = frame payload ++ frames payloads := rfl

/-- A payload a record can have: not empty, no longer than a byte array, and the
JSON text of an event. -/
def ValidPayload (codec : EventCodec) (payload : List UInt8) : Prop :=
  0 < payload.length ∧ payload.length ≤ maxArrayLength ∧ (codec.deserialize payload).isSome

/-- Behind the valid header stands a length that no byte array can have and that
passes the bounds check, because the bytes are there or because the sum wraps. -/
def HugeHeader (bytes : List UInt8) : Prop :=
  ∃ length rest, bytes = headerBytes length ++ rest ∧ maxArrayLength < length ∧
    length < 2 ^ 31 ∧ (2 ^ 31 - 4 ≤ length ∨ length + 4 ≤ rest.length)

/-- Valid records, and behind them such a header. -/
def Poisoned (codec : EventCodec) (bytes : List UInt8) : Prop :=
  ∃ payloads rest, bytes = frames payloads ++ rest ∧
    (∀ payload ∈ payloads, ValidPayload codec payload) ∧ HugeHeader rest

section Header

/-- A header with the right magic and version is the header of its length field. -/
theorem eq_headerBytes {header : List UInt8} (hlen : header.length = 10)
    (hm : ofLE (header.take 4) = magic) (hv : ofLE ((header.drop 4).take 2) = version) :
    header = headerBytes (ofLE (header.drop 6)) := by
  have h4 : header.take 4 = leBytes 4 magic := by
    have h := leBytes_ofLE (header.take 4)
    rw [hm, List.length_take, hlen] at h
    exact h.symm
  have h2 : (header.drop 4).take 2 = leBytes 2 version := by
    have h := leBytes_ofLE ((header.drop 4).take 2)
    rw [hv, List.length_take, List.length_drop, hlen] at h
    exact h.symm
  have h6 : header.drop 6 = leBytes 4 (ofLE (header.drop 6)) := by
    have h := leBytes_ofLE (header.drop 6)
    rw [List.length_drop, hlen] at h
    exact h.symm
  calc header
      = header.take 4 ++ ((header.drop 4).take 2 ++ (header.drop 4).drop 2) := by
        rw [List.take_append_drop, List.take_append_drop]
    _ = headerBytes (ofLE (header.drop 6)) := by
        rw [headerBytes, List.drop_drop, h4, h2, List.append_assoc, ← h6]

/-- A positive `int` is the number its bytes denote. -/
theorem readInt32_pos {bytes : List UInt8} (hlen : bytes.length = 4) (h : 0 < readInt32 bytes) :
    ofLE bytes < 2 ^ 31 ∧ readInt32 bytes = ofLE bytes := by
  have hlt := ofLE_lt bytes
  rw [hlen] at hlt
  rw [readInt32] at h ⊢
  split
  · exact ⟨by assumption, rfl⟩
  · rename_i hge
    rw [if_neg hge] at h
    norm_num at hlt
    omega

/-- The sum in the bounds check wraps exactly from `2 ^ 31 - 4` on. -/
theorem bmod_add_four {n : Nat} (hn : n < 2 ^ 31) :
    Int.bmod ((n : Int) + 4) (2 ^ 32) =
      if n < 2 ^ 31 - 4 then (n : Int) + 4 else (n : Int) + 4 - 2 ^ 32 := by
  simp only [Int.bmod_def]
  norm_num
  omega

end Header

variable {codec : EventCodec} {file : List UInt8} {segment : Nat}

section Attempt

variable {readLimit pos next : Nat} {r : Record}

/-- What stands at a position where an attempt does more than stop: a header with
a positive length that passes the bounds check. -/
theorem header_of_ne_stop (h : tryReadRecord codec file segment file.length pos ≠ .stop) :
    ∃ length rest, file.drop pos = headerBytes length ++ rest ∧ 0 < length ∧ length < 2 ^ 31 ∧
      (2 ^ 31 - 4 ≤ length ∨ length + 4 ≤ rest.length) := by
  simp only [tryReadRecord] at h
  set header := (file.drop pos).take 10 with hheader
  split at h
  · exact absurd rfl h
  · rename_i hten
    split at h
    · exact absurd rfl h
    · rename_i hfields
      split at h
      · exact absurd rfl h
      · rename_i hroom
        simp only [not_or, not_not, Int.not_le] at hfields
        obtain ⟨hm, hv, hpos⟩ := hfields
        have hlen : header.length = 10 := by
          rw [hheader, List.length_take] at hten ⊢
          omega
        have hfour : (header.drop 6).length = 4 := by rw [List.length_drop, hlen]
        obtain ⟨hlt, hread⟩ := readInt32_pos hfour hpos
        have hsplit : file.drop pos =
            headerBytes (ofLE (header.drop 6)) ++ file.drop (pos + 10) := by
          rw [← eq_headerBytes hlen hm hv, hheader, ← List.drop_drop, List.take_append_drop]
        refine ⟨_, _, hsplit, by omega, hlt, ?_⟩
        rw [hread, bmod_add_four hlt] at hroom
        rw [List.length_drop]
        have hbound : pos + 10 ≤ file.length := by
          have := congrArg List.length hsplit
          rw [List.length_append, length_headerBytes, List.length_drop, List.length_drop] at this
          omega
        split at hroom <;> omega

/-- What the reader does behind a header whose length passes the bounds check. -/
theorem tryReadRecord_header (codec : EventCodec) (segment : Nat) {length : Nat}
    {rest : List UInt8} (hdrop : file.drop pos = headerBytes length ++ rest) (hpos : 0 < length)
    (hlt : length < 2 ^ 31) (hroom : 2 ^ 31 - 4 ≤ length ∨ length + 4 ≤ rest.length) :
    tryReadRecord codec file segment file.length pos =
      if maxArrayLength < length then .throws
      else if ofLE ((rest.drop length).take 4) ≠ (checksum (rest.take length)).toNat then .stop
      else match codec.deserialize (rest.take length) with
        | none => .stop
        | some e => .item ⟨segment, pos, pos + 10 + length + 4, e⟩ (pos + 10 + length + 4) := by
  have hfile : file.length = pos + 10 + rest.length := by
    have := congrArg List.length hdrop
    rw [List.length_append, length_headerBytes, List.length_drop] at this
    omega
  have hheader : (file.drop pos).take 10 = headerBytes length := by
    rw [hdrop, List.take_left' (length_headerBytes length)]
  have hbody : file.drop (pos + 10) = rest := by
    rw [← List.drop_drop, hdrop, List.drop_left' (length_headerBytes length)]
  have hsum : file.drop (pos + 10 + length) = rest.drop length := by
    rw [← List.drop_drop, hbody]
  obtain ⟨hm, hv, hn⟩ := headerBytes_fields hlt
  have hcheck : ¬((file.length : Int) - ((pos + 10 : Nat) : Int) <
      Int.bmod ((length : Int) + 4) (2 ^ 32)) := by
    rw [bmod_add_four hlt]
    split <;> omega
  have hzero : ¬((length : Int) ≤ 0) := by omega
  simp only [tryReadRecord, hheader, hm, hv, hn, length_headerBytes, hbody, hsum, hcheck, hzero,
    lt_irrefl, ne_eq, not_true_eq_false, or_self, ↓reduceIte, Nat.cast_lt, Int.toNat_natCast]
  split
  · rfl
  · rename_i hfit
    have hmax : maxArrayLength < 2 ^ 31 - 4 := by decide
    have htake : (rest.take length).length = length := by
      rw [List.length_take]
      omega
    have hfour : ¬((rest.drop length).take 4).length < 4 := by
      rw [List.length_take, List.length_drop]
      omega
    cases codec.deserialize (rest.take length) with
    | none => simp only [htake, hfour, not_true_eq_false, ↓reduceIte]
    | some e => simp only [htake, hfour, not_true_eq_false, ↓reduceIte]

/-- Reading raises an exception exactly at a header with a huge length. -/
theorem tryReadRecord_throws_iff :
    tryReadRecord codec file segment file.length pos = .throws ↔ HugeHeader (file.drop pos) := by
  constructor
  · intro h
    obtain ⟨length, rest, hdrop, hpos, hlt, hroom⟩ :=
      header_of_ne_stop (h.trans_ne (by simp))
    rw [tryReadRecord_header codec segment hdrop hpos hlt hroom] at h
    refine ⟨length, rest, hdrop, ?_, hlt, hroom⟩
    by_contra hfit
    rw [if_neg hfit] at h
    split at h
    · cases h
    · split at h <;> cases h
  · rintro ⟨length, rest, hdrop, hmax, hlt, hroom⟩
    rw [tryReadRecord_header codec segment hdrop (by omega) hlt hroom, if_pos hmax]

/-- A record is read exactly where the frame of a valid payload stands. -/
theorem tryReadRecord_item_iff :
    (∃ r, tryReadRecord codec file segment file.length pos = .item r next) ↔
      ∃ payload rest, file.drop pos = frame payload ++ rest ∧ ValidPayload codec payload ∧
        next = pos + (frame payload).length := by
  constructor
  · rintro ⟨r, h⟩
    obtain ⟨length, rest, hdrop, hpos, hlt, hroom⟩ :=
      header_of_ne_stop (h.trans_ne (by simp))
    rw [tryReadRecord_header codec segment hdrop hpos hlt hroom] at h
    split at h
    · cases h
    · rename_i hfit
      split at h
      · cases h
      · rename_i hsum
        split at h
        · cases h
        · rename_i e hjson
          injection h with _ hnext
          have hmax : maxArrayLength < 2 ^ 31 - 4 := by decide
          have hlen : (rest.take length).length = length := by
            rw [List.length_take]
            omega
          have hword : leBytes 4 (checksum (rest.take length)).toNat =
              (rest.drop length).take 4 := by
            have h4 : ((rest.drop length).take 4).length = 4 := by
              rw [List.length_take, List.length_drop]
              omega
            have h := leBytes_ofLE ((rest.drop length).take 4)
            rwa [h4, not_not.mp hsum] at h
          refine ⟨rest.take length, (rest.drop length).drop 4, ?_,
            ⟨by omega, by omega, by simp [hjson]⟩, by rw [length_frame, hlen]; omega⟩
          rw [hdrop, frame, hlen, hword, List.append_assoc, List.append_assoc,
            List.take_append_drop, List.take_append_drop]
  · rintro ⟨payload, rest, hdrop, ⟨hpos, hfit, hjson⟩, hnext⟩
    have hmax : maxArrayLength < 2 ^ 31 - 4 := by decide
    have hdrop' : file.drop pos = headerBytes payload.length ++
        (payload ++ (leBytes 4 (checksum payload).toNat ++ rest)) := by
      rw [hdrop, frame, List.append_assoc, List.append_assoc]
    obtain ⟨e, he⟩ := Option.isSome_iff_exists.mp hjson
    have hsum : ofLE (leBytes 4 (checksum payload).toNat) = (checksum payload).toNat :=
      ofLE_leBytes (UInt32.toNat_lt _)
    have hread := tryReadRecord_header codec segment hdrop' hpos (by omega)
      (Or.inr (by simp only [List.length_append, length_leBytes]; omega))
    rw [List.take_left' rfl, List.drop_left' rfl, List.take_left' (length_leBytes 4 _),
      if_neg (by omega), if_neg (not_not.mpr hsum), he] at hread
    have hend : pos + 10 + payload.length + 4 = next := by
      rw [hnext, length_frame]
      omega
    exact ⟨⟨segment, pos, pos + 10 + payload.length + 4, e⟩, by rw [hread, hend]⟩

end Attempt

section Reading

variable {p q : Nat} {rs : List Record}

/-- The reader walks over frames of valid payloads. -/
theorem exists_path (segment : Nat) {payloads : List (List UInt8)} {rest : List UInt8}
    (hvalid : ∀ payload ∈ payloads, ValidPayload codec payload)
    (hdrop : file.drop p = frames payloads ++ rest) :
    ∃ rs, Scan.Path (tryReadRecord codec file segment file.length) p rs
      (p + (frames payloads).length) := by
  induction payloads generalizing p with
  | nil => exact ⟨[], rfl⟩
  | cons payload payloads ih =>
    rw [frames_cons, List.append_assoc] at hdrop
    obtain ⟨r, hr⟩ := tryReadRecord_item_iff.mpr
      ⟨payload, _, hdrop, hvalid payload List.mem_cons_self, rfl⟩
    have hnext : file.drop (p + (frame payload).length) = frames payloads ++ rest := by
      rw [← List.drop_drop, hdrop, List.drop_left' rfl]
    obtain ⟨rs, hrs⟩ := ih (fun b hb => hvalid b (List.mem_cons_of_mem _ hb)) hnext
    rw [frames_cons, List.length_append, ← Nat.add_assoc]
    exact ⟨r :: rs, _, hr, hrs⟩

/-- What the reader walks over is frames of valid payloads. -/
theorem frames_of_path (h : Scan.Path (tryReadRecord codec file segment file.length) p rs q) :
    ∃ payloads, (∀ payload ∈ payloads, ValidPayload codec payload) ∧
      file.drop p = frames payloads ++ file.drop q ∧
      q = p + (frames payloads).length := by
  induction rs generalizing p with
  | nil =>
    simp only [Scan.Path] at h
    subst h
    exact ⟨[], by simp, rfl, rfl⟩
  | cons r rs ih =>
    obtain ⟨next, hr, hrest⟩ := h
    obtain ⟨payload, rest, hdrop, hpayload, hnext⟩ := tryReadRecord_item_iff.mp ⟨r, hr⟩
    obtain ⟨payloads, hvalid, hframes, hq⟩ := ih hrest
    have hstart : file.drop next = rest := by
      rw [hnext, ← List.drop_drop, hdrop, List.drop_left' rfl]
    refine ⟨payload :: payloads, ?_, ?_, ?_⟩
    · simpa using ⟨hpayload, hvalid⟩
    · rw [hdrop, frames_cons, List.append_assoc, ← hframes, hstart]
    · rw [hq, hnext, frames_cons, List.length_append]
      omega

variable {start : Nat}

/-- Reading raises an exception exactly on the segments with valid records and
then a huge header behind the start offset. -/
theorem readSegmentWithResult_eq_none_iff :
    readSegmentWithResult codec file segment start = none ↔ Poisoned codec (file.drop start) := by
  have hadv := tryReadRecord_advances codec file segment file.length
  have hmin : file.drop (min start file.length) = file.drop start := by
    rcases Nat.le_total start file.length with h | h
    · rw [Nat.min_eq_left h]
    · rw [Nat.min_eq_right h, List.drop_eq_nil_of_le h, List.drop_length]
  simp only [readSegmentWithResult, readSegmentRecords, min_self]
  constructor
  · intro h
    have hfuel : file.length ≤ min start file.length + file.length := by omega
    obtain ⟨hpath, hend⟩ := scan_spec hadv hfuel
    split at h
    · rename_i hthrows
      rw [hthrows] at hend
      obtain ⟨payloads, hvalid, hframes, -⟩ := frames_of_path hpath
      rw [hmin] at hframes
      exact ⟨payloads, _, hframes, hvalid, tryReadRecord_throws_iff.mp hend.2⟩
    · cases h
    · cases h
  · rintro ⟨payloads, rest, hdrop, hvalid, hhuge⟩
    rw [← hmin] at hdrop
    obtain ⟨rs, hpath⟩ := exists_path segment hvalid hdrop
    set position := min start file.length + (frames payloads).length with hposition
    have hrest : file.drop position = rest := by
      rw [hposition, ← List.drop_drop, hdrop, List.drop_left' rfl]
    have hlt : position < file.length := by
      obtain ⟨length, tail, heq, -⟩ := hhuge
      have := congrArg List.length (hrest.trans heq)
      rw [List.length_append, length_headerBytes, List.length_drop] at this
      omega
    have hend : Ending.throws.Justified (tryReadRecord codec file segment file.length) file.length
        position := ⟨hlt, tryReadRecord_throws_iff.mpr (hrest ▸ hhuge)⟩
    have hfuel : file.length ≤ min start file.length + file.length := by omega
    rw [scan_eq hadv hpath (Nat.le_of_lt hlt) hfuel hend]

/-- A result describes the leading frames of the segment, and it is complete when
nothing stands behind them. -/
theorem readSegmentWithResult_spec {result : ReadResult}
    (h : readSegmentWithResult codec file segment 0 = some result) :
    ∃ payloads rest, (∀ payload ∈ payloads, ValidPayload codec payload) ∧
      file = frames payloads ++ rest ∧
      result.validLength = (frames payloads).length ∧
      (result.isComplete = true ↔ rest = []) := by
  have hadv := tryReadRecord_advances codec file segment file.length
  simp only [readSegmentWithResult, readSegmentRecords, min_self, Nat.zero_min] at h
  obtain ⟨hpath, hend⟩ := scan_spec hadv (Nat.le_of_eq (Nat.zero_add file.length).symm)
  obtain ⟨payloads, hvalid, hframes, hq⟩ := frames_of_path hpath
  set outcome := scan (tryReadRecord codec file segment file.length) file.length file.length 0
  rw [List.drop_zero] at hframes
  rw [Nat.zero_add] at hq
  refine ⟨payloads, _, hvalid, hframes, ?_⟩
  have hlen := congrArg List.length hframes
  rw [List.length_append, List.length_drop] at hlen
  split at h
  · cases h
  · rename_i hstop
    rw [hstop] at hend
    cases h
    have hne : file.drop outcome.position ≠ [] := by
      rw [ne_eq, List.drop_eq_nil_iff]
      exact Nat.not_le.mpr hend.1
    exact ⟨hq, by simp [hne]⟩
  · rename_i hlimit
    rw [hlimit] at hend
    cases h
    have hle : file.length ≤ outcome.position := hend
    have hnil : file.drop outcome.position = [] := List.drop_eq_nil_of_le hle
    refine ⟨hq, ?_⟩
    simp only [hnil, beq_iff_eq, iff_true]
    omega

/-- A crash of the outbox itself leaves no such header behind its records. -/
theorem Chained.not_poisoned {tail : List UInt8} (h : Chained codec segment 0 rs q)
    (htail : Leftover codec tail) : ¬Poisoned codec (encodeAll codec rs ++ tail) := by
  intro hpoisoned
  have hread := readSegmentWithResult_chained h htail
  have hthrows : readSegmentWithResult codec (encodeAll codec rs ++ tail) segment 0 = none :=
    readSegmentWithResult_eq_none_iff.mpr (by rwa [List.drop_zero])
  rw [hthrows] at hread
  cases hread

/-- A segment of valid records only is complete. -/
theorem readSegmentWithResult_frames {payloads : List (List UInt8)}
    (hvalid : ∀ payload ∈ payloads, ValidPayload codec payload) :
    ∃ result, readSegmentWithResult codec (frames payloads) segment 0 = some result ∧
      result.isComplete = true := by
  set file := frames payloads with hfile
  have hadv := tryReadRecord_advances codec file segment file.length
  have hdrop : file.drop 0 = frames payloads ++ [] := by rw [List.drop_zero, List.append_nil]
  obtain ⟨rs, hpath⟩ := exists_path segment hvalid hdrop
  rw [← hfile, Nat.zero_add] at hpath
  have hend : Ending.limit.Justified (tryReadRecord codec file segment file.length) file.length
      file.length := Nat.le_refl _
  simp only [readSegmentWithResult, readSegmentRecords, min_self, Nat.zero_min]
  rw [scan_eq hadv hpath (Nat.le_refl _) (Nat.le_of_eq (Nat.zero_add file.length).symm) hend]
  exact ⟨_, rfl, by simp⟩

end Reading

section Recovery

/-- Reading the segment finds nothing behind its valid records. -/
def ReadsComplete (codec : EventCodec) (s : Segment) : Prop :=
  ∃ result, readSegmentWithResult codec s.bytes s.index 0 = some result ∧ result.isComplete = true

/-- `kept` is the segment cut behind its leading valid records. -/
structure CutToFrames (codec : EventCodec) (s kept : Segment) : Prop where
  index_eq : kept.index = s.index
  prefix_bytes : kept.bytes <+: s.bytes
  frames_bytes : ∃ payloads, kept.bytes = frames payloads ∧
    ∀ payload ∈ payloads, ValidPayload codec payload

/-- What a `Recover` that leaves `result` has done to the segments, and what a
second one that leaves `again` does after it. Complete segments stay as they are.
Else the first incomplete segment is cut, and the second recovery gets past it. -/
inductive Recovered (codec : EventCodec) (directory : List Segment) :
    List Segment → List Segment → Prop where
  | whole (h : ∀ s ∈ directory, ReadsComplete codec s) :
      Recovered codec directory directory directory
  | cut {before after after' : List Segment} {s kept : Segment}
      (h : directory = before ++ s :: after) (hbefore : ∀ t ∈ before, ReadsComplete codec t)
      (hs : ¬ReadsComplete codec s) (hkept : CutToFrames codec s kept) :
      Recovered codec directory (before ++ kept :: after) (before ++ kept :: after')

/-- Reading, recovery and a second recovery end without an exception and change no
more than they should. -/
structure Recovers (codec : EventCodec) (directory : List Segment) (startOffset : Nat) :
    Prop where
  reads : ∀ s ∈ directory, (readSegmentWithResult codec s.bytes s.index 0).isSome ∧
    (readSegmentWithResult codec s.bytes s.index startOffset).isSome
  recovers : ∃ result again, recover codec directory = some result ∧
    recover codec result = some again ∧ Recovered codec directory result again

variable {directory before after : List Segment} {s : Segment}

/-- Recovery goes past a complete segment. -/
theorem recover_cons_of_complete (h : ReadsComplete codec s) :
    recover codec (s :: directory) = (recover codec directory).map (s :: ·) := by
  obtain ⟨result, hread, hcomplete⟩ := h
  simp [recover, hread, hcomplete]

/-- Recovery cuts an incomplete segment behind its leading frames and leaves the
segments after it alone. -/
theorem recover_cons_of_not_complete
    (hread : (readSegmentWithResult codec s.bytes s.index 0).isSome) (h : ¬ReadsComplete codec s) :
    ∃ kept, recover codec (s :: directory) = some (kept :: directory) ∧
      CutToFrames codec s kept ∧ ReadsComplete codec kept := by
  obtain ⟨result, hresult⟩ := Option.isSome_iff_exists.mp hread
  obtain ⟨payloads, rest, hvalid, hfile, hlen, -⟩ := readSegmentWithResult_spec hresult
  have hincomplete : result.isComplete = false := by
    rw [← Bool.not_eq_true]
    exact fun hc => h ⟨result, hresult, hc⟩
  have hcut : s.bytes.take result.validLength = frames payloads := by
    rw [hlen, hfile, List.take_left' rfl]
  refine ⟨{ s with bytes := s.bytes.take result.validLength }, ?_,
    ⟨rfl, List.take_prefix _ _, payloads, hcut, hvalid⟩, ?_⟩
  · simp [recover, hresult, hincomplete]
  · simp only [ReadsComplete, hcut]
    exact readSegmentWithResult_frames hvalid

/-- Recovery of segments that can all be read, and once more. -/
theorem recover_recovered
    (hread : ∀ s ∈ directory, (readSegmentWithResult codec s.bytes s.index 0).isSome) :
    ∃ result again, recover codec directory = some result ∧
      recover codec result = some again ∧ Recovered codec directory result again := by
  induction directory with
  | nil => exact ⟨[], [], rfl, rfl, .whole (by simp)⟩
  | cons s directory ih =>
    have hrest := fun t ht => hread t (List.mem_cons_of_mem s ht)
    obtain ⟨result, again, hresult, hagain, hrecovered⟩ := ih hrest
    by_cases hs : ReadsComplete codec s
    · refine ⟨s :: result, s :: again, ?_, ?_, ?_⟩
      · rw [recover_cons_of_complete hs, hresult, Option.map_some]
      · rw [recover_cons_of_complete hs, hagain, Option.map_some]
      · cases hrecovered with
        | whole h => exact .whole (by simpa using ⟨hs, h⟩)
        | @cut before after after' t kept h hbefore hincomplete hkept =>
          have hall : ∀ u ∈ s :: before, ReadsComplete codec u := by simpa using ⟨hs, hbefore⟩
          exact .cut (by rw [h, List.cons_append]) hall hincomplete hkept
    · obtain ⟨kept, hrecover, hkept, hcomplete⟩ :=
        recover_cons_of_not_complete (hread s List.mem_cons_self) hs
      refine ⟨[] ++ kept :: directory, [] ++ kept :: result, hrecover, ?_,
        .cut rfl (by simp) hs hkept⟩
      rw [List.nil_append, recover_cons_of_complete hcomplete, hresult]
      rfl

/-- **Recovery is total and idempotent exactly when no segment holds a huge header
behind its valid records**, read from its start or from the given offset. -/
theorem recovers_iff (codec : EventCodec) (directory : List Segment) (startOffset : Nat) :
    Recovers codec directory startOffset ↔
      ∀ s ∈ directory, ¬Poisoned codec s.bytes ∧ ¬Poisoned codec (s.bytes.drop startOffset) := by
  have hreads : ∀ (s : Segment) (start : Nat),
      (readSegmentWithResult codec s.bytes s.index start).isSome ↔
        ¬Poisoned codec (s.bytes.drop start) := by
    intro s start
    rw [← readSegmentWithResult_eq_none_iff]
    exact Option.isSome_iff_ne_none
  constructor
  · intro h s hs
    obtain ⟨hzero, hstart⟩ := h.reads s hs
    exact ⟨(hreads s 0).mp hzero, (hreads s startOffset).mp hstart⟩
  · intro h
    have hsome : ∀ s ∈ directory, (readSegmentWithResult codec s.bytes s.index 0).isSome :=
      fun s hs => (hreads s 0).mpr (h s hs).1
    exact ⟨fun s hs => ⟨hsome s hs, (hreads s startOffset).mpr (h s hs).2⟩,
      recover_recovered hsome⟩

/-- Ten bytes with the length `0x7fffffff` are enough for an exception: the sum in
the bounds check is negative. -/
theorem not_recovers_wrapped_length :
    ¬Recovers bareCodec
      [⟨1, [0x56, 0x45, 0x53, 0x48, 0x01, 0x00, 0xff, 0xff, 0xff, 0x7f]⟩] 0 := by
  intro h
  have hread := (h.reads _ (List.mem_singleton.mpr rfl)).1
  have hthrows : readSegmentWithResult bareCodec
      [0x56, 0x45, 0x53, 0x48, 0x01, 0x00, 0xff, 0xff, 0xff, 0x7f] 1 0 = none := by decide
  rw [hthrows] at hread
  cases hread

end Recovery

end HashStorm.Outbox
