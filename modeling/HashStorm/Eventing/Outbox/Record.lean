import HashStorm.Contracts.ShareEvent
import HashStorm.Lib.LittleEndian
import HashStorm.Lib.Scan
import Mathlib.Tactic.Linarith

/-!
# Outbox record format

One record is a ten byte header (magic, version, payload length), the JSON
payload and its checksum. The reader of `ShareEventOutboxReader` is modelled
byte for byte, including the 32-bit length arithmetic of its bounds check. A
completely written record is read back; a record cut anywhere before its last
byte is not, whatever the cut leaves of it.
-/

namespace HashStorm.Outbox

open Contracts LittleEndian Scan

/-- `FileShareEventOutbox.Magic`. -/
def magic : Nat := 0x48534556

/-- `FileShareEventOutbox.Version`. -/
def version : Nat := 1

/-- The largest `byte[]` the runtime can allocate. -/
def maxArrayLength : Nat := 0x7fffffc7

/-- `FileShareEventOutbox.Checksum`: 32-bit FNV-1a. -/
def checksum (payload : List UInt8) : UInt32 :=
  payload.foldl (fun hash b => (hash ^^^ b.toUInt32) * 16777619) 2166136261

/-- The JSON library with the UTF-8 conversion around it. -/
structure EventCodec where
  /-- `Encoding.UTF8.GetBytes(JsonConvert.SerializeObject(shareEvent))`. -/
  serialize : ShareEvent → List UInt8
  /-- `JsonConvert.DeserializeObject<ShareEvent>`; `none` is its `null`. -/
  deserialize : List UInt8 → Option ShareEvent

variable (codec : EventCodec)

/-- The JSON text of the event is not empty and denotes the event. -/
def EventCodec.Lossless (e : ShareEvent) : Prop :=
  codec.deserialize (codec.serialize e) = some e ∧ 0 < (codec.serialize e).length

instance (e : ShareEvent) : Decidable (codec.Lossless e) :=
  inferInstanceAs (Decidable (_ ∧ _))

/-- The payload fits a byte array; `GetBytes` raises an exception otherwise. -/
def EventCodec.Fits (e : ShareEvent) : Prop := (codec.serialize e).length ≤ maxArrayLength

instance (e : ShareEvent) : Decidable (codec.Fits e) :=
  inferInstanceAs (Decidable ((codec.serialize e).length ≤ maxArrayLength))

/-- `ShareEventOutboxRecord`; a segment is named by its index. -/
structure Record where
  segment : Nat
  offset : Nat
  nextOffset : Nat
  event : ShareEvent
  deriving DecidableEq, Repr

/-- The ten header bytes of a record with the given payload length. -/
def headerBytes (payloadLength : Nat) : List UInt8 :=
  leBytes 4 magic ++ leBytes 2 version ++ leBytes 4 payloadLength

/-- The bytes the three writes of one record produce. -/
def recordBytes (e : ShareEvent) : List UInt8 :=
  headerBytes (codec.serialize e).length ++ codec.serialize e ++
    leBytes 4 (checksum (codec.serialize e)).toNat

/-- `4 + 2 + 4 + payload.Length + 4`. -/
def recordLength (e : ShareEvent) : Nat := 4 + 2 + 4 + (codec.serialize e).length + 4

@[simp] theorem length_headerBytes (n : Nat) : (headerBytes n).length = 10 := by
  simp [headerBytes]

@[simp] theorem length_recordBytes (e : ShareEvent) :
    (recordBytes codec e).length = recordLength codec e := by
  simp only [recordBytes, List.length_append, length_headerBytes, length_leBytes, recordLength]

theorem recordLength_pos (e : ShareEvent) : 0 < recordLength codec e := by
  simp [recordLength]

/-- `ReadInt32LittleEndian`: the two's complement value of four bytes. -/
def readInt32 (bytes : List UInt8) : Int :=
  if ofLE bytes < 2 ^ 31 then ofLE bytes else ofLE bytes - 2 ^ 32

/-- `ShareEventOutboxReader.TryReadRecord` with the stream at `pos`. The header
is read up to the end of the file; the bounds check adds in `int`. -/
def tryReadRecord (file : List UInt8) (segment readLimit pos : Nat) : Attempt Record :=
  let header := (file.drop pos).take 10
  if header.length < 10 then .stop
  else
    let payloadLength := readInt32 (header.drop 6)
    if ofLE (header.take 4) ≠ magic ∨ ofLE ((header.drop 4).take 2) ≠ version ∨
        payloadLength ≤ 0 then .stop
    else if (readLimit : Int) - (pos + 10 : Nat) < Int.bmod (payloadLength + 4) (2 ^ 32) then .stop
    else if (maxArrayLength : Int) < payloadLength then .throws
    else
      let n := payloadLength.toNat
      let payload := (file.drop (pos + 10)).take n
      if payload.length ≠ n then .stop
      else
        let checksumBytes := (file.drop (pos + 10 + n)).take 4
        if checksumBytes.length < 4 then .stop
        else if ofLE checksumBytes ≠ (checksum payload).toNat then .stop
        else
          match codec.deserialize payload with
          | none => .stop
          | some e => .item ⟨segment, pos, pos + 10 + n + 4, e⟩ (pos + 10 + n + 4)

/-- What a successful read reports about itself. -/
theorem tryReadRecord_item {file : List UInt8} {segment readLimit pos next : Nat} {r : Record}
    (h : tryReadRecord codec file segment readLimit pos = .item r next) :
    r.segment = segment ∧ r.offset = pos ∧ r.nextOffset = next ∧
      next = pos + 14 + (readInt32 (((file.drop pos).take 10).drop 6)).toNat := by
  simp only [tryReadRecord] at h
  repeat' split at h
  all_goals first
    | contradiction
    | (injection h with hr hn
       subst hr hn
       refine ⟨rfl, rfl, rfl, ?_⟩
       omega)

theorem tryReadRecord_advances (file : List UInt8) (segment readLimit : Nat) :
    Advances (tryReadRecord codec file segment readLimit) := by
  intro p r q h
  have := (tryReadRecord_item codec h).2.2.2
  omega

section Header

variable {codec}

/-- What the reader decodes from a header whose length is a positive `int`. -/
theorem headerBytes_fields {n : Nat} (hlt : n < 2 ^ 31) :
    ofLE ((headerBytes n).take 4) = magic ∧ ofLE (((headerBytes n).drop 4).take 2) = version ∧
      readInt32 ((headerBytes n).drop 6) = n := by
  have h4 : (headerBytes n).take 4 = leBytes 4 magic := by
    rw [headerBytes, List.append_assoc, List.take_append_of_le_length (by simp)]
    exact List.take_of_length_le (by simp)
  have h2 : ((headerBytes n).drop 4).take 2 = leBytes 2 version := by
    rw [headerBytes, List.append_assoc, List.drop_left' (by simp),
      List.take_append_of_le_length (by simp)]
    exact List.take_of_length_le (by simp)
  have h6 : (headerBytes n).drop 6 = leBytes 4 n := by
    rw [headerBytes, List.drop_left' (by simp)]
  refine ⟨?_, ?_, ?_⟩
  · rw [h4, ofLE_leBytes (by decide)]
  · rw [h2, ofLE_leBytes (by decide)]
  · rw [h6, readInt32, ofLE_leBytes (by omega), if_pos hlt]

/-- The header that stands in front of any continuation of a record. -/
theorem header_fields {n : Nat} (hn : n ≤ maxArrayLength) :
    ofLE ((headerBytes n).take 4) = magic ∧ ofLE (((headerBytes n).drop 4).take 2) = version ∧
      readInt32 ((headerBytes n).drop 6) = n := by
  have : maxArrayLength < 2 ^ 31 := by decide
  exact headerBytes_fields (by omega)

/-- The sum in the bounds check does not wrap for a length an array can have. -/
theorem bmod_length {n : Nat} (hn : n ≤ maxArrayLength) :
    Int.bmod ((n : Int) + 4) (2 ^ 32) = n + 4 := by
  have : maxArrayLength + 4 < 2 ^ 31 := by decide
  apply Int.bmod_eq_of_le <;> omega

end Header

/-- A completely written record is read back with its event and exact bounds. -/
theorem tryReadRecord_recordBytes {file rest : List UInt8} {e : ShareEvent}
    {segment readLimit pos : Nat} (hl : codec.Lossless e) (hf : codec.Fits e)
    (hfile : file.drop pos = recordBytes codec e ++ rest)
    (hlimit : pos + recordLength codec e ≤ readLimit) :
    tryReadRecord codec file segment readLimit pos =
      .item ⟨segment, pos, pos + recordLength codec e, e⟩ (pos + recordLength codec e) := by
  obtain ⟨hround, hpos⟩ := hl
  set payload := codec.serialize e with hp
  have hrec : file.drop pos = headerBytes payload.length ++
      (payload ++ (leBytes 4 (checksum payload).toNat ++ rest)) := by
    rw [hfile, recordBytes]
    simp only [List.append_assoc]
    rfl
  have hheader : (file.drop pos).take 10 = headerBytes payload.length := by
    rw [hrec, List.take_left' (by simp)]
  have hbody : file.drop (pos + 10) = payload ++ (leBytes 4 (checksum payload).toNat ++ rest) := by
    rw [← List.drop_drop, hrec, List.drop_left' (by simp)]
  have hpayload : (file.drop (pos + 10)).take payload.length = payload := by
    rw [hbody, List.take_left' rfl]
  have hsum : (file.drop (pos + 10 + payload.length)).take 4 =
      leBytes 4 (checksum payload).toNat := by
    rw [← List.drop_drop, hbody, List.drop_left' rfl, List.take_left' (by simp)]
  obtain ⟨hm, hv, hn⟩ := header_fields (n := payload.length) hf
  have hnext : pos + 10 + payload.length + 4 = pos + recordLength codec e := by
    simp only [recordLength, ← hp]
    omega
  have hroom : ¬((readLimit : Int) - ((pos + 10 : Nat) : Int) < (payload.length : Int) + 4) := by
    simp only [recordLength, ← hp] at hlimit
    push_cast
    omega
  have hfit : ¬((maxArrayLength : Int) < (payload.length : Int)) := by
    have : payload.length ≤ maxArrayLength := hf
    omega
  have hzero : ¬((payload.length : Int) ≤ 0) := by omega
  have hck : ofLE (leBytes 4 (checksum payload).toNat) = (checksum payload).toNat :=
    ofLE_leBytes (UInt32.toNat_lt _)
  simp only [tryReadRecord, hheader, hm, hv, hn, bmod_length (n := payload.length) hf,
    length_headerBytes, Int.toNat_natCast, hpayload, hsum, length_leBytes, hround, hnext]
  simp only [lt_irrefl, ne_eq, not_true_eq_false, hzero, or_self, hroom, hfit, hck, ↓reduceIte]

/-- What is left of a record that was not completely written. -/
def Torn (bytes : List UInt8) : Prop :=
  ∃ e, codec.Fits e ∧ bytes <+: recordBytes codec e ∧ bytes.length < recordLength codec e

/-- Cutting a torn record leaves a torn record. -/
theorem Torn.take {bytes : List UInt8} (h : Torn codec bytes) (n : Nat) :
    Torn codec (bytes.take n) := by
  obtain ⟨e, hf, hpre, hlt⟩ := h
  refine ⟨e, hf, (List.take_prefix n bytes).trans hpre, ?_⟩
  rw [List.length_take]
  omega

/-- The reader stops at whatever is left of a record that was not completely
written, when the file ends there. -/
theorem tryReadRecord_torn {file : List UInt8} {segment pos : Nat}
    (h : Torn codec (file.drop pos)) :
    tryReadRecord codec file segment file.length pos = .stop := by
  obtain ⟨e, hf, ⟨rest, hrest⟩, hlt⟩ := h
  simp only [tryReadRecord]
  split
  · rfl
  · rename_i hlen
    rw [List.length_take] at hlen
    have hten : 10 ≤ (file.drop pos).length := by omega
    have hheader : (file.drop pos).take 10 = headerBytes (codec.serialize e).length := by
      have : (recordBytes codec e).take 10 = headerBytes (codec.serialize e).length := by
        rw [recordBytes, List.append_assoc, List.take_left' (by simp)]
      rw [← this, ← hrest, List.take_append_of_le_length hten]
    obtain ⟨hm, hv, hn⟩ := header_fields (n := (codec.serialize e).length) hf
    rw [hheader, hm, hv, hn, bmod_length hf]
    split
    · rfl
    · -- the header is whole, so the bytes that follow are too few
      rw [if_pos]
      rw [List.length_drop] at hlt hten
      simp only [recordLength] at hlt
      push_cast
      omega

/-- The text of a JSON object with the given field texts. -/
def jsonObject (fields : List (String × String)) : List Char :=
  let field := fun (f : String × String) => '"' :: f.1.toList ++ '"' :: ':' :: f.2.toList
  '\x7b' :: [','].intercalate (fields.map field) ++ ['\x7d']

/-- The event with the given id and the default of every other field. -/
def bareEvent (id : String) : ShareEvent := { eventId := some id }

/-- The bytes `JsonConvert.SerializeObject` produces for a bare event. -/
def bareText (id : String) : List UInt8 :=
  let fields := [("EventId", "\"" ++ id ++ "\""), ("EventType", "0"), ("PoolId", "\"\""),
    ("CoinSymbol", "\"\""), ("CoinFamily", "\"\""), ("Miner", "\"\""), ("Worker", "\"\""),
    ("Source", "\"\""), ("Created", "\"0001-01-01T00:00:00\""), ("BlockHeight", "null"),
    ("Difficulty", "0.0"), ("NetworkDifficulty", "0.0"), ("ShareMultiplier", "0.0"),
    ("IsBlockCandidate", "false"), ("BlockHash", "\"\""), ("IpAddress", "\"\""),
    ("UserAgent", "\"\""), ("RejectReason", "\"\""), ("ErrorCode", "\"\""),
    ("ErrorMessage", "\"\""), ("TransactionConfirmationData", "\"\""), ("BlockReward", "0.0"),
    ("BlockType", "\"\"")]
  (jsonObject fields).map fun c => c.toNat.toUInt8

/-- The JSON conversion of bare events with the ids `a` and `b`. -/
def bareCodec : EventCodec where
  serialize e := bareText (e.eventId.getD "")
  deserialize bytes := ["a", "b"].findSome? fun id =>
    if bareText id = bytes then some (bareEvent id) else none

end HashStorm.Outbox
