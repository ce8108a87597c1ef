import HashStorm.Eventing.Outbox.Segment

/-!
# The file outbox

`FileShareEventOutbox` with its checkpoint. The open segment is always the last
file of the directory, so the directory is the closed segments followed by the
open one. `AppendAsync` takes the point at which an exception interrupts it, if
any; no bytes are ever taken back. Segment names are fixed-width decimals, so
that their ordinal order is the order of the indices used here.
-/

namespace HashStorm.Outbox

open Contracts Scan

variable (codec : EventCodec)

/-- The directory, the open stream and how much of it the last `Flush(true)` covers. -/
structure FileOutbox where
  closed : List Segment
  current : Segment
  synced : Nat
  deriving DecidableEq, Repr

/-- `ShareEventOutboxCheckpoint`; `none` is the empty segment name. -/
structure Checkpoint where
  segmentName : Option Nat := none
  offset : Nat := 0
  deriving DecidableEq, Repr

namespace FileOutbox

/-- `GetSegments`. -/
def segments (o : FileOutbox) : List Segment := o.closed ++ [o.current]

/-- `OpenLastSegment`: append to the last file, or create the first one. -/
def openLastSegment (directory : List Segment) (synced : Nat) : FileOutbox :=
  match directory.getLast? with
  | none => ⟨[], ⟨1, []⟩, 0⟩
  | some last => ⟨directory.dropLast, last, min synced last.bytes.length⟩

/-- `RotateAsync`: the old segment is flushed to disk and a new one is created. -/
def rotateAsync (o : FileOutbox) : FileOutbox := ⟨o.closed ++ [o.current], ⟨o.current.index + 1, []⟩, 0⟩

/-- `WriteAsync` on the open stream. -/
def write (o : FileOutbox) (bytes : List UInt8) : FileOutbox :=
  { o with current := { o.current with bytes := o.current.bytes ++ bytes } }

/-- `FlushCoreAsync`: only `Flush(true)` reaches the disk. -/
def flushCore (o : FileOutbox) (flushToDisk : Bool) : FileOutbox :=
  if flushToDisk then { o with synced := o.current.bytes.length } else o

@[simp] theorem flushCore_current (o : FileOutbox) (flushToDisk : Bool) :
    (o.flushCore flushToDisk).current = o.current := by
  unfold flushCore
  split <;> rfl

/-- The open segment is not empty and the record would make it too long. -/
def MustRotate (segmentMaxBytes : Nat) (o : FileOutbox) (e : ShareEvent) : Prop :=
  0 < o.current.bytes.length ∧
    segmentMaxBytes < o.current.bytes.length + recordLength codec e

instance (segmentMaxBytes : Nat) (o : FileOutbox) (e : ShareEvent) :
    Decidable (MustRotate codec segmentMaxBytes o e) :=
  inferInstanceAs (Decidable (_ ∧ _))

/-- The segment the record goes to. -/
def makeRoom (segmentMaxBytes : Nat) (o : FileOutbox) (e : ShareEvent) : FileOutbox :=
  if MustRotate codec segmentMaxBytes o e then o.rotateAsync else o

/-- Where the record of an event goes in the open segment. -/
def slot (o : FileOutbox) (e : ShareEvent) : Record :=
  ⟨o.current.index, o.current.bytes.length, o.current.bytes.length + recordLength codec e, e⟩

end FileOutbox

/-- Where an exception can leave the loop body of `AppendAsync`: at the checks in
front of the record, or at one of its three writes. -/
inductive AppendPoint where
  | check
  | header
  | payload
  | checksum
  deriving DecidableEq, Repr

/-- What of the record has been written when the exception is raised. -/
def AppendPoint.written (e : ShareEvent) : AppendPoint → List UInt8
  | .check => []
  | .header => []
  | .payload => headerBytes (codec.serialize e).length
  | .checksum => headerBytes (codec.serialize e).length ++ codec.serialize e

/-- The point at which a fault interrupts the next record, if it does. -/
def faultPoint : Option (Nat × AppendPoint) → Option AppendPoint
  | some (0, point) => some point
  | _ => none

namespace FileOutbox

/-- The outbox when an exception leaves the loop body; the segment may already
have been rotated when a write fails. -/
def interrupt (segmentMaxBytes : Nat) (o : FileOutbox) (e : ShareEvent) (point : AppendPoint) :
    FileOutbox :=
  match point with
  | .check => o
  | point => (o.makeRoom codec segmentMaxBytes e).write (point.written codec e)

/-- The result of `AppendAsync`: the records it completed, and whether it returned. -/
structure Appended where
  outbox : FileOutbox
  placed : List Record
  completed : Bool
  deriving DecidableEq, Repr

/-- The loop of `AppendAsync`. A fault names the record and the point at which an
exception interrupts it; a fault behind the last record is one of the final
flush. A blank event id and an unrepresentable payload raise one by themselves. -/
def appendLoop (segmentMaxBytes : Nat) :
    FileOutbox → List ShareEvent → Option (Nat × AppendPoint) → Appended
  | o, [], fault => ⟨o, [], fault.isNone⟩
  | o, e :: es, fault =>
    if isNullOrWhiteSpace e.eventId ∨ ¬codec.Fits e then ⟨o, [], false⟩
    else
      match faultPoint fault with
      | some point => ⟨o.interrupt codec segmentMaxBytes e point, [], false⟩
      | none =>
        let room := o.makeRoom codec segmentMaxBytes e
        let rest := appendLoop segmentMaxBytes (room.write (recordBytes codec e)) es
          (fault.map fun f => (f.1 - 1, f.2))
        { rest with placed := room.slot codec e :: rest.placed }

/-- `AppendAsync`. -/
def appendAsync (segmentMaxBytes : Nat) (o : FileOutbox) (events : List ShareEvent)
    (flushToDisk : Bool) (fault : Option (Nat × AppendPoint)) : Appended :=
  let result := o.appendLoop codec segmentMaxBytes events fault
  { result with outbox := result.outbox.flushCore (flushToDisk && result.completed) }

end FileOutbox

/-- The segment precedes the one the checkpoint names. -/
def Checkpoint.skips (cp : Checkpoint) (s : Segment) : Bool :=
  match cp.segmentName with
  | none => false
  | some i => s.index < i

/-- Where reading of the segment starts. -/
def Checkpoint.startOffset (cp : Checkpoint) (s : Segment) : Nat :=
  if cp.segmentName = some s.index then cp.offset else 0

/-- Read segment after segment; an exception ends the enumeration. -/
def readSnapshot (cp : Checkpoint) : List Segment → List Record
  | [] => []
  | s :: rest =>
    let outcome := readSegmentRecords codec s.bytes s.index (cp.startOffset s) s.bytes.length
    match outcome.ending with
    | .throws => outcome.items
    | _ => outcome.items ++ readSnapshot cp rest

/-- `ReadFromCheckpointAsync`: the segments from the checkpoint on that hold
unread bytes, up to the lengths they have now. -/
def FileOutbox.readFromCheckpointAsync (o : FileOutbox) (cp : Checkpoint) : List Record :=
  readSnapshot codec cp
    (o.segments.filter fun s => !cp.skips s && cp.startOffset s < s.bytes.length)

/-- `DeletePublishedSegments` on the closed segments, interrupted after `limit`
deletions; the open segment is never deleted. -/
def deletePublishedSegments (published : Nat) : Nat → List Segment → List Segment
  | _, [] => []
  | 0, s :: rest => s :: rest
  | limit + 1, s :: rest =>
    if s.index = published then s :: rest else deletePublishedSegments published limit rest

/-- A restart on the directory: `Recover` runs before the outbox is opened; `none`
if it raises an exception. -/
def FileOutbox.reopen (o : FileOutbox) : Option FileOutbox :=
  (recover codec o.segments).map fun directory => FileOutbox.openLastSegment directory o.synced

/-- The process dies: the stream is dropped and the open segment keeps its first
`cut` bytes, never fewer than the last `Flush(true)` covered. Then it restarts. -/
def FileOutbox.crash (o : FileOutbox) (cut : Nat) : Option FileOutbox :=
  if cut < o.synced then none
  else
    FileOutbox.reopen codec
      { o with current := { o.current with bytes := o.current.bytes.take cut } }

end HashStorm.Outbox
