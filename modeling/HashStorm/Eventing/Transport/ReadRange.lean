import HashStorm.Contracts.ShareEvent
import HashStorm.Eventing.Transport.RedisStreamsConsumer
import HashStorm.Lib.RangePages

/-!
# Reading a range of the stream

`ReadRangePagesAsync` reads the entries between two times, without the group. The
id of an entry is made of the milliseconds at which it was added and of a sequence
number, and the range ends at the number 9999 of its last millisecond.

Entries that are added between two pages do not disturb the reading: it returns
every batch of the range once and in the order of the stream.
-/

namespace HashStorm.Transport

open Contracts Machine RangePages

/-- The id of the entries of a millisecond, ordered by their sequence numbers. -/
def messageId (milliseconds sequence : Nat) : Nat := milliseconds * 2 ^ 64 + sequence

/-- `ToUnixTimeMilliseconds` of a time since 1970. -/
def toUnixTimeMilliseconds (time : DateTime) : Nat := time / 10000 - 62135596800000

/-- The first `minId` of `ReadRangePagesAsync`. -/
def minId (fromUtc : DateTime) : Start Nat := .at (messageId (toUnixTimeMilliseconds fromUtc) 0)

/-- The `maxId` of `ReadRangePagesAsync`. -/
def maxId (toUtc : DateTime) : Nat := messageId (toUnixTimeMilliseconds toUtc) 9999

/-- The size of the pages. -/
def pageSize (count : Nat) : Nat := max 1 count

/-- `ReadRangePagesAsync` before its first page. -/
def readRangePages (fromUtc : DateTime) : Reader StreamEntry Nat := ⟨[], some (minId fromUtc)⟩

/-- One step of the stream and of `ReadRangePagesAsync`. -/
def rangeStep (toUtc : DateTime) (count : Nat) :
    List StreamEntry × Reader StreamEntry Nat → RangePages.Op StreamEntry →
      Option (List StreamEntry × Reader StreamEntry Nat) :=
  RangePages.step StreamEntry.id (maxId toUtc) (pageSize count)

/-- The entry was added between the times, and is none of those that the last millisecond has
beyond the sequence number 9999. -/
def InRange (fromUtc toUtc : DateTime) (e : StreamEntry) : Prop :=
  toUnixTimeMilliseconds fromUtc ≤ e.id / 2 ^ 64 ∧
    (e.id / 2 ^ 64 < toUnixTimeMilliseconds toUtc ∨
      e.id / 2 ^ 64 = toUnixTimeMilliseconds toUtc ∧ e.id % 2 ^ 64 ≤ 9999)

instance (fromUtc toUtc : DateTime) : DecidablePred (InRange fromUtc toUtc) :=
  fun _ => inferInstanceAs (Decidable (_ ∧ _))

theorem admits_minId {fromUtc : DateTime} {id : Nat} :
    (minId fromUtc).admits id = true ↔ messageId (toUnixTimeMilliseconds fromUtc) 0 ≤ id := by
  simp only [minId, Start.admits, decide_eq_true_eq]

theorem inRange_iff {fromUtc toUtc : DateTime} {e : StreamEntry} :
    InRange fromUtc toUtc e ↔ (minId fromUtc).admits e.id = true ∧ e.id ≤ maxId toUtc := by
  simp only [InRange, minId, maxId, messageId, Start.admits, decide_eq_true_eq]
  omega

theorem pageSize_pos (count : Nat) : 0 < pageSize count := by
  rw [pageSize]
  omega

variable {β : Type*} (deserialize : String → Option β)

/-- The batches of several pages are those of each of them. -/
theorem mapEntries_append (page rest : List StreamEntry) :
    mapEntries deserialize (page ++ rest) =
      mapEntries deserialize page ++ mapEntries deserialize rest := by
  simp [mapEntries]

/-- **A range is read once and in order while entries are added.** At the end of the pages their
batches are those of the entries of the range that the stream has at the last page, and the pages
come to an end once no more entries are added. -/
theorem range_pages_exact {entries : List StreamEntry} (hsorted : entries.Pairwise (·.id < ·.id))
    {fromUtc toUtc : DateTime} {count : Nat} {ops : List (RangePages.Op StreamEntry)}
    {s : List StreamEntry × Reader StreamEntry Nat}
    (hrun : run (rangeStep toUtc count) (entries, readRangePages fromUtc) ops = some s) :
    (s.2.start = none → ∃ seen, entries <+: seen ∧ seen <+: s.1 ∧
      mapEntries deserialize s.2.read =
        mapEntries deserialize (seen.filter (InRange fromUtc toUtc ·))) ∧
    ∃ n s', run (rangeStep toUtc count) s (List.replicate n .next) = some s' ∧
      s'.2.start = none := by
  have hsize := pageSize_pos count
  refine ⟨fun hdone => ?_, ?_⟩
  · obtain ⟨seen, hentries, hseen, hread⟩ := run_finished hsize hsorted hrun hdone
    have hrange : (seen.filter fun e => (minId fromUtc).admits e.id && e.id ≤ maxId toUtc) =
        seen.filter (InRange fromUtc toUtc ·) := by
      refine List.filter_congr fun e _ => ?_
      rw [Bool.eq_iff_iff, decide_eq_true_iff, inRange_iff, Bool.and_eq_true, decide_eq_true_iff]
    exact ⟨seen, hentries, hseen, by rw [hread, hrange]⟩
  · have hinv := run_preserves (Inv StreamEntry.id entries (minId fromUtc) (maxId toUtc))
      (fun _ _ _ h => h.step hsize) (inv_initial hsorted) hrun
    obtain ⟨n, hn⟩ := exists_finished hsize hinv.sorted (maxId toUtc) s.2
    have hpages : ∀ n (r : Reader StreamEntry Nat),
        run (rangeStep toUtc count) (s.1, r) (List.replicate n .next) =
          some (s.1, (Reader.next StreamEntry.id s.1 (maxId toUtc) (pageSize count))^[n] r) := by
      intro n
      induction n with
      | zero => exact fun r => rfl
      | succ n ih => exact fun r => ih _
    exact ⟨n, _, hpages n s.2, hn⟩

/-- An entry of the first second of 1970. -/
def entryAt (milliseconds sequence : Nat) : StreamEntry :=
  ⟨messageId milliseconds sequence, [("payload", "batch")]⟩

/-- The pages have one entry each, and two entries are added behind the first page: one in the
last millisecond of the range, and one behind it. -/
theorem range_pages_added :
    ∃ s, run (rangeStep 621355968000050000 1)
        ([entryAt 3 0, entryAt 4 0], readRangePages 621355968000040000)
        [.next, .add (entryAt 5 9999), .add (entryAt 5 10000), .next, .next] = some s ∧
      ∃ seen, [entryAt 3 0, entryAt 4 0] <+: seen ∧ seen <+: s.1 ∧
        mapEntries some s.2.read =
          mapEntries some (seen.filter (InRange 621355968000040000 621355968000050000 ·)) := by
  have hrun : ∃ s ∈ run (rangeStep 621355968000050000 1)
      ([entryAt 3 0, entryAt 4 0], readRangePages 621355968000040000)
      [.next, .add (entryAt 5 9999), .add (entryAt 5 10000), .next, .next],
      s.2.start = none := by
    decide +kernel
  obtain ⟨s, hs, hdone⟩ := hrun
  exact ⟨s, hs, (range_pages_exact some (by decide +kernel) hs).1 hdone⟩

end HashStorm.Transport
