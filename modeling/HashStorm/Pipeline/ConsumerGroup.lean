import HashStorm.Eventing.Transport.RedisStreamsConsumer
import Mathlib.Data.List.Pairwise

/-!
# A stream and its consumer group

The stream keeps all entries that were added to it; the pool core never trims it.
Its group starts at the first entry, and every pending entry has the consumer
that received it last as its owner. One read of a consumer is the read of
`ReadPendingFirstAsync` on the group as this consumer sees it.
-/

namespace HashStorm.Transport

/-- An entry in the pending list of the group, with the consumer that owns it. -/
structure Owned where
  entry : StreamEntry
  owner : String
  deriving DecidableEq, Repr

/-- A stream with one consumer group, created from the id `0-0`. -/
structure Stream where
  entries : List StreamEntry
  pending : List Owned
  undelivered : List StreamEntry
  deriving DecidableEq, Repr

namespace Stream

/-- No entry was added yet. -/
def empty : Stream := ⟨[], [], []⟩

/-- The entries that are not acknowledged. -/
def unacknowledged (s : Stream) : List StreamEntry := s.pending.map Owned.entry ++ s.undelivered

/-- `XADD` with the id that the server chose; ids increase. -/
def add (s : Stream) (id : Nat) (payload : String) : Option Stream :=
  let e : StreamEntry := ⟨id, [("payload", payload)]⟩
  if s.entries.all (·.id < id) then
    some { s with entries := s.entries ++ [e], undelivered := s.undelivered ++ [e] }
  else none

/-- The group as a consumer sees it; the entries with the given ids are stale. -/
def view (s : Stream) (name : String) (stale : List Nat) : Group where
  pending := s.pending.map fun p => ⟨p.entry, p.owner == name, stale.contains p.entry.id⟩
  undelivered := s.undelivered

/-- The owners after a read: what the consumer holds now is its own. -/
def afterRead (s : Stream) (name : String) (g : Group) : Stream :=
  { s with
    pending := g.pending.mapIdx fun i p =>
      ⟨p.entry, if p.own then name else (s.pending.map Owned.owner).getD i name⟩
    undelivered := g.undelivered }

variable {β : Type*} (deserialize : String → Option β)

/-- `ReadPendingFirstAsync` of a consumer. -/
def readPendingFirst (s : Stream) (name : String) (stale : List Nat) (count : Nat) :
    List (RedisShareEventBatchRecord β) × Stream :=
  let (records, g) := (s.view name stale).readPendingFirst deserialize count
  (records, s.afterRead name g)

/-- `AcknowledgeAsync` of one message. -/
def acknowledge (s : Stream) (id : Nat) : Stream :=
  { s with pending := s.pending.filter (·.entry.id != id) }

variable {deserialize} {s : Stream}

section Entries

theorem add_eq_some {id : Nat} {payload : String} {s' : Stream} (h : s.add id payload = some s') :
    (∀ e ∈ s.entries, e.id < id) ∧
      s'.entries = s.entries ++ [⟨id, [("payload", payload)]⟩] ∧
      s'.unacknowledged = s.unacknowledged ++ [⟨id, [("payload", payload)]⟩] := by
  simp only [add, Option.ite_none_right_eq_some, List.all_eq_true, decide_eq_true_eq,
    Option.some.injEq] at h
  obtain ⟨hlt, rfl⟩ := h
  exact ⟨hlt, rfl, by simp [unacknowledged]⟩

theorem entries_view (name : String) (stale : List Nat) :
    (s.view name stale).entries = s.unacknowledged := by
  simp [Group.entries, view, unacknowledged, Function.comp_def]

theorem entries_afterRead (name : String) (g : Group) : (s.afterRead name g).entries = s.entries :=
  rfl

theorem unacknowledged_afterRead (name : String) (g : Group) :
    (s.afterRead name g).unacknowledged = g.entries := by
  have hmap : ∀ (l : List Pending) (f : Nat → Pending → String),
      (l.mapIdx fun i p => (⟨p.entry, f i p⟩ : Owned)).map Owned.entry = l.map Pending.entry := by
    intro l f
    refine List.ext_getElem (by simp) fun i _ _ => ?_
    simp
  simp only [unacknowledged, afterRead, Group.entries]
  rw [hmap]

/-- A read acknowledges nothing. -/
theorem unacknowledged_readPendingFirst (s : Stream) (deserialize : String → Option β)
    (name : String) (stale : List Nat) (count : Nat) :
    (s.readPendingFirst deserialize name stale count).2.unacknowledged = s.unacknowledged := by
  simp only [readPendingFirst]
  rw [unacknowledged_afterRead, Group.entries_readPendingFirst, entries_view]

theorem entries_readPendingFirst (name : String) (stale : List Nat) (count : Nat) :
    (s.readPendingFirst deserialize name stale count).2.entries = s.entries := rfl

theorem mem_acknowledge {e : StreamEntry} {id : Nat} (he : e ∈ s.unacknowledged)
    (hid : e.id ≠ id) : e ∈ (s.acknowledge id).unacknowledged := by
  simp only [unacknowledged, List.mem_append, List.mem_map] at he
  rcases he with ⟨p, hp, rfl⟩ | he
  · refine List.mem_append_left _ (List.mem_map_of_mem (List.mem_filter.mpr ⟨hp, ?_⟩))
    simpa using hid
  · exact List.mem_append_right _ he

theorem acknowledge_sublist (id : Nat) :
    (s.acknowledge id).unacknowledged.Sublist s.unacknowledged :=
  (List.filter_sublist.map Owned.entry).append_right _

/-- A record that is read is a pending entry with its batch. -/
theorem exists_entry_of_mem {name : String} {stale : List Nat} {count : Nat}
    {r : RedisShareEventBatchRecord β}
    (h : r ∈ (s.readPendingFirst deserialize name stale count).1) :
    ∃ e, (∃ p ∈ (s.readPendingFirst deserialize name stale count).2.pending, p.entry = e) ∧
      Decodable deserialize e ∧ r = mapEntry deserialize e := by
  obtain ⟨read, hread, hcases⟩ :=
    Group.exists_readPendingFirst_eq deserialize (s.view name stale) count
  simp only [readPendingFirst] at h ⊢
  rw [hread] at h ⊢
  simp only at h ⊢
  obtain ⟨hr, hbatch⟩ := List.mem_filter.mp h
  obtain ⟨e, he, rfl⟩ := List.mem_map.mp hr
  have hpending : e ∈ read.2.pending.map Pending.entry := by
    rcases hcases with rfl | rfl | rfl
    · exact Group.readOwn_subset he
    · exact Group.autoClaim_subset he
    · exact Group.readNew_subset he
  obtain ⟨p, hp, rfl⟩ := List.mem_map.mp hpending
  obtain ⟨i, hi, rfl⟩ := List.getElem_of_mem hp
  refine ⟨_, ⟨_, List.mem_mapIdx.mpr ⟨i, hi, rfl⟩, rfl⟩, hbatch, rfl⟩

end Entries

end Stream

end HashStorm.Transport
