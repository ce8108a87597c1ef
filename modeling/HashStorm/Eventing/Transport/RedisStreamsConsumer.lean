import Mathlib.Data.List.Basic
import Mathlib.Logic.Relation
import Mathlib.Tactic.Linarith

/-!
# Reading from a Redis stream

`ReadPendingFirstAsync` reads the first entries that are pending for the consumer,
or else claims stale entries of the group, or else reads new ones. Each of the
three takes a number of entries first and drops the ones without a batch
afterwards; these are never acknowledged, so that a decodable entry that stands
behind enough of them is not returned.
-/

namespace HashStorm.Transport

/-- A stream entry with its fields. -/
structure StreamEntry where
  id : Nat
  values : List (String × String)
  deriving DecidableEq, Repr

/-- An entry in the pending list of the group: whether this consumer owns it, and whether it
has been idle long enough to be claimed. -/
structure Pending where
  entry : StreamEntry
  own : Bool
  stale : Bool
  deriving DecidableEq, Repr

/-- The pending list of a consumer group, and the entries that were not delivered yet, both in
the order of the ids. -/
structure Group where
  pending : List Pending
  undelivered : List StreamEntry
  deriving DecidableEq, Repr

/-- `RedisShareEventBatchRecord`. -/
structure RedisShareEventBatchRecord (β : Type*) where
  messageId : Nat
  batch : Option β

variable {β : Type*} (deserialize : String → Option β)

/-- `MapEntry`: a missing or an empty payload has no batch, and neither has the JSON `null`. -/
def mapEntry (e : StreamEntry) : RedisShareEventBatchRecord β :=
  ⟨e.id, match e.values.find? (·.1 = "payload") with
    | none => none
    | some (_, payload) => if payload = "" then none else deserialize payload⟩

/-- The entry has a batch. -/
def Decodable (e : StreamEntry) : Prop := (mapEntry deserialize e).batch.isSome = true

instance : DecidablePred (Decodable deserialize) :=
  fun _ => inferInstanceAs (Decidable (_ = true))

/-- The records that have a batch. -/
def mapEntries (entries : List StreamEntry) : List (RedisShareEventBatchRecord β) :=
  (entries.map (mapEntry deserialize)).filter (·.batch.isSome)

/-- Apply a function to the first `n` elements with a property. -/
def updateFirst {α : Type*} (p : α → Bool) (f : α → α) : Nat → List α → List α
  | 0, l => l
  | _, [] => []
  | n + 1, a :: l => if p a then f a :: updateFirst p f n l else a :: updateFirst p f (n + 1) l

namespace Group

/-- The entries that are pending for this consumer. -/
def ownPending (g : Group) : List StreamEntry := (g.pending.filter Pending.own).map Pending.entry

/-- `XREADGROUP` from the id `0`: the first entries that are pending for this consumer. They are
delivered again, so that they are not idle any more. -/
def readOwn (g : Group) (count : Nat) : List StreamEntry × Group :=
  (g.ownPending.take count,
    { g with pending := updateFirst Pending.own ({ · with stale := false }) count g.pending })

/-- `XAUTOCLAIM` from the id `0-0`: the first stale entries among ten times as many pending
ones. -/
def autoClaim (g : Group) (count : Nat) : List StreamEntry × Group :=
  let scanned := g.pending.take (10 * count)
  (((scanned.filter Pending.stale).take count).map Pending.entry,
    { g with
      pending := updateFirst Pending.stale ({ · with own := true, stale := false }) count scanned ++
        g.pending.drop (10 * count) })

/-- `XREADGROUP` from the id `>`. -/
def readNew (g : Group) (count : Nat) : List StreamEntry × Group :=
  (g.undelivered.take count,
    { pending := g.pending ++ (g.undelivered.take count).map (⟨·, true, false⟩)
      undelivered := g.undelivered.drop count })

/-- The pending records of `ReadPendingFirstAsync`: those of `ReadOwnPendingAsync`, or else those
of `AutoClaimStalePendingAsync`. -/
def readPending (g : Group) (count : Nat) : List (RedisShareEventBatchRecord β) × Group :=
  let (entries, g) := g.readOwn count
  let ownPending := mapEntries deserialize entries
  if ownPending.isEmpty then
    let (entries, g) := g.autoClaim count
    (mapEntries deserialize entries, g)
  else (ownPending, g)

/-- `ReadPendingFirstAsync`. -/
def readPendingFirst (g : Group) (count : Nat) : List (RedisShareEventBatchRecord β) × Group :=
  let (pending, g) := g.readPending deserialize count
  if pending.isEmpty then
    let (entries, g) := g.readNew count
    (mapEntries deserialize entries, g)
  else (pending, g)

/-- `AcknowledgeAsync`. -/
def acknowledge (g : Group) (ids : List Nat) : Group :=
  { g with pending := g.pending.filter (·.entry.id ∉ ids) }

/-- One round of `DbWriterService`: the records are read, persisted and acknowledged. -/
def round (g : Group) (count : Nat) : Group :=
  let (records, g) := g.readPendingFirst deserialize count
  g.acknowledge (records.map (·.messageId))

/-- No decodable entry is left that is pending for this consumer, stale or not delivered. -/
def Exhausted (g : Group) : Prop :=
  (∀ p ∈ g.pending, p.own = true ∨ p.stale = true → ¬Decodable deserialize p.entry) ∧
    ∀ e ∈ g.undelivered, ¬Decodable deserialize e

/-- The rounds that lead from one state to another, as long as something is returned. -/
def Reached (count : Nat) : Group → Group → Prop :=
  Relation.ReflTransGen fun g g' =>
    (g.readPendingFirst deserialize count).1 ≠ [] ∧ g' = g.round deserialize count

/-- No decodable entry stands behind undecodable ones where it is not looked for: one is among
the first own entries or among the ones that are claimed, or no own entry is decodable and one is
among the first new ones, unless none is left at all. -/
def Clear (g : Group) (count : Nat) : Prop :=
  (∃ e ∈ (g.readOwn count).1, Decodable deserialize e) ∨
    (∃ e ∈ ((g.readOwn count).2.autoClaim count).1, Decodable deserialize e) ∨
    (∀ e ∈ g.ownPending, ¬Decodable deserialize e) ∧
      ((∃ e ∈ g.undelivered.take count, Decodable deserialize e) ∨ g.Exhausted deserialize)

end Group

section UpdateFirst

variable {α γ : Type*} {p : α → Bool} {f : α → α}

/-- What the function keeps of an element is kept in the whole list. -/
theorem map_updateFirst {proj : α → γ} (h : ∀ a, proj (f a) = proj a) (n : Nat) (l : List α) :
    (updateFirst p f n l).map proj = l.map proj := by
  induction l generalizing n with
  | nil => cases n <;> rfl
  | cons a l ih =>
    cases n with
    | zero => rfl
    | succ n =>
      unfold updateFirst
      split
      · rw [List.map_cons, List.map_cons, h, ih]
      · rw [List.map_cons, List.map_cons, ih]

/-- A property that the function keeps holds of all elements before and after. -/
theorem forall_updateFirst {Q : α → Prop} (h : ∀ a, p a = true → (Q (f a) ↔ Q a)) (n : Nat)
    (l : List α) : (∀ a ∈ updateFirst p f n l, Q a) ↔ ∀ a ∈ l, Q a := by
  induction l generalizing n with
  | nil => cases n <;> rfl
  | cons a l ih =>
    cases n with
    | zero => rfl
    | succ n =>
      unfold updateFirst
      split
      · rename_i ha
        rw [List.forall_mem_cons, List.forall_mem_cons, ih, h a ha]
      · rw [List.forall_mem_cons, List.forall_mem_cons, ih]

end UpdateFirst

section Reads

variable {deserialize} {g : Group} {count : Nat}

theorem mapEntries_ne_nil_iff {entries : List StreamEntry} :
    mapEntries deserialize entries ≠ [] ↔ ∃ e ∈ entries, Decodable deserialize e := by
  simp [mapEntries, List.filter_eq_nil_iff, Decodable, Option.isSome_iff_ne_none]

/-- The entries of a group that are not acknowledged. -/
def Group.entries (g : Group) : List StreamEntry := g.pending.map Pending.entry ++ g.undelivered

namespace Group

theorem entries_readOwn : (g.readOwn count).2.entries = g.entries := by
  simp only [entries, readOwn]
  rw [map_updateFirst]
  exact fun _ => rfl

theorem entries_autoClaim : (g.autoClaim count).2.entries = g.entries := by
  simp only [entries, autoClaim]
  rw [List.map_append, map_updateFirst, ← List.map_append, List.take_append_drop]
  exact fun _ => rfl

theorem entries_readNew : (g.readNew count).2.entries = g.entries := by
  simp [entries, readNew, Function.comp_def]

/-- The records that are returned come from one of the three reads. -/
theorem exists_readPendingFirst_eq (deserialize : String → Option β) (g : Group) (count : Nat) :
    ∃ read : List StreamEntry × Group,
      g.readPendingFirst deserialize count = (mapEntries deserialize read.1, read.2) ∧
      (read = g.readOwn count ∨ read = (g.readOwn count).2.autoClaim count ∨
        read = ((g.readOwn count).2.autoClaim count).2.readNew count) := by
  simp only [readPendingFirst, readPending]
  by_cases hown : (mapEntries deserialize (g.readOwn count).1).isEmpty = true
  · by_cases hclaimed : (mapEntries deserialize
        ((g.readOwn count).2.autoClaim count).1).isEmpty = true
    · exact ⟨_, by simp only [hown, hclaimed, if_true], Or.inr (Or.inr rfl)⟩
    · exact ⟨_, by simp only [hown, hclaimed, if_true, if_false, Bool.false_eq_true],
        Or.inr (Or.inl rfl)⟩
  · exact ⟨_, by simp only [hown, if_false, Bool.false_eq_true], Or.inl rfl⟩

/-- What is read stays in the pending list. -/
theorem entries_readPendingFirst (deserialize : String → Option β) (g : Group) (count : Nat) :
    (g.readPendingFirst deserialize count).2.entries = g.entries := by
  obtain ⟨read, hread, rfl | rfl | rfl⟩ := exists_readPendingFirst_eq deserialize g count
  · rw [hread, entries_readOwn]
  · rw [hread, entries_autoClaim, entries_readOwn]
  · rw [hread, entries_readNew, entries_autoClaim, entries_readOwn]

/-- Pending records are returned when one of the first own entries or of the claimed ones is
decodable. -/
theorem readPending_ne_nil_iff : (g.readPending deserialize count).1 ≠ [] ↔
    (∃ e ∈ (g.readOwn count).1, Decodable deserialize e) ∨
      ∃ e ∈ ((g.readOwn count).2.autoClaim count).1, Decodable deserialize e := by
  simp only [readPending, ← mapEntries_ne_nil_iff]
  split
  · rename_i hempty
    rw [List.isEmpty_iff] at hempty
    simp [hempty]
  · rename_i hempty
    rw [List.isEmpty_iff] at hempty
    simp [hempty]

theorem readPendingFirst_ne_nil_iff : (g.readPendingFirst deserialize count).1 ≠ [] ↔
    (g.readPending deserialize count).1 ≠ [] ∨
      ∃ e ∈ ((g.readPending deserialize count).2.readNew count).1, Decodable deserialize e := by
  simp only [readPendingFirst, ← mapEntries_ne_nil_iff]
  split
  · rename_i hempty
    rw [List.isEmpty_iff] at hempty
    simp [hempty]
  · rename_i hempty
    rw [List.isEmpty_iff] at hempty
    simp [hempty]

theorem undelivered_readPending :
    (g.readPending deserialize count).2.undelivered = g.undelivered := by
  simp only [readPending]
  split <;> rfl

theorem exhausted_readOwn :
    (g.readOwn count).2.Exhausted deserialize ↔ g.Exhausted deserialize := by
  rw [Exhausted, readOwn, forall_updateFirst, Exhausted]
  intro p hp
  simp [hp]

theorem exhausted_autoClaim :
    (g.autoClaim count).2.Exhausted deserialize ↔ g.Exhausted deserialize := by
  simp only [Exhausted, autoClaim, List.forall_mem_append]
  rw [forall_updateFirst, ← List.forall_mem_append, List.take_append_drop]
  intro p hp
  simp [hp]

theorem exhausted_readNew :
    (g.readNew count).2.Exhausted deserialize ↔ g.Exhausted deserialize := by
  have hsplit : (∀ e ∈ g.undelivered, ¬Decodable deserialize e) ↔
      (∀ e ∈ g.undelivered.take count, ¬Decodable deserialize e) ∧
        ∀ e ∈ g.undelivered.drop count, ¬Decodable deserialize e := by
    rw [← List.forall_mem_append, List.take_append_drop]
  simp only [Exhausted, readNew, List.forall_mem_append, List.forall_mem_map, true_or,
    forall_const, hsplit, and_assoc]

/-- A read takes nothing away. -/
theorem exhausted_readPendingFirst :
    (g.readPendingFirst deserialize count).2.Exhausted deserialize ↔ g.Exhausted deserialize := by
  obtain ⟨read, hread, rfl | rfl | rfl⟩ := exists_readPendingFirst_eq deserialize g count
  · rw [hread, exhausted_readOwn]
  · rw [hread, exhausted_autoClaim, exhausted_readOwn]
  · rw [hread, exhausted_readNew, exhausted_autoClaim, exhausted_readOwn]

/-- The property of a read: it returns a pending record when one of the own entries is
decodable, and when it returns nothing, no decodable entry is left. -/
def Progresses (deserialize : String → Option β) (count : Nat) (g : Group) : Prop :=
  ((∃ e ∈ g.ownPending, Decodable deserialize e) → (g.readPending deserialize count).1 ≠ []) ∧
    ((g.readPendingFirst deserialize count).1 = [] →
      (g.readPendingFirst deserialize count).2.Exhausted deserialize)

theorem progresses_iff_clear : g.Progresses deserialize count ↔ g.Clear deserialize count := by
  have hnew : ((g.readPending deserialize count).2.readNew count).1 = g.undelivered.take count := by
    rw [readNew, undelivered_readPending]
  rw [Progresses, Clear, exhausted_readPendingFirst, ← or_assoc, ← readPending_ne_nil_iff]
  by_cases hpending : (g.readPending deserialize count).1 = []
  · have hread : (g.readPendingFirst deserialize count).1 = [] ↔
        ¬∃ e ∈ g.undelivered.take count, Decodable deserialize e := by
      rw [← not_iff_not, ← ne_eq, readPendingFirst_ne_nil_iff, hnew]
      simp [hpending]
    simp only [hpending, hread, ne_eq, not_true_eq_false, imp_false, false_or, not_exists, not_and]
    refine and_congr_right fun _ => ?_
    rw [or_iff_not_imp_left]
    simp only [not_exists, not_and]
  · have hread : (g.readPendingFirst deserialize count).1 ≠ [] :=
      readPendingFirst_ne_nil_iff.mpr (Or.inl hpending)
    simp [hpending, hread]

end Group

end Reads

section Rounds

variable {deserialize} {g g' : Group} {count : Nat}

theorem mem_mapEntries {entries : List StreamEntry} {r : RedisShareEventBatchRecord β}
    (h : r ∈ mapEntries deserialize entries) :
    ∃ e ∈ entries, Decodable deserialize e ∧ e.id = r.messageId := by
  obtain ⟨hr, hbatch⟩ := List.mem_filter.mp h
  obtain ⟨e, he, rfl⟩ := List.mem_map.mp hr
  exact ⟨e, he, hbatch, rfl⟩

namespace Group

theorem readOwn_subset : (g.readOwn count).1 ⊆ (g.readOwn count).2.pending.map Pending.entry := by
  simp only [readOwn]
  rw [map_updateFirst]
  · intro e he
    obtain ⟨p, hp, rfl⟩ := List.mem_map.mp (List.mem_of_mem_take he)
    exact List.mem_map_of_mem (List.mem_filter.mp hp).1
  · exact fun _ => rfl

theorem autoClaim_subset :
    (g.autoClaim count).1 ⊆ (g.autoClaim count).2.pending.map Pending.entry := by
  intro e he
  simp only [autoClaim] at he ⊢
  rw [List.map_append, map_updateFirst, ← List.map_append, List.take_append_drop]
  · obtain ⟨p, hp, rfl⟩ := List.mem_map.mp he
    exact List.mem_map_of_mem
      (List.mem_of_mem_take (List.mem_filter.mp (List.mem_of_mem_take hp)).1)
  · exact fun _ => rfl

theorem readNew_subset : (g.readNew count).1 ⊆ (g.readNew count).2.pending.map Pending.entry := by
  intro e he
  simp only [readNew, List.map_append, List.map_map] at he ⊢
  exact List.mem_append_right _ (by simpa [Function.comp_def] using he)

/-- A returned record is pending, and decodable. -/
theorem exists_pending_of_mem {r : RedisShareEventBatchRecord β}
    (h : r ∈ (g.readPendingFirst deserialize count).1) :
    ∃ e ∈ (g.readPendingFirst deserialize count).2.pending.map Pending.entry,
      Decodable deserialize e ∧ e.id = r.messageId := by
  obtain ⟨read, hread, hcases⟩ := exists_readPendingFirst_eq deserialize g count
  rw [hread] at h ⊢
  obtain ⟨e, he, hdecodable⟩ := mem_mapEntries h
  refine ⟨e, ?_, hdecodable⟩
  rcases hcases with rfl | rfl | rfl
  · exact readOwn_subset he
  · exact autoClaim_subset he
  · exact readNew_subset he

/-- Acknowledging removes entries. -/
theorem entries_acknowledge (ids : List Nat) : (g.acknowledge ids).entries =
    (g.pending.map Pending.entry).filter (·.id ∉ ids) ++ g.undelivered := by
  rw [entries, acknowledge, List.filter_map]
  rfl

/-- A round that returns something leaves fewer decodable entries. -/
theorem countP_round (h : (g.readPendingFirst deserialize count).1 ≠ []) :
    (g.round deserialize count).entries.countP (Decodable deserialize ·) <
      g.entries.countP (Decodable deserialize ·) := by
  obtain ⟨r, hr⟩ := List.exists_mem_of_ne_nil _ h
  obtain ⟨e, he, hdecodable, hid⟩ := exists_pending_of_mem hr
  rw [← entries_readPendingFirst deserialize g count]
  simp only [round]
  rw [entries_acknowledge, entries, List.countP_append, List.countP_append]
  refine Nat.add_lt_add_right ?_ _
  rw [List.countP_eq_length_filter, List.countP_eq_length_filter, List.filter_comm]
  refine List.length_filter_lt_length_iff_exists.mpr ⟨e, ?_, ?_⟩
  · exact List.mem_filter.mpr ⟨he, by simpa using hdecodable⟩
  · simp only [decide_eq_true_eq, not_not]
    rw [hid]
    exact List.mem_map_of_mem hr

/-- The rounds come to an end. -/
theorem exists_reached_nil (deserialize : String → Option β) (g : Group) (count : Nat) :
    ∃ t, Reached deserialize count g t ∧ (t.readPendingFirst deserialize count).1 = [] := by
  -- every round takes decodable entries away
  induction hn : g.entries.countP (Decodable deserialize ·) using Nat.strong_induction_on
    generalizing g with
  | _ n ih =>
    by_cases hread : (g.readPendingFirst deserialize count).1 = []
    · exact ⟨g, Relation.ReflTransGen.refl, hread⟩
    · obtain ⟨t, ht, hend⟩ := ih _ (hn ▸ countP_round hread) (g.round deserialize count) rfl
      exact ⟨t, Relation.ReflTransGen.head ⟨hread, rfl⟩ ht, hend⟩

/-- Other consumers hold stale entries only, and fewer than `count` entries are undecodable. -/
structure FewUndecodable (deserialize : String → Option β) (count : Nat) (g : Group) : Prop where
  claimable : ∀ p ∈ g.pending, p.own = true ∨ p.stale = true
  few : g.entries.countP (¬Decodable deserialize ·) < count

theorem FewUndecodable.readOwn (h : g.FewUndecodable deserialize count) :
    (g.readOwn count).2.FewUndecodable deserialize count := by
  refine ⟨(forall_updateFirst ?_ _ _).mpr h.claimable, by rw [entries_readOwn]; exact h.few⟩
  intro p hp
  simp [hp]

theorem FewUndecodable.autoClaim (h : g.FewUndecodable deserialize count) :
    (g.autoClaim count).2.FewUndecodable deserialize count := by
  refine ⟨?_, by rw [entries_autoClaim]; exact h.few⟩
  simp only [Group.autoClaim, List.forall_mem_append]
  rw [forall_updateFirst, ← List.forall_mem_append, List.take_append_drop]
  · exact h.claimable
  · intro p hp
    simp [hp]

theorem FewUndecodable.readNew (h : g.FewUndecodable deserialize count) :
    (g.readNew count).2.FewUndecodable deserialize count := by
  refine ⟨?_, by rw [entries_readNew]; exact h.few⟩
  simp only [Group.readNew, List.forall_mem_append, List.forall_mem_map]
  exact ⟨h.claimable, fun _ _ => Or.inl trivial⟩

theorem FewUndecodable.acknowledge (h : g.FewUndecodable deserialize count) (ids : List Nat) :
    (g.acknowledge ids).FewUndecodable deserialize count := by
  refine ⟨fun p hp => h.claimable p (List.mem_filter.mp hp).1, lt_of_le_of_lt ?_ h.few⟩
  rw [entries_acknowledge, entries]
  exact (List.filter_sublist.append_right _).countP_le

theorem FewUndecodable.round (h : g.FewUndecodable deserialize count) :
    (g.round deserialize count).FewUndecodable deserialize count := by
  obtain ⟨read, hread, hcases⟩ := exists_readPendingFirst_eq deserialize g count
  simp only [Group.round, hread]
  refine FewUndecodable.acknowledge ?_ _
  rcases hcases with rfl | rfl | rfl
  · exact h.readOwn
  · exact h.readOwn.autoClaim
  · exact h.readOwn.autoClaim.readNew

/-- Fewer than `n` undecodable entries do not fill the first `n` places. -/
theorem exists_decodable_take {l : List StreamEntry} {n : Nat}
    (hfew : l.countP (¬Decodable deserialize ·) < n) (h : ∃ e ∈ l, Decodable deserialize e) :
    ∃ e ∈ l.take n, Decodable deserialize e := by
  by_contra hnone
  push Not at hnone
  have hall : (l.take n).countP (¬Decodable deserialize ·) = (l.take n).length :=
    List.countP_eq_length.mpr fun e he => by simpa using hnone e he
  have hle := (List.take_sublist n l).countP_le (p := (¬Decodable deserialize ·))
  rw [hall, List.length_take] at hle
  obtain ⟨e, he, hdecodable⟩ := h
  rw [List.take_of_length_le (by omega)] at hnone
  exact hnone e he hdecodable

/-- Stale entries that are decodable are claimed, when no own entry is decodable. -/
theorem FewUndecodable.exists_claimed (h : g.FewUndecodable deserialize count)
    (hown : ∀ p ∈ g.pending, p.own = true → ¬Decodable deserialize p.entry)
    (hstale : ∃ p ∈ g.pending, p.stale = true ∧ Decodable deserialize p.entry) :
    ∃ e ∈ (g.autoClaim count).1, Decodable deserialize e := by
  have hpending : (g.pending.map Pending.entry).countP (¬Decodable deserialize ·) < count := by
    have hfew := h.few
    rw [entries, List.countP_append] at hfew
    omega
  have hscanned : ((g.pending.take (10 * count)).map Pending.entry).countP
      (¬Decodable deserialize ·) < count :=
    lt_of_le_of_lt ((List.take_sublist _ _).map _).countP_le hpending
  simp only [Group.autoClaim, List.map_take]
  refine exists_decodable_take
    (lt_of_le_of_lt (List.filter_sublist.map _).countP_le hscanned) ?_
  by_contra hnone
  push Not at hnone
  have hundecodable : ∀ p ∈ g.pending.take (10 * count), ¬Decodable deserialize p.entry := by
    intro p hp
    rcases h.claimable p (List.mem_of_mem_take hp) with howned | hidle
    · exact hown p (List.mem_of_mem_take hp) howned
    · exact hnone _ (List.mem_map_of_mem (List.mem_filter.mpr ⟨hp, hidle⟩))
  have hall : ((g.pending.take (10 * count)).map Pending.entry).countP
      (¬Decodable deserialize ·) = (g.pending.take (10 * count)).length := by
    rw [← List.length_map (f := Pending.entry), List.countP_eq_length]
    intro e he
    obtain ⟨p, hp, rfl⟩ := List.mem_map.mp he
    simpa using hundecodable p hp
  -- the scan sees the whole list, since it is shorter than the limit
  rw [hall, List.length_take] at hscanned
  obtain ⟨p, hp, -, hdecodable⟩ := hstale
  exact hundecodable p (by rwa [List.take_of_length_le (by omega)]) hdecodable

theorem FewUndecodable.clear (h : g.FewUndecodable deserialize count) :
    g.Clear deserialize count := by
  have hentries : ∀ l : List StreamEntry, l.Sublist g.entries →
      l.countP (¬Decodable deserialize ·) < count :=
    fun l hl => lt_of_le_of_lt hl.countP_le h.few
  by_cases hown : ∃ e ∈ g.ownPending, Decodable deserialize e
  · refine Or.inl (exists_decodable_take (hentries _ ?_) hown)
    exact (List.filter_sublist.map _).trans (List.sublist_append_left _ _)
  · push Not at hown
    have hownRead : ∀ p ∈ (g.readOwn count).2.pending, p.own = true →
        ¬Decodable deserialize p.entry := by
      refine (forall_updateFirst ?_ _ _).mpr fun p hp howned =>
        hown _ (List.mem_map_of_mem (List.mem_filter.mpr ⟨hp, howned⟩))
      intro p hp
      simp [hp]
    refine Or.inr ?_
    by_cases hstale : ∃ p ∈ (g.readOwn count).2.pending,
        p.stale = true ∧ Decodable deserialize p.entry
    · exact Or.inl (h.readOwn.exists_claimed hownRead hstale)
    · refine Or.inr ⟨hown, ?_⟩
      by_cases hnew : ∃ e ∈ g.undelivered, Decodable deserialize e
      · exact Or.inl (exists_decodable_take (hentries _ (List.sublist_append_right _ _)) hnew)
      · push Not at hstale hnew
        have hexhausted : (g.readOwn count).2.Exhausted deserialize := by
          refine ⟨?_, hnew⟩
          rintro p hp (howned | hidle)
          · exact hownRead p hp howned
          · exact hstale p hp hidle
        exact Or.inr (exhausted_readOwn.mp hexhausted)

/-- Fewer than `count` undecodable entries never stand in the way. -/
theorem FewUndecodable.clear_of_reached (h : g.FewUndecodable deserialize count) {t : Group}
    (ht : Reached deserialize count g t) : t.Clear deserialize count := by
  have hfew : t.FewUndecodable deserialize count := by
    induction ht with
    | refl => exact h
    | tail _ hstep ih =>
      obtain ⟨-, rfl⟩ := hstep
      exact ih.round
  exact hfew.clear

/-- A JSON conversion that tells the `null` from a batch. -/
def nullOrBatch (text : String) : Option Unit := if text = "null" then none else some ()

/-- An undecodable entry and a decodable one are pending for the consumer. -/
def behindNull : Group :=
  ⟨[⟨⟨1, [("payload", "null")]⟩, true, false⟩, ⟨⟨2, [("payload", "\x7b\x7d")]⟩, true, false⟩], []⟩

end Group

end Rounds

end HashStorm.Transport
