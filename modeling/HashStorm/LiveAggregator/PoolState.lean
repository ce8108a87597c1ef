import HashStorm.LiveAggregator.WrittenEvents

/-!
# The counters of a cleared pool

`ClearPoolStateAsync` deletes all keys of a pool: its counters and the marks of its
events. From then on the counters of the pool are those of the different events that
are written, whatever the store holds for other pools.
-/

namespace HashStorm.LiveAggregator

open Contracts Dictionary

/-- `DeleteKeysByPatternAsync` on a server that is connected. -/
def Store.deleteKeys (store : Store) (pattern : String) : Store where
  sets := store.sets.filter fun x => !globMatches pattern.toList x.1.toList
  scores := store.scores.filter fun x => !globMatches pattern.toList x.1.1.toList
  hashes := fun counter =>
    if globMatches pattern.toList counter.1.toList then 0 else store.hashes counter

variable (config : Config)

/-- `ClearPoolStateAsync`. -/
def clearPoolState (store : Store) (poolId : Option String) : Store :=
  if isNullOrWhiteSpace poolId then store
  else store.deleteKeys (clearPoolPattern config.unicode poolId)

/-- The event is one of the pool, or of another one with the same encoded name. -/
def OfPool (poolId : Option String) (e : ShareEvent) : Prop :=
  isNullOrWhiteSpace e.poolId = false ∧
    encode config.unicode e.poolId = encode config.unicode poolId

instance (poolId : Option String) : DecidablePred (OfPool config poolId) :=
  fun _ => inferInstanceAs (Decidable (_ ∧ _))

/-- The ids of the events identify them. -/
def Distinguished (events : List ShareEvent) : Prop :=
  ∀ e ∈ events, ∀ e' ∈ events, Identified e → e.eventId = e'.eventId → e = e'

/-- The marks and the counters of a pool are those of the events. -/
structure Counted (poolId : Option String) (events : List ShareEvent) (store : Store) : Prop where
  seen : ∀ e, OfPool config poolId e → Identified e →
    ((seenKey config e, e.eventId.getD "") ∈ store.sets ↔ ∃ e' ∈ events, SameMark config e' e)
  counters : ∀ key : LiveKey, encode config.unicode key.poolId = encode config.unicode poolId →
    ∀ field, store.hashes (key.name config.unicode, field) =
      contribution config (distinct events) (key.name config.unicode, field)

variable {config}

section Names

theorem encode_eq_of_encoded_eq {unicode : Char → Bool} {k k' : LiveKey}
    (h : k.encoded unicode = k'.encoded unicode) :
    encode unicode k.poolId = encode unicode k'.poolId := by
  cases k <;> cases k' <;> simp_all [LiveKey.encoded, LiveKey.poolId]

/-- The keys that `ClearPoolStateAsync` deletes are those of the pool. -/
theorem globMatches_clearPoolPattern {unicode : Char → Bool} {poolId : Option String}
    {k : LiveKey} :
    globMatches (clearPoolPattern unicode poolId).toList (k.name unicode).toList = true ↔
      encode unicode k.poolId = encode unicode poolId := by
  refine ⟨encode_eq_of_globMatches, fun hpool => ?_⟩
  have hliteral : ∀ literal rest : List Char, '*' ∉ literal →
      globMatches (literal ++ ['*']) (literal ++ rest) = true := by
    intro literal rest hstar
    induction literal with
    | nil =>
      refine List.any_eq_true.mpr ⟨[], ?_, rfl⟩
      exact (List.mem_tails _ _).mpr List.nil_suffix
    | cons c literal ih =>
      obtain ⟨hc, hliteral⟩ := not_or.mp (List.mem_cons.not.mp hstar)
      simp only [List.cons_append, globMatches, if_neg (Ne.symm hc), ih hliteral, decide_true,
        Bool.and_self]
  have hstar : '*' ∉ (poolPrefix unicode poolId).toList := by
    have hencode : '*' ∉ (encode unicode poolId).toList := not_mem_encode (by decide)
    simp only [poolPrefix_eq, String.toList_append, List.mem_append, not_or]
    exact ⟨⟨by decide, hencode⟩, by decide⟩
  obtain ⟨rest, hrest⟩ := k.exists_name_eq unicode
  have hprefix : poolPrefix unicode k.poolId = poolPrefix unicode poolId := by
    rw [poolPrefix_eq, poolPrefix_eq, hpool]
  rw [hrest, hprefix, clearPoolPattern, String.toList_append, String.toList_append]
  exact hliteral _ _ hstar

end Names

section Writing

variable {poolId : Option String} {events : List ShareEvent} {e : ShareEvent} {store : Store}

/-- An event is counted unless it is marked. -/
theorem hashes_writeEvent (store : Store) (e : ShareEvent) (counter : String × String) :
    (writeEvent config store e).hashes counter = store.hashes counter +
      if Identified e ∧ (seenKey config e, e.eventId.getD "") ∈ store.sets then 0
      else totalAt (increments config e) counter := by
  by_cases hpool : isNullOrWhiteSpace e.poolId
  · simp [LiveAggregator.writeEvent, hpool, increments, bucketKeys]
  · rw [Bool.not_eq_true] at hpool
    split
    · rename_i hseen
      have hid : isNullOrWhiteSpace e.eventId = false := hseen.1
      simp [LiveAggregator.writeEvent, hpool, hid, hseen.2]
    · rename_i hseen
      rw [writeEvent_eq hpool (not_and.mp hseen), foldl_exec_hashes,
        increment_eventCommands hpool]

/-- What an event marks. -/
theorem mark_mem_eventCommands_iff {e e' : ShareEvent} (hid : Identified e') :
    .setAdd (seenKey config e') (e'.eventId.getD "") ∈ eventCommands config e ↔
      SameMark config e e' := by
  rw [eventCommands]
  constructor
  · intro h
    split at h
    · cases h
    · rename_i hpool
      rcases List.mem_append.mp h with h | h
      · split at h
        · cases h
        · rename_i hmarked
          obtain ⟨hkey, hids⟩ := Command.setAdd.inj (List.mem_singleton.mp h)
          have hidentified : Identified e := by simpa [Identified] using hmarked
          exact ⟨by simpa using hpool, hkey.symm, hidentified.eventId_eq hid hids.symm⟩
      · exact absurd rfl (ne_seenKey_of_mem h e')
  · rintro ⟨hpool, hkey, hids⟩
    have hmarked : isNullOrWhiteSpace e.eventId = false := by rwa [hids]
    rw [hpool, hmarked, hkey, hids]
    simp

/-- The marks behind an event. -/
theorem mark_mem_writeEvent (store : Store) {e e' : ShareEvent} (hid : Identified e') :
    (seenKey config e', e'.eventId.getD "") ∈ (writeEvent config store e).sets ↔
      SameMark config e e' ∨ (seenKey config e', e'.eventId.getD "") ∈ store.sets := by
  by_cases hpool : isNullOrWhiteSpace e.poolId
  · simp [LiveAggregator.writeEvent, hpool, SameMark]
  · rw [Bool.not_eq_true] at hpool
    by_cases hseen : Identified e ∧ (seenKey config e, e.eventId.getD "") ∈ store.sets
    · have hmarked : isNullOrWhiteSpace e.eventId = false := hseen.1
      have hsame : writeEvent config store e = store := by
        simp [LiveAggregator.writeEvent, hpool, hmarked, hseen.2]
      rw [hsame]
      refine (or_iff_right_of_imp ?_).symm
      rintro ⟨-, hkey, hids⟩
      rw [← hkey, ← hids]
      exact hseen.2
    · rw [writeEvent_eq hpool (not_and.mp hseen), mem_foldl_exec_sets,
        mark_mem_eventCommands_iff hid, or_comm]

/-- The events that count in a bucket of the pool are its own. -/
theorem ofPool_of_mem_bucketNames {key : LiveKey}
    (hkey : encode config.unicode key.poolId = encode config.unicode poolId)
    (h : key.name config.unicode ∈ bucketNames config e) : OfPool config poolId e := by
  obtain ⟨k, hk, hname⟩ := List.mem_map.mp h
  have hpool := encode_eq_of_encoded_eq (LiveKey.name_eq_iff.mp hname)
  obtain ⟨hblank, hk⟩ : isNullOrWhiteSpace e.poolId = false ∧ k.poolId = e.poolId := by
    simp only [bucketKeys] at hk
    cases hblank : isNullOrWhiteSpace e.poolId
    · simp only [hblank, Bool.false_eq_true, if_false, List.mem_cons, List.mem_append,
        List.mem_ite_nil_left, List.not_mem_nil, or_false] at hk
      refine ⟨rfl, ?_⟩
      rcases hk with rfl | ⟨-, rfl⟩ | ⟨-, rfl⟩ <;> rfl
    · simp [hblank] at hk
  exact ⟨hblank, by rw [← hk, hpool, hkey]⟩

theorem Counted.writeEvent (h : Counted config poolId events store)
    (hids : Distinguished (e :: events)) :
    Counted config poolId (e :: events) (writeEvent config store e) where
  seen e' hpool hid := by
    rw [mark_mem_writeEvent store hid, h.seen e' hpool hid, List.exists_mem_cons_iff]
  counters key hkey field := by
    rw [hashes_writeEvent, h.counters key hkey field, add_comm]
    by_cases hname : key.name config.unicode ∈ bucketNames config e
    · have hpool := ofPool_of_mem_bucketNames hkey hname
      -- an event of the pool is marked exactly if it was written before
      have hmarked : Identified e →
          ((seenKey config e, e.eventId.getD "") ∈ store.sets ↔ e ∈ events) := by
        intro hid
        rw [h.seen e hpool hid]
        constructor
        · rintro ⟨e', he', -, -, hsame⟩
          rwa [hids e List.mem_cons_self e' (List.mem_cons_of_mem _ he') hid hsame.symm]
        · exact fun he => ⟨e, he, hpool.1, rfl, rfl⟩
      split
      · rename_i hseen
        rw [distinct_cons_of_mem hseen.1 ((hmarked hseen.1).mp hseen.2), zero_add]
      · rename_i hseen
        exact (contribution_distinct_cons fun hid he =>
          hseen ⟨hid, (hmarked hid).mpr he⟩).symm
    · have hzero : totalAt (increments config e) (key.name config.unicode, field) = 0 := by
        rw [totalAt_increments, if_neg hname]
      rw [hzero, ite_self, zero_add]
      by_cases hmem : Identified e ∧ e ∈ events
      · rw [distinct_cons_of_mem hmem.1 hmem.2]
      · rw [contribution_distinct_cons (not_and.mp hmem), hzero, zero_add]

theorem counted_clearPoolState (store : Store) (hpool : isNullOrWhiteSpace poolId = false) :
    Counted config poolId [] (clearPoolState config store poolId) := by
  rw [LiveAggregator.clearPoolState, hpool]
  constructor
  · intro e he _
    have hmatch : globMatches (clearPoolPattern config.unicode poolId).toList
        (seenKey config e).toList = true := globMatches_clearPoolPattern.mpr he.2
    simp [Store.deleteKeys, hmatch]
  · intro key hkey field
    simp [Store.deleteKeys, globMatches_clearPoolPattern.mpr hkey, contribution, distinct]

/-- Clearing another pool leaves nothing behind either. -/
theorem Counted.clearPoolState (h : Counted config poolId [] store) (other : Option String) :
    Counted config poolId [] (clearPoolState config store other) := by
  rw [LiveAggregator.clearPoolState]
  split
  · exact h
  · constructor
    · intro e he hid
      have hnone := (h.seen e he hid).not.mpr (by simp)
      simp [Store.deleteKeys, hnone]
    · intro key hkey field
      have hzero := h.counters key hkey field
      simp only [contribution, distinct, List.filter_nil, List.dedup_nil, List.append_nil,
        List.map_nil, List.sum_nil] at hzero ⊢
      simp [Store.deleteKeys, hzero]

end Writing

end HashStorm.LiveAggregator
