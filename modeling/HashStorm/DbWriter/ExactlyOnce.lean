import HashStorm.DbWriter.Persistence

/-!
# One effect for every event id

The tables are described by a list of effects: the events that were inserted,
each with the times its transaction saw. The invariant says that the committed
tables are the effects of events with pairwise different ids, that every open
transaction has prepared effects with ids nobody else has, and that every id
which a committed transaction carried has its effect.
-/

namespace HashStorm.DbWriter

open Contracts Machine

/-- An event that a transaction has inserted. -/
structure Effect where
  event : ShareEvent
  id : String
  messageId : String
  now : DateTime
  utcNow : DateTime

/-- The rows an inserted event has in the four tables. -/
def Effect.rows (streamName : String) (v : Effect) : Tables where
  processed := [⟨v.id, streamName, v.messageId, consumerGroup, v.now⟩]
  shareEvents := [shareEventRow v.event v.now]
  shares := if isPersistibleShare v.event then [map v.event v.utcNow] else []
  blocks := if v.event.eventType = .blockCandidate then [mapPendingBlock v.event] else []

/-- The tables hold the rows of the effects and nothing else. -/
structure Reflects (streamName : String) (t : Tables) (effects : List Effect) : Prop where
  processed : t.processed = effects.map fun v =>
    ⟨v.id, streamName, v.messageId, consumerGroup, v.now⟩
  shareEvents : t.shareEvents = effects.map fun v => shareEventRow v.event v.now
  shares : t.shares = (effects.filter fun v => isPersistibleShare v.event).map
    fun v => map v.event v.utcNow
  blocks : t.blocks = (effects.filter fun v => v.event.eventType = .blockCandidate).map
    fun v => mapPendingBlock v.event
  eventId : ∀ v ∈ effects, v.event.eventId = some v.id

variable {streamName : String} {t u : Tables} {effects own : List Effect}

theorem tables_append (t u : Tables) : t ++ u = ⟨t.processed ++ u.processed,
    t.shareEvents ++ u.shareEvents, t.shares ++ u.shares, t.blocks ++ u.blocks⟩ := rfl

theorem Reflects.nil : Reflects streamName {} [] := by
  constructor <;> simp

theorem Reflects.singleton {v : Effect} (h : v.event.eventId = some v.id) :
    Reflects streamName (v.rows streamName) [v] := by
  refine ⟨rfl, rfl, ?_, ?_, by simpa using h⟩
  · by_cases hp : isPersistibleShare v.event <;> simp [Effect.rows, hp]
  · by_cases hb : v.event.eventType = .blockCandidate <;> simp [Effect.rows, hb]

theorem Reflects.append (h : Reflects streamName t effects) (h' : Reflects streamName u own) :
    Reflects streamName (t ++ u) (effects ++ own) := by
  refine ⟨?_, ?_, ?_, ?_, ?_⟩
  · rw [List.map_append, ← h.processed, ← h'.processed]
    rfl
  · rw [List.map_append, ← h.shareEvents, ← h'.shareEvents]
    rfl
  · rw [List.filter_append, List.map_append, ← h.shares, ← h'.shares]
    rfl
  · rw [List.filter_append, List.map_append, ← h.blocks, ← h'.blocks]
    rfl
  · intro v hv
    exact (List.mem_append.mp hv).elim (h.eventId v) (h'.eventId v)

theorem Reflects.ids (h : Reflects streamName t effects) : t.ids = effects.map Effect.id := by
  simp [Tables.ids, h.processed, Function.comp_def]

/-- The two keyed tables have the same keys. -/
theorem Reflects.shareEvents_eventId (h : Reflects streamName t effects) :
    t.shareEvents.map ShareEventRow.eventId = (effects.map Effect.id).map some := by
  rw [h.shareEvents, List.map_map, List.map_map]
  exact List.map_congr_left h.eventId

/-- What the loop body does: the event is skipped because its id is known, or all
its rows are written under an id that nobody has. -/
theorem persistEvent_cases {committed : Tables} {held : List String} {tx : Transaction}
    {e : ShareEvent} {utcNow : DateTime} {rows : Tables}
    (hc : Reflects streamName committed effects) (ho : Reflects streamName tx.rows own)
    (h : persistEvent streamName committed held tx e utcNow = some rows) :
    ∃ id, e.eventId = some id ∧
      ((rows = tx.rows ∧ id ∈ (effects ++ own).map Effect.id) ∨
        (id ∉ (effects ++ own).map Effect.id ∧ id ∉ held ∧
          Reflects streamName rows
            (own ++ [⟨e, id, tx.record.messageId, tx.now, utcNow⟩]))) := by
  have hids : committed.ids ++ tx.rows.ids = (effects ++ own).map Effect.id := by
    rw [hc.ids, ho.ids, List.map_append]
  unfold persistEvent at h
  split at h
  · cases h
  · rename_i id hid
    refine ⟨id, hid, ?_⟩
    rw [hids] at h
    by_cases hnew : id ∈ (effects ++ own).map Effect.id
    · rw [if_pos hnew] at h
      cases h
      exact Or.inl ⟨rfl, hnew⟩
    · by_cases hheld : id ∈ held
      · rw [if_neg hnew, if_pos hheld] at h
        cases h
      · rw [if_neg hnew, if_neg hheld] at h
        refine Or.inr ⟨hnew, hheld, ?_⟩
        simp only [Option.bind_eq_some_iff] at h
        obtain ⟨logged, hlogged, shared, hshared, hblocks⟩ := h
        -- the key of `share_events` is free because that of the processed events was
        have hfree : e.eventId ∉
            (committed.shareEvents ++ tx.rows.shareEvents).map ShareEventRow.eventId := by
          rw [List.map_append, hc.shareEvents_eventId, ho.shareEvents_eventId, ← List.map_append,
            ← List.map_append, hid]
          simpa using hnew
        simp only [insertShareEvent, if_neg hfree, Option.ite_none_left_eq_some,
          Option.some.injEq] at hlogged
        obtain ⟨_, hlogged⟩ := hlogged
        subst hlogged
        have hrows : rows = tx.rows ++
            Effect.rows streamName ⟨e, id, tx.record.messageId, tx.now, utcNow⟩ := by
          by_cases hp : isPersistibleShare e <;> by_cases hb : e.eventType = .blockCandidate <;>
            simp only [hp, hb, if_true, if_false, Bool.false_eq_true, insertShare,
              insertPendingBlock, Option.some.injEq, Option.ite_none_left_eq_some]
              at hshared hblocks
          · rw [← hblocks.2, ← hshared.2, tables_append]
            simp [Effect.rows, hp, hb, processedRow]
          · rw [← hblocks, ← hshared.2, tables_append]
            simp [Effect.rows, hp, hb, processedRow]
          · rw [← hblocks.2, ← hshared, tables_append]
            simp [Effect.rows, hp, hb, processedRow]
          · rw [← hblocks, ← hshared, tables_append]
            simp [Effect.rows, hp, hb, processedRow]
        rw [hrows]
        exact ho.append (Reflects.singleton hid)

section Invariant

/-- An open transaction has prepared effects of its own events under ids of its
own, and every event it is through with has an effect. -/
def Transaction.Agrees (streamName : String) (effects : List Effect) (tx : Transaction) : Prop :=
  ∃ own, Reflects streamName tx.rows own ∧ (∀ v ∈ own, v.event ∈ tx.record.events) ∧
    ((effects ++ own).map Effect.id).Nodup ∧
    ∃ done, tx.record.events = done ++ tx.remaining ∧
      ∀ e ∈ done, ∃ v ∈ effects ++ own, e.eventId = some v.id

/-- Where the consumer stands agrees with the database. -/
def Consumer.Agrees (streamName : String) (effects : List Effect) (committed : List ShareEvent) :
    Consumer → Prop
  | .idle => True
  | .persisting tx => tx.Agrees streamName effects
  | .persisted record => ∀ e ∈ record.events, e ∈ committed

/-- The effects describe the committed tables and all consumers. -/
structure Inv (streamName : String) (s : State) (effects : List Effect) : Prop where
  tables : Reflects streamName s.tables effects
  nodup : (effects.map Effect.id).Nodup
  carried : ∀ v ∈ effects, v.event ∈ s.committed
  complete : ∀ e ∈ s.committed, ∃ v ∈ effects, e.eventId = some v.id
  agrees : ∀ (c : Nat) (x : Consumer), s.consumers[c]? = some x → x.Agrees streamName effects s.committed
  /-- No key is held twice. -/
  disjoint : ∀ (c d : Nat) (x y : Consumer), c ≠ d → s.consumers[c]? = some x →
    s.consumers[d]? = some y → ∀ id ∈ x.held, id ∉ y.held
  acknowledged : ∀ r ∈ s.acknowledged, ∀ e ∈ r.events, e ∈ s.committed

variable {s : State} {c : Nat}

theorem mem_heldBy {consumers : List Consumer} {id : String} :
    id ∈ heldBy consumers c ↔ ∃ (d : Nat) (x : Consumer), d ≠ c ∧ consumers[d]? = some x ∧
      id ∈ x.held := by
  simp only [heldBy, List.mem_flatMap, List.mem_filter, Prod.exists, bne_iff_ne, ne_eq,
    List.mem_zipIdx_iff_getElem?]
  constructor
  · rintro ⟨x, d, ⟨hx, hd⟩, hid⟩
    exact ⟨d, x, hd, hx, hid⟩
  · rintro ⟨d, x, hd, hx, hid⟩
    exact ⟨x, d, ⟨hx, hd⟩, hid⟩

/-- Every other consumer stands where it stood. -/
theorem getElem?_set_cases {consumers : List Consumer} {x y : Consumer} {d : Nat}
    (h : (consumers.set c x)[d]? = some y) :
    (d = c ∧ y = x) ∨ (d ≠ c ∧ consumers[d]? = some y) := by
  rw [List.getElem?_set] at h
  split at h
  · split at h
    · cases h
      exact Or.inl ⟨(‹c = d›).symm, rfl⟩
    · cases h
  · exact Or.inr ⟨fun hd => ‹¬c = d› hd.symm, h⟩

theorem inv_initial (n : Nat) : Inv streamName (State.initial n) [] where
  tables := Reflects.nil
  nodup := List.nodup_nil
  carried := by simp
  complete := by simp [State.initial]
  agrees := by
    intro c x hx
    rw [(List.mem_replicate.mp (List.mem_of_getElem? hx)).2]
    trivial
  disjoint := by
    intro c d x y _ hx _ id hid
    rw [(List.mem_replicate.mp (List.mem_of_getElem? hx)).2] at hid
    cases hid
  acknowledged := by simp [State.initial]

/-- A consumer moves on without touching the database. -/
theorem Inv.move (h : Inv streamName s effects) {x : Consumer}
    (hx : x.Agrees streamName effects s.committed)
    (hheld : ∀ (d : Nat) (y : Consumer), d ≠ c → s.consumers[d]? = some y →
      ∀ id ∈ x.held, id ∉ y.held) :
    Inv streamName { s with consumers := s.consumers.set c x } effects := by
  refine ⟨h.tables, h.nodup, h.carried, h.complete, ?_, ?_, h.acknowledged⟩
  · intro d y hy
    rcases getElem?_set_cases hy with ⟨_, rfl⟩ | ⟨_, hy⟩
    · exact hx
    · exact h.agrees d y hy
  · intro d d' y y' hne hy hy' id hid
    rcases getElem?_set_cases hy with ⟨hd, hyx⟩ | ⟨hd, hold⟩
    · rcases getElem?_set_cases hy' with ⟨hd', _⟩ | ⟨hd', hold'⟩
      · exact absurd (hd.trans hd'.symm) hne
      · exact hheld d' y' hd' hold' id (hyx ▸ hid)
    · rcases getElem?_set_cases hy' with ⟨_, hyx'⟩ | ⟨_, hold'⟩
      · exact fun hid' => hheld d y hd hold id (hyx' ▸ hid') hid
      · exact h.disjoint d d' y y' hne hold hold' id hid

/-- A transaction begins with nothing prepared. -/
theorem Inv.start (h : Inv streamName s effects) (record : StreamRecord) (now : DateTime) :
    (Consumer.start record now).Agrees streamName effects s.committed ∧
      (Consumer.start record now).held = [] := by
  cases hb : record.batch with
  | none =>
    simp only [Consumer.start, hb]
    refine ⟨?_, rfl⟩
    intro e he
    simp [StreamRecord.events, hb] at he
  | some events =>
    simp only [Consumer.start, hb]
    refine ⟨⟨[], Reflects.nil, by simp, by simpa using h.nodup, [], ?_, by simp⟩, rfl⟩
    simp [StreamRecord.events, hb]

/-- A transaction goes on to its next event. -/
theorem Inv.persist (h : Inv streamName s effects) {tx : Transaction} {e : ShareEvent}
    {rest : List ShareEvent} {utcNow : DateTime} {rows : Tables}
    (hc : s.consumers[c]? = some (.persisting tx)) (hrem : tx.remaining = e :: rest)
    (hrows : persistEvent streamName s.tables (heldBy s.consumers c) tx e utcNow = some rows) :
    Inv streamName
      { s with
        consumers :=
          s.consumers.set c (.persisting { tx with remaining := rest, rows := rows }) }
      effects := by
  obtain ⟨own, hown, hevents, hnodup, done, hsplit, hdone⟩ := h.agrees c _ hc
  have hsplit' : tx.record.events = (done ++ [e]) ++ rest := by
    rw [hsplit, hrem]
    simp
  have he : e ∈ tx.record.events := by
    rw [hsplit']
    simp
  obtain ⟨id, hid, ⟨rfl, hknown⟩ | ⟨hnew, hfree, hreflects⟩⟩ :=
    persistEvent_cases h.tables hown hrows
  · obtain ⟨v, hv, hvid⟩ := List.mem_map.mp hknown
    refine h.move ⟨own, hown, hevents, hnodup, done ++ [e], hsplit', ?_⟩ ?_
    · intro e' he'
      rcases List.mem_append.mp he' with he' | he'
      · exact hdone e' he'
      · rw [List.mem_singleton.mp he']
        exact ⟨v, hv, by rw [hvid, hid]⟩
    · intro d y hd hy
      exact h.disjoint c d (.persisting tx) y hd.symm hc hy
  · refine h.move ⟨_, hreflects, ?_, ?_, done ++ [e], hsplit', ?_⟩ ?_
    · intro v hv
      rcases List.mem_append.mp hv with hv | hv
      · exact hevents v hv
      · rw [List.mem_singleton.mp hv]
        exact he
    · rw [← List.append_assoc, List.map_append, List.map_singleton]
      exact hnodup.append (List.nodup_singleton id) (by simpa using hnew)
    · intro e' he'
      rcases List.mem_append.mp he' with he' | he'
      · obtain ⟨v, hv, hvid⟩ := hdone e' he'
        refine ⟨v, ?_, hvid⟩
        rw [← List.append_assoc]
        exact List.mem_append_left _ hv
      · rw [List.mem_singleton.mp he']
        exact ⟨⟨e, id, tx.record.messageId, tx.now, utcNow⟩, by simp, hid⟩
    · intro d y hd hy id' hid'
      simp only [Consumer.held] at hid'
      rw [hreflects.ids, List.map_append, List.mem_append] at hid'
      rcases hid' with hid' | hid'
      · rw [← hown.ids] at hid'
        exact h.disjoint c d _ y hd.symm hc hy id' hid'
      · rw [List.map_singleton, List.mem_singleton] at hid'
        rw [hid']
        exact fun hmem => hfree (mem_heldBy.mpr ⟨d, y, hd, hy, hmem⟩)

/-- The rows of a transaction become visible at once. -/
theorem Inv.commit (h : Inv streamName s effects) {tx : Transaction}
    (hc : s.consumers[c]? = some (.persisting tx)) (hrem : tx.remaining = []) :
    ∃ effects', Inv streamName
      { s with
        tables := s.tables ++ tx.rows
        consumers := s.consumers.set c (.persisted tx.record)
        committed := s.committed ++ tx.record.events }
      effects' := by
  obtain ⟨own, hown, hevents, hnodup, done, hsplit, hdone⟩ := h.agrees c _ hc
  rw [hrem, List.append_nil] at hsplit
  refine ⟨effects ++ own, h.tables.append hown, hnodup, ?_, ?_, ?_, ?_, ?_⟩
  · intro v hv
    rcases List.mem_append.mp hv with hv | hv
    · exact List.mem_append_left _ (h.carried v hv)
    · exact List.mem_append_right _ (hevents v hv)
  · intro e he
    rcases List.mem_append.mp he with he | he
    · obtain ⟨v, hv, hvid⟩ := h.complete e he
      exact ⟨v, List.mem_append_left _ hv, hvid⟩
    · exact hdone e (hsplit ▸ he)
  · intro d y hy
    rcases getElem?_set_cases hy with ⟨_, rfl⟩ | ⟨hd, hy⟩
    · exact fun e he => List.mem_append_right _ he
    · have hagrees := h.agrees d y hy
      cases y with
      | idle => trivial
      | persisted record => exact fun e he => List.mem_append_left _ (hagrees e he)
      | persisting tx' =>
        obtain ⟨own', hown', hevents', hnodup', done', hsplit', hdone'⟩ := hagrees
        refine ⟨own', hown', hevents', ?_, done', hsplit', fun e he => ?_⟩
        · -- the other transaction holds none of the keys that were just committed
          rw [List.map_append] at hnodup' ⊢
          refine hnodup.append (List.Nodup.of_append_right hnodup') ?_
          intro id hid hid'
          rw [List.map_append] at hid
          rcases List.mem_append.mp hid with hid | hid
          · exact (List.nodup_append'.mp hnodup').2.2 hid hid'
          · rw [← hown.ids] at hid
            rw [← hown'.ids] at hid'
            exact h.disjoint c d _ _ hd.symm hc hy id hid hid'
        · obtain ⟨v, hv, hvid⟩ := hdone' e he
          refine ⟨v, ?_, hvid⟩
          rcases List.mem_append.mp hv with hv | hv
          · exact List.mem_append_left _ (List.mem_append_left _ hv)
          · exact List.mem_append_right _ hv
  · intro d d' y y' hne hy hy' id hid
    rcases getElem?_set_cases hy with ⟨_, hyx⟩ | ⟨_, hold⟩
    · rw [hyx] at hid
      cases hid
    · rcases getElem?_set_cases hy' with ⟨_, hyx'⟩ | ⟨_, hold'⟩
      · rw [hyx']
        exact List.not_mem_nil
      · exact h.disjoint d d' y y' hne hold hold' id hid
  · intro r hr e he
    exact List.mem_append_left _ (h.acknowledged r hr e he)

/-- Every step of every consumer keeps the invariant. -/
theorem Inv.step (h : Inv streamName s effects) {label : Nat × Op} {s' : State}
    (hstep : step streamName s label = some s') :
    ∃ effects', Inv streamName s' effects' := by
  obtain ⟨c, op⟩ := label
  have hidle : Inv streamName { s with consumers := s.consumers.set c .idle } effects :=
    h.move trivial (fun d y _ _ id hid => by cases hid)
  simp only [DbWriter.step] at hstep
  split at hstep
  · rename_i record now _
    cases hstep
    obtain ⟨hagrees, hheld⟩ := h.start record now
    exact ⟨effects, h.move hagrees (fun d y _ _ id hid => by rw [hheld] at hid; cases hid)⟩
  · rename_i tx utcNow hc
    split at hstep
    · cases hstep
    · rename_i e rest hrem
      rw [Option.map_eq_some_iff] at hstep
      obtain ⟨rows, hrows, rfl⟩ := hstep
      exact ⟨effects, h.persist hc hrem hrows⟩
  · rename_i tx hc
    split at hstep
    · cases hstep
      exact h.commit hc ‹_›
    · cases hstep
  · rename_i record hc
    cases hstep
    refine ⟨effects, hidle.tables, hidle.nodup, hidle.carried, hidle.complete, hidle.agrees,
      hidle.disjoint, ?_⟩
    exact List.forall_mem_cons.mpr ⟨h.agrees c _ hc, h.acknowledged⟩
  · cases hstep
    exact ⟨effects, hidle⟩
  · cases hstep

end Invariant

section Rows

/-- The effect of an event, if it has one. -/
def findEffect (effects : List Effect) (e : ShareEvent) : Option Effect :=
  effects.find? fun v => v.event = e

/-- Under pairwise different ids an event has at most one effect. -/
theorem findEffect_of_mem {v : Effect} (h : Reflects streamName t effects)
    (hnodup : (effects.map Effect.id).Nodup) (hv : v ∈ effects) :
    findEffect effects v.event = some v := by
  cases hf : findEffect effects v.event with
  | none =>
    have := List.find?_eq_none.mp hf v hv
    simp at this
  | some w =>
    have hw := List.mem_of_find?_eq_some hf
    have hevent : w.event = v.event := by simpa using List.find?_some hf
    have hid : w.id = v.id := by
      have := h.eventId w hw
      rw [hevent, h.eventId v hv, Option.some.injEq] at this
      exact this.symm
    rw [List.inj_on_of_nodup_map hnodup hw hv hid]

theorem nodup_events (h : Reflects streamName t effects)
    (hnodup : (effects.map Effect.id).Nodup) : (effects.map Effect.event).Nodup := by
  have hids : (effects.map Effect.event).map ShareEvent.eventId =
      (effects.map Effect.id).map some := by
    rw [List.map_map, List.map_map]
    exact List.map_congr_left h.eventId
  refine List.Nodup.of_map ShareEvent.eventId ?_
  rw [hids]
  exact hnodup.map (Option.some_injective String)

end Rows

/-- Some effects describe every reachable state. -/
theorem exists_inv {consumers : Nat} {labels : List (Nat × Op)} {s : State}
    (hrun : run (step streamName) (State.initial consumers) labels = some s) :
    ∃ effects, Inv streamName s effects := by
  refine run_preserves (fun s => ∃ effects, Inv streamName s effects) ?_
    ⟨[], inv_initial consumers⟩ hrun
  rintro t label t' ⟨effects, h⟩ hstep
  exact h.step hstep

/-- Whatever the schedule, the tables hold the effects of one event for every event
id that a committed transaction carried: its `share_events` row, its `shares` row
if it is a persistible share, its `blocks` row if it is a block candidate. Only the
insertion time, and the creation time that replaces a missing one, depend on the
schedule. -/
theorem one_effect_per_eventId (consumers : Nat) (labels : List (Nat × Op)) (s : State)
    (hrun : run (step streamName) (State.initial consumers) labels = some s) :
    ∃ (events : Finset ShareEvent) (insertedAt utcNow : ShareEvent → DateTime),
      events ⊆ s.committed.toFinset ∧
      Set.InjOn ShareEvent.eventId events ∧
      events.image ShareEvent.eventId = s.committed.toFinset.image ShareEvent.eventId ∧
      (Set.InjOn ShareEvent.eventId s.committed.toFinset → events = s.committed.toFinset) ∧
      (s.tables.shareEvents : Multiset ShareEventRow) =
        events.val.map (fun e => shareEventRow e (insertedAt e)) ∧
      (s.tables.shares : Multiset PersistedShare) =
        (events.filter fun e => isPersistibleShare e).val.map (fun e => map e (utcNow e)) ∧
      (s.tables.blocks : Multiset PendingBlockInsert) =
        (events.filter fun e => e.eventType = .blockCandidate).val.map mapPendingBlock := by
  obtain ⟨effects, h⟩ := exists_inv hrun
  have hevents := nodup_events h.tables h.nodup
  have hval : (effects.map Effect.event).toFinset.val =
      ((effects.map Effect.event : List ShareEvent) : Multiset ShareEvent) := by
    rw [List.toFinset_val, hevents.dedup]
  have hfind : ∀ v ∈ effects, findEffect effects v.event = some v := fun v hv =>
    findEffect_of_mem h.tables h.nodup hv
  have hsubset : (effects.map Effect.event).toFinset ⊆ s.committed.toFinset := by
    intro e he
    obtain ⟨v, hv, rfl⟩ := List.mem_map.mp (List.mem_toFinset.mp he)
    exact List.mem_toFinset.mpr (h.carried v hv)
  have hcomplete : ∀ e ∈ s.committed, ∃ e' ∈ (effects.map Effect.event).toFinset,
      e'.eventId = e.eventId := by
    intro e he
    obtain ⟨v, hv, hid⟩ := h.complete e he
    exact ⟨v.event, List.mem_toFinset.mpr (List.mem_map_of_mem hv),
      by rw [hid, h.tables.eventId v hv]⟩
  refine ⟨(effects.map Effect.event).toFinset,
    fun e => ((findEffect effects e).map Effect.now).getD 0,
    fun e => ((findEffect effects e).map Effect.utcNow).getD 0, hsubset, ?_, ?_, ?_, ?_, ?_, ?_⟩
  · intro e he e' he' hid
    obtain ⟨v, hv, rfl⟩ := List.mem_map.mp (List.mem_toFinset.mp he)
    obtain ⟨w, hw, rfl⟩ := List.mem_map.mp (List.mem_toFinset.mp he')
    rw [h.tables.eventId v hv, h.tables.eventId w hw, Option.some.injEq] at hid
    rw [List.inj_on_of_nodup_map h.nodup hv hw hid]
  · refine Finset.Subset.antisymm (Finset.image_subset_image hsubset) ?_
    intro id hid
    obtain ⟨e, he, rfl⟩ := Finset.mem_image.mp hid
    obtain ⟨e', he', heq⟩ := hcomplete e (List.mem_toFinset.mp he)
    exact Finset.mem_image.mpr ⟨e', he', heq⟩
  · intro hinj
    refine Finset.Subset.antisymm hsubset ?_
    intro e he
    obtain ⟨e', he', heq⟩ := hcomplete e (List.mem_toFinset.mp he)
    rwa [← hinj (hsubset he') he heq]
  · rw [hval, h.tables.shareEvents, Multiset.map_coe, List.map_map]
    congr 1
    refine List.map_congr_left fun v hv => ?_
    simp [hfind v hv]
  · rw [Finset.filter_val, hval, h.tables.shares, Multiset.filter_coe, Multiset.map_coe,
      List.filter_map, List.map_map]
    simp only [Function.comp_def, Bool.decide_eq_true]
    congr 1
    refine List.map_congr_left fun v hv => ?_
    simp [hfind v (List.mem_of_mem_filter hv)]
  · rw [Finset.filter_val, hval, h.tables.blocks, Multiset.filter_coe, Multiset.map_coe,
      List.filter_map, List.map_map]
    rfl

/-- A record is acknowledged only after all its events are in the database. -/
theorem acknowledged_committed {consumers : Nat} {labels : List (Nat × Op)} {s : State}
    (hrun : run (step streamName) (State.initial consumers) labels = some s) :
    ∀ r ∈ s.acknowledged, ∀ e ∈ r.events, e ∈ s.committed := by
  obtain ⟨effects, h⟩ := exists_inv hrun
  exact h.acknowledged

/-- An accepted share, created at the given time. -/
def acceptedShare (created : DateTime) : ShareEvent where
  eventId := some "a"
  eventType := .shareAccepted
  created := created

/-- A record with one accepted share. -/
def singleShare (created : DateTime) : StreamRecord := ⟨"1-0", some [acceptedShare created]⟩

/-- The first consumer dies behind its commit; the record is delivered to a second
one, which acknowledges it. -/
def redelivery : List (Nat × Op) :=
  [(0, .deliver (singleShare 7) 8), (0, .persist 8), (0, .commit), (0, .crash),
    (1, .deliver (singleShare 7) 9), (1, .persist 9), (1, .commit), (1, .acknowledge)]

theorem redelivery_has_one_effect : ∃ s,
    run (step "shares") (State.initial 2) redelivery = some s ∧
      ∃ utcNow : ShareEvent → DateTime, (s.tables.shares : Multiset PersistedShare) =
        (s.committed.toFinset.filter fun e => isPersistibleShare e).val.map
          (fun e => map e (utcNow e)) := by
  have hcommitted : ((run (step "shares") (State.initial 2) redelivery).map fun s =>
      s.committed) = some ((singleShare 7).events ++ (singleShare 7).events) := by
    decide +kernel
  obtain ⟨s, hs, hc⟩ := Option.map_eq_some_iff.mp hcommitted
  obtain ⟨events, _, utcNow, _, _, _, hall, _, hshares, _⟩ :=
    one_effect_per_eventId 2 redelivery s hs
  refine ⟨s, hs, utcNow, ?_⟩
  have hinj : Set.InjOn ShareEvent.eventId s.committed.toFinset := by
    rw [hc]
    intro e he e' he' _
    have hmem : ∀ x ∈ ((singleShare 7).events ++ (singleShare 7).events).toFinset,
        x = acceptedShare 7 := by
      intro x hx
      simpa [singleShare, StreamRecord.events] using hx
    rw [hmem e he, hmem e' he']
  rw [hshares, hall hinj]

/-- Two schedules that carry the same event: in the second one the consumer dies
before its first commit. -/
def promptly : List (Nat × Op) := [(0, .deliver (singleShare 0) 1), (0, .persist 1), (0, .commit)]

/-- The same record, persisted only by its redelivery. -/
def belatedly : List (Nat × Op) :=
  [(0, .deliver (singleShare 0) 1), (0, .persist 1), (0, .crash),
    (0, .deliver (singleShare 0) 2), (0, .persist 2), (0, .commit)]

/-- The `shares` row of an event without creation time depends on the schedule. -/
theorem shares_depend_on_schedule : ∃ s₁ s₂,
    run (step "shares") (State.initial 1) promptly = some s₁ ∧
      run (step "shares") (State.initial 1) belatedly = some s₂ ∧
      s₁.committed = s₂.committed ∧
      (s₁.tables.shares : Multiset PersistedShare) ≠ s₂.tables.shares := by
  have h₁ : ((run (step "shares") (State.initial 1) promptly).map fun s =>
      (s.committed, s.tables.shares.map PersistedShare.created)) =
        some ((singleShare 0).events, [1]) := by
    decide +kernel
  have h₂ : ((run (step "shares") (State.initial 1) belatedly).map fun s =>
      (s.committed, s.tables.shares.map PersistedShare.created)) =
        some ((singleShare 0).events, [2]) := by
    decide +kernel
  obtain ⟨s₁, hs₁, heq₁⟩ := Option.map_eq_some_iff.mp h₁
  obtain ⟨s₂, hs₂, heq₂⟩ := Option.map_eq_some_iff.mp h₂
  obtain ⟨hc₁, hr₁⟩ := Prod.mk.inj heq₁
  obtain ⟨hc₂, hr₂⟩ := Prod.mk.inj heq₂
  refine ⟨s₁, s₂, hs₁, hs₂, hc₁.trans hc₂.symm, fun h => ?_⟩
  have := congrArg (Multiset.map PersistedShare.created) h
  rw [Multiset.map_coe, Multiset.map_coe, hr₁, hr₂] at this
  simp at this

end HashStorm.DbWriter
