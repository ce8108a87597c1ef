import HashStorm.Eventing.Outbox.Publisher

/-!
# Appends behind a failed append

`AppendAsync` writes a record with three writes and takes nothing back when it
is interrupted. The writer goes on with the same stream: the next batches, or
during shutdown the same batch again, are written behind whatever the failed
call left. Reading and recovery both stop at the first record they cannot
decode, so the records behind a partly written one are out of reach unless they
went to a new segment.
-/

namespace HashStorm.Outbox

open Contracts Scan Machine

variable (codec : EventCodec) (segmentMaxBytes : Nat)

/-- Calls of `AppendAsync` that nothing from outside interrupts, one after the other. -/
def FileOutbox.appendCalls : FileOutbox → List (List ShareEvent × Bool) → Appended
  | o, [] => ⟨o, [], true⟩
  | o, (events, flushToDisk) :: calls =>
    let first := o.appendAsync codec segmentMaxBytes events flushToDisk none
    let rest := appendCalls first.outbox calls
    ⟨rest.outbox, first.placed ++ rest.placed, first.completed && rest.completed⟩

/-- The exception is raised between the first and the last write of one record:
every event up to this record passes the checks in front of the writes. -/
def StopsInside (events : List ShareEvent) (fault : Option (Nat × AppendPoint)) : Prop :=
  ∃ k point, fault = some (k, point) ∧ (point = .payload ∨ point = .checksum) ∧
    k < events.length ∧
    ∀ e ∈ events.take (k + 1), ¬(isNullOrWhiteSpace e.eventId ∨ ¬codec.Fits e)

/-- The records are yielded from the checkpoint, now and after a restart. -/
def Survive (o : FileOutbox) (cp : Checkpoint) (placed : List Record) : Prop :=
  (∀ r ∈ placed, r ∈ o.readFromCheckpointAsync codec cp) ∧
    ∃ o', o.reopen codec = some o' ∧ ∀ r ∈ placed, r ∈ o'.readFromCheckpointAsync codec cp

variable {codec segmentMaxBytes} {o : FileOutbox} {records : List Record}

section StopsInside

variable {e : ShareEvent} {es : List ShareEvent} {fault : Option (Nat × AppendPoint)}

theorem not_stopsInside_nil : ¬StopsInside codec [] fault := by
  rintro ⟨k, point, _, _, hk, _⟩
  exact absurd hk (Nat.not_lt_zero k)

theorem not_stopsInside_none {events : List ShareEvent} : ¬StopsInside codec events none := by
  rintro ⟨k, point, h, _⟩
  cases h

/-- A failed check precedes every write of the record. -/
theorem not_stopsInside_bad (h : isNullOrWhiteSpace e.eventId ∨ ¬codec.Fits e) :
    ¬StopsInside codec (e :: es) fault := by
  rintro ⟨k, point, _, _, _, hall⟩
  exact hall e (by simp) h

theorem stopsInside_here (h : ¬(isNullOrWhiteSpace e.eventId ∨ ¬codec.Fits e))
    {point : AppendPoint} (hfault : faultPoint fault = some point) :
    StopsInside codec (e :: es) fault ↔ point = .payload ∨ point = .checksum := by
  have heq : fault = some (0, point) := by
    unfold faultPoint at hfault
    split at hfault
    · cases hfault
      rfl
    · cases hfault
  subst heq
  constructor
  · rintro ⟨k, p, hp, hcase, _⟩
    cases hp
    exact hcase
  · intro hcase
    refine ⟨0, point, rfl, hcase, by simp, ?_⟩
    intro e' he'
    have : e' = e := by simpa using he'
    rwa [this]

theorem stopsInside_later (h : ¬(isNullOrWhiteSpace e.eventId ∨ ¬codec.Fits e))
    (hfault : faultPoint fault = none) :
    StopsInside codec (e :: es) fault ↔
      StopsInside codec es (fault.map fun f => (f.1 - 1, f.2)) := by
  constructor
  · rintro ⟨k, point, rfl, hcase, hk, hall⟩
    cases k with
    | zero => cases hfault
    | succ k =>
      refine ⟨k, point, rfl, hcase, by simpa using hk, fun e' he' => hall e' ?_⟩
      rw [List.take_succ_cons]
      exact List.mem_cons_of_mem _ he'
  · rintro ⟨k, point, hp, hcase, hk, hall⟩
    obtain ⟨⟨n, p⟩, rfl, hnp⟩ := Option.map_eq_some_iff.mp hp
    cases hnp
    cases n with
    | zero => cases hfault
    | succ n =>
      refine ⟨n + 1, p, rfl, hcase, by simpa using hk, ?_⟩
      rw [List.take_succ_cons, List.forall_mem_cons]
      exact ⟨h, hall⟩

end StopsInside

section Tail

/-- An append that is not stopped inside a record leaves a record boundary, if it
found one or wrote a record. -/
theorem Stored.appendLoop_clean {events : List ShareEvent} (h : Stored codec o records)
    (hready : Ready codec segmentMaxBytes o records events)
    (hl : ∀ e ∈ events, codec.Lossless e) {fault : Option (Nat × AppendPoint)}
    (hstop : ¬StopsInside codec events fault)
    (hstart : Clean codec o records ∨
      (o.appendLoop codec segmentMaxBytes events fault).placed ≠ []) :
    Clean codec (o.appendLoop codec segmentMaxBytes events fault).outbox
      (records ++ (o.appendLoop codec segmentMaxBytes events fault).placed) := by
  induction events generalizing o records fault with
  | nil => simpa [FileOutbox.appendLoop] using hstart
  | cons e es ih =>
    rw [FileOutbox.appendLoop] at hstart ⊢
    split at hstart
    · rename_i hbad
      rw [if_pos hbad]
      simpa using hstart
    · rename_i hgood
      rw [if_neg hgood]
      have hf : codec.Fits e := by
        by_contra hf
        exact hgood (Or.inr hf)
      obtain ⟨hroom, hclean⟩ := h.makeRoom hready
      split at hstart
      · rename_i point hpoint
        rw [stopsInside_here hgood hpoint, not_or] at hstop
        have hold : Clean codec o records := by simpa using hstart
        simp only [List.append_nil]
        cases point with
        | check => exact hold
        | header =>
          simp only [FileOutbox.interrupt, AppendPoint.written, FileOutbox.write, Clean,
            List.append_nil]
          exact hclean
        | payload => exact absurd rfl hstop.1
        | checksum => exact absurd rfl hstop.2
      · rename_i hpoint
        rw [stopsInside_later hgood hpoint] at hstop
        obtain ⟨hstored, hclean'⟩ := hroom.writeRecord hclean (hl e List.mem_cons_self) hf
        have := ih hstored (Or.inl hclean') (fun e he => hl e (List.mem_cons_of_mem _ he)) hstop
          (Or.inl hclean')
        rwa [List.append_assoc] at this

/-- An append that is stopped inside a record leaves the first part of it. -/
theorem Stored.appendLoop_torn {events : List ShareEvent} (h : Stored codec o records)
    (hready : Ready codec segmentMaxBytes o records events)
    (hl : ∀ e ∈ events, codec.Lossless e) {fault : Option (Nat × AppendPoint)}
    (hstop : StopsInside codec events fault) :
    ∃ e point, codec.Fits e ∧ (point = AppendPoint.payload ∨ point = .checksum) ∧
      (o.appendLoop codec segmentMaxBytes events fault).outbox.current.bytes =
        encodeAll codec (onSegment
          (records ++ (o.appendLoop codec segmentMaxBytes events fault).placed)
          (o.appendLoop codec segmentMaxBytes events fault).outbox.current.index) ++
          point.written codec e := by
  induction events generalizing o records fault with
  | nil => exact absurd hstop not_stopsInside_nil
  | cons e es ih =>
    unfold FileOutbox.appendLoop
    split
    · exact absurd hstop (not_stopsInside_bad ‹_›)
    · rename_i hgood
      have hf : codec.Fits e := by
        by_contra hf
        exact hgood (Or.inr hf)
      obtain ⟨hroom, hclean⟩ := h.makeRoom hready
      split
      · rename_i point hpoint
        rw [stopsInside_here hgood hpoint] at hstop
        refine ⟨e, point, hf, hstop, ?_⟩
        rcases hstop with rfl | rfl
        all_goals
          simp only [FileOutbox.interrupt, FileOutbox.write, List.append_nil]
          rw [hclean]
      · rename_i hpoint
        rw [stopsInside_later hgood hpoint] at hstop
        obtain ⟨hstored, hclean'⟩ := hroom.writeRecord hclean (hl e List.mem_cons_self) hf
        have := ih hstored (Or.inl hclean') (fun e he => hl e (List.mem_cons_of_mem _ he)) hstop
        rwa [List.append_assoc] at this

end Tail

section Calls

/-- A call that returns has placed a record for every event. -/
theorem appendLoop_completed {events : List ShareEvent} {fault : Option (Nat × AppendPoint)}
    (h : (o.appendLoop codec segmentMaxBytes events fault).completed = true) :
    (o.appendLoop codec segmentMaxBytes events fault).placed.map Record.event = events := by
  induction events generalizing o fault with
  | nil => rfl
  | cons e es ih =>
    rw [FileOutbox.appendLoop] at h ⊢
    split at h
    · cases h
    · rename_i hgood
      rw [if_neg hgood]
      split at h
      · cases h
      · simp only [List.map_cons, ih h]
        rfl

theorem appendCalls_completed {calls : List (List ShareEvent × Bool)}
    (h : (o.appendCalls codec segmentMaxBytes calls).completed = true) :
    (o.appendCalls codec segmentMaxBytes calls).placed.map Record.event =
      calls.flatMap Prod.fst := by
  induction calls generalizing o with
  | nil => rfl
  | cons call calls ih =>
    simp only [FileOutbox.appendCalls, Bool.and_eq_true] at h ⊢
    rw [List.map_append, ih h.2, List.flatMap_cons]
    congr 1
    exact appendLoop_completed h.1

/-- Returning calls that start on a record boundary store all their records. -/
theorem Stored.appendCalls {calls : List (List ShareEvent × Bool)} (h : Stored codec o records)
    (hready : Ready codec segmentMaxBytes o records (calls.flatMap Prod.fst))
    (hl : ∀ e ∈ calls.flatMap Prod.fst, codec.Lossless e)
    (hdone : (o.appendCalls codec segmentMaxBytes calls).completed = true) :
    Stored codec (o.appendCalls codec segmentMaxBytes calls).outbox
        (records ++ (o.appendCalls codec segmentMaxBytes calls).placed) ∧
      Grew o (o.appendCalls codec segmentMaxBytes calls).outbox
        (o.appendCalls codec segmentMaxBytes calls).placed := by
  induction calls generalizing o records with
  | nil => simpa [FileOutbox.appendCalls] using ⟨h, Grew.refl o⟩
  | cons call calls ih =>
    obtain ⟨events, flushToDisk⟩ := call
    simp only [FileOutbox.appendCalls, Bool.and_eq_true] at hdone ⊢
    obtain ⟨hfirst, hrest⟩ := hdone
    rw [List.flatMap_cons] at hl hready
    have hlfirst : ∀ e ∈ events, codec.Lossless e := fun e he =>
      hl e (List.mem_append_left _ he)
    have hlrest : ∀ e ∈ calls.flatMap Prod.fst, codec.Lossless e := fun e he =>
      hl e (List.mem_append_right _ he)
    have hready₁ : Ready codec segmentMaxBytes o records events := by
      refine hready.imp_right fun hall e he => hall e ?_
      cases events with
      | nil => cases he
      | cons e' es => exact he
    have hstored := h.appendAsync hready₁ hlfirst flushToDisk none
    have hready₂ : Ready codec segmentMaxBytes
        (o.appendAsync codec segmentMaxBytes events flushToDisk none).outbox
        (records ++ (o.appendAsync codec segmentMaxBytes events flushToDisk none).placed)
        (calls.flatMap Prod.fst) := by
      cases events with
      | nil =>
        simpa [FileOutbox.appendAsync, FileOutbox.appendLoop, Ready, Clean,
          FileOutbox.MustRotate] using hready
      | cons e es =>
        have hplaced := appendLoop_completed hfirst
        have hclean := h.appendLoop_clean hready₁ hlfirst not_stopsInside_none
          (Or.inr (by
            intro hnil
            rw [hnil] at hplaced
            cases hplaced))
        left
        simpa [FileOutbox.appendAsync, Clean] using hclean
    obtain ⟨hs, hg⟩ := ih hstored hready₂ hlrest hrest
    rw [List.append_assoc] at hs
    exact ⟨hs, (grew_appendAsync o events flushToDisk none).trans hg⟩

end Calls

section Hidden

/-- Segments only become longer, and new ones come behind the open one. -/
def Extends (o o' : FileOutbox) : Prop :=
  o.current.index ≤ o'.current.index ∧
    ∀ s' ∈ o'.segments, s'.index ≤ o.current.index →
      ∃ s ∈ o.segments, s.index = s'.index ∧ s.bytes <+: s'.bytes

theorem Extends.refl (o : FileOutbox) : Extends o o :=
  ⟨le_rfl, fun s hs _ => ⟨s, hs, rfl, List.prefix_rfl⟩⟩

theorem Extends.trans {o₁ o₂ o₃ : FileOutbox} (h : Extends o₁ o₂) (h' : Extends o₂ o₃) :
    Extends o₁ o₃ := by
  refine ⟨h.1.trans h'.1, fun u hu hle => ?_⟩
  obtain ⟨t, ht, htu, hpre⟩ := h'.2 u hu (hle.trans h.1)
  obtain ⟨s, hs, hst, hpre'⟩ := h.2 t ht (htu.trans_le hle)
  exact ⟨s, hs, hst.trans htu, hpre'.trans hpre⟩

theorem extends_makeRoom (o : FileOutbox) (e : ShareEvent) :
    Extends o (o.makeRoom codec segmentMaxBytes e) := by
  unfold FileOutbox.makeRoom
  split
  · refine ⟨Nat.le_succ _, fun s hs hle => ?_⟩
    rcases List.mem_append.mp hs with hs | hs
    · exact ⟨s, hs, rfl, List.prefix_rfl⟩
    · rw [List.mem_singleton.mp hs] at hle
      exact absurd hle (Nat.not_succ_le_self _)
  · exact Extends.refl o

theorem extends_write (o : FileOutbox) (bytes : List UInt8) : Extends o (o.write bytes) := by
  refine ⟨le_rfl, fun s hs _ => ?_⟩
  rcases List.mem_append.mp hs with hs | hs
  · exact ⟨s, List.mem_append_left _ hs, rfl, List.prefix_rfl⟩
  · rw [List.mem_singleton.mp hs]
    exact ⟨o.current, by simp [FileOutbox.segments], rfl, List.prefix_append _ _⟩

theorem extends_flushCore (o : FileOutbox) (flushToDisk : Bool) :
    Extends o (o.flushCore flushToDisk) := by
  unfold FileOutbox.flushCore
  split
  · exact ⟨le_rfl, fun s hs _ => ⟨s, hs, rfl, List.prefix_rfl⟩⟩
  · exact Extends.refl o

theorem extends_appendLoop (o : FileOutbox) (events : List ShareEvent) :
    Extends o (o.appendLoop codec segmentMaxBytes events none).outbox := by
  induction events generalizing o with
  | nil => exact Extends.refl o
  | cons e es ih =>
    unfold FileOutbox.appendLoop
    split
    · exact Extends.refl o
    · exact ((extends_makeRoom o e).trans (extends_write _ _)).trans (ih _)

theorem extends_appendCalls (o : FileOutbox) (calls : List (List ShareEvent × Bool)) :
    Extends o (o.appendCalls codec segmentMaxBytes calls).outbox := by
  induction calls generalizing o with
  | nil => exact Extends.refl o
  | cons call calls ih =>
    exact ((extends_appendLoop o call.1).trans (extends_flushCore _ _)).trans (ih _)

/-- What is yielded was read from some segment of the snapshot. -/
theorem exists_segment_of_mem_readSnapshot {cp : Checkpoint} {directory : List Segment}
    {r : Record} (h : r ∈ readSnapshot codec cp directory) :
    ∃ s ∈ directory,
      r ∈ (readSegmentRecords codec s.bytes s.index (cp.startOffset s) s.bytes.length).items := by
  induction directory with
  | nil => cases h
  | cons s rest ih =>
    simp only [readSnapshot] at h
    split at h
    · exact ⟨s, List.mem_cons_self, h⟩
    · rcases List.mem_append.mp h with h | h
      · exact ⟨s, List.mem_cons_self, h⟩
      · obtain ⟨t, ht, hr⟩ := ih h
        exact ⟨t, List.mem_cons_of_mem _ ht, hr⟩

/-- A read record carries the name of its segment. -/
theorem segment_of_mem_readSegmentRecords {file : List UInt8} {segment start stop : Nat}
    {r : Record} (h : r ∈ (readSegmentRecords codec file segment start stop).items) :
    r.segment = segment := by
  obtain ⟨q, next, _, hq⟩ :=
    exists_attempt_of_mem_scan (tryReadRecord_advances codec _ _ _) h
  exact (tryReadRecord_item codec hq).1

/-- The record that starts right behind a partly written one is not read, even if
the bytes that follow happen to complete the first record. -/
theorem not_mem_readSegmentRecords_behind_torn {front rest : List Record} {m t : Nat}
    {file more : List UInt8} {segment : Nat} {e : ShareEvent} {point : AppendPoint} {v : Record}
    (hrest : Chained codec segment m rest t)
    (hfile : file = encodeAll codec front ++ (encodeAll codec rest ++
      (point.written codec e ++ more)))
    (hm : m = (encodeAll codec front).length) (hf : codec.Fits e)
    (hpoint : point = .payload ∨ point = .checksum)
    (hv : v.offset = t + (point.written codec e).length) :
    v ∉ (readSegmentRecords codec file segment m file.length).items := by
  have ht := hrest.end_eq
  have hdrop : file.drop m = encodeAll codec rest ++ (point.written codec e ++ more) := by
    rw [hfile, hm, List.drop_left' rfl]
  have hlen : file.length = t + ((point.written codec e).length + more.length) := by
    rw [hfile]
    simp only [List.length_append]
    omega
  have hpath := hrest.path file.length hdrop (by omega)
  have hadv := tryReadRecord_advances codec file segment file.length
  have hle := hpath.le hadv
  have hstart : readSegmentRecords codec file segment m file.length =
      (scan (tryReadRecord codec file segment file.length) file.length
        (file.length - rest.length) t).prepend rest := by
    rw [← scan_path hadv hpath (by omega)]
    simp only [readSegmentRecords, min_self]
    rw [Nat.min_eq_left (by omega), Nat.add_sub_cancel' (by omega)]
  -- the header of the torn record stands at `t`
  have hheader : (file.drop t).take 10 = headerBytes (codec.serialize e).length := by
    have : file.drop t = point.written codec e ++ more := by
      rw [ht, ← List.drop_drop, hdrop, List.drop_left' rfl]
    rw [this]
    rcases hpoint with rfl | rfl
    · rw [AppendPoint.written, List.take_left' (by simp)]
    · rw [AppendPoint.written, List.append_assoc, List.take_left' (by simp)]
  have hwritten : 10 ≤ (point.written codec e).length ∧
      (point.written codec e).length ≤ 10 + (codec.serialize e).length := by
    rcases hpoint with rfl | rfl <;>
      simp [AppendPoint.written]
  intro hmem
  rw [hstart] at hmem
  rcases List.mem_append.mp hmem with hmem | hmem
  · have := (hrest.bounds hmem).2.2
    omega
  · refine not_mem_scan_of_skipped hadv (t + 14 + (codec.serialize e).length) ?_ ?_ hmem
    · intro w next hw
      obtain ⟨_, hoff, _, hnext⟩ := tryReadRecord_item codec hw
      rw [hheader, (header_fields hf).2.2, Int.toNat_natCast] at hnext
      refine ⟨?_, by omega⟩
      rintro rfl
      omega
    · intro q next hq
      have := (tryReadRecord_item codec hq).2.1
      omega

/-- No later state of the outbox yields the record behind a partly written one. -/
theorem not_mem_readFromCheckpointAsync_behind_torn {o' : FileOutbox} {cp : Checkpoint}
    {e : ShareEvent} {point : AppendPoint} {v : Record} (h : Stored codec o records)
    (hb : AtBoundary codec o records cp) (hf : codec.Fits e)
    (hpoint : point = .payload ∨ point = .checksum)
    (htorn : o.current.bytes =
      encodeAll codec (onSegment records o.current.index) ++ point.written codec e)
    (hext : Extends o o') (hseg : v.segment = o.current.index)
    (hoff : v.offset = o.current.bytes.length) :
    v ∉ o'.readFromCheckpointAsync codec cp := by
  intro hmem
  obtain ⟨s, hs, hread⟩ := exists_segment_of_mem_readSnapshot hmem
  obtain ⟨hs, hcond⟩ := List.mem_filter.mp hs
  have hidx : s.index = o.current.index :=
    (segment_of_mem_readSegmentRecords hread).symm.trans hseg
  obtain ⟨s₀, hs₀, hidx₀, more, hmore⟩ := hext.2 s hs hidx.le
  have hcurrent : s₀ = o.current := by
    rcases List.mem_append.mp hs₀ with hc | hc
    · have := h.closed_lt s₀ hc
      omega
    · exact List.mem_singleton.mp hc
  subst hcurrent
  have hskip : cp.skips o.current = false := by
    simp only [Bool.and_eq_true, Bool.not_eq_true'] at hcond
    simpa only [Checkpoint.skips, hidx] using hcond.1
  have hstart : cp.startOffset s = cp.startOffset o.current := by
    simp only [Checkpoint.startOffset, hidx]
  obtain ⟨front, hsplit, hfront⟩ := pending_split hb h.current_holds hskip
  obtain ⟨q, tail, hc, _, _⟩ := h.current_holds
  rw [hsplit, chained_append] at hc
  obtain ⟨m, hchain, hrest⟩ := hc
  have hm := hchain.end_eq
  rw [hsplit, encodeAll_append, List.append_assoc] at htorn
  rw [hidx, hstart, hfront] at hread
  rw [Nat.zero_add] at hm
  rw [← hm] at hread
  have hfile : s.bytes = encodeAll codec front ++
      (encodeAll codec (pending cp records o.current.index) ++
        (point.written codec e ++ more)) := by
    rw [← hmore, htorn]
    simp only [List.append_assoc]
  refine not_mem_readSegmentRecords_behind_torn hrest hfile hm hf hpoint ?_ hread
  have := hrest.end_eq
  rw [hoff, htorn]
  simp only [List.length_append]
  omega

end Hidden

/-- The first record of returning calls goes where the outbox has room for it. -/
theorem appendCalls_placed_head {calls : List (List ShareEvent × Bool)} {e : ShareEvent}
    (hdone : (o.appendCalls codec segmentMaxBytes calls).completed = true)
    (he : e ∈ (calls.flatMap Prod.fst).head?)
    (hno : ¬o.MustRotate codec segmentMaxBytes e) :
    o.slot codec e ∈ (o.appendCalls codec segmentMaxBytes calls).placed := by
  induction calls generalizing o with
  | nil => cases he
  | cons call calls ih =>
    obtain ⟨events, flushToDisk⟩ := call
    simp only [FileOutbox.appendCalls, Bool.and_eq_true] at hdone ⊢
    obtain ⟨hfirst, hrest⟩ := hdone
    cases events with
    | nil =>
      have hslot : ∀ o' : FileOutbox, o'.current = o.current →
          o'.slot codec e = o.slot codec e := by
        intro o' ho'
        rw [FileOutbox.slot, FileOutbox.slot, ho']
      have hcurrent : (o.appendAsync codec segmentMaxBytes [] flushToDisk none).outbox.current =
          o.current := by
        simp [FileOutbox.appendAsync, FileOutbox.appendLoop]
      refine List.mem_append_right _ ?_
      rw [← hslot _ hcurrent]
      refine ih hrest he ?_
      simpa only [FileOutbox.MustRotate, hcurrent] using hno
    | cons e' es =>
      obtain rfl : e' = e := Option.some.inj he
      refine List.mem_append_left _ ?_
      simp only [FileOutbox.appendAsync, FileOutbox.appendLoop] at hfirst ⊢
      split at hfirst
      · cases hfirst
      · rename_i hgood
        rw [if_neg hgood]
        simp [faultPoint, FileOutbox.makeRoom, hno]

/-- Records of a grown outbox are yielded from the checkpoint and survive a restart. -/
theorem Inv.survive {s : State} (h : Inv codec s) {o : FileOutbox} {added : List Record}
    (hstored : Stored codec o (s.records ++ added)) (hgrew : Grew s.outbox o added) :
    Survive codec o s.checkpoint added := by
  have hinv := h.grow hstored hgrew
  have hboundary := hinv.boundary
  rw [State.records, records_append_fresh, ← State.records] at hboundary
  obtain ⟨o', hopen, hstored', _, hsegments⟩ := hstored.reopen
  have hboundary' : AtBoundary codec o' (s.records ++ added) s.checkpoint := by
    intro i hi
    obtain ⟨hseg, hsplit⟩ := hboundary i hi
    exact ⟨(exists_segment_congr hsegments i).mpr hseg, hsplit⟩
  have hfacts : ∀ r ∈ added, r ∈ s.records ++ added ∧ ¬s.checkpoint.Covers r ∧
      ∃ seg ∈ o.segments, seg.index = r.segment := fun r hr =>
    ⟨List.mem_append_right _ hr, h.not_covers (hgrew.behind r hr), hgrew.exists_segment r hr⟩
  refine ⟨fun r hr => (hstored.mem_readFromCheckpointAsync hboundary).mpr (hfacts r hr),
    o', hopen, fun r hr => (hstored'.mem_readFromCheckpointAsync hboundary').mpr ?_⟩
  obtain ⟨hmem, hcov, hseg⟩ := hfacts r hr
  exact ⟨hmem, hcov, (exists_segment_congr hsegments _).mpr hseg⟩

/-- Start from a safe run that left the open segment complete, let one append fail
and let any later appends return. Their records are all yielded, and survive a
restart, exactly when the failed append did not stop inside a record or the first
record behind it opened a new segment. -/
theorem survive_failed_append_iff (ops : List Op) (s : State)
    (events : List ShareEvent) (flushToDisk : Bool) (fault : Option (Nat × AppendPoint))
    (calls : List (List ShareEvent × Bool)) (failed later : FileOutbox.Appended)
    (hl : ∀ op ∈ ops, ∀ e ∈ op.events, codec.Lossless e)
    (hok : Meets (step codec segmentMaxBytes) (StepOk codec segmentMaxBytes) State.initial ops)
    (hrun : run (step codec segmentMaxBytes) State.initial ops = some s)
    (hcomplete : Complete codec s.outbox)
    (hlevents : ∀ e ∈ events, codec.Lossless e)
    (hlcalls : ∀ e ∈ calls.flatMap Prod.fst, codec.Lossless e)
    (hfailed : failed = s.outbox.appendAsync codec segmentMaxBytes events flushToDisk fault)
    (hlater : later = failed.outbox.appendCalls codec segmentMaxBytes calls)
    (hfails : failed.completed = false) (hdone : later.completed = true) :
    later.placed.map Record.event = calls.flatMap Prod.fst ∧
      (Survive codec later.outbox s.checkpoint later.placed ↔
        (StopsInside codec events fault →
          ∀ e ∈ (calls.flatMap Prod.fst).head?,
            failed.outbox.MustRotate codec segmentMaxBytes e)) := by
  have hinv := inv_of_safe_run hl hok hrun
  have hclean := hinv.stored.isComplete_iff.mp hcomplete
  have hready : Ready codec segmentMaxBytes s.outbox s.records events :=
    Or.inl hclean
  have hstored := hinv.stored.appendAsync hready hlevents flushToDisk fault
  rw [← hfailed] at hstored
  have hinv' := hinv.grow hstored (hfailed ▸ grew_appendAsync s.outbox events flushToDisk fault)
  have houtbox : failed.outbox =
      (s.outbox.appendLoop codec segmentMaxBytes events fault).outbox := by
    rw [hfailed] at hfails
    have hfalse : (s.outbox.appendLoop codec segmentMaxBytes events fault).completed = false :=
      hfails
    rw [hfailed]
    simp [FileOutbox.appendAsync, hfalse, FileOutbox.flushCore]
  have hplaced : failed.placed =
      (s.outbox.appendLoop codec segmentMaxBytes events fault).placed := by
    rw [hfailed]
    rfl
  subst hlater
  refine ⟨appendCalls_completed hdone, ?_, ?_⟩
  · intro hsurvive hstop e he
    by_contra hno
    obtain ⟨x, point, hf, hpoint, htorn⟩ := hinv.stored.appendLoop_torn hready hlevents hstop
    rw [← houtbox, ← hplaced] at htorn
    have hboundary := hinv'.boundary
    rw [State.records, records_append_fresh, ← State.records] at hboundary
    exact not_mem_readFromCheckpointAsync_behind_torn hstored hboundary hf hpoint htorn
      (extends_appendCalls _ _) rfl rfl
      (hsurvive.1 _ (appendCalls_placed_head hdone he hno))
  · intro hsafe
    have hready' : Ready codec segmentMaxBytes failed.outbox
        (s.records ++ failed.placed) (calls.flatMap Prod.fst) := by
      by_cases hstop : StopsInside codec events fault
      · exact Or.inr (hsafe hstop)
      · left
        rw [houtbox, hplaced]
        exact hinv.stored.appendLoop_clean hready hlevents hstop (Or.inl hclean)
    obtain ⟨hstored', hgrew'⟩ := hstored.appendCalls hready' hlcalls hdone
    have hrecords : State.records { s with
        outbox := failed.outbox, log := s.log ++ failed.placed.map LogEntry.fresh } =
          s.records ++ failed.placed := records_append_fresh s.log failed.placed
    rw [← hrecords] at hstored'
    exact hinv'.survive hstored' hgrew'

/-- An append of one event that fails behind the header, on an empty directory. -/
def headerOnly (segmentMaxBytes : Nat) : FileOutbox.Appended :=
  State.initial.outbox.appendAsync bareCodec segmentMaxBytes [bareEvent "a"] true
    (some (0, .payload))

/-- With segments of one record the next append opens a new segment and survives. -/
theorem survive_behind_headerOnly_rotated :
    Survive bareCodec
      ((headerOnly 1).outbox.appendCalls bareCodec 1 [([bareEvent "b"], true)]).outbox
      State.initial.checkpoint
      ((headerOnly 1).outbox.appendCalls bareCodec 1 [([bareEvent "b"], true)]).placed := by
  refine (@survive_failed_append_iff bareCodec 1 [] State.initial
    [bareEvent "a"] true (some (0, .payload)) [([bareEvent "b"], true)] (headerOnly 1) _
    (by simp) trivial rfl ?_ ?_ ?_ rfl rfl ?_ ?_).2.mpr fun _ => ?_
  all_goals decide +kernel

/-- The batch the writer appends again during shutdown is written behind the header
of its first attempt; it is neither yielded nor kept by a restart. -/
theorem not_survive_behind_headerOnly :
    (headerOnly 4096).completed = false ∧
      ((headerOnly 4096).outbox.appendCalls bareCodec 4096 [([bareEvent "a"], true)]).completed ∧
      ¬Survive bareCodec
        ((headerOnly 4096).outbox.appendCalls bareCodec 4096 [([bareEvent "a"], true)]).outbox
        State.initial.checkpoint
        ((headerOnly 4096).outbox.appendCalls bareCodec 4096 [([bareEvent "a"], true)]).placed := by
  have hplaced : (⟨1, 10, 433, bareEvent "a"⟩ : Record) ∈
      ((headerOnly 4096).outbox.appendCalls bareCodec 4096
        [([bareEvent "a"], true)]).placed := by
    decide +kernel
  have hread : ((headerOnly 4096).outbox.appendCalls bareCodec 4096
      [([bareEvent "a"], true)]).outbox.readFromCheckpointAsync bareCodec
        State.initial.checkpoint = [] := by
    decide +kernel
  refine ⟨by decide +kernel, by decide +kernel, fun h => ?_⟩
  have := h.1 _ hplaced
  rw [hread] at this
  cases this

end HashStorm.Outbox
