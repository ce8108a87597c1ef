import HashStorm.Crypto.EthashLight

/-!
# The caches that are kept

Whatever callers do at the same time, the dictionary holds the caches of the epochs that
were requested most recently. A caller gets a cache that is there, unless so many other
epochs were requested between its request and its return that its own was given up.
-/

namespace HashStorm.Crypto

open Machine RecentlyUsed

variable (config : Config) (epochLength : Nat)

/-- The cache of an index was not given up: it is generated or still to be generated. -/
def Live (heap : List Cache) (i epoch : Nat) : Prop :=
  ∃ c, heap[i]? = some c ∧ c.epoch = epoch ∧ (c.handle = none → c.isGenerated = false)

/-- Every cache has the data of its own epoch. -/
def Matched (heap : List Cache) : Prop :=
  ∀ (i : Nat) (c : Cache), heap[i]? = some c → ∀ block ∈ c.handle, block = c.epoch * epochLength

/-- The indices keep their caches, up to their data and the time of their last use. -/
def Extends (heap heap' : List Cache) : Prop :=
  ∀ (i : Nat) (c : Cache), heap[i]? = some c → ∃ c', heap'[i]? = some c' ∧ c'.epoch = c.epoch

/-- The dictionary and the cache in advance have caches that were not given up. -/
structure Stored (s : State) : Prop where
  matched : Matched epochLength s.heap
  started : ∀ t ∈ s.started, t.2 = epochLength
  entries : ∀ x ∈ s.caches, Live s.heap x.2 x.1
  future : ∀ i ∈ s.future, (∃ epoch, Live s.heap i epoch) ∧ ∀ x ∈ s.caches, x.2 ≠ i

/-- The keys of the dictionary, the one that was used last in front. -/
structure Kept (s : State) (keys : List Nat) : Prop extends Stored epochLength s where
  used : ∃ sorted, s.caches.Perm sorted ∧ sorted.map Prod.fst = keys ∧
    sorted.Pairwise fun x y => s.lastUsed y < s.lastUsed x

/-- The state behind the preparation of a request: the cache of its epoch is in the dictionary, but
its last use is still another one. -/
structure Prepared (s s' : State) (epoch now size : Nat) : Prop extends Stored epochLength s' where
  caches : ∃ i others, s'.caches.Perm ((epoch, i) :: others) ∧
    epoch :: others.map Prod.fst = recent (size + 1) (epoch :: s.history) ∧
    (others.Pairwise fun x y => s'.lastUsed y < s'.lastUsed x) ∧ ∀ x ∈ others, s'.lastUsed x < now
  heap : Extends s.heap s'.heap
  calls : s'.calls = s.calls
  returns : s'.returns = s.returns
  history : s'.history = s.history
  /-- A cache that was given up is not one of those used most recently. -/
  rest : ∀ x ∈ s.caches, x ∈ s'.caches ∨ x.1 ∉ recent (size + 1) (epoch :: s.history)

section Heap

variable {epochLength} {heap heap' : List Cache} {i j epoch : Nat} {f : Cache → Cache}

theorem getElem?_modify_eq_some {c : Cache} (h : (heap.modify i f)[j]? = some c) :
    ∃ c', heap[j]? = some c' ∧ c = if i = j then f c' else c' := by
  rw [List.getElem?_modify] at h
  obtain ⟨c', hc', rfl⟩ := Option.map_eq_some_iff.mp h
  exact ⟨c', hc', rfl⟩

theorem getElem?_modify_of_eq_some {c : Cache} (h : heap[j]? = some c) :
    (heap.modify i f)[j]? = some (if i = j then f c else c) := by
  rw [List.getElem?_modify, h]
  rfl

theorem Extends.refl (heap : List Cache) : Extends heap heap := fun _ c h => ⟨c, h, rfl⟩

theorem Extends.trans {heap'' : List Cache} (h : Extends heap heap') (h' : Extends heap' heap'') :
    Extends heap heap'' := by
  intro i c hc
  obtain ⟨c', hc', hsame⟩ := h i c hc
  obtain ⟨c'', hc'', hsame'⟩ := h' i c' hc'
  exact ⟨c'', hc'', hsame'.trans hsame⟩

theorem extends_modify (hf : ∀ c, (f c).epoch = c.epoch) : Extends heap (heap.modify i f) := by
  intro j c hc
  refine ⟨_, getElem?_modify_of_eq_some hc, ?_⟩
  split
  · exact hf c
  · rfl

theorem extends_append (c : Cache) : Extends heap (heap ++ [c]) := by
  intro i c' hc'
  exact ⟨c', List.getElem?_append_left (List.getElem?_eq_some_iff.mp hc').1 ▸ hc', rfl⟩

theorem Live.append (h : Live heap i epoch) (c : Cache) : Live (heap ++ [c]) i epoch := by
  obtain ⟨c', hc', hlive⟩ := h
  exact ⟨c', List.getElem?_append_left (List.getElem?_eq_some_iff.mp hc').1 ▸ hc', hlive⟩

/-- A cache is live behind a change of others, or one that keeps it so. -/
theorem Live.modify (h : Live heap j epoch)
    (hf : i = j → ∀ c, (c.handle = none → c.isGenerated = false) →
      (f c).epoch = c.epoch ∧ ((f c).handle = none → (f c).isGenerated = false)) :
    Live (heap.modify i f) j epoch := by
  obtain ⟨c, hc, rfl, hlive⟩ := h
  refine ⟨_, getElem?_modify_of_eq_some hc, ?_⟩
  split
  · rename_i hij
    exact hf hij c hlive
  · exact ⟨rfl, hlive⟩

theorem Matched.append (h : Matched epochLength heap) (epoch now : Nat) :
    Matched epochLength (heap ++ [Cache.create epoch now]) := by
  intro i c hc block hblock
  rcases List.mem_append.mp (List.mem_of_getElem? hc) with hmem | hmem
  · obtain ⟨j, hj⟩ := List.getElem?_of_mem hmem
    exact h j c hj block hblock
  · rw [List.mem_singleton.mp hmem] at hblock
    cases hblock

theorem Matched.modify (h : Matched epochLength heap)
    (hf : ∀ c : Cache, (∀ block ∈ c.handle, block = c.epoch * epochLength) →
      ∀ block ∈ (f c).handle, block = (f c).epoch * epochLength) :
    Matched epochLength (heap.modify i f) := by
  intro j c hc
  obtain ⟨c', hc', rfl⟩ := getElem?_modify_eq_some hc
  split
  · exact hf c' (h j c' hc')
  · exact h j c' hc'

/-- What a cache is after it was generated. -/
theorem generate_spec (c : Cache) (epochLength : Nat) :
    (c.generate epochLength).epoch = c.epoch ∧ (c.generate epochLength).lastUsed = c.lastUsed ∧
      ((c.handle = none → c.isGenerated = false) → (c.generate epochLength).handle ≠ none) ∧
      ((∀ block ∈ c.handle, block = c.epoch * epochLength) →
        ∀ block ∈ (c.generate epochLength).handle, block = c.epoch * epochLength) := by
  rw [Cache.generate]
  split
  · refine ⟨rfl, rfl, by simp, ?_⟩
    rintro - block ⟨rfl⟩
    rfl
  · rename_i hthere
    refine ⟨rfl, rfl, fun hlive hnone => ?_, id⟩
    exact hthere ⟨hnone, hlive hnone⟩

end Heap

section Dictionary

variable {epochLength} {s : State} {keys : List Nat} {size epoch now : Nat}

/-- Only the time of its last use counts for the time a cache was used last. -/
theorem lastUsed_modify {s' : State} {i : Nat} {f : Cache → Cache}
    (hheap : s'.heap = s.heap.modify i f) (hf : ∀ c, (f c).lastUsed = c.lastUsed)
    (x : Nat × Nat) : s'.lastUsed x = s.lastUsed x := by
  rw [State.lastUsed, State.lastUsed, hheap, List.getElem?_modify]
  cases s.heap[x.2]? with
  | none => rfl
  | some c =>
    simp only [Option.map_eq_map, Option.map_some, Option.getD_some]
    split
    · exact hf c
    · rfl

theorem lastUsed_append {s' : State} {c : Cache} (hheap : s'.heap = s.heap ++ [c])
    {x : Nat × Nat} (hx : Live s.heap x.2 x.1) : s'.lastUsed x = s.lastUsed x := by
  obtain ⟨c', hc', -⟩ := hx
  rw [State.lastUsed, State.lastUsed, hheap,
    List.getElem?_append_left (List.getElem?_eq_some_iff.mp hc').1]

/-- The keys tell the caches apart. -/
theorem Stored.index_ne (h : Stored epochLength s) {x y : Nat × Nat} (hx : x ∈ s.caches)
    (hy : y ∈ s.caches) (hne : x.1 ≠ y.1) : x.2 ≠ y.2 := by
  intro hsame
  obtain ⟨c, hc, hcx, -⟩ := h.entries x hx
  obtain ⟨c', hc', hcy, -⟩ := h.entries y hy
  rw [hsame, hc'] at hc
  cases hc
  exact hne (hcx.symm.trans hcy)

theorem Kept.mem_keys (h : Kept epochLength s keys) {epoch : Nat} :
    epoch ∈ keys ↔ ∃ i, (epoch, i) ∈ s.caches := by
  obtain ⟨sorted, hperm, rfl, -⟩ := h.used
  simp [hperm.mem_iff]

theorem Kept.length_caches (h : Kept epochLength s keys) : s.caches.length = keys.length := by
  obtain ⟨sorted, hperm, rfl, -⟩ := h.used
  rw [hperm.length_eq, List.length_map]

theorem dispose_spec (c : Cache) : c.dispose.epoch = c.epoch ∧ c.dispose.lastUsed = c.lastUsed ∧
    c.dispose.handle = none := ⟨rfl, rfl, rfl⟩

/-- The cache that was used the longest ago is given up. -/
theorem Kept.giveUp (h : Kept epochLength s keys) (hkeys : keys.Nodup) {x : Nat × Nat}
    (hx : s.caches.argmin s.lastUsed = some x) :
    keys = keys.dropLast ++ [x.1] ∧
    Kept epochLength
      { s with
        heap := s.heap.modify x.2 Cache.dispose
        caches := s.caches.filter (·.1 ≠ x.1) } keys.dropLast := by
  obtain ⟨sorted, hperm, rfl, hsorted⟩ := h.used
  have hlast := argmin_eq_getLast hperm hsorted hx
  have hmem := List.argmin_mem hx
  have hsplit : sorted.map Prod.fst = (sorted.map Prod.fst).dropLast ++ [x.1] := by
    conv_lhs => rw [hlast]
    rw [List.map_append, List.map_dropLast, List.map_singleton]
  have hfilter : sorted.filter (·.1 ≠ x.1) = sorted.dropLast := by
    rw [hsplit, List.nodup_append] at hkeys
    have hself : [x].filter (·.1 ≠ x.1) = [] := by simp
    conv_lhs => rw [hlast]
    rw [List.filter_append, hself, List.append_nil, List.filter_eq_self]
    intro y hy
    have hy' : y.1 ∈ (sorted.map Prod.fst).dropLast := by
      rw [← List.map_dropLast]
      exact List.mem_map_of_mem hy
    exact decide_eq_true (hkeys.2.2 y.1 hy' x.1 (List.mem_singleton_self _))
  have hused : ∀ y, State.lastUsed
      { s with
        heap := s.heap.modify x.2 Cache.dispose
        caches := s.caches.filter (·.1 ≠ x.1) } y = s.lastUsed y :=
    lastUsed_modify (f := Cache.dispose) rfl fun c => rfl
  refine ⟨hsplit, ?_⟩
  refine ⟨⟨h.matched.modify (fun c hc => by simp [dispose_spec]), h.started, ?_, ?_⟩, ?_⟩
  · intro y hy
    obtain ⟨hy, hne⟩ := List.mem_filter.mp hy
    have hindex := h.index_ne hmem hy (by simpa using Ne.symm (of_decide_eq_true hne))
    exact (h.entries y hy).modify fun hsame => absurd hsame hindex
  · intro i hi
    obtain ⟨⟨epoch, hlive⟩, hother⟩ := h.future i hi
    refine ⟨⟨epoch, hlive.modify fun hsame => absurd hsame (hother x hmem)⟩, fun y hy => ?_⟩
    exact hother y (List.mem_filter.mp hy).1
  · refine ⟨sorted.dropLast, ?_, List.map_dropLast, ?_⟩
    · rw [← hfilter]
      exact hperm.filter _
    · refine (hsorted.sublist (List.dropLast_sublist _)).imp fun hlt => ?_
      rwa [hused, hused]

theorem evict_of_lt {numCaches : Nat} (h : s.caches.length < numCaches) (rounds : Nat) :
    s.evict numCaches rounds = s := by
  cases rounds with
  | zero => rfl
  | succ rounds => exact if_neg h.not_ge

/-- The loop makes room for one more cache. -/
theorem Kept.evict (h : Kept epochLength s keys) (hkeys : keys.Nodup)
    (hlength : keys.length ≤ size + 1) :
    Kept epochLength (s.evict (size + 1) s.caches.length) (keys.take size) ∧
      Extends s.heap (s.evict (size + 1) s.caches.length).heap ∧
      (s.evict (size + 1) s.caches.length).calls = s.calls ∧
      (s.evict (size + 1) s.caches.length).returns = s.returns ∧
      (s.evict (size + 1) s.caches.length).history = s.history ∧
      (∀ x, (s.evict (size + 1) s.caches.length).lastUsed x = s.lastUsed x) ∧
      (s.evict (size + 1) s.caches.length).caches ⊆ s.caches ∧
      ∀ x ∈ s.caches, x.1 ∈ keys.take size →
        x ∈ (s.evict (size + 1) s.caches.length).caches := by
  by_cases hroom : keys.length < size + 1
  · have hsame : s.evict (size + 1) s.caches.length = s :=
      evict_of_lt (h.length_caches ▸ hroom) _
    rw [hsame, List.take_of_length_le (by omega)]
    exact ⟨h, Extends.refl _, rfl, rfl, rfl, fun _ => rfl, List.Subset.refl _, fun x hx _ => hx⟩
  · have hfull : keys.length = size + 1 := by omega
    have hcaches : s.caches.length = size + 1 := h.length_caches.trans hfull
    have hne : s.caches ≠ [] := by
      rintro hnil
      rw [hnil] at hcaches
      cases hcaches
    obtain ⟨x, hx⟩ : ∃ x, s.caches.argmin s.lastUsed = some x :=
      Option.ne_none_iff_exists'.mp (List.argmin_eq_none.not.mpr hne)
    obtain ⟨hsplit, hkept⟩ := h.giveUp hkeys hx
    have hrest : keys.dropLast = keys.take size := by
      rw [List.dropLast_eq_take, hfull, Nat.add_sub_cancel]
    have hstep : s.evict (size + 1) s.caches.length =
        { s with
          heap := s.heap.modify x.2 Cache.dispose
          caches := s.caches.filter (·.1 ≠ x.1) } := by
      conv_lhs => rw [hcaches]
      rw [State.evict, if_pos hcaches.ge, hx]
      refine evict_of_lt ?_ _
      have hlength := hkept.length_caches
      rw [hrest, List.length_take, hfull] at hlength
      rw [hlength]
      omega
    rw [hstep]
    refine ⟨hrest ▸ hkept, extends_modify fun c => rfl, rfl, rfl, rfl,
      lastUsed_modify (f := Cache.dispose) rfl fun c => rfl,
      fun y hy => (List.mem_filter.mp hy).1,
      fun y hy hkey => List.mem_filter.mpr ⟨hy, decide_eq_true ?_⟩⟩
    rintro hsame
    rw [hsplit, List.nodup_append] at hkeys
    exact hkeys.2.2 x.1 (by rwa [hrest, ← hsame]) x.1 (List.mem_singleton_self _) rfl

theorem index_lt_of_live {heap : List Cache} {i epoch : Nat} (h : Live heap i epoch) :
    i < heap.length := by
  obtain ⟨c, hc, -⟩ := h
  exact (List.getElem?_eq_some_iff.mp hc).1

/-- A new cache is still to be generated. -/
theorem live_create (heap : List Cache) (epoch now : Nat) :
    Live (heap ++ [Cache.create epoch now]) heap.length epoch := by
  exact ⟨Cache.create epoch now, by simp, rfl, fun _ => rfl⟩

theorem Stored.advance (h : Stored epochLength s) (epoch now : Nat) :
    Stored epochLength (s.advance epoch epochLength now) ∧
      (s.advance epoch epochLength now).caches = s.caches ∧
      Extends s.heap (s.advance epoch epochLength now).heap ∧
      ∀ x ∈ s.caches, (s.advance epoch epochLength now).lastUsed x = s.lastUsed x := by
  rw [State.advance]
  split
  · refine ⟨⟨h.matched.append _ _, ?_, fun x hx => (h.entries x hx).append _, ?_⟩, rfl,
      extends_append _, fun x hx => lastUsed_append rfl (h.entries x hx)⟩
    · intro t ht
      rcases List.mem_append.mp ht with ht | ht
      · exact h.started t ht
      · rw [List.mem_singleton.mp ht]
    · rintro i ⟨rfl⟩
      refine ⟨⟨_, live_create _ _ _⟩, fun x hx => ?_⟩
      exact (index_lt_of_live (h.entries x hx)).ne
  · exact ⟨h, rfl, Extends.refl _, fun _ _ => rfl⟩

/-- A new epoch gets the cache in advance if it is for it, and a new one otherwise. -/
theorem Stored.put (h : Stored epochLength s) (epoch now : Nat) :
    Stored epochLength (s.put epoch now) ∧
      (∃ i, (s.put epoch now).caches = s.caches ++ [(epoch, i)]) ∧
      Extends s.heap (s.put epoch now).heap ∧
      (∀ x ∈ s.caches, (s.put epoch now).lastUsed x = s.lastUsed x) ∧
      (s.put epoch now).calls = s.calls ∧ (s.put epoch now).returns = s.returns ∧
      (s.put epoch now).history = s.history := by
  rw [State.put]
  split
  · rename_i hfuture
    obtain ⟨i, hi, hepoch⟩ := Option.bind_eq_some_iff.mp hfuture
    obtain ⟨⟨epoch', c, hc, -, hlive⟩, hother⟩ := h.future i hi
    rw [hc, Option.map_some, Option.some.injEq] at hepoch
    refine ⟨⟨h.matched, h.started, ?_, by simp⟩, ⟨i, by simp [hi]⟩, Extends.refl _,
      fun _ _ => rfl, rfl, rfl, rfl⟩
    intro x hx
    simp only [hi, Option.map_some, Option.toList_some, List.mem_append, List.mem_singleton] at hx
    rcases hx with hx | rfl
    · exact h.entries x hx
    · exact ⟨c, hc, hepoch, hlive⟩
  · refine ⟨⟨h.matched.append _ _, h.started, ?_, ?_⟩, ⟨s.heap.length, rfl⟩,
      extends_append _, fun x hx => lastUsed_append rfl (h.entries x hx), rfl, rfl, rfl⟩
    · intro x hx
      rcases List.mem_append.mp hx with hx | hx
      · exact (h.entries x hx).append _
      · rw [List.mem_singleton.mp hx]
        exact live_create _ _ _
    · intro i hi
      obtain ⟨⟨epoch', hlive⟩, hother⟩ := h.future i hi
      refine ⟨⟨epoch', hlive.append _⟩, fun x hx => ?_⟩
      rcases List.mem_append.mp hx with hx | hx
      · exact hother x hx
      · rw [List.mem_singleton.mp hx]
        exact (index_lt_of_live hlive).ne'

/-- The cache that is requested becomes the one that was used last. -/
theorem Stored.touch (h : Stored epochLength s) {i : Nat} {others : List (Nat × Nat)}
    (hperm : s.caches.Perm ((epoch, i) :: others)) (hkeys : epoch ∉ others.map Prod.fst)
    (hsorted : others.Pairwise fun x y => s.lastUsed y < s.lastUsed x)
    (hbefore : ∀ x ∈ others, s.lastUsed x < now) {s' : State}
    (hheap : s'.heap = s.heap.modify i fun c => { c with lastUsed := now })
    (hcaches : s'.caches = s.caches) (hfuture : s'.future = s.future)
    (hstarted : s'.started = s.started) :
    Kept epochLength s' (epoch :: others.map Prod.fst) := by
  have hmem : (epoch, i) ∈ s.caches := hperm.mem_iff.mpr List.mem_cons_self
  have hlive : ∀ {j epoch' : Nat}, Live s.heap j epoch' → Live s'.heap j epoch' := by
    intro j epoch' hj
    rw [hheap]
    exact hj.modify fun _ c hc => ⟨rfl, hc⟩
  refine ⟨⟨?_, ?_, ?_, ?_⟩, ?_⟩
  · rw [hheap]
    exact h.matched.modify fun c hc => hc
  · rw [hstarted]
    exact h.started
  · rw [hcaches]
    exact fun x hx => hlive (h.entries x hx)
  · rw [hfuture, hcaches]
    intro j hj
    obtain ⟨⟨epoch', hj'⟩, hother⟩ := h.future j hj
    exact ⟨⟨epoch', hlive hj'⟩, hother⟩
  · have hothers : ∀ x ∈ others, s'.lastUsed x = s.lastUsed x := by
      intro x hx
      have hne : i ≠ x.2 := by
        refine h.index_ne hmem (hperm.mem_iff.mpr (List.mem_cons_of_mem _ hx)) ?_
        rintro rfl
        exact hkeys (List.mem_map_of_mem hx)
      obtain ⟨c, hc, -⟩ := h.entries x (hperm.mem_iff.mpr (List.mem_cons_of_mem _ hx))
      rw [State.lastUsed, State.lastUsed, hheap, getElem?_modify_of_eq_some hc, if_neg hne, hc]
    have hself : s'.lastUsed (epoch, i) = now := by
      obtain ⟨c, hc, -⟩ := h.entries _ hmem
      rw [State.lastUsed, hheap, getElem?_modify_of_eq_some hc, if_pos rfl]
      rfl
    refine ⟨(epoch, i) :: others, hcaches ▸ hperm, rfl, List.pairwise_cons.mpr ⟨?_, ?_⟩⟩
    · intro x hx
      rw [hself, hothers x hx]
      exact hbefore x hx
    · refine hsorted.imp_of_mem fun hx hy hlt => ?_
      rwa [hothers _ hx, hothers _ hy]

end Dictionary

section Requests

variable {config} {epochLength} {s s' : State} {epoch now size : Nat}

theorem Kept.lastUsed_lt {keys : List Nat} (h : Kept epochLength s keys)
    (hnow : ∀ c ∈ s.heap, c.lastUsed < now) {x : Nat × Nat} (hx : x ∈ s.caches) :
    s.lastUsed x < now := by
  obtain ⟨c, hc, -⟩ := h.entries x hx
  rw [State.lastUsed, hc]
  exact hnow c (List.mem_of_getElem? hc)

/-- A request for a cache that is there. -/
theorem prepared_hit (h : Kept epochLength s (recent (size + 1) s.history))
    (hnow : ∀ c ∈ s.heap, c.lastUsed < now) (hhit : ∃ i, (epoch, i) ∈ s.caches) :
    Prepared epochLength s (s.advance epoch epochLength now) epoch now size := by
  obtain ⟨hstored, hcaches, hheap, hused⟩ := h.toStored.advance epoch now
  obtain ⟨sorted, hperm, hkeys, hsorted⟩ := h.used
  obtain ⟨i, hi⟩ := hhit
  obtain ⟨before, behind, hsplit⟩ := List.append_of_mem (hperm.mem_iff.mp hi)
  have hmem : epoch ∈ recent (size + 1) s.history := h.mem_keys.mpr ⟨i, hi⟩
  have hnodup := nodup_recent (size + 1) s.history
  have hperm' : s.caches.Perm ((epoch, i) :: (before ++ behind)) :=
    hperm.trans (hsplit ▸ List.perm_middle)
  have hfields : (s.advance epoch epochLength now).calls = s.calls ∧
      (s.advance epoch epochLength now).returns = s.returns ∧
      (s.advance epoch epochLength now).history = s.history := by
    rw [State.advance]
    split <;> exact ⟨rfl, rfl, rfl⟩
  have hothers : ∀ x ∈ before ++ behind, x ∈ s.caches := fun x hx =>
    hperm'.mem_iff.mpr (List.mem_cons_of_mem _ hx)
  refine ⟨hstored, ⟨i, before ++ behind, hcaches ▸ hperm', ?_, ?_, ?_⟩, hheap, hfields.1,
    hfields.2.1, hfields.2.2, fun x hx => .inl (hcaches ▸ hx)⟩
  · rw [recent_cons_of_mem hmem]
    congr 1
    rw [← hkeys, hsplit] at hnodup ⊢
    simp only [List.map_append, List.map_cons] at hnodup ⊢
    obtain ⟨hnot, -⟩ := List.nodup_cons.mp (List.perm_middle.nodup_iff.mp hnodup)
    rw [List.filter_append, List.filter_cons, if_neg (by simp), ← List.filter_append,
      List.filter_eq_self.mpr]
    intro k hk
    exact decide_eq_true fun hsame => hnot (hsame ▸ hk)
  · have hsub : (before ++ behind).Sublist sorted := by
      rw [hsplit]
      exact List.Sublist.append (List.Sublist.refl _) (List.sublist_cons_self _ _)
    refine (hsorted.sublist hsub).imp_of_mem fun hx hy hlt => ?_
    rwa [hused _ (hothers _ hx), hused _ (hothers _ hy)]
  · intro x hx
    rw [hused x (hothers x hx)]
    exact h.lastUsed_lt hnow (hothers x hx)

/-- A request for a cache that is not there. -/
theorem prepared_miss (h : Kept epochLength s (recent (size + 1) s.history))
    (hnow : ∀ c ∈ s.heap, c.lastUsed < now) (hmiss : ¬∃ i, (epoch, i) ∈ s.caches) :
    Prepared epochLength s ((s.evict (size + 1) s.caches.length).put epoch now) epoch now size := by
  have hnot : epoch ∉ recent (size + 1) s.history := h.mem_keys.not.mpr hmiss
  obtain ⟨hkept, hheap, hcalls, hreturns, hhistory, hused, hsubset, hrest⟩ :=
    h.evict (nodup_recent _ _) (length_recent_le _ _)
  obtain ⟨hstored, ⟨i, hcaches⟩, hheap', hused', hcalls', hreturns', hhistory'⟩ :=
    hkept.toStored.put epoch now
  obtain ⟨sorted, hperm, hkeys, hsorted⟩ := hkept.used
  have hrecent := recent_cons_of_notMem hnot
  have hsame : ∀ x ∈ sorted,
      ((s.evict (size + 1) s.caches.length).put epoch now).lastUsed x =
        (s.evict (size + 1) s.caches.length).lastUsed x :=
    fun x hx => hused' x (hperm.mem_iff.mpr hx)
  refine ⟨hstored, ⟨i, sorted, ?_, by rw [hkeys, hrecent], ?_, ?_⟩, hheap.trans hheap',
    hcalls'.trans hcalls, hreturns'.trans hreturns, hhistory'.trans hhistory, ?_⟩
  · rw [hcaches]
    exact (List.perm_append_comm).trans (hperm.cons _)
  · exact hsorted.imp_of_mem fun hx hy hlt => by rwa [hsame _ hx, hsame _ hy]
  · intro x hx
    rw [hsame x hx, hused x]
    exact h.lastUsed_lt hnow (hsubset (hperm.mem_iff.mpr hx))
  · intro x hx
    by_cases hkey : x.1 ∈ (recent (size + 1) s.history).take size
    · left
      rw [hcaches]
      exact List.mem_append_left _ (hrest x hx hkey)
    · right
      rw [hrecent, List.mem_cons, not_or]
      refine ⟨?_, hkey⟩
      rintro rfl
      exact hmiss ⟨x.2, hx⟩

end Requests

section Runs

/-- The other epochs among those that were requested. -/
def others (epochLength block : Nat) (since : List Nat) : Nat :=
  (order (since.filter (· ≠ block / epochLength))).length

/-- The dictionary has the caches used most recently, and a caller's cache is among them unless
many other epochs were requested since. -/
structure Inv (s : State) : Prop extends
    Kept epochLength s (recent config.numCaches s.history) where
  calls : ∀ c ∈ s.calls, config.epochLength c.block = epochLength ∧
    (∃ x, s.heap[c.cache]? = some x ∧ x.epoch = c.block / epochLength) ∧
    (∃ earlier, s.history = c.since ++ c.block / epochLength :: earlier) ∧
    ((c.block / epochLength, c.cache) ∈ s.caches ∨
      config.numCaches ≤ others epochLength c.block c.since)
  returns : ∀ r ∈ s.returns, others epochLength r.block r.since < config.numCaches →
    r.handle = some (r.block / epochLength * epochLength)

variable {config} {epochLength} {s s' : State}

theorem numCaches_pos (config : Config) : 0 < config.numCaches := by
  rw [Config.numCaches]
  split <;> omega

theorem inv_initial : Inv config epochLength State.initial := by
  refine ⟨⟨⟨?_, ?_, ?_, ?_⟩, ⟨[], ?_⟩⟩, ?_, ?_⟩ <;>
    simp [State.initial, Matched, recent, order]

/-- What a caller relies on stays so when an epoch is requested. -/
theorem Inv.call (h : Inv config epochLength s) {c : Call} (hc : c ∈ s.calls) {epoch : Nat}
    {caches : List (Nat × Nat)}
    (hrest : ∀ x ∈ s.caches, x ∈ caches ∨
      x.1 ∉ recent config.numCaches (epoch :: s.history)) :
    (c.block / epochLength, c.cache) ∈ caches ∨
      config.numCaches ≤ others epochLength c.block (epoch :: c.since) := by
  obtain ⟨-, -, ⟨earlier, hhistory⟩, hkept⟩ := h.calls c hc
  by_contra hneither
  obtain ⟨hgone, hfew⟩ := not_or.mp hneither
  have hmore : others epochLength c.block c.since ≤ others epochLength c.block (epoch :: c.since) :=
    length_order_le (List.filter_subset _ (List.subset_cons_self _ _))
  have hmem := hkept.resolve_right (by omega)
  refine (hrest _ hmem).resolve_left hgone ?_
  rw [hhistory, ← List.cons_append]
  exact mem_recent_of_few (not_le.mp hfew)

theorem Inv.request (h : Inv config epochLength s) {block now : Nat}
    (hblock : config.epochLength block = epochLength) (hnow : ∀ c ∈ s.heap, c.lastUsed < now)
    (hstep : s.request config block now = some s') : Inv config epochLength s' := by
  obtain ⟨size, hsize⟩ : ∃ size, config.numCaches = size + 1 :=
    ⟨config.numCaches - 1, by have := numCaches_pos config; omega⟩
  have hkept := h.toKept
  rw [hsize] at hkept
  obtain ⟨t, ht, hprepared⟩ : ∃ t, (if s.caches.any (·.1 = block / epochLength) then
        s.advance (block / epochLength) epochLength now
      else (s.evict config.numCaches s.caches.length).put (block / epochLength) now) = t ∧
      Prepared epochLength s t (block / epochLength) now size := by
    refine ⟨_, rfl, ?_⟩
    have hany : s.caches.any (·.1 = block / epochLength) = true ↔
        ∃ i, (block / epochLength, i) ∈ s.caches := by
      simp
    split
    · rename_i hhit
      exact prepared_hit hkept hnow (hany.mp hhit)
    · rename_i hmiss
      rw [hsize]
      exact prepared_miss hkept hnow (hany.not.mp hmiss)
  simp only [State.request, hblock, ht, Option.map_eq_some_iff] at hstep
  obtain ⟨entry, hfind, rfl⟩ := hstep
  obtain ⟨i, rest, hperm, hkeys, hsorted, hbefore⟩ := hprepared.caches
  have hnot : block / epochLength ∉ rest.map Prod.fst := by
    have hnodup := nodup_recent (size + 1) (block / epochLength :: s.history)
    rw [← hkeys] at hnodup
    exact (List.nodup_cons.mp hnodup).1
  obtain ⟨hentry, hmem⟩ : entry = (block / epochLength, i) ∧ entry ∈ t.caches := by
    have hkey : entry.1 = block / epochLength := by simpa using List.find?_some hfind
    have hmem := List.mem_of_find?_eq_some hfind
    refine ⟨?_, hmem⟩
    rcases List.mem_cons.mp (hperm.mem_iff.mp hmem) with hsame | hother
    · exact hsame
    · exact absurd (hkey ▸ List.mem_map_of_mem hother) hnot
  have htouched : Kept epochLength { t with
      heap := t.heap.modify entry.2 fun c => { c with lastUsed := now }
      calls := (t.calls.map fun call =>
        { call with since := block / epochLength :: call.since }) ++ [⟨block, entry.2, []⟩]
      history := block / epochLength :: t.history } (block / epochLength :: rest.map Prod.fst) :=
    hprepared.toStored.touch hperm hnot hsorted hbefore (by rw [hentry]) rfl rfl rfl
  have hextends : Extends s.heap (t.heap.modify entry.2 fun c => { c with lastUsed := now }) :=
    hprepared.heap.trans (extends_modify fun c => rfl)
  refine ⟨?_, ?_, ?_⟩
  · rw [hkeys, ← hsize, ← hprepared.history] at htouched
    exact htouched
  · intro c hc
    rcases List.mem_append.mp hc with hc | hc
    · rw [hprepared.calls] at hc
      obtain ⟨call, hcall, rfl⟩ := List.mem_map.mp hc
      obtain ⟨hlength, ⟨x, hx, hepoch⟩, ⟨earlier, hhistory⟩, -⟩ := h.calls call hcall
      refine ⟨hlength, ?_, ⟨earlier, ?_⟩, ?_⟩
      · obtain ⟨x', hx', hsame⟩ := hextends _ _ hx
        exact ⟨x', hx', hsame.trans hepoch⟩
      · simp only [hprepared.history, hhistory, List.cons_append]
      · exact h.call hcall (hsize ▸ hprepared.rest)
    · rw [List.mem_singleton.mp hc]
      obtain ⟨x, hx, hepoch, -⟩ := htouched.entries entry hmem
      refine ⟨hblock, ⟨x, hx, hepoch.trans (by rw [hentry])⟩, ⟨t.history, rfl⟩, .inl ?_⟩
      rw [hentry] at hmem ⊢
      exact hmem
  · intro r hr
    exact h.returns r (hprepared.returns ▸ hr)

/-- Generating a cache changes nothing but its data. -/
theorem Inv.generate (h : Inv config epochLength s) (i : Nat) {started : List (Nat × Nat)}
    (hstarted : started ⊆ s.started) {calls : List Call} (hcalls : calls ⊆ s.calls) :
    Inv config epochLength { s with
      heap := s.heap.modify i (Cache.generate · epochLength)
      started := started
      calls := calls } := by
  have hlive : ∀ {j epoch : Nat}, Live s.heap j epoch →
      Live (s.heap.modify i (Cache.generate · epochLength)) j epoch := by
    intro j epoch hj
    refine hj.modify fun _ c hc => ⟨(generate_spec c epochLength).1, fun hnone => ?_⟩
    exact absurd hnone ((generate_spec c epochLength).2.2.1 hc)
  refine ⟨⟨⟨?_, fun t ht => h.started t (hstarted ht), fun x hx => hlive (h.entries x hx), ?_⟩,
    ?_⟩, fun c hc => ?_, h.returns⟩
  · refine h.matched.modify fun c hc block hblock => ?_
    rw [(generate_spec c epochLength).1]
    exact (generate_spec c epochLength).2.2.2 hc block hblock
  · intro j hj
    obtain ⟨⟨epoch, hj'⟩, hother⟩ := h.future j hj
    exact ⟨⟨epoch, hlive hj'⟩, hother⟩
  · obtain ⟨sorted, hperm, hkeys, hsorted⟩ := h.used
    refine ⟨sorted, hperm, hkeys, hsorted.imp fun hlt => ?_⟩
    have hused : ∀ x, State.lastUsed { s with
        heap := s.heap.modify i (Cache.generate · epochLength)
        started := started
        calls := calls } x = s.lastUsed x :=
      lastUsed_modify (f := (Cache.generate · epochLength)) rfl fun c => (generate_spec c _).2.1
    rwa [hused, hused]
  · obtain ⟨hlength, ⟨x, hx, hepoch⟩, hrest⟩ := h.calls c (hcalls hc)
    obtain ⟨x', hx', hsame⟩ :=
      extends_modify (i := i) (fun c => (generate_spec c epochLength).1) _ _ hx
    exact ⟨hlength, ⟨x', hx', hsame.trans hepoch⟩, hrest⟩

/-- A caller returns the data of its epoch if its cache was not given up. -/
theorem Inv.handle_eq (h : Inv config epochLength s) {c : Call} (hc : c ∈ s.calls)
    (hfew : others epochLength c.block c.since < config.numCaches) :
    (s.heap.modify c.cache (Cache.generate · epochLength))[c.cache]?.bind Cache.handle =
      some (c.block / epochLength * epochLength) := by
  obtain ⟨-, -, -, hkept⟩ := h.calls c hc
  obtain ⟨x, hx, hepoch, hlive⟩ := h.entries _ (hkept.resolve_right (by omega))
  have hspec := generate_spec x epochLength
  rw [getElem?_modify_of_eq_some hx, if_pos rfl, Option.bind_some]
  obtain ⟨block, hblock⟩ := Option.ne_none_iff_exists'.mp (hspec.2.2.1 hlive)
  rw [hblock, hspec.2.2.2 (h.matched _ x hx) block hblock, hepoch]

theorem Inv.step {op : Op} (h : Inv config epochLength s)
    (htimely : op.Timely config epochLength s) (hstep : step config s op = some s') :
    Inv config epochLength s' := by
  cases op with
  | request block now => exact h.request htimely.1 htimely.2 hstep
  | generate task =>
    rw [Crypto.step, Option.map_eq_some_iff] at hstep
    obtain ⟨t, ht, rfl⟩ := hstep
    rw [h.started t (List.mem_of_getElem? ht)]
    exact h.generate t.1 List.eraseIdx_subset (List.Subset.refl _)
  | finish call =>
    rw [Crypto.step, Option.map_eq_some_iff] at hstep
    obtain ⟨c, hc, rfl⟩ := hstep
    have hmem := List.mem_of_getElem? hc
    have hgenerated := h.generate c.cache (List.Subset.refl s.started)
      (List.eraseIdx_subset : s.calls.eraseIdx call ⊆ s.calls)
    rw [(h.calls c hmem).1]
    refine ⟨⟨⟨hgenerated.matched, hgenerated.started, hgenerated.entries, hgenerated.future⟩,
      hgenerated.used⟩, hgenerated.calls, fun r hr hfew => ?_⟩
    rcases List.mem_append.mp hr with hr | hr
    · exact h.returns r hr hfew
    · rw [List.mem_singleton.mp hr] at hfew ⊢
      exact h.handle_eq hmem hfew

/-- **The caches used most recently are kept, and a caller gets the data of its epoch.** Whatever
the order of the requests, the generations and the returns, the dictionary holds the caches of the
epochs that were requested last, with no data but their own; and a caller between whose request
and return fewer other epochs were requested than there is room for returns the data of its epoch. -/
theorem most_recent_caches {ops : List Op} (hrun : run (step config) State.initial ops = some s)
    (htimely : Meets (step config) (fun s op => op.Timely config epochLength s) State.initial ops) :
    (s.caches.map Prod.fst).Perm (recent config.numCaches s.history) ∧
    (∀ x ∈ s.caches, ∃ c, s.heap[x.2]? = some c ∧ c.epoch = x.1 ∧
      ∀ block ∈ c.handle, block = x.1 * epochLength) ∧
    ∀ r ∈ s.returns, others epochLength r.block r.since < config.numCaches →
      r.handle = some (r.block / epochLength * epochLength) := by
  have h : Inv config epochLength s :=
    run_invariant (Inv config epochLength) (fun s op s' h => h.step) inv_initial htimely hrun
  refine ⟨?_, fun x hx => ?_, h.returns⟩
  · obtain ⟨sorted, hperm, hkeys, -⟩ := h.used
    exact hkeys ▸ hperm.map _
  · obtain ⟨c, hc, hepoch, -⟩ := h.entries x hx
    refine ⟨c, hc, hepoch, fun block hblock => ?_⟩
    rw [← hepoch]
    exact h.matched _ c hc block hblock

/-- Epochs of 30000 blocks, and two caches. -/
def twoCaches : Config := ⟨fun _ => 30000, 2⟩

/-- Two callers request the caches of the epochs 0 and 1, the one of the epoch 1 in advance, and
return behind a third request. -/
def overlapping : List Op :=
  [.request 7 1, .request 8 2, .generate 0, .request 30001 3, .finish 1, .finish 0, .finish 0]

/-- They get the data of their epochs. -/
theorem most_recent_overlapping :
    ∃ s, run (step twoCaches) State.initial overlapping = some s ∧
      (s.caches.map Prod.fst).Perm [1, 0] ∧ s.returns.length = 3 ∧
      ∀ r ∈ s.returns, r.handle = some (r.block / 30000 * 30000) := by
  have hruns : ∃ s ∈ run (step twoCaches) State.initial overlapping,
      recent 2 s.history = [1, 0] ∧ s.returns.length = 3 ∧
        ∀ r ∈ s.returns, others 30000 r.block r.since < 2 := by
    decide +kernel
  obtain ⟨s, hs, hhistory, hlength, hfew⟩ := hruns
  have htimely : Meets (step twoCaches) (fun s op => op.Timely twoCaches 30000 s) State.initial
      overlapping := by
    decide +kernel
  obtain ⟨hperm, -, hreturns⟩ := most_recent_caches hs htimely
  exact ⟨s, hs, hhistory ▸ hperm, hlength, fun r hr => hreturns r hr (hfew r hr)⟩

end Runs

end HashStorm.Crypto
