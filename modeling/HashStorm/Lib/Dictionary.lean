import Mathlib.Algebra.BigOperators.Group.List.Basic

/-!
# Accumulating dictionaries

A dictionary that is only ever added to keeps its keys in insertion order. It is
an association list; adding to a key that is not there yet inserts it.
-/

namespace HashStorm.Dictionary

section Lookup

variable {K V : Type*} [BEq K] [LawfulBEq K] {m m' : List (K × V)} {k : K} {v : V}

theorem mem_of_lookup (h : m.lookup k = some v) : (k, v) ∈ m := by
  obtain ⟨before, after, rfl, -⟩ := List.lookup_eq_some_iff.mp h
  exact List.mem_append_right _ List.mem_cons_self

/-- A key with one value has it, whatever stands behind. -/
theorem lookup_append_of_unique (hmem : (k, v) ∈ m) (hunique : ∀ v', (k, v') ∈ m → v' = v) :
    (m ++ m').lookup k = some v := by
  rw [List.lookup_append]
  cases hlookup : m.lookup k with
  | none =>
    have hne := List.lookup_eq_none_iff.mp hlookup (k, v) hmem
    simp at hne
  | some v' => rw [Option.some_or, hunique v' (mem_of_lookup hlookup)]

/-- What a key has stays if it passes the filter. -/
theorem lookup_filter {p : K × V → Bool} (h : ∀ v, m.lookup k = some v → p (k, v) = true) :
    (m.filter p).lookup k = m.lookup k := by
  induction m with
  | nil => rfl
  | cons e m ih =>
    obtain ⟨k', v'⟩ := e
    rcases eq_or_ne k k' with rfl | hk
    · have hkept := h v' List.lookup_cons_self
      rw [List.filter_cons_of_pos hkept, List.lookup_cons_self, List.lookup_cons_self]
    · have hne : (k == k') = false := beq_eq_false_iff_ne.mpr hk
      rw [List.lookup_cons, hne] at h
      rw [List.lookup_cons, hne, List.filter_cons]
      split
      · rw [List.lookup_cons, hne, ih h]
      · exact ih h

end Lookup

variable {K V : Type*} [DecidableEq K]

/-- Add to the value of a key, or insert the key. -/
def addTo [Add V] : List (K × V) → K → V → List (K × V)
  | [], k, v => [(k, v)]
  | (k', w) :: m, k, v => if k' = k then (k', w + v) :: m else (k', w) :: addTo m k v

/-- The sum of all values. -/
def total [AddMonoid V] (m : List (K × V)) : V := (m.map Prod.snd).sum

/-- The sum of the values of one key. -/
def totalAt [AddMonoid V] (m : List (K × V)) (k : K) : V :=
  ((m.filter fun e => e.1 = k).map Prod.snd).sum

section TotalAt

variable [AddMonoid V]

@[simp] theorem totalAt_nil (k : K) : totalAt ([] : List (K × V)) k = 0 := rfl

theorem totalAt_cons (e : K × V) (m : List (K × V)) (k : K) :
    totalAt (e :: m) k = (if e.1 = k then e.2 else 0) + totalAt m k := by
  by_cases he : e.1 = k <;> simp [totalAt, he]

theorem totalAt_append (m m' : List (K × V)) (k : K) :
    totalAt (m ++ m') k = totalAt m k + totalAt m' k := by
  simp [totalAt]

theorem totalAt_of_not_mem {m : List (K × V)} {k : K} (h : k ∉ m.map Prod.fst) :
    totalAt m k = 0 := by
  induction m with
  | nil => rfl
  | cons e m ih =>
    rw [List.map_cons, List.mem_cons, not_or] at h
    rw [totalAt_cons, if_neg (Ne.symm h.1), zero_add, ih h.2]

/-- A key that occurs once has its value. -/
theorem totalAt_of_mem {m : List (K × V)} (h : (m.map Prod.fst).Nodup) {e : K × V} (he : e ∈ m) :
    totalAt m e.1 = e.2 := by
  induction m with
  | nil => cases he
  | cons f m ih =>
    rw [List.map_cons, List.nodup_cons] at h
    rw [totalAt_cons]
    rcases List.mem_cons.mp he with rfl | he
    · rw [if_pos rfl, totalAt_of_not_mem h.1, add_zero]
    · rw [if_neg, zero_add, ih h.2 he]
      exact fun hf => h.1 (hf ▸ List.mem_map_of_mem he)

end TotalAt

variable [AddCommMonoid V]

omit [DecidableEq K] in
@[simp] theorem total_nil : total ([] : List (K × V)) = 0 := rfl

omit [DecidableEq K] in
@[simp] theorem total_cons (e : K × V) (m : List (K × V)) : total (e :: m) = e.2 + total m := by
  simp [total]

theorem total_addTo (m : List (K × V)) (k : K) (v : V) : total (addTo m k v) = total m + v := by
  induction m with
  | nil => simp [addTo]
  | cons e m ih =>
    unfold addTo
    split
    · simp only [total_cons]
      exact add_right_comm _ _ _
    · simp only [total_cons, ih, add_assoc]

theorem totalAt_addTo (m : List (K × V)) (k : K) (v : V) (k' : K) :
    totalAt (addTo m k v) k' = totalAt m k' + if k = k' then v else 0 := by
  induction m with
  | nil =>
    rw [addTo, totalAt_cons]
    simp
  | cons e m ih =>
    unfold addTo
    split
    · rename_i he
      rw [totalAt_cons, totalAt_cons, he]
      split
      · exact add_right_comm _ _ _
      · rw [add_zero]
    · rw [totalAt_cons, totalAt_cons, ih, add_assoc]

/-- The key is there afterwards. -/
theorem mem_keys_addTo {m : List (K × V)} {k : K} {v : V} {k' : K} :
    k' ∈ (addTo m k v).map Prod.fst ↔ k' ∈ m.map Prod.fst ∨ k' = k := by
  induction m with
  | nil => simp [addTo]
  | cons e m ih =>
    unfold addTo
    split
    · rename_i he
      simp only [List.map_cons, List.mem_cons, he]
      tauto
    · simp only [List.map_cons, List.mem_cons, ih, or_assoc]

/-- Every key occurs once. -/
theorem nodup_keys_addTo {m : List (K × V)} (h : (m.map Prod.fst).Nodup) (k : K) (v : V) :
    ((addTo m k v).map Prod.fst).Nodup := by
  induction m with
  | nil => simp [addTo]
  | cons e m ih =>
    rw [List.map_cons, List.nodup_cons] at h
    unfold addTo
    split
    · exact List.nodup_cons.mpr h
    · rename_i he
      rw [List.map_cons, List.nodup_cons, mem_keys_addTo, not_or]
      exact ⟨⟨h.1, he⟩, ih h.2⟩

/-- A property of all values is kept when the new and the increased value have it. -/
theorem forall_addTo {P : V → Prop} {m : List (K × V)} {k : K} {v : V}
    (h : ∀ e ∈ m, P e.2) (hv : P v) (hadd : ∀ w, P w → P (w + v)) :
    ∀ e ∈ addTo m k v, P e.2 := by
  induction m with
  | nil => simpa [addTo] using hv
  | cons e m ih =>
    obtain ⟨he, hm⟩ := List.forall_mem_cons.mp h
    unfold addTo
    split
    · exact List.forall_mem_cons.mpr ⟨hadd _ he, hm⟩
    · exact List.forall_mem_cons.mpr ⟨he, ih hm⟩

theorem sum_ite_eq {keys : List K} (hnodup : keys.Nodup) {k : K} (hk : k ∈ keys) (v : V) :
    (keys.map fun k' => if k = k' then v else 0).sum = v := by
  induction keys with
  | nil => cases hk
  | cons k' keys ih =>
    obtain ⟨hnot, hrest⟩ := List.nodup_cons.mp hnodup
    rw [List.map_cons, List.sum_cons]
    rcases List.mem_cons.mp hk with rfl | hk
    · rw [if_pos rfl, List.sum_eq_zero, add_zero]
      rintro x hx
      obtain ⟨k', hk', rfl⟩ := List.mem_map.mp hx
      exact if_neg (ne_of_mem_of_not_mem hk' hnot).symm
    · rw [if_neg (ne_of_mem_of_not_mem hk hnot), zero_add, ih hrest hk]

/-- The sums of the values of all keys are the sum of all values. -/
theorem sum_totalAt {m : List (K × V)} {keys : List K} (hnodup : keys.Nodup)
    (hkeys : ∀ e ∈ m, e.1 ∈ keys) : (keys.map (totalAt m)).sum = total m := by
  induction m with
  | nil =>
    refine List.sum_eq_zero ?_
    rintro x hx
    obtain ⟨k, -, rfl⟩ := List.mem_map.mp hx
    rfl
  | cons e m ih =>
    obtain ⟨he, hm⟩ := List.forall_mem_cons.mp hkeys
    have hcons : keys.map (totalAt (e :: m)) =
        keys.map fun k => (if e.1 = k then e.2 else 0) + totalAt m k :=
      List.map_congr_left fun k _ => totalAt_cons e m k
    rw [hcons, List.sum_map_add, sum_ite_eq hnodup he, ih hm, total_cons]

/-- The sums over the elements of all keys are the sum over all elements. -/
theorem sum_fibres {α : Type*} {xs : List α} {keys : List K} (f : α → V) (key : α → K)
    (P : α → Prop) [DecidablePred P] (hnodup : keys.Nodup) (hkeys : ∀ x ∈ xs, P x → key x ∈ keys) :
    (keys.map fun k => ((xs.filter fun x => P x ∧ key x = k).map f).sum).sum =
      ((xs.filter P).map f).sum := by
  have hfibre : ∀ k, totalAt ((xs.filter P).map fun x => (key x, f x)) k =
      ((xs.filter fun x => P x ∧ key x = k).map f).sum := by
    intro k
    simp [totalAt, List.filter_map, List.filter_filter, Function.comp_def, Bool.and_comm]
  have hmem : ∀ e ∈ (xs.filter P).map fun x => (key x, f x), e.1 ∈ keys := by
    simp only [List.mem_map, List.mem_filter, decide_eq_true_eq]
    rintro _ ⟨x, ⟨hx, hP⟩, rfl⟩
    exact hkeys x hx hP
  have hsum := sum_totalAt hnodup hmem
  rw [List.map_congr_left fun k _ => hfibre k] at hsum
  rw [hsum, total, List.map_map]
  rfl

end HashStorm.Dictionary
