import Mathlib.Algebra.BigOperators.Group.List.Basic
import Mathlib.Data.List.Nodup
import Mathlib.Data.Set.Function

/-!
# Sets by a key

A set that takes two elements for the same if they have the same key, and keeps the first of
them. It keeps all elements exactly if they have different keys.
-/

namespace HashStorm.KeyedSet

variable {α β : Type*} [DecidableEq β] {key : α → β} {x y : α} {set xs : List α}

/-- Add an element, if none of its key is there. -/
def add (key : α → β) (set : List α) (x : α) : List α :=
  if key x ∈ set.map key then set else set ++ [x]

/-- Add the elements of a list to the empty set. -/
def ofList (key : α → β) (xs : List α) : List α := xs.foldl (add key) []

theorem mem_of_mem_add (h : y ∈ add key set x) : y ∈ set ∨ y = x := by
  rw [add] at h
  split at h
  · exact .inl h
  · simpa using h

theorem map_add : (add key set x).map key = if key x ∈ set.map key then set.map key
    else set.map key ++ [key x] := by
  rw [add]
  split <;> simp

/-- Every key is there once. -/
theorem nodup_map_foldl_add (h : (set.map key).Nodup) :
    ((xs.foldl (add key) set).map key).Nodup := by
  induction xs generalizing set with
  | nil => exact h
  | cons x xs ih =>
    refine ih ?_
    rw [map_add]
    split
    · exact h
    · rename_i hnew
      rw [List.nodup_append_comm, List.singleton_append, List.nodup_cons]
      exact ⟨hnew, h⟩

theorem mem_of_mem_foldl_add (h : y ∈ xs.foldl (add key) set) : y ∈ set ∨ y ∈ xs := by
  induction xs generalizing set with
  | nil => exact .inl h
  | cons x xs ih =>
    rcases ih h with hset | hxs
    · rcases mem_of_mem_add hset with hset | rfl
      · exact .inl hset
      · exact .inr List.mem_cons_self
    · exact .inr (List.mem_cons_of_mem _ hxs)

/-- The keys are those of the set and of the elements that are added. -/
theorem mem_map_foldl_add {k : β} :
    k ∈ (xs.foldl (add key) set).map key ↔ k ∈ set.map key ∨ k ∈ xs.map key := by
  induction xs generalizing set with
  | nil => simp
  | cons x xs ih =>
    rw [List.foldl_cons, ih, map_add, List.map_cons, List.mem_cons, ← or_assoc]
    refine or_congr_left ?_
    split
    · rename_i hx
      refine (or_iff_left_of_imp ?_).symm
      rintro rfl
      exact hx
    · rw [List.mem_append, List.mem_singleton]

theorem mem_of_mem_ofList (h : x ∈ ofList key xs) : x ∈ xs :=
  (mem_of_mem_foldl_add h).resolve_left List.not_mem_nil

theorem nodup_map_ofList (key : α → β) (xs : List α) : ((ofList key xs).map key).Nodup :=
  nodup_map_foldl_add List.nodup_nil

/-- Different elements of the set have different keys. -/
theorem eq_of_mem_ofList (hx : x ∈ ofList key xs) (hy : y ∈ ofList key xs)
    (h : key x = key y) : x = y :=
  List.inj_on_of_nodup_map (nodup_map_ofList key xs) hx hy h

theorem exists_mem_ofList (h : x ∈ xs) : ∃ y ∈ ofList key xs, key y = key x := by
  have hkey : key x ∈ (ofList key xs).map key :=
    mem_map_foldl_add.mpr (.inr (List.mem_map_of_mem h))
  simpa only [List.mem_map] using hkey

/-- Elements with different keys are all kept. -/
theorem mem_ofList_of_injOn (hinj : ∀ x ∈ xs, ∀ y ∈ xs, key x = key y → x = y) :
    x ∈ ofList key xs ↔ x ∈ xs := by
  refine ⟨mem_of_mem_ofList, fun hx => ?_⟩
  obtain ⟨y, hy, hkey⟩ : ∃ y ∈ ofList key xs, key y = key x := exists_mem_ofList hx
  rwa [← hinj y (mem_of_mem_ofList hy) x hx hkey]

theorem ofList_replicate {n : Nat} (hn : n ≠ 0) : ofList key (List.replicate n x) = [x] := by
  have hkeep : ∀ n, (List.replicate n x).foldl (add key) [x] = [x] := by
    intro n
    induction n with
    | zero => rfl
    | succ n ih =>
      have hsame : add key [x] x = [x] := by simp [add]
      rw [List.replicate_succ, List.foldl_cons, hsame, ih]
  cases n with
  | zero => exact absurd rfl hn
  | succ n => exact hkeep n

end HashStorm.KeyedSet
