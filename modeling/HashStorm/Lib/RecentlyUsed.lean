import Mathlib.Data.List.Dedup
import Mathlib.Data.List.MinMax
import Mathlib.Data.List.Perm.Subperm

/-!
# The keys that were used most recently

A history lists the keys that were used, the latest one first. A bounded cache that
gives up the key whose last use is the longest ago holds the first different keys of
its history. It finds that key by the times of the last uses.
-/

namespace HashStorm.RecentlyUsed

variable {κ : Type*} [DecidableEq κ]

/-- The different keys of a history, the latest one first. -/
def order : List κ → List κ
  | [] => []
  | k :: history => k :: (order history).filter (· ≠ k)

/-- The keys that a cache of the size holds. -/
def recent (size : Nat) (history : List κ) : List κ := (order history).take size

variable {k : κ} {history : List κ} {size : Nat}

section Order

theorem mem_order : k ∈ order history ↔ k ∈ history := by
  induction history with
  | nil => rfl
  | cons k' history ih =>
    rw [order, List.mem_cons, List.mem_cons, List.mem_filter, ih]
    by_cases h : k = k' <;> simp [h]

theorem nodup_order (history : List κ) : (order history).Nodup := by
  induction history with
  | nil => exact List.nodup_nil
  | cons k history ih =>
    rw [order, List.nodup_cons]
    exact ⟨by simp, ih.filter _⟩

theorem order_append (later earlier : List κ) :
    order (later ++ earlier) = order later ++ (order earlier).filter (· ∉ later) := by
  induction later with
  | nil => simp [order]
  | cons k later ih =>
    rw [List.cons_append, order, order, ih, List.filter_append, List.filter_filter,
      List.cons_append]
    congr 2
    refine List.filter_congr fun k' _ => ?_
    by_cases h : k' = k <;> simp [h]

theorem length_order_le {later others : List κ} (h : later ⊆ others) :
    (order later).length ≤ (order others).length := by
  have hsubset : order later ⊆ order others :=
    fun k hk => mem_order.mpr (h (mem_order.mp hk))
  exact (List.subperm_of_subset (nodup_order later) hsubset).length_le

end Order

section Recent

theorem nodup_recent (size : Nat) (history : List κ) : (recent size history).Nodup :=
  (nodup_order history).sublist (List.take_sublist _ _)

theorem length_recent_le (size : Nat) (history : List κ) : (recent size history).length ≤ size :=
  List.length_take_le _ _

theorem take_filter_take {keys : List κ} (h : keys.Nodup) (k : κ) (n : Nat) :
    ((keys.take (n + 1)).filter (· ≠ k)).take n = (keys.filter (· ≠ k)).take n := by
  induction keys generalizing n with
  | nil => simp
  | cons k' keys ih =>
    obtain ⟨hk', hkeys⟩ := List.nodup_cons.mp h
    rw [List.take_succ_cons]
    by_cases hsame : k' = k
    · subst hsame
      have hkept : ∀ l : List κ, l ⊆ keys → l.filter (· ≠ k') = l := by
        intro l hl
        rw [List.filter_eq_self]
        exact fun a ha => decide_eq_true fun heq => hk' (heq ▸ hl ha)
      simp only [ne_eq, not_true_eq_false, decide_false, List.filter_cons, Bool.false_eq_true,
        if_false]
      rw [hkept _ (List.take_subset _ _), hkept _ (List.Subset.refl _), List.take_take, min_self]
    · simp only [List.filter_cons, ne_eq, hsame, not_false_eq_true, decide_true, if_true]
      cases n with
      | zero => rfl
      | succ n => rw [List.take_succ_cons, List.take_succ_cons, ih hkeys]

/-- The key that is used becomes the first one, and the last one makes room for a new key. -/
theorem recent_cons (size : Nat) (k : κ) (history : List κ) :
    recent (size + 1) (k :: history) =
      k :: ((recent (size + 1) history).filter (· ≠ k)).take size := by
  rw [recent, order, List.take_succ_cons, recent, take_filter_take (nodup_order history)]

theorem recent_cons_of_mem (h : k ∈ recent (size + 1) history) :
    recent (size + 1) (k :: history) = k :: (recent (size + 1) history).filter (· ≠ k) := by
  rw [recent_cons, List.take_of_length_le]
  have hlt : ((recent (size + 1) history).filter (· ≠ k)).length <
      (recent (size + 1) history).length := by
    refine List.length_filter_lt_length_iff_exists.mpr ⟨k, h, by simp⟩
  have hle := length_recent_le (size + 1) history
  omega

theorem recent_cons_of_notMem (h : k ∉ recent (size + 1) history) :
    recent (size + 1) (k :: history) = k :: (recent (size + 1) history).take size := by
  rw [recent_cons, List.filter_eq_self.mpr]
  exact fun k' hk' => decide_eq_true fun heq => h (heq ▸ hk')

/-- A key is held as long as fewer others than the cache has room for were used behind it. -/
theorem mem_recent_of_few {later earlier : List κ}
    (h : (order (later.filter (· ≠ k))).length < size) :
    k ∈ recent size (later ++ k :: earlier) := by
  have hmem : k ∈ later ++ k :: earlier := by simp
  obtain ⟨last, rest, hsplit, hlast⟩ := List.eq_append_cons_of_mem hmem
  -- the latest use is the one that is shown or a later one
  have hsubset : last ⊆ later.filter (· ≠ k) := by
    have hlater : last ⊆ later := by
      rcases List.append_eq_append_iff.mp hsplit with ⟨as, rfl, has⟩ | ⟨bs, rfl, -⟩
      · cases as with
        | nil => simp
        | cons a as =>
          obtain ⟨rfl, -⟩ := List.cons.inj has
          exact absurd (by simp) hlast
      · exact List.subset_append_left _ _
    intro k' hk'
    refine List.mem_filter.mpr ⟨hlater hk', decide_eq_true ?_⟩
    rintro rfl
    exact hlast hk'
  have hfew := (length_order_le hsubset).trans_lt h
  obtain ⟨room, hroom⟩ : ∃ room, size - (order last).length = room + 1 :=
    ⟨size - (order last).length - 1, by omega⟩
  rw [hsplit, recent, order_append, order, List.filter_cons, if_pos (decide_eq_true hlast),
    List.take_append, hroom, List.take_succ_cons]
  simp

end Recent

section Times

variable {α : Type*}

/-- The entry whose last use is the longest ago is the last one in the order of the uses. -/
theorem argmin_eq_getLast {entries sorted : List α} {lastUsed : α → Nat}
    (hperm : entries.Perm sorted) (hsorted : sorted.Pairwise fun a b => lastUsed b < lastUsed a)
    {a : α} (h : entries.argmin lastUsed = some a) : sorted = sorted.dropLast ++ [a] := by
  have ha : a ∈ sorted := hperm.mem_iff.mp (List.argmin_mem h)
  have hne : sorted ≠ [] := List.ne_nil_of_mem ha
  have hlast := List.dropLast_append_getLast hne
  rw [← hlast] at ha
  rw [← hlast, List.pairwise_append] at hsorted
  rcases List.mem_append.mp ha with ha | ha
  · have hlt := hsorted.2.2 a ha _ (List.mem_singleton_self _)
    have hle := List.le_of_mem_argmin (hperm.mem_iff.mpr (List.getLast_mem hne)) h
    exact absurd hlt hle.not_gt
  · rw [List.mem_singleton.mp ha, hlast]

end Times

end HashStorm.RecentlyUsed
