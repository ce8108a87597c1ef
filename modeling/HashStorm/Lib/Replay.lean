import Mathlib.Data.List.Nodup
import Mathlib.Data.List.Infix

/-!
# A log that is delivered with repetitions

A reader that starts over delivers parts of a log again. As long as every part
starts no later than at the first entry that was not delivered yet, the first
occurrences of what was delivered are the front of the log.
-/

namespace HashStorm.Replay

variable {α : Type*} [DecidableEq α]

theorem eraseDups_of_nodup {l : List α} (h : l.Nodup) : l.eraseDups = l := by
  induction l with
  | nil => rfl
  | cons a l ih =>
    rw [List.nodup_cons] at h
    have hfilter : (l.filter fun b => !b == a) = l := by
      rw [List.filter_eq_self]
      intro b hb
      have hne : b ≠ a := fun hba => h.1 (hba ▸ hb)
      simpa using hne
    rw [List.eraseDups_cons, hfilter, ih h.2]

omit [DecidableEq α] in
/-- A front of a log that has all its entries is the log. -/
theorem eq_of_prefix_of_subset {front log : List α} (hlog : log.Nodup) (hfront : front <+: log)
    (hsubset : log ⊆ front) : front = log := by
  obtain ⟨rest, rfl⟩ := hfront
  cases rest with
  | nil => rw [List.append_nil]
  | cons a rest =>
    have ha : a ∈ front := hsubset (List.mem_append_right _ List.mem_cons_self)
    exact absurd rfl ((List.nodup_append.mp hlog).2.2 a ha a List.mem_cons_self)

/-- Another part of the log is delivered, behind entries that were delivered before. -/
theorem eraseDups_append_isPrefix {log delivered front batch : List α} (hlog : log.Nodup)
    (hdelivered : delivered.eraseDups <+: log) (hbatch : front ++ batch <+: log)
    (hfront : front ⊆ delivered) : (delivered ++ batch).eraseDups <+: log := by
  have hnodup : (front ++ batch).Nodup := hlog.sublist hbatch.sublist
  have hnew : ((batch.removeAll delivered).eraseDups : List α) =
      batch.filter (· ∉ delivered.eraseDups) := by
    have hfilter : batch.removeAll delivered = batch.filter (· ∉ delivered.eraseDups) := by
      rw [List.removeAll]
      refine List.filter_congr fun a _ => ?_
      simp [List.mem_eraseDups]
    rw [hfilter]
    exact eraseDups_of_nodup (((List.nodup_append.mp hnodup).2.1).filter _)
  have hcovers : front ⊆ delivered.eraseDups := fun a ha => List.mem_eraseDups.mpr (hfront ha)
  rw [List.eraseDups_append, hnew]
  generalize delivered.eraseDups = known at hdelivered hcovers ⊢
  rcases List.prefix_or_prefix_of_prefix hbatch hdelivered with hknown | hknown
  · -- nothing of the part is new
    have hold : batch.filter (· ∉ known) = [] := by
      rw [List.filter_eq_nil_iff]
      intro a ha
      simpa using hknown.subset (List.mem_append_right _ ha)
    rwa [hold, List.append_nil]
  · have hbehind : front <+: known := by
      rcases List.prefix_or_prefix_of_prefix (List.prefix_append front batch) hknown with h | h
      · exact h
      · have hfrontNodup : front.Nodup := (List.nodup_append.mp hnodup).1
        rw [eq_of_prefix_of_subset hfrontNodup h hcovers]
    obtain ⟨old, rfl⟩ := hbehind
    obtain ⟨new, hnew⟩ := hknown
    rw [List.append_assoc, List.append_cancel_left_eq] at hnew
    subst hnew
    have holdNew : (old ++ new).filter (· ∉ front ++ old) = new := by
      rw [← List.append_assoc, List.nodup_append] at hnodup
      have hold : old.filter (· ∉ front ++ old) = [] := by
        rw [List.filter_eq_nil_iff]
        intro a ha
        simp [ha]
      have hnew : new.filter (· ∉ front ++ old) = new := by
        rw [List.filter_eq_self]
        intro a ha
        simp only [decide_eq_true_eq]
        exact fun hmem => hnodup.2.2 a hmem a ha rfl
      rw [List.filter_append, hold, hnew, List.nil_append]
    rw [holdNew, List.append_assoc]
    exact hbatch

omit [DecidableEq α] in
/-- In a sorted log, the entries with a property that is closed downwards stand in front. -/
theorem filter_append_filter {r : α → α → Prop} {log : List α} (hlog : log.Pairwise r)
    (p : α → Prop) [DecidablePred p] (hp : ∀ a b, r a b → p b → p a) :
    log.filter p ++ log.filter (¬p ·) = log := by
  induction log with
  | nil => rfl
  | cons a log ih =>
    rw [List.pairwise_cons] at hlog
    by_cases ha : p a
    · simpa [ha] using ih hlog.2
    · have hnone : ∀ b ∈ log, ¬p b := fun b hb hpb => ha (hp a b (hlog.1 b hb) hpb)
      have hfront : log.filter p = [] := by
        rw [List.filter_eq_nil_iff]
        simpa using hnone
      have hrest : log.filter (¬p ·) = log := by
        rw [List.filter_eq_self]
        simpa using hnone
      rw [List.filter_cons_of_neg (by simpa using ha), List.filter_cons_of_pos (by simpa using ha),
        hfront, hrest, List.nil_append]

end HashStorm.Replay
