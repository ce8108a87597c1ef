import Mathlib.Data.List.TakeWhile

/-!
# Terminated lines

A list is cut at its terminators into lines and a rest that no terminator ends.
Cutting is independent of how the list was put together: the lines of `xs ++ ys`
are those of `xs`, and then those of the rest of `xs` in front of `ys`.
-/

namespace HashStorm.Lines

variable {α : Type*} (isEnd : α → Bool)

/-- The terminated lines, without their terminators, and what stands behind them. -/
def split : List α → List (List α) × List α
  | [] => ([], [])
  | a :: as =>
    if isEnd a then ([] :: (split as).1, (split as).2)
    else
      match (split as).1 with
      | [] => ([], a :: (split as).2)
      | line :: ls => ((a :: line) :: ls, (split as).2)

/-- The first line, terminated or not. -/
def firstLine (xs : List α) : List α := xs.takeWhile fun a => !isEnd a

variable {isEnd}

@[simp] theorem split_nil : split isEnd [] = ([], []) := rfl

theorem split_of_forall {xs : List α} (h : ∀ a ∈ xs, isEnd a = false) :
    split isEnd xs = ([], xs) := by
  induction xs with
  | nil => rfl
  | cons a as ih =>
    obtain ⟨ha, has⟩ := List.forall_mem_cons.mp h
    simp [split, ha, ih has]

/-- A line is cut off at its terminator. -/
theorem split_line {line : List α} (h : ∀ a ∈ line, isEnd a = false) {e : α}
    (he : isEnd e = true) (xs : List α) :
    split isEnd (line ++ e :: xs) = (line :: (split isEnd xs).1, (split isEnd xs).2) := by
  induction line with
  | nil => simp [split, he]
  | cons a line ih =>
    obtain ⟨ha, hline⟩ := List.forall_mem_cons.mp h
    simp [split, ha, ih hline]

/-- Without a line there is no terminator. -/
theorem split_eq_rest {xs : List α} (h : (split isEnd xs).1 = []) : split isEnd xs = ([], xs) := by
  induction xs with
  | nil => rfl
  | cons a as ih =>
    by_cases ha : isEnd a = true
    · simp [split, ha] at h
    · cases hls : (split isEnd as).1 with
      | nil =>
        have has := ih hls
        simp [split, ha, has]
      | cons line ls => simp [split, ha, hls] at h

theorem split_append (xs ys : List α) :
    split isEnd (xs ++ ys) =
      ((split isEnd xs).1 ++ (split isEnd ((split isEnd xs).2 ++ ys)).1,
        (split isEnd ((split isEnd xs).2 ++ ys)).2) := by
  induction xs with
  | nil => simp
  | cons a as ih =>
    rw [List.cons_append]
    by_cases ha : isEnd a = true
    · simp only [split, ha, if_true, ih, List.cons_append]
    · cases hls : (split isEnd as).1 with
      | nil =>
        have has := split_eq_rest hls
        rw [has] at ih
        simp [split, ha, has]
      | cons line ls =>
        rw [hls] at ih
        simp only [split, ha, if_false, Bool.false_eq_true, ih, hls, List.cons_append]

/-- Nothing behind the last terminator is one. -/
theorem not_isEnd_of_mem_rest {xs : List α} : ∀ a ∈ (split isEnd xs).2, isEnd a = false := by
  induction xs with
  | nil => simp
  | cons b as ih =>
    by_cases hb : isEnd b = true
    · simpa [split, hb] using ih
    · cases hls : (split isEnd as).1 with
      | nil =>
        intro a ha
        simp only [split, hb, hls, if_false, Bool.false_eq_true, List.mem_cons] at ha
        rcases ha with rfl | ha
        · simpa using hb
        · exact ih a ha
      | cons line ls => simpa [split, hb, hls] using ih

/-- The lines and the rest are no longer than the whole. -/
theorem length_le_of_mem_split {xs : List α} :
    (∀ line ∈ (split isEnd xs).1, line.length ≤ xs.length) ∧
      (split isEnd xs).2.length ≤ xs.length := by
  induction xs with
  | nil => simp
  | cons a as ih =>
    obtain ⟨hlines, hrest⟩ := ih
    by_cases ha : isEnd a = true
    · simp only [split, ha, if_true, List.forall_mem_cons, List.length_nil, List.length_cons]
      exact ⟨⟨Nat.zero_le _, fun line hline => (hlines line hline).trans (Nat.le_succ _)⟩,
        hrest.trans (Nat.le_succ _)⟩
    · cases hls : (split isEnd as).1 with
      | nil => simpa [split, ha, hls] using hrest
      | cons line ls =>
        rw [hls, List.forall_mem_cons] at hlines
        simp only [split, ha, hls, if_false, Bool.false_eq_true, List.forall_mem_cons,
          List.length_cons]
        exact ⟨⟨Nat.succ_le_succ hlines.1,
          fun line hline => (hlines.2 line hline).trans (Nat.le_succ _)⟩,
          hrest.trans (Nat.le_succ _)⟩

section FirstLine

theorem not_isEnd_of_mem_firstLine (xs : List α) : ∀ a ∈ firstLine isEnd xs, isEnd a = false := by
  intro a ha
  simpa using List.mem_takeWhile_imp ha

/-- The first line is terminated, or it is everything. -/
theorem firstLine_cases (xs : List α) :
    firstLine isEnd xs = xs ∨
      ∃ e ys, isEnd e = true ∧ xs = firstLine isEnd xs ++ e :: ys := by
  have hxs := List.takeWhile_append_dropWhile (p := fun a => !isEnd a) (l := xs)
  cases hdrop : xs.dropWhile fun a => !isEnd a with
  | nil =>
    rw [hdrop, List.append_nil] at hxs
    exact .inl hxs
  | cons e ys =>
    have he := List.head_dropWhile_not (fun a => !isEnd a) (l := xs) (by simp [hdrop])
    rw [hdrop] at hxs
    refine .inr ⟨e, ys, ?_, hxs.symm⟩
    simpa [hdrop] using he

/-- The first line grows, or stays as it is, when more comes behind it. -/
theorem length_firstLine_le_append (xs ys : List α) :
    (firstLine isEnd xs).length ≤ (firstLine isEnd (xs ++ ys)).length := by
  rw [firstLine, firstLine, List.takeWhile_append]
  split
  · rename_i hall
    rw [hall, List.length_append]
    omega
  · exact le_refl _

end FirstLine

end HashStorm.Lines
