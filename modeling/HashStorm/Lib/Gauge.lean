import Mathlib.Algebra.BigOperators.Group.List.Basic
import Mathlib.Tactic.Abel

/-!
# Gauges of a queue

A gauge holds the weight of the items of a queue. It is moved in a step of its own behind the step
that moves an item, so that at any time it counts what is in the queue and what was taken out and
not yet removed from it, less what was put in and not yet added to it.
-/

namespace HashStorm.Gauge

variable {α : Type*}

/-- The items in the queue, those the gauge does not count yet, and those it counts still. -/
structure Flow (α : Type*) where
  queue : List α
  unadded : List α
  unremoved : List α

/-- The weight of some items. -/
def total (weight : α → Int) (items : List α) : Int := (items.map weight).sum

/-- What the gauge counts. -/
def Flow.level (weight : α → Int) (f : Flow α) : Int :=
  total weight f.queue + total weight f.unremoved - total weight f.unadded

variable {weight : α → Int} {queue unadded unadded' unremoved : List α} {a : α}

@[simp] theorem total_nil : total weight [] = 0 := rfl

@[simp] theorem total_cons (a : α) (items : List α) :
    total weight (a :: items) = weight a + total weight items := by
  rw [total, List.map_cons, List.sum_cons, total]

@[simp] theorem total_append (items items' : List α) :
    total weight (items ++ items') = total weight items + total weight items' := by
  rw [total, List.map_append, List.sum_append, total, total]

theorem total_of_perm {items items' : List α} (h : items.Perm items') :
    total weight items = total weight items' :=
  (h.map weight).sum_eq

/-- Items of weight one are counted. -/
theorem total_one (items : List α) : total (fun _ => 1) items = items.length := by
  simp [total]

/-- The order in which items are added does not matter. -/
theorem level_of_perm (h : unadded.Perm unadded') :
    Flow.level weight ⟨queue, unadded, unremoved⟩ =
      Flow.level weight ⟨queue, unadded', unremoved⟩ := by
  simp only [Flow.level, total_of_perm h]

/-- An item that is put in is not added yet. -/
theorem level_put (h : unadded'.Perm (a :: unadded)) :
    Flow.level weight ⟨queue ++ [a], unadded', unremoved⟩ =
      Flow.level weight ⟨queue, unadded, unremoved⟩ := by
  simp only [Flow.level, total_append, total_of_perm h, total_cons, total_nil]
  abel

theorem level_add (h : unadded.Perm (a :: unadded')) :
    Flow.level weight ⟨queue, unadded', unremoved⟩ =
      Flow.level weight ⟨queue, unadded, unremoved⟩ + weight a := by
  simp only [Flow.level, total_of_perm h, total_cons]
  abel

/-- An item that is taken out is not removed yet. -/
theorem level_take : Flow.level weight ⟨queue, unadded, a :: unremoved⟩ =
    Flow.level weight ⟨a :: queue, unadded, unremoved⟩ := by
  simp only [Flow.level, total_cons]
  abel

theorem level_remove : Flow.level weight ⟨queue, unadded, unremoved⟩ =
    Flow.level weight ⟨queue, unadded, a :: unremoved⟩ - weight a := by
  simp only [Flow.level, total_cons]
  abel

/-- A gauge that nothing is missing from counts the queue. -/
theorem level_settled : Flow.level weight ⟨queue, [], []⟩ = total weight queue := by
  simp only [Flow.level, total_nil, add_zero, sub_zero]

end HashStorm.Gauge
