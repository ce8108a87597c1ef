import Mathlib.Algebra.Order.BigOperators.Group.List
import Mathlib.Algebra.Order.Ring.Int
import Mathlib.Tactic.Ring

/-!
# Allotting an amount

An amount is allotted to entries one after the other: each entry is appended to
what was paid, and its value is taken from the rest. A step that may lose the
value of an entry is harmless as long as it does so only with a negative rest and
never brings a negative rest back: a rest that is not negative in the end then
shows that nothing was lost.
-/

namespace HashStorm.Allotment

variable {α β : Type*}

/-- What was paid so far, and what is left. -/
structure State (α : Type*) where
  paid : List α
  rest : Int

/-- The entries were paid, and their values taken from the rest. -/
structure Pays (value : α → Int) (s : State α) (entries : List α) (t : State α) : Prop where
  paid_eq : t.paid = s.paid ++ entries
  rest_eq : t.rest = s.rest - (entries.map value).sum

/-- The entries were paid, and their values taken from the rest or the rest is
negative, as it stays. -/
structure Settles (value : α → Int) (s : State α) (entries : List α) (t : State α) : Prop where
  paid_eq : t.paid = s.paid ++ entries
  rest_eq : t.rest = s.rest - (entries.map value).sum ∨ t.rest < 0
  rest_neg : s.rest < 0 → t.rest < 0

variable {value : α → Int} {s t u : State α} {es es' : List α}

theorem Pays.refl (s : State α) : Pays value s [] s := ⟨by simp, by simp⟩

theorem Pays.trans (h : Pays value s es t) (h' : Pays value t es' u) :
    Pays value s (es ++ es') u := by
  refine ⟨by rw [h'.paid_eq, h.paid_eq, List.append_assoc], ?_⟩
  rw [h'.rest_eq, h.rest_eq, List.map_append, List.sum_append]
  ring

/-- Paying entries of no negative value cannot bring a negative rest back. -/
theorem Pays.settles (h : Pays value s es t) (hes : ∀ e ∈ es, 0 ≤ value e) :
    Settles value s es t := by
  have hsum : 0 ≤ (es.map value).sum := by
    refine List.sum_nonneg fun v hv => ?_
    obtain ⟨e, he, rfl⟩ := List.mem_map.mp hv
    exact hes e he
  have hrest := h.rest_eq
  exact ⟨h.paid_eq, Or.inl hrest, fun hs => by omega⟩

theorem Settles.refl (s : State α) : Settles value s [] s := ⟨by simp, by simp, id⟩

theorem Settles.trans (h : Settles value s es t) (h' : Settles value t es' u) :
    Settles value s (es ++ es') u := by
  refine ⟨by rw [h'.paid_eq, h.paid_eq, List.append_assoc], ?_, h'.rest_neg ∘ h.rest_neg⟩
  rw [List.map_append, List.sum_append]
  rcases h.rest_eq with hrest | hneg
  · rcases h'.rest_eq with hrest' | hneg'
    · left
      rw [hrest', hrest]
      ring
    · exact Or.inr hneg'
  · exact Or.inr (h'.rest_neg hneg)

/-- Nothing was lost if the rest is not negative. -/
theorem Settles.pays (h : Settles value s es t) (ht : 0 ≤ t.rest) : Pays value s es t :=
  ⟨h.paid_eq, h.rest_eq.resolve_right (Int.not_lt.mpr ht)⟩

/-- What was paid and the rest make up the amount. -/
theorem Pays.sum_add_rest {amount : Int} (h : Pays value ⟨[], amount⟩ es t) :
    (t.paid.map value).sum + t.rest = amount := by
  rw [h.paid_eq, h.rest_eq, List.nil_append]
  ring

section Loop

variable {σ ε : Type*} {R : σ → List α → σ → Prop} {entries : β → List α}

/-- A loop whose body pays the entries of one item pays those of all items. -/
theorem relates_foldl {f : σ → β → σ} (hrefl : ∀ s, R s [] s)
    (htrans : ∀ {s t u : σ} {es es' : List α}, R s es t → R t es' u → R s (es ++ es') u)
    (hstep : ∀ s b, R s (entries b) (f s b)) (bs : List β) (s : σ) :
    R s (bs.flatMap entries) (bs.foldl f s) := by
  induction bs generalizing s with
  | nil => exact hrefl s
  | cons b bs ih => exact htrans (hstep s b) (ih (f s b))

/-- The same for a loop that may end with an exception. -/
theorem relates_foldlM {f : σ → β → Except ε σ} {bs : List β} {s t : σ}
    (h : bs.foldlM f s = .ok t) (hrefl : ∀ s, R s [] s)
    (htrans : ∀ {s t u : σ} {es es' : List α}, R s es t → R t es' u → R s (es ++ es') u)
    (hstep : ∀ s b t, f s b = .ok t → R s (entries b) t) : R s (bs.flatMap entries) t := by
  induction bs generalizing s with
  | nil =>
    cases h
    exact hrefl _
  | cons b bs ih =>
    rw [List.foldlM_cons] at h
    cases hb : f s b with
    | error e =>
      rw [hb] at h
      cases h
    | ok s' =>
      rw [hb] at h
      exact htrans (hstep s b s' hb) (ih h)

end Loop

end HashStorm.Allotment
