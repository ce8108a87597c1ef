import HashStorm.Lib.Machine
import Mathlib.Logic.Relation

/-!
# What a machine can still reach

A state leads to another one when permitted steps go from the one to the other.
A measure that permitted steps can always decrease can be brought down to zero.
-/

namespace HashStorm.Machine

variable {σ ι : Type*} {step : σ → ι → Option σ} {ok : σ → ι → Prop} {s t u : σ}

/-- Steps that meet the condition go from the one state to the other. -/
def Leads (step : σ → ι → Option σ) (ok : σ → ι → Prop) : σ → σ → Prop :=
  Relation.ReflTransGen fun s t => ∃ i, ok s i ∧ step s i = some t

theorem Leads.refl : Leads step ok s s := Relation.ReflTransGen.refl

theorem Leads.trans (h : Leads step ok s t) (h' : Leads step ok t u) : Leads step ok s u :=
  Relation.ReflTransGen.trans h h'

theorem Leads.one {i : ι} (hok : ok s i) (hstep : step s i = some t) : Leads step ok s t :=
  Relation.ReflTransGen.single ⟨i, hok, hstep⟩

/-- A run is made of steps. -/
theorem leads_iff : Leads step ok s t ↔
    ∃ labels, Meets step ok s labels ∧ run step s labels = some t := by
  constructor
  · intro h
    induction h using Relation.ReflTransGen.head_induction_on with
    | refl => exact ⟨[], trivial, rfl⟩
    | head hstep _ ih =>
      obtain ⟨i, hok, hi⟩ := hstep
      obtain ⟨labels, hmeets, hrun⟩ := ih
      refine ⟨i :: labels, ⟨hok, fun s' hs' => ?_⟩, ?_⟩
      · rwa [← Option.some.inj (hi.symm.trans hs')]
      · rw [run_cons, hi]
        exact hrun
  · rintro ⟨labels, hmeets, hrun⟩
    induction labels generalizing s with
    | nil =>
      cases hrun
      exact Leads.refl
    | cons i labels ih =>
      obtain ⟨hok, hrest⟩ := hmeets
      rw [run_cons, Option.bind_eq_some_iff] at hrun
      obtain ⟨s', hs', hrun⟩ := hrun
      exact (Leads.one hok hs').trans (ih (hrest s' hs') hrun)

/-- What conditioned steps preserve is kept by what they lead to. -/
theorem Leads.invariant (Inv : σ → Prop)
    (hstep : ∀ s i s', Inv s → ok s i → step s i = some s' → Inv s') (hs : Inv s)
    (h : Leads step ok s t) : Inv t := by
  induction h with
  | refl => exact hs
  | tail _ hlast ih =>
    obtain ⟨i, hok, hi⟩ := hlast
    exact hstep _ i _ ih hok hi

/-- A measure that can always be decreased can be brought down to zero. -/
theorem exists_leads_zero {Inv : σ → Prop} (measure : σ → Nat)
    (hdecrease : ∀ s, Inv s → measure s ≠ 0 →
      ∃ t, Leads step ok s t ∧ Inv t ∧ measure t < measure s) (hs : Inv s) :
    ∃ t, Leads step ok s t ∧ Inv t ∧ measure t = 0 := by
  induction hn : measure s using Nat.strong_induction_on generalizing s with
  | _ n ih =>
    by_cases hzero : measure s = 0
    · exact ⟨s, Leads.refl, hs, hzero⟩
    · obtain ⟨t, hlead, ht, hlt⟩ := hdecrease s hs hzero
      obtain ⟨u, hlead', hu, hzero'⟩ := ih (measure t) (hn ▸ hlt) ht rfl
      exact ⟨u, hlead.trans hlead', hu, hzero'⟩

end HashStorm.Machine
