import Mathlib

/-!
# Loops that count in 32 bits

The loop `for(t = from; t <= last; t++)` with a counter that wraps. Below the greatest counter it
ends, after as many steps as there are counters, with what its invariant says; at the greatest
counter its condition never fails.
-/

namespace HashStorm.CountingLoop

variable {σ : Type*} {body : σ → Int32 → σ} {last t : Int32} {s : σ}

/-- The state behind the loop, unless the fuel is used up. -/
def forTo (body : σ → Int32 → σ) (last : Int32) : Nat → Int32 → σ → Option σ
  | 0, _, _ => none
  | fuel + 1, t, s => if t ≤ last then forTo body last fuel (t + 1) (body s t) else some s

/-- A counter that is not the greatest is followed by the next number. -/
theorem toInt_succ (h : t.toInt < 2 ^ 31 - 1) : (t + 1).toInt = t.toInt + 1 := by
  have hmin := Int32.minValue_le_toInt t
  rw [Int32.toInt_minValue] at hmin
  rw [Int32.toInt_add, Int32.toInt_one, Int.bmod_def]
  omega

/-- A part of the state that the body changes on its own is what a loop over this part gives. -/
theorem forTo_map {ρ : Type*} {body' : ρ → Int32 → ρ} (part : σ → ρ)
    (hbody : ∀ s t, part (body s t) = body' (part s) t) (fuel : Nat) :
    (forTo body last fuel t s).map part = forTo body' last fuel t (part s) := by
  induction fuel generalizing t s with
  | zero => rfl
  | succ fuel ih =>
    rw [forTo, forTo, ← hbody]
    split
    · exact ih
    · rfl

/-- A loop that starts behind its end does nothing. -/
theorem forTo_of_lt {fuel : Nat} (h : last < t) : forTo body last (fuel + 1) t s = some s := by
  rw [forTo, if_neg (Int32.not_le.mpr h)]

/-- The rule of the loop: its steps keep an invariant that speaks of the counters below the next
one. -/
theorem forTo_rule (Inv : Int → σ → Prop) (hlast : last.toInt < 2 ^ 31 - 1)
    (hstep : ∀ t s, t ≤ last → Inv t.toInt s → Inv (t.toInt + 1) (body s t)) {fuel : Nat}
    (hfuel : last.toInt + 1 - t.toInt < fuel) (ht : t.toInt ≤ last.toInt + 1)
    (hs : Inv t.toInt s) :
    ∃ s', forTo body last fuel t s = some s' ∧ Inv (last.toInt + 1) s' := by
  induction fuel generalizing t s with
  | zero => omega
  | succ fuel ih =>
    rw [forTo]
    split
    · rename_i hle
      have hle' : t.toInt ≤ last.toInt := Int32.le_iff_toInt_le.mp hle
      have hnext : (t + 1).toInt = t.toInt + 1 := toInt_succ (by omega)
      apply ih
      · omega
      · omega
      · rw [hnext]
        exact hstep t s hle hs
    · rename_i hgt
      rw [Int32.le_iff_toInt_le] at hgt
      have heq : last.toInt + 1 = t.toInt := by omega
      exact ⟨s, rfl, heq ▸ hs⟩

/-- A loop up to the greatest counter does not end. -/
theorem forTo_maxValue (fuel : Nat) (t : Int32) (s : σ) :
    forTo body Int32.maxValue fuel t s = none := by
  induction fuel generalizing t s with
  | zero => rfl
  | succ fuel ih => rw [forTo, if_pos (Int32.le_maxValue t), ih]

end HashStorm.CountingLoop
