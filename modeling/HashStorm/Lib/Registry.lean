import Mathlib.Data.List.Nodup

/-!
# Work that is credited once

Submissions are registered by a key and credited for the work they denote. If a
key is accepted only when it is new, and work is never credited again under
another key, then no work is credited twice.
-/

namespace HashStorm.Registry

variable {κ ω : Type*}

/-- The credited work, with its keys, is pairwise different, and its keys are registered. -/
structure CreditedOnce (keys : List κ) (log : List (κ × ω)) : Prop where
  registered : ∀ e ∈ log, e.1 ∈ keys
  nodup : (log.map Prod.snd).Nodup

variable {keys : List κ} {log : List (κ × ω)} {key : κ} {work : ω}

theorem creditedOnce_nil (keys : List κ) : CreditedOnce keys ([] : List (κ × ω)) :=
  ⟨by simp, by simp⟩

/-- More keys may be registered. -/
theorem CreditedOnce.register (h : CreditedOnce keys log) (key : κ) :
    CreditedOnce (key :: keys) log :=
  ⟨fun e he => List.mem_cons_of_mem _ (h.registered e he), h.nodup⟩

/-- Work under a new key is credited, if it was not credited under another one. -/
theorem CreditedOnce.credit (h : CreditedOnce keys log) (hnew : key ∉ keys)
    (hkey : ∀ e ∈ log, e.2 = work → e.1 = key) :
    CreditedOnce (key :: keys) ((key, work) :: log) := by
  constructor
  · intro e he
    rcases List.mem_cons.mp he with rfl | he
    · exact List.mem_cons_self
    · exact List.mem_cons_of_mem _ (h.registered e he)
  · rw [List.map_cons, List.nodup_cons]
    refine ⟨fun hmem => ?_, h.nodup⟩
    obtain ⟨e, he, hwork⟩ := List.mem_map.mp hmem
    exact hnew (hkey e he hwork ▸ h.registered e he)

end HashStorm.Registry
