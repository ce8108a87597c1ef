import HashStorm.Lib.Machine
import Mathlib.Data.List.Nodup
import Mathlib.Logic.Function.Iterate

/-!
# Critical sections

Callers take turns in a section of several steps on a shared state, take something out of it and
return a result later. However their steps interleave, the results are those of whole sections
that run one after the other, numbered in the order in which the lock was taken.
-/

namespace HashStorm.CriticalSection

open Machine

/-- The steps under the lock, what a caller takes out of the section, and what it returns. -/
structure Body (σ ρ τ : Type*) where
  steps : List (σ → σ)
  take : σ → ρ
  output : ρ → τ

/-- The shared state, the holder of the lock with the steps before it, how many sections have
ended, the callers that have left the section with its number, and the results with theirs. -/
structure State (σ ρ τ : Type*) where
  shared : σ
  holder : Option (Nat × List (σ → σ))
  sections : Nat
  leaving : List (Nat × Nat × ρ)
  returned : List (Nat × τ)

/-- A step of a caller. -/
inductive Op where
  | enter (caller : Nat)
  | advance (caller : Nat)
  | leave (caller : Nat)
  | finish (caller : Nat)
  deriving DecidableEq, Repr

variable {σ ρ τ : Type*}

section Steps

/-- Execute steps on the shared state. -/
def execute (steps : List (σ → σ)) (shared : σ) : σ := steps.foldl (fun shared f => f shared) shared

/-- The whole section at once. -/
def Body.apply (body : Body σ ρ τ) (shared : σ) : σ := execute body.steps shared

/-- The state before the first call. -/
def initial (shared : σ) : State σ ρ τ := ⟨shared, none, 0, [], []⟩

/-- The next state, if the caller can take the step. -/
def step (body : Body σ ρ τ) (s : State σ ρ τ) : Op → Option (State σ ρ τ)
  | .enter caller =>
    if s.holder.isNone ∧ ∀ e ∈ s.leaving, e.1 ≠ caller then
      some { s with holder := some (caller, body.steps) }
    else none
  | .advance caller =>
    match s.holder with
    | some (holder, f :: rest) =>
      if holder = caller then
        some { s with shared := f s.shared, holder := some (holder, rest) }
      else none
    | _ => none
  | .leave caller =>
    match s.holder with
    | some (holder, []) =>
      if holder = caller then
        some { s with
          holder := none
          sections := s.sections + 1
          leaving := s.leaving ++ [(caller, s.sections, body.take s.shared)] }
      else none
    | _ => none
  | .finish caller =>
    match s.leaving.find? fun e => e.1 = caller with
    | some e =>
      some { s with
        leaving := s.leaving.eraseP fun e => e.1 = caller
        returned := s.returned ++ [(e.2.1, body.output e.2.2)] }
    | none => none

end Steps

section Runs

variable {body : Body σ ρ τ} {start : σ} {s s' : State σ ρ τ}

/-- What a caller takes out of the section of a number. -/
def Body.taken (body : Body σ ρ τ) (start : σ) (number : Nat) : ρ :=
  body.take (body.apply^[number + 1] start)

/-- The steps that are left lead from the shared state to that of whole sections; what was taken
out is that of its section, and every section has one caller. -/
structure Inv (body : Body σ ρ τ) (start : σ) (s : State σ ρ τ) : Prop where
  free : s.holder = none → s.shared = body.apply^[s.sections] start
  held : ∀ caller rest, s.holder = some (caller, rest) →
    execute rest s.shared = body.apply^[s.sections + 1] start
  leaving : ∀ e ∈ s.leaving, e.2.2 = body.taken start e.2.1
  returned : ∀ e ∈ s.returned, e.2 = body.output (body.taken start e.1)
  numbers : (s.leaving.map (·.2.1) ++ s.returned.map Prod.fst).Perm (List.range s.sections)

theorem inv_initial (body : Body σ ρ τ) (start : σ) : Inv body start (initial start) where
  free _ := rfl
  held _ _ h := by cases h
  leaving _ he := absurd he List.not_mem_nil
  returned _ he := absurd he List.not_mem_nil
  numbers := .refl _

/-- A step of the holder does not move the end of its section. -/
theorem Inv.advance (h : Inv body start s) {caller : Nat} {f : σ → σ} {rest : List (σ → σ)}
    (hholder : s.holder = some (caller, f :: rest)) :
    Inv body start { s with shared := f s.shared, holder := some (caller, rest) } where
  free hnone := by cases hnone
  held caller' rest' heq := by
    cases heq
    exact h.held caller (f :: rest) hholder
  leaving := h.leaving
  returned := h.returned
  numbers := h.numbers

/-- A caller that leaves takes what its section ends with. -/
theorem Inv.leave (h : Inv body start s) {caller : Nat} (hholder : s.holder = some (caller, [])) :
    Inv body start { s with
      holder := none
      sections := s.sections + 1
      leaving := s.leaving ++ [(caller, s.sections, body.take s.shared)] } := by
  have hshared : s.shared = body.apply^[s.sections + 1] start := h.held caller [] hholder
  refine ⟨fun _ => hshared, fun _ _ heq => (by cases heq), ?_, h.returned, ?_⟩
  · intro e he
    rcases List.mem_append.mp he with he | he
    · exact h.leaving e he
    · obtain rfl := List.mem_singleton.mp he
      rw [Body.taken, ← hshared]
  · rw [List.map_append, List.range_succ, List.append_assoc]
    exact (List.perm_append_comm.append_left _).trans
      (by rw [← List.append_assoc]; exact h.numbers.append_right _)

/-- A caller returns what it took. -/
theorem Inv.finish (h : Inv body start s) {caller : Nat} {e : Nat × Nat × ρ}
    (hfind : s.leaving.find? (fun e => decide (e.1 = caller)) = some e) :
    Inv body start { s with
      leaving := s.leaving.eraseP fun e => e.1 = caller
      returned := s.returned ++ [(e.2.1, body.output e.2.2)] } := by
  have hperm := perm_eraseP_of_find? hfind
  have hmem : e ∈ s.leaving := hperm.mem_iff.mpr List.mem_cons_self
  refine ⟨h.free, h.held, ?_, ?_, ?_⟩
  · intro e' he'
    exact h.leaving e' (List.mem_of_mem_eraseP he')
  · intro e' he'
    rcases List.mem_append.mp he' with he' | he'
    · exact h.returned e' he'
    · obtain rfl := List.mem_singleton.mp he'
      exact congrArg body.output (h.leaving e hmem)
  · refine List.Perm.trans ?_ h.numbers
    rw [List.map_append, List.map_singleton, ← List.append_assoc]
    exact (List.perm_append_singleton _ _).trans ((hperm.map (·.2.1)).append_right _).symm

theorem Inv.step (h : Inv body start s) {op : Op} (hstep : step body s op = some s') :
    Inv body start s' := by
  cases op with
  | enter caller =>
    simp only [CriticalSection.step] at hstep
    split at hstep
    · rename_i hfree
      cases hstep
      refine ⟨fun hnone => (by cases hnone), fun caller' rest heq => ?_, h.leaving, h.returned,
        h.numbers⟩
      cases heq
      rw [Function.iterate_succ_apply', ← h.free (Option.isNone_iff_eq_none.mp hfree.1)]
      rfl
    · cases hstep
  | advance caller =>
    simp only [CriticalSection.step] at hstep
    split at hstep
    · rename_i holder f rest hholder
      split at hstep
      · cases hstep
        exact h.advance hholder
      · cases hstep
    · cases hstep
  | leave caller =>
    simp only [CriticalSection.step] at hstep
    split at hstep
    · rename_i holder hholder
      split at hstep
      · rename_i heq
        subst heq
        cases hstep
        exact h.leave hholder
      · cases hstep
    · cases hstep
  | finish caller =>
    simp only [CriticalSection.step] at hstep
    split at hstep
    · rename_i e hfind
      cases hstep
      exact h.finish hfind
    · cases hstep

/-- The results of any interleaving are those of whole sections, each returned once. -/
theorem returned_of_run {ops : List Op} (hrun : run (step body) (initial start) ops = some s) :
    (s.returned.map Prod.fst).Nodup ∧
      ∀ e ∈ s.returned, e.1 < s.sections ∧ e.2 = body.output (body.taken start e.1) := by
  have h : Inv body start s :=
    run_preserves (Inv body start) (fun _ _ _ h hstep => h.step hstep) (inv_initial body start) hrun
  refine ⟨(List.nodup_append.mp (h.numbers.nodup_iff.mpr List.nodup_range)).2.1, fun e he => ?_⟩
  have hnumber : e.1 ∈ List.range s.sections :=
    h.numbers.subset (List.mem_append_right _ (List.mem_map_of_mem he))
  exact ⟨List.mem_range.mp hnumber, h.returned e he⟩

end Runs

end HashStorm.CriticalSection
