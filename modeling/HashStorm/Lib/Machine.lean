import Mathlib.Data.List.Infix

/-!
# Runs of a deterministic machine

A machine is a partial step function on states and labelled steps. A run folds
the step function over a list of labels; a run that meets a condition on every
step, read in the state before it, keeps every invariant that conditioned steps
preserve.
-/

namespace HashStorm.Machine

variable {σ ι : Type*}

/-- Execute the labels from left to right; `none` when some step is not enabled. -/
def run (step : σ → ι → Option σ) (s : σ) (labels : List ι) : Option σ :=
  labels.foldlM step s

@[simp] theorem run_nil (step : σ → ι → Option σ) (s : σ) : run step s [] = some s := rfl

@[simp] theorem run_cons (step : σ → ι → Option σ) (s : σ) (i : ι) (labels : List ι) :
    run step s (i :: labels) = (step s i).bind fun s' => run step s' labels := rfl

/-- Every step of the run meets the condition in the state before it. -/
def Meets (step : σ → ι → Option σ) (ok : σ → ι → Prop) : σ → List ι → Prop
  | _, [] => True
  | s, i :: labels => ok s i ∧ ∀ s', step s i = some s' → Meets step ok s' labels

instance decidableMeets (step : σ → ι → Option σ) (ok : σ → ι → Prop)
    [∀ s i, Decidable (ok s i)] : ∀ s labels, Decidable (Meets step ok s labels)
  | _, [] => isTrue trivial
  | s, i :: labels =>
    match h : step s i with
    | none => decidable_of_iff (ok s i) (by simp [Meets, h])
    | some s' =>
      have := decidableMeets step ok s' labels
      decidable_of_iff (ok s i ∧ Meets step ok s' labels) (by simp [Meets, h])

/-- A condition on all labels can be added to the condition on the steps. -/
theorem Meets.and_forall {step : σ → ι → Option σ} {ok : σ → ι → Prop} {P : ι → Prop}
    {labels : List ι} {s : σ} (h : Meets step ok s labels) (hP : ∀ i ∈ labels, P i) :
    Meets step (fun s i => P i ∧ ok s i) s labels := by
  induction labels generalizing s with
  | nil => trivial
  | cons i labels ih =>
    obtain ⟨hi, hrest⟩ := h
    obtain ⟨hPi, hPrest⟩ := List.forall_mem_cons.mp hP
    exact ⟨⟨hPi, hi⟩, fun s' hs' => ih (hrest s' hs') hPrest⟩

/-- What conditioned steps preserve, conditioned runs preserve. -/
theorem run_invariant {step : σ → ι → Option σ} {ok : σ → ι → Prop} (Inv : σ → Prop)
    (hstep : ∀ s i s', Inv s → ok s i → step s i = some s' → Inv s')
    {labels : List ι} {s s' : σ} (hs : Inv s) (hok : Meets step ok s labels)
    (hrun : run step s labels = some s') : Inv s' := by
  induction labels generalizing s with
  | nil =>
    cases hrun
    exact hs
  | cons i labels ih =>
    obtain ⟨hi, hrest⟩ := hok
    rw [run_cons, Option.bind_eq_some_iff] at hrun
    obtain ⟨t, ht, hrun⟩ := hrun
    exact ih (hstep s i t hs hi ht) (hrest t ht) hrun

/-- A condition that conditioned steps meet in every state they reach. -/
theorem Meets.of_invariant {step : σ → ι → Option σ} {ok ok' : σ → ι → Prop} (Inv : σ → Prop)
    (hstep : ∀ s i s', Inv s → ok s i → step s i = some s' → Inv s')
    (hok : ∀ s i, Inv s → ok s i → ok' s i) {labels : List ι} {s : σ} (hs : Inv s)
    (h : Meets step ok s labels) : Meets step ok' s labels := by
  induction labels generalizing s with
  | nil => trivial
  | cons i labels ih =>
    obtain ⟨hi, hrest⟩ := h
    exact ⟨hok s i hs hi, fun s' hs' => ih (hstep s i s' hs hi hs') (hrest s' hs')⟩

/-- A condition that says which steps are enabled says which runs are. -/
theorem isSome_run_iff {step : σ → ι → Option σ} {ok : σ → ι → Prop}
    (hok : ∀ s i, (step s i).isSome ↔ ok s i) (s : σ) (labels : List ι) :
    (run step s labels).isSome ↔ Meets step ok s labels := by
  induction labels generalizing s with
  | nil => simp [Meets]
  | cons i labels ih =>
    rw [run_cons, Meets, ← hok]
    cases hstep : step s i with
    | none => simp
    | some s' => simpa using ih s'

/-- A condition that every step meets is met by every run. -/
theorem meets_of_forall {step : σ → ι → Option σ} {ok : σ → ι → Prop} (h : ∀ s i, ok s i) (s : σ)
    (labels : List ι) : Meets step ok s labels := by
  induction labels generalizing s with
  | nil => trivial
  | cons i labels ih => exact ⟨h s i, fun s' _ => ih s'⟩

theorem meets_true (step : σ → ι → Option σ) (s : σ) (labels : List ι) :
    Meets step (fun _ _ => True) s labels :=
  meets_of_forall (fun _ _ => trivial) s labels

/-- What every step preserves, every run preserves. -/
theorem run_preserves {step : σ → ι → Option σ} (Inv : σ → Prop)
    (hstep : ∀ s i s', Inv s → step s i = some s' → Inv s')
    {labels : List ι} {s s' : σ} (hs : Inv s) (hrun : run step s labels = some s') : Inv s' :=
  run_invariant Inv (fun s i s' h _ => hstep s i s' h) hs (meets_true step s labels) hrun

/-- Every state that the run reaches on its way has the property. -/
def Throughout (step : σ → ι → Option σ) (P : σ → Prop) (s : σ) (labels : List ι) : Prop :=
  ∀ done s', done <+: labels → run step s done = some s' → P s'

theorem throughout_nil {step : σ → ι → Option σ} {P : σ → Prop} {s : σ} :
    Throughout step P s [] ↔ P s := by
  constructor
  · exact fun h => h [] s List.prefix_rfl rfl
  · intro h done s' hdone hrun
    rw [List.prefix_nil.mp hdone] at hrun
    cases hrun
    exact h

theorem throughout_cons {step : σ → ι → Option σ} {P : σ → Prop} {s s' : σ} {i : ι}
    {labels : List ι} (hstep : step s i = some s') :
    Throughout step P s (i :: labels) ↔ P s ∧ Throughout step P s' labels := by
  constructor
  · intro h
    refine ⟨h [] s List.nil_prefix rfl, fun done t hdone hrun => ?_⟩
    apply h (i :: done) t (List.cons_prefix_cons.mpr ⟨rfl, hdone⟩)
    rw [run_cons, hstep]
    exact hrun
  · rintro ⟨hs, hrest⟩ done t hdone hrun
    cases done with
    | nil =>
      cases hrun
      exact hs
    | cons j done =>
      obtain ⟨rfl, htail⟩ := List.cons_prefix_cons.mp hdone
      rw [run_cons, hstep] at hrun
      exact hrest done t htail hrun

/-- A condition that says after which steps a property holds says in which runs it does. The
invariant is kept as long as the property holds. -/
theorem throughout_iff_meets {step : σ → ι → Option σ} {ok : σ → ι → Prop} {P : σ → Prop}
    (Inv : σ → Prop) (hok : ∀ s i s', Inv s → step s i = some s' → (P s' ↔ ok s i))
    (hinv : ∀ s i s', Inv s → step s i = some s' → P s' → Inv s') {labels : List ι} {s s' : σ}
    (hs : Inv s) (hP : P s) (hrun : run step s labels = some s') :
    Throughout step P s labels ↔ Meets step ok s labels := by
  induction labels generalizing s with
  | nil => exact throughout_nil.trans (iff_of_true hP trivial)
  | cons i labels ih =>
    rw [run_cons, Option.bind_eq_some_iff] at hrun
    obtain ⟨t, ht, hrun⟩ := hrun
    have hiff := hok s i t hs ht
    rw [throughout_cons ht]
    constructor
    · rintro ⟨-, hrest⟩
      have hPt : P t := hrest [] t List.nil_prefix rfl
      refine ⟨hiff.mp hPt, fun t' ht' => ?_⟩
      obtain rfl := Option.some.inj (ht.symm.trans ht')
      exact (ih (hinv s i t hs ht hPt) hPt hrun).mp hrest
    · rintro ⟨hi, hrest⟩
      have hPt : P t := hiff.mpr hi
      exact ⟨hP, (ih (hinv s i t hs ht hPt) hPt hrun).mpr (hrest t ht)⟩

/-- What is found in a list and taken out of it. -/
theorem perm_eraseP_of_find? {l : List σ} {p : σ → Bool} {a : σ} (h : l.find? p = some a) :
    l.Perm (a :: l.eraseP p) := by
  obtain ⟨hp, before, behind, hsplit, hbefore⟩ := List.find?_eq_some_iff_append.mp h
  have hskip : ∀ b ∈ before, ¬p b = true := by simpa using hbefore
  have herase : l.eraseP p = before ++ behind := by
    rw [hsplit, List.eraseP_append_right _ hskip, List.eraseP_cons_of_pos hp]
  rw [herase, hsplit]
  exact List.perm_middle

end HashStorm.Machine
