import HashStorm.Lib.Machine
import Mathlib.Algebra.Order.BigOperators.Group.List
import Mathlib.Algebra.Order.Field.Rat
import Mathlib.Tactic.Linarith
import Mathlib.Tactic.Positivity
import Mathlib.Tactic.Ring

/-!
# Variable difficulty

`VarDiffManager` keeps the gaps between the last shares of a worker and divides its
difficulty by their average. Where no time has passed that the average covers, it divides
by zero, and the infinite quotient is clamped to the greatest difficulty. In all other
calls the difficulty that is returned lies in range and moves as the average asks.
Doubles are exact rationals, and what a division by zero gives.
-/

namespace HashStorm.VarDiff

open Machine

/-- A `CircularBuffer`: what is pushed behind the last entry of a full one drops the first. -/
structure CircularBuffer (α : Type*) (capacity : Nat) where
  entries : List α
  length_le : entries.length ≤ capacity
  deriving DecidableEq, Repr

namespace CircularBuffer

variable {α : Type*} {capacity : Nat}

/-- A new buffer. -/
def empty : CircularBuffer α capacity := ⟨[], Nat.zero_le _⟩

/-- `Size`. -/
def size (buffer : CircularBuffer α capacity) : Nat := buffer.entries.length

/-- `PushBack`. -/
def pushBack (buffer : CircularBuffer α capacity) (a : α) : CircularBuffer α capacity where
  entries := (buffer.entries ++ [a]).drop (buffer.size + 1 - capacity)
  length_le := by
    rw [List.length_drop, List.length_append, List.length_singleton, size]
    omega

@[simp] theorem entries_empty : (empty : CircularBuffer α capacity).entries = [] := rfl

theorem mem_pushBack {buffer : CircularBuffer α capacity} {a b : α}
    (h : b ∈ (buffer.pushBack a).entries) : b ∈ buffer.entries ∨ b = a := by
  have hmem := List.mem_of_mem_drop h
  rwa [List.mem_append, List.mem_singleton] at hmem

end CircularBuffer

/-- A double that is computed exactly, unless a division by zero gives another. -/
inductive Double where
  | finite (x : Rat)
  | infinity (negative : Bool)
  | nan
  deriving DecidableEq, Repr

/-- The quotient of doubles. -/
def Double.div (x y : Rat) : Double :=
  if y = 0 then
    if 0 < x then .infinity false
    else if x < 0 then .infinity true
    else .nan
  else .finite (x / y)

/-- Whether a double is less than a number. -/
def Double.lt : Double → Rat → Bool
  | .finite x, y => x < y
  | .infinity negative, _ => negative
  | .nan, _ => false

/-- Whether a double is greater than a number. -/
def Double.gt : Double → Rat → Bool
  | .finite x, y => y < x
  | .infinity negative, _ => !negative
  | .nan, _ => false

/-- `double.MaxValue`. -/
def maxValue : Rat := (2 ^ 53 - 1) * 2 ^ 971

/-- `BufferSize`. -/
def bufferSize : Nat := 10

/-- `SafetyMargin`. -/
def safetyMargin : Rat := 1

/-- `VarDiffConfig`. -/
structure VarDiffConfig where
  minDiff : Rat
  maxDiff : Option Rat
  maxDelta : Option Rat
  targetTime : Rat
  retargetTime : Rat
  variancePercent : Rat
  deriving DecidableEq, Repr

/-- `VarDiffContext`; times in seconds. -/
structure VarDiffContext where
  lastTs : Option Rat
  lastRetarget : Rat
  timeBuffer : Option (CircularBuffer Rat bufferSize)
  created : Rat
  lastUpdate : Option Rat
  deriving DecidableEq, Repr

/-- The context of a worker that was created at a time. -/
def VarDiffContext.create (created : Rat) : VarDiffContext := ⟨none, 0, none, created, none⟩

/-- The gaps in the buffer. -/
def VarDiffContext.gaps (ctx : VarDiffContext) : List Rat :=
  (ctx.timeBuffer.getD .empty).entries

/-- The greatest difficulty. -/
def VarDiffConfig.upper (options : VarDiffConfig) : Rat :=
  options.maxDiff.getD (max options.minDiff maxValue)

/-- `tMin`. -/
def VarDiffConfig.tMin (options : VarDiffConfig) : Rat :=
  options.targetTime - options.targetTime * (options.variancePercent / 100)

/-- `tMax`. -/
def VarDiffConfig.tMax (options : VarDiffConfig) : Rat :=
  options.targetTime + options.targetTime * (options.variancePercent / 100)

/-- A difficulty that is too far from the old one is moved to the greatest distance. -/
def limitDelta (maxDelta newDiff oldDiff : Rat) : Rat :=
  let delta := |newDiff - oldDiff|
  if maxDelta < delta then
    if oldDiff < newDiff then newDiff - (delta - maxDelta)
    else if newDiff < oldDiff then newDiff + (delta - maxDelta)
    else newDiff
  else newDiff

/-- The greatest distance in `TryApplyNewDiff`. The difference of two infinities is no number. -/
def VarDiffConfig.limit (options : VarDiffConfig) (newDiff : Double) (oldDiff : Rat) : Double :=
  match options.maxDelta with
  | none => newDiff
  | some maxDelta =>
    if 0 < maxDelta then
      match newDiff with
      | .finite newDiff => .finite (limitDelta maxDelta newDiff oldDiff)
      | .infinity _ => .nan
      | .nan => .nan
    else newDiff

/-- `TryApplyNewDiff`: the difficulty, if it is applied, and the context afterwards. -/
def tryApplyNewDiff (options : VarDiffConfig) (newDiff : Double) (oldDiff ts : Rat)
    (ctx : VarDiffContext) : Option Double × VarDiffContext :=
  let newDiff := options.limit newDiff oldDiff
  let newDiff := if newDiff.lt options.minDiff then .finite options.minDiff else newDiff
  let newDiff := if newDiff.gt options.upper then .finite options.upper else newDiff
  if !newDiff.lt oldDiff && !newDiff.gt oldDiff then (none, ctx)
  else
    (some newDiff, { ctx with
      lastRetarget := ts
      lastUpdate := some ts
      timeBuffer := ctx.timeBuffer.map fun _ => .empty })

/-- What a call returns, the average it divided by, and the context afterwards. -/
structure Outcome where
  returned : Option Double
  divisor : Option Rat
  context : VarDiffContext
  deriving DecidableEq, Repr

/-- The difficulty of a worker is divided by its average. -/
def retarget (options : VarDiffConfig) (difficulty avg ts : Rat) (ctx : VarDiffContext) :
    Outcome :=
  let (returned, ctx) :=
    tryApplyNewDiff options (.div (difficulty * options.targetTime) avg) difficulty ts ctx
  ⟨returned, some avg, ctx⟩

/-- `Update`, at a time and the difficulty of the worker. -/
def update (options : VarDiffConfig) (difficulty ts : Rat) (ctx : VarDiffContext) : Outcome :=
  match ctx.lastTs with
  | some lastTs =>
    let timeDelta := ts - lastTs
    let timeBuffer := ctx.timeBuffer.getD .empty
    let timeTotal := timeBuffer.entries.sum + timeDelta
    let avg := timeTotal / (timeBuffer.size + 1)
    let ctx := { ctx with timeBuffer := some (timeBuffer.pushBack timeDelta), lastTs := some ts }
    if ts - ctx.lastRetarget < options.retargetTime ∨ options.tMin ≤ avg ∧ avg ≤ options.tMax then
      ⟨none, none, ctx⟩
    else retarget options difficulty avg ts ctx
  | none => ⟨none, none, { ctx with lastRetarget := ts, lastTs := some ts }⟩

/-- `IdleUpdate`, when no other update is happening. -/
def idleUpdate (options : VarDiffConfig) (difficulty ts : Rat) (ctx : VarDiffContext) : Outcome :=
  let timeDelta := ts - ctx.lastTs.getD ctx.created + safetyMargin
  if timeDelta < options.retargetTime then ⟨none, none, ctx⟩
  else
    let ctx := { ctx with lastTs := some ts }
    let timeTotal :=
      (ctx.timeBuffer.map fun buffer => buffer.entries.sum).getD 0 + (timeDelta - safetyMargin)
    let avg := timeTotal / ((ctx.timeBuffer.map CircularBuffer.size).getD 0 + 1)
    retarget options difficulty avg ts ctx

/-- A call of the manager. -/
structure Call where
  idle : Bool
  difficulty : Rat
  now : Rat
  deriving DecidableEq, Repr

/-- What a call does. -/
def outcome (options : VarDiffConfig) (ctx : VarDiffContext) (call : Call) : Outcome :=
  if call.idle then idleUpdate options call.difficulty call.now ctx
  else update options call.difficulty call.now ctx

/-- The calls on one worker, one after the other. -/
def step (options : VarDiffConfig) (ctx : VarDiffContext) (call : Call) : Option VarDiffContext :=
  some (outcome options ctx call).context

section Range

variable {options : VarDiffConfig} {difficulty avg ts x old maxDelta : Rat} {d : Double}
  {ctx : VarDiffContext} {call : Call}

/-- A configuration with a target, and with bounds that leave room. -/
structure VarDiffConfig.Valid (options : VarDiffConfig) : Prop where
  targetTime_pos : 0 < options.targetTime
  minDiff_pos : 0 < options.minDiff
  minDiff_le : options.minDiff ≤ options.upper

/-- The difficulty that an average asks for, not farther from the old one than allowed. -/
def VarDiffConfig.proposed (options : VarDiffConfig) (difficulty avg : Rat) : Rat :=
  let newDiff := difficulty * options.targetTime / avg
  match options.maxDelta with
  | none => newDiff
  | some maxDelta => if 0 < maxDelta then limitDelta maxDelta newDiff difficulty else newDiff

/-- The average that is divided by is positive. The difficulty that is returned lies in range;
where it was not clamped, it is not farther from the old one than allowed, and it is higher if
and only if the average was below the target. -/
structure Outcome.InRange (options : VarDiffConfig) (difficulty : Rat) (o : Outcome) : Prop where
  divisor_pos : ∀ avg ∈ o.divisor, 0 < avg
  returned : ∀ d ∈ o.returned, ∃ x avg, d = .finite x ∧ o.divisor = some avg ∧
    options.minDiff ≤ x ∧ x ≤ options.upper ∧
    (options.minDiff ≤ options.proposed difficulty avg →
      options.proposed difficulty avg ≤ options.upper →
      (∀ maxDelta ∈ options.maxDelta, 0 < maxDelta → |x - difficulty| ≤ maxDelta) ∧
        (difficulty < x ↔ avg < options.targetTime))

/-- The distance is cut to the greatest one, on the side where the new difficulty is. -/
theorem limitDelta_spec (x old : Rat) (hpos : 0 < maxDelta) :
    |limitDelta maxDelta x old - old| ≤ maxDelta ∧ (old < limitDelta maxDelta x old ↔ old < x) ∧
      (x ≤ 0 → old ≤ 0 → limitDelta maxDelta x old ≤ 0) := by
  simp only [limitDelta]
  by_cases hfar : maxDelta < |x - old|
  · rw [if_pos hfar]
    by_cases hup : old < x
    · rw [if_pos hup, abs_of_pos (sub_pos.mpr hup)] at *
      have hnew : x - (x - old - maxDelta) = old + maxDelta := by ring
      rw [hnew, add_sub_cancel_left, abs_of_pos hpos]
      exact ⟨le_refl _, iff_of_true (lt_add_of_pos_right _ hpos) hup, fun _ _ => by linarith⟩
    · have hne : x ≠ old := by
        rintro rfl
        rw [sub_self, abs_zero] at hfar
        exact hfar.not_gt hpos
      have hdown : x < old := lt_of_le_of_ne (not_lt.mp hup) hne
      rw [if_neg hup, if_pos hdown, abs_of_neg (sub_neg.mpr hdown)] at *
      have hnew : x + (-(x - old) - maxDelta) = old - maxDelta := by ring
      rw [hnew, sub_sub_cancel_left, abs_neg, abs_of_pos hpos]
      exact ⟨le_refl _, iff_of_false (by linarith) hup, fun _ _ => by linarith⟩
  · rw [if_neg hfar]
    exact ⟨not_lt.mp hfar, Iff.rfl, fun h _ => h⟩

theorem limit_div_of_pos (havg : 0 < avg) :
    options.limit (.div (difficulty * options.targetTime) avg) difficulty =
      .finite (options.proposed difficulty avg) := by
  rw [Double.div, if_neg havg.ne', VarDiffConfig.limit, VarDiffConfig.proposed]
  cases options.maxDelta with
  | none => rfl
  | some maxDelta =>
    by_cases hpos : 0 < maxDelta
    · simp only [if_pos hpos]
    · simp only [if_neg hpos]

/-- What an average asks for is higher where it is below the target, and not positive for a
difficulty that is not. -/
theorem proposed_spec (difficulty : Rat) (hvalid : options.Valid) (havg : 0 < avg) :
    (∀ maxDelta ∈ options.maxDelta, 0 < maxDelta →
      |options.proposed difficulty avg - difficulty| ≤ maxDelta) ∧
    (0 < options.proposed difficulty avg →
      (difficulty < options.proposed difficulty avg ↔ avg < options.targetTime)) := by
  have hnew : 0 < difficulty →
      (difficulty < difficulty * options.targetTime / avg ↔ avg < options.targetTime) := by
    intro hdifficulty
    rw [lt_div_iff₀ havg]
    exact mul_lt_mul_iff_right₀ hdifficulty
  have hsmall : difficulty ≤ 0 → difficulty * options.targetTime / avg ≤ 0 := fun hdifficulty =>
    div_nonpos_of_nonpos_of_nonneg
      (mul_nonpos_of_nonpos_of_nonneg hdifficulty hvalid.targetTime_pos.le) havg.le
  rw [VarDiffConfig.proposed]
  cases options.maxDelta with
  | none =>
    refine ⟨nofun, fun hpos => hnew ?_⟩
    by_contra hle
    exact (hsmall (not_lt.mp hle)).not_gt hpos
  | some maxDelta =>
    by_cases hdelta : 0 < maxDelta
    · obtain ⟨hdistance, hside, hsign⟩ := limitDelta_spec
        (difficulty * options.targetTime / avg) difficulty hdelta
      simp only [if_pos hdelta, Option.mem_def, Option.some.injEq]
      refine ⟨fun m hm _ => hm ▸ hdistance, fun hpos => hside.trans (hnew ?_)⟩
      by_contra hle
      exact (hsign (hsmall (not_lt.mp hle)) (not_lt.mp hle)).not_gt hpos
    · simp only [if_neg hdelta, Option.mem_def, Option.some.injEq]
      refine ⟨fun m hm hpos => absurd (hm ▸ hpos) hdelta, fun hpos => hnew ?_⟩
      by_contra hle
      exact (hsmall (not_lt.mp hle)).not_gt hpos

/-- A difficulty that is applied lies in range, and is the proposed one if that does. -/
theorem tryApplyNewDiff_finite (hle : options.minDiff ≤ options.upper)
    (hlimit : options.limit d old = .finite x)
    {returned : Double} (h : (tryApplyNewDiff options d old ts ctx).1 = some returned) :
    ∃ y, returned = .finite y ∧ options.minDiff ≤ y ∧ y ≤ options.upper ∧
      (options.minDiff ≤ x → x ≤ options.upper → y = x) := by
  have hbounds : ¬options.upper < options.minDiff := not_lt.mpr hle
  by_cases hlow : x < options.minDiff
  · simp only [tryApplyNewDiff, hlimit, Double.lt, Double.gt, hlow, hbounds, decide_true,
      decide_false, Bool.false_eq_true, if_true, if_false] at h
    split at h
    · cases h
    · obtain rfl := Option.some.inj h
      exact ⟨options.minDiff, rfl, le_refl _, hle, fun h => absurd hlow (not_lt.mpr h)⟩
  · by_cases hhigh : options.upper < x
    · simp only [tryApplyNewDiff, hlimit, Double.lt, Double.gt, hlow, hhigh, decide_true,
        decide_false, Bool.false_eq_true, if_true, if_false] at h
      split at h
      · cases h
      · obtain rfl := Option.some.inj h
        exact ⟨options.upper, rfl, hle, le_refl _, fun _ h => absurd hhigh (not_lt.mpr h)⟩
    · simp only [tryApplyNewDiff, hlimit, Double.lt, Double.gt, hlow, hhigh,
        decide_false, Bool.false_eq_true, if_false] at h
      split at h
      · cases h
      · obtain rfl := Option.some.inj h
        exact ⟨x, rfl, not_lt.mp hlow, not_lt.mp hhigh, fun _ _ => rfl⟩

/-- A retarget is in range if and only if it divides by more than zero. -/
theorem retarget_inRange_iff (hvalid : options.Valid) :
    (retarget options difficulty avg ts ctx).InRange options difficulty ↔ 0 < avg := by
  constructor
  · exact fun h => h.divisor_pos avg rfl
  · intro havg
    refine ⟨fun a ha => Option.some.inj ha ▸ havg, fun d hd => ?_⟩
    obtain ⟨x, rfl, hmin, hmax, hsame⟩ :=
      tryApplyNewDiff_finite hvalid.minDiff_le (limit_div_of_pos havg) hd
    refine ⟨x, avg, rfl, rfl, hmin, hmax, fun hlow hhigh => ?_⟩
    obtain ⟨hdistance, hside⟩ := proposed_spec difficulty hvalid havg
    rw [hsame hlow hhigh]
    exact ⟨hdistance, hside (hvalid.minDiff_pos.trans_le hlow)⟩

theorem inRange_of_none (options : VarDiffConfig) (difficulty : Rat) (ctx : VarDiffContext) :
    Outcome.InRange options difficulty ⟨none, none, ctx⟩ := ⟨nofun, nofun⟩

end Range

section Runs

variable {options : VarDiffConfig} {now : Rat} {ctx : VarDiffContext} {call : Call}

/-- The time of the last call, or of the creation. -/
def VarDiffContext.last (ctx : VarDiffContext) : Rat := ctx.lastTs.getD ctx.created

/-- Some time lies between the calls that the average covers. -/
def Elapsed (ctx : VarDiffContext) (now : Rat) : Prop :=
  ctx.last < now ∨ ∃ gap ∈ ctx.gaps, 0 < gap

/-- A call that is due for a retarget, in `Update` with a variance that leaves out zero, comes
after some time. -/
def Timed (options : VarDiffConfig) (ctx : VarDiffContext) (call : Call) : Prop :=
  if call.idle then
    options.retargetTime ≤ call.now - ctx.last + safetyMargin → Elapsed ctx call.now
  else
    ctx.lastTs.isSome → options.retargetTime ≤ call.now - ctx.lastRetarget →
      ¬(options.tMin ≤ 0 ∧ 0 ≤ options.tMax) → Elapsed ctx call.now

/-- No call was later than now, and no gap is negative. -/
structure VarDiffContext.Inv (ctx : VarDiffContext) (now : Rat) : Prop where
  last_le : ctx.last ≤ now
  gaps_nonneg : ∀ gap ∈ ctx.gaps, 0 ≤ gap

theorem inv_create (created : Rat) : (VarDiffContext.create created).Inv created :=
  ⟨le_refl _, nofun⟩

/-- The average is positive if and only if some time has passed, and zero otherwise. -/
theorem VarDiffContext.Inv.average (h : ctx.Inv now) :
    (0 < (ctx.gaps.sum + (now - ctx.last)) / ((ctx.gaps.length : Rat) + 1) ↔ Elapsed ctx now) ∧
      (¬Elapsed ctx now →
        (ctx.gaps.sum + (now - ctx.last)) / ((ctx.gaps.length : Rat) + 1) = 0) := by
  have hcount : (0 : Rat) < (ctx.gaps.length : Rat) + 1 := by positivity
  have hsum : 0 ≤ ctx.gaps.sum := List.sum_nonneg h.gaps_nonneg
  have hgap := sub_nonneg.mpr h.last_le
  have hzero : ¬Elapsed ctx now → ctx.gaps.sum + (now - ctx.last) = 0 := by
    intro hnone
    rw [Elapsed, not_or, not_lt] at hnone
    have hnow : now = ctx.last := le_antisymm hnone.1 h.last_le
    have hgaps : ∀ gap ∈ ctx.gaps, gap = 0 := fun gap hmem =>
      le_antisymm (not_lt.mp fun hpos => hnone.2 ⟨gap, hmem, hpos⟩) (h.gaps_nonneg gap hmem)
    rw [List.sum_eq_zero hgaps, hnow, sub_self, add_zero]
  refine ⟨⟨fun hpos => ?_, fun helapsed => ?_⟩, fun hnone => by rw [hzero hnone, zero_div]⟩
  · by_contra hnone
    rw [hzero hnone, zero_div] at hpos
    exact lt_irrefl _ hpos
  · refine div_pos ?_ hcount
    rcases helapsed with hlater | ⟨gap, hmem, hpos⟩
    · exact add_pos_of_nonneg_of_pos hsum (sub_pos.mpr hlater)
    · have hle := List.single_le_sum h.gaps_nonneg gap hmem
      exact add_pos_of_pos_of_nonneg (hpos.trans_le hle) hgap

theorem tryApplyNewDiff_context (options : VarDiffConfig) (newDiff : Double) (oldDiff ts : Rat)
    (ctx : VarDiffContext) :
    (tryApplyNewDiff options newDiff oldDiff ts ctx).2.last = ctx.last ∧
      ∀ gap ∈ (tryApplyNewDiff options newDiff oldDiff ts ctx).2.gaps, gap ∈ ctx.gaps := by
  unfold tryApplyNewDiff
  extract_lets limited low new
  split
  · exact ⟨rfl, fun _ h => h⟩
  · refine ⟨rfl, fun gap h => ?_⟩
    rw [VarDiffContext.gaps] at h
    cases hbuffer : ctx.timeBuffer <;> simp [hbuffer] at h

/-- A call keeps the invariant, at its own time. -/
theorem VarDiffContext.Inv.outcome (h : ctx.Inv call.now) :
    (outcome options ctx call).context.Inv call.now := by
  have hretarget (options : VarDiffConfig) (difficulty avg : Rat) {ctx' : VarDiffContext}
      (h' : ctx'.Inv call.now) : (retarget options difficulty avg call.now ctx').context.Inv
        call.now := by
    obtain ⟨hlast, hgaps⟩ := tryApplyNewDiff_context options
      (.div (difficulty * options.targetTime) avg) difficulty call.now ctx'
    exact ⟨hlast.trans_le h'.last_le, fun gap hgap => h'.gaps_nonneg gap (hgaps gap hgap)⟩
  have hset : ({ ctx with lastTs := some call.now } : VarDiffContext).Inv call.now :=
    ⟨le_refl _, h.gaps_nonneg⟩
  rw [VarDiff.outcome]
  split
  · rw [idleUpdate]
    split
    · exact h
    · exact hretarget _ _ _ hset
  · rw [update]
    split
    · rename_i lastTs hlast
      have hpushed : ({ ctx with
          timeBuffer := some ((ctx.timeBuffer.getD .empty).pushBack (call.now - lastTs))
          lastTs := some call.now } : VarDiffContext).Inv call.now := by
        refine ⟨le_refl _, fun gap hgap => ?_⟩
        rcases CircularBuffer.mem_pushBack hgap with hmem | rfl
        · exact h.gaps_nonneg gap hmem
        · have hle := h.last_le
          rw [VarDiffContext.last, hlast] at hle
          exact sub_nonneg.mpr hle
      dsimp only
      split
      · exact hpushed
      · exact hretarget _ _ _ hpushed
    · exact ⟨le_refl _, h.gaps_nonneg⟩

/-- A call is in range if and only if it is timed. -/
theorem VarDiffContext.Inv.inRange_iff (hvalid : options.Valid) (h : ctx.Inv call.now) :
    (VarDiff.outcome options ctx call).InRange options call.difficulty ↔
      Timed options ctx call := by
  obtain ⟨hpositive, hzero⟩ := h.average
  rw [VarDiff.outcome, Timed]
  split
  · have hsum : (ctx.timeBuffer.map fun buffer => buffer.entries.sum).getD 0 = ctx.gaps.sum := by
      rw [VarDiffContext.gaps]
      cases ctx.timeBuffer <;> rfl
    have hsize : (ctx.timeBuffer.map CircularBuffer.size).getD 0 = ctx.gaps.length := by
      rw [VarDiffContext.gaps]
      cases ctx.timeBuffer <;> rfl
    simp only [idleUpdate]
    rw [hsum, hsize, add_sub_cancel_right, VarDiffContext.last]
    split
    · rename_i hearly
      exact iff_of_true (inRange_of_none _ _ _) fun hdue => absurd hearly (not_lt.mpr hdue)
    · rename_i hdue
      rw [retarget_inRange_iff hvalid, imp_iff_right (not_lt.mp hdue)]
      exact hpositive
  · rw [update]
    split
    · rename_i lastTs hlast
      have hlast' : ctx.last = lastTs := by rw [VarDiffContext.last, hlast]; rfl
      rw [hlast'] at hpositive hzero
      simp only [VarDiffContext.gaps] at hpositive hzero
      rw [hlast, Option.isSome_some, imp_iff_right rfl]
      dsimp only [CircularBuffer.size]
      split
      · rename_i hstays
        refine iff_of_true (inRange_of_none _ _ _) fun hdue hvariance => ?_
        by_contra hnone
        rw [hzero hnone] at hstays
        exact hstays.elim (not_lt.mpr hdue) hvariance
      · rename_i hleaves
        rw [not_or, not_lt] at hleaves
        rw [retarget_inRange_iff hvalid, imp_iff_right hleaves.1]
        refine hpositive.trans ⟨fun helapsed _ => helapsed, fun htimed => ?_⟩
        by_contra hnone
        rw [hzero hnone] at hleaves
        exact hnone (htimed hleaves.2)
    · rename_i hlast
      refine iff_of_true (inRange_of_none _ _ _) fun hsome => ?_
      rw [hlast] at hsome
      cases hsome

/-- **When variable difficulty stays in range.** In every run of calls at times that do not
decrease, all calls are in range if and only if all are timed. -/
theorem inRange_iff_timed (hvalid : options.Valid) (created : Rat) (calls : List Call)
    (hsorted : (created :: calls.map Call.now).Pairwise (· ≤ ·)) :
    Meets (step options)
        (fun ctx call => (outcome options ctx call).InRange options call.difficulty)
        (.create created) calls ↔
      Meets (step options) (Timed options) (.create created) calls := by
  have hrun : ∀ (now : Rat) (ctx : VarDiffContext), ctx.Inv now →
      (now :: calls.map Call.now).Pairwise (· ≤ ·) →
        (Meets (step options)
            (fun ctx call => (outcome options ctx call).InRange options call.difficulty)
            ctx calls ↔ Meets (step options) (Timed options) ctx calls) := by
    clear hsorted
    induction calls with
    | nil => exact fun _ _ _ _ => Iff.rfl
    | cons call calls ih =>
      intro now ctx hinv hsorted
      rw [List.map_cons, List.pairwise_cons] at hsorted
      have hcall : ctx.Inv call.now :=
        ⟨hinv.last_le.trans (hsorted.1 _ List.mem_cons_self), hinv.gaps_nonneg⟩
      refine and_congr (hcall.inRange_iff hvalid) (forall_congr' fun ctx' => ?_)
      refine imp_congr_right fun hstep => ?_
      obtain rfl := Option.some.inj hstep
      exact ih call.now _ hcall.outcome hsorted.2
  exact hrun created _ (inv_create created) hsorted

/-- A share every fifteen seconds is wanted. -/
def exampleOptions : VarDiffConfig := ⟨1, some 1000, none, 15, 90, 30⟩

theorem exampleOptions_valid : exampleOptions.Valid := ⟨by decide, by decide, by decide⟩

/-- A share, an idle call and a share at the time of the idle call. -/
def exampleCalls : List Call := [⟨false, 1, 0⟩, ⟨true, 1, 100⟩, ⟨false, 1, 100⟩]

/-- The last call divides by zero, and returns the greatest difficulty. -/
theorem idle_then_share_divides_by_zero :
    exampleOptions.Valid ∧ ((0 : Rat) :: exampleCalls.map Call.now).Pairwise (· ≤ ·) ∧
      ¬Meets (step exampleOptions)
        (fun ctx call => (outcome exampleOptions ctx call).InRange exampleOptions call.difficulty)
        (.create 0) exampleCalls := by
  refine ⟨exampleOptions_valid, by decide +kernel, fun hmeets => ?_⟩
  have hlast := ((hmeets.2 _ rfl).2 _ rfl).1
  exact absurd (hlast.divisor_pos 0 (by decide +kernel)) (lt_irrefl 0)

/-- Shares a minute apart are timed, and in range. -/
theorem minutely_inRange :
    Meets (step exampleOptions)
      (fun ctx call => (outcome exampleOptions ctx call).InRange exampleOptions call.difficulty)
      (.create 0) [⟨false, 1, 60⟩, ⟨false, 1, 120⟩, ⟨false, 1, 180⟩] := by
  refine (inRange_iff_timed exampleOptions_valid 0 _ (by decide +kernel)).mpr ?_
  refine ⟨nofun, fun _ h => ?_⟩
  obtain rfl := Option.some.inj h
  refine ⟨fun _ _ _ => .inl (by decide +kernel), fun _ h => ?_⟩
  obtain rfl := Option.some.inj h
  exact ⟨fun _ _ _ => .inl (by decide +kernel), fun _ _ => trivial⟩

end Runs

end HashStorm.VarDiff
