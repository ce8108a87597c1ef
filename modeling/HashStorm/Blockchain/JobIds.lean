import HashStorm.Lib.Machine
import HashStorm.Stratum.HexUtils
import Mathlib

/-!
# Job ids

`NextJobId` increments a counter of 32 bits and reads it with a compare-exchange, which also
restarts the counter when it has wrapped. Concurrent callers can both increment before either
reads. The ids of a run are different if and only if the counter has moved before every read.
-/

namespace HashStorm.Blockchain.JobManagerBase

open Stratum Machine

section Formats

/-- The formats that job managers pass to `NextJobId`. -/
inductive Format where
  | hex8
  | upperHex
  | decimal
  deriving DecidableEq, Repr

/-- The upper-case digit of a number below sixteen. -/
def upperHexDigit (d : Nat) : UInt16 := UInt16.ofNat (if d < 10 then 48 + d else 55 + d)

/-- `ToString("X")`. -/
def toStringUpperX (value : Nat) : Text :=
  if value = 0 then [upperHexDigit 0] else ((Nat.digits 16 value).map upperHexDigit).reverse

/-- `value.ToString(format)`, or `ToStringHex8` without a format. -/
def Format.write (format : Format) (value : Int32) : Text :=
  match format with
  | .hex8 => toStringX 8 value.toUInt32.toNat
  | .upperHex => toStringUpperX value.toUInt32.toNat
  | .decimal => text (toString value.toInt)

theorem getHexVal_upperHexDigit : ∀ d < 16, getHexVal (upperHexDigit d) = d := by
  decide

/-- A number is read back from its upper-case digits. -/
theorem hexNumber_toStringUpperX (value : Nat) : hexNumber (toStringUpperX value) = value := by
  rw [toStringUpperX]
  split
  · rename_i hzero
    rw [hzero]
    rfl
  · have hdigits : ((Nat.digits 16 value).map upperHexDigit).map (fun c => (getHexVal c).toNat) =
        Nat.digits 16 value := by
      rw [List.map_map]
      refine (List.map_congr_left fun d hd => ?_).trans (List.map_id _)
      rw [Function.comp_apply, getHexVal_upperHexDigit d (Nat.digits_lt_base (by decide) hd)]
      rfl
    rw [hexNumber, List.reverse_reverse, hdigits, Nat.ofDigits_digits]

/-- Texts of narrow characters are known by their code units. -/
theorem text_inj {s t : String} (hs : ∀ c ∈ s.toList, c.toNat < 2 ^ 16)
    (ht : ∀ c ∈ t.toList, c.toNat < 2 ^ 16) (h : text s = text t) : s = t := by
  have hunit : ∀ c : Char, c.toNat < 2 ^ 16 → (UInt16.ofNat c.toNat).toNat = c.toNat :=
    fun c hc => by rw [UInt16.toNat_ofNat', Nat.mod_eq_of_lt hc]
  have hmap : ∀ u : String, (∀ c ∈ u.toList, c.toNat < 2 ^ 16) →
      (text u).map UInt16.toNat = u.toList.map Char.toNat := by
    intro u hu
    rw [text, List.map_map]
    exact List.map_congr_left fun c hc => hunit c (hu c hc)
  have hchars : s.toList.map Char.toNat = t.toList.map Char.toNat := by
    rw [← hmap s hs, h, hmap t ht]
  apply String.toList_inj.mp
  exact List.map_injective_iff.mpr (fun c d hcd => Char.toNat_inj.mp hcd) hchars

theorem narrow_of_mem_toString {i : Int} {c : Char} (h : c ∈ (toString i).toList) :
    c.toNat < 2 ^ 16 := by
  have hdigits : ∀ n : Nat, c ∈ n.repr.toList → c.toNat < 2 ^ 16 := by
    intro n hn
    rw [Nat.toList_repr] at hn
    have hdigit := Nat.isDigit_of_mem_toDigits (by decide) (by decide) hn
    rw [Char.isDigit, Bool.and_eq_true, decide_eq_true_eq, decide_eq_true_eq] at hdigit
    exact Nat.lt_of_le_of_lt hdigit.2 (by decide)
  rw [Int.toString_eq_repr, Int.repr_eq_if] at h
  split at h
  · exact hdigits _ h
  · rw [String.toList_append, List.mem_append] at h
    rcases h with h | h
    · obtain rfl : c = '-' := by simpa using h
      decide
    · exact hdigits _ h

/-- A counter is known by its text. -/
theorem Format.write_inj {format : Format} {value value' : Int32}
    (h : format.write value = format.write value') : value = value' := by
  have hpattern : value.toUInt32.toNat = value'.toUInt32.toNat → value = value' :=
    fun heq => Int32.toBitVec_inj.mp (congrArg UInt32.toBitVec (UInt32.toNat_inj.mp heq))
  cases format with
  | hex8 =>
    apply hpattern
    calc value.toUInt32.toNat = hexNumber (toStringX 8 value.toUInt32.toNat) :=
          (hexNumber_toStringX value.toUInt32.toNat_lt).symm
      _ = hexNumber (toStringX 8 value'.toUInt32.toNat) := congrArg hexNumber h
      _ = value'.toUInt32.toNat := hexNumber_toStringX value'.toUInt32.toNat_lt
  | upperHex =>
    apply hpattern
    calc value.toUInt32.toNat = hexNumber (toStringUpperX value.toUInt32.toNat) :=
          (hexNumber_toStringUpperX _).symm
      _ = hexNumber (toStringUpperX value'.toUInt32.toNat) := congrArg hexNumber h
      _ = value'.toUInt32.toNat := hexNumber_toStringUpperX _
  | decimal =>
    have htext := text_inj (fun _ => narrow_of_mem_toString) (fun _ => narrow_of_mem_toString) h
    rw [Int.toString_eq_repr, Int.toString_eq_repr] at htext
    exact Int32.toInt_inj.mp (Int.repr_inj.mp htext)

end Formats

section Callers

/-- The counter, the callers between their two steps, whether the counter has changed since it
was last read, and the ids that have been returned. -/
structure State where
  jobId : Int32
  pending : List Nat
  moved : Bool
  ids : List Text
  deriving DecidableEq, Repr

/-- The atomic steps of a call. -/
inductive Op where
  | increment (caller : Nat)
  | compareExchange (caller : Nat)
  deriving DecidableEq, Repr

/-- A step of `NextJobId`. -/
def step (format : Format) (s : State) : Op → Option State
  | .increment caller =>
    if caller ∈ s.pending then none
    else some { s with jobId := s.jobId + 1, pending := caller :: s.pending, moved := true }
  | .compareExchange caller =>
    if caller ∈ s.pending then
      some {
        jobId := if s.jobId = Int32.minValue then 0 else s.jobId
        pending := s.pending.erase caller
        moved := s.jobId = Int32.minValue
        ids := s.ids ++ [format.write s.jobId] }
    else none

/-- `NextJobId` without other callers: the counter afterwards, and the id. -/
def nextJobId (format : Format) (jobId : Int32) : Int32 × Text :=
  let value := jobId + 1
  (if value = Int32.minValue then 0 else value, format.write value)

/-- No id has been returned yet; earlier calls may be between their steps. -/
def start (jobId : Int32) (pending : List Nat) : State := ⟨jobId, pending, true, []⟩

/-- A call starts with its increment. -/
def Op.starts : Op → Bool
  | .increment _ => true
  | .compareExchange _ => false

/-- The counter that a compare-exchange reads has changed since the one before. -/
def Fresh (s : State) : Op → Prop
  | .increment _ => True
  | .compareExchange _ => s.moved = true

instance (s : State) : (op : Op) → Decidable (Fresh s op)
  | .increment _ => isTrue trivial
  | .compareExchange _ => inferInstanceAs (Decidable (s.moved = true))

end Callers

section Counter

theorem ofNat_inj_iff (u v : Nat) : Int32.ofNat u = Int32.ofNat v ↔ u % 2 ^ 32 = v % 2 ^ 32 := by
  rw [← Int32.toBitVec_inj, ← BitVec.toNat_inj]
  exact Iff.rfl

/-- The counter wraps at the middle of its round. -/
theorem ofNat_eq_minValue (u : Nat) : Int32.ofNat u = Int32.minValue ↔ u % 2 ^ 32 = 2 ^ 31 := by
  have hmin : Int32.minValue = Int32.ofNat (2 ^ 31) := by decide
  rw [hmin]
  exact ofNat_inj_iff u (2 ^ 31)

theorem exists_ofNat (value : Int32) : ∃ u, value = Int32.ofNat u := by
  refine ⟨value.toBitVec.toNat, Int32.toBitVec_inj.mp ?_⟩
  rw [Int32.toBitVec_ofNat', BitVec.ofNat_toNat, BitVec.setWidth_eq]

end Counter

variable {format : Format} {s s' : State} {op : Op} {ops : List Op} {first calls u : Nat}
  {reads : List Nat}

section Distinct

/-- The counter as if it did not wrap: a restart skips half a round. The reads are in order, and
fewer calls than half a round restart it at most once. -/
structure Unwrapped (format : Format) (first calls u : Nat) (reads : List Nat) (s : State) :
    Prop where
  jobId : s.jobId = Int32.ofNat u
  ids : s.ids = reads.map fun r => format.write (Int32.ofNat r)
  sorted : reads.Pairwise (· < ·)
  first_le : first ≤ u
  within : ∀ r ∈ reads, first ≤ r ∧ r ≤ u
  before : s.moved = true → ∀ r ∈ reads, r < u
  restarts : u = first + calls ∨ u ≤ first + calls + 2 ^ 31 ∧ u % 2 ^ 32 ≤ calls

theorem unwrapped_start (format : Format) (u : Nat) (pending : List Nat) :
    Unwrapped format u 0 u [] (start (Int32.ofNat u) pending) where
  jobId := rfl
  ids := rfl
  sorted := .nil
  first_le := le_rfl
  within _ hr := absurd hr List.not_mem_nil
  before _ _ hr := absurd hr List.not_mem_nil
  restarts := .inl rfl

theorem Unwrapped.increment (h : Unwrapped format first calls u reads s) (pending : List Nat) :
    Unwrapped format first (calls + 1) (u + 1) reads
      { s with jobId := s.jobId + 1, pending := pending, moved := true } where
  jobId := by
    rw [h.jobId, Int32.ofNat_add]
    rfl
  ids := h.ids
  sorted := h.sorted
  first_le := Nat.le_succ_of_le h.first_le
  within r hr := ⟨(h.within r hr).1, Nat.le_succ_of_le (h.within r hr).2⟩
  before _ r hr := Nat.lt_succ_of_le (h.within r hr).2
  restarts := by
    rcases h.restarts with hu | ⟨hu, hround⟩
    · exact .inl (by omega)
    · exact .inr (by omega)

/-- A read of a counter that has moved comes behind all reads. -/
theorem Unwrapped.sorted_append (h : Unwrapped format first calls u reads s)
    (hmoved : s.moved = true) : (reads ++ [u]).Pairwise (· < ·) := by
  rw [List.pairwise_append]
  refine ⟨h.sorted, List.pairwise_singleton _ _, fun r hr v hv => ?_⟩
  rw [List.mem_singleton.mp hv]
  exact h.before hmoved r hr

theorem Unwrapped.ids_append (h : Unwrapped format first calls u reads s) :
    s.ids ++ [format.write s.jobId] =
      (reads ++ [u]).map fun r => format.write (Int32.ofNat r) := by
  rw [h.ids, h.jobId, List.map_append]
  rfl

theorem Unwrapped.within_append (h : Unwrapped format first calls u reads s) :
    ∀ r ∈ reads ++ [u], first ≤ r ∧ r ≤ u := by
  intro r hr
  rcases List.mem_append.mp hr with hr | hr
  · exact h.within r hr
  · rw [List.mem_singleton.mp hr]
    exact ⟨h.first_le, le_rfl⟩

/-- A compare-exchange leaves the counter, or restarts it, which it has not done before. -/
theorem Unwrapped.compareExchange (h : Unwrapped format first calls u reads s)
    (hcalls : calls < 2 ^ 31) (hmoved : s.moved = true) (pending : List Nat) :
    ∃ u', Unwrapped format first calls u' (reads ++ [u]) {
      jobId := if s.jobId = Int32.minValue then 0 else s.jobId
      pending := pending
      moved := s.jobId = Int32.minValue
      ids := s.ids ++ [format.write s.jobId] } := by
  by_cases hmin : s.jobId = Int32.minValue
  · have hround : u % 2 ^ 32 = 2 ^ 31 := (ofNat_eq_minValue u).mp (h.jobId ▸ hmin)
    refine ⟨u + 2 ^ 31, ?_, h.ids_append, h.sorted_append hmoved, ?_, ?_, ?_, ?_⟩
    · rw [if_pos hmin]
      exact (ofNat_inj_iff 0 (u + 2 ^ 31)).mpr (by omega)
    · exact Nat.le_add_right_of_le h.first_le
    · exact fun r hr => ⟨(h.within_append r hr).1, Nat.le_add_right_of_le (h.within_append r hr).2⟩
    · intro _ r hr
      exact Nat.lt_of_le_of_lt (h.within_append r hr).2 (by omega)
    · rcases h.restarts with hu | ⟨-, hu⟩
      · exact .inr (by omega)
      · omega
  · refine ⟨u, ?_, h.ids_append, h.sorted_append hmoved, h.first_le, h.within_append, ?_,
      h.restarts⟩
    · rw [if_neg hmin]
      exact h.jobId
    · intro htrue
      exact absurd (of_decide_eq_true htrue) hmin

theorem Unwrapped.step (h : Unwrapped format first calls u reads s)
    (hcalls : calls < 2 ^ 31) (hfresh : Fresh s op) (hstep : step format s op = some s') :
    ∃ u' reads', Unwrapped format first (calls + if op.starts then 1 else 0) u' reads' s' := by
  cases op with
  | increment caller =>
    simp only [JobManagerBase.step] at hstep
    split at hstep
    · cases hstep
    · cases hstep
      exact ⟨u + 1, reads, h.increment _⟩
  | compareExchange caller =>
    simp only [JobManagerBase.step] at hstep
    split at hstep
    · cases hstep
      obtain ⟨u', hu'⟩ := h.compareExchange hcalls hfresh (s.pending.erase caller)
      exact ⟨u', _, hu'⟩
    · cases hstep

theorem Unwrapped.run (h : Unwrapped format first calls u reads s)
    (hcalls : calls + ops.countP Op.starts < 2 ^ 31)
    (hfresh : Meets (JobManagerBase.step format) Fresh s ops)
    (hrun : Machine.run (JobManagerBase.step format) s ops = some s') :
    ∃ u' reads', Unwrapped format first (calls + ops.countP Op.starts) u' reads' s' := by
  induction ops generalizing s calls u reads with
  | nil =>
    cases hrun
    exact ⟨u, reads, h⟩
  | cons op ops ih =>
    obtain ⟨hop, hrest⟩ := hfresh
    rw [run_cons, Option.bind_eq_some_iff] at hrun
    obtain ⟨t, ht, hrun⟩ := hrun
    rw [List.countP_cons, Nat.add_comm (ops.countP _), ← Nat.add_assoc] at hcalls ⊢
    obtain ⟨u', reads', h'⟩ := h.step (by omega) hop ht
    exact ih h' hcalls (hrest t ht) hrun

/-- Reads less than a round apart give different ids. -/
theorem Unwrapped.nodup (h : Unwrapped format first calls u reads s) (hcalls : calls < 2 ^ 31) :
    s.ids.Nodup := by
  have hspan : u < first + 2 ^ 32 := by
    rcases h.restarts with hu | ⟨hu, -⟩ <;> omega
  rw [h.ids, List.Nodup, List.pairwise_map]
  refine h.sorted.imp_of_mem fun {r r'} hr hr' hlt heq => ?_
  have hmod := (ofNat_inj_iff r r').mp (Format.write_inj heq)
  have hfirst := (h.within r hr).1
  have hlast := (h.within r' hr').2
  omega

end Distinct

section Repeated

/-- A counter that has not moved is the one that was read last. -/
def LastRead (format : Format) (s : State) : Prop :=
  s.moved = false → format.write s.jobId ∈ s.ids

theorem LastRead.step (hstep : step format s op = some s') : LastRead format s' := by
  intro hmoved
  cases op with
  | increment caller =>
    simp only [JobManagerBase.step] at hstep
    split at hstep
    · cases hstep
    · cases hstep
      cases hmoved
  | compareExchange caller =>
    simp only [JobManagerBase.step] at hstep
    split at hstep
    · cases hstep
      have hne : s.jobId ≠ Int32.minValue := of_decide_eq_false hmoved
      simp only [if_neg hne]
      exact List.mem_append_right _ List.mem_cons_self
    · cases hstep

theorem ids_grow_step (hstep : step format s op = some s') : s.ids <+: s'.ids := by
  cases op with
  | increment caller =>
    simp only [step] at hstep
    split at hstep
    · cases hstep
    · cases hstep
      exact List.prefix_rfl
  | compareExchange caller =>
    simp only [step] at hstep
    split at hstep
    · cases hstep
      exact List.prefix_append _ _
    · cases hstep

theorem ids_grow (hrun : run (step format) s ops = some s') : s.ids <+: s'.ids :=
  run_preserves (s.ids <+: ·.ids) (fun _ _ _ h hstep => h.trans (ids_grow_step hstep))
    List.prefix_rfl hrun

/-- A compare-exchange of a counter that has not moved repeats the last id. -/
theorem fresh_of_nodup (hlast : LastRead format s) (hstep : step format s op = some s')
    (hnodup : s'.ids.Nodup) : Fresh s op := by
  cases op with
  | increment caller => trivial
  | compareExchange caller =>
    simp only [step] at hstep
    split at hstep
    · cases hstep
      by_contra hmoved
      have hmem : format.write s.jobId ∈ s.ids := hlast (Bool.eq_false_iff.mpr hmoved)
      exact (List.nodup_append.mp hnodup).2.2 _ hmem _ List.mem_cons_self rfl
    · cases hstep

theorem meets_of_nodup (hlast : LastRead format s)
    (hrun : run (step format) s ops = some s') (hnodup : s'.ids.Nodup) :
    Meets (step format) Fresh s ops := by
  induction ops generalizing s with
  | nil => trivial
  | cons op ops ih =>
    rw [run_cons, Option.bind_eq_some_iff] at hrun
    obtain ⟨t, ht, hrun⟩ := hrun
    refine ⟨fresh_of_nodup hlast ht (hnodup.sublist (ids_grow hrun).sublist), fun t' ht' => ?_⟩
    obtain rfl := Option.some.inj (ht.symm.trans ht')
    exact ih (LastRead.step ht) hrun

end Repeated

section Ids

/-- The ids that fewer than `2 ^ 31` calls return are different if and only if the counter has
moved between any two compare-exchanges. -/
theorem nextJobId_nodup_iff {jobId : Int32} {pending : List Nat}
    (hcalls : ops.countP Op.starts < 2 ^ 31)
    (hrun : run (step format) (start jobId pending) ops = some s) :
    s.ids.Nodup ↔ Meets (step format) Fresh (start jobId pending) ops := by
  obtain ⟨first, rfl⟩ := exists_ofNat jobId
  constructor
  · exact meets_of_nodup (fun hmoved => by cases hmoved) hrun
  · intro hfresh
    rw [← Nat.zero_add (ops.countP _)] at hcalls
    obtain ⟨u, reads, h⟩ := (unwrapped_start format first pending).run hcalls hfresh hrun
    exact h.nodup hcalls

/-- Three callers, the first of which finds the counter restarted by the second. -/
def wrappedCalls : List Op :=
  [.increment 1, .increment 2, .compareExchange 2, .increment 3, .compareExchange 1, .increment 2,
    .compareExchange 3]

theorem nextJobId_nodup_wrapped : ∃ s,
    run (step .decimal) (start (Int32.maxValue - 1) []) wrappedCalls = some s ∧
    s.ids = [text "-2147483648", text "1", text "2"] ∧ s.ids.Nodup := by
  refine ⟨_, rfl, by decide +kernel, ?_⟩
  have hcalls : wrappedCalls.countP Op.starts < 2 ^ 31 := by decide
  have hfresh : Meets (step .decimal) Fresh (start (Int32.maxValue - 1) []) wrappedCalls := by
    decide +kernel
  exact (nextJobId_nodup_iff hcalls rfl).mpr hfresh

/-- Two callers that both increment before either reads. -/
theorem nextJobId_repeats : ∃ ops s,
    ops.countP Op.starts < 2 ^ 31 ∧ run (step .hex8) (start 0 []) ops = some s ∧
    s.ids = [text "00000002", text "00000002"] ∧ ¬s.ids.Nodup :=
  ⟨[.increment 1, .increment 2, .compareExchange 1, .compareExchange 2], _, by decide, rfl,
    by decide, by decide⟩

/-- A call that does not overlap with others is `nextJobId`. -/
theorem run_nextJobId (format : Format) (jobId : Int32) (moved : Bool) (ids : List Text)
    (caller : Nat) :
    run (step format) ⟨jobId, [], moved, ids⟩ [.increment caller, .compareExchange caller] =
      some ⟨(nextJobId format jobId).1, [], jobId + 1 = Int32.minValue,
        ids ++ [(nextJobId format jobId).2]⟩ := by
  simp only [run_cons, step, List.not_mem_nil, if_false, Option.bind_some, List.mem_cons_self,
    if_true, List.erase_cons_head, nextJobId]
  rfl

/-- Calls that do not overlap meet the condition from any counter. -/
theorem meets_of_sequential (callers : List Nat) (jobId : Int32) (ids : List Text) (moved : Bool) :
    Meets (step format) Fresh ⟨jobId, [], moved, ids⟩
      (callers.flatMap fun c => [.increment c, .compareExchange c]) := by
  induction callers generalizing jobId ids moved with
  | nil => trivial
  | cons caller callers ih =>
    rw [List.flatMap_cons, List.cons_append, List.cons_append, List.nil_append]
    refine ⟨trivial, fun t ht => ?_⟩
    simp only [step, List.not_mem_nil, if_false] at ht
    cases ht
    refine ⟨rfl, fun t ht => ?_⟩
    simp only [step, List.mem_cons_self, if_true] at ht
    cases ht
    rw [List.erase_cons_head]
    exact ih _ _ _

end Ids

end HashStorm.Blockchain.JobManagerBase
