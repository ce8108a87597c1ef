import HashStorm.Lib.CountingLoop
import HashStorm.Lib.Rounding
import HashStorm.Lib.StampedSlots
import Mathlib

/-!
# The rolling ring

`RollingRing` adds amounts in fixed point to a slot for their second. Slots are used again every
2048 seconds, and a slot of another second is emptied first. If no second lies a whole ring below an
earlier one, a window of up to a whole ring sums exactly the amounts of its seconds, in 64 bits.
-/

namespace HashStorm.Live

open StampedSlots CountingLoop Rounding

/-- `LiveHashrateState.DefaultWindowSec`. -/
def DefaultWindowSec : Int32 := 600

/-- `LiveHashrateState.RingSize`. -/
abbrev RingSize : Nat := 2048

/-- `LiveHashrateState.Mask`. -/
def Mask : Int32 := 2047

/-- `LiveHashrateState.SCALE`. -/
def SCALE : Nat := 1000000

/-- The arithmetic of doubles: `(long) Math.Round(amount * SCALE)` and `acc / (double) SCALE`. -/
structure FixedPoint (Double : Type) where
  toFixed : Double → Int64
  ofFixed : Int64 → Double

/-- Exact rationals in place of doubles; the conversion to `long` saturates. -/
def FixedPoint.exact : FixedPoint Rat where
  toFixed amount := Int64.ofIntClamp (roundHalfEven (amount * SCALE))
  ofFixed acc := acc.toInt / SCALE

/-- `LiveHashrateState.RollingRing`. -/
structure RollingRing where
  buckets : Fin RingSize → Int64
  secs : Fin RingSize → Int32

namespace RollingRing

section Source

/-- A new ring. -/
def empty : RollingRing := ⟨fun _ => 0, fun _ => 0⟩

/-- `sec & Mask`. -/
def index (sec : Int32) : Fin RingSize :=
  ⟨(sec &&& Mask).toBitVec.toNat, by
    have hle : (sec &&& Mask).toBitVec.toNat ≤ 2047 := Nat.and_le_right
    exact Nat.lt_succ_of_le hle⟩

variable {Double : Type} (doubles : FixedPoint Double)

/-- `AddAt`. -/
def addAt (ring : RollingRing) (amount : Double) (nowSec : Int32) : RollingRing :=
  let idx := index nowSec
  let cleared : RollingRing :=
    if ring.secs idx ≠ nowSec then
      { secs := Function.update ring.secs idx nowSec
        buckets := Function.update ring.buckets idx 0 }
    else ring
  { cleared with
    buckets :=
      Function.update cleared.buckets idx (cleared.buckets idx + doubles.toFixed amount) }

/-- `fromSec`. -/
def fromSec (nowSec windowSec : Int32) : Int32 :=
  let windowSec := if windowSec ≤ 0 then DefaultWindowSec else windowSec
  nowSec - windowSec + 1

/-- The loop body of `SumWindow`. -/
def addBucket (ring : RollingRing) (acc : Int64) (t : Int32) : Int64 :=
  if ring.secs (index t) = t then acc + ring.buckets (index t) else acc

/-- `SumWindow` at a second. -/
def sumWindow (ring : RollingRing) (nowSec windowSec : Int32) (fuel : Nat) : Option Double :=
  (forTo ring.addBucket nowSec fuel (fromSec nowSec windowSec) 0).map doubles.ofFixed

/-- The loop body of `SumWindowWithAge`, on `acc` and `firstSeen`. -/
def addSeen (ring : RollingRing) (s : Int64 × Int32) (t : Int32) : Int64 × Int32 :=
  if ring.secs (index t) = t then
    (s.1 + ring.buckets (index t), if s.2 = 0 then t else s.2)
  else s

/-- `ageSec`. -/
def ageSec (nowSec firstSeen : Int32) : Int32 :=
  if firstSeen ≠ 0 then
    let ageSec := nowSec - firstSeen + 1
    if ageSec < 1 then 1 else ageSec
  else 0

/-- `SumWindowWithAge` at a second. -/
def sumWindowWithAge (ring : RollingRing) (nowSec windowSec : Int32) (fuel : Nat) :
    Option (Double × Int32) :=
  (forTo ring.addSeen nowSec fuel (fromSec nowSec windowSec) (0, 0)).map fun s =>
    (doubles.ofFixed s.1, ageSec nowSec s.2)

/-- The ring after some calls of `AddAt`. -/
def after (calls : List (Double × Int32)) : RollingRing :=
  calls.foldl (fun ring c => ring.addAt doubles c.1 c.2) empty

end Source

variable {Double : Type} {doubles : FixedPoint Double} {ring : RollingRing}
  {calls : List (Double × Int32)} {nowSec windowSec t : Int32}

/-- Both methods compute the same sum. -/
theorem sumWindow_eq (ring : RollingRing) (nowSec windowSec : Int32) (fuel : Nat) :
    ring.sumWindow doubles nowSec windowSec fuel =
      (ring.sumWindowWithAge doubles nowSec windowSec fuel).map Prod.fst := by
  have hbody : ∀ s t, (ring.addSeen s t).1 = ring.addBucket s.1 t := by
    intro s t
    rw [addSeen, addBucket]
    split <;> rfl
  have hloop : (forTo ring.addSeen nowSec fuel (fromSec nowSec windowSec) (0, 0)).map Prod.fst =
      forTo ring.addBucket nowSec fuel (fromSec nowSec windowSec) 0 :=
    forTo_map Prod.fst hbody fuel
  rw [sumWindow, sumWindowWithAge, ← hloop, Option.map_map, Option.map_map]
  rfl

section Slots

/-- The slot of a second. -/
def slot (sec : Int) : Fin RingSize :=
  ⟨(sec % 2048).toNat, by
    have := Int.emod_lt_of_pos sec (by decide : (0 : Int) < 2048)
    rw [RingSize]
    omega⟩

theorem slot_eq_iff (sec sec' : Int) : slot sec = slot sec' ↔ sec % 2048 = sec' % 2048 := by
  rw [slot, slot, Fin.mk.injEq]
  omega

theorem index_eq (sec : Int32) : index sec = slot sec.toInt := by
  have hand : (sec &&& Mask).toBitVec.toNat = sec.toBitVec.toNat % 2 ^ 11 :=
    Nat.and_two_pow_sub_one_eq_mod _ 11
  have hint : sec.toInt = sec.toBitVec.toInt := rfl
  apply Fin.ext
  simp only [index, slot, hand, hint, BitVec.toInt_eq_toNat_cond]
  split <;> omega

/-- A call as a key and an amount. -/
def entry (doubles : FixedPoint Double) (c : Double × Int32) : Int × Int :=
  (c.2.toInt, (doubles.toFixed c.1).toInt)

/-- The ring holds what the slots hold, with amounts in 64 bits. -/
structure Represents (ring : RollingRing) (slots : Slots (Fin RingSize) Int Int) : Prop where
  stamp : ∀ i, slots.stamp i = (ring.secs i).toInt
  content : ∀ i, ring.buckets i = Int64.ofInt (slots.content i)

/-- The slots of a new ring. -/
def emptySlots : Slots (Fin RingSize) Int Int := ⟨fun _ => 0, fun _ => 0⟩

theorem represents_empty : Represents empty emptySlots := ⟨fun _ => rfl, fun _ => rfl⟩

/-- `AddAt` adds an amount to its slot. -/
theorem Represents.addAt {slots : Slots (Fin RingSize) Int Int} (h : Represents ring slots)
    (c : Double × Int32) :
    Represents (ring.addAt doubles c.1 c.2) (slots.add slot (entry doubles c)) := by
  have hstamp : slots.stamp (slot c.2.toInt) = c.2.toInt ↔ ring.secs (index c.2) = c.2 := by
    rw [h.stamp, ← index_eq, Int32.toInt_inj]
  constructor
  · intro i
    by_cases hi : i = slot c.2.toInt
    · have hself : (slots.add slot (entry doubles c)).stamp i = c.2.toInt := by
        rw [hi]
        exact stamp_add_self
      rw [hself, RollingRing.addAt]
      rw [← index_eq] at hi
      subst hi
      by_cases hsec : ring.secs (index c.2) = c.2
      · simp [hsec]
      · simp [hsec]
    · have hother : (slots.add slot (entry doubles c)).stamp i = slots.stamp i :=
        (add_of_ne hi).1
      rw [hother, h.stamp, RollingRing.addAt]
      rw [← index_eq] at hi
      by_cases hsec : ring.secs (index c.2) = c.2
      · simp [hsec]
      · simp [hsec, hi]
  · intro i
    by_cases hi : i = slot c.2.toInt
    · have hself : (slots.add slot (entry doubles c)).content i =
          (if ring.secs (index c.2) = c.2 then slots.content (index c.2) else 0) +
            (doubles.toFixed c.1).toInt := by
        rw [hi, ← if_congr hstamp rfl rfl, index_eq]
        exact content_add_self
      rw [hself, RollingRing.addAt, Int64.ofInt_add, Int64.ofInt_toInt]
      rw [← index_eq] at hi
      subst hi
      by_cases hsec : ring.secs (index c.2) = c.2
      · simp [hsec, h.content]
      · simp [hsec]
    · have hother : (slots.add slot (entry doubles c)).content i = slots.content i :=
        (add_of_ne hi).2
      rw [hother, ← h.content, RollingRing.addAt]
      rw [← index_eq] at hi
      by_cases hsec : ring.secs (index c.2) = c.2
      · simp [hsec, hi]
      · simp [hsec, hi]

theorem represents_after (doubles : FixedPoint Double) (calls : List (Double × Int32)) :
    Represents (after doubles calls)
      ((calls.map (entry doubles)).foldl (Slots.add slot) emptySlots) := by
  induction calls using List.reverseRecOn with
  | nil => exact represents_empty
  | append_singleton calls c ih =>
    rw [after, List.foldl_append, List.map_append, List.foldl_append]
    exact ih.addAt c

end Slots

section Window

/-- The amounts of the seconds from one to another, which is left out. -/
def between (entries : List (Int × Int)) (first last : Int) : Int :=
  ((entries.filter fun e => first ≤ e.1 ∧ e.1 < last).map Prod.snd).sum

theorem between_self (entries : List (Int × Int)) (first : Int) :
    between entries first first = 0 := by
  have hnil : (entries.filter fun e => first ≤ e.1 ∧ e.1 < first) = [] :=
    List.filter_eq_nil_iff.mpr fun e _ => by simp
  rw [between, hnil]
  rfl

theorem sum_filter_cons (p : Int × Int → Prop) [DecidablePred p] (e : Int × Int)
    (entries : List (Int × Int)) :
    (((e :: entries).filter fun e => p e).map Prod.snd).sum =
      (if p e then e.2 else 0) + ((entries.filter fun e => p e).map Prod.snd).sum := by
  by_cases h : p e <;> simp [h]

/-- One more second adds its amounts. -/
theorem between_succ {entries : List (Int × Int)} {first last : Int} (h : first ≤ last) :
    between entries first (last + 1) = between entries first last + amount entries last := by
  induction entries with
  | nil => rfl
  | cons e entries ih =>
    have hsplit : (if first ≤ e.1 ∧ e.1 < last + 1 then e.2 else 0) =
        (if first ≤ e.1 ∧ e.1 < last then e.2 else 0) + if e.1 = last then e.2 else 0 := by
      split_ifs <;> omega
    rw [between, between, amount, sum_filter_cons, sum_filter_cons, sum_filter_cons, hsplit]
    rw [between, between, amount] at ih
    rw [ih]
    abel

/-- The first second with an amount, or zero. -/
def Earliest (entries : List (Int × Int)) (first last : Int) (seen : Int32) : Prop :=
  seen = 0 ∧ (∀ e ∈ entries, ¬(first ≤ e.1 ∧ e.1 < last)) ∨
    seen ≠ 0 ∧ (∃ e ∈ entries, e.1 = seen.toInt ∧ first ≤ e.1 ∧ e.1 < last) ∧
      ∀ e ∈ entries, first ≤ e.1 → seen.toInt ≤ e.1

/-- A second without amounts changes nothing. -/
theorem Earliest.skip {entries : List (Int × Int)} {first last : Int} {seen : Int32}
    (h : Earliest entries first last seen) (hnone : ∀ e ∈ entries, e.1 ≠ last) :
    Earliest entries first (last + 1) seen := by
  rcases h with ⟨hzero, hempty⟩ | ⟨hseen, ⟨e, he, heq, hfirst, hlast⟩, hmin⟩
  · refine .inl ⟨hzero, fun e he hwithin => hempty e he ⟨hwithin.1, ?_⟩⟩
    have hne := hnone e he
    omega
  · exact .inr ⟨hseen, ⟨e, he, heq, hfirst, by omega⟩, hmin⟩

/-- A second with amounts is the first if none was seen before. -/
theorem Earliest.see {entries : List (Int × Int)} {first : Int} {seen t : Int32}
    (h : Earliest entries first t.toInt seen) (hfirst : first ≤ t.toInt) (ht : t ≠ 0)
    (hentry : ∃ e ∈ entries, e.1 = t.toInt) :
    Earliest entries first (t.toInt + 1) (if seen = 0 then t else seen) := by
  rcases h with ⟨rfl, hempty⟩ | ⟨hseen, ⟨e, he, heq, hfirst', hlast⟩, hmin⟩
  · obtain ⟨e, he, heq⟩ := hentry
    rw [if_pos rfl]
    refine .inr ⟨ht, ⟨e, he, heq, by omega, by omega⟩, fun e' he' hfirst' => ?_⟩
    by_contra hlt
    exact hempty e' he' ⟨hfirst', by omega⟩
  · rw [if_neg hseen]
    exact .inr ⟨hseen, ⟨e, he, heq, hfirst', by omega⟩, hmin⟩

end Window

section Calls

/-- The seconds are positive, and none lies a whole ring or more below an earlier one. -/
structure InOrder (calls : List (Double × Int32)) : Prop where
  positive : ∀ c ∈ calls, 0 < c.2
  late : calls.Pairwise fun c c' => c.2.toInt < c'.2.toInt + (RingSize : Int)

/-- The calls whose second lies in the window. -/
def inWindow (calls : List (Double × Int32)) (nowSec windowSec : Int32) : List (Double × Int32) :=
  calls.filter fun c => nowSec.toInt - windowSec.toInt + 1 ≤ c.2.toInt ∧
    c.2.toInt < nowSec.toInt + 1

/-- The scaled and rounded amounts of the window. -/
def windowTotal (doubles : FixedPoint Double) (calls : List (Double × Int32))
    (nowSec windowSec : Int32) : Int :=
  ((inWindow calls nowSec windowSec).map fun c => (doubles.toFixed c.1).toInt).sum

theorem between_eq_windowTotal : between (calls.map (entry doubles))
    (nowSec.toInt - windowSec.toInt + 1) (nowSec.toInt + 1) =
      windowTotal doubles calls nowSec windowSec := by
  rw [between, List.filter_map, List.map_map]
  rfl

theorem InOrder.pos (h : InOrder calls) {e : Int × Int} (he : e ∈ calls.map (entry doubles)) :
    0 < e.1 := by
  obtain ⟨c, hc, rfl⟩ := List.mem_map.mp he
  exact Int32.lt_iff_toInt_lt.mp (h.positive c hc)

/-- What each slot holds. -/
theorem InOrder.holds (h : InOrder calls) (doubles : FixedPoint Double) (i : Fin RingSize) :
    Holds slot emptySlots ((calls.map (entry doubles)).foldl (Slots.add slot) emptySlots)
      (calls.map (entry doubles)) i := by
  apply holds_foldl fun _ => rfl
  rw [List.pairwise_map]
  refine h.late.imp fun {c c'} hlt hslot => ?_
  rw [slot_eq_iff] at hslot
  simp only [entry, RingSize] at hlt hslot ⊢
  omega

/-- No call replaces the slot of a second that is less than a ring away. -/
theorem le_of_slot_eq (hnow : ∀ c ∈ calls, c.2 ≤ nowSec) (ht : nowSec.toInt - RingSize < t.toInt)
    {e : Int × Int} (he : e ∈ calls.map (entry doubles)) (hslot : slot e.1 = slot t.toInt) :
    e.1 ≤ t.toInt := by
  obtain ⟨c, hc, rfl⟩ := List.mem_map.mp he
  have hle := Int32.le_iff_toInt_le.mp (hnow c hc)
  rw [slot_eq_iff] at hslot
  simp only [entry, RingSize] at ht hslot ⊢
  omega

/-- What the loop has found below a second. -/
def Found (entries : List (Int × Int)) (first t : Int) (s : Int64 × Int32) : Prop :=
  s.1 = Int64.ofInt (between entries first t) ∧ Earliest entries first t s.2

theorem Found.addSeen (h : InOrder calls) (hnow : ∀ c ∈ calls, c.2 ≤ nowSec)
    (ht : nowSec.toInt - RingSize < t.toInt) {first : Int} (hfirst : first ≤ t.toInt)
    {s : Int64 × Int32} (hs : Found (calls.map (entry doubles)) first t.toInt s) :
    Found (calls.map (entry doubles)) first (t.toInt + 1) ((after doubles calls).addSeen s t) := by
  have hrepresents := represents_after doubles calls
  have hholds := h.holds doubles (slot t.toInt)
  have hle : ∀ e ∈ calls.map (entry doubles), slot e.1 = slot t.toInt → e.1 ≤ t.toInt :=
    fun e he => le_of_slot_eq hnow ht he
  have hread := hholds.read_eq rfl hle
  generalize (calls.map (entry doubles)).foldl (Slots.add slot) emptySlots = slots at *
  have hiff : slots.stamp (slot t.toInt) = t.toInt ↔ (after doubles calls).secs (index t) = t := by
    rw [hrepresents.stamp, ← index_eq, Int32.toInt_inj]
  obtain ⟨hacc, hseen⟩ := hs
  rw [Found, between_succ hfirst, Int64.ofInt_add, RollingRing.addSeen]
  split
  · rename_i hsec
    rw [if_pos (hiff.mpr hsec)] at hread
    refine ⟨by rw [hacc, hrepresents.content, index_eq, hread], ?_⟩
    rcases hholds.exists_of_stamp (hiff.mpr hsec) with hentry | hzero
    · have ht0 : t ≠ 0 := by
        rintro rfl
        obtain ⟨e, he, heq⟩ := hentry
        have hpos := h.pos he
        rw [heq, Int32.toInt_zero] at hpos
        exact lt_irrefl _ hpos
      exact hseen.see hfirst ht0 hentry
    · -- the slot of second zero has its stamp from the start
      have ht0 : t = 0 := Int32.toInt_inj.mp hzero.symm
      have hsame : (if s.2 = 0 then t else s.2) = s.2 := by
        split
        · rename_i hs0
          rw [ht0, hs0]
        · rfl
      rw [hsame]
      apply hseen.skip
      intro e he heq
      have hpos := h.pos he
      rw [heq, ht0, Int32.toInt_zero] at hpos
      exact lt_irrefl _ hpos
  · rename_i hsec
    rw [if_neg (mt hiff.mp hsec)] at hread
    refine ⟨by rw [← hread, hacc]; exact (Int64.add_zero _).symm, ?_⟩
    apply hseen.skip
    intro e he heq
    exact hsec (hiff.mp (hholds.stamp_eq hle ⟨e, he, heq⟩))

/-- The first second of a window, if the 32 bits hold it. -/
theorem toInt_fromSec (hwindow : 1 ≤ windowSec.toInt) (hsize : windowSec.toInt ≤ RingSize) :
    (fromSec nowSec windowSec).toInt = nowSec.toInt - windowSec.toInt + 1 ∨
      nowSec.toInt < 0 ∧ nowSec < fromSec nowSec windowSec := by
  have hpos : ¬windowSec ≤ 0 := by
    rw [Int32.le_iff_toInt_le, Int32.toInt_zero]
    omega
  have hmin := Int32.minValue_le_toInt nowSec
  have hmax := Int32.toInt_lt nowSec
  rw [Int32.toInt_minValue] at hmin
  rw [Int32.lt_iff_toInt_lt, fromSec, if_neg hpos, Int32.toInt_add, Int32.toInt_sub,
    Int32.toInt_one, Int.bmod_add_bmod, Int.bmod_def]
  simp only [RingSize] at hsize ⊢
  omega

/-- The age of a window. -/
theorem toInt_ageSec {seen : Int32} (hseen : 0 < seen.toInt) (hle : seen.toInt ≤ nowSec.toInt)
    (hlast : nowSec.toInt < 2 ^ 31 - 1) :
    (ageSec nowSec seen).toInt = nowSec.toInt - seen.toInt + 1 := by
  have hne : seen ≠ 0 := by
    rintro rfl
    exact lt_irrefl _ hseen
  have hage : (nowSec - seen + 1).toInt = nowSec.toInt - seen.toInt + 1 := by
    rw [Int32.toInt_add, Int32.toInt_sub, Int32.toInt_one, Int.bmod_add_bmod, Int.bmod_def]
    omega
  have hpos : ¬nowSec - seen + 1 < 1 := by
    rw [Int32.lt_iff_toInt_lt, hage, Int32.toInt_one]
    omega
  rw [ageSec, if_pos hne, if_neg hpos, hage]

/-- The loop of `SumWindowWithAge` finds the window. -/
theorem found_window (doubles : FixedPoint Double) (h : InOrder calls)
    (hnow : ∀ c ∈ calls, c.2 ≤ nowSec)
    (hlast : nowSec.toInt < 2 ^ 31 - 1) (hwindow : 1 ≤ windowSec.toInt)
    (hsize : windowSec.toInt ≤ RingSize) {fuel : Nat} (hfuel : windowSec.toInt < fuel) :
    ∃ s, forTo (after doubles calls).addSeen nowSec fuel (fromSec nowSec windowSec) (0, 0) =
        some s ∧
      Found (calls.map (entry doubles)) (nowSec.toInt - windowSec.toInt + 1) (nowSec.toInt + 1)
        s := by
  rcases toInt_fromSec hwindow hsize with hfrom | ⟨hneg, hbehind⟩
  · have hzero : Found (calls.map (entry doubles)) (nowSec.toInt - windowSec.toInt + 1)
        (fromSec nowSec windowSec).toInt (0, 0) := by
      rw [hfrom, Found, between_self]
      refine ⟨rfl, .inl ⟨rfl, fun e _ hwithin => ?_⟩⟩
      omega
    have hsteps : nowSec.toInt + 1 - (fromSec nowSec windowSec).toInt < fuel := by omega
    have hstep (t : Int32) (s : Int64 × Int32) (_ : t ≤ nowSec)
        (hs : nowSec.toInt - windowSec.toInt + 1 ≤ t.toInt ∧ Found (calls.map (entry doubles))
          (nowSec.toInt - windowSec.toInt + 1) t.toInt s) :=
      And.intro (Int.le_add_one hs.1) (hs.2.addSeen h hnow (by omega) hs.1)
    obtain ⟨s, hloop, -, hfound⟩ := forTo_rule
      (fun u s => nowSec.toInt - windowSec.toInt + 1 ≤ u ∧
        Found (calls.map (entry doubles)) (nowSec.toInt - windowSec.toInt + 1) u s)
      hlast hstep hsteps (by omega) ⟨hfrom.ge, hzero⟩
    exact ⟨s, hloop, hfound⟩
  · -- a window that reaches below 32 bits lies before all calls
    have hnil : calls = [] := by
      apply List.eq_nil_iff_forall_not_mem.mpr
      intro c hc
      have hpos := Int32.lt_iff_toInt_lt.mp (h.positive c hc)
      have hle := Int32.le_iff_toInt_le.mp (hnow c hc)
      rw [Int32.toInt_zero] at hpos
      omega
    obtain ⟨fuel, rfl⟩ : ∃ n, fuel = n + 1 := ⟨fuel - 1, by omega⟩
    rw [hnil]
    exact ⟨(0, 0), forTo_of_lt hbehind, rfl, .inl ⟨rfl, fun e he => absurd he List.not_mem_nil⟩⟩

theorem mem_inWindow {c : Double × Int32} : c ∈ inWindow calls nowSec windowSec ↔
    c ∈ calls ∧ nowSec.toInt - windowSec.toInt + 1 ≤ c.2.toInt ∧ c.2.toInt < nowSec.toInt + 1 := by
  rw [inWindow, List.mem_filter, decide_eq_true_eq]

/-- The age is that of the earliest call in the window. -/
theorem age_of_earliest (h : InOrder calls) (hlast : nowSec.toInt < 2 ^ 31 - 1) {seen : Int32}
    (hseen : Earliest (calls.map (entry doubles)) (nowSec.toInt - windowSec.toInt + 1)
      (nowSec.toInt + 1) seen) :
    (inWindow calls nowSec windowSec = [] → ageSec nowSec seen = 0) ∧
      ∀ c ∈ inWindow calls nowSec windowSec,
        (∀ c' ∈ inWindow calls nowSec windowSec, c.2 ≤ c'.2) →
          (ageSec nowSec seen).toInt = nowSec.toInt - c.2.toInt + 1 := by
  rcases hseen with ⟨rfl, hempty⟩ | ⟨-, ⟨e, he, heq, hfirst, hlast'⟩, hmin⟩
  · refine ⟨fun _ => rfl, fun c hc => ?_⟩
    obtain ⟨hmem, hwithin⟩ := mem_inWindow.mp hc
    exact absurd hwithin (hempty _ (List.mem_map_of_mem hmem))
  · have hpos := h.pos he
    obtain ⟨c₀, hc₀, rfl⟩ := List.mem_map.mp he
    have hwithin : c₀ ∈ inWindow calls nowSec windowSec :=
      mem_inWindow.mpr ⟨hc₀, hfirst, hlast'⟩
    constructor
    · intro hnil
      rw [hnil] at hwithin
      exact absurd hwithin List.not_mem_nil
    · intro c hc hle
      obtain ⟨hmem, hcfirst, -⟩ := mem_inWindow.mp hc
      have hge : seen.toInt ≤ c.2.toInt := hmin _ (List.mem_map_of_mem hmem) hcfirst
      have hle' : c.2.toInt ≤ c₀.2.toInt := Int32.le_iff_toInt_le.mp (hle c₀ hwithin)
      simp only [entry] at heq hpos hlast'
      rw [toInt_ageSec (by omega) (by omega) hlast]
      omega

/-- For calls in order and a window of up to a whole ring, `SumWindow` is the sum in 64 bits of the
scaled and rounded amounts of the calls in the window, and the age is that of the earliest. -/
theorem window_exact (h : InOrder calls) (hnow : ∀ c ∈ calls, c.2 ≤ nowSec)
    (hlast : nowSec < Int32.maxValue) (hwindow : 1 ≤ windowSec.toInt)
    (hsize : windowSec.toInt ≤ RingSize) {fuel : Nat} (hfuel : windowSec.toInt < fuel) :
    ∃ (acc : Int64) (age : Int32),
      (after doubles calls).sumWindow doubles nowSec windowSec fuel = some (doubles.ofFixed acc) ∧
      (after doubles calls).sumWindowWithAge doubles nowSec windowSec fuel =
        some (doubles.ofFixed acc, age) ∧
      acc.toInt = (windowTotal doubles calls nowSec windowSec).bmod (2 ^ 64) ∧
      (-2 ^ 63 ≤ windowTotal doubles calls nowSec windowSec →
        windowTotal doubles calls nowSec windowSec < 2 ^ 63 →
          acc.toInt = windowTotal doubles calls nowSec windowSec) ∧
      (inWindow calls nowSec windowSec = [] → age = 0) ∧
      ∀ c ∈ inWindow calls nowSec windowSec,
        (∀ c' ∈ inWindow calls nowSec windowSec, c.2 ≤ c'.2) →
          age.toInt = nowSec.toInt - c.2.toInt + 1 := by
  rw [Int32.lt_iff_toInt_lt, Int32.toInt_maxValue] at hlast
  obtain ⟨s, hloop, hacc, hseen⟩ := found_window doubles h hnow hlast hwindow hsize hfuel
  have hage : (after doubles calls).sumWindowWithAge doubles nowSec windowSec fuel =
      some (doubles.ofFixed s.1, ageSec nowSec s.2) := by
    rw [sumWindowWithAge, hloop]
    rfl
  rw [between_eq_windowTotal] at hacc
  refine ⟨s.1, ageSec nowSec s.2, ?_, hage, ?_, ?_, age_of_earliest h hlast hseen⟩
  · rw [sumWindow_eq, hage]
    rfl
  · rw [hacc]
    exact Int64.toInt_ofInt
  · intro hmin hmax
    rw [hacc]
    exact Int64.toInt_ofInt_of_le hmin hmax

/-- A call that comes late by one second less than the ring. -/
def lateCalls : List (Rat × Int32) := [(2, 3000), (1 / 2, 954), (1, 3001)]

theorem window_exact_late : ∃ (acc : Int64) (age : Int32),
    (after .exact lateCalls).sumWindow .exact 3001 2048 2049 = some (FixedPoint.exact.ofFixed acc) ∧
    (after .exact lateCalls).sumWindowWithAge .exact 3001 2048 2049 =
      some (FixedPoint.exact.ofFixed acc, age) ∧
    acc.toInt = 3500000 ∧ age.toInt = 2048 := by
  have horder : InOrder lateCalls := ⟨by decide +kernel, by decide +kernel⟩
  have htotal : windowTotal .exact lateCalls 3001 2048 = 3500000 := by decide +kernel
  obtain ⟨acc, age, hsum, hage, -, hacc, -, hfirst⟩ :=
    @window_exact Rat .exact lateCalls 3001 2048 horder (by decide +kernel) (by decide) (by decide)
      (by decide) 2049 (by decide)
  rw [htotal] at hacc
  refine ⟨acc, age, hsum, hage, hacc (by decide) (by decide), ?_⟩
  exact hfirst (1 / 2, 954) (by decide +kernel) (by decide +kernel)

/-- Amounts whose sum is too large for 64 bits. -/
def largeCalls : List (Rat × Int32) := [(5 * 10 ^ 12, 1), (5 * 10 ^ 12, 1)]

/-- A sum that wraps, and a query at the last second of 32 bits, which does not end. -/
theorem window_not_exact :
    (InOrder largeCalls ∧ windowTotal .exact largeCalls 1 1 = 10 ^ 19 ∧
      (after .exact largeCalls).sumWindow .exact 1 1 2 = some (-(8446744073709551616 / 10 ^ 6))) ∧
    ∀ fuel, (after .exact [(1, Int32.maxValue)]).sumWindow .exact Int32.maxValue 1 fuel = none := by
  refine ⟨⟨⟨by decide +kernel, by decide +kernel⟩, by decide +kernel, by decide +kernel⟩, ?_⟩
  intro fuel
  rw [sumWindow, forTo_maxValue]
  rfl

end Calls

end RollingRing

end HashStorm.Live
