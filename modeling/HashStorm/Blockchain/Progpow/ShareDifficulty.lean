import HashStorm.Blockchain.Progpow.Job
import Mathlib.Data.Rat.Floor
import Mathlib.Tactic.FieldSimp
import Mathlib.Tactic.Linarith
import Mathlib.Tactic.NormNum

/-!
# Exact difficulties of a Progpow pool

`ProgpowJob` tests shares in fixed point: the difficulty of a result has twelve places, and
so has the one it is compared to, of which `decimal` keeps 15 digits and a `long` what is below
2^63. The test is exact within these limits. The difficulty that is credited is divided by a
field that is never set.
-/

namespace HashStorm.Progpow

open Stratum Blockchain LittleEndian Rounding

/-- The difficulty of a result, in trillionths, at least one. -/
def work (diff1 : Nat) (shareMultiplier : Rat) (resultValue : Nat) : Int :=
  max 1 ⌊(⌊(diff1 : Rat) * 10 ^ 12 / resultValue⌋ : Rat) * shareMultiplier⌋

/-- What the difficulty of a result has to reach, in trillionths. -/
def threshold (difficulty : Rat) : Int := ⌊99 / 100 * difficulty * 10 ^ 12⌋

/-- The largest multiplier whose millionths fit a `long`. -/
def maxMultiplier : Rat := (2 ^ 63 - 1) / 10 ^ 6

section FixedPoint

variable {d m : Rat} {diff1 resultValue k : Nat}

theorem roundAwayFromZero_intCast (n : Int) : roundAwayFromZero n = n := by
  have hfloor : roundAwayFromZero n = ⌊(n : Rat) + 1 / 2⌋ := rfl
  rw [hfloor, Int.floor_eq_iff]
  constructor <;> linarith

theorem floor_div_pow (n : Int) (places : Nat) :
    ⌊(n : Rat) / 10 ^ places⌋ = n / 10 ^ places := by
  have hfloor := Rat.floor_intCast_div_natCast n (10 ^ places)
  simpa only [Nat.cast_pow, Nat.cast_ofNat] using hfloor

theorem shareMultScaled_eq (hk : 0 < k) (hm : m * 10 ^ 6 = k) :
    shareMultScaled m = min (2 ^ 63 - 1) (k : Int) := by
  have hround := roundAwayFromZero_intCast k
  rw [Int.cast_natCast, ← hm] at hround
  rw [shareMultScaled, hround]
  omega

theorem min_maxMultiplier (hm : m * 10 ^ 6 = k) :
    min m maxMultiplier = ((min (2 ^ 63 - 1) (k : Int) : Int) : Rat) / 10 ^ 6 := by
  have hmul : m = (k : Rat) / 10 ^ 6 := by rw [← hm, mul_div_cancel_right₀ m (by norm_num)]
  rw [hmul, maxMultiplier, min_comm, min_div_div_right (by norm_num)]
  norm_num

/-- The difficulty of a result is exact for the multiplier as far as it fits a `long`. -/
theorem computeShareDiffScaledExact_eq (hk : 0 < k) (hm : m * 10 ^ 6 = k)
    (hr : 0 < resultValue) :
    computeShareDiffScaledExact (shareMultScaled m) diff1 resultValue =
      work diff1 (min m maxMultiplier) resultValue := by
  have hone : max 1 resultValue = resultValue := max_eq_right hr
  have hbase := Rat.floor_intCast_div_natCast ((diff1 : Int) * 10 ^ 12) resultValue
  simp only [Int.cast_mul, Int.cast_natCast, Int.cast_pow, Int.cast_ofNat] at hbase
  rw [computeShareDiffScaledExact, work, shareMultScaled_eq hk hm, min_maxMultiplier hm, hone,
    hbase, ← mul_div_assoc, ← Int.cast_mul, floor_div_pow]

/-- Twelve places remain of a difficulty with twelve places. -/
theorem toDecimal_mul (hd : d * 10 ^ 12 = k) : ∃ j : Int, toDecimal d * 10 ^ 12 = j := by
  rw [toDecimal]
  generalize min 28 (14 - Int.log 10 d) = places
  rcases le_total places 12 with hle | hge
  · obtain ⟨rest, hrest⟩ := Int.eq_ofNat_of_zero_le (sub_nonneg.mpr hle)
    refine ⟨roundHalfEven (d * 10 ^ places) * 10 ^ rest, ?_⟩
    have hpow : (10 : Rat) ^ 12 = 10 ^ places * 10 ^ rest := by
      rw [← zpow_natCast 10 rest, ← zpow_natCast 10 12, ← zpow_add₀ (by norm_num)]
      congr 1
      push_cast
      omega
    rw [hpow]
    push_cast
    field_simp
  · obtain ⟨rest, hrest⟩ := Int.eq_ofNat_of_zero_le (sub_nonneg.mpr hge)
    have hpow : (10 : Rat) ^ places = 10 ^ 12 * 10 ^ rest := by
      rw [← zpow_natCast 10 rest, ← zpow_natCast 10 12, ← zpow_add₀ (by norm_num)]
      congr 1
      push_cast
      omega
    have hwhole : d * 10 ^ places = ((k * 10 ^ rest : Int) : Rat) := by
      rw [hpow, ← mul_assoc, hd]
      push_cast
      rfl
    have hne : (10 : Rat) ^ places ≠ 0 := zpow_ne_zero _ (by norm_num)
    rw [hwhole, roundHalfEven_intCast, ← hwhole, mul_div_cancel_right₀ _ hne]
    exact ⟨k, by rw [hd, Int.cast_natCast]⟩

/-- The test is exact for the digits that are kept. -/
theorem meetsDifficultyThresholdExact_eq (hpos : 0 < d) (hd : d * 10 ^ 12 = k) (scaled : Int) :
    meetsDifficultyThresholdExact scaled d =
      if 2 ^ 63 ≤ toDecimal d * 10 ^ 12 then .error .argumentOutOfRange
      else .ok (threshold (toDecimal d) ≤ scaled) := by
  obtain ⟨j, hj⟩ := toDecimal_mul hd
  have hthreshold : threshold (toDecimal d) = j * 990000 / 10 ^ 6 := by
    rw [← floor_div_pow, threshold, mul_assoc, hj]
    congr 1
    push_cast
    ring
  have hcast : (2 : Rat) ^ 63 ≤ j ↔ (2 : Int) ^ 63 ≤ j := by
    exact_mod_cast Iff.rfl
  simp only [meetsDifficultyThresholdExact, if_neg (not_le.mpr hpos), hj,
    roundAwayFromZero_intCast, hthreshold, hcast]

end FixedPoint

section Limits

/-- The digits that are kept of a difficulty fit a `long`. -/
def FitsLong (d : Rat) : Prop := toDecimal d * 10 ^ 12 < 2 ^ 63

/-- Neither the digits that are left out of a difficulty nor what a multiplier has more than fits
a `long` moves a result over the threshold. -/
def Unmoved (diff1 : Nat) (m : Rat) (resultValue : Nat) (d : Rat) : Prop :=
  threshold (toDecimal d) ≤ work diff1 (min m maxMultiplier) resultValue ↔
    threshold d ≤ work diff1 m resultValue

/-- The test of a result does not throw, and is exact. -/
def TestExact (job : Job) (m : Rat) (resultValue : Nat) (d : Rat) : Prop :=
  meetsDifficultyThresholdExact
    (computeShareDiffScaledExact job.shareMultScaled job.jobClass.diff1 resultValue) d =
      .ok (threshold d ≤ work job.jobClass.diff1 m resultValue)

variable {d m : Rat} {diff1 resultValue k n : Nat}

/-- A difficulty whose digits are all kept and a multiplier that fits move no result. -/
theorem unmoved_of_exact (hd : toDecimal d = d) (hm : m ≤ maxMultiplier) :
    Unmoved diff1 m resultValue d := by
  rw [Unmoved, hd, min_eq_left hm]

theorem testExact_iff (job : Job) (hn : 0 < n) (hm : m * 10 ^ 6 = n) (hr : 0 < resultValue)
    (hpos : 0 < d) (hd : d * 10 ^ 12 = k) :
    TestExact (job.initShareMultiplier m) m resultValue d ↔
      FitsLong d ∧ Unmoved job.jobClass.diff1 m resultValue d := by
  have hscaled : computeShareDiffScaledExact (shareMultScaled m) job.jobClass.diff1 resultValue =
      work job.jobClass.diff1 (min m maxMultiplier) resultValue :=
    computeShareDiffScaledExact_eq hn hm hr
  rw [TestExact, FitsLong, Unmoved, meetsDifficultyThresholdExact_eq hpos hd]
  change (if _ then _ else Except.ok (decide (_ ≤
    computeShareDiffScaledExact (shareMultScaled m) job.jobClass.diff1 resultValue))) = _ ↔ _
  rw [hscaled]
  split
  · rename_i hlong
    exact iff_of_false (by simp) fun h => absurd h.1 (not_lt.mpr hlong)
  · rename_i hfits
    rw [and_iff_right (not_le.mp hfits), Except.ok.injEq, decide_eq_decide]
    rfl

end Limits

section Accepted

/-- The difficulties that a share of a connection may be tested against. -/
def checked (context : WorkerContext) : List Rat :=
  context.difficulty :: if context.varDiffUpdated then context.previousDifficulty.toList else []

/-- A share that is no block is accepted for the first difficulty that it meets. -/
theorem acceptedDifficultyExact_eq {context : WorkerContext} {scaled : Int} {p : Rat → Bool}
    (h : ∀ d ∈ checked context, meetsDifficultyThresholdExact scaled d = .ok (p d)) :
    acceptedDifficultyExact context scaled false =
      match (checked context).find? p with
      | some d => .ok d
      | none => .error (.stratum .lowDifficultyShare "low difficulty share") := by
  have hfirst := h _ List.mem_cons_self
  unfold acceptedDifficultyExact
  simp only [Bool.false_eq_true, if_false, hfirst, bind, Except.bind, checked, List.find?_cons]
  cases hmet : p context.difficulty with
  | true => rfl
  | false =>
    cases hupdated : context.varDiffUpdated with
    | false => rfl
    | true =>
      cases hprevious : context.previousDifficulty with
      | none => rfl
      | some previous =>
        have hsecond := h previous (by simp [checked, hupdated, hprevious])
        cases hagain : p previous with
        | true => simp [hsecond, hagain]; rfl
        | false => simp [hsecond, hagain]; rfl

/-- A submission has the hashes of the job, and the number is its result. -/
def Evaluates (lib : Library) (job : Job) (context : WorkerContext) (nonce : UInt64)
    (inputHeaderHash mixHash : Text) (resultValue : Nat) : Prop :=
  ∃ extraNonce1 mixHashOut resultBytes,
    context.extraNonce1 = some extraNonce1 ∧
      job.jobClass.sameHex (toHexString (headerHash lib job extraNonce1)) inputHeaderHash = true ∧
      lib.compute job.blockTemplate.height.toInt32 (headerHash lib job extraNonce1) nonce =
        some (mixHashOut, resultBytes) ∧
      job.jobClass.sameHex (toHexString mixHashOut) mixHash = true ∧
      ofLE resultBytes.reverse = resultValue

variable {lib : Library} {job : Job} {context : WorkerContext} {nonce : UInt64}
  {inputHeaderHash mixHash : Text} {resultValue : Nat}

theorem Evaluates.isBlockCandidate {judged : Judged}
    (heval : Evaluates lib job context nonce inputHeaderHash mixHash resultValue)
    (h : processShareInternal lib job context nonce inputHeaderHash mixHash = .ok judged) :
    judged.share.isBlockCandidate = decide (resultValue ≤ job.blockTargetValue) ∧
      ∃ d, job.stratumDifficulty context resultValue
        (decide (resultValue ≤ job.blockTargetValue)) = .ok d ∧
          judged.share.difficulty = quotient d job.shareMultiplier := by
  obtain ⟨extraNonce1, mixHashOut, resultBytes, hextraNonce, hheader, hcompute, hmix, rfl⟩ := heval
  simp only [processShareInternal, hextraNonce, hheader, hcompute, hmix] at h
  obtain ⟨d, hd, h⟩ := Bitcoin.bind_eq_ok.mp h
  obtain ⟨_, -, h⟩ := Bitcoin.bind_eq_ok.mp h
  cases h
  exact ⟨rfl, d, hd, rfl⟩

theorem Evaluates.accepted {d : Rat}
    (heval : Evaluates lib job context nonce inputHeaderHash mixHash resultValue)
    (hblock : job.blockTargetValue < resultValue)
    (hd : job.stratumDifficulty context resultValue false = .ok d) :
    ∃ judged, processShareInternal lib job context nonce inputHeaderHash mixHash = .ok judged := by
  obtain ⟨extraNonce1, mixHashOut, resultBytes, hextraNonce, hheader, hcompute, hmix, rfl⟩ := heval
  simp [processShareInternal, hextraNonce, hheader, hcompute, hmix, not_le.mpr hblock, hd, blockHex,
    bind, Except.bind, pure, Except.pure]

end Accepted

section Credited

variable {lib : Library} {job : Job} {m : Rat} {context : WorkerContext} {nonce : UInt64}
  {inputHeaderHash mixHash : Text} {resultValue n : Nat}

/-- Every test of a result is exact, and a share that is no block is credited with the difficulty
it was checked against. -/
structure ExactlyCredited (lib : Library) (job : Job) (m : Rat) (context : WorkerContext)
    (nonce : UInt64) (inputHeaderHash mixHash : Text) (resultValue : Nat) : Prop where
  test : ∀ d ∈ checked context, TestExact job m resultValue d
  credit : ∀ judged d,
    processShareInternal lib job context nonce inputHeaderHash mixHash = .ok judged →
      judged.share.isBlockCandidate = false →
        job.stratumDifficulty context resultValue false = .ok d →
          ∃ credited, judged.share.difficulty = some credited ∧ credited * m = d

theorem stratumDifficulty_eq (hclass : job.jobClass = .progpow)
    (htest : ∀ d ∈ checked context, TestExact job m resultValue d) :
    job.stratumDifficulty context resultValue false =
      match (checked context).find? fun d => threshold d ≤ work job.jobClass.diff1 m resultValue with
      | some d => .ok d
      | none => .error (.stratum .lowDifficultyShare "low difficulty share") := by
  have haccepted := acceptedDifficultyExact_eq htest
  simp only [Job.stratumDifficulty, hclass] at haccepted ⊢
  exact haccepted

/-- A share that is no block is credited with no number, as the field that its difficulty is
divided by is zero. -/
theorem exactlyCredited_iff_tests (hclass : job.jobClass = .progpow)
    (hzero : job.shareMultiplier = 0)
    (heval : Evaluates lib job context nonce inputHeaderHash mixHash resultValue) :
    ExactlyCredited lib job m context nonce inputHeaderHash mixHash resultValue ↔
      (∀ d ∈ checked context, TestExact job m resultValue d) ∧
        (resultValue ≤ job.blockTargetValue ∨
          ∀ d ∈ checked context, work job.jobClass.diff1 m resultValue < threshold d) := by
  constructor
  · intro h
    refine ⟨h.test, ?_⟩
    by_contra hnone
    obtain ⟨hblock, hmet⟩ := not_or.mp hnone
    push Not at hblock hmet
    have hfind : ((checked context).find? fun d =>
        threshold d ≤ work job.jobClass.diff1 m resultValue).isSome := by
      simpa only [List.find?_isSome, decide_eq_true_eq] using hmet
    obtain ⟨d, hd⟩ := Option.isSome_iff_exists.mp hfind
    have haccepted := stratumDifficulty_eq hclass h.test
    rw [hd] at haccepted
    obtain ⟨judged, hjudged⟩ := heval.accepted hblock haccepted
    obtain ⟨hcandidate, _, _, hcredit⟩ := heval.isBlockCandidate hjudged
    rw [decide_eq_false (not_le.mpr hblock)] at hcandidate
    obtain ⟨credited, hsome, -⟩ := h.credit judged d hjudged hcandidate haccepted
    rw [hcredit, hzero, quotient, if_pos rfl] at hsome
    cases hsome
  · rintro ⟨htest, hrefused⟩
    refine ⟨htest, fun judged d hjudged hcandidate haccepted => ?_⟩
    obtain ⟨hdecide, -⟩ := heval.isBlockCandidate hjudged
    rw [hcandidate, eq_comm, decide_eq_false_iff_not] at hdecide
    have hshort := hrefused.resolve_left hdecide
    have hfind : ((checked context).find? fun d =>
        threshold d ≤ work job.jobClass.diff1 m resultValue) = none := by
      simpa only [List.find?_eq_none, decide_eq_true_eq, not_le] using hshort
    rw [stratumDifficulty_eq hclass htest, hfind] at haccepted
    cases haccepted

/-- **When a Progpow share is tested and credited exactly.** For every job with a multiplier that
is a multiple of 10^-6, every connection whose difficulties have at most twelve places and every
result, it is if and only if the difficulties fit a `long`, what is left out of them and of the
multiplier moves no result over the threshold, and the share is a block or refused. -/
theorem exactlyCredited_iff (hclass : job.jobClass = .progpow) (hn : 0 < n)
    (hm : m * 10 ^ 6 = n) (hr : 0 < resultValue)
    (hchecked : ∀ d ∈ checked context, 0 < d ∧ ∃ k : Nat, d * 10 ^ 12 = k)
    (heval : Evaluates lib (job.initShareMultiplier m) context nonce inputHeaderHash mixHash
      resultValue) :
    ExactlyCredited lib (job.initShareMultiplier m) m context nonce inputHeaderHash mixHash
        resultValue ↔
      (∀ d ∈ checked context, FitsLong d ∧ Unmoved job.jobClass.diff1 m resultValue d) ∧
        (resultValue ≤ job.blockTargetValue ∨
          ∀ d ∈ checked context, work job.jobClass.diff1 m resultValue < threshold d) := by
  have hclass' : (job.initShareMultiplier m).jobClass = .progpow := hclass
  rw [exactlyCredited_iff_tests hclass' rfl heval]
  refine and_congr_left' (forall₂_congr fun d hd => ?_)
  obtain ⟨hpos, k, hk⟩ := hchecked d hd
  exact testExact_iff job hn hm hr hpos hk

end Credited

section Example

/-- Stand-ins for the hash functions, with a result of about twice the work of difficulty one. -/
def exampleLibrary : Library where
  bitcoin := ⟨fun header => header.hashMerkleRoot, fun _ => [1], id⟩
  coinbaseHasher coinbase := coinbase
  headerHasher header := header
  blockHasher header := header
  compute _ _ _ := some ([0x5a], [0, 0, 0, 0, 0x80] ++ List.replicate 27 0)
  seedHash _ := [0x5a]

/-- A job with a block target. -/
def exampleJob (blockTargetValue : Nat) : Job where
  jobClass := .progpow
  blockTemplate := ⟨0x30000000, [], 1700000000, [], 3000000, [], none⟩
  coinbaseInitial := [1]
  coinbaseFinal := [2]
  merkleSteps := []
  shareMultScaled := 1
  shareMultiplier := 0
  difficulty := 100000
  blockTargetValue := blockTargetValue

/-- A connection of difficulty one. -/
def exampleContext : WorkerContext := ⟨some (text "4001"), 1, none, false⟩

theorem exampleJob_evaluates (blockTargetValue : Nat) (nonce : UInt64) :
    Evaluates exampleLibrary ((exampleJob blockTargetValue).initShareMultiplier 1) exampleContext
      nonce (text "02014001") (text "5a") (2 ^ 223) :=
  ⟨text "4001", _, _, rfl, rfl, rfl, rfl, by decide +kernel⟩

/-- A block is exactly tested. -/
theorem block_exactlyCredited :
    ExactlyCredited exampleLibrary ((exampleJob (2 ^ 224)).initShareMultiplier 1) 1 exampleContext
      0xa1 (text "02014001") (text "5a") (2 ^ 223) := by
  refine (exactlyCredited_iff (n := 10 ^ 6) rfl (by decide) (by norm_num) (by positivity) ?_
    (exampleJob_evaluates (2 ^ 224) 0xa1)).mpr ⟨?_, .inl (by decide)⟩
  · intro d hd
    have hone : d = 1 := List.mem_singleton.mp hd
    rw [hone]
    exact ⟨by norm_num, 10 ^ 12, by norm_num⟩
  · intro d hd
    have hone : d = 1 := List.mem_singleton.mp hd
    rw [hone]
    have hkept : toDecimal 1 = 1 := by decide +kernel
    refine ⟨?_, unmoved_of_exact hkept (by norm_num [maxMultiplier])⟩
    rw [FitsLong, hkept]
    norm_num

/-- An accepted share is credited with no number, and the test throws for ten millions. -/
theorem share_not_exactlyCredited :
    (∃ judged ∈ (processShareInternal exampleLibrary ((exampleJob 0).initShareMultiplier 1)
        exampleContext 0xa1 (text "02014001") (text "5a")).toOption,
      judged.share.isBlockCandidate = false ∧ judged.share.difficulty = none) ∧
    meetsDifficultyThresholdExact
        (computeShareDiffScaledExact (shareMultScaled 1) JobClass.progpow.diff1 (2 ^ 223))
          (10 ^ 7) = .error .argumentOutOfRange ∧
    ¬ExactlyCredited exampleLibrary ((exampleJob 0).initShareMultiplier 1) 1 exampleContext
      0xa1 (text "02014001") (text "5a") (2 ^ 223) := by
  refine ⟨by decide +kernel, by decide +kernel, fun h => ?_⟩
  obtain hblock | hshort :=
    ((exactlyCredited_iff_tests rfl rfl (exampleJob_evaluates 0 0xa1)).mp h).2
  · exact absurd hblock (by decide)
  · exact absurd (hshort 1 List.mem_cons_self) (by decide +kernel)

end Example

end HashStorm.Progpow
