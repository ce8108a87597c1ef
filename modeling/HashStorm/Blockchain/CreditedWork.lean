import HashStorm.Blockchain.Kaspa.Job

/-!
# Credited work

A share that is no block is credited with the difficulty its hash was checked
against, up to the tolerance of one percent, by `BitcoinJob` and
`KarlsencoinJob`. `KaspaJob` and `KaspaHeavyJob` credit the difficulty after a
retarget also where the hash only met the one before.
-/

namespace HashStorm.Blockchain

open Stratum LittleEndian

section Ratio

variable {shareDiff difficulty : Rat}

theorem le_of_lowRatio_eq_false (hpos : 0 < shareDiff)
    (h : Bitcoin.lowRatio shareDiff difficulty = false) : 99 / 100 * difficulty ≤ shareDiff := by
  rcases le_or_gt difficulty 0 with hle | hgt
  · linarith
  · simp only [Bitcoin.lowRatio, decide_eq_false_iff_not, not_and, not_lt] at h
    exact (le_div_iff₀ hgt).mp (h hgt.ne')

theorem lt_of_lowRatio (hpos : 0 < difficulty)
    (h : Bitcoin.lowRatio shareDiff difficulty = true) : shareDiff < 99 / 100 * difficulty := by
  simp only [Bitcoin.lowRatio, decide_eq_true_eq] at h
  exact (div_lt_iff₀ hpos).mp h.2

/-- A share is accepted for the current difficulty, or for the one before a retarget. -/
theorem acceptedDifficulty_cases {context : WorkerContext} {isBlockCandidate : Bool}
    {accepted : Rat} (h : acceptedDifficulty context shareDiff isBlockCandidate = .ok accepted) :
    accepted = context.difficulty ∧
        (isBlockCandidate = true ∨ Bitcoin.lowRatio shareDiff context.difficulty = false) ∨
      isBlockCandidate = false ∧ Bitcoin.lowRatio shareDiff context.difficulty = true ∧
        context.varDiffUpdated = true ∧ context.previousDifficulty = some accepted ∧
        Bitcoin.lowRatio shareDiff accepted = false := by
  unfold acceptedDifficulty at h
  split at h
  · rename_i hlow
    simp only [Bool.and_eq_true, Bool.not_eq_true'] at hlow
    split at h
    · rename_i previous hupdated hprevious
      split at h
      · cases h
      · rename_i hmet
        cases h
        exact .inr ⟨hlow.1, hlow.2, hupdated, hprevious, by simpa using hmet⟩
    · cases h
  · rename_i hmet
    cases h
    refine .inl ⟨rfl, ?_⟩
    simp only [Bool.and_eq_true, Bool.not_eq_true', not_and, Bool.not_eq_true] at hmet
    cases isBlockCandidate with
    | true => exact .inl rfl
    | false => exact .inr (hmet rfl)

end Ratio

end HashStorm.Blockchain

namespace HashStorm.Bitcoin

open Stratum LittleEndian

variable (lib : Library) (job : Job) (context : WorkerContext) (extraNonce2 : Text)
  (nTime nonce : UInt32) (versionBits : Option UInt32)

/-- The difficulty of the hash of a submission. -/
def shareDiff : Rat :=
  match shareBytes lib job context extraNonce2 nTime nonce versionBits with
  | .error _ => 0
  | .ok (_, headerBytes) => (diff1 : Rat) / ofLE (job.headerHasher headerBytes nTime) *
      job.shareMultiplier

/-- A share that is returned and is no block is credited with work that was done. -/
def CreditsWorkDone : Prop :=
  ∀ result, processShareInternal lib job context extraNonce2 nTime nonce versionBits = .ok result →
    result.1.isBlockCandidate = false →
    99 / 100 * (result.1.difficulty * job.shareMultiplier) ≤
      shareDiff lib job context extraNonce2 nTime nonce versionBits

variable {lib job context extraNonce2 nTime nonce versionBits}

theorem lowRatio_of_acceptedDifficulty {diff accepted : Rat}
    (h : acceptedDifficulty context diff false = some accepted) :
    lowRatio diff accepted = false := by
  unfold acceptedDifficulty at h
  split at h
  · split at h
    · split at h
      · cases h
      · rename_i hmet
        cases h
        simpa using hmet
    · cases h
  · rename_i hmet
    cases h
    simpa using hmet

/-- A share that is returned was accepted for the difficulty it is credited with. -/
theorem processShareInternal_ok {result : Share × Option Text}
    (h : processShareInternal lib job context extraNonce2 nTime nonce versionBits = .ok result) :
    ∃ bytes, shareBytes lib job context extraNonce2 nTime nonce versionBits = .ok bytes ∧
      ofLE (job.headerHasher bytes.2 nTime) ≠ 0 ∧
      ∃ accepted, acceptedDifficulty context
          (shareDiff lib job context extraNonce2 nTime nonce versionBits)
          result.1.isBlockCandidate = some accepted ∧
        result.1.difficulty = accepted / job.shareMultiplier := by
  simp only [processShareInternal] at h
  obtain ⟨_, -, h⟩ := bind_eq_ok.mp h
  obtain ⟨bytes, hbytes, h⟩ := bind_eq_ok.mp h
  refine ⟨bytes, hbytes, ?_⟩
  split at h
  · cases h
  rename_i hvalue
  refine ⟨hvalue, ?_⟩
  have hdiff : shareDiff lib job context extraNonce2 nTime nonce versionBits =
      (diff1 : Rat) / ofLE (job.headerHasher bytes.2 nTime) * job.shareMultiplier := by
    simp only [shareDiff, hbytes]
  rw [← hdiff] at h
  split at h
  · cases h
  rename_i accepted haccepted
  refine ⟨accepted, ?_⟩
  split at h
  · obtain ⟨_, -, h⟩ := bind_eq_ok.mp h
    cases h
    exact ⟨haccepted, rfl⟩
  · cases h
    exact ⟨haccepted, rfl⟩

theorem creditsWorkDone (hmultiplier : 0 < job.shareMultiplier) :
    CreditsWorkDone lib job context extraNonce2 nTime nonce versionBits := by
  intro result hresult hblock
  obtain ⟨bytes, hbytes, hvalue, accepted, haccepted, hdifficulty⟩ :=
    processShareInternal_ok hresult
  rw [hblock] at haccepted
  rw [hdifficulty, div_mul_cancel₀ _ hmultiplier.ne']
  refine Blockchain.le_of_lowRatio_eq_false ?_ (lowRatio_of_acceptedDifficulty haccepted)
  have hdiff1 : (0 : Rat) < diff1 := by norm_num [diff1]
  have hpos : (0 : Rat) < ofLE (job.headerHasher bytes.2 nTime) := by
    exact_mod_cast Nat.pos_of_ne_zero hvalue
  simp only [shareDiff, hbytes]
  exact mul_pos (div_pos hdiff1 hpos) hmultiplier

end HashStorm.Bitcoin

namespace HashStorm.Kaspa

open Stratum Blockchain LittleEndian

variable (lib : Library) (variant : Variant) (job : Job) (context : WorkerContext) (nonce : Text)

/-- A share that is returned and is no block is credited with work that was done. -/
def CreditsWorkDone : Prop :=
  ∀ share, (processShareInternal lib variant job context nonce).1 = .ok share →
    share.isBlockCandidate = false →
    99 / 100 * (share.difficulty * job.shareMultiplier) ≤
      shareDiff lib variant (processShareInternal lib variant job context nonce).2

/-- The nonce can be read, is no block and is too low for the worker's difficulty, but not for
the one before the last retarget. -/
def AcceptedOnPrevious : Prop :=
  ∃ nonceValue previous, parseNonceHex nonce = .ok nonceValue ∧
    context.varDiffUpdated = true ∧ context.previousDifficulty = some previous ∧
    0 < context.difficulty ∧
    let job := job.setNonce nonceValue
    shareValue lib (variant.shareHash lib job) ≠ 0 ∧ isBlockCandidate lib variant job = false ∧
      Bitcoin.lowRatio (shareDiff lib variant job) context.difficulty = true ∧
      Bitcoin.lowRatio (shareDiff lib variant job) previous = false

variable {lib variant job context nonce}

theorem shareDiff_pos (h : shareValue lib (variant.shareHash lib job) ≠ 0) :
    0 < shareDiff lib variant job := by
  have hdiff1 : (0 : Rat) < diff1Target := by norm_num [diff1Target]
  have hvalue : (0 : Rat) < shareValue lib (variant.shareHash lib job) := by
    exact_mod_cast Nat.pos_of_ne_zero h
  exact mul_pos (div_pos hdiff1 hvalue) job.shareMultiplier_pos

/-- What is known of a share that is returned. -/
theorem judgeShare_ok {share : Share} (h : judgeShare lib variant job context = .ok share) :
    shareValue lib (variant.shareHash lib job) ≠ 0 ∧
      share.isBlockCandidate = isBlockCandidate lib variant job ∧
      ∃ accepted, acceptedDifficulty context (shareDiff lib variant job)
          (isBlockCandidate lib variant job) = .ok accepted ∧
        share.difficulty = variant.credited context accepted / job.shareMultiplier := by
  simp only [judgeShare] at h
  split at h
  · cases h
  rename_i hvalue
  obtain ⟨accepted, haccepted, h⟩ := Bitcoin.bind_eq_ok.mp h
  cases h
  exact ⟨hvalue, rfl, accepted, haccepted, rfl⟩

/-- A share that is accepted for some difficulty is returned. -/
theorem exists_judgeShare_ok {accepted : Rat}
    (hvalue : shareValue lib (variant.shareHash lib job) ≠ 0)
    (h : acceptedDifficulty context (shareDiff lib variant job)
      (isBlockCandidate lib variant job) = .ok accepted) :
    ∃ share, judgeShare lib variant job context = .ok share := by
  simp only [judgeShare, if_neg hvalue, h]
  exact ⟨_, rfl⟩

/-- A job that credits the difficulty a share was accepted for credits work that was done. -/
theorem creditsWorkDone_of_credited (hcredited : ∀ context d, variant.credited context d = d) :
    CreditsWorkDone lib variant job context nonce := by
  intro share hshare hblock
  simp only [processShareInternal] at hshare ⊢
  cases hnonce : parseNonceHex nonce with
  | error e => simp [hnonce] at hshare
  | ok nonceValue =>
    simp only [hnonce] at hshare ⊢
    obtain ⟨hvalue, hcandidate, accepted, haccepted, hdifficulty⟩ := judgeShare_ok hshare
    have hmultiplier := job.shareMultiplier_pos.ne'
    rw [hblock] at hcandidate
    rw [← hcandidate] at haccepted
    rw [hdifficulty, hcredited, show (job.setNonce nonceValue).shareMultiplier =
      job.shareMultiplier from rfl, div_mul_cancel₀ _ hmultiplier]
    refine le_of_lowRatio_eq_false (shareDiff_pos hvalue) ?_
    rcases acceptedDifficulty_cases haccepted with ⟨rfl, hmet⟩ | ⟨-, -, -, -, hmet⟩
    · exact hmet.resolve_left (by decide)
    · exact hmet

/-- A job that credits the current difficulty credits work that was not done exactly where a
share is accepted for the difficulty before. -/
theorem creditsWorkDone_iff
    (hcredited : ∀ context d, variant.credited context d = context.difficulty) :
    CreditsWorkDone lib variant job context nonce ↔
      ¬ AcceptedOnPrevious lib variant job context nonce := by
  have hmultiplier := job.shareMultiplier_pos.ne'
  constructor
  · rintro hdone ⟨nonceValue, previous, hnonce, hupdated, hprevious, hpos, hvalue, hcandidate,
      hlow, hmet⟩
    have haccepted : acceptedDifficulty context (shareDiff lib variant (job.setNonce nonceValue))
        (isBlockCandidate lib variant (job.setNonce nonceValue)) = .ok previous := by
      simp [acceptedDifficulty, hcandidate, hlow, hupdated, hprevious, hmet]
    obtain ⟨share, hshare⟩ := exists_judgeShare_ok hvalue haccepted
    obtain ⟨-, hblock, accepted, -, hdifficulty⟩ := judgeShare_ok hshare
    have hle := hdone share (by simp [processShareInternal, hnonce, hshare])
      (hblock.trans hcandidate)
    simp only [processShareInternal, hnonce] at hle
    rw [hdifficulty, hcredited, show (job.setNonce nonceValue).shareMultiplier =
      job.shareMultiplier from rfl, div_mul_cancel₀ _ hmultiplier] at hle
    exact absurd (lt_of_lowRatio hpos hlow) hle.not_gt
  · intro hnot share hshare hblock
    simp only [processShareInternal] at hshare ⊢
    cases hnonce : parseNonceHex nonce with
    | error e => simp [hnonce] at hshare
    | ok nonceValue =>
      simp only [hnonce] at hshare ⊢
      obtain ⟨hvalue, hcandidate, accepted, haccepted, hdifficulty⟩ := judgeShare_ok hshare
      rw [hblock] at hcandidate
      rw [← hcandidate] at haccepted
      rw [hdifficulty, hcredited, show (job.setNonce nonceValue).shareMultiplier =
        job.shareMultiplier from rfl, div_mul_cancel₀ _ hmultiplier]
      have hpos := shareDiff_pos hvalue
      rcases acceptedDifficulty_cases haccepted with
        ⟨-, hmet⟩ | ⟨-, hlow, hupdated, hprevious, hmet⟩
      · exact le_of_lowRatio_eq_false hpos (hmet.resolve_left (by decide))
      · rcases le_or_gt context.difficulty 0 with hle | hgt
        · linarith
        · exact absurd ⟨nonceValue, accepted, hnonce, hupdated, hprevious, hgt, hvalue,
            hcandidate.symm, hlow, hmet⟩ hnot

/-- `BitcoinJob` and `KarlsencoinJob` credit work that was done; the other two do so where a
share is not accepted for the difficulty before a retarget. -/
theorem credited_work_done (bitcoin : Bitcoin.Library) (lib : Library) :
    (∀ (job : Bitcoin.Job) (context : Bitcoin.WorkerContext) (extraNonce2 : Text)
        (nTime nonce : UInt32) (versionBits : Option UInt32),
      0 < job.shareMultiplier →
        Bitcoin.CreditsWorkDone bitcoin job context extraNonce2 nTime nonce versionBits) ∧
      ∀ (job : Job) (context : WorkerContext) (nonce : Text),
        CreditsWorkDone lib karlsencoinJob job context nonce ∧
          (CreditsWorkDone lib kaspaJob job context nonce ↔
            ¬ AcceptedOnPrevious lib kaspaJob job context nonce) ∧
          (CreditsWorkDone lib kaspaHeavyJob job context nonce ↔
            ¬ AcceptedOnPrevious lib kaspaHeavyJob job context nonce) := by
  refine ⟨fun _ _ _ _ _ _ hmultiplier => Bitcoin.creditsWorkDone hmultiplier,
    fun job context nonce => ⟨?_, ?_, ?_⟩⟩
  · exact creditsWorkDone_of_credited fun _ _ => rfl
  · exact creditsWorkDone_iff fun _ _ => rfl
  · exact creditsWorkDone_iff fun _ _ => rfl

section Retarget

/-- Every hash is a fifth of the first difficulty's target. -/
private def fiveLibrary : Library where
  blockHeaderHasher _ := []
  coinbaseHasher _ := []
  shareHasher _ := leBytes 32 (diff1Target / 5)
  isFishHashKarlsen := false
  target n := n
  generateMatrix _ _ _ := 0

/-- A job whose block no hash of the library meets. -/
private def retargetJob : Job := .plain 1000 0

/-- The difficulty was raised from five to ten. -/
private def retargetedContext : WorkerContext := ⟨none, 10, some 5, true⟩

private theorem shareValue_retargetJob (nonce : UInt64) :
    shareValue fiveLibrary (kaspaJob.shareHash fiveLibrary (retargetJob.setNonce nonce)) =
      diff1Target / 5 :=
  ofLE_leBytes (by norm_num [diff1Target])

private theorem shareDiff_retargetJob (nonce : UInt64) :
    shareDiff fiveLibrary kaspaJob (retargetJob.setNonce nonce) = 5 := by
  rw [shareDiff, shareValue_retargetJob]
  norm_num [diff1Target, retargetJob, Job.plain, Job.setNonce]

/-- Hash work of difficulty five is credited as ten. -/
theorem kaspaJob_credits_work_not_done :
    (processShareInternal fiveLibrary kaspaJob retargetJob retargetedContext
        (text "0000000000000000")).1 = .ok ⟨7, 1000, 10, false, none, none⟩ ∧
      shareDiff fiveLibrary kaspaJob (processShareInternal fiveLibrary kaspaJob retargetJob
        retargetedContext (text "0000000000000000")).2 = 5 ∧
      ¬ CreditsWorkDone fiveLibrary kaspaJob retargetJob retargetedContext
        (text "0000000000000000") := by
  have hnonce : parseNonceHex (text "0000000000000000") = .ok 0 := by decide
  have hvalue := shareValue_retargetJob 0
  have hdiff := shareDiff_retargetJob 0
  have hzero : diff1Target / 5 ≠ 0 := by norm_num [diff1Target]
  have hcandidate : isBlockCandidate fiveLibrary kaspaJob (retargetJob.setNonce 0) = false := by
    rw [isBlockCandidate, hvalue]
    exact decide_eq_false (by norm_num [diff1Target, retargetJob, Job.plain, Job.setNonce])
  have hlow : Bitcoin.lowRatio 5 10 = true := by norm_num [Bitcoin.lowRatio]
  have hmet : Bitcoin.lowRatio 5 5 = false := by norm_num [Bitcoin.lowRatio]
  refine ⟨?_, ?_, ?_⟩
  · have haccepted : acceptedDifficulty retargetedContext 5 false = .ok 5 := by
      simp [acceptedDifficulty, hlow, hmet, retargetedContext]
    simp only [processShareInternal, hnonce, judgeShare, hvalue, if_neg hzero, hdiff, hcandidate,
      haccepted]
    norm_num [kaspaJob, retargetedContext, retargetJob, Job.plain, Job.setNonce, bind, Except.bind,
      pure, Except.pure]
  · simp only [processShareInternal, hnonce, hdiff]
  · rw [creditsWorkDone_iff fun _ _ => rfl, not_not]
    refine ⟨0, 5, hnonce, rfl, rfl, by norm_num [retargetedContext], ?_, hcandidate, ?_, ?_⟩
    · rw [hvalue]
      exact hzero
    · rw [hdiff]
      exact hlow
    · rw [hdiff]
      exact hmet

/-- A Bitcoin job with the multiplier one. -/
private def unitBitcoinJob : Bitcoin.Job where
  blockTemplate := ⟨1, [], 0, [], 7, [], none⟩
  coinbaseInitial := []
  coinbaseFinal := []
  merkleSteps := []
  isPoS := false
  hasMWEB := false
  shareMultiplier := 1
  difficulty := 1000
  blockTargetValue := 0
  coinbaseHasher := id
  headerHasher bytes _ := bytes
  blockHasher bytes _ := bytes

/-- In the same situation `KarlsencoinJob` credits what was done, and so does `BitcoinJob`. -/
theorem credited_work_done_retargeted :
    Bitcoin.CreditsWorkDone ⟨fun _ => [], fun _ => [], id⟩ unitBitcoinJob
        ⟨some [], none, 10, some 5, true⟩ (text "0000000000000000") 0 0 none ∧
      CreditsWorkDone fiveLibrary karlsencoinJob retargetJob retargetedContext
        (text "0000000000000000") :=
  ⟨(credited_work_done _ fiveLibrary).1 _ _ _ _ _ _ (by norm_num [unitBitcoinJob]),
    ((credited_work_done ⟨fun _ => [], fun _ => [], id⟩ _).2 _ _ _).1⟩

end Retarget

end HashStorm.Kaspa
