import HashStorm.Blockchain.Bitcoin.Job
import HashStorm.Stratum.HexUtils

/-!
# The grammar of Bitcoin submissions

The texts of a submission are hex digits of either case, of fixed lengths, and the
version bits are there exactly under a mask. `ParseSubmitInput` accepts this grammar,
except for an extranonce without digits. A submission that `ProcessShare` rejects before
it registers the key leaves no trace, whatever is submitted before and after it.
-/

namespace HashStorm.Bitcoin

open Stratum

/-- A hex digit of either case. -/
def HexDigit (c : UInt16) : Prop := LowerHexDigit c ∨ 65 ≤ c ∧ c ≤ 70

instance : DecidablePred HexDigit := fun c => by unfold HexDigit; infer_instance

/-- A text of so many hex digits. -/
def HexText (length : Int) (value : Text) : Prop :=
  value.length = length ∧ ∀ c ∈ value, HexDigit c

instance (length : Int) (value : Text) : Decidable (HexText length value) :=
  have : Decidable (∀ c ∈ value, HexDigit c) := List.decidableBAll HexDigit value
  inferInstanceAs (Decidable (_ ∧ _))

/-- Version bits that are there exactly under a mask, and lie within it. -/
def VersionBits : Option UInt32 → Option Text → Prop
  | some mask, some value =>
    HexText 8 value ∧ ∀ i, (hexNumber value).testBit i → mask.toNat.testBit i
  | none, none => True
  | _, _ => False

/-- The grammar of the submissions of a worker. -/
structure Submission.Grammatical (context : WorkerContext) (submission : Submission) : Prop where
  extraNonce2 : ∃ value, submission.extraNonce2 = some value ∧
    HexText context.expectedExtraNonce2Length value
  nTime : ∃ value, submission.nTime = some value ∧ HexText 8 value
  nonce : ∃ value, submission.nonce = some value ∧ HexText 8 value
  versionBits : VersionBits context.versionRollingMask submission.versionBits

/-- The input has the numbers that the texts denote, and the extranonce in lower case. -/
structure Submission.Denotes (submission : Submission) (input : SubmitInput) : Prop where
  extraNonce2 : ∃ value, submission.extraNonce2 = some value ∧ input.extraNonce2 = toLower value
  nTime : ∃ value, submission.nTime = some value ∧ input.nTime.toNat = hexNumber value
  nonce : ∃ value, submission.nonce = some value ∧ input.nonce.toNat = hexNumber value
  versionBits : input.versionBits.toNat = hexNumber (submission.versionBits.getD [])
  hasVersionBits : input.hasVersionBits = submission.versionBits.isSome

section Digits

variable {c : UInt16}

/-- What is read of a digit, which is one of the first characters. -/
theorem hexDigit_read (h : HexDigit c) :
    (hexNibble c).map UInt32.toNat = some (getHexVal c).toNat ∧ (getHexVal c).toNat < 16 ∧
      (if isUpperHexDigit c then c ||| 0x20 else c) = lowerChar c := by
  have hall : ∀ n < 103, HexDigit (UInt16.ofNat n) →
      (hexNibble (UInt16.ofNat n)).map UInt32.toNat =
          some (getHexVal (UInt16.ofNat n)).toNat ∧
        (getHexVal (UInt16.ofNat n)).toNat < 16 ∧
        (if isUpperHexDigit (UInt16.ofNat n) then UInt16.ofNat n ||| 0x20 else UInt16.ofNat n) =
          lowerChar (UInt16.ofNat n) := by
    decide +kernel
  have hc : UInt16.ofNat c.toNat = c := UInt16.ofNat_toNat
  have hlt : c.toNat < 103 := by
    simp only [HexDigit, LowerHexDigit, UInt16.le_iff_toNat_le, UInt16.reduceToNat] at h
    omega
  have := hall c.toNat hlt
  rw [hc] at this
  exact this h

theorem isSome_hexNibble_iff : (hexNibble c).isSome = true ↔ HexDigit c := by
  constructor
  · exact fun h => (lower_or_upper_of_hexNibble h).imp_right isUpperHexDigit_iff.mp
  · intro h
    have hread := (hexDigit_read h).1
    cases hc : hexNibble c with
    | none => simp [hc] at hread
    | some n => rfl

theorem exists_hexNibble (h : HexDigit c) :
    ∃ nibble, hexNibble c = some nibble ∧ nibble.toNat = (getHexVal c).toNat := by
  have hread := (hexDigit_read h).1
  cases hc : hexNibble c with
  | none => simp [hc] at hread
  | some n => exact ⟨n, rfl, by simpa [hc] using hread⟩

/-- Normalizing digits is bringing them to lower case. -/
theorem normalizeHexLowercaseIfNeeded_eq_toLower {value : Text} (h : ∀ c ∈ value, HexDigit c) :
    normalizeHexLowercaseIfNeeded value = toLower value := by
  rw [normalizeHexLowercaseIfNeeded_eq, toLower]
  exact List.map_congr_left fun c hc => (hexDigit_read (h c hc)).2.2

@[simp] theorem hexNumber_nil : hexNumber [] = 0 := rfl

theorem hexNumber_cons (c : UInt16) (value : Text) :
    hexNumber (c :: value) = (getHexVal c).toNat * 16 ^ value.length + hexNumber value := by
  simp only [hexNumber, List.reverse_cons, List.map_append, List.map_cons, List.map_nil,
    Nat.ofDigits_append, Nat.ofDigits_singleton, List.length_map, List.length_reverse]
  ring

theorem hexNumber_lt {value : Text} (h : ∀ c ∈ value, HexDigit c) :
    hexNumber value < 16 ^ value.length := by
  induction value with
  | nil => simp
  | cons c value ih =>
    simp only [List.forall_mem_cons] at h
    have hdigit := (hexDigit_read h.1).2.1
    have hrest := ih h.2
    have hle : (getHexVal c).toNat * 16 ^ value.length ≤ 15 * 16 ^ value.length :=
      Nat.mul_le_mul_right _ (by omega)
    rw [hexNumber_cons, List.length_cons, pow_succ]
    omega

end Digits

section Parse

variable {value : Text} {mask : Option UInt32}

/-- One digit more is shifted in. -/
theorem toNat_shift_or {acc nibble : UInt32} (hacc : acc.toNat * 16 < 2 ^ 32)
    (hnibble : nibble.toNat < 16) :
    (acc <<< 4 ||| nibble).toNat = acc.toNat * 16 + nibble.toNat := by
  have hshift : (acc <<< 4).toNat = acc.toNat <<< 4 := by
    rw [UInt32.toNat_shiftLeft, Nat.shiftLeft_eq, Nat.shiftLeft_eq]
    exact Nat.mod_eq_of_lt hacc
  rw [UInt32.toNat_or, hshift, ← Nat.shiftLeft_add_eq_or_of_lt hnibble, Nat.shiftLeft_eq]

/-- The loop of `TryParseHex8Strict` over one character. -/
def pushNibble (acc : UInt32) (c : UInt16) : Option UInt32 :=
  (hexNibble c).map fun nibble => acc <<< 4 ||| nibble

/-- Digits that fit the word are read as their number. -/
theorem foldlM_hexNibble (hvalue : ∀ c ∈ value, HexDigit c) (acc : UInt32)
    (hacc : acc.toNat * 16 ^ value.length + hexNumber value < 2 ^ 32) :
    ∃ n, value.foldlM pushNibble acc = some n ∧
      n.toNat = acc.toNat * 16 ^ value.length + hexNumber value := by
  induction value generalizing acc with
  | nil => exact ⟨acc, rfl, by simp⟩
  | cons c value ih =>
    simp only [List.forall_mem_cons] at hvalue
    obtain ⟨nibble, hnibble, hval⟩ := exists_hexNibble hvalue.1
    have hsmall := (hexDigit_read hvalue.1).2.1
    rw [hexNumber_cons, List.length_cons] at hacc ⊢
    have hsplit : acc.toNat * 16 ^ (value.length + 1) +
        ((getHexVal c).toNat * 16 ^ value.length + hexNumber value) =
          (acc.toNat * 16 + nibble.toNat) * 16 ^ value.length + hexNumber value := by
      rw [hval]
      ring
    rw [hsplit] at hacc ⊢
    have hle : acc.toNat * 16 + nibble.toNat ≤
        (acc.toNat * 16 + nibble.toNat) * 16 ^ value.length :=
      Nat.le_mul_of_pos_right _ (by positivity)
    have hpush : (acc <<< 4 ||| nibble).toNat = acc.toNat * 16 + nibble.toNat :=
      toNat_shift_or (by omega) (by omega)
    rw [← hpush] at hacc ⊢
    obtain ⟨n, hn, htoNat⟩ := ih hvalue.2 _ hacc
    refine ⟨n, ?_, htoNat⟩
    rw [List.foldlM_cons, pushNibble, hnibble]
    exact hn

/-- Reading fails at something that is no digit. -/
theorem hexDigit_of_foldlM {acc n : UInt32} (h : value.foldlM pushNibble acc = some n) :
    ∀ c ∈ value, HexDigit c := by
  induction value generalizing acc with
  | nil => simp
  | cons c value ih =>
    rw [List.foldlM_cons] at h
    obtain ⟨acc', hc, h⟩ := Option.bind_eq_some_iff.mp h
    obtain ⟨nibble, hnibble, -⟩ := Option.map_eq_some_iff.mp hc
    refine List.forall_mem_cons.mpr ⟨isSome_hexNibble_iff.mp ?_, ih h⟩
    rw [hnibble]
    rfl

/-- `ParseHex8Strict` accepts eight digits, as their number. -/
theorem parseHex8Strict_eq_ok_iff {sizeError invalidError : String} {n : UInt32} :
    parseHex8Strict value sizeError invalidError = .ok n ↔
      HexText 8 value ∧ n.toNat = hexNumber value := by
  by_cases hlength : value.length = 8
  swap
  · rw [parseHex8Strict, if_pos hlength]
    simp only [reduceCtorEq, false_iff, HexText, not_and]
    intro h
    exact absurd (by exact_mod_cast h.1) hlength
  have hloop : tryParseHex8Strict value = value.foldlM pushNibble 0 := by
    rw [tryParseHex8Strict, if_neg (not_not.mpr hlength)]
    rfl
  rw [parseHex8Strict, if_neg (not_not.mpr hlength), hloop]
  constructor
  · intro h
    split at h
    · cases h
    · rename_i result hresult
      cases h
      have hdigits := hexDigit_of_foldlM hresult
      have hlt := hexNumber_lt hdigits
      rw [hlength] at hlt
      obtain ⟨n, hn, htoNat⟩ := foldlM_hexNibble hdigits 0 (by simpa using hlt)
      rw [hresult, Option.some.injEq] at hn
      subst hn
      exact ⟨⟨by exact_mod_cast hlength, hdigits⟩, by simpa using htoNat⟩
  · rintro ⟨⟨-, hdigits⟩, hn⟩
    have hlt := hexNumber_lt hdigits
    rw [hlength] at hlt
    obtain ⟨m, hm, htoNat⟩ := foldlM_hexNibble hdigits 0 (by simpa using hlt)
    rw [hm]
    refine congrArg Except.ok (UInt32.toNat_inj.mp ?_)
    rw [htoNat, hn]
    simp

theorem validateHex_eq_ok_iff {length : Int} {sizeError invalidError : String} :
    validateHex value length sizeError invalidError = .ok () ↔ HexText length value := by
  constructor
  · intro h
    obtain ⟨hlength, hall⟩ := validateHex_eq_ok h
    exact ⟨hlength, fun c hc => isSome_hexNibble_iff.mp (hall c hc)⟩
  · rintro ⟨hlength, hdigits⟩
    rw [validateHex, if_neg (not_not.mpr hlength), if_pos]
    exact List.all_eq_true.mpr fun c hc => isSome_hexNibble_iff.mpr (hdigits c hc)

theorem requireText_eq_ok_iff {value : Option Text} {message : String} {result : Text} :
    requireText value message = .ok result ↔ value = some result ∧ result ≠ [] := by
  rcases value with _ | _ | ⟨c, rest⟩
  · simp [requireText]
  · simp only [requireText, reduceCtorEq, Option.some.injEq, false_iff, not_and, not_not]
    exact Eq.symm
  · simp only [requireText, Except.ok.injEq, Option.some.injEq]
    constructor
    · rintro rfl
      exact ⟨rfl, by simp⟩
    · exact And.left

/-- No bit is outside the mask. -/
theorem and_not_eq_zero_iff {bits mask : UInt32} :
    bits &&& ~~~mask = 0 ↔ ∀ i, bits.toNat.testBit i → mask.toNat.testBit i := by
  have hzero : ∀ i, (0 : UInt32).toBitVec.getLsbD i = false := fun i => by simp
  rw [uint32_eq_iff]
  constructor
  · intro h i hbits
    have hi : i < 32 := by
      by_contra hge
      have hsmall : bits.toNat < 2 ^ i :=
        bits.toNat_lt.trans_le (Nat.pow_le_pow_right (by decide) (by omega))
      rw [Nat.testBit_lt_two_pow hsmall] at hbits
      cases hbits
    have hbit := h i hi
    simp only [UInt32.toBitVec_and, UInt32.toBitVec_not, BitVec.getLsbD_and, BitVec.getLsbD_not,
      hzero, decide_eq_true hi, Bool.true_and, Bool.and_eq_false_iff, Bool.not_eq_false'] at hbit
    rcases hbit with hbit | hbit
    · exact absurd (hbit.symm.trans hbits) (by decide)
    · exact hbit
  · intro h i hi
    have hbit : bits.toBitVec.getLsbD i = true → mask.toBitVec.getLsbD i = true := h i
    simp only [UInt32.toBitVec_and, UInt32.toBitVec_not, BitVec.getLsbD_and, BitVec.getLsbD_not,
      hzero, decide_eq_true hi, Bool.true_and]
    cases hb : bits.toBitVec.getLsbD i with
    | false => rfl
    | true => simp [hbit hb]

theorem parseVersionBits_eq_ok_iff {versionBits : Option Text} {bits : UInt32} :
    parseVersionBits mask versionBits = .ok bits ↔
      VersionBits mask versionBits ∧ bits.toNat = hexNumber (versionBits.getD []) := by
  rcases mask with _ | mask <;> rcases versionBits with _ | value
  · simp only [parseVersionBits, VersionBits, Except.ok.injEq, true_and, Option.getD_none,
      hexNumber_nil]
    rw [eq_comm, ← UInt32.toNat_inj]
    rfl
  · simp [parseVersionBits, VersionBits]
  · simp [parseVersionBits, VersionBits]
  · simp only [parseVersionBits, VersionBits, Option.getD_some]
    constructor
    · intro h
      split at h
      · cases h
      · rename_i n hn
        obtain ⟨htext, htoNat⟩ := parseHex8Strict_eq_ok_iff.mp hn
        split at h
        · cases h
        · rename_i hmask
          cases h
          rw [← htoNat]
          exact ⟨⟨htext, and_not_eq_zero_iff.mp (not_not.mp hmask)⟩, rfl⟩
    · rintro ⟨⟨htext, hmask⟩, htoNat⟩
      rw [parseHex8Strict_eq_ok_iff.mpr ⟨htext, htoNat⟩]
      rw [← htoNat, ← and_not_eq_zero_iff] at hmask
      simp only [hmask, ne_eq, not_true_eq_false, if_false]

end Parse

section Submission

variable {context : WorkerContext} {submission : Submission} {input : SubmitInput}

theorem HexText.ne_nil {value : Text} (h : HexText 8 value) : value ≠ [] := by
  rintro rfl
  exact absurd h.1 (by decide)

/-- The number of eight digits fits a word. -/
theorem HexText.exists_word {value : Text} (h : HexText 8 value) :
    ∃ n : UInt32, n.toNat = hexNumber value := by
  have hlt := hexNumber_lt h.2
  have hlength : value.length = 8 := by exact_mod_cast h.1
  rw [hlength] at hlt
  exact ⟨UInt32.ofNat (hexNumber value), UInt32.toNat_ofNat_of_lt' hlt⟩

theorem VersionBits.exists_word {mask : Option UInt32} {versionBits : Option Text}
    (h : VersionBits mask versionBits) :
    ∃ n : UInt32, n.toNat = hexNumber (versionBits.getD []) := by
  rcases mask with _ | mask <;> rcases versionBits with _ | value
  · exact ⟨0, rfl⟩
  · exact h.elim
  · exact h.elim
  · exact h.1.exists_word

theorem VersionBits.isSome_eq {mask : Option UInt32} {versionBits : Option Text}
    (h : VersionBits mask versionBits) : mask.isSome = versionBits.isSome := by
  rcases mask with _ | mask <;> rcases versionBits with _ | value
  · rfl
  · exact h.elim
  · exact h.elim
  · rfl

/-- A submission that is parsed has the grammar, and the input is what it denotes. -/
theorem parse_sound (h : submission.parse context = .ok input) :
    (submission.Grammatical context ∧ submission.extraNonce2 ≠ some []) ∧
      submission.Denotes input := by
  unfold Submission.parse parseSubmitInput at h
  obtain ⟨extraNonce2, hextraNonce2, h⟩ := bind_eq_ok.mp h
  obtain ⟨nTime, hnTime, h⟩ := bind_eq_ok.mp h
  obtain ⟨nonce, hnonce, h⟩ := bind_eq_ok.mp h
  obtain ⟨nTimeInt, htimeText, h⟩ := bind_eq_ok.mp h
  obtain ⟨nonceInt, hnonceText, h⟩ := bind_eq_ok.mp h
  obtain ⟨bits, hbits, h⟩ := bind_eq_ok.mp h
  obtain ⟨_, hvalid, h⟩ := bind_eq_ok.mp h
  cases h
  obtain ⟨hextraNonce2, hne⟩ := requireText_eq_ok_iff.mp hextraNonce2
  obtain ⟨hnTime, -⟩ := requireText_eq_ok_iff.mp hnTime
  obtain ⟨hnonce, -⟩ := requireText_eq_ok_iff.mp hnonce
  obtain ⟨htimeText, htime⟩ := parseHex8Strict_eq_ok_iff.mp htimeText
  obtain ⟨hnonceText, hnonceInt⟩ := parseHex8Strict_eq_ok_iff.mp hnonceText
  obtain ⟨hversion, hbits⟩ := parseVersionBits_eq_ok_iff.mp hbits
  have htext := validateHex_eq_ok_iff.mp hvalid
  refine ⟨⟨⟨⟨extraNonce2, hextraNonce2, htext⟩, ⟨nTime, hnTime, htimeText⟩,
    ⟨nonce, hnonce, hnonceText⟩, hversion⟩, ?_⟩, ?_⟩
  · rw [hextraNonce2]
    exact fun h => hne (Option.some.inj h)
  · exact ⟨⟨extraNonce2, hextraNonce2, normalizeHexLowercaseIfNeeded_eq_toLower htext.2⟩,
      ⟨nTime, hnTime, htime⟩, ⟨nonce, hnonce, hnonceInt⟩, hbits, hversion.isSome_eq⟩

/-- A submission that has the grammar is parsed, if its extranonce is not empty. -/
theorem parse_complete (h : submission.Grammatical context)
    (hextraNonce2 : submission.extraNonce2 ≠ some []) :
    ∃ input, submission.parse context = .ok input := by
  obtain ⟨⟨extraNonce2, he, htext⟩, ⟨nTime, ht, htimeText⟩, ⟨nonce, hn, hnonceText⟩, hversion⟩ := h
  have hne : extraNonce2 ≠ [] := by
    rintro rfl
    exact hextraNonce2 he
  obtain ⟨nTimeInt, htime⟩ := htimeText.exists_word
  obtain ⟨nonceInt, hnonce⟩ := hnonceText.exists_word
  obtain ⟨bits, hbits⟩ := hversion.exists_word
  refine ⟨⟨normalizeHexLowercaseIfNeeded extraNonce2, nTimeInt, nonceInt, bits,
    context.versionRollingMask.isSome⟩, ?_⟩
  unfold Submission.parse parseSubmitInput
  refine bind_eq_ok.mpr ⟨extraNonce2, requireText_eq_ok_iff.mpr ⟨he, hne⟩, ?_⟩
  refine bind_eq_ok.mpr ⟨nTime, requireText_eq_ok_iff.mpr ⟨ht, htimeText.ne_nil⟩, ?_⟩
  refine bind_eq_ok.mpr ⟨nonce, requireText_eq_ok_iff.mpr ⟨hn, hnonceText.ne_nil⟩, ?_⟩
  refine bind_eq_ok.mpr ⟨nTimeInt, parseHex8Strict_eq_ok_iff.mpr ⟨htimeText, htime⟩, ?_⟩
  refine bind_eq_ok.mpr ⟨nonceInt, parseHex8Strict_eq_ok_iff.mpr ⟨hnonceText, hnonce⟩, ?_⟩
  refine bind_eq_ok.mpr ⟨bits, parseVersionBits_eq_ok_iff.mpr ⟨hversion, hbits⟩, ?_⟩
  exact bind_eq_ok.mpr ⟨(), validateHex_eq_ok_iff.mpr htext, rfl⟩

end Submission

section Trace

variable (lib : Library) (job : Job)

/-- What `ProcessShare` does before it registers the key. -/
def checkSubmit (context : WorkerContext) (now : Int) (submission : Submission) :
    Except Failure SubmitInput := do
  let input ← submission.parse context
  if input.nTime < job.blockTemplate.curTime ∨ (input.nTime.toNat : Int) > now + 7200 then
    throw (.stratum .other "ntime out of range")
  return input

/-- What `ProcessShare` does from its duplicate check on. -/
def registerShare (submissions : List SubmitDuplicateKey) (context : WorkerContext)
    (input : SubmitInput) : Except Failure (Share × Option Text) × List SubmitDuplicateKey :=
  match registerSubmit submissions context.extraNonce1 input.extraNonce2 input.nTime input.nonce
    input.versionBits input.hasVersionBits with
  | none => (.error (.stratum .duplicateShare "duplicate share"), submissions)
  | some submissions' =>
    (processShareInternal lib job context input.extraNonce2 input.nTime input.nonce
      input.versionBitsKey, submissions')

/-- The time of a submission lies between the template and two hours from now. -/
def Submission.InTime (job : Job) (now : Int) (submission : Submission) : Prop :=
  ∃ value, submission.nTime = some value ∧
    job.blockTemplate.curTime.toNat ≤ hexNumber value ∧ (hexNumber value : Int) ≤ now + 7200

/-- A submission to the job: whose it is, when it comes, and its texts. -/
structure Request where
  context : WorkerContext
  now : Int
  submission : Submission

/-- `ProcessShare` of one submission after the other: the results, and the keys
afterwards. -/
def processShares : List SubmitDuplicateKey → List Request →
    List (Except Failure (Share × Option Text)) × List SubmitDuplicateKey
  | submissions, [] => ([], submissions)
  | submissions, request :: requests =>
    let processed :=
      processShare lib job submissions request.context request.now request.submission
    let (results, submissions') := processShares processed.2 requests
    (processed.1 :: results, submissions')

variable {lib job} {context : WorkerContext} {now : Int} {submission : Submission}

/-- The check comes before the registration. -/
theorem processShare_eq (submissions : List SubmitDuplicateKey) :
    processShare lib job submissions context now submission =
      match checkSubmit job context now submission with
      | .error e => (.error e, submissions)
      | .ok input => registerShare lib job submissions context input := by
  rw [processShare, checkSubmit]
  cases submission.parse context with
  | error e => rfl
  | ok input =>
    by_cases htime : input.nTime < job.blockTemplate.curTime ∨
        (input.nTime.toNat : Int) > now + 7200
    · simp [bind, Except.bind, htime, throw, throwThe, MonadExceptOf.throw]
    · simp only [bind, Except.bind, htime, if_false]
      rfl

/-- The check passes what can be parsed and is in time. -/
theorem checkSubmit_eq_ok_iff {input : SubmitInput} :
    checkSubmit job context now submission = .ok input ↔
      submission.parse context = .ok input ∧ submission.InTime job now := by
  rw [checkSubmit, bind_eq_ok]
  constructor
  · rintro ⟨parsed, hparse, h⟩
    split at h
    · cases h
    · rename_i htime
      cases h
      obtain ⟨nTime, hnTime, hvalue⟩ := (parse_sound hparse).2.nTime
      rw [UInt32.lt_iff_toNat_lt, hvalue] at htime
      exact ⟨hparse, nTime, hnTime, by omega, by omega⟩
  · rintro ⟨hparse, nTime, hnTime, hle, hge⟩
    obtain ⟨nTime', hnTime', hvalue⟩ := (parse_sound hparse).2.nTime
    obtain rfl : nTime' = nTime := Option.some.inj (hnTime'.symm.trans hnTime)
    refine ⟨input, hparse, ?_⟩
    rw [if_neg]
    · rfl
    · rw [UInt32.lt_iff_toNat_lt, hvalue]
      omega

theorem processShares_append (submissions : List SubmitDuplicateKey) (before after : List Request) :
    processShares lib job submissions (before ++ after) =
      ((processShares lib job submissions before).1 ++
          (processShares lib job (processShares lib job submissions before).2 after).1,
        (processShares lib job (processShares lib job submissions before).2 after).2) := by
  induction before generalizing submissions with
  | nil => rfl
  | cons request before ih => simp only [List.cons_append, processShares, ih]

theorem length_processShares (submissions : List SubmitDuplicateKey) (requests : List Request) :
    (processShares lib job submissions requests).1.length = requests.length := by
  induction requests generalizing submissions with
  | nil => rfl
  | cons request requests ih => simp only [processShares, List.length_cons, ih]

/-- Nothing that comes later can tell a rejected submission from none. -/
theorem processShares_rejected {e : Failure}
    (h : checkSubmit job context now submission = .error e)
    (submissions : List SubmitDuplicateKey) (before after : List Request) :
    ∃ results results' submissions', results.length = before.length ∧
      processShares lib job submissions (before ++ after) =
        (results ++ results', submissions') ∧
      processShares lib job submissions (before ++ ⟨context, now, submission⟩ :: after) =
        (results ++ .error e :: results', submissions') := by
  refine ⟨(processShares lib job submissions before).1, _, _, length_processShares _ _,
    processShares_append _ _ _, ?_⟩
  rw [processShares_append, processShares, processShare_eq, h]

/-- **Submissions are parsed by their grammar and rejected without a trace.** -/
theorem processShare_grammar (lib : Library) (job : Job) (context : WorkerContext) (now : Int)
    (submission : Submission) :
    ((∃ input, submission.parse context = .ok input) ↔
        submission.Grammatical context ∧ submission.extraNonce2 ≠ some []) ∧
      (∀ input, submission.parse context = .ok input → submission.Denotes input) ∧
      (∀ submissions, processShare lib job submissions context now submission =
        match checkSubmit job context now submission with
        | .error e => (.error e, submissions)
        | .ok input => registerShare lib job submissions context input) ∧
      ((∃ input, checkSubmit job context now submission = .ok input) ↔
        (submission.Grammatical context ∧ submission.extraNonce2 ≠ some []) ∧
          submission.InTime job now) ∧
      ∀ e, checkSubmit job context now submission = .error e →
        ∀ submissions before after, ∃ results results' submissions',
          results.length = before.length ∧
            processShares lib job submissions (before ++ after) =
              (results ++ results', submissions') ∧
            processShares lib job submissions (before ++ ⟨context, now, submission⟩ :: after) =
              (results ++ .error e :: results', submissions') := by
  have hparse : (∃ input, submission.parse context = .ok input) ↔
      submission.Grammatical context ∧ submission.extraNonce2 ≠ some [] := by
    constructor
    · rintro ⟨input, h⟩
      exact (parse_sound h).1
    · exact fun h => parse_complete h.1 h.2
  refine ⟨hparse, fun input h => (parse_sound h).2, processShare_eq, ?_,
    fun e => processShares_rejected⟩
  rw [← hparse]
  simp only [checkSubmit_eq_ok_iff, exists_and_right]

end Trace

section Example

/-- A worker whose extranonce takes up the placeholder. -/
def fullContext : WorkerContext where
  extraNonce1 := some (text "0123456789abcdef")
  versionRollingMask := none
  difficulty := 1
  previousDifficulty := none
  varDiffUpdated := false

/-- Its submission, whose extranonce has the expected length. -/
def emptySubmission : Submission :=
  ⟨some [], some (text "63445774"), some (text "51036775"), none⟩

/-- An extranonce without digits is rejected where none is expected. -/
theorem parse_emptySubmission :
    emptySubmission.Grammatical fullContext ∧
      ¬∃ input, emptySubmission.parse fullContext = .ok input := by
  refine ⟨⟨⟨[], rfl, by decide⟩, ⟨_, rfl, by decide⟩, ⟨_, rfl, by decide⟩, trivial⟩, ?_⟩
  rintro ⟨input, h⟩
  cases h

end Example

end HashStorm.Bitcoin
