import HashStorm.Stratum.Text

/-!
# Validation of Bitcoin submissions

`BitcoinSubmitValidation` reads the fields of a submission and makes the key by
which duplicates are found. The numbers are read strictly, the extranonce is
brought to lower case, and the version bits are part of the key only if version
rolling was negotiated.
-/

namespace HashStorm.Bitcoin

open Stratum

/-- `BitcoinSubmitInput`. -/
structure SubmitInput where
  extraNonce2 : Text
  nTime : UInt32
  nonce : UInt32
  versionBits : UInt32
  hasVersionBits : Bool
  deriving DecidableEq, Repr

/-- `BitcoinSubmitDuplicateKey`. -/
structure SubmitDuplicateKey where
  extraNonce1 : Text
  extraNonce2 : Text
  nTime : UInt32
  nonce : UInt32
  versionBits : Option UInt32
  deriving DecidableEq, Repr

section Hex

/-- The value of a hex digit of either case. -/
def hexNibble (char : UInt16) : Option UInt32 :=
  let c := char.toUInt32
  let digit := c - 48
  if digit ≤ 9 then some digit
  else
    let lower := (c ||| 0x20) - 97
    if lower > 5 then none else some (lower + 10)

/-- `TryParseHex8Strict`. -/
def tryParseHex8Strict (value : Text) : Option UInt32 :=
  if value.length ≠ 8 then none
  else value.foldlM (fun acc c => (hexNibble c).map fun nibble => acc <<< 4 ||| nibble) 0

/-- `ParseHex8Strict`. -/
def parseHex8Strict (value : Text) (sizeError invalidError : String) : Except Failure UInt32 :=
  if value.length ≠ 8 then .error (.stratum .other sizeError)
  else
    match tryParseHex8Strict value with
    | none => .error (.stratum .other invalidError)
    | some result => .ok result

/-- `ValidateHex`. -/
def validateHex (value : Text) (expectedLength : Int) (sizeError invalidError : String) :
    Except Failure Unit :=
  if value.length ≠ expectedLength then .error (.stratum .other sizeError)
  else if value.all fun c => (hexNibble c).isSome then .ok ()
  else .error (.stratum .other invalidError)

/-- A digit that `NormalizeHexLowercaseIfNeeded` changes. -/
def isUpperHexDigit (c : UInt16) : Bool := c.toUInt32 - 65 ≤ 5

/-- `NormalizeHexLowercaseIfNeeded`. -/
def normalizeHexLowercaseIfNeeded (value : Text) : Text :=
  if value.any isUpperHexDigit then
    value.map fun ch => if isUpperHexDigit ch then ch ||| 0x20 else ch
  else value

end Hex

/-- The `IsNullOrEmpty` checks of `ParseSubmitInput`; a missing text is `none`. -/
def requireText (value : Option Text) (message : String) : Except Failure Text :=
  match value with
  | some (c :: rest) => .ok (c :: rest)
  | _ => .error (.stratum .other message)

/-- The version bits of a submission, which there are only under a mask. -/
def parseVersionBits (versionRollingMask : Option UInt32) (versionBits : Option Text) :
    Except Failure UInt32 :=
  match versionRollingMask, versionBits with
  | some _, none => .error (.stratum .other "missing version bits")
  | some mask, some versionBits =>
    match parseHex8Strict versionBits "incorrect size of version bits" "invalid version bits" with
    | .error e => .error e
    | .ok versionBitsInt =>
      if versionBitsInt &&& ~~~mask ≠ 0 then
        .error (.stratum .other "rolling-version mask violation")
      else .ok versionBitsInt
  | none, some _ => .error (.stratum .other "version rolling was not negotiated")
  | none, none => .ok 0

/-- `ParseSubmitInput`. -/
def parseSubmitInput (extraNonce2 nTime nonce versionBits : Option Text)
    (versionRollingMask : Option UInt32) (expectedExtraNonce2Length : Int) :
    Except Failure SubmitInput := do
  let extraNonce2 ← requireText extraNonce2 "missing or invalid extranonce2"
  let nTime ← requireText nTime "missing or invalid ntime"
  let nonce ← requireText nonce "missing or invalid nonce"
  let nTimeInt ← parseHex8Strict nTime "incorrect size of ntime" "invalid ntime"
  let nonceInt ← parseHex8Strict nonce "incorrect size of nonce" "invalid nonce"
  let versionBitsInt ← parseVersionBits versionRollingMask versionBits
  validateHex extraNonce2 expectedExtraNonce2Length "incorrect size of extranonce2"
    "invalid extranonce2"
  return ⟨normalizeHexLowercaseIfNeeded extraNonce2, nTimeInt, nonceInt, versionBitsInt,
    versionRollingMask.isSome⟩

/-- `CreateDuplicateKey`. -/
def createDuplicateKey (extraNonce1 : Option Text) (extraNonce2 : Text)
    (nTime nonce versionBits : UInt32) (hasVersionBits : Bool) : SubmitDuplicateKey :=
  ⟨normalizeHexLowercaseIfNeeded (extraNonce1.getD []),
    normalizeHexLowercaseIfNeeded extraNonce2, nTime, nonce,
    if hasVersionBits then some versionBits else none⟩

section Digits

theorem isUpperHexDigit_iff {c : UInt16} : isUpperHexDigit c = true ↔ 65 ≤ c ∧ c ≤ 70 := by
  have hlt := c.toNat_lt
  simp only [isUpperHexDigit, decide_eq_true_eq, UInt32.le_iff_toNat_le, UInt32.toNat_sub,
    UInt16.toNat_toUInt32, UInt16.le_iff_toNat_le, UInt16.reduceToNat, UInt32.reduceToNat]
  omega

/-- A code unit that is a letter from `a` to `f` in lower case is one in either case. -/
theorem mem_of_or_mem {n : Nat} (h : 97 ≤ n ||| 32 ∧ n ||| 32 ≤ 102) :
    65 ≤ n ∧ n ≤ 70 ∨ 97 ≤ n ∧ n ≤ 102 := by
  have hsmall : n < 103 := Nat.lt_succ_of_le (Nat.left_le_or.trans h.2)
  have hall : ∀ n < 103, 97 ≤ n ||| 32 ∧ n ||| 32 ≤ 102 →
      65 ≤ n ∧ n ≤ 70 ∨ 97 ≤ n ∧ n ≤ 102 := by decide
  exact hall n hsmall h

/-- An accepted digit is in lower case or changed to it. -/
theorem lower_or_upper_of_hexNibble {c : UInt16} (h : (hexNibble c).isSome = true) :
    LowerHexDigit c ∨ isUpperHexDigit c = true := by
  have hlt := c.toNat_lt
  rw [isUpperHexDigit_iff]
  simp only [hexNibble] at h
  simp only [LowerHexDigit, UInt16.le_iff_toNat_le, UInt16.reduceToNat]
  split at h
  · rename_i hdigit
    simp only [UInt32.le_iff_toNat_le, UInt32.toNat_sub, UInt16.toNat_toUInt32,
      UInt32.reduceToNat] at hdigit
    omega
  · split at h
    · cases h
    · rename_i hlower
      have hor : c.toNat ||| 32 < 2 ^ 16 := Nat.or_lt_two_pow hlt (by decide)
      simp only [gt_iff_lt, UInt32.lt_iff_toNat_lt, UInt32.toNat_sub, UInt32.toNat_or,
        UInt16.toNat_toUInt32, UInt32.reduceToNat] at hlower
      have hletter : 97 ≤ c.toNat ||| 32 ∧ c.toNat ||| 32 ≤ 102 := by omega
      have := mem_of_or_mem hletter
      omega

theorem lowerHexDigit_or {c : UInt16} (h : isUpperHexDigit c = true) :
    LowerHexDigit (c ||| 0x20) := by
  obtain ⟨hle, hge⟩ := isUpperHexDigit_iff.mp h
  have hall : ∀ n < 71, 65 ≤ n → 97 ≤ n ||| 32 ∧ n ||| 32 ≤ 102 := by decide
  simp only [UInt16.le_iff_toNat_le, UInt16.reduceToNat] at hle hge
  right
  simpa only [UInt16.le_iff_toNat_le, UInt16.toNat_or, UInt16.reduceToNat] using
    hall c.toNat (by omega) hle

theorem not_isUpperHexDigit {c : UInt16} (h : LowerHexDigit c) : isUpperHexDigit c = false := by
  rw [Bool.eq_false_iff, Ne, isUpperHexDigit_iff]
  simp only [LowerHexDigit, UInt16.le_iff_toNat_le, UInt16.reduceToNat] at h ⊢
  omega

/-- Normalizing maps each digit to lower case. -/
theorem normalizeHexLowercaseIfNeeded_eq (value : Text) :
    normalizeHexLowercaseIfNeeded value =
      value.map fun ch => if isUpperHexDigit ch then ch ||| 0x20 else ch := by
  unfold normalizeHexLowercaseIfNeeded
  split
  · rfl
  · rename_i hany
    simp only [List.any_eq_true, not_exists, not_and] at hany
    refine (List.map_id value).symm.trans (List.map_congr_left fun c hc => ?_)
    rw [if_neg (hany c hc), id]

theorem length_normalizeHexLowercaseIfNeeded (value : Text) :
    (normalizeHexLowercaseIfNeeded value).length = value.length := by
  rw [normalizeHexLowercaseIfNeeded_eq, List.length_map]

theorem lowerHexDigit_normalizeHexLowercaseIfNeeded {value : Text}
    (h : ∀ c ∈ value, (hexNibble c).isSome = true) :
    ∀ c ∈ normalizeHexLowercaseIfNeeded value, LowerHexDigit c := by
  rw [normalizeHexLowercaseIfNeeded_eq]
  intro c hc
  obtain ⟨d, hd, rfl⟩ := List.mem_map.mp hc
  rcases lower_or_upper_of_hexNibble (h d hd) with hlower | hupper
  · rwa [not_isUpperHexDigit hlower]
  · rw [if_pos hupper]
    exact lowerHexDigit_or hupper

end Digits

section Parse

/-- What is known of a submission that was parsed under a mask. -/
structure SubmitInput.Valid (mask : Option UInt32) (length : Int) (input : SubmitInput) :
    Prop where
  length_eq : input.extraNonce2.length = length
  lower : ∀ c ∈ input.extraNonce2, LowerHexDigit c
  hasVersionBits_eq : input.hasVersionBits = mask.isSome
  versionBits_mask : input.versionBits &&& ~~~mask.getD 0 = 0

theorem bind_eq_ok {ε α β : Type} {x : Except ε α} {f : α → Except ε β} {b : β} :
    (x >>= f) = .ok b ↔ ∃ a, x = .ok a ∧ f a = .ok b := by
  cases x <;> simp [bind, Except.bind]

theorem check_eq_ok {ε α β : Type} {c : Prop} [Decidable c] {e : ε} {f : β → Except ε α}
    {x : Except ε α} {a : α} : (if c then throw e >>= f else x) = .ok a ↔ ¬c ∧ x = .ok a := by
  split <;> simp_all [throw, throwThe, MonadExceptOf.throw, bind, Except.bind]

theorem validateHex_eq_ok {value : Text} {length : Int} {sizeError invalidError : String}
    {u : Unit} (h : validateHex value length sizeError invalidError = .ok u) :
    value.length = length ∧ ∀ c ∈ value, (hexNibble c).isSome = true := by
  unfold validateHex at h
  split at h
  · cases h
  split at h
  · rename_i hlength hall
    exact ⟨not_not.mp hlength, List.all_eq_true.mp hall⟩
  · cases h

/-- The version bits lie within the mask; without a mask there are none. -/
theorem parseVersionBits_mask {mask : Option UInt32} {versionBits : Option Text} {bits : UInt32}
    (h : parseVersionBits mask versionBits = .ok bits) : bits &&& ~~~mask.getD 0 = 0 := by
  cases mask with
  | none =>
    cases versionBits with
    | none =>
      cases h
      rfl
    | some text => cases h
  | some mask =>
    cases versionBits with
    | none => cases h
    | some text =>
      simp only [parseVersionBits] at h
      split at h
      · cases h
      split at h
      · cases h
      · rename_i hmask
        cases h
        exact not_not.mp hmask

/-- A parsed submission is valid. -/
theorem parseSubmitInput_valid {extraNonce2 nTime nonce versionBits : Option Text}
    {mask : Option UInt32} {length : Int} {input : SubmitInput}
    (h : parseSubmitInput extraNonce2 nTime nonce versionBits mask length = .ok input) :
    input.Valid mask length := by
  unfold parseSubmitInput at h
  obtain ⟨extraNonce2, -, h⟩ := bind_eq_ok.mp h
  obtain ⟨nTime, -, h⟩ := bind_eq_ok.mp h
  obtain ⟨nonce, -, h⟩ := bind_eq_ok.mp h
  obtain ⟨nTimeInt, -, h⟩ := bind_eq_ok.mp h
  obtain ⟨nonceInt, -, h⟩ := bind_eq_ok.mp h
  obtain ⟨bits, hbits, h⟩ := bind_eq_ok.mp h
  obtain ⟨_, hvalid, h⟩ := bind_eq_ok.mp h
  obtain ⟨hlength, hall⟩ := validateHex_eq_ok hvalid
  cases h
  refine ⟨?_, lowerHexDigit_normalizeHexLowercaseIfNeeded hall, rfl, parseVersionBits_mask hbits⟩
  rw [length_normalizeHexLowercaseIfNeeded, hlength]

end Parse

end HashStorm.Bitcoin
