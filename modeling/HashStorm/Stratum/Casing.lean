import HashStorm.Stratum.HexUtils

/-!
# The case of ASCII letters

Addresses are printable and written in one case. A text of one case is the text in
lower case, or that text in upper case.
-/

namespace HashStorm.Stratum

/-- The characters that addresses are written in. -/
abbrev Printable (c : UInt16) : Prop := 33 ≤ c ∧ c ≤ 126

/-- A letter in lower case. -/
abbrev IsLower (c : UInt16) : Prop := 97 ≤ c ∧ c ≤ 122

/-- A letter in upper case. -/
abbrev IsUpper (c : UInt16) : Prop := 65 ≤ c ∧ c ≤ 90

/-- All letters are of one case. -/
def Unmixed (s : Text) : Prop := (∀ c ∈ s, ¬IsLower c) ∨ ∀ c ∈ s, ¬IsUpper c

/-- Human-readable parts are not empty, printable and in lower case. -/
def HumanReadable (hrp : Text) : Prop := hrp ≠ [] ∧ ∀ c ∈ hrp, Printable c ∧ ¬IsUpper c

/-- `ToUpper` of an ASCII character. -/
def upperChar (c : UInt16) : UInt16 := if 97 ≤ c ∧ c ≤ 122 then c - 32 else c

/-- `ToUpper` of an ASCII text. -/
def toUpper (value : Text) : Text := value.map upperChar

section Casing

variable {c d : UInt16} {s t : Text}

theorem toNat_lowerChar (c : UInt16) : (lowerChar c).toNat =
    if 65 ≤ c.toNat ∧ c.toNat ≤ 90 then c.toNat + 32 else c.toNat := by
  simp only [lowerChar, UInt16.le_iff_toNat_le, UInt16.reduceToNat]
  split
  · rw [UInt16.toNat_add]
    simp only [UInt16.reduceToNat]
    omega
  · rfl

theorem toNat_lowerChar_mod (c : UInt16) : (lowerChar c).toNat % 32 = c.toNat % 32 := by
  rw [toNat_lowerChar]
  split <;> omega

theorem printable_lowerChar : Printable (lowerChar c) ↔ Printable c := by
  simp only [Printable, UInt16.le_iff_toNat_le, toNat_lowerChar, UInt16.reduceToNat]
  split <;> omega

theorem not_isUpper_lowerChar : ¬IsUpper (lowerChar c) := by
  simp only [IsUpper, UInt16.le_iff_toNat_le, toNat_lowerChar, UInt16.reduceToNat]
  split <;> omega

theorem lowerChar_eq_iff (hlower : ¬IsLower d) (hupper : ¬IsUpper d) :
    lowerChar c = d ↔ c = d := by
  simp only [IsLower, IsUpper, UInt16.le_iff_toNat_le, UInt16.reduceToNat] at hlower hupper
  simp only [← UInt16.toNat_inj, toNat_lowerChar]
  split <;> omega

theorem not_isUpper_of_isLower (h : IsLower c) : ¬IsUpper c := by
  simp only [IsLower, IsUpper, UInt16.le_iff_toNat_le, UInt16.reduceToNat] at h ⊢
  omega

theorem toNat_lt_of_printable (h : Printable c) : c.toNat < 128 := by
  simp only [Printable, UInt16.le_iff_toNat_le, UInt16.reduceToNat] at h
  omega

theorem lowerChar_of_not_isUpper (h : ¬IsUpper c) : lowerChar c = c := if_neg h

theorem toNat_upperChar (c : UInt16) : (upperChar c).toNat =
    if 97 ≤ c.toNat ∧ c.toNat ≤ 122 then c.toNat - 32 else c.toNat := by
  simp only [upperChar, UInt16.le_iff_toNat_le, UInt16.reduceToNat]
  split
  · rw [UInt16.toNat_sub_of_le]
    · rfl
    · simp only [UInt16.le_iff_toNat_le, UInt16.reduceToNat]
      omega
  · rfl

theorem upperChar_lowerChar (h : ¬IsLower c) : upperChar (lowerChar c) = c := by
  simp only [IsLower, UInt16.le_iff_toNat_le, UInt16.reduceToNat] at h
  rw [← UInt16.toNat_inj, toNat_upperChar, toNat_lowerChar]
  split_ifs <;> omega

theorem lowerChar_upperChar (h : ¬IsUpper c) : lowerChar (upperChar c) = c := by
  simp only [IsUpper, UInt16.le_iff_toNat_le, UInt16.reduceToNat] at h
  rw [← UInt16.toNat_inj, toNat_lowerChar, toNat_upperChar]
  split_ifs <;> omega

theorem not_isLower_upperChar : ¬IsLower (upperChar c) := by
  simp only [IsLower, UInt16.le_iff_toNat_le, toNat_upperChar, UInt16.reduceToNat]
  split <;> omega

theorem toLower_of_not_isUpper (h : ∀ c ∈ s, ¬IsUpper c) : toLower s = s :=
  (List.map_congr_left fun c hc => lowerChar_of_not_isUpper (h c hc)).trans (List.map_id s)

/-- A text in one case is a text in lower case, or that in upper case. -/
theorem unmixed_and_toLower_eq_iff (ht : ∀ c ∈ t, ¬IsUpper c) :
    Unmixed s ∧ toLower s = t ↔ s = t ∨ s = toUpper t := by
  constructor
  · rintro ⟨hlower | hupper, rfl⟩
    · right
      rw [toUpper, toLower, List.map_map]
      exact ((List.map_congr_left fun c hc => upperChar_lowerChar (hlower c hc)).trans
        (List.map_id s)).symm
    · exact .inl (toLower_of_not_isUpper hupper).symm
  · rintro (rfl | rfl)
    · exact ⟨.inr ht, toLower_of_not_isUpper ht⟩
    · constructor
      · left
        simp only [toUpper, List.forall_mem_map]
        exact fun c _ => not_isLower_upperChar
      · rw [toUpper, toLower, List.map_map]
        exact (List.map_congr_left fun c hc => lowerChar_upperChar (ht c hc)).trans (List.map_id t)

/-- What is behind the last occurrence of a character has none. -/
theorem exists_last_occurrence (h : c ∈ s) : ∃ p rest, s = p ++ c :: rest ∧ c ∉ rest := by
  obtain ⟨rest, p, hsplit, hrest⟩ := List.eq_append_cons_of_mem (List.mem_reverse.mpr h)
  refine ⟨p.reverse, rest.reverse, ?_, by simpa using hrest⟩
  rw [← List.reverse_reverse s, hsplit]
  simp

end Casing

end HashStorm.Stratum
