import Mathlib

/-!
# Slots with a stamp

Keys share slots, and a slot belongs to the key it is stamped with: an amount for another key
empties the slot first. Where no key of a slot comes behind a greater one, a slot holds the amounts
of the greatest of its keys.
-/

namespace HashStorm.StampedSlots

variable {ι τ M : Type*}

/-- The stamp and the content of each slot. -/
structure Slots (ι τ M : Type*) where
  stamp : ι → τ
  content : ι → M

section Add

variable [DecidableEq ι] [DecidableEq τ] [AddCommMonoid M]

/-- Add an amount for a key to its slot. -/
def Slots.add (slot : τ → ι) (s : Slots ι τ M) (entry : τ × M) : Slots ι τ M :=
  let i := slot entry.1
  let cleared : Slots ι τ M :=
    if s.stamp i = entry.1 then s
    else ⟨Function.update s.stamp i entry.1, Function.update s.content i 0⟩
  { cleared with content := Function.update cleared.content i (cleared.content i + entry.2) }

/-- The amounts of a key. -/
def amount (entries : List (τ × M)) (key : τ) : M :=
  ((entries.filter fun e => e.1 = key).map Prod.snd).sum

theorem amount_append (entries entries' : List (τ × M)) (key : τ) :
    amount (entries ++ entries') key = amount entries key + amount entries' key := by
  simp only [amount, List.filter_append, List.map_append, List.sum_append]

theorem amount_singleton (entry : τ × M) (key : τ) :
    amount [entry] key = if entry.1 = key then entry.2 else 0 := by
  by_cases h : entry.1 = key <;> simp [amount, h]

/-- A key without amounts. -/
theorem amount_eq_zero {entries : List (τ × M)} {key : τ} (h : ∀ e ∈ entries, e.1 ≠ key) :
    amount entries key = 0 := by
  have hnil : (entries.filter fun e => e.1 = key) = [] :=
    List.filter_eq_nil_iff.mpr fun e he => by simpa using h e he
  rw [amount, hnil]
  rfl

end Add

section Add

variable [DecidableEq ι] [DecidableEq τ] [AddCommMonoid M] {slot : τ → ι} {s : Slots ι τ M}
  {entry : τ × M} {i : ι}

/-- The slot of the key is stamped with it. -/
theorem stamp_add_self : (s.add slot entry).stamp (slot entry.1) = entry.1 := by
  rw [Slots.add]
  by_cases h : s.stamp (slot entry.1) = entry.1
  · simp [h]
  · simp [h]

theorem content_add_self : (s.add slot entry).content (slot entry.1) =
    (if s.stamp (slot entry.1) = entry.1 then s.content (slot entry.1) else 0) + entry.2 := by
  rw [Slots.add]
  by_cases h : s.stamp (slot entry.1) = entry.1
  · simp [h]
  · simp [h]

/-- The other slots are not touched. -/
theorem add_of_ne (h : i ≠ slot entry.1) :
    (s.add slot entry).stamp i = s.stamp i ∧ (s.add slot entry).content i = s.content i := by
  rw [Slots.add]
  by_cases hstamp : s.stamp (slot entry.1) = entry.1
  · simp [hstamp, h]
  · simp [hstamp, h]

end Add

variable [LinearOrder τ] [AddCommMonoid M] {slot : τ → ι} {start s : Slots ι τ M}
  {entries : List (τ × M)} {entry : τ × M} {key : τ}

section Read

/-- A slot is as at the start, or holds the amounts of the greatest of its keys. -/
def Holds (slot : τ → ι) (start s : Slots ι τ M) (entries : List (τ × M)) (i : ι) : Prop :=
  ((∀ e ∈ entries, slot e.1 ≠ i) ∧ s.stamp i = start.stamp i ∧ s.content i = start.content i) ∨
    (∃ e ∈ entries, slot e.1 = i ∧ e.1 = s.stamp i) ∧
      (∀ e ∈ entries, slot e.1 = i → e.1 ≤ s.stamp i) ∧ s.content i = amount entries (s.stamp i)

/-- A key that no greater key of its slot has replaced is the stamp if it has an entry. -/
theorem Holds.stamp_eq (h : Holds slot start s entries (slot key))
    (hle : ∀ e ∈ entries, slot e.1 = slot key → e.1 ≤ key) (hentry : ∃ e ∈ entries, e.1 = key) :
    s.stamp (slot key) = key := by
  obtain ⟨e, he, rfl⟩ := hentry
  rcases h with ⟨hnone, -, -⟩ | ⟨⟨e', he', hslot', hkey'⟩, hmax, -⟩
  · exact absurd rfl (hnone e he)
  · exact le_antisymm (hkey' ▸ hle e' he' hslot') (hmax e he rfl)

/-- What is read for such a key: its amounts. -/
theorem Holds.read_eq (h : Holds slot start s entries (slot key))
    (hstart : start.content (slot key) = 0)
    (hle : ∀ e ∈ entries, slot e.1 = slot key → e.1 ≤ key) :
    (if s.stamp (slot key) = key then s.content (slot key) else 0) = amount entries key := by
  split
  · rename_i hstamp
    rcases h with ⟨hnone, -, hcontent⟩ | ⟨-, -, hcontent⟩
    · rw [hcontent, hstart, amount_eq_zero fun e he heq => hnone e he (congrArg slot heq)]
    · rw [hcontent, hstamp]
  · rename_i hstamp
    rw [amount_eq_zero]
    intro e he heq
    exact hstamp (h.stamp_eq hle ⟨e, he, heq⟩)

/-- A key that is the stamp has an entry, or was the stamp from the start. -/
theorem Holds.exists_of_stamp (h : Holds slot start s entries (slot key))
    (hstamp : s.stamp (slot key) = key) :
    (∃ e ∈ entries, e.1 = key) ∨ start.stamp (slot key) = key := by
  rcases h with ⟨-, hstart, -⟩ | ⟨⟨e, he, -, hkey⟩, -⟩
  · exact .inr (hstart.symm.trans hstamp)
  · exact .inl ⟨e, he, hkey.trans hstamp⟩

end Read

section Entries

variable [DecidableEq ι]

/-- The slot of a key that is not below the others in it. -/
theorem Holds.add_self (hstart : start.content (slot entry.1) = 0)
    (h : Holds slot start s entries (slot entry.1))
    (hle : ∀ e ∈ entries, slot e.1 = slot entry.1 → e.1 ≤ entry.1) :
    Holds slot start (s.add slot entry) (entries ++ [entry]) (slot entry.1) := by
  have hmem : entry ∈ entries ++ [entry] := List.mem_append_right _ List.mem_cons_self
  right
  rw [stamp_add_self, content_add_self, h.read_eq hstart hle, amount_append, amount_singleton,
    if_pos rfl]
  refine ⟨⟨entry, hmem, rfl, rfl⟩, ?_, rfl⟩
  intro e he hslot
  rcases List.mem_append.mp he with he | he
  · exact hle e he hslot
  · rw [List.mem_singleton.mp he]

theorem Holds.add_of_ne {i : ι} (h : Holds slot start s entries i) (hi : i ≠ slot entry.1) :
    Holds slot start (s.add slot entry) (entries ++ [entry]) i := by
  obtain ⟨hstamp, hcontent⟩ : (s.add slot entry).stamp i = s.stamp i ∧
      (s.add slot entry).content i = s.content i := StampedSlots.add_of_ne hi
  rw [Holds, hstamp, hcontent]
  have hslot : ∀ e ∈ entries ++ [entry], slot e.1 = i → e ∈ entries := by
    intro e he heq
    rcases List.mem_append.mp he with he | he
    · exact he
    · rw [List.mem_singleton.mp he] at heq
      exact absurd heq.symm hi
  rcases h with ⟨hnone, hstart⟩ | ⟨⟨e, he, heq, hkey⟩, hmax, hamount⟩
  · exact .inl ⟨fun e he heq => hnone e (hslot e he heq) heq, hstart⟩
  · refine .inr ⟨⟨e, List.mem_append_left _ he, heq, hkey⟩, ?_, ?_⟩
    · exact fun e' he' heq' => hmax e' (hslot e' he' heq') heq'
    · have hne : entry.1 ≠ s.stamp i := by
        intro hentry
        rw [← hkey] at hentry
        exact hi (heq.symm.trans (congrArg slot hentry.symm))
      rw [amount_append, amount_singleton, if_neg hne, add_zero]
      exact hamount

/-- Every slot holds the amounts of the greatest of its keys, if no key comes behind a greater one
of the same slot. -/
theorem holds_foldl (hstart : ∀ i, start.content i = 0)
    (hentries : entries.Pairwise fun e e' => slot e.1 = slot e'.1 → e.1 ≤ e'.1) (i : ι) :
    Holds slot start (entries.foldl (Slots.add slot) start) entries i := by
  induction entries using List.reverseRecOn generalizing i with
  | nil => exact .inl ⟨fun e he => absurd he List.not_mem_nil, rfl, rfl⟩
  | append_singleton entries entry ih =>
    obtain ⟨hbefore, -, hlast⟩ := List.pairwise_append.mp hentries
    rw [List.foldl_append, List.foldl_cons, List.foldl_nil]
    by_cases hi : i = slot entry.1
    · subst hi
      apply (ih hbefore _).add_self (hstart _)
      exact fun e he => hlast e he entry List.mem_cons_self
    · exact (ih hbefore i).add_of_ne hi

end Entries

end HashStorm.StampedSlots
