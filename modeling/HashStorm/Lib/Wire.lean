import HashStorm.Lib.LittleEndian
import Mathlib.Data.List.Forall2

/-!
# Reading binary formats

A reader takes a value off the front of a byte string and leaves what follows. It
reads a value from its encoding if it does so whatever follows; such encodings can
be written one behind the other. Words are little-endian, and counts are compact
sizes, which are read only in their shortest form.
-/

namespace HashStorm.Wire

open LittleEndian

variable {α β : Type}

/-- Takes a value off the front of the bytes, or fails. -/
abbrev Reader (α : Type) := StateT (List UInt8) Option α

/-- The reader takes exactly these bytes for the value. -/
def Reads (read : Reader α) (bytes : List UInt8) (a : α) : Prop :=
  ∀ rest, read.run (bytes ++ rest) = some (a, rest)

theorem Reads.pure (a : α) : Reads (pure a) [] a := fun _ => rfl

/-- What is read one behind the other is written one behind the other. -/
theorem Reads.bind {read : Reader α} {next : α → Reader β} {bytes bytes' : List UInt8} {a : α}
    {b : β} (h : Reads read bytes a) (h' : Reads (next a) bytes' b) :
    Reads (read >>= next) (bytes ++ bytes') b := by
  intro rest
  rw [StateT.run_bind, List.append_assoc, h]
  exact h' rest

/-- What is read behind a value. -/
theorem Reads.run_bind {read : Reader α} {bytes : List UInt8} {a : α} (h : Reads read bytes a)
    (next : α → Reader β) (rest : List UInt8) :
    (read >>= next).run (bytes ++ rest) = (next a).run rest := by
  rw [StateT.run_bind, h]
  rfl

/-- Whatever the reader takes has a property. -/
def Yields (read : Reader α) (P : α → Prop) : Prop :=
  ∀ bytes a rest, read.run bytes = some (a, rest) → P a

theorem Yields.pure {P : α → Prop} {a : α} (h : P a) : Yields (pure a) P := by
  intro bytes b rest hrun
  rw [StateT.run_pure] at hrun
  obtain ⟨rfl, -⟩ := Prod.mk.inj (Option.some.inj hrun)
  exact h

theorem Yields.bind {read : Reader α} {next : α → Reader β} {P : α → Prop} {Q : β → Prop}
    (h : Yields read P) (h' : ∀ a, P a → Yields (next a) Q) : Yields (read >>= next) Q := by
  intro bytes b rest hrun
  rw [StateT.run_bind, Option.bind_eq_bind, Option.bind_eq_some_iff] at hrun
  obtain ⟨⟨a, behind⟩, hread, hnext⟩ := hrun
  exact h' a (h bytes a behind hread) behind b rest hnext

theorem yields_true (read : Reader α) : Yields read fun _ => True := fun _ _ _ _ => trivial

/-- A value that is returned after the last reader. -/
theorem Reads.map {read : Reader α} {f : α → β} {bytes : List UInt8} {a : α}
    (h : Reads read bytes a) : Reads (f <$> read) bytes (f a) := by
  intro rest
  rw [StateT.run_map, h]
  rfl

/-- All bytes are taken. -/
theorem Reads.run {read : Reader α} {bytes : List UInt8} {a : α} (h : Reads read bytes a) :
    read.run bytes = some (a, []) := by
  have hrun := h []
  rwa [List.append_nil] at hrun

/-- A number of bytes. -/
def take (n : Nat) : Reader (List UInt8) := fun bytes =>
  if n ≤ bytes.length then some (bytes.take n, bytes.drop n) else none

theorem yields_take (n : Nat) : Yields (take n) fun bytes => bytes.length = n := by
  intro bytes taken rest hrun
  simp only [take, StateT.run] at hrun
  split at hrun
  · rename_i hle
    obtain ⟨rfl, -⟩ := Prod.mk.inj (Option.some.inj hrun)
    exact List.length_take_of_le hle
  · cases hrun

theorem reads_take (bytes : List UInt8) : Reads (take bytes.length) bytes bytes := by
  intro rest
  simp [take, StateT.run]

/-- A little-endian word. -/
def word (width : Nat) : Reader Nat := ofLE <$> take width

/-- A number that does not fit is cut. -/
theorem reads_word_mod (width n : Nat) :
    Reads (word width) (leBytes width n) (n % 256 ^ width) := by
  have htake := reads_take (leBytes width n)
  rw [length_leBytes] at htake
  have hread : Reads (word width) (leBytes width n) (ofLE (leBytes width n)) := htake.map
  rwa [ofLE_leBytes_mod] at hread

theorem reads_word {width n : Nat} (h : n < 256 ^ width) :
    Reads (word width) (leBytes width n) n := by
  have hread := reads_word_mod width n
  rwa [Nat.mod_eq_of_lt h] at hread

/-- Some values one behind the other. -/
def counted (read : Reader α) : Nat → Reader (List α)
  | 0 => pure []
  | n + 1 => do
    let a ← read
    let as ← counted read n
    return a :: as

/-- Values are read from byte strings one behind the other. -/
theorem reads_flatten {read : Reader α} {chunks : List (List UInt8)} {as : List α}
    (h : List.Forall₂ (Reads read) chunks as) :
    Reads (counted read as.length) chunks.flatten as := by
  induction h with
  | nil => exact Reads.pure []
  | @cons chunk a chunks as ha _ ih =>
    rw [List.flatten_cons, List.length_cons]
    exact ha.bind (Reads.map (f := (a :: ·)) ih)

/-- Values are read from what each of them stands for. -/
theorem reads_counted_map {γ : Type} {read : Reader α} {encode : γ → List UInt8} {value : γ → α}
    {cs : List γ} (h : ∀ c ∈ cs, Reads read (encode c) (value c)) :
    Reads (counted read cs.length) (cs.flatMap encode) (cs.map value) := by
  have hchunks : List.Forall₂ (Reads read) (cs.map encode) (cs.map value) := by
    rw [List.forall₂_map_left_iff, List.forall₂_map_right_iff, List.forall₂_same]
    exact h
  have hread := reads_flatten hchunks
  rwa [List.length_map, ← List.flatMap_def] at hread

theorem reads_counted {read : Reader α} {encode : α → List UInt8} {as : List α}
    (h : ∀ a ∈ as, Reads read (encode a) a) :
    Reads (counted read as.length) (as.flatMap encode) as := by
  have hread : Reads (counted read as.length) (as.flatMap encode) (as.map fun a => a) :=
    reads_counted_map h
  rwa [List.map_id'] at hread

theorem yields_counted {read : Reader α} {P : α → Prop} (h : Yields read P) (n : Nat) :
    Yields (counted read n) fun as => as.length = n ∧ ∀ a ∈ as, P a := by
  induction n with
  | zero => exact Yields.pure ⟨rfl, List.forall_mem_nil _⟩
  | succ n ih =>
    refine h.bind fun a ha => ih.bind fun as has => Yields.pure ?_
    exact ⟨by rw [List.length_cons, has.1], List.forall_mem_cons.mpr ⟨ha, has.2⟩⟩

/-- A number in the shortest of its forms. -/
def compactSize (n : Nat) : List UInt8 :=
  if n < 0xfd then leBytes 1 n
  else if n < 2 ^ 16 then leBytes 1 0xfd ++ leBytes 2 n
  else if n < 2 ^ 32 then leBytes 1 0xfe ++ leBytes 4 n
  else leBytes 1 0xff ++ leBytes 8 n

/-- A word that a shorter form could not hold. -/
def wordFrom (least width : Nat) : Reader Nat := do
  let n ← word width
  if least ≤ n then return n else failure

/-- A number in its shortest form. -/
def readCompactSize : Reader Nat := do
  let first ← word 1
  if first < 0xfd then return first
  else if first = 0xfd then wordFrom 0xfd 2
  else if first = 0xfe then wordFrom (2 ^ 16) 4
  else wordFrom (2 ^ 32) 8

theorem reads_wordFrom {least width n : Nat} (h : n < 256 ^ width) (hleast : least ≤ n) :
    Reads (wordFrom least width) (leBytes width n) n := by
  rw [← List.append_nil (leBytes width n)]
  refine (reads_word h).bind ?_
  rw [if_pos hleast]
  exact Reads.pure n

theorem reads_compactSize {n : Nat} (h : n < 2 ^ 64) : Reads readCompactSize (compactSize n) n := by
  unfold compactSize
  split
  · rename_i hone
    rw [← List.append_nil (leBytes 1 n)]
    refine (reads_word (by omega)).bind ?_
    rw [if_pos hone]
    exact Reads.pure n
  · split
    · exact (reads_word (by decide)).bind (reads_wordFrom (by omega) (by omega))
    · split
      · exact (reads_word (by decide)).bind (reads_wordFrom (by omega) (by omega))
      · exact (reads_word (by decide)).bind (reads_wordFrom (by omega) (by omega))

/-- Bytes behind their number. -/
def varBytes : Reader (List UInt8) := do
  let n ← readCompactSize
  take n

/-- Bytes with their number in front of them. -/
def writeVarBytes (bytes : List UInt8) : List UInt8 := compactSize bytes.length ++ bytes

theorem reads_varBytes {bytes : List UInt8} (h : bytes.length < 2 ^ 64) :
    Reads varBytes (writeVarBytes bytes) bytes :=
  (reads_compactSize h).bind (reads_take bytes)

/-- Values behind their number. -/
def varList (read : Reader α) : Reader (List α) := do
  let n ← readCompactSize
  counted read n

/-- Values with their number in front of them. -/
def writeVarList (encode : α → List UInt8) (as : List α) : List UInt8 :=
  compactSize as.length ++ as.flatMap encode

theorem reads_varList {read : Reader α} {encode : α → List UInt8} {as : List α}
    (hlength : as.length < 2 ^ 64) (h : ∀ a ∈ as, Reads read (encode a) a) :
    Reads (varList read) (writeVarList encode as) as :=
  (reads_compactSize hlength).bind (reads_counted h)

end HashStorm.Wire
