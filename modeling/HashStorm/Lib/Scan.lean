import Mathlib.Data.List.Basic

/-!
# Sequential scans of self-delimiting items

A scan repeatedly attempts to read one item at the current position of a file
and continues at the position the item ends at. It ends at the limit, at the
first position where nothing can be read, or with an exception. The lemmas
relate a scan to a path of successful attempts and bound the positions a scan
can visit, so that a format only has to describe one attempt.
-/

namespace HashStorm.Scan

variable {α : Type*}

/-- What one attempt at a position does. -/
inductive Attempt (α : Type*) where
  /-- An item was read; the next one starts at `next`. -/
  | item (value : α) (next : Nat)
  /-- Nothing can be read here. -/
  | stop
  /-- The attempt raises an exception. -/
  | throws
  deriving DecidableEq, Repr

/-- Why a scan ended. -/
inductive Ending where
  | limit
  | stop
  | throws
  deriving DecidableEq, Repr

/-- The items a scan produced, the position after the last of them, and its ending. -/
structure Outcome (α : Type*) where
  items : List α
  position : Nat
  ending : Ending
  deriving DecidableEq, Repr

/-- Put items that were read earlier in front of an outcome. -/
def Outcome.prepend (vs : List α) (o : Outcome α) : Outcome α :=
  { o with items := vs ++ o.items }

/-- Scan from `pos` while it is below `limit`, for at most `fuel` attempts. -/
def scan (attempt : Nat → Attempt α) (limit : Nat) : Nat → Nat → Outcome α
  | 0, pos => ⟨[], pos, .limit⟩
  | fuel + 1, pos =>
    if pos < limit then
      match attempt pos with
      | .item v next => (scan attempt limit fuel next).prepend [v]
      | .stop => ⟨[], pos, .stop⟩
      | .throws => ⟨[], pos, .throws⟩
    else ⟨[], pos, .limit⟩

/-- Every successful attempt moves forward. -/
def Advances (attempt : Nat → Attempt α) : Prop :=
  ∀ p v q, attempt p = .item v q → p < q

/-- Successful attempts that lead from one position to another. -/
def Path (attempt : Nat → Attempt α) : Nat → List α → Nat → Prop
  | p, [], q => p = q
  | p, v :: vs, q => ∃ next, attempt p = .item v next ∧ Path attempt next vs q

variable {attempt : Nat → Attempt α} {limit : Nat}

theorem Path.le (hadv : Advances attempt) {p q : Nat} {vs : List α}
    (h : Path attempt p vs q) : p + vs.length ≤ q := by
  induction vs generalizing p with
  | nil => simp only [Path] at h; simp [h]
  | cons v vs ih =>
    obtain ⟨next, hp, hrest⟩ := h
    have hlt := hadv p v next hp
    have hle := ih hrest
    simp only [List.length_cons]
    omega

/-- At or past the limit a scan reads nothing. -/
theorem scan_of_limit_le {fuel p : Nat} (h : limit ≤ p) :
    scan attempt limit fuel p = ⟨[], p, .limit⟩ := by
  cases fuel with
  | zero => rfl
  | succ fuel => simp [scan, Nat.not_lt.mpr h]

theorem scan_of_stop {fuel p : Nat} (hp : p < limit) (h : attempt p = .stop) :
    scan attempt limit (fuel + 1) p = ⟨[], p, .stop⟩ := by
  simp [scan, hp, h]

/-- A scan follows a path of successful attempts and goes on from its end. -/
theorem scan_path (hadv : Advances attempt) {fuel p q : Nat} {vs : List α}
    (h : Path attempt p vs q) (hq : q ≤ limit) :
    scan attempt limit (vs.length + fuel) p = (scan attempt limit fuel q).prepend vs := by
  induction vs generalizing p with
  | nil =>
    simp only [Path] at h
    subst h
    simp [Outcome.prepend]
  | cons v vs ih =>
    obtain ⟨next, hp, hrest⟩ := h
    have hlt := hadv p v next hp
    have hle := hrest.le hadv
    have hpl : p < limit := by omega
    rw [List.length_cons, Nat.add_right_comm, scan, if_pos hpl, hp]
    simp only
    rw [ih hrest]
    rfl

/-- Fuel beyond the distance to the limit changes nothing. -/
theorem scan_fuel (hadv : Advances attempt) {fuel p : Nat} (fuel' : Nat)
    (h : limit ≤ p + fuel) (h' : limit ≤ p + fuel') :
    scan attempt limit fuel p = scan attempt limit fuel' p := by
  induction fuel generalizing fuel' p with
  | zero => rw [scan_of_limit_le (by omega), scan_of_limit_le (by omega)]
  | succ fuel ih =>
    cases fuel' with
    | zero => rw [scan_of_limit_le (by omega), scan_of_limit_le (by omega)]
    | succ fuel' =>
      simp only [scan]
      split
      · split
        · rename_i v next hp
          have hlt := hadv p v next hp
          rw [ih fuel' (by omega) (by omega)]
        · rfl
        · rfl
      · rfl

/-- A scan that ends like this at `pos` had a reason to. -/
def Ending.Justified (attempt : Nat → Attempt α) (limit pos : Nat) : Ending → Prop
  | .limit => limit ≤ pos
  | .stop => pos < limit ∧ attempt pos = .stop
  | .throws => pos < limit ∧ attempt pos = .throws

/-- A scan follows successful attempts to the position where it ends. -/
theorem scan_spec (hadv : Advances attempt) {fuel p : Nat} (h : limit ≤ p + fuel) :
    Path attempt p (scan attempt limit fuel p).items (scan attempt limit fuel p).position ∧
      (scan attempt limit fuel p).ending.Justified attempt limit
        (scan attempt limit fuel p).position := by
  induction fuel generalizing p with
  | zero => exact ⟨rfl, by simpa [scan, Ending.Justified] using h⟩
  | succ fuel ih =>
    simp only [scan]
    split
    · rename_i hp
      split
      · rename_i v next hv
        have hlt := hadv p v next hv
        obtain ⟨hpath, hend⟩ := ih (p := next) (by omega)
        exact ⟨⟨next, hv, hpath⟩, hend⟩
      · rename_i hstop
        exact ⟨rfl, hp, hstop⟩
      · rename_i hthrows
        exact ⟨rfl, hp, hthrows⟩
    · rename_i hp
      exact ⟨rfl, Nat.not_lt.mp hp⟩

/-- The path and the reason determine a scan. -/
theorem scan_eq (hadv : Advances attempt) {fuel p q : Nat} {vs : List α} {ending : Ending}
    (h : Path attempt p vs q) (hq : q ≤ limit) (hfuel : limit ≤ p + fuel)
    (hend : ending.Justified attempt limit q) : scan attempt limit fuel p = ⟨vs, q, ending⟩ := by
  have hle := h.le hadv
  rw [scan_fuel hadv (vs.length + (fuel + 1)) hfuel (by omega), scan_path hadv h hq]
  cases ending with
  | limit => simp [scan_of_limit_le hend, Outcome.prepend]
  | stop =>
    obtain ⟨hlt, hstop⟩ := hend
    simp [scan, hlt, hstop, Outcome.prepend]
  | throws =>
    obtain ⟨hlt, hthrows⟩ := hend
    simp [scan, hlt, hthrows, Outcome.prepend]

/-- Every item of a scan was read by an attempt at or after its start. -/
theorem exists_attempt_of_mem_scan (hadv : Advances attempt) {fuel p : Nat} {v : α}
    (h : v ∈ (scan attempt limit fuel p).items) :
    ∃ q next, p ≤ q ∧ attempt q = .item v next := by
  induction fuel generalizing p with
  | zero => simp [scan] at h
  | succ fuel ih =>
    simp only [scan] at h
    split at h
    · split at h
      · rename_i w next hp
        simp only [Outcome.prepend, List.singleton_append, List.mem_cons] at h
        rcases h with rfl | h
        · exact ⟨p, next, Nat.le_refl p, hp⟩
        · obtain ⟨q, n, hq, hqn⟩ := ih h
          exact ⟨q, n, Nat.le_trans (Nat.le_of_lt (hadv p w next hp)) hq, hqn⟩
      · simp at h
      · simp at h
    · simp at h

/-- If the first attempt would jump to `next`, no item read strictly in between
is ever produced. -/
theorem not_mem_scan_of_skipped (hadv : Advances attempt) {fuel p : Nat} {v : α} (jump : Nat)
    (hfirst : ∀ w next, attempt p = .item w next → w ≠ v ∧ jump ≤ next)
    (hv : ∀ q next, attempt q = .item v next → q < jump) :
    v ∉ (scan attempt limit fuel p).items := by
  intro h
  cases fuel with
  | zero => simp [scan] at h
  | succ fuel =>
    simp only [scan] at h
    split at h
    · split at h
      · rename_i w next hp
        obtain ⟨hne, hjump⟩ := hfirst w next hp
        simp only [Outcome.prepend, List.singleton_append, List.mem_cons] at h
        rcases h with rfl | h
        · exact hne rfl
        · obtain ⟨q, n, hq, hqn⟩ := exists_attempt_of_mem_scan hadv h
          have := hv q n hqn
          omega
      · simp at h
      · simp at h
    · simp at h

end HashStorm.Scan
