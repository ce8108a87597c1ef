import Mathlib.Data.Nat.Digits.Lemmas
import Mathlib.Tactic.Ring

/-!
# Regrouping digits

Numbers are written with a fixed number of digits, the most significant first. Symbols
of one width, spread into their digits, are regrouped into symbols of another width;
the last group is filled up with zeros. Regrouping is undone by spreading the groups
again, up to the zeros.
-/

namespace HashStorm.Regroup

variable {b w : Nat}

/-- The number that digits denote, the most significant first. -/
def value (b : Nat) (ds : List Nat) : Nat := Nat.ofDigits b ds.reverse

/-- The `w` low digits of a number, the most significant first. -/
def digits (b : Nat) : Nat → Nat → List Nat
  | 0, _ => []
  | w + 1, n => n / b ^ w % b :: digits b w n

section Digits

variable {ds es : List Nat} {n : Nat}

@[simp] theorem length_digits (b w n : Nat) : (digits b w n).length = w := by
  induction w with
  | zero => rfl
  | succ w ih => rw [digits, List.length_cons, ih]

theorem digits_eq_map_range (b w n : Nat) :
    digits b w n = (List.range w).map fun i => n / b ^ (w - 1 - i) % b := by
  induction w with
  | zero => rfl
  | succ w ih =>
    rw [digits, ih, List.range_succ_eq_map, List.map_cons, List.map_map]
    refine congrArg (List.cons _) (List.map_congr_left fun i _ => ?_)
    rw [Function.comp_apply, show w + 1 - 1 - i.succ = w - 1 - i by omega]

theorem lt_of_mem_digits (hb : 1 < b) : ∀ d ∈ digits b w n, d < b := by
  induction w with
  | zero => simp [digits]
  | succ w ih =>
    simp only [digits, List.forall_mem_cons]
    exact ⟨Nat.mod_lt _ (by omega), ih⟩

@[simp] theorem value_nil (b : Nat) : value b [] = 0 := rfl

theorem value_append (b : Nat) (ds es : List Nat) :
    value b (ds ++ es) = value b ds * b ^ es.length + value b es := by
  rw [value, List.reverse_append, Nat.ofDigits_append, List.length_reverse, value, value]
  ring

theorem value_cons (b d : Nat) (ds : List Nat) :
    value b (d :: ds) = d * b ^ ds.length + value b ds := by
  rw [← List.singleton_append, value_append]
  simp [value]

theorem value_concat (b : Nat) (ds : List Nat) (d : Nat) :
    value b (ds ++ [d]) = value b ds * b + d := by
  rw [value_append]
  simp [value]

@[simp] theorem value_replicate_zero (b n : Nat) : value b (List.replicate n 0) = 0 := by
  rw [value, List.reverse_replicate, Nat.ofDigits_replicate_zero]

theorem value_lt (hb : 1 < b) (h : ∀ d ∈ ds, d < b) : value b ds < b ^ ds.length := by
  have hlt := Nat.ofDigits_lt_base_pow_length hb (l := ds.reverse) (by simpa using h)
  rwa [List.length_reverse] at hlt

/-- The digits denote the number modulo what they can write. -/
theorem value_digits (b w n : Nat) : value b (digits b w n) = n % b ^ w := by
  induction w with
  | zero => simp [digits, Nat.mod_one]
  | succ w ih =>
    rw [digits, value_cons, ih, length_digits, Nat.mod_pow_succ]
    ring

theorem value_inj (hb : 1 < b) (hds : ∀ d ∈ ds, d < b) (hes : ∀ d ∈ es, d < b)
    (hlen : ds.length = es.length) (h : value b ds = value b es) : ds = es := by
  apply List.reverse_inj.mp
  exact Nat.ofDigits_inj_of_len_eq hb (by simpa using hlen) (by simpa using hds)
    (by simpa using hes) h

/-- Digits are those of the number they denote. -/
theorem digits_value (hb : 1 < b) (h : ∀ d ∈ ds, d < b) :
    digits b ds.length (value b ds) = ds := by
  apply value_inj hb (lt_of_mem_digits hb) h (length_digits _ _ _)
  rw [value_digits, Nat.mod_eq_of_lt (value_lt hb h)]

/-- Digits are those of a number that fits as soon as they denote it. -/
theorem eq_digits_iff (hb : 1 < b) (h : ∀ d ∈ ds, d < b) (hlen : ds.length = w)
    (hn : n < b ^ w) : ds = digits b w n ↔ value b ds = n := by
  subst hlen
  constructor
  · intro heq
    rw [heq, value_digits, Nat.mod_eq_of_lt hn]
  · intro heq
    rw [← heq, digits_value hb h]

theorem digits_inj {m : Nat} (hm : m < b ^ w) (hn : n < b ^ w)
    (h : digits b w m = digits b w n) : m = n := by
  rw [← Nat.mod_eq_of_lt hm, ← value_digits, h, value_digits, Nat.mod_eq_of_lt hn]

theorem value_eq_zero_iff (hb : 1 < b) (h : ∀ d ∈ ds, d < b) :
    value b ds = 0 ↔ ∀ d ∈ ds, d = 0 := by
  constructor
  · intro hzero d hd
    have hds : ds = List.replicate ds.length 0 := by
      apply value_inj hb h
      · intro e he
        rw [List.eq_of_mem_replicate he]
        omega
      · rw [List.length_replicate]
      · rw [hzero, value_replicate_zero]
    rw [hds] at hd
    exact List.eq_of_mem_replicate hd
  · intro hzero
    rw [List.eq_replicate_of_mem hzero, value_replicate_zero]

/-- The leading digits of the number that all of them denote. -/
theorem value_append_div (hb : 1 < b) (hes : ∀ d ∈ es, d < b) :
    value b (ds ++ es) / b ^ es.length = value b ds := by
  have hpos : 0 < b ^ es.length := Nat.pow_pos (by omega)
  rw [value_append, Nat.mul_comm, Nat.mul_add_div hpos, Nat.div_eq_of_lt (value_lt hb hes),
    Nat.add_zero]

/-- The trailing digits of the number that all of them denote. -/
theorem value_append_mod (hb : 1 < b) (hes : ∀ d ∈ es, d < b) :
    value b (ds ++ es) % b ^ es.length = value b es := by
  rw [value_append, Nat.mul_add_mod_self_right, Nat.mod_eq_of_lt (value_lt hb hes)]

end Digits

/-- The digits of the symbols, one symbol behind the other. -/
def spread (b w : Nat) (xs : List Nat) : List Nat := xs.flatMap (digits b w)

section Spread

variable {xs ys rest rest' : List Nat}

@[simp] theorem spread_nil (b w : Nat) : spread b w [] = [] := rfl

@[simp] theorem spread_cons (b w x : Nat) (xs : List Nat) :
    spread b w (x :: xs) = digits b w x ++ spread b w xs := rfl

@[simp] theorem spread_append (b w : Nat) (xs ys : List Nat) :
    spread b w (xs ++ ys) = spread b w xs ++ spread b w ys := List.flatMap_append

@[simp] theorem length_spread (b w : Nat) (xs : List Nat) :
    (spread b w xs).length = xs.length * w := by
  induction xs with
  | nil => simp
  | cons x xs ih =>
    rw [spread_cons, List.length_append, length_digits, ih, List.length_cons]
    ring

theorem lt_of_mem_spread (hb : 1 < b) : ∀ d ∈ spread b w xs, d < b := by
  intro d hd
  obtain ⟨x, -, hx⟩ := List.mem_flatMap.mp hd
  exact lt_of_mem_digits hb d hx

/-- The symbols are told from their digits, and from what is left behind them. -/
theorem spread_append_inj (hxs : ∀ x ∈ xs, x < b ^ w) (hys : ∀ y ∈ ys, y < b ^ w)
    (hrest : rest.length < w) (hrest' : rest'.length < w)
    (h : spread b w xs ++ rest = spread b w ys ++ rest') : xs = ys ∧ rest = rest' := by
  induction xs generalizing ys with
  | nil =>
    cases ys with
    | nil => exact ⟨rfl, h⟩
    | cons y ys =>
      have hlen := congrArg List.length h
      simp only [spread_nil, spread_cons, List.length_append, length_digits, List.length_nil]
        at hlen
      omega
  | cons x xs ih =>
    cases ys with
    | nil =>
      have hlen := congrArg List.length h
      simp only [spread_nil, spread_cons, List.length_append, length_digits, List.length_nil]
        at hlen
      omega
    | cons y ys =>
      simp only [spread_cons, List.append_assoc] at h
      simp only [List.forall_mem_cons] at hxs hys
      obtain ⟨hhead, htail⟩ := List.append_inj h (by simp)
      obtain ⟨rfl, rfl⟩ := ih hxs.2 hys.2 htail
      exact ⟨by rw [digits_inj hxs.1 hys.1 hhead], rfl⟩

theorem spread_inj (hw : 0 < w) (hxs : ∀ x ∈ xs, x < b ^ w) (hys : ∀ y ∈ ys, y < b ^ w)
    (h : spread b w xs = spread b w ys) : xs = ys := by
  have happend : spread b w xs ++ [] = spread b w ys ++ [] := congrArg (· ++ []) h
  have hnil : ([] : List Nat).length < w := hw
  exact (spread_append_inj hxs hys hnil hnil happend).1

end Spread

/-- A number of groups, each the number that its `w` digits denote. -/
def groups (b w : Nat) : Nat → List Nat → List Nat
  | 0, _ => []
  | n + 1, ds => value b (ds.take w) :: groups b w n (ds.drop w)

/-- As many groups as the digits need. -/
def groupCount (w : Nat) (ds : List Nat) : Nat := (ds.length + (w - 1)) / w

/-- The zeros that fill up the last group. -/
def filling (w : Nat) (ds : List Nat) : List Nat :=
  List.replicate (groupCount w ds * w - ds.length) 0

/-- The symbols of width `w`, regrouped from symbols of another width. -/
def regroup (b v w : Nat) (xs : List Nat) : List Nat :=
  groups b w (groupCount w (spread b v xs)) (spread b v xs ++ filling w (spread b v xs))

section Groups

variable {v n : Nat} {ds xs ys rest : List Nat}

@[simp] theorem length_groups (b w n : Nat) (ds : List Nat) : (groups b w n ds).length = n := by
  induction n generalizing ds with
  | zero => rfl
  | succ n ih => rw [groups, List.length_cons, ih]

theorem lt_of_mem_groups (hb : 1 < b) (h : ∀ d ∈ ds, d < b) (hlen : ds.length = n * w) :
    ∀ x ∈ groups b w n ds, x < b ^ w := by
  induction n generalizing ds with
  | zero => simp [groups]
  | succ n ih =>
    rw [Nat.add_mul, Nat.one_mul] at hlen
    have htake : (ds.take w).length = w := by simp; omega
    simp only [groups, List.forall_mem_cons]
    constructor
    · have hlt := value_lt hb fun d hd => h d (List.mem_of_mem_take (i := w) hd)
      rwa [htake] at hlt
    · exact ih (fun d hd => h d (List.mem_of_mem_drop hd)) (by simp; omega)

/-- The groups spread again. -/
theorem spread_groups (hb : 1 < b) (h : ∀ d ∈ ds, d < b) (hlen : ds.length = n * w) :
    spread b w (groups b w n ds) = ds := by
  induction n generalizing ds with
  | zero =>
    rw [Nat.zero_mul, List.length_eq_zero_iff] at hlen
    rw [hlen]
    rfl
  | succ n ih =>
    rw [Nat.add_mul, Nat.one_mul] at hlen
    have htake : (ds.take w).length = w := by simp; omega
    have hhead := digits_value hb fun d hd => h d (List.mem_of_mem_take (i := w) hd)
    rw [htake] at hhead
    rw [groups, spread_cons, hhead,
      ih (fun d hd => h d (List.mem_of_mem_drop hd)) (by simp; omega), List.take_append_drop]

theorem groupCount_bounds (hw : 0 < w) (ds : List Nat) :
    ds.length ≤ groupCount w ds * w ∧ groupCount w ds * w < ds.length + w := by
  have hdiv := Nat.div_add_mod (ds.length + (w - 1)) w
  have hmod := Nat.mod_lt (ds.length + (w - 1)) hw
  rw [Nat.mul_comm] at hdiv
  rw [groupCount]
  omega

theorem length_filling_lt (hw : 0 < w) (ds : List Nat) : (filling w ds).length < w := by
  have := groupCount_bounds hw ds
  rw [filling, List.length_replicate]
  omega

theorem length_append_filling (hw : 0 < w) (ds : List Nat) :
    (ds ++ filling w ds).length = groupCount w ds * w := by
  have := groupCount_bounds hw ds
  rw [filling, List.length_append, List.length_replicate]
  omega

private theorem lt_of_mem_filled (hb : 1 < b) :
    ∀ d ∈ spread b v xs ++ filling w (spread b v xs), d < b := by
  simp only [List.forall_mem_append]
  refine ⟨lt_of_mem_spread hb, fun d hd => ?_⟩
  rw [List.eq_of_mem_replicate hd]
  omega

theorem lt_of_mem_regroup (hb : 1 < b) (hw : 0 < w) : ∀ x ∈ regroup b v w xs, x < b ^ w :=
  lt_of_mem_groups hb (lt_of_mem_filled hb) (length_append_filling hw _)

/-- Regrouped symbols spread into the same digits, up to less than a group of zeros. -/
theorem spread_regroup (hb : 1 < b) (hw : 0 < w) (v : Nat) (xs : List Nat) :
    spread b w (regroup b v w xs) = spread b v xs ++ filling w (spread b v xs) :=
  spread_groups hb (lt_of_mem_filled hb) (length_append_filling hw _)

theorem length_regroup (b v w : Nat) (xs : List Nat) :
    (regroup b v w xs).length = (xs.length * v + (w - 1)) / w := by
  rw [regroup, length_groups, groupCount, length_spread]

/-- Symbols whose digits are those of other symbols, and then some, are the others regrouped
if and only if the rest is less than a group of zeros. -/
theorem eq_regroup_iff (hb : 1 < b) (hw : 0 < w) (hys : ∀ y ∈ ys, y < b ^ w)
    (h : spread b w ys = spread b v xs ++ rest) :
    ys = regroup b v w xs ↔ rest.length < w ∧ ∀ d ∈ rest, d = 0 := by
  have hspread := spread_regroup hb hw v xs
  constructor
  · intro heq
    rw [heq, hspread] at h
    rw [← List.append_cancel_left h]
    exact ⟨length_filling_lt hw _, fun d hd => List.eq_of_mem_replicate hd⟩
  · rintro ⟨hlen, hzero⟩
    have hfill := length_filling_lt hw (spread b v xs)
    -- both rests fill the same digits up to whole groups, so they are of one length
    have hcount := congrArg List.length h
    have hcount' := congrArg List.length hspread
    simp only [length_spread, List.length_append] at hcount hcount'
    have hmod : rest.length % w = (filling w (spread b v xs)).length % w := by
      have hadd : xs.length * v + rest.length ≡
          xs.length * v + (filling w (spread b v xs)).length [MOD w] := by
        rw [← hcount, ← hcount', Nat.ModEq, Nat.mul_mod_left, Nat.mul_mod_left]
      exact Nat.ModEq.add_left_cancel' _ hadd
    rw [Nat.mod_eq_of_lt hlen, Nat.mod_eq_of_lt hfill] at hmod
    have hrest : rest = filling w (spread b v xs) := by
      rw [List.eq_replicate_of_mem hzero, hmod, filling, List.length_replicate]
    apply spread_inj hw hys (lt_of_mem_regroup hb hw)
    rw [h, hspread, hrest]

end Groups

end HashStorm.Regroup
