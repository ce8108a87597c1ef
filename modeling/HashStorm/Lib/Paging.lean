import Mathlib.Data.List.Sort
import Mathlib.Order.Basic

/-!
# Keyset pagination

A consumer visits the rows of a query in descending key order, one page at a
time. The next page starts strictly below the key of the last row of a full
page, so rows that share this key with it are never read. The visit may halt on
its own, and a stop signal is observed before every page and while it is read.

`items` are the rows the pages contain. The loop visits a prefix of them, and
the pages are transparent exactly when no boundary that the visit passes lies
between two rows of equal key.
-/

namespace HashStorm.Paging

section Visit

variable {σ α : Type*} (visit : σ → α → σ) (halted : σ → Bool)

/-- Visit rows until the state halts. -/
def visitAll : σ → List α → σ
  | s, [] => s
  | s, a :: as => if halted s then s else visitAll (visit s a) as

/-- The rows such a visit reaches. -/
def visited : σ → List α → List α
  | _, [] => []
  | s, a :: as => if halted s then [] else a :: visited (visit s a) as

variable {visit halted} {s : σ}

theorem visitAll_of_halted (h : halted s = true) (as : List α) :
    visitAll visit halted s as = s := by
  cases as <;> simp [visitAll, h]

theorem visited_of_halted (h : halted s = true) (as : List α) :
    visited visit halted s as = [] := by
  cases as <;> simp [visited, h]

theorem visitAll_append (as bs : List α) :
    visitAll visit halted s (as ++ bs) =
      visitAll visit halted (visitAll visit halted s as) bs := by
  induction as generalizing s with
  | nil => rfl
  | cons a as ih =>
    simp only [List.cons_append, visitAll]
    split
    · rw [visitAll_of_halted ‹_›]
    · exact ih

theorem visited_append (as bs : List α) :
    visited visit halted s (as ++ bs) =
      visited visit halted s as ++ visited visit halted (visitAll visit halted s as) bs := by
  induction as generalizing s with
  | nil => rfl
  | cons a as ih =>
    simp only [List.cons_append, visited, visitAll]
    split
    · rw [visited_of_halted ‹_›]
      rfl
    · rw [ih]
      rfl

theorem visited_isPrefix (visit : σ → α → σ) (halted : σ → Bool) (s : σ) (as : List α) :
    visited visit halted s as <+: as := by
  induction as generalizing s with
  | nil => exact List.prefix_refl []
  | cons a as ih =>
    simp only [visited]
    split
    · exact List.nil_prefix
    · exact (List.prefix_cons_inj a).mpr (ih _)

theorem mem_of_mem_visited {as : List α} {a : α} (h : a ∈ visited visit halted s as) :
    a ∈ as := by
  induction as generalizing s with
  | nil => exact h
  | cons b as ih =>
    simp only [visited] at h
    split at h
    · cases h
    · rcases List.mem_cons.mp h with rfl | h
      · exact List.mem_cons_self
      · exact List.mem_cons_of_mem _ (ih h)

/-- A row is reached if the visit has not halted in front of it. -/
theorem mem_visited_iff {as : List α} {a : α} :
    a ∈ visited visit halted s as ↔ ∃ before rest, as = before ++ a :: rest ∧
      halted (visitAll visit halted s before) = false := by
  induction as generalizing s with
  | nil => simp [visited]
  | cons b as ih =>
    simp only [visited]
    by_cases hs : halted s = true
    · rw [if_pos hs]
      refine ⟨nofun, ?_⟩
      rintro ⟨before, rest, -, hopen⟩
      rw [visitAll_of_halted hs, hs] at hopen
      cases hopen
    · rw [if_neg hs, List.mem_cons, ih]
      constructor
      · rintro (rfl | ⟨before, rest, rfl, hopen⟩)
        · exact ⟨[], as, rfl, by simpa [visitAll] using hs⟩
        · exact ⟨b :: before, rest, rfl, by rwa [visitAll, if_neg hs]⟩
      · rintro ⟨before, rest, heq, hopen⟩
        cases before with
        | nil =>
          cases heq
          exact .inl rfl
        | cons c before =>
          cases heq
          rw [visitAll, if_neg hs] at hopen
          exact .inr ⟨before, rest, rfl, hopen⟩

/-- The rows that are reached determine the result. -/
theorem visitAll_visited (as : List α) :
    visitAll visit halted s (visited visit halted s as) = visitAll visit halted s as := by
  induction as generalizing s with
  | nil => rfl
  | cons a as ih =>
    simp only [visited, visitAll]
    split
    · simp [visitAll]
    · simp only [visitAll, if_neg ‹¬halted s = true›]
      exact ih

/-- A visit that has not halted has reached every row. -/
theorem visited_of_not_halted {as : List α}
    (h : halted (visitAll visit halted s as) = false) : visited visit halted s as = as := by
  induction as generalizing s with
  | nil => rfl
  | cons a as ih =>
    simp only [visitAll] at h
    simp only [visited]
    split
    · simp_all
    · rw [if_neg ‹_›] at h
      rw [ih h]

end Visit

section Stable

variable {α : Type*} {r : α → α → Prop} [DecidableRel r] {p : α → Bool} {a : α}

theorem filter_orderedInsert_of_pos [IsTrans α r] {l : List α} (h : l.Pairwise r)
    (ha : p a = true) :
    (l.orderedInsert r a).filter p = (l.filter p).orderedInsert r a := by
  induction l with
  | nil => simp [ha]
  | cons b l ih =>
    obtain ⟨hb, hl⟩ := List.pairwise_cons.mp h
    by_cases hab : r a b
    · have hall : ∀ c ∈ (b :: l).filter p, r a c := by
        intro c hc
        rcases List.mem_cons.mp (List.mem_of_mem_filter hc) with rfl | hc
        · exact hab
        · exact IsTrans.trans _ _ _ hab (hb c hc)
      rw [List.orderedInsert_cons_of_le r l hab, List.filter_cons_of_pos ha]
      cases hf : (b :: l).filter p with
      | nil => rfl
      | cons c cs =>
        rw [List.orderedInsert_cons_of_le r cs (hall c (by rw [hf]; exact List.mem_cons_self))]
    · rw [List.orderedInsert_of_not_le r l hab]
      by_cases hpb : p b = true
      · rw [List.filter_cons_of_pos hpb, List.filter_cons_of_pos hpb, ih hl,
          List.orderedInsert_of_not_le r _ hab]
      · rw [List.filter_cons_of_neg hpb, List.filter_cons_of_neg hpb, ih hl]

theorem filter_orderedInsert_of_neg (l : List α) (ha : ¬p a = true) :
    (l.orderedInsert r a).filter p = l.filter p := by
  rw [List.orderedInsert_eq_take_drop, List.filter_append, List.filter_cons_of_neg ha,
    ← List.filter_append, List.takeWhile_append_dropWhile]

/-- Sorting is stable: it commutes with every selection of rows. -/
theorem filter_insertionSort [IsTrans α r] [Std.Total r] (l : List α) :
    (l.insertionSort r).filter p = (l.filter p).insertionSort r := by
  induction l with
  | nil => rfl
  | cons a l ih =>
    rw [List.insertionSort_cons]
    by_cases ha : p a = true
    · rw [List.filter_cons_of_pos ha, List.insertionSort_cons, ← ih,
        filter_orderedInsert_of_pos (List.pairwise_insertionSort r l) ha]
    · rw [List.filter_cons_of_neg ha, ← ih, filter_orderedInsert_of_neg _ ha]

end Stable

section Pages

/-- Where the next page starts. -/
structure Cursor (κ : Type*) where
  before : κ
  inclusive : Bool

/-- Why the loop ended. -/
inductive Exit where
  | halted
  | cancelled
  | lastPage
  | failed
  | exhausted
  deriving DecidableEq, Repr

/-- The state at the end of the loop, the rows it visited, why it ended, and how
often the stop signal was observed. -/
structure Outcome (σ α : Type*) where
  state : σ
  trace : List α
  exit : Exit
  time : Nat

variable {σ α κ : Type*} [LinearOrder κ]

/-- The row lies in the range the cursor opens. -/
def Cursor.admits (key : α → κ) (c : Cursor κ) (a : α) : Bool :=
  if c.inclusive then key a ≤ c.before else key a < c.before

section Loop

variable (visit : σ → α → σ) (halted : σ → Bool) (key : α → κ) (pageSize : Nat)
  (fetch : Cursor κ → List α) (cancelled : Nat → Bool)

/-- Fetch and visit page after page. The signal is observed in front of a page,
where it ends the loop, and by the fetch, which then raises an exception; so does
the last row of an empty full page. -/
def pageLoop : Nat → Nat → Cursor κ → σ → List α → Outcome σ α
  | 0, t, _, s, trace => ⟨s, trace, .exhausted, t⟩
  | fuel + 1, t, c, s, trace =>
    if halted s then ⟨s, trace, .halted, t⟩
    else if cancelled t then ⟨s, trace, .cancelled, t + 1⟩
    else if cancelled (t + 1) then ⟨s, trace, .failed, t + 2⟩
    else
      let page := fetch c
      let s' := visitAll visit halted s page
      let trace' := trace ++ visited visit halted s page
      if page.length < pageSize then ⟨s', trace', .lastPage, t + 2⟩
      else
        match page.getLast? with
        | none => ⟨s', trace', .failed, t + 2⟩
        | some a => pageLoop fuel (t + 2) ⟨key a, false⟩ s' trace'

end Loop

/-- The rows that the pages of a query contain, read with at most `fuel` pages. -/
def itemsWithin (key : α → κ) (pageSize : Nat) : Nat → List α → List α
  | 0, _ => []
  | fuel + 1, rows =>
    if rows.length < pageSize then rows
    else
      match (rows.take pageSize).getLast? with
      | none => []
      | some a =>
        rows.take pageSize ++ itemsWithin key pageSize fuel (rows.filter fun b => key b < key a)

/-- The rows that the pages of a query contain. -/
def items (key : α → κ) (pageSize : Nat) (rows : List α) : List α :=
  itemsWithin key pageSize (rows.length + 1) rows

variable {key : α → κ} {pageSize : Nat} {rows : List α}

/-- A full page of positive size has a last row, and fewer rows lie below it. -/
theorem exists_last (key : α → κ) (hp : 0 < pageSize) (h : ¬rows.length < pageSize) :
    ∃ a, (rows.take pageSize).getLast? = some a ∧ rows[pageSize - 1]? = some a ∧ a ∈ rows ∧
      (rows.filter fun b => key b < key a).length < rows.length := by
  have hlt : pageSize - 1 < rows.length := by omega
  refine ⟨rows[pageSize - 1], ?_, by simp [hlt], List.getElem_mem hlt, ?_⟩
  · rw [List.getLast?_eq_getElem?, List.length_take, Nat.min_eq_left (by omega),
      List.getElem?_take_of_lt (by omega), List.getElem?_eq_getElem hlt]
  · refine List.length_filter_lt_length_iff_exists.mpr ⟨_, List.getElem_mem hlt, ?_⟩
    simp

theorem itemsWithin_fuel (hp : 0 < pageSize) {fuel : Nat} (fuel' : Nat)
    (h : rows.length < fuel) (h' : rows.length < fuel') :
    itemsWithin key pageSize fuel rows = itemsWithin key pageSize fuel' rows := by
  induction fuel generalizing fuel' rows with
  | zero => omega
  | succ fuel ih =>
    cases fuel' with
    | zero => omega
    | succ fuel' =>
      simp only [itemsWithin]
      split
      · rfl
      · rename_i hfull
        obtain ⟨a, ha, _, _, hlt⟩ := exists_last key hp hfull
        simp only [ha]
        rw [ih fuel' (by omega) (by omega)]

theorem items_of_short (h : rows.length < pageSize) : items key pageSize rows = rows := by
  simp [items, itemsWithin, h]

theorem items_of_full (hp : 0 < pageSize) (h : ¬rows.length < pageSize) {a : α}
    (ha : (rows.take pageSize).getLast? = some a) :
    items key pageSize rows =
      rows.take pageSize ++ items key pageSize (rows.filter fun b => key b < key a) := by
  obtain ⟨a', ha', _, _, hlt⟩ := exists_last key hp h
  obtain rfl : a' = a := Option.some.inj (ha'.symm.trans ha)
  rw [items, itemsWithin, if_neg h, ha]
  simp only
  rw [itemsWithin_fuel hp _ hlt (Nat.lt_succ_self _)]
  rfl

/-- The first row is the first item. -/
theorem exists_items_cons (key : α → κ) (hp : 0 < pageSize) (a : α) (rows : List α) :
    ∃ rest, items key pageSize (a :: rows) = a :: rest := by
  by_cases hshort : (a :: rows).length < pageSize
  · exact ⟨rows, items_of_short hshort⟩
  · obtain ⟨b, hb, _⟩ := exists_last key hp hshort
    obtain ⟨n, rfl⟩ : ∃ n, pageSize = n + 1 := ⟨pageSize - 1, by omega⟩
    exact ⟨_, items_of_full hp hshort hb⟩

/-- Behind an admitted row the cursor does not matter any more. -/
theorem filter_below {c : Cursor κ} {a : α} (ha : a ∈ rows.filter (c.admits key)) :
    (rows.filter (c.admits key)).filter (fun b => key b < key a) =
      rows.filter (Cursor.admits key ⟨key a, false⟩) := by
  rw [List.filter_filter]
  apply List.filter_congr
  intro b _
  have hca := (List.mem_filter.mp ha).2
  by_cases hb : key b < key a
  · have hcb : c.admits key b = true := by
      cases hi : c.inclusive with
      | true =>
        simp only [Cursor.admits, hi, if_true, decide_eq_true_eq] at hca ⊢
        exact le_of_lt (lt_of_lt_of_le hb hca)
      | false =>
        simp only [Cursor.admits, hi, Bool.false_eq_true, if_false, decide_eq_true_eq] at hca ⊢
        exact lt_trans hb hca
    rw [hcb]
    simp [Cursor.admits, hb]
  · simp [Cursor.admits, hb]

theorem take_page_append {page rest : List α} (h : page.length = pageSize) (j : Nat) :
    (page ++ rest).take ((j + 1) * pageSize) = page ++ rest.take (j * pageSize) := by
  have hle : page.length ≤ (j + 1) * pageSize := by
    rw [h, Nat.succ_mul]
    omega
  rw [List.take_append, List.take_of_length_le hle, h, Nat.succ_mul, Nat.add_sub_cancel]

/-- A full page, the cursor behind it, and the items it is followed by. -/
theorem full_page {c : Cursor κ} (hp : 0 < pageSize)
    (h : ¬(rows.filter (c.admits key)).length < pageSize) :
    ∃ a, ((rows.filter (c.admits key)).take pageSize).getLast? = some a ∧
      ((rows.filter (c.admits key)).take pageSize).length = pageSize ∧
      (rows.filter (Cursor.admits key ⟨key a, false⟩)).length <
        (rows.filter (c.admits key)).length ∧
      items key pageSize (rows.filter (c.admits key)) =
        (rows.filter (c.admits key)).take pageSize ++
          items key pageSize (rows.filter (Cursor.admits key ⟨key a, false⟩)) := by
  obtain ⟨a, ha, _, hmem, hlt⟩ := exists_last key hp h
  rw [filter_below hmem] at hlt
  refine ⟨a, ha, by rw [List.length_take, Nat.min_eq_left (by omega)], hlt, ?_⟩
  rw [← filter_below hmem]
  exact items_of_full hp h ha

section Spec

variable (visit : σ → α → σ) (halted : σ → Bool) (cancelled : Nat → Bool)
  {fetch : Cursor κ → List α} {c : Cursor κ} {fuel : Nat}

section Step

variable {halted cancelled} {s : σ} {t : Nat}

/-- A page that is not full is the last one. -/
theorem pageLoop_short (hfetch : ∀ c, fetch c = (rows.filter (c.admits key)).take pageSize)
    (hopen : halted s = false) (hsignal : cancelled t = false)
    (hsignal' : cancelled (t + 1) = false)
    (hshort : (rows.filter (c.admits key)).length < pageSize) (fuel : Nat) (trace : List α) :
    pageLoop visit halted key pageSize fetch cancelled (fuel + 1) t c s trace =
      ⟨visitAll visit halted s (rows.filter (c.admits key)),
        trace ++ visited visit halted s (rows.filter (c.admits key)), .lastPage, t + 2⟩ := by
  have hpage : fetch c = rows.filter (c.admits key) := by
    rw [hfetch, List.take_of_length_le hshort.le]
  simp [pageLoop, hopen, hsignal, hsignal', hpage, hshort]

/-- Behind a full page the loop goes on below its last row. -/
theorem pageLoop_full (hfetch : ∀ c, fetch c = (rows.filter (c.admits key)).take pageSize)
    (hopen : halted s = false) (hsignal : cancelled t = false)
    (hsignal' : cancelled (t + 1) = false) {a : α}
    (ha : ((rows.filter (c.admits key)).take pageSize).getLast? = some a)
    (hlength : ((rows.filter (c.admits key)).take pageSize).length = pageSize) (fuel : Nat)
    (trace : List α) :
    pageLoop visit halted key pageSize fetch cancelled (fuel + 1) t c s trace =
      pageLoop visit halted key pageSize fetch cancelled fuel (t + 2) ⟨key a, false⟩
        (visitAll visit halted s ((rows.filter (c.admits key)).take pageSize))
        (trace ++ visited visit halted s ((rows.filter (c.admits key)).take pageSize)) := by
  simp [pageLoop, hopen, hsignal, hsignal', hfetch, hlength, ha]

end Step

/-- The loop visits the items of the pages as if there was no signal, or fails because
a fetch observes the signal, or ends early because the signal is first observed between
two pages. -/
theorem pageLoop_cases (hp : 0 < pageSize)
    (hfetch : ∀ c, fetch c = (rows.filter (c.admits key)).take pageSize)
    (hfuel : (rows.filter (c.admits key)).length < fuel) (s : σ) (t : Nat) (trace : List α) :
    let all := items key pageSize (rows.filter (c.admits key))
    let out := pageLoop visit halted key pageSize fetch cancelled fuel t c s trace
    (out.exit = .failed ∧ ∃ i, cancelled (t + 2 * i + 1) = true) ∨
      (out = pageLoop visit halted key pageSize fetch (fun _ => false) fuel t c s trace ∧
        (out.exit = .halted ∨ out.exit = .lastPage) ∧ out.state = visitAll visit halted s all ∧
        out.trace = trace ++ visited visit halted s all ∧
        (halted out.state = false → out.exit = .lastPage)) ∨
      ∃ j, out.exit = .cancelled ∧ out.time = t + 2 * j + 1 ∧
        (∀ i < 2 * j, cancelled (t + i) = false) ∧ cancelled (t + 2 * j) = true ∧
        j * pageSize ≤ all.length ∧
        halted (visitAll visit halted s (all.take (j * pageSize))) = false ∧
        out.state = visitAll visit halted s (all.take (j * pageSize)) := by
  induction fuel generalizing c s t trace with
  | zero => omega
  | succ fuel ih =>
    intro all out
    by_cases hhalt : halted s = true
    · right; left
      have hout (signal : Nat → Bool) : pageLoop visit halted key pageSize fetch signal (fuel + 1)
          t c s trace = ⟨s, trace, .halted, t⟩ := by simp [pageLoop, hhalt]
      rw [show out = _ from hout cancelled, hout]
      refine ⟨rfl, Or.inl rfl, (visitAll_of_halted hhalt _).symm, ?_, fun h => ?_⟩
      · rw [visited_of_halted hhalt, List.append_nil]
      · rw [hhalt] at h
        cases h
    by_cases hc : cancelled t = true
    · right; right
      have hout : out = ⟨s, trace, .cancelled, t + 1⟩ := by simp [out, pageLoop, hhalt, hc]
      rw [hout]
      exact ⟨0, rfl, rfl, nofun, hc, by simp, by simpa [visitAll] using hhalt, by simp [visitAll]⟩
    by_cases hc' : cancelled (t + 1) = true
    · left
      have hout : out = ⟨s, trace, .failed, t + 2⟩ := by simp [out, pageLoop, hhalt, hc, hc']
      rw [hout]
      exact ⟨rfl, 0, hc'⟩
    rw [Bool.not_eq_true] at hhalt hc hc'
    by_cases hshort : (rows.filter (c.admits key)).length < pageSize
    · right; left
      have hnext (signal : Nat → Bool) (ht : signal t = false) (ht' : signal (t + 1) = false) :=
        pageLoop_short visit hfetch hhalt ht ht' hshort fuel trace
      rw [show out = _ from hnext cancelled hc hc', hnext (fun _ => false) rfl rfl,
        show all = _ from items_of_short hshort]
      exact ⟨rfl, Or.inr rfl, rfl, rfl, fun _ => rfl⟩
    · obtain ⟨a, ha, hlen, hlt, hall⟩ := full_page hp hshort
      have hnext (signal : Nat → Bool) (ht : signal t = false) (ht' : signal (t + 1) = false) :=
        pageLoop_full visit hfetch hhalt ht ht' ha hlen fuel trace
      rw [show out = _ from hnext cancelled hc hc', hnext (fun _ => false) rfl rfl,
        show all = _ from hall]
      rcases ih (Nat.lt_of_lt_of_le hlt (Nat.le_of_lt_succ hfuel)) _ _ _ with
        ⟨hexit, i, hi⟩ | ⟨hsame, hexit, hstate, htrace, hlast⟩ |
          ⟨j, hexit, htime, hbefore, hj, hle, hopen, hstate⟩
      · left
        refine ⟨hexit, i + 1, ?_⟩
        rw [← hi]
        congr 1
        omega
      · right; left
        refine ⟨hsame, hexit, by rw [hstate, visitAll_append], ?_, hlast⟩
        rw [htrace, visited_append, List.append_assoc]
      · right; right
        refine ⟨j + 1, hexit, by rw [htime]; omega, fun i hi => ?_, ?_, ?_, ?_, ?_⟩
        · match i with
          | 0 => simpa using hc
          | 1 => simpa using hc'
          | i + 2 =>
            rw [← hbefore i (by omega)]
            congr 1
            omega
        · rw [← hj]
          congr 1
          omega
        · rw [List.length_append, hlen, Nat.succ_mul]
          omega
        · rw [take_page_append hlen, visitAll_append]
          exact hopen
        · rw [take_page_append hlen, visitAll_append]
          exact hstate

/-- Without a signal the loop visits the items of the pages. -/
theorem pageLoop_uncancelled (hp : 0 < pageSize)
    (hfetch : ∀ c, fetch c = (rows.filter (c.admits key)).take pageSize)
    (hfuel : (rows.filter (c.admits key)).length < fuel)
    (hnever : ∀ i, cancelled i = false) (s : σ) (t : Nat) (trace : List α) :
    let all := items key pageSize (rows.filter (c.admits key))
    let out := pageLoop visit halted key pageSize fetch cancelled fuel t c s trace
    (out.exit = .halted ∨ out.exit = .lastPage) ∧ out.state = visitAll visit halted s all ∧
      out.trace = trace ++ visited visit halted s all ∧
      (halted out.state = false → out.exit = .lastPage) := by
  intro all out
  rcases pageLoop_cases visit halted cancelled hp hfetch hfuel s t trace with
    ⟨_, i, hi⟩ | hdone | ⟨j, _, _, _, hj, _⟩
  · rw [hnever] at hi
    cases hi
  · exact hdone.2
  · rw [hnever] at hj
    cases hj

/-- A signal that is first observed in front of a page which still holds rows ends
the loop there. -/
theorem pageLoop_cancelled_at (hp : 0 < pageSize)
    (hfetch : ∀ c, fetch c = (rows.filter (c.admits key)).take pageSize)
    (hfuel : (rows.filter (c.admits key)).length < fuel) {s : σ} {t j : Nat} (trace : List α)
    (hbefore : ∀ i < 2 * j, cancelled (t + i) = false) (hat : cancelled (t + 2 * j) = true)
    (hlen : j * pageSize ≤ (items key pageSize (rows.filter (c.admits key))).length)
    (hopen : halted (visitAll visit halted s
      ((items key pageSize (rows.filter (c.admits key))).take (j * pageSize))) = false) :
    let out := pageLoop visit halted key pageSize fetch cancelled fuel t c s trace
    out.exit = .cancelled ∧ out.time = t + 2 * j + 1 ∧ out.state = visitAll visit halted s
      ((items key pageSize (rows.filter (c.admits key))).take (j * pageSize)) := by
  induction fuel generalizing c s t trace j with
  | zero => omega
  | succ fuel ih =>
    intro out
    have hhalt : halted s = false := by
      by_contra h
      rw [Bool.not_eq_false] at h
      rw [visitAll_of_halted h, h] at hopen
      cases hopen
    cases j with
    | zero =>
      have hout : out = ⟨s, trace, .cancelled, t + 1⟩ := by
        simp only [Nat.mul_zero, Nat.add_zero] at hat
        simp [out, pageLoop, hhalt, hat]
      rw [hout]
      simp [visitAll]
    | succ j =>
      have hc : cancelled t = false := by simpa using hbefore 0 (by omega)
      have hc' : cancelled (t + 1) = false := hbefore 1 (by omega)
      have hshort : ¬(rows.filter (c.admits key)).length < pageSize := by
        intro hshort
        rw [items_of_short hshort, Nat.succ_mul] at hlen
        omega
      obtain ⟨a, ha, hpage, hlt, hall⟩ := full_page hp hshort
      have hout := pageLoop_full visit hfetch hhalt hc hc' ha hpage fuel trace
      rw [hall, List.length_append, hpage, Nat.succ_mul] at hlen
      rw [hall, take_page_append hpage, visitAll_append] at hopen
      rw [show out = _ from hout, hall, take_page_append hpage, visitAll_append]
      have hlen' : j * pageSize ≤ (items key pageSize
          (rows.filter (Cursor.admits key ⟨key a, false⟩))).length := by omega
      obtain ⟨hexit, htime, hstate⟩ := ih (t := t + 2)
        (Nat.lt_of_lt_of_le hlt (Nat.le_of_lt_succ hfuel)) _
        (fun i hi => by
          have := hbefore (i + 2) (by omega)
          rwa [← Nat.add_assoc, Nat.add_right_comm] at this)
        (by rw [← hat]; congr 1; omega) hlen' hopen
      exact ⟨hexit, by rw [htime]; omega, hstate⟩

/-- The loop visits the rows of its first pages. -/
theorem pageLoop_prefix (hp : 0 < pageSize)
    (hfetch : ∀ c, fetch c = (rows.filter (c.admits key)).take pageSize) (fuel : Nat) (s : σ)
    (t : Nat) (trace : List α) :
    let out := pageLoop visit halted key pageSize fetch cancelled fuel t c s trace
    ∃ taken, taken <+: items key pageSize (rows.filter (c.admits key)) ∧
      out.trace = trace ++ visited visit halted s taken ∧
      out.state = visitAll visit halted s taken := by
  induction fuel generalizing c s t trace with
  | zero => exact ⟨[], List.nil_prefix, by simp [pageLoop, visited], rfl⟩
  | succ fuel ih =>
    intro out
    by_cases hstop : halted s = true ∨ cancelled t = true ∨ cancelled (t + 1) = true
    · have hout : out.state = s ∧ out.trace = trace := by
        simp only [out, pageLoop]
        split
        · exact ⟨rfl, rfl⟩
        split
        · exact ⟨rfl, rfl⟩
        split
        · exact ⟨rfl, rfl⟩
        · rename_i hs ht ht'
          exact absurd hstop (by simp [hs, ht, ht'])
      exact ⟨[], List.nil_prefix, by simp [hout.2, visited], hout.1⟩
    · simp only [not_or, Bool.not_eq_true] at hstop
      obtain ⟨hopen, hsignal, hsignal'⟩ := hstop
      by_cases hshort : (rows.filter (c.admits key)).length < pageSize
      · rw [show out = _ from pageLoop_short visit hfetch hopen hsignal hsignal' hshort fuel trace,
          items_of_short hshort]
        exact ⟨_, List.prefix_refl _, rfl, rfl⟩
      · obtain ⟨a, ha, hlen, _, hall⟩ := full_page hp hshort
        obtain ⟨taken, htaken, htrace, hstate⟩ := @ih ⟨key a, false⟩
          (visitAll visit halted s ((rows.filter (c.admits key)).take pageSize)) (t + 2)
          (trace ++ visited visit halted s ((rows.filter (c.admits key)).take pageSize))
        rw [show out = _ from pageLoop_full visit hfetch hopen hsignal hsignal' ha hlen fuel trace,
          hall]
        refine ⟨_, (List.prefix_append_right_inj _).mpr htaken, ?_, ?_⟩
        · rw [htrace, visited_append, List.append_assoc]
        · rw [hstate, visitAll_append]

end Spec

section Ties

variable {visit : σ → α → σ} {halted : σ → Bool}

/-- The rows are in descending key order. -/
def Descending (key : α → κ) (rows : List α) : Prop := rows.Pairwise fun a b => key b ≤ key a

/-- No boundary between two pages that the visit passes lies between rows of equal
key. -/
def NoTieAtBoundary (visit : σ → α → σ) (halted : σ → Bool) (key : α → κ) (pageSize : Nat)
    (s : σ) (rows : List α) : Prop :=
  ∀ k a b, 0 < k → rows[k * pageSize - 1]? = some a → rows[k * pageSize]? = some b →
    halted (visitAll visit halted s (rows.take (k * pageSize))) = false → key a ≠ key b

theorem mem_of_mem_items (hp : 0 < pageSize) {b : α} (h : b ∈ items key pageSize rows) :
    b ∈ rows := by
  induction hn : rows.length using Nat.strong_induction_on generalizing rows with
  | _ n ih =>
    by_cases hshort : rows.length < pageSize
    · rwa [items_of_short hshort] at h
    · obtain ⟨a, ha, _, _, hlt⟩ := exists_last key hp hshort
      rw [items_of_full hp hshort ha] at h
      rcases List.mem_append.mp h with h | h
      · exact List.mem_of_mem_take h
      · exact List.mem_of_mem_filter (ih _ (hn ▸ hlt) h rfl)

/-- The first row of every key is on some page. -/
theorem mem_items_of_head (hp : 0 < pageSize) (hsorted : Descending key rows) {k : κ} {a : α}
    (h : (rows.filter fun b => key b = k).head? = some a) : a ∈ items key pageSize rows := by
  induction hn : rows.length using Nat.strong_induction_on generalizing rows with
  | _ n ih =>
    obtain ⟨harows, hak⟩ := List.mem_filter.mp (List.mem_of_mem_head? h)
    by_cases hshort : rows.length < pageSize
    · rwa [items_of_short hshort]
    · obtain ⟨b, hb, _, _, hlt⟩ := exists_last key hp hshort
      have hsplit := hsorted
      rw [Descending, ← List.take_append_drop pageSize rows, List.pairwise_append] at hsplit
      have hbpage : b ∈ rows.take pageSize := List.mem_of_getLast? hb
      rw [items_of_full hp hshort hb, List.mem_append]
      by_cases hpage : ((rows.take pageSize).filter fun b => key b = k) = []
      · right
        have hnone : ∀ c ∈ rows.take pageSize, key c ≠ k := by
          simpa [List.filter_eq_nil_iff] using hpage
        have hkb : k < key b := by
          have ha : a ∈ rows.drop pageSize := by
            rw [← List.take_append_drop pageSize rows] at harows
            refine (List.mem_append.mp harows).resolve_left fun hmem => ?_
            exact hnone a hmem (by simpa using hak)
          have hle := hsplit.2.2 b hbpage a ha
          rw [show key a = k by simpa using hak] at hle
          exact lt_of_le_of_ne hle (hnone b hbpage).symm
        refine ih _ (hn ▸ hlt) (List.Pairwise.filter _ hsorted) ?_ rfl
        rw [← h, List.filter_filter]
        congr 1
        apply List.filter_congr
        intro c _
        by_cases hc : key c = k
        · simp [hc, hkb]
        · simp [hc]
      · left
        rw [← List.take_append_drop pageSize rows, List.filter_append,
          List.head?_append_of_ne_nil _ hpage] at h
        exact List.mem_of_mem_filter (List.mem_of_mem_head? h)

/-- What lies below the last row of a page lies behind the page. -/
theorem filter_below_eq_drop (hsorted : Descending key rows) {a : α} {n : Nat}
    (ha : rows[n]? = some a) :
    (rows.filter fun b => key b < key a) =
      (rows.drop (n + 1)).filter fun b => key b < key a := by
  have hsplit := List.take_append_drop (n + 1) rows
  have hpage : (rows.take (n + 1)).filter (fun b => key b < key a) = [] := by
    rw [List.filter_eq_nil_iff]
    intro b hb
    obtain ⟨i, hi⟩ := List.mem_iff_getElem?.mp hb
    rw [List.getElem?_take] at hi
    split at hi
    · rename_i hin
      have hle : key a ≤ key b := by
        rcases Nat.lt_succ_iff_lt_or_eq.mp hin with hlt | rfl
        · obtain ⟨hi', rfl⟩ := List.getElem?_eq_some_iff.mp hi
          obtain ⟨hn', rfl⟩ := List.getElem?_eq_some_iff.mp ha
          exact List.pairwise_iff_getElem.mp hsorted i n hi' hn' hlt
        · rw [hi] at ha
          cases ha
          exact le_refl _
      simpa using hle
    · cases hi
  conv_lhs => rw [← hsplit, List.filter_append, hpage, List.nil_append]

/-- The pages contain the rows in their order. -/
theorem items_sublist (hp : 0 < pageSize) (hsorted : Descending key rows) :
    (items key pageSize rows).Sublist rows := by
  induction hn : rows.length using Nat.strong_induction_on generalizing rows with
  | _ n ih =>
    by_cases hshort : rows.length < pageSize
    · rw [items_of_short hshort]
    · obtain ⟨a, ha, hidx, _, hlt⟩ := exists_last key hp hshort
      have hdrop := filter_below_eq_drop hsorted hidx
      rw [Nat.sub_add_cancel hp] at hdrop
      have hrest := ih _ (hn ▸ hlt) (List.Pairwise.filter _ hsorted) rfl
      rw [items_of_full hp hshort ha]
      conv_rhs => rw [← List.take_append_drop pageSize rows]
      refine (List.Sublist.refl _).append (hrest.trans ?_)
      rw [hdrop]
      exact List.filter_sublist

theorem Descending.drop (h : Descending key rows) (n : Nat) : Descending key (rows.drop n) :=
  List.Pairwise.sublist (List.drop_sublist n rows) h

omit [LinearOrder κ] in
/-- The boundaries behind the first page are those of the remaining rows. -/
theorem noTieAtBoundary_drop (hp : 0 < pageSize) {s : σ} {a b : α}
    (hopen : halted (visitAll visit halted s (rows.take pageSize)) = false)
    (ha : rows[pageSize - 1]? = some a) (hb : rows[pageSize]? = some b) :
    NoTieAtBoundary visit halted key pageSize s rows ↔
      key a ≠ key b ∧ NoTieAtBoundary visit halted key pageSize
        (visitAll visit halted s (rows.take pageSize)) (rows.drop pageSize) := by
  have htake (k : Nat) : visitAll visit halted s (rows.take ((k + 1) * pageSize)) =
      visitAll visit halted (visitAll visit halted s (rows.take pageSize))
        ((rows.drop pageSize).take (k * pageSize)) := by
    rw [Nat.succ_mul, Nat.add_comm, List.take_add, visitAll_append]
  constructor
  · intro h
    refine ⟨h 1 a b (by omega) (by simpa using ha) (by simpa using hb) (by simpa using hopen), ?_⟩
    intro k x y hk hx hy hcont
    have hpk : 0 < k * pageSize := Nat.mul_pos hk hp
    rw [List.getElem?_drop] at hx hy
    refine h (k + 1) x y (by omega) ?_ ?_ (by rw [htake]; exact hcont)
    · rw [← hx, Nat.succ_mul]
      congr 1
      omega
    · rw [← hy, Nat.succ_mul]
      congr 1
      omega
  · rintro ⟨hne, h⟩ k x y hk hx hy hcont
    obtain ⟨k, rfl⟩ : ∃ j, k = j + 1 := ⟨k - 1, by omega⟩
    cases k with
    | zero =>
      rw [Nat.zero_add, Nat.one_mul] at hx hy
      cases ha.symm.trans hx
      cases hb.symm.trans hy
      exact hne
    | succ k =>
      have hpk : 0 < (k + 1) * pageSize := Nat.mul_pos (by omega) hp
      rw [htake] at hcont
      refine h (k + 1) x y (by omega) ?_ ?_ hcont
      · rw [List.getElem?_drop, ← hx, Nat.succ_mul (k + 1)]
        congr 1
        omega
      · rw [List.getElem?_drop, ← hy, Nat.succ_mul (k + 1)]
        congr 1
        omega

omit [LinearOrder κ] in
/-- There is no boundary within the first page. -/
theorem noTieAtBoundary_of_length_le (s : σ) (h : rows.length ≤ pageSize) :
    NoTieAtBoundary visit halted key pageSize s rows := by
  intro k a b hk _ hb _
  have hlt := (List.getElem?_eq_some_iff.mp hb).1
  have hle : pageSize ≤ k * pageSize := Nat.le_mul_of_pos_left _ hk
  omega

omit [LinearOrder κ] in
/-- A visit that halts on the first page passes no boundary. -/
theorem noTieAtBoundary_of_halted {s : σ}
    (h : halted (visitAll visit halted s (rows.take pageSize)) = true) :
    NoTieAtBoundary visit halted key pageSize s rows := by
  intro k a b hk _ _ hopen
  obtain ⟨k, rfl⟩ : ∃ j, k = j + 1 := ⟨k - 1, by omega⟩
  rw [Nat.succ_mul, Nat.add_comm, List.take_add, visitAll_append, visitAll_of_halted h, h] at hopen
  cases hopen

/-- A row that shares the last key of a page is on no later page. -/
theorem visited_items_ne_of_tie (hp : 0 < pageSize) {s : σ} (hopen : halted s = false) {a b : α}
    {rest : List α} (hkey : key a = key b) :
    visited visit halted s (items key pageSize (rows.filter fun c => key c < key a)) ≠
      visited visit halted s (b :: rest) := by
  intro h
  have hmem : b ∈ visited visit halted s (b :: rest) := by
    rw [visited, if_neg (by simp [hopen])]
    exact List.mem_cons_self
  rw [← h] at hmem
  have hitem := mem_of_mem_items hp (mem_of_mem_visited hmem)
  have hlt := (List.mem_filter.mp hitem).2
  rw [hkey] at hlt
  simp at hlt

/-- The pages are transparent exactly when no boundary falls between equal keys. -/
theorem visited_items_iff (visit : σ → α → σ) (halted : σ → Bool) (hp : 0 < pageSize)
    (hsorted : Descending key rows) (s : σ) :
    visited visit halted s (items key pageSize rows) = visited visit halted s rows ↔
      NoTieAtBoundary visit halted key pageSize s rows := by
  induction hn : rows.length using Nat.strong_induction_on generalizing rows s with
  | _ n ih =>
    by_cases hshort : rows.length < pageSize
    · rw [items_of_short hshort]
      exact ⟨fun _ => noTieAtBoundary_of_length_le s hshort.le, fun _ => rfl⟩
    · obtain ⟨a, ha, hidx, _, hlt⟩ := exists_last key hp hshort
      have hsplit := List.take_append_drop pageSize rows
      have hnext := filter_below_eq_drop hsorted hidx
      rw [Nat.sub_add_cancel hp] at hnext
      rw [items_of_full hp hshort ha, visited_append]
      conv_lhs => rhs; rw [← hsplit, visited_append]
      rw [List.append_cancel_left_eq]
      set s' := visitAll visit halted s (rows.take pageSize) with hs'
      by_cases hopen : halted s' = false
      · cases hrest : rows.drop pageSize with
        | nil =>
          rw [hrest, List.filter_nil] at hnext
          rw [hnext, items_of_short (by simpa using hp)]
          have hlength := List.drop_eq_nil_iff.mp hrest
          exact ⟨fun _ => noTieAtBoundary_of_length_le s hlength, fun _ => rfl⟩
        | cons b rest =>
          have hb : rows[pageSize]? = some b := by
            have := congrArg (fun l => l[0]?) hrest
            simpa [List.getElem?_drop] using this
          rw [noTieAtBoundary_drop hp hopen hidx hb, ← hrest, ← hs']
          have hle : ∀ c ∈ rows.drop pageSize, key c ≤ key b := by
            have hd := hsorted.drop pageSize
            rw [hrest] at hd ⊢
            intro c hc
            rcases List.mem_cons.mp hc with rfl | hc
            · exact le_refl _
            · exact (List.pairwise_cons.mp hd).1 c hc
          by_cases hkey : key a = key b
          · rw [hrest]
            exact iff_of_false (visited_items_ne_of_tie hp hopen hkey) fun h => h.1 hkey
          · have hab : key b < key a := by
              obtain ⟨hi, rfl⟩ := List.getElem?_eq_some_iff.mp hidx
              obtain ⟨hj, rfl⟩ := List.getElem?_eq_some_iff.mp hb
              have := List.pairwise_iff_getElem.mp hsorted _ _ hi hj (by omega)
              exact lt_of_le_of_ne this (Ne.symm hkey)
            have hsame : (rows.filter fun c => key c < key a) = rows.drop pageSize := by
              rw [hnext, List.filter_eq_self]
              intro c hc
              simpa using lt_of_le_of_lt (hle c hc) hab
            have hshorter : (rows.drop pageSize).length < n := by
              rw [← hsame, ← hn]
              exact hlt
            rw [hsame, ih _ hshorter (hsorted.drop pageSize) s' rfl]
            exact (and_iff_right hkey).symm
      · have hhalt : halted s' = true := by simpa using hopen
        rw [visited_of_halted hhalt, visited_of_halted hhalt]
        exact ⟨fun _ => noTieAtBoundary_of_halted hhalt, fun _ => rfl⟩

end Ties

section Distinct

variable {visit : σ → α → σ} {halted : σ → Bool} {cancelled : Nat → Bool}

/-- The pages contain all rows if the keys are distinct. -/
theorem items_of_strict (hp : 0 < pageSize) (h : rows.Pairwise fun a b => key b < key a) :
    items key pageSize rows = rows := by
  induction hn : rows.length using Nat.strong_induction_on generalizing rows with
  | _ n ih =>
    by_cases hshort : rows.length < pageSize
    · exact items_of_short hshort
    · obtain ⟨a, ha, hidx, _, hlt⟩ := exists_last key hp hshort
      have hdescending : Descending key rows := h.imp fun hab => hab.le
      have hbelow : (rows.filter fun b => key b < key a) = rows.drop pageSize := by
        have hdrop := filter_below_eq_drop hdescending hidx
        rw [Nat.sub_add_cancel hp] at hdrop
        rw [hdrop, List.filter_eq_self]
        intro b hb
        rw [← List.take_append_drop pageSize rows, List.pairwise_append] at h
        simpa using h.2.2 a (List.mem_of_getLast? ha) b hb
      have hrest := ih _ (hn ▸ hlt) (h.filter _) rfl
      rw [items_of_full hp hshort ha, hrest, hbelow, List.take_append_drop]

/-- Rows behind the one at which the visit halts make no difference. -/
theorem pageLoop_behind_halt (cancelled : Nat → Bool) {rest : List α}
    {fetch fetch' : Cursor κ → List α} (hp : 0 < pageSize)
    (hfetch : ∀ c, fetch c = ((rows ++ rest).filter (c.admits key)).take pageSize)
    (hfetch' : ∀ c, fetch' c = (rows.filter (c.admits key)).take pageSize)
    (hstrict : rows.Pairwise fun a b => key b < key a) {fuel fuel' : Nat} (t : Nat)
    {c : Cursor κ} {s : σ} (trace : List α) (hfuel : (rows.filter (c.admits key)).length < fuel)
    (hfuel' : (rows.filter (c.admits key)).length < fuel')
    (hhalt : halted (visitAll visit halted s (rows.filter (c.admits key))) = true) :
    let out := pageLoop visit halted key pageSize fetch cancelled fuel t c s trace
    let out' := pageLoop visit halted key pageSize fetch' cancelled fuel' t c s trace
    out.state = out'.state ∧ out.trace = out'.trace ∧ out.time = out'.time ∧
      (out.exit = .failed ↔ out'.exit = .failed) := by
  induction fuel generalizing fuel' t c s trace with
  | zero => omega
  | succ fuel ih =>
    obtain ⟨fuel', rfl⟩ : ∃ n, fuel' = n + 1 := ⟨fuel' - 1, by omega⟩
    intro out out'
    simp only [out, out', pageLoop]
    split
    · simp
    split
    · simp
    split
    · simp
    rw [hfetch, hfetch', List.filter_append]
    by_cases hshort : (rows.filter (c.admits key)).length < pageSize
    · have hpage : ((rows.filter (c.admits key)).take pageSize) = rows.filter (c.admits key) :=
        List.take_of_length_le (by omega)
      have htake : (rows.filter (c.admits key) ++ rest.filter (c.admits key)).take pageSize =
          rows.filter (c.admits key) ++ (rest.filter (c.admits key)).take
            (pageSize - (rows.filter (c.admits key)).length) := by
        rw [List.take_append, hpage]
      rw [hpage, htake, visitAll_append, visitAll_of_halted hhalt, visited_append,
        visited_of_halted hhalt, List.append_nil, if_pos hshort]
      -- a full page is followed by the observation that the visit has halted
      split
      · simp
      split
      · rename_i hfull _ hnone
        rw [List.getLast?_eq_none_iff] at hnone
        simp [hnone, hp] at hfull
      · cases fuel <;> simp [pageLoop, hhalt]
    · obtain ⟨a, ha, hlen, hlt, hall⟩ := full_page hp hshort
      have htake : (rows.filter (c.admits key) ++ rest.filter (c.admits key)).take pageSize =
          (rows.filter (c.admits key)).take pageSize :=
        List.take_append_of_le_length (by omega)
      rw [items_of_strict hp (hstrict.filter _), items_of_strict hp (hstrict.filter _)] at hall
      rw [hall, visitAll_append] at hhalt
      simp only [htake, hlen, lt_irrefl, if_false, ha]
      exact ih _ _ (by omega) (by omega) hhalt

end Distinct

end Pages

end HashStorm.Paging
