import HashStorm.Lib.Machine
import Mathlib.Data.List.Pairwise
import Mathlib.Logic.Function.Iterate
import Mathlib.Order.Lattice

/-!
# Reading a range of a growing log in pages

The items of a log have increasing keys, and new ones are added at its end. A
reader takes the items of a range in pages of a fixed size. Each page starts
behind the last item of the one before it, and a page that is not full is the last
one.

Whatever is added between two pages, the pages together are the items of the range
that the log has when the last page is read, each of them once and in their order.
-/

namespace HashStorm.RangePages

variable {α κ : Type*} [LinearOrder κ] (key : α → κ)

/-- The lower end of a range. -/
inductive Start (κ : Type*) where
  | at (k : κ)
  | behind (k : κ)
  deriving DecidableEq, Repr

/-- The key is not below the range. -/
def Start.admits : Start κ → κ → Bool
  | .at k, k' => k ≤ k'
  | .behind k, k' => k < k'

/-- The first items of a range. -/
def page (items : List α) (start : Start κ) (last : κ) (size : Nat) : List α :=
  (items.filter fun a => start.admits (key a) && key a ≤ last).take size

/-- Where the next page starts; none if this one is not full. -/
def following (size : Nat) (page : List α) : Option (Start κ) :=
  if page.length < size then none else page.getLast?.map fun a => .behind (key a)

/-- The items read so far, and where the next page starts. -/
structure Reader (α κ : Type*) where
  read : List α
  start : Option (Start κ)

/-- Read the next page. -/
def Reader.next (items : List α) (last : κ) (size : Nat) (r : Reader α κ) : Reader α κ :=
  match r.start with
  | none => r
  | some start =>
    let p := page key items start last size
    ⟨r.read ++ p, following key size p⟩

/-- What can happen: the next page is read, or an item is added to the log. -/
inductive Op (α : Type*) where
  | next
  | add (a : α)

/-- One step of the log and its reader; the key of a new item is greater than all others. -/
def step (last : κ) (size : Nat) (s : List α × Reader α κ) : Op α → Option (List α × Reader α κ)
  | .next => some (s.1, s.2.next key s.1 last size)
  | .add a => if s.1.all (key · < key a) then some (s.1 ++ [a], s.2) else none

variable {key} {items : List α} {first start : Start κ} {last : κ} {size : Nat}

section Page

theorem mem_page {a : α} (h : a ∈ page key items start last size) :
    a ∈ items ∧ start.admits (key a) = true ∧ key a ≤ last := by
  have hmem := List.mem_filter.mp (List.mem_of_mem_take h)
  simpa using hmem

/-- What a later start admits, an earlier one does. -/
theorem Start.admits_trans {k k' : κ} (hk : start.admits k = true) (hlt : k < k') :
    start.admits k' = true := by
  cases start with
  | «at» j => exact decide_eq_true ((of_decide_eq_true hk).trans hlt.le)
  | behind j => exact decide_eq_true ((of_decide_eq_true hk).trans hlt)

theorem admits_of_following {s : Start κ} {a : α}
    (hs : s ∈ following key size (page key items start last size))
    (ha : s.admits (key a) = true) : start.admits (key a) = true := by
  unfold following at hs
  split at hs
  · cases hs
  · obtain ⟨b, hb, rfl⟩ := Option.map_eq_some_iff.mp hs
    have hadmits := (mem_page (List.mem_of_getLast? hb)).2.1
    exact Start.admits_trans hadmits (of_decide_eq_true ha)

/-- A page and what its successors admit make up the rest of the range. -/
theorem page_append (hsorted : items.Pairwise (key · < key ·)) (hsize : 0 < size)
    (start : Start κ) (last : κ) :
    page key items start last size ++
        (match following key size (page key items start last size) with
          | none => []
          | some s => items.filter fun a => s.admits (key a) && key a ≤ last) =
      items.filter fun a => start.admits (key a) && key a ≤ last := by
  set range := items.filter fun a => start.admits (key a) && decide (key a ≤ last) with hrange
  have hpage : page key items start last size = range.take size := rfl
  rw [hpage]
  by_cases hshort : (range.take size).length < size
  · have hall : range.length ≤ size := by
      rw [List.length_take] at hshort
      omega
    rw [following, if_pos hshort, List.append_nil, List.take_of_length_le hall]
  · obtain ⟨b, hb⟩ : ∃ b, (range.take size).getLast? = some b := by
      refine ⟨_, List.getLast?_eq_some_getLast ?_⟩
      intro hnil
      rw [hnil] at hshort
      exact hshort hsize
    rw [following, if_neg hshort, hb]
    conv_rhs => rw [← List.take_append_drop size range]
    congr 1
    have hrangeSorted : range.Pairwise (key · < key ·) := hsorted.filter _
    -- the items behind the last one of the page are those that the page leaves
    have hsplit : range.filter (fun a => key b < key a) = range.drop size := by
      obtain ⟨init, hinit⟩ := List.getLast?_eq_some_iff.mp hb
      have hwhole : range = init ++ [b] ++ range.drop size := by
        rw [← hinit, List.take_append_drop]
      rw [hwhole, List.pairwise_append, List.pairwise_append] at hrangeSorted
      obtain ⟨⟨-, -, hbefore⟩, -, hbehind⟩ := hrangeSorted
      conv_lhs => rw [hwhole]
      have hnone : (init ++ [b]).filter (fun a => decide (key b < key a)) = [] := by
        rw [List.filter_eq_nil_iff]
        intro a ha
        rcases List.mem_append.mp ha with ha | ha
        · simpa using (hbefore a ha b (List.mem_singleton_self b)).le
        · simp [List.mem_singleton.mp ha]
      rw [List.filter_append, hnone, List.nil_append, List.filter_eq_self]
      exact fun a ha => decide_eq_true
        (hbehind b (List.mem_append_right _ (List.mem_singleton_self b)) a ha)
    rw [← hsplit, hrange, List.filter_filter]
    refine List.filter_congr fun a _ => ?_
    have hmem : b ∈ page key items start last size := List.mem_of_getLast? hb
    have hadmits : start.admits (key b) = true := (mem_page hmem).2.1
    have hbehind : (Start.behind (key b)).admits (key a) = decide (key b < key a) := rfl
    rw [hbehind]
    by_cases hlt : key b < key a
    · simp [hlt, Start.admits_trans hadmits hlt]
    · simp [hlt]

/-- What a page leaves for its successors is all that it misses. -/
theorem mem_page_or_admits (hsorted : items.Pairwise (key · < key ·)) (hsize : 0 < size)
    {a : α} (ha : a ∈ items) (hstart : start.admits (key a) = true) (hlast : key a ≤ last) :
    a ∈ page key items start last size ∨
      ∃ s ∈ following key size (page key items start last size), s.admits (key a) = true := by
  have hmem : a ∈ items.filter fun a => start.admits (key a) && decide (key a ≤ last) :=
    List.mem_filter.mpr ⟨ha, by simp [hstart, hlast]⟩
  rw [← page_append hsorted hsize, List.mem_append] at hmem
  refine hmem.imp_right fun hrest => ?_
  cases hfollowing : following key size (page key items start last size) with
  | none =>
    rw [hfollowing] at hrest
    cases hrest
  | some s =>
    rw [hfollowing] at hrest
    have hadmits := (List.mem_filter.mp hrest).2
    simp only [Bool.and_eq_true] at hadmits
    exact ⟨s, rfl, hadmits.1⟩

end Page

section Runs

/-- What was read is the range of the log as it was at the last page, up to where the next page
starts. -/
structure Inv (key : α → κ) (before : List α) (first : Start κ) (last : κ) (s : List α × Reader α κ) : Prop where
  sorted : s.1.Pairwise (key · < key ·)
  kept : before <+: s.1
  start : ∀ start ∈ s.2.start,
    start = first ∨ ∃ b ∈ s.1, first.admits (key b) = true ∧ start = .behind (key b)
  reading : ∀ start ∈ s.2.start,
    s.2.read ++ (s.1.filter fun a => start.admits (key a) && key a ≤ last) =
      s.1.filter fun a => first.admits (key a) && key a ≤ last
  finished : s.2.start = none → ∃ seen, before <+: seen ∧ seen <+: s.1 ∧
    s.2.read = seen.filter fun a => first.admits (key a) && key a ≤ last

theorem inv_initial (hsorted : items.Pairwise (key · < key ·)) :
    Inv key items first last (items, ⟨[], some first⟩) where
  sorted := hsorted
  kept := List.prefix_rfl
  start := by
    rintro start ⟨rfl⟩
    exact .inl rfl
  reading := by
    rintro start ⟨rfl⟩
    rfl
  finished := by simp

variable {before : List α} {s s' : List α × Reader α κ}

theorem Inv.next (hsize : 0 < size) (h : Inv key before first last s) :
    Inv key before first last (s.1, s.2.next key s.1 last size) := by
  obtain ⟨items, read, start⟩ := s
  cases start with
  | none => exact h
  | some start =>
    have hpages := page_append h.sorted hsize start last
    have hreading := h.reading start rfl
    simp only at hreading hpages
    rw [← hpages, ← List.append_assoc] at hreading
    refine ⟨h.sorted, h.kept, ?_, ?_, ?_⟩
    · intro s hs
      obtain ⟨b, hb, rfl⟩ : ∃ b ∈ page key items start last size, s = .behind (key b) := by
        simp only [Reader.next, following] at hs
        split at hs
        · cases hs
        · obtain ⟨b, hb, rfl⟩ := Option.map_eq_some_iff.mp hs
          exact ⟨b, List.mem_of_getLast? hb, rfl⟩
      obtain ⟨hmem, hadmits, -⟩ := mem_page hb
      refine .inr ⟨b, hmem, ?_, rfl⟩
      rcases h.start start rfl with rfl | ⟨c, -, hfirst, rfl⟩
      · exact hadmits
      · exact Start.admits_trans hfirst (of_decide_eq_true hadmits)
    · intro s hs
      have hs' : following key size (page key items start last size) = some s := hs
      rw [hs'] at hreading
      exact hreading
    · intro hnone
      have hnone' : following key size (page key items start last size) = none := hnone
      rw [hnone', List.append_nil] at hreading
      exact ⟨items, h.kept, List.prefix_rfl, hreading⟩

theorem Inv.add (h : Inv key before first last s) {a : α}
    (hgreater : ∀ b ∈ s.1, key b < key a) :
    Inv key before first last (s.1 ++ [a], s.2) := by
  have hsorted : (s.1 ++ [a]).Pairwise (key · < key ·) := by
    rw [List.pairwise_append]
    refine ⟨h.sorted, List.pairwise_singleton _ _, fun b hb c hc => ?_⟩
    rw [List.mem_singleton.mp hc]
    exact hgreater b hb
  refine ⟨hsorted, h.kept.trans (List.prefix_append _ _), ?_, ?_, ?_⟩
  · intro start hstart
    refine (h.start start hstart).imp_right ?_
    rintro ⟨b, hb, hfirst, rfl⟩
    exact ⟨b, List.mem_append_left _ hb, hfirst, rfl⟩
  · intro start hstart
    -- a new item is in the range exactly if it is behind the pages read so far
    have hsame : start.admits (key a) = first.admits (key a) := by
      rcases h.start start hstart with rfl | ⟨b, hb, hfirst, rfl⟩
      · rfl
      · rw [Start.admits_trans hfirst (hgreater b hb)]
        exact decide_eq_true (hgreater b hb)
    have hreading := h.reading start hstart
    simp only [List.filter_append] at hreading ⊢
    rw [← List.append_assoc, hreading]
    simp only [List.filter_cons, List.filter_nil, hsame]
  · intro hnone
    obtain ⟨seen, hbefore, hseen, hread⟩ := h.finished hnone
    exact ⟨seen, hbefore, hseen.trans (List.prefix_append _ _), hread⟩

theorem Inv.step (hsize : 0 < size) {op : Op α} (h : Inv key before first last s)
    (hstep : step key last size s op = some s') : Inv key before first last s' := by
  cases op with
  | next =>
    cases hstep
    exact h.next hsize
  | add a =>
    simp only [RangePages.step, Option.ite_none_right_eq_some, Option.some.injEq,
      List.all_eq_true, decide_eq_true_eq] at hstep
    obtain ⟨hgreater, rfl⟩ := hstep
    exact h.add hgreater

/-- Whatever is added between the pages, what was read at the end is the range of the log at the
last page. -/
theorem run_finished (hsize : 0 < size) (hsorted : items.Pairwise (key · < key ·))
    {ops : List (Op α)}
    (hrun : Machine.run (step key last size) (items, ⟨[], some first⟩) ops = some s)
    (hdone : s.2.start = none) :
    ∃ seen, items <+: seen ∧ seen <+: s.1 ∧
      s.2.read = seen.filter fun a => first.admits (key a) && key a ≤ last :=
  (Machine.run_preserves (Inv key items first last) (fun _ _ _ h => h.step hsize)
    (inv_initial hsorted) hrun).finished hdone

end Runs

section Termination

/-- What is left of the range. -/
def Reader.remaining (key : α → κ) (items : List α) (last : κ) (r : Reader α κ) : List α :=
  match r.start with
  | none => []
  | some start => items.filter fun a => start.admits (key a) && key a ≤ last

theorem remaining_next_lt (hsize : 0 < size) (hsorted : items.Pairwise (key · < key ·))
    {r : Reader α κ} (h : (r.next key items last size).start ≠ none) :
    ((r.next key items last size).remaining key items last).length <
      (r.remaining key items last).length := by
  obtain ⟨read, start⟩ := r
  cases start with
  | none => exact absurd rfl h
  | some start =>
    have hpages := page_append hsorted hsize start last
    have hfull : size ≤ (page key items start last size).length := by
      by_contra hshort
      exact h (if_pos (not_le.mp hshort))
    have hlength := congrArg List.length hpages
    rw [List.length_append] at hlength
    simp only [Reader.next, Reader.remaining]
    omega

/-- The reading of a log that does not change ends. -/
theorem exists_finished (hsize : 0 < size) (hsorted : items.Pairwise (key · < key ·)) (last : κ)
    (r : Reader α κ) : ∃ n, ((Reader.next key items last size)^[n] r).start = none := by
  induction hn : (r.remaining key items last).length using Nat.strong_induction_on generalizing r with
  | _ n ih =>
    by_cases h : (r.next key items last size).start = none
    · exact ⟨1, h⟩
    · obtain ⟨m, hm⟩ := ih _ (hn ▸ remaining_next_lt hsize hsorted h) _ rfl
      exact ⟨m + 1, hm⟩

end Termination

end HashStorm.RangePages
