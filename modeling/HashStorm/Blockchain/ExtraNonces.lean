import HashStorm.Blockchain.ExtraNonceProvider
import HashStorm.Lib.CriticalSection
import HashStorm.Stratum.HexUtils

/-!
# Extranonces of concurrent callers

`Next` moves the counter under a lock and writes the extranonce behind it. The results are
numbered in the order in which the lock was taken: the counter of each is known from its number,
and results whose numbers are less than a whole round of the counter apart are different.
-/

namespace HashStorm.Blockchain

open Stratum Machine CriticalSection

namespace ExtraNonceProvider

section Construction

/-- The constructor, with the byte that is drawn when no instance id is given. -/
def construct (size : Fin 8) (instanceId : Option UInt8) (randomByte : UInt8) :
    Except Text ExtraNonceProvider :=
  match instanceId with
  | some id =>
    if 2 ^ idBits - 1 < id.toNat then
      .error (text "Provided instance id too large to fit into 4 bits (limit 15)")
    else .ok (create size id)
  | none => .ok (create size randomByte)

/-- An instance id that is given is kept. -/
theorem construct_ok {size : Fin 8} {instanceId randomByte : UInt8} {p : ExtraNonceProvider}
    (h : construct size (some instanceId) randomByte = .ok p) : p.id = instanceId.toNat := by
  rw [construct] at h
  split at h
  · cases h
  · rename_i hid
    cases h
    exact Nat.mod_eq_of_lt (by rw [idBits] at hid ⊢; omega)

end Construction

variable {p p' : ExtraNonceProvider}

section Sequence

/-- The provider after so many calls. -/
def after (p : ExtraNonceProvider) (calls : Nat) : ExtraNonceProvider :=
  (fun p => p.next.2)^[calls] p

theorem after_succ (p : ExtraNonceProvider) (calls : Nat) :
    p.after (calls + 1) = (p.after calls).next.2 :=
  Function.iterate_succ_apply' _ _ _

/-- The counter wraps at its limit. -/
theorem nextCounter_eq (p : ExtraNonceProvider) :
    p.nextCounter = (p.counter + 1) % (nonceMax p.extranonceBytes + 1) := by
  have hle := p.counter_le
  rw [nextCounter]
  split
  · have hlast : p.counter + 1 = nonceMax p.extranonceBytes + 1 := by omega
    rw [hlast, Nat.mod_self]
  · exact (Nat.mod_eq_of_lt (by omega)).symm

theorem after_spec (p : ExtraNonceProvider) (calls : Nat) :
    (p.after calls).extranonceBytes = p.extranonceBytes ∧ (p.after calls).id = p.id ∧
      (p.after calls).counter = (p.counter + calls) % (nonceMax p.extranonceBytes + 1) := by
  induction calls with
  | zero => exact ⟨rfl, rfl, (Nat.mod_eq_of_lt (Nat.lt_succ_of_le p.counter_le)).symm⟩
  | succ calls ih =>
    obtain ⟨hbytes, hid, hcounter⟩ := ih
    rw [after_succ]
    refine ⟨hbytes, hid, ?_⟩
    change (p.after calls).nextCounter = _
    rw [nextCounter_eq, hbytes, hcounter, Nat.mod_add_mod, Nat.add_assoc]

/-- An extranonce denotes the instance id and the counter. -/
theorem hexNumber_next (p : ExtraNonceProvider) :
    hexNumber p.next.1 = 2 ^ idShift p.extranonceBytes * p.id + p.nextCounter := by
  have hcounter : p.nextCounter < 2 ^ idShift p.extranonceBytes := by
    have hmax : nonceMax p.extranonceBytes + 1 = 2 ^ idShift p.extranonceBytes :=
      Nat.sub_add_cancel (Nat.two_pow_pos _)
    rw [nextCounter_eq, hmax]
    exact Nat.mod_lt _ (Nat.two_pow_pos _)
  have hbits : 16 ^ (p.extranonceBytes * 2) = 2 ^ idShift p.extranonceBytes * 2 ^ idBits := by
    have hpos := p.extranonceBytes_pos
    have h16 : (16 : Nat) = 2 ^ 4 := by decide
    rw [h16, ← pow_mul, ← pow_add, idShift, idBits]
    congr 1
    omega
  have hvalue : p.id <<< idShift p.extranonceBytes ||| p.nextCounter =
      2 ^ idShift p.extranonceBytes * p.id + p.nextCounter := by
    rw [Nat.shiftLeft_eq, Nat.two_pow_add_eq_or_of_lt hcounter, mul_comm]
  have hfits : 2 ^ idShift p.extranonceBytes * p.id + p.nextCounter <
      16 ^ (p.extranonceBytes * 2) := by
    rw [hbits]
    calc 2 ^ idShift p.extranonceBytes * p.id + p.nextCounter
        < 2 ^ idShift p.extranonceBytes * (p.id + 1) := by
          rw [mul_add, mul_one]
          exact Nat.add_lt_add_left hcounter _
      _ ≤ 2 ^ idShift p.extranonceBytes * 2 ^ idBits := Nat.mul_le_mul_left _ p.id_lt
  change hexNumber (toStringX _ _) = _
  rw [hvalue, hexNumber_toStringX hfits]

end Sequence

section Callers

/-- `Next`, with the steps under `counterLock` one by one. -/
def body (p : ExtraNonceProvider) : Body Nat Nat Text where
  steps := [(· + 1), fun counter => if counter > nonceMax p.extranonceBytes then 0 else counter]
  take counter := p.id <<< idShift p.extranonceBytes ||| counter
  output value := toStringX (p.extranonceBytes * 2) value

/-- Whole sections move the counter as calls of `Next` do. -/
theorem apply_iterate (p : ExtraNonceProvider) (calls : Nat) :
    p.body.apply^[calls] p.counter = (p.after calls).counter := by
  induction calls with
  | zero => rfl
  | succ calls ih =>
    have hnext : p.body.apply (p.after calls).counter = (p.after calls).nextCounter := by
      rw [nextCounter, (after_spec p calls).1]
      rfl
    rw [Function.iterate_succ_apply', ih, hnext, after_succ]
    rfl

/-- A caller returns what the call of its number returns. -/
theorem output_taken (p : ExtraNonceProvider) (number : Nat) :
    p.body.output (p.body.taken p.counter number) = (p.after number).next.1 := by
  obtain ⟨hbytes, hid, -⟩ := after_spec p number
  rw [Body.taken, apply_iterate, after_succ]
  change toStringX _ (p.id <<< _ ||| (p.after number).nextCounter) = _
  rw [← hbytes, ← hid]
  rfl

/-- The extranonce of a number, in digits and as a number. -/
theorem next_after (p : ExtraNonceProvider) (number : Nat) :
    (p.after number).next.1.length = 2 * p.extranonceBytes ∧
      (∀ c ∈ (p.after number).next.1, LowerHexDigit c) ∧
      hexNumber (p.after number).next.1 / 2 ^ idShift p.extranonceBytes = p.id ∧
      hexNumber (p.after number).next.1 % 2 ^ idShift p.extranonceBytes =
        (p.counter + number + 1) % (nonceMax p.extranonceBytes + 1) := by
  obtain ⟨hbytes, hid, hcounter⟩ := after_spec p number
  obtain ⟨hlength, hdigits⟩ := (p.after number).next_spec
  have hpos : 0 < 2 ^ idShift p.extranonceBytes := Nat.two_pow_pos _
  have hmax : nonceMax p.extranonceBytes + 1 = 2 ^ idShift p.extranonceBytes :=
    Nat.sub_add_cancel hpos
  have hnumber := hexNumber_next (p.after number)
  rw [nextCounter_eq, hbytes, hid, hcounter, Nat.mod_add_mod, hmax] at hnumber
  have hlt : (p.counter + number + 1) % 2 ^ idShift p.extranonceBytes <
      2 ^ idShift p.extranonceBytes := Nat.mod_lt _ hpos
  refine ⟨by rw [hlength, hbytes, mul_comm], hdigits, ?_, ?_⟩
  · rw [hnumber, Nat.mul_add_div hpos, Nat.div_eq_of_lt hlt, Nat.add_zero]
  · rw [hnumber, hmax, Nat.mul_add_mod, Nat.mod_mod]

/-- Numbers in the same round of the counter have different extranonces. -/
theorem next_ne (p : ExtraNonceProvider) {i j : Nat} (hlt : i < j)
    (hle : j ≤ i + nonceMax p.extranonceBytes) :
    (p.after i).next.1 ≠ (p.after j).next.1 := by
  intro heq
  have hmod : (p.counter + i + 1) % (nonceMax p.extranonceBytes + 1) =
      (p.counter + j + 1) % (nonceMax p.extranonceBytes + 1) := by
    rw [← (next_after p i).2.2.2, heq, (next_after p j).2.2.2]
  have hdvd : nonceMax p.extranonceBytes + 1 ∣ p.counter + j + 1 - (p.counter + i + 1) :=
    (Nat.modEq_iff_dvd' (by omega)).mp hmod
  exact absurd (Nat.le_of_dvd (by omega) hdvd) (by omega)

/-- Providers of one size with different instance ids never share an extranonce. -/
theorem next_ne_of_id (hbytes : p.extranonceBytes = p'.extranonceBytes) (hid : p.id ≠ p'.id)
    (i j : Nat) : (p.after i).next.1 ≠ (p'.after j).next.1 := by
  intro heq
  apply hid
  rw [← (next_after p i).2.2.1, heq, hbytes, (next_after p' j).2.2.1]

/-- However concurrent callers interleave, results less than a round of the counter apart in the
order of the lock differ; a result tells the instance id and the counter, and differs from those
of a provider of the same size with another id. -/
theorem extranonces_unique {ops ops' : List Op} {s s' : State Nat Nat Text}
    (hrun : run (step p.body) (initial p.counter) ops = some s)
    (hrun' : run (step p'.body) (initial p'.counter) ops' = some s') :
    (s.returned.map Prod.fst).Nodup ∧
      (∀ e ∈ s.returned, e.1 < s.sections ∧ e.2.length = 2 * p.extranonceBytes ∧
        (∀ c ∈ e.2, LowerHexDigit c) ∧
        hexNumber e.2 / 2 ^ idShift p.extranonceBytes = p.id ∧
        hexNumber e.2 % 2 ^ idShift p.extranonceBytes =
          (p.counter + e.1 + 1) % (nonceMax p.extranonceBytes + 1)) ∧
      (∀ e ∈ s.returned, ∀ f ∈ s.returned, e.1 < f.1 →
        f.1 ≤ e.1 + nonceMax p.extranonceBytes → e.2 ≠ f.2) ∧
      (p.extranonceBytes = p'.extranonceBytes → p.id ≠ p'.id →
        ∀ e ∈ s.returned, ∀ f ∈ s'.returned, e.2 ≠ f.2) := by
  obtain ⟨hnodup, hreturned⟩ := returned_of_run hrun
  have hresult : ∀ e ∈ s.returned, e.2 = (p.after e.1).next.1 := fun e he =>
    (hreturned e he).2.trans (output_taken p e.1)
  have hresult' : ∀ e ∈ s'.returned, e.2 = (p'.after e.1).next.1 := fun e he =>
    ((returned_of_run hrun').2 e he).2.trans (output_taken p' e.1)
  refine ⟨hnodup, ?_, ?_, ?_⟩
  · intro e he
    refine ⟨(hreturned e he).1, ?_⟩
    rw [hresult e he]
    exact next_after p e.1
  · intro e he f hf hlt hle
    rw [hresult e he, hresult f hf]
    exact next_ne p hlt hle
  · intro hbytes hid e he f hf
    rw [hresult e he, hresult' f hf]
    exact next_ne_of_id hbytes hid e.1 f.1

/-- Two callers, of whom the second returns first. -/
def twoCallers : List Op :=
  [.enter 7, .advance 7, .advance 7, .leave 7, .enter 8, .advance 8, .advance 8, .leave 8,
    .finish 8, .finish 7]

theorem extranonces_unique_two : ∃ s s',
    run (step (create 1 3).body) (initial 0) twoCallers = some s ∧
    run (step (create 1 4).body) (initial 0) twoCallers = some s' ∧
    s.returned = [(1, text "3002"), (0, text "3001")] ∧
    s'.returned = [(1, text "4002"), (0, text "4001")] ∧
    ∀ e ∈ s.returned, ∀ f ∈ s'.returned, e.2 ≠ f.2 := by
  refine ⟨_, _, rfl, rfl, by decide, by decide, ?_⟩
  exact (@extranonces_unique (create 1 3) (create 1 4) twoCallers twoCallers _ _ rfl rfl).2.2.2 rfl
    (by decide)

end Callers

end ExtraNonceProvider

end HashStorm.Blockchain
