import Mathlib.Data.List.Infix
import Mathlib.Data.List.Flatten

/-!
# Framed messages in a stream

A receiver appends what arrives to a buffer and takes messages off its front as
long as it finds one. If it takes a message from its encoding whatever follows,
and waits in front of every shorter part, then what it takes does not depend on
how the stream was cut: it is the messages that have arrived in full, in order,
and the buffer holds what has arrived of the next one.
-/

namespace HashStorm.Framing

variable {β μ α σ ε : Type}

/-- One look at the front of a buffer: wait for more, or take a value and leave what follows, with
the state of the receiver; a failure leaves a state as well. -/
abbrev Look (β α σ ε : Type) := σ → List β → Except (ε × σ) (Option (α × List β × σ))

/-- What a receiver has: its state, the buffer, and the values it has taken. -/
structure Receiver (β α σ : Type) where
  state : σ
  buffer : List β
  taken : List α
  deriving DecidableEq, Repr

/-- A receiver, or what a failure has left of it. -/
abbrev Received (β α σ ε : Type) := Except (ε × Receiver β α σ) (Receiver β α σ)

/-- Take values off the buffer until none is found; the number of looks is bounded. -/
def drain (look : Look β α σ ε) : Nat → Receiver β α σ → Option (Received β α σ ε)
  | 0, _ => none
  | looks + 1, r =>
    match look r.state r.buffer with
    | .error (e, state) => some (.error (e, { r with state := state }))
    | .ok none => some (.ok r)
    | .ok (some (a, rest, state)) => drain look looks ⟨state, rest, r.taken ++ [a]⟩

/-- Chunks arrive one after the other; after a failure nothing more is received. -/
def receiveAll (look : Look β α σ ε) (looks : List β → Nat) :
    Receiver β α σ → List (List β) → Option (Received β α σ ε)
  | r, [] => some (.ok r)
  | r, chunk :: chunks =>
    match drain look (looks (r.buffer ++ chunk)) { r with buffer := r.buffer ++ chunk } with
    | none => none
    | some (.error failure) => some (.error failure)
    | some (.ok r) => receiveAll look looks r chunks

/-- What the messages are read as, by a receiver whose state each message changes. -/
def readAll (read : σ → μ → α × σ) : σ → List μ → List α × σ
  | state, [] => ([], state)
  | state, m :: ms =>
    let (a, state) := read state m
    let (as, state) := readAll read state ms
    (a :: as, state)

theorem readAll_append (read : σ → μ → α × σ) (state : σ) (ms ms' : List μ) :
    readAll read state (ms ++ ms') =
      ((readAll read state ms).1 ++ (readAll read (readAll read state ms).2 ms').1,
        (readAll read (readAll read state ms).2 ms').2) := by
  induction ms generalizing state with
  | nil => rfl
  | cons m ms ih => simp only [List.cons_append, readAll, ih]

/-- The receiver takes every message that can be sent from its encoding, whatever follows, and
waits in front of every shorter part. -/
structure Frames (look : Look β α σ ε) (encode : μ → List β) (read : σ → μ → α × σ)
    (Sent : μ → Prop) : Prop where
  ne_nil : ∀ m, encode m ≠ []
  take : ∀ state m rest, Sent m →
    look state (encode m ++ rest) = .ok (some ((read state m).1, rest, (read state m).2))
  wait : ∀ state m part, Sent m → part <+: encode m → part ≠ encode m →
    look state part = .ok none
  idle : ∀ state, look state [] = .ok none

/-- What was received is the messages that are done, and a part of the next one. -/
structure Arrived (encode : μ → List β) (received : List β) (done left : List μ)
    (part : List β) : Prop where
  received_eq : received = done.flatMap encode ++ part
  part_prefix : part <+: left.flatMap encode
  part_short : ∀ m ∈ left.head?, ¬encode m <+: part

variable {look : Look β α σ ε} {encode : μ → List β} {read : σ → μ → α × σ} {Sent : μ → Prop}

/-- A prefix of encoded messages begins with the first of them, or is a part of it. -/
theorem prefix_encode_or {m : μ} {ms : List μ} {buffer : List β}
    (h : buffer <+: (m :: ms).flatMap encode) :
    (∃ rest, buffer = encode m ++ rest ∧ rest <+: ms.flatMap encode) ∨
      buffer <+: encode m ∧ ¬encode m <+: buffer := by
  rw [List.flatMap_cons] at h
  by_cases hfirst : encode m <+: buffer
  · obtain ⟨rest, rfl⟩ := hfirst
    exact .inl ⟨rest, rfl, (List.prefix_append_right_inj _).mp h⟩
  · refine .inr ⟨?_, hfirst⟩
    exact (List.prefix_or_prefix_of_prefix h (List.prefix_append _ _)).resolve_right hfirst

/-- What is drained from a prefix of encoded messages: those that are there in full. -/
theorem drain_of_prefix (hframes : Frames look encode read Sent) {ms : List μ}
    (hsent : ∀ m ∈ ms, Sent m) (state : σ) (taken : List α) {looks : Nat} {buffer : List β}
    (hlooks : buffer.length < looks) (hbuffer : buffer <+: ms.flatMap encode) :
    ∃ done left part, ms = done ++ left ∧ Arrived encode buffer done left part ∧
      drain look looks ⟨state, buffer, taken⟩ = some (.ok
        ⟨(readAll read state done).2, part, taken ++ (readAll read state done).1⟩) := by
  induction ms generalizing looks state buffer taken with
  | nil =>
    obtain ⟨looks, rfl⟩ : ∃ n, looks = n + 1 := ⟨looks - 1, by omega⟩
    obtain rfl : buffer = [] := List.prefix_nil.mp hbuffer
    refine ⟨[], [], [], rfl, ⟨rfl, List.prefix_rfl, by simp⟩, ?_⟩
    simp only [drain, hframes.idle, readAll, List.append_nil]
  | cons m ms ih =>
    obtain ⟨looks, rfl⟩ : ∃ n, looks = n + 1 := ⟨looks - 1, by omega⟩
    obtain ⟨hm, hms⟩ := List.forall_mem_cons.mp hsent
    rcases prefix_encode_or hbuffer with ⟨rest, rfl, hprefix⟩ | ⟨hpart, hshort⟩
    · -- the message is there: the buffer gets shorter
      have hpos := List.length_pos_iff.mpr (hframes.ne_nil m)
      have hshorter : rest.length < looks := by
        rw [List.length_append] at hlooks
        omega
      obtain ⟨done, left, part, rfl, harrived, hdrain⟩ :=
        ih hms (read state m).2 (taken ++ [(read state m).1]) hshorter hprefix
      refine ⟨m :: done, left, part, rfl, ⟨?_, harrived.part_prefix, harrived.part_short⟩, ?_⟩
      · rw [List.flatMap_cons, List.append_assoc, ← harrived.received_eq]
      · simp only [drain, hframes.take _ _ _ hm, hdrain, readAll, List.append_assoc,
          List.singleton_append]
    · refine ⟨[], m :: ms, buffer, rfl, ⟨rfl, hbuffer, ?_⟩, ?_⟩
      · intro m' hm'
        obtain rfl : m = m' := by simpa using hm'
        exact hshort
      · have hne : buffer ≠ encode m := fun heq => hshort (heq ▸ List.prefix_rfl)
        simp only [drain, hframes.wait _ m _ hm hpart hne, readAll, List.append_nil]

/-- **What is received does not depend on the chunks**: the receiver has taken the messages that
have arrived in full, and its buffer holds the part of the next one. -/
theorem receiveAll_of_prefix (hframes : Frames look encode read Sent) {looks : List β → Nat}
    (hlooks : ∀ buffer, buffer.length < looks buffer) {ms : List μ} (hsent : ∀ m ∈ ms, Sent m)
    (state : σ) (taken : List α) {chunks : List (List β)} {buffer : List β}
    (hchunks : buffer ++ chunks.flatten <+: ms.flatMap encode)
    (hshort : ∀ m ∈ ms.head?, ¬encode m <+: buffer) :
    ∃ done left part, ms = done ++ left ∧
      Arrived encode (buffer ++ chunks.flatten) done left part ∧
      receiveAll look looks ⟨state, buffer, taken⟩ chunks = some (.ok
        ⟨(readAll read state done).2, part, taken ++ (readAll read state done).1⟩) := by
  induction chunks generalizing ms state buffer taken with
  | nil =>
    rw [List.flatten_nil, List.append_nil] at hchunks ⊢
    refine ⟨[], ms, buffer, rfl, ⟨rfl, hchunks, hshort⟩, ?_⟩
    simp only [receiveAll, readAll, List.append_nil]
  | cons chunk chunks ih =>
    rw [List.flatten_cons, ← List.append_assoc] at hchunks ⊢
    obtain ⟨done, left, part, rfl, harrived, hdrain⟩ := drain_of_prefix hframes hsent state taken
      (hlooks (buffer ++ chunk)) ((List.prefix_append _ _).trans hchunks)
    -- the rest of the stream is a prefix of what is left
    rw [harrived.received_eq, List.append_assoc, List.flatMap_append,
      List.prefix_append_right_inj] at hchunks
    obtain ⟨done', left', part', rfl, harrived', hreceive⟩ := ih
      (fun m hm => hsent m (List.mem_append_right _ hm)) (readAll read state done).2
      (taken ++ (readAll read state done).1) hchunks harrived.part_short
    refine ⟨done ++ done', left', part', by rw [List.append_assoc],
      ⟨?_, harrived'.part_prefix, harrived'.part_short⟩, ?_⟩
    · rw [harrived.received_eq, List.append_assoc, harrived'.received_eq, List.flatMap_append,
        List.append_assoc]
    · simp only [receiveAll, hdrain, hreceive, readAll_append, List.append_assoc]

/-- A receiver that waits whatever follows the front of its buffer takes nothing any more. -/
theorem receiveAll_of_stuck {looks : List β → Nat} (hlooks : ∀ buffer, buffer.length < looks buffer)
    {state : σ} (taken : List α) {buffer : List β}
    (hstuck : ∀ rest, look state (buffer ++ rest) = .ok none) (chunks : List (List β)) :
    receiveAll look looks ⟨state, buffer, taken⟩ chunks =
      some (.ok ⟨state, buffer ++ chunks.flatten, taken⟩) := by
  induction chunks generalizing buffer with
  | nil => rw [List.flatten_nil, List.append_nil, receiveAll]
  | cons chunk chunks ih =>
    obtain ⟨n, hn⟩ : ∃ n, looks (buffer ++ chunk) = n + 1 :=
      ⟨looks (buffer ++ chunk) - 1, by have := hlooks (buffer ++ chunk); omega⟩
    have hstuck' : ∀ rest, look state ((buffer ++ chunk) ++ rest) = .ok none := by
      intro rest
      rw [List.append_assoc]
      exact hstuck _
    simp only [receiveAll, hn, drain, hstuck, ih hstuck', List.append_assoc, List.flatten_cons]

/-- No message is found in an empty buffer. -/
theorem Frames.not_prefix_nil (hframes : Frames look encode read Sent) (m : μ) :
    ¬encode m <+: [] := by
  intro hprefix
  apply hframes.ne_nil m
  exact List.prefix_nil.mp hprefix

/-- If all has arrived, no message is left and nothing of one. -/
theorem Arrived.left_eq_nil {done left : List μ} {part : List β}
    (h : Arrived encode ((done ++ left).flatMap encode) done left part) :
    left = [] ∧ part = [] := by
  have hpart : left.flatMap encode = part := by
    have hreceived := h.received_eq
    rwa [List.flatMap_append, List.append_cancel_left_eq] at hreceived
  cases left with
  | nil => exact ⟨rfl, hpart.symm⟩
  | cons m left =>
    refine absurd ?_ (h.part_short m rfl)
    rw [← hpart, List.flatMap_cons]
    exact List.prefix_append _ _

/-- Of a stream that has arrived in full, every message is taken, and the buffer is empty. -/
theorem receiveAll_of_eq (hframes : Frames look encode read Sent) {looks : List β → Nat}
    (hlooks : ∀ buffer, buffer.length < looks buffer) {ms : List μ} (hsent : ∀ m ∈ ms, Sent m)
    (state : σ) {chunks : List (List β)} (hchunks : chunks.flatten = ms.flatMap encode) :
    receiveAll look looks ⟨state, [], []⟩ chunks =
      some (.ok ⟨(readAll read state ms).2, [], (readAll read state ms).1⟩) := by
  have hprefix : [] ++ chunks.flatten <+: ms.flatMap encode := by
    rw [List.nil_append, hchunks]
  obtain ⟨done, left, part, rfl, harrived, hreceive⟩ := receiveAll_of_prefix hframes hlooks hsent
    state [] hprefix fun m _ => hframes.not_prefix_nil m
  rw [List.nil_append, hchunks] at harrived
  obtain ⟨rfl, rfl⟩ := harrived.left_eq_nil
  rw [hreceive, List.append_nil, List.nil_append]

end HashStorm.Framing
