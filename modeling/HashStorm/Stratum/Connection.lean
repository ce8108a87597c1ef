import HashStorm.Lib.Lines
import HashStorm.Lib.Machine

/-!
# Requests of a Stratum connection

`StratumConnection` fills a pipe with what it receives and cuts what the pipe
holds into lines. The length is checked of everything that is buffered, and not
of a line, so that requests that come close together can close the connection;
and the end of the stream stops the reader, whatever the pipe still holds.
-/

namespace HashStorm.Stratum.Connection

open Lines Machine

/-- What is sent over the network. -/
abbrev Bytes := List UInt8

/-- `MaxInboundRequestLength`. -/
def maxInboundRequestLength : Nat := 0x8000

/-- The line terminator. -/
def isNewline (b : UInt8) : Bool := b = 10

/-- What becomes of a line while a Proxy-Protocol header is expected. -/
inductive HeaderOutcome where
  | consumed
  | request
  | throws
  deriving DecidableEq, Repr

/-- What lines are handed to: the proxy configuration, whether the addresses of a header can be
read, and whether a request is deserialized and handled without an exception. -/
structure Handler where
  mandatory : Bool
  trustedPeer : Bool
  readsAddresses : Bytes → Bool
  handles : Bytes → Bool

/-- The bytes of `PROXY `. -/
def proxyPrefix : Bytes := [80, 82, 79, 88, 89, 32]

/-- `ProcessProxyHeader`. -/
def processProxyHeader (handler : Handler) (line : Bytes) : HeaderOutcome :=
  if proxyPrefix.isPrefixOf line then
    if handler.trustedPeer && handler.readsAddresses line then .consumed else .throws
  else if handler.mandatory then .throws else .request

/-- The part of a connection that lines change. -/
structure Session where
  expectingProxyHeader : Bool
  dispatched : List Bytes
  deriving DecidableEq, Repr

/-- A session in which nothing was dispatched. -/
def Session.initial (expectingProxyHeader : Bool) : Session := ⟨expectingProxyHeader, []⟩

variable (handler : Handler)

/-- `ProcessRequestAsync`, and whether it throws. -/
def processRequest (session : Session) (line : Bytes) : Session × Bool :=
  ({ session with dispatched := session.dispatched ++ [line] }, !handler.handles line)

/-- The loop body for one line, and whether it throws. -/
def processLine (session : Session) (line : Bytes) : Session × Bool :=
  if session.expectingProxyHeader then
    let session := { session with expectingProxyHeader := false }
    match processProxyHeader handler line with
    | .consumed => (session, false)
    | .request => processRequest handler session line
    | .throws => (session, true)
  else processRequest handler session line

/-- The loop over the buffer: the session, what is left of the buffer, and whether it throws. -/
def processBuffer : Nat → Session → Bytes → Session × Bytes × Bool
  | 0, session, buffer => (session, buffer, false)
  | fuel + 1, session, buffer =>
    match buffer.findIdx? isNewline with
    | none => (session, buffer, false)
    | some position =>
      match processLine handler session (buffer.take position) with
      | (session, true) => (session, buffer, true)
      | (session, false) => processBuffer fuel session (buffer.drop (position + 1))

/-- Why a connection was closed. -/
inductive CloseReason where
  | length
  | request
  | endOfStream
  deriving DecidableEq, Repr

/-- A connection: what the pipe holds, how much of it the reader has examined, and the rest. -/
structure State where
  buffer : Bytes
  examined : Nat
  session : Session
  closed : Option CloseReason
  deriving DecidableEq, Repr

/-- A connection that has received nothing. -/
def State.initial (expectingProxyHeader : Bool) : State :=
  ⟨[], 0, .initial expectingProxyHeader, none⟩

/-- The two loops take turns: bytes are received, the pipe is read, or the peer is done. -/
inductive Op where
  | receive (chunk : Bytes)
  | read
  | endOfStream
  deriving DecidableEq, Repr

/-- One turn of `FillReceivePipeAsync`. What reaches a closed connection is not read. -/
def State.receive (s : State) (chunk : Bytes) : Option State :=
  if chunk = [] ∨ s.closed = some .endOfStream then none
  else if s.closed.isSome then some s
  else some { s with buffer := s.buffer ++ chunk }

/-- The turn that reads no byte: both loops are stopped, whatever the pipe still holds. -/
def State.endOfStream (s : State) : Option State :=
  if s.closed.isSome then none else some { s with closed := some .endOfStream }

/-- One turn of `ProcessReceivePipeAsync`; a reader waits for bytes it has not examined. -/
def State.read (s : State) : Option State :=
  if s.closed.isSome ∨ s.buffer.length ≤ s.examined then none
  else if maxInboundRequestLength < s.buffer.length then some { s with closed := some .length }
  else
    match processBuffer handler (s.buffer.length + 1) s.session s.buffer with
    | (session, _, true) => some { s with session := session, closed := some .request }
    | (session, buffer, false) =>
      some { s with session := session, buffer := buffer, examined := buffer.length }

/-- One step. -/
def step (s : State) : Op → Option State
  | .receive chunk => s.receive chunk
  | .read => s.read handler
  | .endOfStream => s.endOfStream

/-- The bytes that were sent. -/
def stream (ops : List Op) : Bytes :=
  ops.flatMap fun
    | .receive chunk => chunk
    | .read | .endOfStream => []

/-- The reader has seen everything, or has given up. -/
def State.CaughtUp (s : State) : Prop := s.closed.isSome ∨ s.buffer.length ≤ s.examined

section Expected

/-- The lines of a stream that precede the first one that is too long. -/
def shortLines (bytes : Bytes) : List Bytes :=
  (split isNewline bytes).1.takeWhile fun line => line.length ≤ maxInboundRequestLength

/-- Some line, terminated or not, is too long. -/
def HasLongLine (bytes : Bytes) : Prop :=
  ∃ line ∈ (split isNewline bytes).1 ++ [(split isNewline bytes).2],
    maxInboundRequestLength < line.length

/-- Lines are processed until one throws. -/
def processLines : Session → List Bytes → Session × Bool
  | session, [] => (session, false)
  | session, line :: lines =>
    match processLine handler session line with
    | (session, true) => (session, true)
    | (session, false) => processLines session lines

/-- What was dispatched, and whether the connection was closed for length, is as the stream
says. -/
def Framed (expectingProxyHeader : Bool) (bytes : Bytes) (s : State) : Prop :=
  let expected := processLines handler (.initial expectingProxyHeader) (shortLines bytes)
  s.session = expected.1 ∧
    (s.closed = some .length ↔ expected.2 = false ∧ HasLongLine bytes)

/-- A read that finds too much finds a line that is too long, and the stream ends with nothing
left to dispatch or to refuse. -/
def LongLineFirst (s : State) : Op → Prop
  | .receive _ => True
  | .read => maxInboundRequestLength < s.buffer.length →
      maxInboundRequestLength < (firstLine isNewline s.buffer).length
  | .endOfStream => (split isNewline s.buffer).1 = [] ∧
      s.buffer.length ≤ maxInboundRequestLength

instance (s : State) : (op : Op) → Decidable (LongLineFirst s op)
  | .receive _ => inferInstanceAs (Decidable True)
  | .read => inferInstanceAs (Decidable (_ → _))
  | .endOfStream => inferInstanceAs (Decidable (_ ∧ _))

end Expected

variable {handler}

section Lines

/-- How many lines a session has taken. -/
private def Session.taken (session : Session) : Nat :=
  session.dispatched.length + if session.expectingProxyHeader then 0 else 1

theorem taken_lt_processLine (session : Session) (line : Bytes) :
    session.taken < (processLine handler session line).1.taken := by
  unfold processLine
  split
  · rename_i hexpecting
    dsimp only
    split
    · simp [Session.taken, hexpecting]
    · simp only [Session.taken, processRequest, hexpecting, List.length_append,
        List.length_singleton, if_true, Bool.false_eq_true, if_false]
      omega
    · simp [Session.taken, hexpecting]
  · rename_i hexpecting
    simp [Session.taken, processRequest, hexpecting]

theorem taken_le_processLines (session : Session) (lines : List Bytes) :
    session.taken ≤ (processLines handler session lines).1.taken := by
  induction lines generalizing session with
  | nil => exact le_refl _
  | cons line lines ih =>
    have hline := @taken_lt_processLine handler session line
    simp only [processLines]
    cases hprocess : processLine handler session line with
    | mk next threw =>
      rw [hprocess] at hline
      cases threw with
      | true => exact hline.le
      | false => exact hline.le.trans (ih next)

/-- A session that processes a line is another session. -/
theorem processLines_ne (session : Session) (line : Bytes) (lines : List Bytes) :
    (processLines handler session (line :: lines)).1 ≠ session := by
  intro heq
  have hline := @taken_lt_processLine handler session line
  simp only [processLines] at heq
  cases hprocess : processLine handler session line with
  | mk next threw =>
    rw [hprocess] at hline heq
    cases threw with
    | true =>
      subst heq
      exact hline.false
    | false =>
      have hle := @taken_le_processLines handler next lines
      rw [heq] at hle
      exact absurd hline hle.not_gt

/-- Lines are processed one part after the other. -/
theorem processLines_append {session next : Session} {done : List Bytes}
    (h : processLines handler session done = (next, false)) (lines : List Bytes) :
    processLines handler session (done ++ lines) = processLines handler next lines := by
  induction done generalizing session with
  | nil =>
    cases h
    rfl
  | cons line done ih =>
    simp only [processLines, List.cons_append] at h ⊢
    cases hprocess : processLine handler session line with
    | mk between threw =>
      rw [hprocess] at h
      cases threw with
      | true => cases h
      | false => exact ih h

/-- A throw ends the processing. -/
theorem processLines_append_of_throws {session next : Session} {done : List Bytes}
    (h : processLines handler session done = (next, true)) (lines : List Bytes) :
    processLines handler session (done ++ lines) = (next, true) := by
  induction done generalizing session with
  | nil => cases h
  | cons line done ih =>
    simp only [processLines, List.cons_append] at h ⊢
    cases hprocess : processLine handler session line with
    | mk between threw =>
      rw [hprocess] at h
      cases threw with
      | true => exact h
      | false => exact ih h

end Lines

section Buffer

/-- The loop over a buffer processes its lines, and leaves what no newline ends. -/
theorem processBuffer_spec {fuel : Nat} {session : Session} {buffer : Bytes}
    (hfuel : buffer.length < fuel) :
    let r := processLines handler session (split isNewline buffer).1
    (processBuffer handler fuel session buffer).1 = r.1 ∧
      (processBuffer handler fuel session buffer).2.2 = r.2 ∧
      (r.2 = false →
        (processBuffer handler fuel session buffer).2.1 = (split isNewline buffer).2) := by
  induction fuel generalizing session buffer with
  | zero => omega
  | succ fuel ih =>
    cases hposition : buffer.findIdx? isNewline with
    | none =>
      have hsplit := split_of_forall (List.findIdx?_eq_none_iff.mp hposition)
      simp [processBuffer, hposition, hsplit, processLines]
    | some position =>
      obtain ⟨hlt, hend, hbefore⟩ := List.findIdx?_eq_some_iff_getElem.mp hposition
      have hline : ∀ b ∈ buffer.take position, isNewline b = false := by
        intro b hb
        obtain ⟨i, hi, rfl⟩ := List.mem_iff_getElem.mp hb
        have hi' : i < position := by simp at hi; omega
        simpa using hbefore i hi'
      have hbuffer : buffer = buffer.take position ++ buffer[position] ::
          buffer.drop (position + 1) := by
        rw [← List.drop_eq_getElem_cons, List.take_append_drop]
      have hsplit := split_line hline hend (buffer.drop (position + 1))
      rw [← hbuffer] at hsplit
      simp only [processBuffer, hposition, hsplit, processLines]
      cases hprocess : processLine handler session (buffer.take position) with
      | mk next threw =>
        cases threw with
        | true => simp
        | false => exact ih (by simp; omega)

end Buffer

section Stream

variable {expectingProxyHeader : Bool} {bytes : Bytes} {s s' : State}

/-- What was received so far is what was processed, and then what is buffered. -/
structure Open (handler : Handler) (expectingProxyHeader : Bool) (bytes : Bytes) (s : State) :
    Prop where
  isOpen : s.closed = none
  processed : ∃ done : List Bytes,
    split isNewline bytes = (done ++ (split isNewline s.buffer).1, (split isNewline s.buffer).2) ∧
      processLines handler (.initial expectingProxyHeader) done = (s.session, false) ∧
      ∀ line ∈ done, line.length ≤ maxInboundRequestLength
  examined : s.buffer.length ≤ s.examined →
    (split isNewline s.buffer).1 = [] ∧ s.buffer.length ≤ maxInboundRequestLength
  unexamined : s.examined ≤ s.buffer.length

theorem open_initial : Open handler expectingProxyHeader [] (.initial expectingProxyHeader) where
  isOpen := rfl
  processed := ⟨[], rfl, rfl, by simp⟩
  examined _ := ⟨rfl, Nat.zero_le _⟩
  unexamined := le_refl _

/-- Lines that are all short are all expected. -/
theorem takeWhile_short {done : List Bytes} (lines : List Bytes)
    (h : ∀ line ∈ done, line.length ≤ maxInboundRequestLength) :
    (done ++ lines).takeWhile (fun line => line.length ≤ maxInboundRequestLength) =
      done ++ lines.takeWhile fun line => line.length ≤ maxInboundRequestLength :=
  List.takeWhile_append_of_pos fun line hline => decide_eq_true (h line hline)

theorem shortLines_of_lines_eq_nil (h : (split isNewline bytes).1 = []) :
    shortLines bytes = [] := by
  rw [shortLines, h, List.takeWhile_nil]

theorem hasLongLine_of_lines_eq_nil (h : (split isNewline bytes).1 = []) :
    HasLongLine bytes ↔ maxInboundRequestLength < bytes.length := by
  simp [HasLongLine, split_eq_rest h]

/-- Nothing precedes a first line that is too long. -/
theorem long_firstLine (h : maxInboundRequestLength < (firstLine isNewline bytes).length) :
    shortLines bytes = [] ∧ HasLongLine bytes := by
  have hline := @not_isEnd_of_mem_firstLine _ isNewline bytes
  rcases @firstLine_cases _ isNewline bytes with hall | ⟨e, rest, he, hbytes⟩
  · rw [hall] at hline h
    have hlines : (split isNewline bytes).1 = [] := by rw [split_of_forall hline]
    exact ⟨shortLines_of_lines_eq_nil hlines, (hasLongLine_of_lines_eq_nil hlines).mpr h⟩
  · have hsplit := split_line hline he rest
    rw [← hbytes] at hsplit
    constructor
    · rw [shortLines, hsplit, List.takeWhile_cons_of_neg (by simpa using h)]
    · exact ⟨_, by rw [hsplit]; exact List.mem_cons_self, h⟩

/-- A first line that is short and terminated is expected. -/
theorem short_firstLine (hlong : maxInboundRequestLength < bytes.length)
    (h : ¬ maxInboundRequestLength < (firstLine isNewline bytes).length) (more : Bytes) :
    ∃ line lines, shortLines (bytes ++ more) = line :: lines := by
  rcases @firstLine_cases _ isNewline bytes with hall | ⟨e, rest, he, hbytes⟩
  · rw [hall] at h
    exact absurd hlong h
  · have hsplit := split_line (@not_isEnd_of_mem_firstLine _ isNewline bytes) he
      (rest ++ more)
    rw [← List.cons_append, ← List.append_assoc, ← hbytes] at hsplit
    exact ⟨firstLine isNewline bytes, _, by
      rw [shortLines, hsplit, List.takeWhile_cons_of_pos (by simpa using h)]⟩

/-- The lines before the buffer are expected, and whatever short lines follow them. -/
theorem Open.expected (h : Open handler expectingProxyHeader bytes s) (more : Bytes) :
    processLines handler (.initial expectingProxyHeader) (shortLines (bytes ++ more)) =
      processLines handler s.session (shortLines (s.buffer ++ more)) := by
  obtain ⟨done, hsplit, hdone, hshort⟩ := h.processed
  have hlines : (split isNewline (bytes ++ more)).1 =
      done ++ (split isNewline (s.buffer ++ more)).1 := by
    rw [split_append bytes, split_append s.buffer, hsplit, List.append_assoc]
  rw [shortLines, hlines, takeWhile_short _ hshort, processLines_append hdone]
  rfl

/-- A line that is too long is buffered, or has not been received. -/
theorem Open.hasLongLine (h : Open handler expectingProxyHeader bytes s) (more : Bytes) :
    HasLongLine (bytes ++ more) ↔ HasLongLine (s.buffer ++ more) := by
  obtain ⟨done, hsplit, _, hshort⟩ := h.processed
  have hsplits : split isNewline (bytes ++ more) =
      (done ++ (split isNewline (s.buffer ++ more)).1, (split isNewline (s.buffer ++ more)).2) := by
    rw [split_append bytes, split_append s.buffer, hsplit, List.append_assoc]
  simp only [HasLongLine, hsplits, List.append_assoc]
  constructor
  · rintro ⟨line, hline, hlong⟩
    rcases List.mem_append.mp hline with hdone | hline
    · exact absurd hlong (hshort line hdone).not_gt
    · exact ⟨line, hline, hlong⟩
  · rintro ⟨line, hline, hlong⟩
    exact ⟨line, List.mem_append_right _ hline, hlong⟩

/-- The stream and the buffer grow together. -/
theorem Open.receive (h : Open handler expectingProxyHeader bytes s) {chunk : Bytes}
    (hchunk : chunk ≠ []) :
    Open handler expectingProxyHeader (bytes ++ chunk) { s with buffer := s.buffer ++ chunk } := by
  obtain ⟨done, hsplit, hdone, hshort⟩ := h.processed
  have hpos := List.length_pos_iff.mpr hchunk
  have hunexamined := h.unexamined
  refine ⟨h.isOpen, ⟨done, ?_, hdone, hshort⟩, fun hexamined => ?_, ?_⟩
  · rw [split_append bytes, split_append s.buffer, hsplit, List.append_assoc]
  · simp only [List.length_append] at hexamined
    omega
  · simp only [List.length_append]
    omega

/-- A reader that has seen everything has dispatched what the stream says. -/
theorem Open.framed (h : Open handler expectingProxyHeader bytes s)
    (hexamined : s.buffer.length ≤ s.examined) : Framed handler expectingProxyHeader bytes s := by
  obtain ⟨hlines, hshort⟩ := h.examined hexamined
  have hexpected := h.expected []
  have hlong := h.hasLongLine []
  rw [List.append_nil, List.append_nil] at hexpected hlong
  rw [shortLines_of_lines_eq_nil hlines] at hexpected
  rw [hasLongLine_of_lines_eq_nil hlines] at hlong
  rw [Framed, hexpected, hlong, h.isOpen]
  simp [processLines, hshort]

/-- A connection that is closed for length is closed for a line, if that line is the first one. -/
theorem Open.framed_length (h : Open handler expectingProxyHeader bytes s)
    (hlong : maxInboundRequestLength < s.buffer.length) (more : Bytes) :
    Framed handler expectingProxyHeader (bytes ++ more) { s with closed := some .length } ↔
      maxInboundRequestLength < (firstLine isNewline s.buffer).length := by
  rw [Framed, h.expected, h.hasLongLine]
  constructor
  · rintro ⟨hsession, -⟩
    by_contra hshort
    obtain ⟨line, lines, hlines⟩ := short_firstLine hlong hshort more
    rw [hlines] at hsession
    exact processLines_ne _ _ _ hsession.symm
  · intro hfirst
    have hmore := hfirst.trans_le (length_firstLine_le_append s.buffer more)
    obtain ⟨hnone, hhas⟩ := long_firstLine hmore
    simp [hnone, processLines, hhas]

/-- A connection that ends is as the stream says if nothing is left of the stream. -/
theorem Open.framed_endOfStream (h : Open handler expectingProxyHeader bytes s) :
    Framed handler expectingProxyHeader bytes { s with closed := some .endOfStream } ↔
      (split isNewline s.buffer).1 = [] ∧ s.buffer.length ≤ maxInboundRequestLength := by
  have hexpected := h.expected []
  have hlong := h.hasLongLine []
  rw [List.append_nil, List.append_nil] at hexpected hlong
  rw [Framed, hexpected, hlong]
  constructor
  · rintro ⟨hsession, hclosed⟩
    cases hlines : shortLines s.buffer with
    | cons line lines =>
      rw [hlines] at hsession
      exact absurd hsession.symm (processLines_ne _ _ _)
    | nil =>
      have hnot : ¬ HasLongLine s.buffer := by simpa [hlines, processLines] using hclosed
      have hnil : (split isNewline s.buffer).1 = [] := by
        cases hsplit : (split isNewline s.buffer).1 with
        | nil => rfl
        | cons line lines =>
          rw [shortLines, hsplit] at hlines
          refine absurd ⟨line, by simp [hsplit], ?_⟩ hnot
          by_contra hshort
          rw [List.takeWhile_cons_of_pos (by simpa using hshort)] at hlines
          cases hlines
      exact ⟨hnil, by simpa [hasLongLine_of_lines_eq_nil hnil] using hnot⟩
  · rintro ⟨hlines, hshort⟩
    rw [shortLines_of_lines_eq_nil hlines, hasLongLine_of_lines_eq_nil hlines]
    simp [processLines, hshort]

theorem read_of_short (hopen : s.closed = none)
    (hshort : s.buffer.length ≤ maxInboundRequestLength)
    (hunread : s.examined < s.buffer.length) :
    s.read handler =
      match processBuffer handler (s.buffer.length + 1) s.session s.buffer with
      | (session, _, true) => some { s with session := session, closed := some .request }
      | (session, buffer, false) =>
        some { s with session := session, buffer := buffer, examined := buffer.length } := by
  rw [State.read, if_neg (by simp [hopen, hunread]), if_neg hshort.not_gt]

/-- A read that processes what is buffered keeps the connection open, or closes it on the
request that the stream says. -/
theorem Open.read (h : Open handler expectingProxyHeader bytes s)
    (hshort : s.buffer.length ≤ maxInboundRequestLength)
    (hunread : s.examined < s.buffer.length) :
    ∃ s', s.read handler = some s' ∧
      (Open handler expectingProxyHeader bytes s' ∨
        s'.closed = some .request ∧
          ∀ more, Framed handler expectingProxyHeader (bytes ++ more) s') := by
  obtain ⟨hlines, hrest⟩ := @length_le_of_mem_split _ isNewline s.buffer
  have hall : ∀ line ∈ (split isNewline s.buffer).1, line.length ≤ maxInboundRequestLength :=
    fun line hline => (hlines line hline).trans hshort
  obtain ⟨hsession, hthrew, hleft⟩ := @processBuffer_spec handler _ s.session s.buffer
    (Nat.lt_succ_self _)
  have hread := @read_of_short handler s h.isOpen hshort hunread
  cases hprocess : processBuffer handler (s.buffer.length + 1) s.session s.buffer with
  | mk session left =>
    obtain ⟨buffer, threw⟩ := left
    rw [hprocess] at hread hsession hthrew hleft
    cases hlast : processLines handler s.session (split isNewline s.buffer).1 with
    | mk next threwLast =>
      rw [hlast] at hsession hthrew hleft
      dsimp only at hsession hthrew hleft
      subst hsession hthrew
      cases threw with
      | true =>
        refine ⟨_, hread, .inr ⟨rfl, fun more => ?_⟩⟩
        have hexpected : processLines handler s.session (shortLines (s.buffer ++ more)) =
            (session, true) := by
          rw [shortLines, split_append, takeWhile_short _ hall]
          exact processLines_append_of_throws hlast _
        simp [Framed, h.expected, hexpected]
      | false =>
        have hbuffer := hleft rfl
        subst hbuffer
        have hkept := split_of_forall (@not_isEnd_of_mem_rest _ isNewline s.buffer)
        obtain ⟨done, hsplit, hdone, hdoneShort⟩ := h.processed
        refine ⟨_, hread, .inl ⟨h.isOpen, ⟨done ++ (split isNewline s.buffer).1, ?_, ?_, ?_⟩,
          fun _ => ⟨by rw [hkept], hrest.trans hshort⟩, le_refl _⟩⟩
        · rw [hkept, hsplit, List.append_nil]
        · rw [processLines_append hdone, hlast]
        · intro line hline
          rcases List.mem_append.mp hline with hline | hline
          · exact hdoneShort line hline
          · exact hall line hline

end Stream

section Runs

variable {expectingProxyHeader : Bool} {s s' : State}

/-- A closed connection stays as it is. -/
theorem run_closed (hclosed : s.closed.isSome) {ops : List Op}
    (hrun : run (step handler) s ops = some s') :
    s' = s ∧ Meets (step handler) LongLineFirst s ops ∧
      (s.closed = some .endOfStream → stream ops = []) := by
  induction ops with
  | nil =>
    cases hrun
    exact ⟨rfl, trivial, fun _ => rfl⟩
  | cons op ops ih =>
    rw [run_cons, Option.bind_eq_some_iff] at hrun
    obtain ⟨t, ht, hrun⟩ := hrun
    cases op with
    | read => simp [step, State.read, hclosed] at ht
    | endOfStream => simp [step, State.endOfStream, hclosed] at ht
    | receive chunk =>
      have hstay : t = s ∧ ¬ s.closed = some .endOfStream := by
        simp only [step, State.receive, hclosed, if_true] at ht
        split at ht
        · cases ht
        · rename_i hopen
          exact ⟨(Option.some.inj ht).symm, fun h => hopen (.inr h)⟩
      obtain ⟨rfl, hnotEnd⟩ := hstay
      obtain ⟨hsame, hmeets, -⟩ := ih hrun
      refine ⟨hsame, ⟨trivial, fun u hu => ?_⟩, fun h => absurd h hnotEnd⟩
      rw [ht] at hu
      cases hu
      exact hmeets

/-- From an open connection on, what was dispatched is as the stream says if no short line was
in front of what is too long, and nothing was left when the stream ended. -/
theorem run_framed {bytes : Bytes} (hopen : Open handler expectingProxyHeader bytes s)
    {ops : List Op} (hrun : run (step handler) s ops = some s') (hcaught : s'.CaughtUp) :
    Framed handler expectingProxyHeader (bytes ++ stream ops) s' ↔
      Meets (step handler) LongLineFirst s ops := by
  induction ops generalizing s bytes with
  | nil =>
    obtain rfl : s = s' := Option.some.inj hrun
    have hexamined : s.buffer.length ≤ s.examined := by
      simpa [State.CaughtUp, hopen.isOpen] using hcaught
    simpa [stream, Meets] using hopen.framed hexamined
  | cons op ops ih =>
    rw [run_cons, Option.bind_eq_some_iff] at hrun
    obtain ⟨t, ht, hrun⟩ := hrun
    have hmeets : Meets (step handler) LongLineFirst s (op :: ops) ↔
        LongLineFirst s op ∧ Meets (step handler) LongLineFirst t ops := by
      simp [Meets, ht]
    rw [hmeets]
    cases op with
    | receive chunk =>
      have hstep : chunk ≠ [] ∧ t = { s with buffer := s.buffer ++ chunk } := by
        simp only [step, State.receive, hopen.isOpen] at ht
        split at ht
        · cases ht
        · rename_i hchunk
          exact ⟨fun h => hchunk (.inl h), by simpa [hopen.isOpen] using ht.symm⟩
      obtain ⟨hchunk, rfl⟩ := hstep
      have hrest := ih (hopen.receive hchunk) hrun
      rw [List.append_assoc] at hrest
      simpa [stream, LongLineFirst] using hrest
    | endOfStream =>
      have hstep : t = { s with closed := some .endOfStream } := by
        simpa [step, State.endOfStream, hopen.isOpen] using ht.symm
      subst hstep
      obtain ⟨rfl, hrest, hnothing⟩ := run_closed rfl hrun
      have hframed := hopen.framed_endOfStream
      have hstream : stream (Op.endOfStream :: ops) = [] := by
        simpa [stream] using hnothing rfl
      rw [hstream, List.append_nil, hframed, and_iff_left hrest]
      rfl
    | read =>
      have hunread : s.examined < s.buffer.length := by
        by_contra hseen
        simp [step, State.read, hopen.isOpen, not_lt.mp hseen] at ht
      by_cases hlong : maxInboundRequestLength < s.buffer.length
      · have hstep : t = { s with closed := some .length } := by
          simpa [step, State.read, hopen.isOpen, hunread, hlong] using ht.symm
        subst hstep
        obtain ⟨rfl, hrest, -⟩ := run_closed rfl hrun
        have hstream : stream (Op.read :: ops) = stream ops := rfl
        rw [hstream, hopen.framed_length hlong, and_iff_left hrest]
        simp [LongLineFirst, hlong]
      · obtain ⟨u, hread, hcases⟩ := hopen.read (not_lt.mp hlong) hunread
        have htu : t = u := Option.some.inj (ht.symm.trans hread)
        subst htu
        have hok : LongLineFirst s .read := fun h => absurd h hlong
        rw [and_iff_right hok]
        rcases hcases with hstill | ⟨hclosed, hframed⟩
        · exact ih hstill hrun
        · obtain ⟨rfl, hrest, -⟩ := run_closed (by simp [hclosed]) hrun
          exact iff_of_true (hframed _) hrest

/-- What a connection dispatches is a function of the stream, if no read finds too much although
its first line is short, and the stream does not end before it is read. -/
theorem framed_iff {ops : List Op}
    (hrun : run (step handler) (.initial expectingProxyHeader) ops = some s')
    (hcaught : s'.CaughtUp) :
    Framed handler expectingProxyHeader (stream ops) s' ↔
      Meets (step handler) LongLineFirst (.initial expectingProxyHeader) ops :=
  run_framed open_initial hrun hcaught

/-- No proxy is configured, and every request is handled. -/
private def plainHandler : Handler where
  mandatory := false
  trustedPeer := false
  readsAddresses _ := false
  handles _ := true

/-- A line that comes in two chunks is dispatched once. -/
theorem framed_iff_two_chunks :
    run (step plainHandler) (.initial false) [.receive [123], .read, .receive [125, 10], .read] =
        some ⟨[], 0, ⟨false, [[123, 125]]⟩, none⟩ ∧
      Framed plainHandler false [123, 125, 10] ⟨[], 0, ⟨false, [[123, 125]]⟩, none⟩ :=
  ⟨by decide, (@framed_iff plainHandler false ⟨[], 0, ⟨false, [[123, 125]]⟩, none⟩
    [.receive [123], .read, .receive [125, 10], .read] (by decide) (.inr (by decide))).mpr
    (by decide)⟩

/-- Two requests, received before the first of them is read. -/
def pipelined (request : Bytes) : List Op :=
  [.receive (request ++ [10]), .receive (request ++ [10]), .read]

/-- Requests that fill more than half of the limit cannot be pipelined. -/
theorem run_pipelined {request : Bytes} (hline : ∀ b ∈ request, isNewline b = false)
    (hshort : request.length ≤ maxInboundRequestLength)
    (hlong : maxInboundRequestLength < 2 * (request.length + 1)) :
    ∃ s', run (step handler) (.initial false) (pipelined request) = some s' ∧
      s'.closed = some .length ∧ s'.session.dispatched = [] ∧
      split isNewline (stream (pipelined request)) = ([request, request], []) ∧
      ¬ Framed handler false (stream (pipelined request)) s' := by
  have hchunk : request ++ [10] ≠ [] := by simp
  have hopen := ((@open_initial handler false).receive hchunk).receive hchunk
  simp only [State.initial, List.nil_append] at hopen
  set s : State := ⟨request ++ [10] ++ (request ++ [10]), 0, .initial false, none⟩
  have hbuffered : maxInboundRequestLength < s.buffer.length := by
    simp only [s, List.length_append, List.length_singleton]
    omega
  have hstream : stream (pipelined request) = request ++ [10] ++ (request ++ [10]) := by
    simp [stream, pipelined]
  have hfirstLine : firstLine isNewline s.buffer = request := by
    simp only [firstLine, s, List.append_assoc]
    rw [List.takeWhile_append_of_pos (by simpa using hline)]
    simp [isNewline]
  refine ⟨{ s with closed := some .length }, ?_, rfl, rfl, ?_, ?_⟩
  · have hread : s.read handler = some { s with closed := some .length } := by
      rw [State.read, if_neg (by simp [s]), if_pos hbuffered]
    simpa [pipelined, step, State.receive, State.initial, s] using hread
  · rw [hstream, List.append_assoc, List.singleton_append, split_line hline rfl,
      split_line hline rfl]
    rfl
  · have hframed := hopen.framed_length hbuffered []
    rw [List.append_nil, hfirstLine] at hframed
    rw [hstream, hframed]
    exact hshort.not_gt

/-- An empty object, with blanks between its braces. -/
def paddedRequest (blanks : Nat) : Bytes := 123 :: (List.replicate blanks 32 ++ [125])

/-- No line is too long, and the connection is closed for length with nothing dispatched. -/
theorem pipelined_not_framed :
    ∃ s', run (step plainHandler) (.initial false) (pipelined (paddedRequest 20000)) = some s' ∧
      s'.closed = some .length ∧ s'.session.dispatched = [] ∧
      split isNewline (stream (pipelined (paddedRequest 20000))) =
        ([paddedRequest 20000, paddedRequest 20000], []) ∧
      ¬ Framed plainHandler false (stream (pipelined (paddedRequest 20000))) s' := by
  have hlength : (paddedRequest 20000).length = 20002 := by
    rw [paddedRequest, List.length_cons, List.length_append, List.length_replicate,
      List.length_singleton]
  refine run_pipelined ?_ ?_ ?_
  · intro b hb
    rcases List.mem_cons.mp hb with rfl | hb
    · rfl
    rcases List.mem_append.mp hb with hb | hb
    · rw [List.eq_of_mem_replicate hb]
      rfl
    · rw [List.mem_singleton.mp hb]
      rfl
  · rw [hlength]
    decide
  · rw [hlength]
    decide

end Runs

end HashStorm.Stratum.Connection
