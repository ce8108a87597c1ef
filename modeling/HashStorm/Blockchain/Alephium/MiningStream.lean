import HashStorm.Blockchain.Alephium.Job
import HashStorm.Blockchain.JobIds
import HashStorm.Lib.Framing

/-!
# The stream of Alephium templates

`AlephiumJobManager` reads templates from a socket of the node. What arrives is
appended to a buffer; as long as the buffer holds the bytes that the first four
announce, a message is read and skipped. A message of another version or type
stays in the buffer for ever, and an exception closes the connection. Whatever
the node sends of well-formed messages is published in full and in order, however
the socket cuts it.
-/

namespace HashStorm.Alephium

open Stratum LittleEndian Blockchain.JobManagerBase Framing

/-- What closes a connection. -/
inductive StreamFailure where
  | endOfStream
  | argument
  | argumentOutOfRange
  | daemon
  deriving DecidableEq, Repr

/-- `AlephiumBlockTemplate`, without the time at which it was read. -/
structure AlephiumBlockTemplate extends BlockTemplate where
  txsBlob : Text
  chainIndex : Int
  deriving DecidableEq, Repr

/-- The node: the version of its protocol, and the answers to `GetBlockflowChainInfoAsync`, which
may be an exception; the calls are numbered. -/
structure Node where
  socketMiningProtocol : Nat
  currentHeight : Nat → Int → Int → Except StreamFailure UInt64

/-- The counter of the job ids, and the calls that were made. -/
structure Counters where
  jobId : Int32
  calls : Nat
  deriving DecidableEq, Repr

/-- What a `BinaryReader` has before it. -/
structure Reading where
  bytes : List UInt8
  counters : Counters
  deriving DecidableEq, Repr

/-- Reads from the buffer, or throws; the counters stay as they are then. -/
abbrev ReadM := StateT Reading (Except (StreamFailure × Counters))

/-- An exception. -/
def fail {α : Type} (failure : StreamFailure) : ReadM α := fun r => .error (failure, r.counters)

section Reading

/-- `MessageHeaderSize`. -/
def messageHeaderSize : UInt32 := 4

/-- `MiningProtocolVersion`. -/
def miningProtocolVersion : UInt8 := 1

/-- `JobsMessageType`. -/
def jobsMessageType : UInt8 := 0

/-- `ReadBytes`: what there is, if it is less. -/
def readBytes (count : Nat) : ReadM (List UInt8) := fun r =>
  .ok (r.bytes.take count, { r with bytes := r.bytes.drop count })

/-- `ReadByte`. -/
def readByte : ReadM UInt8 := fun r =>
  match r.bytes with
  | [] => fail .endOfStream r
  | b :: bytes => .ok (b, { r with bytes := bytes })

/-- `ReadBigEndianUInt32`. -/
def readBigEndianUInt32 : ReadM UInt32 := do
  let tmpByte ← readBytes 4
  if tmpByte.length < 4 then fail .argument
  else return UInt32.ofNat (ofLE tmpByte.reverse)

/-- Bytes behind their number, which is cast to an `int`. -/
def readBlob : ReadM (List UInt8) := do
  let length ← readBigEndianUInt32
  if 2 ^ 31 ≤ length.toNat then fail .argumentOutOfRange
  else readBytes length.toNat

variable (node : Node)

/-- The height of a template, if the message does not have it. -/
def queryHeight (fromGroup toGroup : Int) : ReadM UInt64 := fun r =>
  if node.socketMiningProtocol = 0 then
    let counters := { r.counters with calls := r.counters.calls + 1 }
    match node.currentHeight r.counters.calls fromGroup toGroup with
    | .error e => .error (e, counters)
    | .ok height => .ok (height + 1, { r with counters := counters })
  else .ok (0, r)

/-- The height of a template, if the message has it. -/
def readHeight (height : UInt64) : ReadM UInt64 :=
  if node.socketMiningProtocol > 0 then
    (fun height => UInt64.ofNat height.toNat) <$> readBigEndianUInt32
  else pure height

/-- `NextJobId("X")`. -/
def takeJobId : ReadM Text := fun r =>
  let (jobId, id) := nextJobId .upperHex r.counters.jobId
  .ok (id, { r with counters := { r.counters with jobId := jobId } })

/-- A template of the fields that were read. -/
def template (fromGroup toGroup : UInt32) (headerBlob txsBlob targetBlob : List UInt8)
    (height : UInt64) (jobId : Text) : AlephiumBlockTemplate where
  jobId := some jobId
  height := height
  fromGroup := fromGroup.toInt32.toInt
  toGroup := toGroup.toInt32.toInt
  headerBlob := toHexString headerBlob
  txsBlob := toHexString txsBlob
  targetBlob := toHexString targetBlob
  chainIndex := (fromGroup.toInt32 * Int32.ofNat groupSize + toGroup.toInt32).toInt

/-- One round of the loop over the jobs of a message. -/
def readTemplate : ReadM AlephiumBlockTemplate := do
  let fromGroup ← readBigEndianUInt32
  let toGroup ← readBigEndianUInt32
  let height ← queryHeight node fromGroup.toInt32.toInt toGroup.toInt32.toInt
  let headerBlob ← readBlob
  let txsBlob ← readBlob
  let targetBlob ← readBlob
  let height ← readHeight node height
  let jobId ← takeJobId
  return template fromGroup toGroup headerBlob txsBlob targetBlob height jobId

/-- The loop over the jobs of a message. -/
def readTemplates : Nat → ReadM (List AlephiumBlockTemplate)
  | 0 => pure []
  | jobSize + 1 => do
    let blockTemplate ← readTemplate node
    let blockTemplates ← readTemplates jobSize
    return blockTemplate :: blockTemplates

/-- The version of a message; older nodes do not send it. -/
def readVersion : ReadM UInt8 :=
  if node.socketMiningProtocol > 0 then readByte else pure miningProtocolVersion

/-- A message behind its length, if it is one of jobs. -/
def readMessage : ReadM (Option (List AlephiumBlockTemplate)) := do
  let messageVersion ← readVersion node
  let messageType ← readByte
  if messageVersion = miningProtocolVersion ∧ messageType = jobsMessageType then
    let jobSize ← readBigEndianUInt32
    some <$> readTemplates node jobSize.toNat
  else return none

/-- One round of the loop over the buffer; the size of the message is a `uint`. -/
def look : Look UInt8 (List AlephiumBlockTemplate) Counters StreamFailure := fun counters buffer =>
  if buffer.length < messageHeaderSize.toNat then .ok none
  else
    let messageLength := UInt32.ofNat (ofLE (buffer.take 4).reverse)
    let size := (messageLength + messageHeaderSize).toNat
    if size ≤ buffer.length then
      match (readMessage node).run ⟨buffer.drop 4, counters⟩ with
      | .error failure => .error failure
      | .ok (none, _) => .ok none
      | .ok (some blockTemplates, r) => .ok (some (blockTemplates, buffer.drop size, r.counters))
    else .ok none

/-- What `AlephiumSubscribeStratumApiSocketClient` publishes of a connection, also before an
exception; there is no result if the loop over the buffer does not end. -/
def alephiumSubscribeStratumApiSocketClient (counters : Counters) (chunks : List (List UInt8)) :
    Option (Received UInt8 (List AlephiumBlockTemplate) Counters StreamFailure) :=
  receiveAll (look node) (fun buffer => buffer.length + 1) ⟨counters, [], []⟩ chunks

end Reading

section Sending

/-- A job as the node announces it. -/
structure NodeJob where
  fromGroup : UInt32
  toGroup : UInt32
  headerBlob : List UInt8
  txsBlob : List UInt8
  targetBlob : List UInt8
  height : UInt32
  deriving DecidableEq, Repr

/-- A number in big-endian order. -/
def bigEndian (n : UInt32) : List UInt8 := (leBytes 4 n.toNat).reverse

def encodeBlob (blob : List UInt8) : List UInt8 := bigEndian (UInt32.ofNat blob.length) ++ blob

variable (node : Node)

/-- The part of a message that only newer nodes send. -/
def fromNewer (bytes : List UInt8) : List UInt8 :=
  if node.socketMiningProtocol > 0 then bytes else []

def NodeJob.encode (job : NodeJob) : List UInt8 :=
  bigEndian job.fromGroup ++ (bigEndian job.toGroup ++ (encodeBlob job.headerBlob ++
    (encodeBlob job.txsBlob ++ (encodeBlob job.targetBlob ++
      fromNewer node (bigEndian job.height)))))

/-- A message without its length. -/
def encodeBody (jobs : List NodeJob) : List UInt8 :=
  fromNewer node [miningProtocolVersion] ++ ([jobsMessageType] ++
    (bigEndian (UInt32.ofNat jobs.length) ++ jobs.flatMap (NodeJob.encode node)))

def encodeMessage (jobs : List NodeJob) : List UInt8 :=
  bigEndian (UInt32.ofNat (encodeBody node jobs).length) ++ encodeBody node jobs

/-- The length of a message fits an `int`. -/
def Sendable (jobs : List NodeJob) : Prop := (encodeMessage node jobs).length < 2 ^ 31

instance (jobs : List NodeJob) : Decidable (Sendable node jobs) :=
  inferInstanceAs (Decidable (_ < _))

/-- The template that a job is published as, and the counters afterwards. -/
def announced (counters : Counters) (job : NodeJob) : AlephiumBlockTemplate × Counters :=
  let (jobId, id) := nextJobId .upperHex counters.jobId
  let answer := node.currentHeight counters.calls job.fromGroup.toInt32.toInt
    job.toGroup.toInt32.toInt
  let height :=
    if node.socketMiningProtocol = 0 then (answer.toOption.map (· + 1)).getD 0
    else UInt64.ofNat job.height.toNat
  (template job.fromGroup job.toGroup job.headerBlob job.txsBlob job.targetBlob height id,
    ⟨jobId, if node.socketMiningProtocol = 0 then counters.calls + 1 else counters.calls⟩)

/-- The node answers, if it is asked. -/
def Node.Answers : Prop :=
  node.socketMiningProtocol = 0 → ∀ n fromGroup toGroup,
    ∃ height, node.currentHeight n fromGroup toGroup = .ok height

end Sending

section Lengths

variable {node : Node} {jobs : List NodeJob}

@[simp] theorem length_bigEndian (n : UInt32) : (bigEndian n).length = 4 := by
  rw [bigEndian, List.length_reverse, length_leBytes]

/-- A number that fits an `int` is read as it was written. -/
theorem toNat_ofNat_of_int {n : Nat} (h : n < 2 ^ 31) : (UInt32.ofNat n).toNat = n := by
  apply UInt32.toNat_ofNat_of_lt'
  exact h.trans (by decide)

theorem length_encodeMessage :
    (encodeMessage node jobs).length = 4 + (encodeBody node jobs).length := by
  rw [encodeMessage, List.length_append, length_bigEndian]

theorem Sendable.body (h : Sendable node jobs) : (encodeBody node jobs).length + 4 < 2 ^ 31 := by
  rw [Sendable, length_encodeMessage] at h
  omega

theorem length_encode_le (node : Node) {job : NodeJob} (hjob : job ∈ jobs) :
    (job.encode node).length ≤ (encodeBody node jobs).length := by
  have hsublist := List.sublist_flatten_of_mem (List.mem_map_of_mem (f := NodeJob.encode node) hjob)
  have hle := hsublist.length_le
  rw [← List.flatMap_def] at hle
  simp only [encodeBody, List.length_append]
  omega

/-- A job takes more bytes than each of its parts has. -/
theorem blobs_le_encode (node : Node) (job : NodeJob) :
    job.headerBlob.length + job.txsBlob.length + job.targetBlob.length + 1 ≤
      (job.encode node).length := by
  simp only [NodeJob.encode, encodeBlob, List.length_append, length_bigEndian]
  omega

theorem length_jobs_le (node : Node) (jobs : List NodeJob) :
    jobs.length ≤ (encodeBody node jobs).length := by
  have hone : ∀ job ∈ jobs, 1 ≤ (job.encode node).length := fun job _ =>
    (Nat.le_add_left _ _).trans (blobs_le_encode node job)
  have hle : jobs.length ≤ (jobs.flatMap (NodeJob.encode node)).length := by
    induction jobs with
    | nil => rfl
    | cons job jobs ih =>
      obtain ⟨hjob, hjobs⟩ := List.forall_mem_cons.mp hone
      rw [List.flatMap_cons, List.length_append, List.length_cons]
      have := ih hjobs
      omega
  simp only [encodeBody, List.length_append]
  omega

end Lengths

section Takes

variable {α β : Type} {node : Node}

/-- The bytes are read as a value, whatever follows them. -/
def Takes (read : ReadM α) (bytes : List UInt8) (counters : Counters) (a : α)
    (counters' : Counters) : Prop :=
  ∀ rest, read.run ⟨bytes ++ rest, counters⟩ = .ok (a, ⟨rest, counters'⟩)

theorem takes_pure (a : α) (counters : Counters) :
    Takes (pure a) [] counters a counters := fun _ => rfl

theorem Takes.bind {read : ReadM α} {next : α → ReadM β} {bytes bytes' : List UInt8}
    {counters counters' counters'' : Counters} {a : α} {b : β}
    (h : Takes read bytes counters a counters')
    (h' : Takes (next a) bytes' counters' b counters'') :
    Takes (read >>= next) (bytes ++ bytes') counters b counters'' := by
  intro rest
  rw [StateT.run_bind, List.append_assoc, h]
  exact h' rest

theorem Takes.map {read : ReadM α} (f : α → β) {bytes : List UInt8}
    {counters counters' : Counters} {a : α} (h : Takes read bytes counters a counters') :
    Takes (f <$> read) bytes counters (f a) counters' := by
  intro rest
  rw [StateT.run_map, h]
  rfl

/-- A value that is returned after the last reader. -/
theorem Takes.returning {read : ReadM α} {next : α → ReadM β} {bytes : List UInt8}
    {counters counters' counters'' : Counters} {a : α} {b : β}
    (h : Takes read bytes counters a counters') (h' : Takes (next a) [] counters' b counters'') :
    Takes (read >>= next) bytes counters b counters'' := by
  have hbind := h.bind h'
  rwa [List.append_nil] at hbind

theorem takes_bytes (bytes : List UInt8) (counters : Counters) :
    Takes (readBytes bytes.length) bytes counters bytes counters := by
  intro rest
  simp [readBytes, StateT.run]

theorem takes_byte (b : UInt8) (counters : Counters) :
    Takes readByte [b] counters b counters := fun _ => rfl

theorem ofLE_bigEndian (n : UInt32) : UInt32.ofNat (ofLE (bigEndian n).reverse) = n := by
  rw [bigEndian, List.reverse_reverse, ofLE_leBytes n.toNat_lt, UInt32.ofNat_toNat]

theorem takes_uint32 (n : UInt32) (counters : Counters) :
    Takes readBigEndianUInt32 (bigEndian n) counters n counters := by
  have hbytes : Takes (readBytes 4) (bigEndian n) counters (bigEndian n) counters := by
    have htake := takes_bytes (bigEndian n) counters
    rwa [length_bigEndian] at htake
  refine hbytes.returning ?_
  intro rest
  simp only [length_bigEndian, lt_irrefl, if_false, ofLE_bigEndian]
  rfl

theorem takes_blob {blob : List UInt8} (h : blob.length < 2 ^ 31) (counters : Counters) :
    Takes readBlob (encodeBlob blob) counters blob counters := by
  have hlength := toNat_ofNat_of_int h
  refine (takes_uint32 _ counters).bind ?_
  have htake := takes_bytes blob counters
  intro rest
  simp only [hlength, if_neg (Nat.not_le.mpr h)]
  exact htake rest

/-- The height is asked for, or it comes with the message. -/
theorem takes_height (hanswers : node.Answers) (counters : Counters) (fromGroup toGroup : Int) :
    Takes (queryHeight node fromGroup toGroup) [] counters
      (if node.socketMiningProtocol = 0 then
        ((node.currentHeight counters.calls fromGroup toGroup).toOption.map (· + 1)).getD 0 else 0)
      ⟨counters.jobId,
        if node.socketMiningProtocol = 0 then counters.calls + 1 else counters.calls⟩ := by
  intro rest
  by_cases hold : node.socketMiningProtocol = 0
  · obtain ⟨height, hheight⟩ := hanswers hold counters.calls fromGroup toGroup
    simp only [queryHeight, StateT.run, if_pos hold, hheight]
    rfl
  · simp only [queryHeight, StateT.run, if_neg hold]
    rfl

theorem takes_sentHeight (height : UInt64) (sent : UInt32) (counters : Counters) :
    Takes (readHeight node height) (fromNewer node (bigEndian sent)) counters
      (if node.socketMiningProtocol = 0 then height else UInt64.ofNat sent.toNat) counters := by
  by_cases hold : node.socketMiningProtocol = 0
  · simp only [readHeight, fromNewer, hold, lt_irrefl, if_false, if_true]
    exact takes_pure height counters
  · simp only [readHeight, fromNewer, if_pos (Nat.pos_of_ne_zero hold), if_neg hold]
    exact (takes_uint32 sent counters).map _

theorem takes_template (hanswers : node.Answers) {job : NodeJob}
    (hlength : (job.encode node).length < 2 ^ 31) (counters : Counters) :
    Takes (readTemplate node) (job.encode node) counters (announced node counters job).1
      (announced node counters job).2 := by
  have hblobs := blobs_le_encode node job
  have hheader : job.headerBlob.length < 2 ^ 31 := by omega
  have htxs : job.txsBlob.length < 2 ^ 31 := by omega
  have htarget : job.targetBlob.length < 2 ^ 31 := by omega
  refine (takes_uint32 _ _).bind ((takes_uint32 _ _).bind ?_)
  rw [← List.nil_append (encodeBlob job.headerBlob ++ _)]
  refine (takes_height hanswers _ _ _).bind ((takes_blob hheader _).bind ((takes_blob htxs _).bind
    ((takes_blob htarget _).bind ((takes_sentHeight _ _ _).returning ?_))))
  intro rest
  simp only [announced]
  split
  · rename_i hold
    rfl
  · rfl

theorem takes_templates (hanswers : node.Answers) {jobs : List NodeJob}
    (hlengths : ∀ job ∈ jobs, (job.encode node).length < 2 ^ 31) (counters : Counters) :
    Takes (readTemplates node jobs.length) (jobs.flatMap (NodeJob.encode node)) counters
      (readAll (announced node) counters jobs).1 (readAll (announced node) counters jobs).2 := by
  induction jobs generalizing counters with
  | nil => exact takes_pure [] counters
  | cons job jobs ih =>
    obtain ⟨hjob, hjobs⟩ := List.forall_mem_cons.mp hlengths
    rw [List.flatMap_cons]
    exact (takes_template hanswers hjob counters).bind
      ((ih hjobs _).returning (takes_pure _ _))

theorem takes_version (version : UInt8) (counters : Counters) :
    Takes (readVersion node) (fromNewer node [version]) counters
      (if node.socketMiningProtocol > 0 then version else miningProtocolVersion) counters := by
  rw [readVersion, fromNewer]
  split
  · exact takes_byte _ _
  · exact takes_pure _ _

theorem takes_message (hanswers : node.Answers) {jobs : List NodeJob} (h : Sendable node jobs)
    (counters : Counters) :
    Takes (readMessage node) (encodeBody node jobs) counters
      (some (readAll (announced node) counters jobs).1)
      (readAll (announced node) counters jobs).2 := by
  have hbody := h.body
  have hlengths : ∀ job ∈ jobs, (job.encode node).length < 2 ^ 31 := by
    intro job hjob
    have hle := length_encode_le node hjob
    omega
  have hlength : (UInt32.ofNat jobs.length).toNat = jobs.length := by
    have hle := length_jobs_le node jobs
    apply toNat_ofNat_of_int
    omega
  apply (takes_version _ _).bind
  apply (takes_byte _ _).bind
  simp only [ite_self, and_self, if_true]
  apply (takes_uint32 _ _).bind
  rw [hlength]
  exact (takes_templates hanswers hlengths counters).map some

/-- A message of another version or type is not read. -/
theorem takes_other {version type : UInt8}
    (hother : node.socketMiningProtocol > 0 ∧ version ≠ miningProtocolVersion ∨
      type ≠ jobsMessageType) (counters : Counters) :
    Takes (readMessage node) (fromNewer node [version] ++ [type]) counters none counters := by
  apply (takes_version _ _).bind
  apply (takes_byte _ _).returning
  have hnot : ¬((if node.socketMiningProtocol > 0 then version else miningProtocolVersion) =
      miningProtocolVersion ∧ type = jobsMessageType) := by
    rintro ⟨hversion, htype⟩
    rcases hother with ⟨hnewer, hne⟩ | hne
    · rw [if_pos hnewer] at hversion
      exact hne hversion
    · exact hne htype
  rw [if_neg hnot]
  exact takes_pure _ _

end Takes

section Stream

variable {node : Node} {counters : Counters}

/-- The length that a message begins with is that of what follows, and a header is left over. -/
theorem size_of_sendable {jobs : List NodeJob} (h : Sendable node jobs) :
    (UInt32.ofNat (encodeBody node jobs).length + messageHeaderSize).toNat =
      (encodeMessage node jobs).length := by
  have hbody := h.body
  have hlength : (UInt32.ofNat (encodeBody node jobs).length).toNat =
      (encodeBody node jobs).length := by
    apply toNat_ofNat_of_int
    omega
  rw [UInt32.toNat_add, hlength, length_encodeMessage]
  simp only [messageHeaderSize, UInt32.reduceToNat]
  omega

/-- The length in front of a buffer. -/
theorem messageLength_eq (n : UInt32) (rest : List UInt8) :
    UInt32.ofNat (ofLE ((bigEndian n ++ rest).take 4).reverse) = n := by
  rw [← length_bigEndian n, List.take_left, ofLE_bigEndian]

theorem drop_bigEndian (n : UInt32) (rest : List UInt8) : (bigEndian n ++ rest).drop 4 = rest := by
  rw [← length_bigEndian n, List.drop_left]

theorem not_header_lt (n : UInt32) (rest : List UInt8) :
    ¬(bigEndian n ++ rest).length < messageHeaderSize.toNat := by
  rw [List.length_append, length_bigEndian]
  exact Nat.not_lt.mpr (Nat.le_add_right _ _)

/-- A buffer with fewer bytes than it announces is left as it is. -/
theorem look_of_lt {n : UInt32} {rest : List UInt8}
    (h : (bigEndian n ++ rest).length < (n + messageHeaderSize).toNat) :
    look node counters (bigEndian n ++ rest) = .ok none := by
  rw [look, messageLength_eq, if_neg (Nat.not_le.mpr h), ite_self]

/-- A message of jobs is skipped by the length that it announces. -/
theorem look_of_le {n : UInt32} {rest : List UInt8} {reading : Reading}
    {blockTemplates : List AlephiumBlockTemplate}
    (h : (n + messageHeaderSize).toNat ≤ (bigEndian n ++ rest).length)
    (hread : (readMessage node).run ⟨rest, counters⟩ = .ok (some blockTemplates, reading)) :
    look node counters (bigEndian n ++ rest) = .ok (some (blockTemplates,
      (bigEndian n ++ rest).drop (n + messageHeaderSize).toNat, reading.counters)) := by
  simp only [look, if_neg (not_header_lt n rest), messageLength_eq, if_pos h, drop_bigEndian, hread]

/-- A message that is not read stays, with what follows it. -/
theorem look_of_none {n : UInt32} {rest : List UInt8} {reading : Reading}
    (hread : (readMessage node).run ⟨rest, counters⟩ = .ok (none, reading)) :
    look node counters (bigEndian n ++ rest) = .ok none := by
  simp only [look, if_neg (not_header_lt n rest), messageLength_eq, drop_bigEndian, hread, ite_self]

/-- The messages of a node are taken one by one, each from its own bytes. -/
theorem frames_look (hanswers : node.Answers) :
    Frames (look node) (encodeMessage node) (readAll (announced node)) (Sendable node) where
  ne_nil jobs hnil := by
    have hlength := congrArg List.length hnil
    rw [length_encodeMessage, List.length_nil] at hlength
    omega
  take counters jobs rest h := by
    have hsize := size_of_sendable h
    have hread := takes_message hanswers h counters rest
    have hdrop : (encodeMessage node jobs ++ rest).drop (encodeMessage node jobs).length = rest :=
      List.drop_left
    rw [encodeMessage, List.append_assoc] at hdrop ⊢
    rw [look_of_le ?_ hread, hsize]
    · rw [encodeMessage, hdrop]
    · rw [hsize, ← List.append_assoc, ← encodeMessage, List.length_append]
      exact Nat.le_add_right _ _
  wait counters jobs part h hpart hne := by
    have hlt : part.length < (encodeMessage node jobs).length :=
      hpart.length_le.lt_of_ne fun heq => hne (hpart.eq_of_length heq)
    by_cases hheader : part.length < messageHeaderSize.toNat
    · rw [look, if_pos hheader]
    · -- the length is there, and not all that it announces
      have hlength : bigEndian (UInt32.ofNat (encodeBody node jobs).length) <+: part := by
        refine List.prefix_of_prefix_length_le (List.prefix_append _ _) hpart ?_
        rw [length_bigEndian]
        exact Nat.not_lt.mp hheader
      obtain ⟨rest, rfl⟩ := hlength
      rw [← size_of_sendable h] at hlt
      exact look_of_lt hlt
  idle counters := rfl

/-- **No template is lost, made up or torn**: of the messages that a node sends, those that have
arrived in full are published in order, with the next job ids, and the buffer holds the part of
the next one, however the socket cuts the stream. -/
theorem published_of_sent (hanswers : node.Answers) {messages : List (List NodeJob)}
    (hsent : ∀ jobs ∈ messages, Sendable node jobs) (counters : Counters)
    {chunks : List (List UInt8)}
    (hchunks : chunks.flatten <+: messages.flatMap (encodeMessage node)) :
    ∃ done left part, messages = done ++ left ∧
      Arrived (encodeMessage node) chunks.flatten done left part ∧
      alephiumSubscribeStratumApiSocketClient node counters chunks = some (.ok
        ⟨(readAll (readAll (announced node)) counters done).2, part,
          (readAll (readAll (announced node)) counters done).1⟩) := by
  have hframes := frames_look hanswers
  exact receiveAll_of_prefix hframes (fun _ => Nat.lt_succ_self _) hsent counters [] hchunks
    fun jobs _ => hframes.not_prefix_nil jobs

/-- A node of a newer release. -/
def exampleNode : Node := ⟨1, fun _ _ _ => .error .daemon⟩

/-- Two messages, the second of which arrives in part. -/
def exampleMessages : List (List NodeJob) :=
  [[⟨0, 1, [7, 7], [8], [9, 9, 9], 50⟩, ⟨2, 3, [7], [], [9], 51⟩], [⟨1, 1, [5], [6], [4], 60⟩]]

/-- The bytes as the socket cuts them. -/
def exampleChunks : List (List UInt8) :=
  let bytes := exampleMessages.flatMap (encodeMessage exampleNode)
  [bytes.take 3, (bytes.drop 3).take 70]

theorem published_of_sent_example : ∃ done left part, exampleMessages = done ++ left ∧
    Arrived (encodeMessage exampleNode) exampleChunks.flatten done left part ∧
    alephiumSubscribeStratumApiSocketClient exampleNode ⟨0, 0⟩ exampleChunks = some (.ok
      ⟨(readAll (readAll (announced exampleNode)) ⟨0, 0⟩ done).2, part,
        (readAll (readAll (announced exampleNode)) ⟨0, 0⟩ done).1⟩) := by
  have hanswers : exampleNode.Answers := fun hold => absurd hold (by decide)
  have hsent : ∀ jobs ∈ exampleMessages, Sendable exampleNode jobs := by
    decide
  exact published_of_sent hanswers hsent ⟨0, 0⟩ (by decide)

/-- **A message of another version or type blocks the connection**: as it stays in the buffer,
nothing that the node sends after it is published. -/
theorem blocked_by_other {n : UInt32} {version type : UInt8} {body : List UInt8}
    (hother : node.socketMiningProtocol > 0 ∧ version ≠ miningProtocolVersion ∨
      type ≠ jobsMessageType)
    (counters : Counters) (published : List (List AlephiumBlockTemplate))
    (chunks : List (List UInt8)) :
    let buffer := bigEndian n ++ (fromNewer node [version] ++ [type] ++ body)
    receiveAll (look node) (fun buffer => buffer.length + 1) ⟨counters, buffer, published⟩ chunks =
      some (.ok ⟨counters, buffer ++ chunks.flatten, published⟩) := by
  apply receiveAll_of_stuck fun _ => Nat.lt_succ_self _
  intro rest
  have hread := takes_other hother counters (body ++ rest)
  rw [← List.append_assoc] at hread
  rw [List.append_assoc]
  exact look_of_none hread

/-- Messages that have arrived in full are all published, and nothing is left in the buffer. -/
theorem published_all (hanswers : node.Answers) {messages : List (List NodeJob)}
    (hsent : ∀ jobs ∈ messages, Sendable node jobs) (counters : Counters)
    {chunks : List (List UInt8)}
    (hchunks : chunks.flatten = messages.flatMap (encodeMessage node)) :
    alephiumSubscribeStratumApiSocketClient node counters chunks = some (.ok
      ⟨(readAll (readAll (announced node)) counters messages).2, [],
        (readAll (readAll (announced node)) counters messages).1⟩) :=
  receiveAll_of_eq (frames_look hanswers) (fun _ => Nat.lt_succ_self _) hsent counters hchunks

end Stream

end HashStorm.Alephium
