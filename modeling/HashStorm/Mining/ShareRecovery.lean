import HashStorm.Mining.SharePersistence

/-!
# Recovered shares

`RecoverSharesAsync` reads the recovery file and commits what it finds. The shares
that a recorder has heard of are, each once, in the tables, in what the recovery
left over, on their way, or lost; a recovery that reports no failure has left
nothing over.
-/

namespace HashStorm.Mining

open Contracts Lines Machine

section Recovery

/-- `bufferSize`. -/
def bufferSize : Nat := 100

/-- The state of the loop of `RecoverSharesAsync`; a line that is read as `null` adds a null
share. -/
structure Recovery where
  shares : List (Option Share)
  successCount : Nat
  failCount : Nat
  db : Rows
  attempts : List Attempt
  deriving DecidableEq

/-- The import of the shares, which stay where they are when it fails. -/
def Recovery.tryImport (r : Recovery) : Recovery :=
  match r.shares.mapM id with
  | none => { r with failCount := r.failCount + 1 }
  | some shares =>
    match persistSharesCoreAsync r.db shares (r.attempts.headD .commits) with
    | (db, none) =>
      { shares := [], successCount := r.successCount + shares.length, failCount := r.failCount
        db, attempts := r.attempts.tail }
    | (db, some _) =>
      { r with failCount := r.failCount + 1, db, attempts := r.attempts.tail }

/-- The import of a full buffer. A list that outgrew the buffer waits for the end. -/
def Recovery.importFull (r : Recovery) : Recovery :=
  if r.shares.length = bufferSize then r.tryImport else r

variable (json : ShareJson) (newLine : NewLine)

/-- The parsing of a line. -/
def Recovery.parse (r : Recovery) (line : List Char) : Recovery :=
  match json.deserialize line with
  | .share share => { r with shares := r.shares ++ [some share] }
  | .null => { r with shares := r.shares ++ [none] }
  | .malformed => { r with failCount := r.failCount + 1 }

/-- The loop body for one line. -/
def Recovery.processLine (r : Recovery) (line : List Char) : Recovery :=
  if line = [] then r
  else
    let line := trim (String.ofList line)
    if line = [] then r
    else if line.head? = some '#' then r
    else (r.parse json line).importFull

/-- The lines of a text. Between the characters of a line end stands an empty line, and behind the
last line end what is left: the loop skips empty lines. -/
def readLines (text : List Char) : List (List Char) :=
  (split isLineEnd text).1 ++ [(split isLineEnd text).2]

/-- `RecoverSharesAsync`. -/
def recoverSharesAsync (db : Rows) (file : List Char) (attempts : List Attempt) : Recovery :=
  let r := (readLines file).foldl (Recovery.processLine json) ⟨[], 0, 0, db, attempts⟩
  if r.shares.length > 0 then r.tryImport else r

end Recovery

section File

variable {json : ShareJson} {newLine : NewLine}

/-- A line and the line end behind it are taken together. -/
theorem foldl_writeLine {line : List Char} (h : ∀ c ∈ line, isLineEnd c = false) (rest : List Char)
    (r : Recovery) :
    (readLines (writeLine newLine line ++ rest)).foldl (Recovery.processLine json) r =
      (readLines rest).foldl (Recovery.processLine json) (r.processLine json line) := by
  cases newLine with
  | lf =>
    have hsplit := split_line h (e := '\n') rfl rest
    rw [writeLine, NewLine.text, List.append_assoc, List.singleton_append, readLines, hsplit]
    rfl
  | crlf =>
    have hsplit := split_line h (e := '\r') rfl ('\n' :: rest)
    have hblank := @split_line Char isLineEnd [] (by simp) '\n' rfl rest
    rw [List.nil_append] at hblank
    rw [writeLine, NewLine.text, List.append_assoc, readLines, List.cons_append,
      List.singleton_append, hsplit, hblank]
    rfl

theorem processLine_nil (r : Recovery) : r.processLine json [] = r := rfl

/-- A line that begins with `#` is a comment. -/
theorem processLine_comment {line : List Char} (h : line.head? = some '#') (r : Recovery) :
    r.processLine json line = r := by
  obtain ⟨text, rfl⟩ : ∃ text, line = '#' :: text := by
    cases line with
    | nil => cases h
    | cons c text =>
      cases h
      exact ⟨text, rfl⟩
  have hhash : isWhiteSpace '#' = false := by decide
  have htrim : (trim (String.ofList ('#' :: text))).head? = some '#' := by
    simp only [trim, String.toList_ofList, List.dropWhile_cons, hhash, Bool.false_eq_true, if_false,
      List.reverse_cons, List.dropWhile_append]
    split <;> simp
  rw [Recovery.processLine, if_neg (List.cons_ne_nil _ _)]
  simp only [htrim, if_true, ite_self]

theorem isLineEnd_of_all {line : List Char} (h : (line.all fun c => !isLineEnd c) = true) :
    ∀ c ∈ line, isLineEnd c = false := by
  simpa only [List.all_eq_true, Bool.not_eq_true'] using h

/-- The header holds no share. -/
theorem foldl_header (rest : List Char) (r : Recovery) :
    (readLines (recoveryFileHeader newLine ++ rest)).foldl (Recovery.processLine json) r =
      (readLines rest).foldl (Recovery.processLine json) r := by
  have hlast : writeLine newLine
      "# HashStormCore -c <path-to-config> -rs <path-to-this-file>\n".toList =
        writeLine .lf "# HashStormCore -c <path-to-config> -rs <path-to-this-file>".toList ++
          writeLine newLine [] := rfl
  rw [recoveryFileHeader, hlast, List.append_assoc, List.append_assoc, List.append_assoc,
    foldl_writeLine (isLineEnd_of_all (by simp [isLineEnd])),
    foldl_writeLine (isLineEnd_of_all (by simp [isLineEnd])),
    foldl_writeLine (isLineEnd_of_all (by simp [isLineEnd])),
    foldl_writeLine (isLineEnd_of_all rfl), processLine_nil,
    processLine_comment (by simp), processLine_comment (by simp), processLine_comment (by simp)]

theorem trim_braces (inner : List Char) :
    trim (String.ofList ('{' :: inner ++ ['}'])) = '{' :: inner ++ ['}'] := by
  have hopen : isWhiteSpace '{' = false := by decide
  have hclose : isWhiteSpace '}' = false := by decide
  simp [trim, hopen, hclose]

/-- A share that was read is added. -/
def Recovery.add (r : Recovery) (share : Share) : Recovery :=
  Recovery.importFull { r with shares := r.shares ++ [some share] }

theorem processLine_serialize {share : Share} (h : json.Lossless share) (r : Recovery) :
    r.processLine json (json.serialize share) = r.add share := by
  obtain ⟨inner, hinner⟩ := h.braces
  have hread := h.deserialize_serialize
  rw [hinner] at hread
  rw [hinner, Recovery.add]
  simp only [Recovery.processLine, trim_braces, Recovery.parse, hread]
  simp

theorem foldl_shareLines {shares : List Share} (h : ∀ share ∈ shares, json.Lossless share)
    (r : Recovery) :
    (readLines (shares.flatMap (shareLine json newLine))).foldl (Recovery.processLine json) r =
      shares.foldl Recovery.add r := by
  induction shares generalizing r with
  | nil => rfl
  | cons share shares ih =>
    obtain ⟨hshare, hshares⟩ := List.forall_mem_cons.mp h
    rw [List.flatMap_cons, shareLine, foldl_writeLine hshare.single_line,
      processLine_serialize hshare, ih hshares, List.foldl_cons]

end File

section Imports

/-- The answer of a commit arrives. -/
def Attempt.Answered : Attempt → Prop
  | .commits | .rollsBack _ => True
  | .unanswered _ => False

instance : DecidablePred Attempt.Answered
  | .commits | .rollsBack _ => isTrue trivial
  | .unanswered _ => isFalse id

/-- What was imported of the shares that were read, behind the shares that were kept before, and
what is left over. -/
structure Recovery.Splits (r : Recovery) (kept read imported left : List Share) : Prop where
  shares : r.shares = left.map some
  db : r.db = rowsOf (kept ++ imported)
  read : imported ++ left = read
  successCount : r.successCount = imported.length
  answered : ∀ a ∈ r.attempts, a.Answered

variable {r : Recovery} {kept read imported left : List Share}

theorem mapM_some (shares : List Share) : (shares.map some).mapM id = some shares := by
  induction shares with
  | nil => rfl
  | cons share shares ih => simp [List.map_cons, List.mapM_cons, ih]

/-- An import takes all shares, or it leaves them and counts a failure. -/
theorem Recovery.Splits.tryImport (h : r.Splits kept read imported left) :
    r.tryImport.Splits kept read read [] ∨
      r.tryImport.Splits kept read imported left ∧ 0 < r.tryImport.failCount := by
  have hanswered := headD_attempts h.answered (P := Attempt.Answered) trivial
  have htail : ∀ a ∈ r.attempts.tail, a.Answered :=
    fun a ha => h.answered a (List.mem_of_mem_tail ha)
  rw [Recovery.tryImport, h.shares, mapM_some]
  cases hattempt : r.attempts.headD .commits with
  | commits =>
    refine .inl ⟨rfl, ?_, List.append_nil _, ?_, htail⟩
    · change r.db.insert left = rowsOf (kept ++ read)
      rw [h.db, rowsOf_insert, List.append_assoc, h.read]
    · change r.successCount + left.length = read.length
      rw [h.successCount, ← h.read, List.length_append]
  | rollsBack e =>
    exact .inr ⟨⟨rfl, h.db, h.read, h.successCount, htail⟩, Nat.succ_pos _⟩
  | unanswered e =>
    rw [hattempt] at hanswered
    exact hanswered.elim

theorem Recovery.Splits.add (h : r.Splits kept read imported left) (share : Share) :
    ∃ imported' left', (r.add share).Splits kept (read ++ [share]) imported' left' := by
  have hadded : Recovery.Splits { r with shares := r.shares ++ [some share] } kept
      (read ++ [share]) imported (left ++ [share]) := by
    refine ⟨?_, h.db, ?_, h.successCount, h.answered⟩
    · rw [List.map_append, ← h.shares]
      rfl
    · rw [← List.append_assoc, h.read]
  rw [Recovery.add, Recovery.importFull]
  split
  · rcases hadded.tryImport with himported | ⟨hleft, -⟩
    · exact ⟨_, _, himported⟩
    · exact ⟨_, _, hleft⟩
  · exact ⟨_, _, hadded⟩

theorem Recovery.Splits.foldl (h : r.Splits kept read imported left) (shares : List Share) :
    ∃ imported' left',
      (shares.foldl Recovery.add r).Splits kept (read ++ shares) imported' left' := by
  induction shares generalizing r read imported left with
  | nil =>
    rw [List.append_nil]
    exact ⟨imported, left, h⟩
  | cons share shares ih =>
    obtain ⟨imported', left', hadd⟩ := h.add share
    obtain ⟨imported'', left'', hrest⟩ := ih hadd
    rw [List.append_assoc, List.singleton_append] at hrest
    exact ⟨imported'', left'', hrest⟩

variable {json : ShareJson} {newLine : NewLine} {file : List Char} {filed : List Share}

theorem foldl_file (hfile : Records json newLine file filed)
    (hfiled : ∀ share ∈ filed, json.Lossless share) (r : Recovery) :
    (readLines file).foldl (Recovery.processLine json) r = filed.foldl Recovery.add r := by
  rcases hfile with ⟨rfl, rfl⟩ | rfl
  · rfl
  · rw [foldl_header, foldl_shareLines hfiled]

/-- A recovery commits every share of the file, or leaves it over; without a failure it leaves
nothing over. -/
theorem splits_recoverSharesAsync (hfile : Records json newLine file filed)
    (hfiled : ∀ share ∈ filed, json.Lossless share) {attempts : List Attempt}
    (hattempts : ∀ a ∈ attempts, a.Answered) (kept : List Share) :
    ∃ imported left,
      (recoverSharesAsync json (rowsOf kept) file attempts).Splits kept filed imported left ∧
        ((recoverSharesAsync json (rowsOf kept) file attempts).failCount = 0 → left = []) := by
  have hstart : Recovery.Splits ⟨[], 0, 0, rowsOf kept, attempts⟩ kept [] [] [] :=
    ⟨rfl, by rw [List.append_nil], rfl, rfl, hattempts⟩
  obtain ⟨imported, left, hsplits⟩ := hstart.foldl filed
  rw [← foldl_file hfile hfiled, List.nil_append] at hsplits
  rw [recoverSharesAsync]
  split
  · rcases hsplits.tryImport with himported | ⟨hleft, hfail⟩
    · exact ⟨_, _, himported, fun _ => rfl⟩
    · exact ⟨_, _, hleft, fun hnone => absurd hnone hfail.ne'⟩
  · rename_i hempty
    refine ⟨imported, left, hsplits, fun _ => ?_⟩
    have hlength : left.length = 0 := by simpa [hsplits.shares] using hempty
    exact List.length_eq_zero_iff.mp hlength

end Imports

section Runs

variable {json : ShareJson} {newLine : NewLine} {s : Recorder}

theorem mem_accepted_of_mem_filed {kept filed : List Share}
    (h : s.Accounts json newLine kept filed) {share : Share} (hfiled : share ∈ filed) :
    share ∈ s.accepted := by
  refine h.accepted.subset ?_
  simp [hfiled]

/-- Over every run of the recorder and a recovery from its file, the tables hold the rows of each
share once, except for the shares that the recovery left over, that wait, or that were lost. A
recovery that counts no failure leaves nothing over. -/
theorem recovered_once {ops : List RecorderOp}
    (hrun : run (Recorder.step json newLine) .initial ops = some s) (hsafe : ∀ op ∈ ops, op.Safe)
    (hlossless : ∀ share ∈ s.accepted, json.Lossless share) {attempts : List Attempt}
    (hattempts : ∀ a ∈ attempts, a.Answered) :
    ∃ kept left, (recoverSharesAsync json s.db s.file attempts).db = rowsOf kept ∧
      (recoverSharesAsync json s.db s.file attempts).shares = left.map some ∧
      (kept ++ left ++ s.lost ++ s.waiting).Perm s.accepted ∧
      ((recoverSharesAsync json s.db s.file attempts).failCount = 0 → left = []) := by
  have hmeets := (meets_true (Recorder.step json newLine) .initial ops).and_forall hsafe
  have hinv := run_invariant (fun s : Recorder => ∃ kept filed, s.Accounts json newLine kept filed)
    (fun _ _ _ h hok hstep => h.elim fun _ h => h.elim fun _ h => h.step hok.1 hstep)
    ⟨_, _, accounts_initial⟩ hmeets hrun
  obtain ⟨kept, filed, haccounts⟩ := hinv
  have hfiled : ∀ share ∈ filed, json.Lossless share := fun share hshare =>
    hlossless share (mem_accepted_of_mem_filed haccounts hshare)
  obtain ⟨imported, left, hsplits, hleft⟩ :=
    splits_recoverSharesAsync haccounts.file hfiled hattempts kept
  rw [haccounts.db]
  refine ⟨kept ++ imported, left, hsplits.db, hsplits.shares, ?_, hleft⟩
  have haccepted := haccounts.accepted
  rw [← hsplits.read] at haccepted
  rwa [List.append_assoc kept imported left]

/-- A share as a pool accepts it. -/
def exampleShare : Share where
  poolId := some "pool"
  miner := some "miner"
  worker := none
  userAgent := some "agent"
  ipAddress := some "127.0.0.1"
  source := some "cluster"
  difficulty := 1
  blockHeight := 7
  blockReward := 0
  blockHash := none
  blockType := none
  isBlockCandidate := false
  transactionConfirmationData := none
  networkDifficulty := 2
  created := 0
  createdKind := .utc

/-- The members of the JSON object of the share. -/
def exampleMembers : List String :=
  ["\"poolId\":\"pool\",\"miner\":\"miner\",\"worker\":null,\"userAgent\":\"agent\",",
    "\"ipAddress\":\"127.0.0.1\",\"source\":\"cluster\",\"difficulty\":1.0,\"blockHeight\":7,",
    "\"blockReward\":0.0,\"blockRewardDouble\":0.0,\"blockHash\":null,\"blockType\":null,",
    "\"isBlockCandidate\":false,\"transactionConfirmationData\":null,",
    "\"networkDifficulty\":2.0,\"created\":\"0001-01-01T00:00:00Z\""]

/-- The JSON text of the share. -/
def exampleText : List Char := '{' :: exampleMembers.flatMap String.toList ++ ['}']

/-- The codec, as far as the share goes. -/
def exampleJson : ShareJson :=
  ⟨fun _ => exampleText, fun text => if text = exampleText then .share exampleShare else .malformed⟩

theorem isLineEnd_exampleMembers :
    ∀ c ∈ exampleMembers.flatMap String.toList, isLineEnd c = false := by
  refine isLineEnd_of_all ?_
  rw [List.all_flatMap, exampleMembers]
  simp [isLineEnd]

theorem lossless_exampleShare : exampleJson.Lossless exampleShare where
  deserialize_serialize := by simp [exampleJson]
  braces := ⟨_, rfl⟩
  single_line := by
    intro c hc
    rcases List.mem_append.mp hc with hc | hc
    · rcases List.mem_cons.mp hc with rfl | hc
      · decide
      · exact isLineEnd_exampleMembers c hc
    · rw [List.mem_singleton.mp hc]
      decide

/-- The database is away while a batch is executed. -/
def exampleOps : List RecorderOp :=
  [.accept exampleShare, .elapse,
    .persist ⟨5, 19, List.replicate 4 (.rollsBack .database), .all⟩]

/-- The share is recovered from the file. -/
theorem recovered_once_example : ∃ s,
    run (Recorder.step exampleJson .lf) .initial exampleOps = some s ∧
    ∃ kept left, (recoverSharesAsync exampleJson s.db s.file []).db = rowsOf kept ∧
      (recoverSharesAsync exampleJson s.db s.file []).shares = left.map some ∧
      (kept ++ left ++ s.lost ++ s.waiting).Perm s.accepted ∧
      ((recoverSharesAsync exampleJson s.db s.file []).failCount = 0 → left = []) := by
  have hrun : ∃ s, run (Recorder.step exampleJson .lf) .initial exampleOps = some s ∧
      s.accepted = [exampleShare] := ⟨_, rfl, rfl⟩
  obtain ⟨s, hs, haccepted⟩ := hrun
  refine ⟨s, hs, recovered_once hs (by decide) (fun share hshare => ?_) (by simp)⟩
  rw [haccepted] at hshare
  rw [List.mem_singleton.mp hshare]
  exact lossless_exampleShare

end Runs

end HashStorm.Mining
