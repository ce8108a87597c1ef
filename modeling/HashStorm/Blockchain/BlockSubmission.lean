import HashStorm.Blockchain.Kaspa.Job
import HashStorm.Blockchain.Warthog.Job
import HashStorm.Lib.Draft

/-!
# Found blocks of a job that many workers share

`ProcessShare` writes a part of the solution into the template of the job, and
the block that is sent to the daemon is made of that template afterwards. Another
submission in between takes the place of the solution.
-/

namespace HashStorm.Kaspa

open Stratum Blockchain Draft

/-- `RpcBlock`. -/
structure RpcBlock where
  header : RpcBlockHeader
  transactions : List Text
  deriving DecidableEq, Repr

/-- A submission that waits for the daemon: its own nonce, and its share. -/
structure Candidate where
  nonce : UInt64
  share : Share
  deriving DecidableEq, Repr

/-- A job, and its registered keys. -/
abbrev SharedJob := Job × List Text

/-- A worker, and the nonce it submits. -/
abbrev Order := WorkerContext × Option Text

/-- The nonce as `ProcessShare` completes it. -/
def finalNonce (order : Order) : Text :=
  buildFinalNonceHex order.1.extraNonce1 (order.2.getD []) nonceLength

/-- The nonce of a submission, if it is not refused before it is written into the template. -/
def writtenNonce (shared : SharedJob) (order : Order) : Option UInt64 :=
  match validateSubmittedNonce (order.2.getD []), parseNonceHex (finalNonce order) with
  | .ok (), .ok nonce =>
    if submitKey shared.1 (finalNonce order) ∈ shared.2 then none else some nonce
  | _, _ => none

variable (lib : Library) (variant : Variant)

/-- `SubmitShareAsync` in two steps: `ProcessShare`, and `SubmitBlockAsync` with the template. -/
def desk : Desk SharedJob Order Candidate RpcBlock where
  take shared order :=
    let (result, shared') := processShare lib variant shared.1 shared.2 order.1 order.2
    (match result, writtenNonce shared order with
      | .ok share, some nonce => if share.isBlockCandidate then some ⟨nonce, share⟩ else none
      | _, _ => none, shared')
  make shared _ := ⟨shared.1.header, shared.1.transactions⟩

/-- Replace the header of the template. -/
def Job.setHeader (job : Job) (header : RpcBlockHeader) : Job := { job with header := header }

/-- The block has the nonce of the candidate, and the hash that its share records. -/
def Own (job : Job) (candidate : Candidate) (block : RpcBlock) : Prop :=
  block.header.nonce = candidate.nonce ∧
    candidate.share.blockHash = some (variant.blockHash lib (job.setHeader block.header))

/-- No submission writes its nonce while a candidate waits. -/
def Undisturbed (s : Draft.State SharedJob Candidate RpcBlock) : Op Order → Prop
  | .take order => s.waiting = [] ∨ writtenNonce s.draft order = none
  | .deliver _ => True

instance (s : Draft.State SharedJob Candidate RpcBlock) :
    (op : Op Order) → Decidable (Undisturbed s op)
  | .take _ => inferInstanceAs (Decidable (_ ∨ _))
  | .deliver _ => inferInstanceAs (Decidable True)

variable {lib variant}

/-- A submission is refused and leaves the template as it is, or its nonce is written and the
work with it is judged. -/
theorem processShare_eq (shared : SharedJob) (order : Order) :
    (processShare lib variant shared.1 shared.2 order.1 order.2).2.1 =
        ((writtenNonce shared order).map shared.1.setNonce).getD shared.1 ∧
      ∀ nonce ∈ writtenNonce shared order,
        (processShare lib variant shared.1 shared.2 order.1 order.2).1 =
          judgeShare lib variant (shared.1.setNonce nonce) order.1 := by
  have hfinal : finalNonce order =
    buildFinalNonceHex order.1.extraNonce1 (order.2.getD []) nonceLength := rfl
  simp only [processShare, writtenNonce, ← hfinal]
  cases validateSubmittedNonce (order.2.getD []) with
  | error e => simp
  | ok u =>
    cases hnonce : parseNonceHex (finalNonce order) with
    | error e => simp
    | ok nonce =>
      by_cases hkey : submitKey shared.1 (finalNonce order) ∈ shared.2
      · simp [tryAdd, hkey]
      · simp [tryAdd, hkey, processShareInternal, hnonce]

/-- A candidate's share records the hash of its block. -/
theorem blockHash_of_judgeShare {job : Job} {context : WorkerContext} {share : Share}
    (h : judgeShare lib variant job context = .ok share) (hblock : share.isBlockCandidate = true) :
    share.blockHash = some (variant.blockHash lib job) := by
  simp only [judgeShare] at h
  split at h
  · cases h
  obtain ⟨accepted, -, h⟩ := Bitcoin.bind_eq_ok.mp h
  cases h
  exact if_pos hblock

/-- The block that is sent for a candidate has its nonce and its hash, if no nonce was written
in between. -/
theorem delivered_own {job : Job} {submissions : List Text} {ops : List (Op Order)}
    {s : Draft.State SharedJob Candidate RpcBlock}
    (hok : Machine.Meets (step (desk lib variant)) Undisturbed (.initial (job, submissions)) ops)
    (hrun : Machine.run (step (desk lib variant)) (.initial (job, submissions)) ops = some s) :
    ∀ d ∈ s.delivered, Own lib variant job d.1 d.2 := by
  refine @Draft.delivered_own _ _ _ _ (desk lib variant)
    (fun shared => shared.1 = job.setHeader shared.1.header) _ _ ?_ ?_ ?_ _ rfl _ _ hok hrun
  · intro shared order hsound
    have hjob := (@processShare_eq lib variant shared order).1
    simp only [desk, hjob]
    cases writtenNonce shared order with
    | none => exact hsound
    | some nonce =>
      rw [Option.map_some, Option.getD_some, hsound]
      rfl
  · intro shared order candidate hsound htake
    obtain ⟨hjob, hjudge⟩ := @processShare_eq lib variant shared order
    simp only [desk] at htake ⊢
    rw [hjob]
    cases hnonce : writtenNonce shared order with
    | none => simp [hnonce] at htake
    | some nonce =>
      have hresult := hjudge nonce hnonce
      rw [hresult] at htake
      cases hshare : judgeShare lib variant (shared.1.setNonce nonce) order.1 with
      | error e => simp [hshare] at htake
      | ok share =>
        simp only [hshare, hnonce, Option.ite_none_right_eq_some, Option.some.injEq] at htake
        obtain ⟨hblock, rfl⟩ := htake
        refine ⟨rfl, ?_⟩
        rw [blockHash_of_judgeShare hshare hblock]
        simp only [Option.map_some, Option.getD_some]
        congr 2
        rw [hsound]
        rfl
  · intro s order hsound hok candidate hcandidate hown
    rcases hok with hnone | hnone
    · rw [hnone] at hcandidate
      cases hcandidate
    · have hjob := (@processShare_eq lib variant s.draft order).1
      simp only [desk, hjob, hnone, Option.map_none, Option.getD_none]
      exact hown

end HashStorm.Kaspa

namespace HashStorm.Warthog

open Stratum Blockchain Draft

/-- `WarthogSubmitBlockRequest`. -/
structure SubmitBlockRequest where
  height : UInt32
  header : Text
  body : Text
  deriving DecidableEq, Repr

/-- A submission that waits for the daemon: its own extranonces, its header and its share. -/
structure Candidate where
  extraNonce : List UInt8
  header : Text
  share : Share
  deriving DecidableEq, Repr

/-- A job, and its registered keys. -/
abbrev SharedJob := Job × List Text

/-- A worker, and what it submits. -/
abbrev Order := WorkerContext × Submission

/-- The key that is registered for a submission. -/
def Order.key (order : Order) : Text :=
  submitKey order.1.extraNonce1 (order.2.extraNonce2.getD []) (order.2.nTime.getD [])
    (order.2.nonce.getD [])

variable (lib : Library)

/-- The extranonces and the header of a submission, if it is a block, so that its body is written
into the template. -/
def foundBlock (shared : SharedJob) (order : Order) : Option (List UInt8 × List UInt8) :=
  match validate shared.1 order.1 order.2,
    serializeExtranonce order.1.extraNonce1 (order.2.extraNonce2.getD []) with
  | .ok (nTime, nonce), .ok extraNonce =>
    let header := serializeHeader lib shared.1 extraNonce nTime nonce
    if order.key ∈ shared.2 ∨ lib.isBlockCandidate header = false then none
    else some (extraNonce, header)
  | _, _ => none

/-- `SubmitShareAsync` in two steps: `ProcessShare`, and `SubmitBlockAsync` with the template. -/
def desk : Desk SharedJob Order Candidate SubmitBlockRequest where
  take shared order :=
    let (result, shared') := processShare lib shared.1 shared.2 order.1 order.2
    (match result, serializeExtranonce order.1.extraNonce1 (order.2.extraNonce2.getD []) with
      | .ok (share, some header), .ok extraNonce =>
        if share.isBlockCandidate then some ⟨extraNonce, header, share⟩ else none
      | _, _ => none, shared')
  make shared candidate :=
    ⟨shared.1.blockTemplate.height, candidate.header, shared.1.blockTemplate.body⟩

/-- The body begins with the extranonces of the candidate, and the header has the hash that its
share records. -/
def Own (candidate : Candidate) (block : SubmitBlockRequest) : Prop :=
  candidate.extraNonce <+: hexToByteArray block.body ∧
    candidate.share.blockHash = some (toHexString (lib.sha256D (hexToByteArray block.header)))

/-- No block is found with other extranonces while a candidate waits. -/
def Undisturbed (s : Draft.State SharedJob Candidate SubmitBlockRequest) : Op Order → Prop
  | .take order =>
    ∀ found ∈ foundBlock lib s.draft order, ∀ candidate ∈ s.waiting, candidate.extraNonce = found.1
  | .deliver _ => True

instance (s : Draft.State SharedJob Candidate SubmitBlockRequest) :
    (op : Op Order) → Decidable (Undisturbed lib s op)
  | .take order => inferInstanceAs (Decidable (∀ found ∈ foundBlock lib s.draft order, _))
  | .deliver _ => inferInstanceAs (Decidable True)

variable {lib}

/-- The body of a block begins with its extranonces. -/
theorem prefix_serializeBody (job : Job) (extraNonce : List UInt8) :
    extraNonce <+: serializeBody job extraNonce :=
  List.prefix_append _ _

/-- A submission that is no block leaves the template as it is and no candidate; a block writes
its body. -/
theorem take_eq (shared : SharedJob) (order : Order) :
    match foundBlock lib shared order with
    | none => ((desk lib).take shared order).1 = none ∧
        ((desk lib).take shared order).2.1 = shared.1
    | some (extraNonce, header) =>
      (∃ share : Share, share.blockHash = some (toHexString (lib.sha256D header)) ∧
        ((desk lib).take shared order).1 = some ⟨extraNonce, toHexString header, share⟩) ∧
        ((desk lib).take shared order).2.1 =
          shared.1.setBody (toHexString (serializeBody shared.1 extraNonce)) := by
  have hkeyEq : submitKey order.1.extraNonce1 (order.2.extraNonce2.getD [])
    (order.2.nTime.getD []) (order.2.nonce.getD []) = order.key := rfl
  simp only [desk, processShare, foundBlock, hkeyEq]
  cases validate shared.1 order.1 order.2 with
  | error e => simp
  | ok numbers =>
    obtain ⟨nTime, nonce⟩ := numbers
    cases hextra : serializeExtranonce order.1.extraNonce1 (order.2.extraNonce2.getD []) with
    | error e =>
      by_cases hkey : order.key ∈ shared.2
      · simp [tryAdd, hkey]
      · simp [tryAdd, hkey, processShareInternal, hextra]
    | ok extraNonce =>
      by_cases hkey : order.key ∈ shared.2
      · simp [tryAdd, hkey]
      · cases hblock :
          lib.isBlockCandidate (serializeHeader lib shared.1 extraNonce nTime nonce) with
        | true => simp [tryAdd, hkey, processShareInternal, hextra, hblock, acceptedDifficulty]
        | false =>
          cases haccepted : acceptedDifficulty order.1
              (lib.headerSolutionValue (serializeHeader lib shared.1 extraNonce nTime nonce))
              false with
          | error e => simp [tryAdd, hkey, processShareInternal, hextra, hblock, haccepted]
          | ok d => simp [tryAdd, hkey, processShareInternal, hextra, hblock, haccepted]

/-- The block that is sent for a candidate has its extranonces and its hash, if no other block
was found in between. -/
theorem delivered_own {job : Job} {submissions : List Text} {ops : List (Op Order)}
    {s : Draft.State SharedJob Candidate SubmitBlockRequest}
    (hok : Machine.Meets (step (desk lib)) (Undisturbed lib) (.initial (job, submissions)) ops)
    (hrun : Machine.run (step (desk lib)) (.initial (job, submissions)) ops = some s) :
    ∀ d ∈ s.delivered, Own lib d.1 d.2 := by
  refine @Draft.delivered_own _ _ _ _ (desk lib) (fun _ => True) _ _ ?_ ?_ ?_ _ trivial _ _ hok hrun
  · exact fun _ _ _ => trivial
  · intro shared order candidate _ htake
    have heq := @take_eq lib shared order
    cases hfound : foundBlock lib shared order with
    | none =>
      simp only [hfound] at heq
      rw [heq.1] at htake
      cases htake
    | some found =>
      simp only [hfound] at heq
      obtain ⟨⟨share, hhash, hcandidate⟩, hbody⟩ := heq
      rw [hcandidate] at htake
      cases htake
      constructor
      · simp only [desk] at hbody ⊢
        rw [hbody]
        simp only [Job.setBody, hexToByteArray_toHexString]
        exact prefix_serializeBody _ _
      · simp only [desk, hexToByteArray_toHexString]
        exact hhash
  · intro s order _ hok candidate hcandidate hown
    have heq := @take_eq lib s.draft order
    cases hfound : foundBlock lib s.draft order with
    | none =>
      simp only [hfound] at heq
      simp only [desk] at heq hown ⊢
      rw [heq.2]
      exact hown
    | some found =>
      simp only [hfound] at heq
      have hsame := hok found hfound candidate hcandidate
      refine ⟨?_, hown.2⟩
      simp only [desk] at heq ⊢
      rw [heq.2, hsame]
      simp only [Job.setBody, hexToByteArray_toHexString]
      exact prefix_serializeBody _ _

end HashStorm.Warthog

namespace HashStorm.Blockchain

open Stratum Draft Machine

section Interleaved

/-- Every nonce is a block, whose hash is its header. -/
private def easyKaspa : Kaspa.Library where
  blockHeaderHasher bytes := bytes
  coinbaseHasher _ := []
  shareHasher _ := [1]
  isFishHashKarlsen := false
  target n := n
  generateMatrix _ _ _ := 0

private def easyKaspaJob : Kaspa.Job := .plain 1 1

private def kaspaOrder (nonce : String) : Kaspa.Order := (⟨none, 1, none, false⟩, some (text nonce))

/-- Every header is a block. -/
private def easyWarthog : Warthog.Library where
  sha256S _ := []
  sha256D bytes := bytes
  headerSolutionValue _ := 1
  isBlockCandidate _ := true

private def easyWarthogJob : Warthog.Job :=
  ⟨⟨7, text "00000000000000000000ff"⟩, 1, [], [], [], [], [0, 0, 0, 0]⟩

private def warthogOrder (extraNonce2 : String) : Warthog.Order :=
  (⟨some (text "00000001"), 1, none, false⟩,
    ⟨some (text extraNonce2), some (text "00000001"), some (text "00000001"), 0⟩)

end Interleaved

end HashStorm.Blockchain
