import HashStorm.Blockchain.Progpow.Job
import HashStorm.Blockchain.Zano.Job

/-!
# Nonces across worker jobs

`ZanoPool` and `ProgpowPool` look up used nonces in one worker job, while the worker
jobs of a template share the hash that a nonce is evaluated on. A hash and a nonce
are credited once as long as no nonce is accepted under two worker jobs of the
hash; a nonce that is sent again under another one is credited again.
-/

namespace HashStorm.Blockchain

open Stratum Machine WorkerJobState

/-- **No hash and nonce is credited twice if nonces stay with their worker job**, in the Zano and
in the Progpow pools. -/
theorem nonces_credited_once_across_worker_jobs (zano : Zano.Library) (progpow : Progpow.Library)
    (maxActiveJobs : Nat) (provider : ExtraNonceProvider) :
    (∀ (ops : List (WorkerJobOp Cryptonote.Change Zano.BlockTemplate Zano.Submission))
        (s : WorkerJobState Zano.Shared Cryptonote.Context Zano.WorkerJob Text Zano.Judged),
      run (WorkerJobState.step (Zano.pool zano)) (initial ⟨none, 0⟩) ops = some s →
      Meets (WorkerJobState.step (Zano.pool zano)) (Zano.OwnNonce zano) (initial ⟨none, 0⟩) ops →
      (s.accepted.map fun e => (e.2.blobHash, e.2.fullNonce)).Nodup) ∧
    (∀ (ops : List (WorkerJobOp Progpow.Change Progpow.Update Progpow.Submission))
        (s : WorkerJobState Progpow.Shared Progpow.Context Progpow.WorkerJob Text Progpow.Judged),
      run (WorkerJobState.step (Progpow.pool progpow maxActiveJobs)) (initial ⟨none, provider, 0⟩)
        ops = some s →
      Meets (WorkerJobState.step (Progpow.pool progpow maxActiveJobs))
        (Progpow.OwnNonce progpow maxActiveJobs) (initial ⟨none, provider, 0⟩) ops →
      (s.accepted.map fun e => (e.2.headerHash, e.2.nonce)).Nodup) := by
  constructor
  · intro ops s hrun hown
    exact (Zano.pool_sound.accepted_valid_nodup trivial hrun hown).2
  · intro ops s hrun hown
    exact (Progpow.pool_sound.accepted_valid_nodup trivial hrun hown).2

section Example

/-- The result of the stand-ins for the native hash functions. -/
def exampleResult : List UInt8 := [0, 0, 0, 0, 1] ++ List.replicate 27 0

/-- The mix hash of the stand-ins. -/
def exampleMixHash : List UInt8 := List.replicate 32 0x5a

/-- Stand-ins for the native functions of Zano. -/
def exampleZanoLibrary : Zano.Library where
  getBlobId blob := blob.take 32
  convertBlock blob _ := blob
  getBlockId blob := blob.take 32
  compute _ _ _ := some (exampleMixHash, exampleResult)
  shareMultiplier := 1

/-- A template of Zano. -/
def exampleZanoTemplate : Zano.BlockTemplate where
  blob := toHexString (List.replicate 64 0x2c)
  difficulty := 1000000000000
  height := 2500000
  seedHash := toHexString exampleMixHash

/-- Two authorized connections have a worker job each of the template. -/
def exampleZanoOps :
    List (WorkerJobOp Cryptonote.Change Zano.BlockTemplate Zano.Submission) :=
  [.updateJob exampleZanoTemplate, .connect 0 1, .change 0 (.login true), .createWorkerJob 0,
    .connect 1 1, .change 1 (.login true), .createWorkerJob 1]

/-- A submission of protocol version two. -/
def exampleZanoSubmission (connectionId : Nat) (nonce : String) :
    WorkerJobOp Cryptonote.Change Zano.BlockTemplate Zano.Submission :=
  let id := Zano.toHexStringWithPrefix (List.replicate 32 0x2c)
  .submit connectionId ⟨false, [some (text "rig"), some id, some (text nonce), some id, some id], true⟩

/-- Stand-ins for the hash functions of a Progpow coin. -/
def exampleProgpowLibrary : Progpow.Library where
  bitcoin := ⟨fun header => header.hashMerkleRoot, fun _ => [1], id⟩
  coinbaseHasher coinbase := (coinbase ++ List.replicate 32 0).take 32
  headerHasher header := header
  blockHasher header := header
  compute _ _ _ := some (exampleMixHash, exampleResult)
  seedHash _ := exampleMixHash

/-- A job of a Progpow coin. -/
def exampleProgpowJob : Progpow.Job where
  jobClass := .progpow
  blockTemplate := ⟨0x30000000, [], 1700000000, [], 3000000, [], none⟩
  coinbaseInitial := [1]
  coinbaseFinal := [2]
  merkleSteps := []
  shareMultScaled := Progpow.shareMultScaled 1
  shareMultiplier := 0
  difficulty := 100000
  blockTargetValue := 0

/-- A connection gets an extranonce and two worker jobs of the job, the second one after a
retarget. -/
def exampleProgpowOps : List (WorkerJobOp Progpow.Change Progpow.Update Progpow.Submission) :=
  [.updateJob ⟨exampleProgpowJob, false⟩, .connect 0 1, .change 0 .subscribe, .createWorkerJob 0,
    .change 0 (.authorize true), .change 0 (.setDifficulty 2 true), .createWorkerJob 0]

/-- A submission of the connection. -/
def exampleProgpowSubmission (jobId nonce : String) :
    WorkerJobOp Progpow.Change Progpow.Update Progpow.Submission :=
  let header := Progpow.headerHash exampleProgpowLibrary exampleProgpowJob (text "4001")
  .submit 0 ⟨[some (text "rig"), some (text jobId), some (text nonce),
    some (text "0x" ++ toHexString header), some (text "0x" ++ toHexString exampleMixHash)], none⟩

/-- Different nonces are credited under worker jobs of one hash. -/
theorem nonces_credited_once_two_worker_jobs :
    (∃ s ∈ run (WorkerJobState.step (Zano.pool exampleZanoLibrary)) (initial ⟨none, 0⟩)
        (exampleZanoOps ++ [exampleZanoSubmission 0 "0x00000000000000a1",
          exampleZanoSubmission 1 "0x00000000000000a2"]),
      s.accepted.length = 2 ∧ (s.accepted.map fun e => (e.2.blobHash, e.2.fullNonce)).Nodup) ∧
    (∃ s ∈ run (WorkerJobState.step (Progpow.pool exampleProgpowLibrary 4))
        (initial ⟨none, ExtraNonceProvider.create 1 4, 0⟩)
        (exampleProgpowOps ++ [exampleProgpowSubmission "1" "0x00000000000000a1",
          exampleProgpowSubmission "2" "0x00000000000000a2"]),
      s.accepted.length = 2 ∧ (s.accepted.map fun e => (e.2.headerHash, e.2.nonce)).Nodup) := by
  have hboth := nonces_credited_once_across_worker_jobs exampleZanoLibrary exampleProgpowLibrary 4
    (ExtraNonceProvider.create 1 4)
  constructor
  · have hsome : ∃ s ∈ run (WorkerJobState.step (Zano.pool exampleZanoLibrary)) (initial ⟨none, 0⟩)
        (exampleZanoOps ++ [exampleZanoSubmission 0 "0x00000000000000a1",
          exampleZanoSubmission 1 "0x00000000000000a2"]), s.accepted.length = 2 := by
      decide +kernel
    obtain ⟨s, hrun, hlength⟩ := hsome
    exact ⟨s, hrun, hlength, hboth.1 _ s hrun (by decide +kernel)⟩
  · have hsome : ∃ s ∈ run (WorkerJobState.step (Progpow.pool exampleProgpowLibrary 4))
        (initial ⟨none, ExtraNonceProvider.create 1 4, 0⟩)
        (exampleProgpowOps ++ [exampleProgpowSubmission "1" "0x00000000000000a1",
          exampleProgpowSubmission "2" "0x00000000000000a2"]), s.accepted.length = 2 := by
      decide +kernel
    obtain ⟨s, hrun, hlength⟩ := hsome
    exact ⟨s, hrun, hlength, hboth.2 _ s hrun (by decide +kernel)⟩

/-- A nonce is credited again on another connection of a Zano pool, and under the next worker job
of a connection of a Progpow pool. -/
theorem nonce_credited_under_two_worker_jobs :
    (∃ s ∈ run (WorkerJobState.step (Zano.pool exampleZanoLibrary)) (initial ⟨none, 0⟩)
        (exampleZanoOps ++ [exampleZanoSubmission 0 "0x00000000000000a1",
          exampleZanoSubmission 1 "0x00000000000000a1"]),
      ¬(s.accepted.map fun e => (e.2.blobHash, e.2.fullNonce)).Nodup) ∧
    (∃ s ∈ run (WorkerJobState.step (Progpow.pool exampleProgpowLibrary 4))
        (initial ⟨none, ExtraNonceProvider.create 1 4, 0⟩)
        (exampleProgpowOps ++ [exampleProgpowSubmission "1" "0x00000000000000a1",
          exampleProgpowSubmission "2" "0x00000000000000a1"]),
      ¬(s.accepted.map fun e => (e.2.headerHash, e.2.nonce)).Nodup) := by
  constructor
  · decide +kernel
  · decide +kernel

end Example

end HashStorm.Blockchain
