import HashStorm.Blockchain.Bitcoin.Job
import HashStorm.Lib.MerkleRoot

/-!
# The Merkle tree of a job

`MerkleTree.CalculateSteps` keeps a list whose first entry stands for the coinbase,
which is not known yet. Each pass takes the entry behind it as a step and joins the
others in pairs. The steps are the branch of the coinbase, so `WithFirst` computes
the root over the coinbase and the transactions.
-/

namespace HashStorm.Bitcoin

open MerkleRoot

variable (lib : Library)

/-- `MerkleJoin`. -/
def merkleJoin (hash1 hash2 : List UInt8) : List UInt8 := lib.doubleDigest (hash1 ++ hash2)

/-- The loop that joins the nodes from `startL` on in pairs. -/
def joinPairs : List (List UInt8) → List (List UInt8)
  | hash1 :: hash2 :: nodes => merkleJoin lib hash1 hash2 :: joinPairs nodes
  | _ => []

/-- The nodes from `startL` on: the last node is added again if the list, with the placeholder
and the node behind it, has an odd count. -/
def padded (nodes : List (List UInt8)) : List (List UInt8) :=
  if (nodes.length + 2) % 2 = 1 then nodes ++ nodes.getLast?.toList else nodes

/-- The last node is joined with itself on an odd level. -/
theorem joinPairs_padded : ∀ nodes : List (List UInt8),
    joinPairs lib (padded nodes) = level (merkleJoin lib) nodes
  | [] => by simp [padded, joinPairs, level]
  | [a] => by simp [padded, joinPairs, level]
  | a :: b :: nodes => by
    have ih := joinPairs_padded nodes
    have hpadded : padded (a :: b :: nodes) = a :: b :: padded nodes := by
      simp only [padded, List.length_cons]
      by_cases hodd : nodes.length % 2 = 1
      · cases nodes with
        | nil => simp at hodd
        | cons c nodes =>
          rw [if_pos (by omega), if_pos (by omega)]
          simp
      · rw [if_neg (by omega), if_neg (by omega)]
    rw [hpadded, joinPairs, ih, level]

/-- `CalculateSteps`; the nodes are those behind the placeholder. -/
def calculateSteps : List (List UInt8) → List (List UInt8)
  | [] => []
  | step :: nodes => step :: calculateSteps (joinPairs lib (padded nodes))
termination_by nodes => nodes.length
decreasing_by
  rw [joinPairs_padded, length_level]
  simp only [List.length_cons]
  omega

/-- The steps are the siblings of the coinbase. -/
theorem calculateSteps_eq (hashList : List (List UInt8)) :
    calculateSteps lib hashList = branch (merkleJoin lib) hashList := by
  fun_induction calculateSteps lib hashList with
  | case1 => simp [branch]
  | case2 step nodes ih => rw [ih, joinPairs_padded, branch]

/-- The steps and the coinbase give the Merkle root of the block. -/
theorem withFirst_calculateSteps (hashList : List (List UInt8)) (coinbase : List UInt8) :
    root (merkleJoin lib) (coinbase :: hashList) =
      some (withFirst lib (calculateSteps lib hashList) coinbase) := by
  rw [root_cons, calculateSteps_eq]
  rfl

end HashStorm.Bitcoin
