import Mathlib.Data.List.Basic

/-!
# Merkle roots

The nodes of a level are joined in pairs, the last one of an odd level with
itself, until one node is left. The branch of the first leaf holds its sibling on
every level; joining the leaf with them gives the root, whatever the leaf is.
-/

namespace HashStorm.MerkleRoot

variable {α : Type*} (join : α → α → α)

/-- The level above: adjacent nodes are joined, a last single one with itself. -/
def level : List α → List α
  | [] => []
  | [a] => [join a a]
  | a :: b :: nodes => join a b :: level nodes

theorem length_level : ∀ nodes : List α, (level join nodes).length = (nodes.length + 1) / 2
  | [] => by simp [level]
  | [_] => by simp [level]
  | _ :: _ :: nodes => by
    simp only [level, List.length_cons, length_level nodes]
    omega

/-- The root of the tree over the nodes; there is none without a node. -/
def root : List α → Option α
  | [] => none
  | [a] => some a
  | a :: b :: nodes => root (level join (a :: b :: nodes))
termination_by nodes => nodes.length
decreasing_by
  rw [length_level]
  simp only [List.length_cons]
  omega

/-- The siblings of a first leaf in front of the nodes, level by level. -/
def branch : List α → List α
  | [] => []
  | a :: nodes => a :: branch (level join nodes)
termination_by nodes => nodes.length
decreasing_by
  rw [length_level]
  simp only [List.length_cons]
  omega

/-- A leaf and its siblings give the root. -/
theorem root_cons (leaf : α) (nodes : List α) :
    root join (leaf :: nodes) = some ((branch join nodes).foldl join leaf) := by
  induction hn : nodes.length using Nat.strongRecOn generalizing leaf nodes with
  | ind n ih =>
    cases nodes with
    | nil => simp [root, branch]
    | cons a nodes =>
      have hlt : (level join nodes).length < n := by
        rw [length_level, ← hn, List.length_cons]
        omega
      rw [root, level, ih _ hlt _ _ rfl, branch, List.foldl_cons]

section Sentinel

variable (sentinel : α)

/-- The level above, where a last single node is joined with the sentinel. -/
def sentinelLevel : List α → List α
  | [] => []
  | [a] => [join a sentinel]
  | a :: b :: nodes => join a b :: sentinelLevel nodes

@[simp] theorem length_sentinelLevel :
    ∀ nodes : List α, (sentinelLevel join sentinel nodes).length = (nodes.length + 1) / 2
  | [] => by simp [sentinelLevel]
  | [_] => by simp [sentinelLevel]
  | _ :: _ :: nodes => by
    simp only [sentinelLevel, List.length_cons, length_sentinelLevel nodes]
    omega

/-- The root of the tree over the nodes; without a node, it is the sentinel. -/
def sentinelRoot : List α → α
  | [] => sentinel
  | [a] => a
  | a :: b :: nodes => sentinelRoot (sentinelLevel join sentinel (a :: b :: nodes))
termination_by nodes => nodes.length
decreasing_by
  rw [length_sentinelLevel]
  simp only [List.length_cons]
  omega

variable {join sentinel}

theorem sentinelRoot_of_one_lt {nodes : List α} (h : 1 < nodes.length) :
    sentinelRoot join sentinel nodes =
      sentinelRoot join sentinel (sentinelLevel join sentinel nodes) := by
  match nodes, h with
  | a :: b :: nodes, _ => rw [sentinelRoot]

end Sentinel

end HashStorm.MerkleRoot
