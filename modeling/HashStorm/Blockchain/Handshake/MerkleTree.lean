import HashStorm.Lib.MerkleRoot

/-!
# The Merkle tree of a Handshake job

`HandshakeMerkleTree.CreateTree` keeps all levels in one list. It appends the
hashes of the pairs of a level, which starts at an offset and ends with the list,
and then moves the offset behind the level. The last node is the root of the
recursive definition. An index outside the list is `none`.
-/

namespace HashStorm.Handshake

open MerkleRoot

/-- `Digest` of the hasher. -/
abbrev Hasher := List UInt8 → List UInt8

variable (hasher : Hasher)

/-- `HashEmpty`. -/
def hashEmpty : List UInt8 := hasher []

/-- `HashLeaf`. -/
def hashLeaf (data : List UInt8) : List UInt8 := hasher (0x00 :: data)

/-- `HashInternal`. -/
def hashInternal (left right : List UInt8) : List UInt8 := hasher (0x01 :: left ++ right)

/-- The loop over the pairs of a level of the given size, which starts at the offset `i`. -/
def hashPairs (sentinel : List UInt8) (i size : Nat) (nodes : List (List UInt8)) (j : Nat) :
    Option (List (List UInt8)) :=
  if j < size then do
    let l := j
    let r := j + 1
    let left ← nodes[i + l]?
    let right ← if r < size then nodes[i + r]? else some sentinel
    hashPairs sentinel i size (nodes ++ [hashInternal hasher left right]) (j + 2)
  else some nodes
termination_by size - j

/-- The loop over the levels. -/
def hashLevels (sentinel : List UInt8) (nodes : List (List UInt8)) (i size : Nat) :
    Option (List (List UInt8)) :=
  if 1 < size then do
    let nodes ← hashPairs hasher sentinel i size nodes 0
    hashLevels sentinel nodes (i + size) ((size + 1) >>> 1)
  else some nodes
termination_by size
decreasing_by
  rw [Nat.shiftRight_eq_div_pow]
  omega

/-- `CreateTree`. -/
def createTree (leaves : List (List UInt8)) : Option (List (List UInt8)) :=
  let sentinel := hashEmpty hasher
  let nodes := leaves.map (hashLeaf hasher)
  let size := nodes.length
  if size = 0 then some (nodes ++ [sentinel]) else hashLevels hasher sentinel nodes 0 size

/-- `CreateRoot`. -/
def createRoot (leaves : List (List UInt8)) : Option (Option (List UInt8)) :=
  (createTree hasher leaves).map List.getLast?

/-- The root by recursion on the levels. -/
def merkleRoot (leaves : List (List UInt8)) : List UInt8 :=
  sentinelRoot (hashInternal hasher) (hashEmpty hasher) (leaves.map (hashLeaf hasher))

section Loops

variable (sentinel : List UInt8)

theorem hashPairs_of_le {i size j : Nat} {nodes : List (List UInt8)} (h : size ≤ j) :
    hashPairs hasher sentinel i size nodes j = some nodes := by
  rw [hashPairs, if_neg (Nat.not_lt.mpr h)]

/-- The pairs behind those that are done are joined, and the hashes appended. -/
theorem hashPairs_eq (before done rest made : List (List UInt8)) :
    hashPairs hasher sentinel before.length (done.length + rest.length)
        (before ++ (done ++ rest) ++ made) done.length =
      some (before ++ (done ++ rest) ++
        (made ++ sentinelLevel (hashInternal hasher) sentinel rest)) := by
  induction rest using sentinelLevel.induct generalizing done made with
  | case1 =>
    rw [hashPairs_of_le _ _ (by simp), sentinelLevel, List.append_nil made]
  | case2 a =>
    have hleft : (before ++ (done ++ [a]) ++ made)[before.length + done.length]? = some a := by
      simp
    rw [hashPairs, if_pos (by simp)]
    simp only [hleft, Option.bind_eq_bind, Option.bind_some]
    rw [if_neg (by simp), hashPairs_of_le _ _ (by simp), sentinelLevel, List.append_assoc]
  | case3 a b rest ih =>
    have hleft : (before ++ (done ++ a :: b :: rest) ++ made)[before.length + done.length]? =
        some a := by
      simp
    have hright : (before ++ (done ++ a :: b :: rest) ++ made)[before.length + (done.length + 1)]? =
        some b := by
      rw [List.append_assoc, List.getElem?_append_right (by omega)]
      simp
    have hnext := ih (done ++ [a, b]) (made ++ [hashInternal hasher a b])
    have hsize : done.length + (a :: b :: rest).length = (done ++ [a, b]).length + rest.length := by
      simp only [List.length_append, List.length_cons, List.length_nil]
      omega
    rw [hashPairs, if_pos (by simp)]
    simp only [hleft, Option.bind_eq_bind, Option.bind_some]
    rw [if_pos (by simp), hright, Option.bind_some, hsize]
    simpa [sentinelLevel] using hnext

/-- From the level that starts at the offset and ends the list, the loop comes to the root. -/
theorem hashLevels_root (before current : List (List UInt8)) (hne : current ≠ []) :
    ∃ nodes, hashLevels hasher sentinel (before ++ current) before.length current.length =
        some nodes ∧
      nodes.getLast? = some (sentinelRoot (hashInternal hasher) sentinel current) := by
  induction hn : current.length using Nat.strongRecOn generalizing before current with
  | ind n ih =>
    subst hn
    by_cases hone : 1 < current.length
    · have hlevel := length_sentinelLevel (hashInternal hasher) sentinel current
      have hpairs := hashPairs_eq hasher sentinel before [] current []
      simp only [List.nil_append, List.append_nil, List.length_nil, Nat.zero_add] at hpairs
      have hnext := ih _ (by rw [hlevel]; omega) (before ++ current)
        (sentinelLevel (hashInternal hasher) sentinel current)
        (List.ne_nil_of_length_pos (by rw [hlevel]; omega)) rfl
      rw [hashLevels, if_pos hone, hpairs, sentinelRoot_of_one_lt hone]
      rw [hlevel, List.length_append] at hnext
      simpa [Nat.shiftRight_eq_div_pow] using hnext
    · match current, hne, hone with
      | [a], _, _ =>
        refine ⟨before ++ [a], by rw [hashLevels, if_neg (by simp)], ?_⟩
        rw [List.getLast?_concat, sentinelRoot]
      | _ :: _ :: _, _, hone => exact absurd (by simp) hone

end Loops

/-- **The flat tree computes the recursive root.** For every hasher and all leaves, no index lies
outside the list, and the last node is the root of the recursion on the levels. -/
theorem createRoot_eq (hasher : Hasher) (leaves : List (List UInt8)) :
    createRoot hasher leaves = some (some (merkleRoot hasher leaves)) := by
  rw [createRoot, createTree, merkleRoot]
  by_cases hempty : leaves = []
  · subst hempty
    simp [sentinelRoot]
  · have hne : leaves.map (hashLeaf hasher) ≠ [] := by simpa using hempty
    obtain ⟨nodes, hnodes, hlast⟩ :=
      hashLevels_root hasher (hashEmpty hasher) [] _ hne
    simp only [List.nil_append, List.length_nil] at hnodes
    simp only [List.length_eq_zero_iff, if_neg hne, hnodes, Option.map_some, hlast]

end HashStorm.Handshake
