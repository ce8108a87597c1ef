import HashStorm.Blockchain.Kaspa.Job
import HashStorm.Lib.Wire

/-!
# The bytes of a Kaspa header

A job hashes its header, and the jobs of `KaspaHeavyJob` hash little else. The
bytes have counts in front of what varies in length, so that a node reads all
fields back from them. Headers of different scores have therefore different bytes,
also without the time and the nonce.
-/

namespace HashStorm.Kaspa

open Stratum LittleEndian Wire

/-- What the bytes of a header say. -/
structure HeaderFields where
  version : UInt16
  parents : List (List (List UInt8))
  hashMerkleRoot : List UInt8
  acceptedIdMerkleRoot : List UInt8
  utxoCommitment : List UInt8
  timestamp : UInt64
  bits : UInt32
  nonce : UInt64
  daaScore : UInt64
  blueScore : UInt64
  blueWork : List UInt8
  pruningPoint : List UInt8
  deriving DecidableEq, Repr

/-- The bytes of `BlueWork`, which may have an odd number of digits. -/
def RpcBlockHeader.blueWorkBytes (header : RpcBlockHeader) : List UInt8 :=
  hexToByteArray (List.replicate (header.blueWork.length % 2) 48 ++ header.blueWork)

/-- The fields of a header with a time and a nonce; of the version, its low half is kept. -/
def headerFields (header : RpcBlockHeader) (timestamp : Int64) (nonce : UInt64) : HeaderFields where
  version := UInt16.ofNat header.version.toNat
  parents := header.parents.map fun hashes => hashes.map hexToByteArray
  hashMerkleRoot := hexToByteArray header.hashMerkleRoot
  acceptedIdMerkleRoot := hexToByteArray header.acceptedIdMerkleRoot
  utxoCommitment := hexToByteArray header.utxoCommitment
  timestamp := timestamp.toUInt64
  bits := header.bits
  nonce := nonce
  daaScore := header.daaScore
  blueScore := header.blueScore
  blueWork := header.blueWorkBytes
  pruningPoint := hexToByteArray header.pruningPoint

/-- A text is the hash of a block or a root: 32 bytes in digits. -/
abbrev IsHash (hash : Text) : Prop := isFixedLengthHex hash 64 = true

/-- What a node promises of its headers: hashes are hashes, and lists are not longer than a
message can be. -/
structure RpcBlockHeader.WellFormed (header : RpcBlockHeader) : Prop where
  parents_length : header.parents.length < 2 ^ 31
  hashes_length : ∀ hashes ∈ header.parents, hashes.length < 2 ^ 31
  parents : ∀ hashes ∈ header.parents, ∀ hash ∈ hashes, IsHash hash
  hashMerkleRoot : IsHash header.hashMerkleRoot
  acceptedIdMerkleRoot : IsHash header.acceptedIdMerkleRoot
  utxoCommitment : IsHash header.utxoCommitment
  blueWork_length : header.blueWork.length < 2 ^ 31
  pruningPoint : IsHash header.pruningPoint

/-- The nonce of a header is not among what a node promises. -/
theorem RpcBlockHeader.WellFormed.setNonce {header : RpcBlockHeader} (h : header.WellFormed)
    (nonce : UInt64) : { header with nonce := nonce }.WellFormed :=
  ⟨h.parents_length, h.hashes_length, h.parents, h.hashMerkleRoot, h.acceptedIdMerkleRoot,
    h.utxoCommitment, h.blueWork_length, h.pruningPoint⟩

section Reading

/-- The parents of one level. -/
def readParents : Reader (List (List UInt8)) := do
  let count ← word 8
  counted (take 32) count

/-- Reads a header as it is written. -/
def readHeader : Reader HeaderFields := do
  let version ← word 2
  let levels ← word 8
  let parents ← counted readParents levels
  let hashMerkleRoot ← take 32
  let acceptedIdMerkleRoot ← take 32
  let utxoCommitment ← take 32
  let timestamp ← word 8
  let bits ← word 4
  let nonce ← word 8
  let daaScore ← word 8
  let blueScore ← word 8
  let blueWorkLength ← word 8
  let blueWork ← take blueWorkLength
  let pruningPoint ← take 32
  return {
    version := UInt16.ofNat version
    parents := parents
    hashMerkleRoot := hashMerkleRoot
    acceptedIdMerkleRoot := acceptedIdMerkleRoot
    utxoCommitment := utxoCommitment
    timestamp := UInt64.ofNat timestamp
    bits := UInt32.ofNat bits
    nonce := UInt64.ofNat nonce
    daaScore := UInt64.ofNat daaScore
    blueScore := UInt64.ofNat blueScore
    blueWork := blueWork
    pruningPoint := pruningPoint }

end Reading

section Reads

/-- A hash has 32 bytes. -/
theorem IsHash.length_bytes {hash : Text} (h : IsHash hash) :
    (hexToByteArray hash).length = 32 := by
  obtain ⟨hlength, hdigits⟩ := isFixedLengthHex_iff.mp h
  rw [hexToByteArray_of_isHexDigit hdigits, length_hexPairs, hlength]

theorem IsHash.reads {hash : Text} (h : IsHash hash) :
    Reads (take 32) (hexToByteArray hash) (hexToByteArray hash) := by
  have hread := reads_take (hexToByteArray hash)
  rwa [h.length_bytes] at hread

/-- The hashes of one level are read behind their number. -/
theorem reads_parents {hashes : List Text} (hlength : hashes.length < 2 ^ 31)
    (h : ∀ hash ∈ hashes, IsHash hash) :
    Reads readParents (leBytes 8 hashes.length ++ hashes.flatMap hexToByteArray)
      (hashes.map hexToByteArray) := by
  have hcount : Reads (word 8) (leBytes 8 hashes.length) hashes.length := reads_word (by omega)
  exact hcount.bind (reads_counted_map fun hash hhash => (h hash hhash).reads)

/-- All levels are read one behind the other. -/
theorem reads_levels {header : RpcBlockHeader} (h : header.WellFormed) :
    Reads (counted readParents header.parents.length)
      (header.parents.flatMap fun hashes =>
        leBytes 8 hashes.length ++ hashes.flatMap hexToByteArray)
      (header.parents.map fun hashes => hashes.map hexToByteArray) :=
  reads_counted_map fun hashes hhashes =>
    reads_parents (h.hashes_length hashes hhashes) (h.parents hashes hhashes)

/-- The digits are not shortened but halved. -/
theorem length_blueWorkBytes_le (header : RpcBlockHeader) :
    header.blueWorkBytes.length ≤ header.blueWork.length + 1 := by
  have hpairs : ∀ s : Text, (hexToByteArray s).length ≤ s.length := by
    intro s
    rw [hexToByteArray, length_hexPairs]
    split
    · rw [List.length_drop]
      omega
    · omega
  refine (hpairs _).trans ?_
  rw [List.length_append, List.length_replicate]
  omega

/-- **A header is read back from its bytes**, whatever follows them. -/
theorem reads_headerBytes {header : RpcBlockHeader} (h : header.WellFormed) (timestamp : Int64)
    (nonce : UInt64) : Reads readHeader (headerBytes header timestamp nonce)
      (headerFields header timestamp nonce) := by
  have hbytes : headerBytes header timestamp nonce =
      leBytes 2 header.version.toNat ++ (leBytes 8 header.parents.length ++
        (header.parents.flatMap (fun hashes =>
            leBytes 8 hashes.length ++ hashes.flatMap hexToByteArray) ++
          (hexToByteArray header.hashMerkleRoot ++ (hexToByteArray header.acceptedIdMerkleRoot ++
            (hexToByteArray header.utxoCommitment ++ (leBytes 8 timestamp.toUInt64.toNat ++
              (leBytes 4 header.bits.toNat ++ (leBytes 8 nonce.toNat ++
                (leBytes 8 header.daaScore.toNat ++ (leBytes 8 header.blueScore.toNat ++
                  (leBytes 8 header.blueWorkBytes.length ++ (header.blueWorkBytes ++
                    (hexToByteArray header.pruningPoint ++ []))))))))))))) := by
    simp only [headerBytes, RpcBlockHeader.blueWorkBytes, List.append_assoc, List.append_nil]
  have hblueWork : header.blueWorkBytes.length < 256 ^ 8 := by
    have hle := length_blueWorkBytes_le header
    have hlt := h.blueWork_length
    omega
  rw [hbytes]
  -- each field in the order in which it is written
  refine (reads_word_mod 2 _).bind ((reads_word ?_).bind ((reads_levels h).bind
    (h.hashMerkleRoot.reads.bind (h.acceptedIdMerkleRoot.reads.bind (h.utxoCommitment.reads.bind
      ((reads_word timestamp.toUInt64.toNat_lt).bind ((reads_word header.bits.toNat_lt).bind
        ((reads_word nonce.toNat_lt).bind ((reads_word header.daaScore.toNat_lt).bind
          ((reads_word header.blueScore.toNat_lt).bind ((reads_word hblueWork).bind
            ((reads_take _).bind (h.pruningPoint.reads.bind ?_)))))))))))))
  · have hlt := h.parents_length
    omega
  · simp only [UInt32.ofNat_toNat, UInt64.ofNat_toNat]
    have hversion : UInt16.ofNat (header.version.toNat % 256 ^ 2) =
        UInt16.ofNat header.version.toNat := by
      apply UInt16.toNat.inj
      rw [UInt16.toNat_ofNat', UInt16.toNat_ofNat']
      exact Nat.mod_mod _ _
    rw [hversion]
    exact Reads.pure _

end Reads

/-- **The bytes of a header tell its fields.** -/
theorem readHeader_headerBytes {header : RpcBlockHeader} (h : header.WellFormed)
    (timestamp : Int64) (nonce : UInt64) : readHeader.run (headerBytes header timestamp nonce) =
      some (headerFields header timestamp nonce, []) :=
  (reads_headerBytes h timestamp nonce).run

section Example

instance (header : RpcBlockHeader) : Decidable header.WellFormed :=
  decidable_of_iff
    (header.parents.length < 2 ^ 31 ∧ (∀ hashes ∈ header.parents, hashes.length < 2 ^ 31) ∧
      (∀ hashes ∈ header.parents, ∀ hash ∈ hashes, IsHash hash) ∧ IsHash header.hashMerkleRoot ∧
      IsHash header.acceptedIdMerkleRoot ∧ IsHash header.utxoCommitment ∧
      header.blueWork.length < 2 ^ 31 ∧ IsHash header.pruningPoint)
    ⟨fun h => ⟨h.1, h.2.1, h.2.2.1, h.2.2.2.1, h.2.2.2.2.1, h.2.2.2.2.2.1, h.2.2.2.2.2.2.1,
      h.2.2.2.2.2.2.2⟩, fun h => ⟨h.1, h.2, h.3, h.4, h.5, h.6, h.7, h.8⟩⟩

/-- A header of a score, with parents on two levels. -/
def exampleHeader (daaScore : UInt64) : RpcBlockHeader where
  version := 1
  parents := [[List.replicate 64 97], [List.replicate 64 98, List.replicate 64 99]]
  hashMerkleRoot := List.replicate 64 48
  acceptedIdMerkleRoot := List.replicate 64 49
  utxoCommitment := List.replicate 64 50
  timestamp := 1700000000000
  bits := 0x1d00ffff
  nonce := 0
  daaScore := daaScore
  blueWork := [49, 48, 48]
  pruningPoint := List.replicate 64 51
  blueScore := 7

/-- A header without its time and its nonce. -/
theorem readHeader_headerBytes_example :
    readHeader.run (headerBytes (exampleHeader 26962009) 0 0) =
      some (headerFields (exampleHeader 26962009) 0 0, []) :=
  readHeader_headerBytes (by decide +kernel) 0 0

end Example

/-- Headers with the same bytes have the same fields. -/
theorem headerFields_eq_of_bytes_eq {header header' : RpcBlockHeader} (h : header.WellFormed)
    (h' : header'.WellFormed) {timestamp timestamp' : Int64} {nonce nonce' : UInt64}
    (hbytes : headerBytes header timestamp nonce = headerBytes header' timestamp' nonce') :
    headerFields header timestamp nonce = headerFields header' timestamp' nonce' := by
  have hread := (reads_headerBytes h timestamp nonce).run
  rw [hbytes, (reads_headerBytes h' timestamp' nonce').run] at hread
  exact (Prod.mk.inj (Option.some.inj hread)).1.symm

end HashStorm.Kaspa
