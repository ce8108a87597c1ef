import HashStorm.Blockchain.Bitcoin.OutputTransaction
import HashStorm.Lib.Wire

/-!
# The grammar of transactions and blocks

A transaction has a version, a timestamp on some networks, inputs, outputs and a
lock time. A count of zero in place of the inputs announces the extended form, with
the witnesses behind the outputs. Every well-formed transaction is read from its
encoding, whatever follows, and so are transactions one behind the other.
-/

namespace HashStorm.Bitcoin

open LittleEndian Wire

/-- A transaction input. -/
structure TxIn where
  prevHash : List UInt8
  prevIndex : UInt32
  scriptSig : List UInt8
  sequence : UInt32
  deriving DecidableEq, Repr

/-- A transaction; the witness of every input in the extended form. -/
structure Tx where
  version : UInt32
  timestamp : Option UInt32
  inputs : List TxIn
  outputs : List TxOut
  witness : Option (List (List (List UInt8)))
  lockTime : UInt32
  deriving DecidableEq, Repr

section Encoding

def encodeUInt32 (n : UInt32) : List UInt8 := leBytes 4 n.toNat

def encodeInt64 (v : Int64) : List UInt8 := leBytes 8 v.toUInt64.toNat

def TxIn.encode (input : TxIn) : List UInt8 :=
  input.prevHash ++ encodeUInt32 input.prevIndex ++ writeVarBytes input.scriptSig ++
    encodeUInt32 input.sequence

def TxOut.encode (output : TxOut) : List UInt8 :=
  encodeInt64 output.value ++ writeVarBytes output.scriptPubKey

/-- The stack of one input. -/
def encodeWitness (stack : List (List UInt8)) : List UInt8 := writeVarList writeVarBytes stack

/-- The inputs and outputs, with the witnesses in the extended form. -/
def Tx.encodeBody (tx : Tx) : List UInt8 :=
  match tx.witness with
  | none => writeVarList TxIn.encode tx.inputs ++ writeVarList TxOut.encode tx.outputs
  | some witness =>
    compactSize 0 ++ leBytes 1 1 ++ writeVarList TxIn.encode tx.inputs ++
      writeVarList TxOut.encode tx.outputs ++ witness.flatMap encodeWitness

def Tx.encode (tx : Tx) : List UInt8 :=
  encodeUInt32 tx.version ++ (tx.timestamp.map encodeUInt32).getD [] ++ tx.encodeBody ++
    encodeUInt32 tx.lockTime

end Encoding

section Reading

def readUInt32 : Reader UInt32 := UInt32.ofNat <$> word 4

def readInt64 : Reader Int64 := (fun n => (UInt64.ofNat n).toInt64) <$> word 8

def readTxIn : Reader TxIn := do
  let prevHash ← take 32
  let prevIndex ← readUInt32
  let scriptSig ← varBytes
  let sequence ← readUInt32
  return ⟨prevHash, prevIndex, scriptSig, sequence⟩

def readTxOut : Reader TxOut := do
  let value ← readInt64
  let scriptPubKey ← varBytes
  return ⟨value, scriptPubKey⟩

/-- The stack of one input. -/
def readWitness : Reader (List (List UInt8)) := varList varBytes

/-- The timestamp, on networks that have one. -/
def readTimestamp (hasTimestamp : Bool) : Reader (Option UInt32) :=
  if hasTimestamp then some <$> readUInt32 else pure none

/-- The extended form behind the count of zero. -/
def readExtended : Reader (List TxIn × List TxOut × Option (List (List (List UInt8)))) := do
  let flag ← word 1
  if flag = 1 then
    let inputs ← varList readTxIn
    let outputs ← varList readTxOut
    let witness ← counted readWitness inputs.length
    return (inputs, outputs, some witness)
  else failure

/-- The inputs and outputs, with the witnesses in the extended form. -/
def readBody : Reader (List TxIn × List TxOut × Option (List (List (List UInt8)))) := do
  let count ← readCompactSize
  if count = 0 then readExtended
  else
    let inputs ← counted readTxIn count
    let outputs ← varList readTxOut
    return (inputs, outputs, none)

/-- A transaction, with a timestamp or without. -/
def readTx (hasTimestamp : Bool) : Reader Tx := do
  let version ← readUInt32
  let timestamp ← readTimestamp hasTimestamp
  let (inputs, outputs, witness) ← readBody
  let lockTime ← readUInt32
  return ⟨version, timestamp, inputs, outputs, witness, lockTime⟩

/-- The part of a block that every network has. -/
structure Block (τ : Type) where
  header : List UInt8
  transactionCount : Nat
  coinbase : Tx
  transactions : List τ
  deriving DecidableEq, Repr

/-- A header of the given length, the number of transactions, the coinbase, and the
other transactions by the grammar of the network. -/
def readBlock {τ : Type} (headerLength : Nat) (hasTimestamp : Bool) (read : Reader τ) :
    Reader (Block τ) := do
  let header ← take headerLength
  let count ← readCompactSize
  if count = 0 then failure
  else
    let coinbase ← readTx hasTimestamp
    let transactions ← counted read (count - 1)
    return ⟨header, count, coinbase, transactions⟩

end Reading

/-- The lengths and counts are 64-bit numbers, and hashes have 32 bytes. -/
structure Tx.WellFormed (hasTimestamp : Bool) (tx : Tx) : Prop where
  timestamp_eq : tx.timestamp.isSome = hasTimestamp
  inputs_length : tx.inputs.length < 2 ^ 64
  outputs_length : tx.outputs.length < 2 ^ 64
  prevHash_length : ∀ i ∈ tx.inputs, i.prevHash.length = 32
  scriptSig_length : ∀ i ∈ tx.inputs, i.scriptSig.length < 2 ^ 64
  scriptPubKey_length : ∀ o ∈ tx.outputs, o.scriptPubKey.length < 2 ^ 64
  legacy : tx.witness = none → tx.inputs ≠ []
  witness_length : ∀ w, tx.witness = some w → w.length = tx.inputs.length
  stack_length : ∀ w, tx.witness = some w → ∀ stack ∈ w, stack.length < 2 ^ 64 ∧
    ∀ item ∈ stack, item.length < 2 ^ 64

section Reads

theorem reads_uint32 (n : UInt32) : Reads readUInt32 (encodeUInt32 n) n := by
  have hword : Reads (word 4) (leBytes 4 n.toNat) n.toNat := reads_word n.toNat_lt
  have hread := Reads.map (f := UInt32.ofNat) hword
  rwa [UInt32.ofNat_toNat] at hread

theorem reads_int64 (v : Int64) : Reads readInt64 (encodeInt64 v) v := by
  have hword : Reads (word 8) (leBytes 8 v.toUInt64.toNat) v.toUInt64.toNat :=
    reads_word v.toUInt64.toNat_lt
  have hread := Reads.map (f := fun n => (UInt64.ofNat n).toInt64) hword
  rwa [UInt64.ofNat_toNat, Int64.toInt64_toUInt64] at hread

theorem reads_txIn {input : TxIn} (hhash : input.prevHash.length = 32)
    (hscript : input.scriptSig.length < 2 ^ 64) : Reads readTxIn input.encode input := by
  have hprevHash : Reads (take 32) input.prevHash input.prevHash := hhash ▸ reads_take _
  have hbytes : input.encode = input.prevHash ++ (encodeUInt32 input.prevIndex ++
      (writeVarBytes input.scriptSig ++ (encodeUInt32 input.sequence ++ []))) := by
    simp only [TxIn.encode, List.append_assoc, List.append_nil]
  rw [hbytes]
  refine hprevHash.bind ((reads_uint32 _).bind ((reads_varBytes hscript).bind ?_))
  exact (reads_uint32 _).bind (Reads.pure input)

theorem reads_txOut {output : TxOut} (hscript : output.scriptPubKey.length < 2 ^ 64) :
    Reads readTxOut output.encode output := by
  rw [TxOut.encode, ← List.append_nil (writeVarBytes _)]
  exact (reads_int64 _).bind ((reads_varBytes hscript).bind (Reads.pure output))

theorem reads_timestamp (timestamp : Option UInt32) :
    Reads (readTimestamp timestamp.isSome) ((timestamp.map encodeUInt32).getD []) timestamp := by
  cases timestamp with
  | none => exact Reads.pure none
  | some t => exact (reads_uint32 t).map

variable {hasTimestamp : Bool} {tx : Tx}

theorem Tx.WellFormed.reads_inputs (h : tx.WellFormed hasTimestamp) :
    ∀ i ∈ tx.inputs, Reads readTxIn i.encode i :=
  fun i hi => reads_txIn (h.prevHash_length i hi) (h.scriptSig_length i hi)

theorem Tx.WellFormed.reads_outputs (h : tx.WellFormed hasTimestamp) :
    Reads (varList readTxOut) (writeVarList TxOut.encode tx.outputs) tx.outputs :=
  reads_varList h.outputs_length fun o ho => reads_txOut (h.scriptPubKey_length o ho)

/-- The bytes behind the count of zero. -/
theorem Tx.WellFormed.reads_extended (h : tx.WellFormed hasTimestamp)
    {witness : List (List (List UInt8))} (hwitness : tx.witness = some witness) :
    Reads readExtended (leBytes 1 1 ++ (writeVarList TxIn.encode tx.inputs ++
      (writeVarList TxOut.encode tx.outputs ++ (witness.flatMap encodeWitness ++ []))))
      (tx.inputs, tx.outputs, some witness) := by
  have hstacks : ∀ stack ∈ witness, Reads readWitness (encodeWitness stack) stack := by
    intro stack hstack
    obtain ⟨hlength, hitems⟩ := h.stack_length witness hwitness stack hstack
    exact reads_varList hlength fun item hitem => reads_varBytes (hitems item hitem)
  have hcounted := reads_counted hstacks
  rw [h.witness_length witness hwitness] at hcounted
  refine (reads_word (by decide)).bind ?_
  rw [if_pos rfl]
  refine (reads_varList h.inputs_length h.reads_inputs).bind (h.reads_outputs.bind ?_)
  exact hcounted.bind (Reads.pure _)

theorem Tx.WellFormed.reads_body (h : tx.WellFormed hasTimestamp) :
    Reads readBody tx.encodeBody (tx.inputs, tx.outputs, tx.witness) := by
  cases hwitness : tx.witness with
  | none =>
    have hcount : tx.inputs.length ≠ 0 := fun hzero =>
      h.legacy hwitness (List.eq_nil_of_length_eq_zero hzero)
    have hbytes : tx.encodeBody = compactSize tx.inputs.length ++
        (tx.inputs.flatMap TxIn.encode ++ (writeVarList TxOut.encode tx.outputs ++ [])) := by
      simp only [Tx.encodeBody, hwitness, writeVarList, List.append_assoc, List.append_nil]
    rw [hbytes]
    refine (reads_compactSize h.inputs_length).bind ?_
    rw [if_neg hcount]
    exact (reads_counted h.reads_inputs).bind (h.reads_outputs.bind (Reads.pure _))
  | some witness =>
    have hbytes : tx.encodeBody = compactSize 0 ++ (leBytes 1 1 ++
        (writeVarList TxIn.encode tx.inputs ++ (writeVarList TxOut.encode tx.outputs ++
          (witness.flatMap encodeWitness ++ [])))) := by
      simp only [Tx.encodeBody, hwitness, List.append_assoc, List.append_nil]
    rw [hbytes]
    refine (reads_compactSize (by decide)).bind ?_
    rw [if_pos rfl]
    exact h.reads_extended hwitness

/-- A well-formed transaction is read from its encoding. -/
theorem Tx.WellFormed.reads (h : tx.WellFormed hasTimestamp) :
    Reads (readTx hasTimestamp) tx.encode tx := by
  have hbytes : tx.encode = encodeUInt32 tx.version ++
      ((tx.timestamp.map encodeUInt32).getD [] ++
        (tx.encodeBody ++ (encodeUInt32 tx.lockTime ++ []))) := by
    simp only [Tx.encode, List.append_assoc, List.append_nil]
  have htimestamp := reads_timestamp tx.timestamp
  rw [h.timestamp_eq] at htimestamp
  rw [hbytes]
  refine (reads_uint32 _).bind (htimestamp.bind (h.reads_body.bind ?_))
  exact (reads_uint32 _).bind (Reads.pure tx)

/-- A block is read from its parts, when the other transactions are read by the grammar
of the network. -/
theorem reads_block {τ : Type} {read : Reader τ} (header : List UInt8) {coinbase : List UInt8}
    {datas : List (List UInt8)} {transactions : List τ}
    (hcoinbase : Reads (readTx hasTimestamp) coinbase tx)
    (htransactions : List.Forall₂ (Reads read) datas transactions)
    (hlength : datas.length + 1 < 2 ^ 64) :
    Reads (readBlock header.length hasTimestamp read)
      (header ++ (compactSize (datas.length + 1) ++ (coinbase ++ (datas.flatten ++ []))))
      ⟨header, datas.length + 1, tx, transactions⟩ := by
  have hcounted := reads_flatten htransactions
  rw [← htransactions.length_eq] at hcounted
  refine (reads_take header).bind ((reads_compactSize hlength).bind ?_)
  rw [if_neg (Nat.succ_ne_zero _), Nat.add_sub_cancel]
  exact hcoinbase.bind (hcounted.bind (Reads.pure _))

end Reads

end HashStorm.Bitcoin
