import HashStorm.Blockchain.Bitcoin.TransactionGrammar

/-!
# The grammar of Handshake transactions

A transaction has a version, inputs, outputs with an address and a covenant, a lock
time, and for each input a stack of witness items. A reader that takes the parts in
front of the witnesses goes on with as many stacks as it has taken inputs.
-/

namespace HashStorm.Handshake

open LittleEndian Wire Bitcoin

/-- An input: where its coin comes from, and its sequence. -/
structure Input where
  prevHash : List UInt8
  prevIndex : UInt32
  sequence : UInt32
  deriving DecidableEq, Repr

/-- An output: its value, its address and its covenant. -/
structure Output where
  value : UInt64
  version : UInt8
  address : List UInt8
  covenantType : UInt8
  covenantItems : List (List UInt8)
  deriving DecidableEq, Repr

/-- A transaction with the stack of each input. -/
structure Transaction where
  version : UInt32
  inputs : List Input
  outputs : List Output
  lockTime : UInt32
  witness : List (List (List UInt8))
  deriving DecidableEq, Repr

def Input.encode (input : Input) : List UInt8 :=
  input.prevHash ++ encodeUInt32 input.prevIndex ++ encodeUInt32 input.sequence

def Output.encode (output : Output) : List UInt8 :=
  leBytes 8 output.value.toNat ++ [output.version, UInt8.ofNat output.address.length] ++
    output.address ++ [output.covenantType] ++ writeVarList writeVarBytes output.covenantItems

section Reading

def readByte : Reader UInt8 := UInt8.ofNat <$> word 1

def readInput : Reader Input := do
  let prevHash ← take 32
  let prevIndex ← readUInt32
  let sequence ← readUInt32
  return ⟨prevHash, prevIndex, sequence⟩

def readOutput : Reader Output := do
  let value ← word 8
  let version ← readByte
  let length ← readByte
  let address ← take length.toNat
  let covenantType ← readByte
  let covenantItems ← varList varBytes
  return ⟨UInt64.ofNat value, version, address, covenantType, covenantItems⟩

/-- The stacks of the inputs, behind the other parts. -/
def readStacks (version : UInt32) (inputs : List Input) (outputs : List Output)
    (lockTime : UInt32) : Reader Transaction := do
  let witness ← counted readWitness inputs.length
  return ⟨version, inputs, outputs, lockTime, witness⟩

def readTransaction : Reader Transaction := do
  let version ← readUInt32
  let inputs ← varList readInput
  let outputs ← varList readOutput
  let lockTime ← readUInt32
  readStacks version inputs outputs lockTime

end Reading

section Reads

theorem reads_byte (b : UInt8) : Reads readByte [b] b := by
  have hword : Reads (word 1) (leBytes 1 b.toNat) b.toNat := reads_word b.toNat_lt
  have hread := Reads.map (f := UInt8.ofNat) hword
  rwa [leBytes, leBytes, UInt8.ofNat_toNat] at hread

theorem reads_input {input : Input} (h : input.prevHash.length = 32) :
    Reads readInput input.encode input := by
  have hprevHash : Reads (take 32) input.prevHash input.prevHash := h ▸ reads_take _
  have hbytes : input.encode = input.prevHash ++ (encodeUInt32 input.prevIndex ++
      (encodeUInt32 input.sequence ++ [])) := by
    simp only [Input.encode, List.append_assoc, List.append_nil]
  rw [hbytes]
  exact hprevHash.bind ((reads_uint32 _).bind ((reads_uint32 _).bind (Reads.pure input)))

/-- An output is read from its bytes if the length of its address fits a byte. -/
theorem reads_output {output : Output} (h : output.address.length < 256)
    (hcount : output.covenantItems.length < 2 ^ 64)
    (hitems : ∀ item ∈ output.covenantItems, item.length < 2 ^ 64) :
    Reads readOutput output.encode output := by
  have hvalue : Reads (word 8) (leBytes 8 output.value.toNat) output.value.toNat :=
    reads_word output.value.toNat_lt
  have hlength : (UInt8.ofNat output.address.length).toNat = output.address.length :=
    UInt8.toNat_ofNat_of_lt' h
  have haddress : Reads (take (UInt8.ofNat output.address.length).toNat) output.address
      output.address := by
    rw [hlength]
    exact reads_take _
  have hbytes : output.encode = leBytes 8 output.value.toNat ++ ([output.version] ++
      ([UInt8.ofNat output.address.length] ++ (output.address ++ ([output.covenantType] ++
        (writeVarList writeVarBytes output.covenantItems ++ []))))) := by
    simp only [Output.encode, List.append_assoc, List.append_nil, List.cons_append,
      List.nil_append]
  rw [hbytes]
  refine hvalue.bind ((reads_byte _).bind ((reads_byte _).bind (haddress.bind
    ((reads_byte _).bind ((reads_varList hcount fun item hitem =>
      reads_varBytes (hitems item hitem)).bind ?_)))))
  rw [UInt64.ofNat_toNat]
  exact Reads.pure output

/-- A reader goes on with the stacks behind the other parts. -/
theorem run_transaction (version lockTime : UInt32) {inputs : List Input} {outputs : List Output}
    (hinputs : inputs.length < 2 ^ 64) (hhash : ∀ i ∈ inputs, i.prevHash.length = 32)
    (houtputs : outputs.length < 2 ^ 64) (haddress : ∀ o ∈ outputs, o.address.length < 256)
    (hcovenant : ∀ o ∈ outputs, o.covenantItems = []) (rest : List UInt8) :
    readTransaction.run (encodeUInt32 version ++ (writeVarList Input.encode inputs ++
      (writeVarList Output.encode outputs ++ (encodeUInt32 lockTime ++ rest)))) =
        (readStacks version inputs outputs lockTime).run rest := by
  have hreadInputs := reads_varList hinputs fun i hi => reads_input (hhash i hi)
  have hreadOutputs := reads_varList houtputs fun o ho => reads_output (haddress o ho)
    (by rw [hcovenant o ho]; decide) (by rw [hcovenant o ho]; exact List.forall_mem_nil _)
  rw [readTransaction, (reads_uint32 version).run_bind, hreadInputs.run_bind,
    hreadOutputs.run_bind, (reads_uint32 lockTime).run_bind]

end Reads

section Yields

variable {version lockTime : UInt32} {inputs : List Input} {outputs : List Output}

/-- The length of an address that is read fits a byte. -/
theorem yields_output : Yields readOutput fun output => output.address.length < 256 := by
  refine (yields_true _).bind fun value _ => (yields_true _).bind fun version _ =>
    (yields_true _).bind fun length _ => (yields_take _).bind fun address haddress =>
      (yields_true _).bind fun covenantType _ => (yields_true _).bind fun items _ =>
        Yields.pure ?_
  rw [haddress]
  exact length.toNat_lt

theorem yields_varList {α : Type} {read : Reader α} {P : α → Prop} (h : Yields read P) :
    Yields (varList read) fun as => ∀ a ∈ as, P a :=
  (yields_true _).bind fun n _ bytes as rest hrun => (yields_counted h n bytes as rest hrun).2

theorem yields_readStacks : Yields (readStacks version inputs outputs lockTime) fun tx =>
    tx.inputs = inputs ∧ tx.outputs = outputs ∧ tx.witness.length = inputs.length :=
  (yields_counted (yields_true _) _).bind fun _ hwitness => Yields.pure ⟨rfl, rfl, hwitness.1⟩

/-- The addresses of a transaction that is read have lengths that fit a byte. -/
theorem yields_transaction :
    Yields readTransaction fun tx => ∀ o ∈ tx.outputs, o.address.length < 256 := by
  refine (yields_true _).bind fun version _ => (yields_true _).bind fun inputs _ =>
    (yields_varList yields_output).bind fun outputs houtputs => (yields_true _).bind
      fun lockTime _ bytes tx rest hrun => ?_
  rw [(yields_readStacks bytes tx rest hrun).2.1]
  exact houtputs

/-- As many inputs are read as are counted behind the version. -/
theorem inputs_length_of_run {n : Nat} {bytes rest : List UInt8} {tx : Transaction}
    (hn : n < 2 ^ 64) (h : readTransaction.run
      (encodeUInt32 version ++ (compactSize n ++ bytes)) = some (tx, rest)) :
    tx.inputs.length = n := by
  have hinputs : Yields (counted readInput n >>= fun inputs => varList readOutput >>= fun outputs =>
      readUInt32 >>= fun lockTime => readStacks version inputs outputs lockTime)
      fun tx => tx.inputs.length = n := by
    refine (yields_counted (yields_true _) n).bind fun inputs hcount => (yields_true _).bind
      fun outputs _ => (yields_true _).bind fun lockTime _ bytes tx rest hrun => ?_
    rw [(yields_readStacks bytes tx rest hrun).1]
    exact hcount.1
  have hversion := (reads_uint32 version).run_bind (fun version =>
    varList readInput >>= fun inputs => varList readOutput >>= fun outputs =>
      readUInt32 >>= fun lockTime => readStacks version inputs outputs lockTime) (compactSize n ++ bytes)
  have hrun := hversion.symm.trans h
  rw [varList, bind_assoc, (reads_compactSize hn).run_bind] at hrun
  exact hinputs bytes tx rest hrun

/-- The first stack has as many items as are counted where the witnesses begin. -/
theorem head_witness_of_run {n : Nat} {input : Input} {bytes rest : List UInt8} {tx : Transaction}
    (hn : n < 2 ^ 64) (h : (readStacks version (input :: inputs) outputs lockTime).run
      (compactSize n ++ bytes) = some (tx, rest)) :
    ∃ stack further, tx.witness = stack :: further ∧ stack.length = n := by
  have hyields : Yields (counted varBytes n >>= fun stack => counted readWitness inputs.length >>=
      fun further => pure ⟨version, input :: inputs, outputs, lockTime, stack :: further⟩)
      fun tx : Transaction => ∃ stack further, tx.witness = stack :: further ∧ stack.length = n :=
    (yields_counted (yields_true _) n).bind fun stack hstack => (yields_true _).bind
      fun further _ => Yields.pure ⟨stack, further, rfl, hstack.1⟩
  rw [readStacks, List.length_cons, counted] at h
  simp only [bind_assoc, pure_bind, readWitness, varList] at h
  rw [(reads_compactSize hn).run_bind] at h
  exact hyields bytes tx rest h

end Yields

end HashStorm.Handshake
