import HashStorm.Blockchain.Handshake.Coinbase
import HashStorm.Blockchain.Handshake.TransactionGrammar

/-!
# Which Handshake coinbases are read back

The parts in front of the witnesses are those of the transaction. Behind them stands
one count, of the items of all inputs together, so the first stack is read with the
items of the others. It is the stack of the coinbase only without claims and
airdrops; then its items are short enough for their push operations to be counts.
-/

namespace HashStorm.Handshake

open Stratum Bitcoin LittleEndian Wire

/-- What is read of an input without a script. -/
def TxIn.toInput (input : TxIn) : Input := ⟨input.prevOutHash, input.prevOutN, input.sequence⟩

/-- What is read of an output. -/
def HandshakeTransactionOutput.toOutput (output : HandshakeTransactionOutput) : Output :=
  ⟨.ofNat output.amount.toNat, output.version, hexToByteArray output.address,
    output.type.toUInt8, []⟩

/-- The transaction that the coinbase stands for: the pool's input has the coinbase items, and
those of the claims and airdrops have their blobs. -/
def coinbaseTransaction (params : CoinbaseParameters) (template : CoinbaseTemplate) (draws : Draws)
    (aux : List UInt8) (txOut : List HandshakeTransactionOutput) : Transaction where
  version := params.txVersion
  inputs := (createInputTransaction template draws).map TxIn.toInput
  outputs := txOut.map HandshakeTransactionOutput.toOutput
  lockTime := template.height
  witness := [aux, draws.randomBytes.toList, List.replicate 8 0] ::
    (template.claims ++ template.airdrops).map fun claim => [hexToByteArray claim.blob]

/-- The coinbase is read, without bytes left over, as the transaction that it stands for. -/
def ReadsBack (params : CoinbaseParameters) (template : CoinbaseTemplate) (draws : Draws)
    (coinbase : Coinbase) : Prop :=
  ∃ aux txOut, coinbaseAuxBytes params template = .ok aux ∧
    createOutputTransaction params template = .ok txOut ∧
    readTransaction.run coinbase.serializeCoinbase =
      some (coinbaseTransaction params template draws aux txOut, [])

section ReadsBack

variable {lib : StreamLibrary} {params : CoinbaseParameters} {template : CoinbaseTemplate}
  {draws : Draws} {coinbase : Coinbase} {aux : List UInt8}
  {txOut : List HandshakeTransactionOutput}

theorem length_coinbaseAuxBytes (h : coinbaseAuxBytes params template = .ok aux) :
    aux.length = 20 := by
  unfold coinbaseAuxBytes at h
  split at h
  · simp only at h
    split at h
    · rename_i hle
      obtain rfl := Except.ok.inj h
      rw [List.length_append, List.length_replicate]
      omega
    · cases h
  · obtain rfl := Except.ok.inj h
    exact List.length_replicate

/-- Up to seventy-five bytes are pushed as they are written behind their number. -/
theorem StreamLibrary.Canonical.getPushOp_eq_writeVarBytes (hlib : lib.Canonical)
    {data : List UInt8} (hmin : 2 ≤ data.length) (hmax : data.length ≤ 75) :
    lib.getPushOp data = writeVarBytes data := by
  rw [hlib.getPushOp_eq data hmin hmax, writeVarBytes, compactSize, if_pos (by omega)]
  rfl

theorem StreamLibrary.Canonical.serializeOutput_eq (hlib : lib.Canonical)
    {output : HandshakeTransactionOutput} {bytes : List UInt8}
    (h : serializeOutput lib output = .ok bytes) : bytes = output.toOutput.encode := by
  unfold serializeOutput at h
  split at h
  · cases h
  · obtain rfl := Except.ok.inj h
    rw [hlib.writeUInt64_eq, hlib.varInt_eq]
    simp [Output.encode, HandshakeTransactionOutput.toOutput, writeVarList]

theorem StreamLibrary.Canonical.serializeOutputTransaction_eq (hlib : lib.Canonical)
    {bytes : List UInt8} (h : serializeOutputTransaction lib txOut = .ok bytes) :
    bytes = compactSize (UInt32.ofNat txOut.length).toNat ++
      (txOut.map HandshakeTransactionOutput.toOutput).flatMap Output.encode := by
  obtain ⟨outputs, houtputs, hbytes⟩ := bind_eq_ok.mp h
  obtain rfl := Except.ok.inj hbytes
  have hall : outputs = txOut.map fun output => output.toOutput.encode := by
    clear h hbytes
    induction txOut generalizing outputs with
    | nil =>
      obtain rfl := Except.ok.inj houtputs
      rfl
    | cons output txOut ih =>
      rw [List.mapM_cons] at houtputs
      obtain ⟨first, hfirst, hrest⟩ := bind_eq_ok.mp houtputs
      obtain ⟨further, hfurther, hcons⟩ := bind_eq_ok.mp hrest
      obtain rfl := Except.ok.inj hcons
      rw [List.map_cons, hlib.serializeOutput_eq hfirst, ih further hfurther]
  rw [hall, hlib.varInt_eq, List.flatMap_map]
  rfl

theorem mem_createInputTransaction {input : TxIn}
    (hinput : input ∈ createInputTransaction template draws) :
    input.prevOutHash = zeroHash ∧ input.scriptSig = [] := by
  simp only [createInputTransaction, List.mem_append, List.mem_singleton, List.mem_map] at hinput
  rcases hinput with (rfl | ⟨_, _, rfl⟩) | ⟨_, _, rfl⟩ <;> exact ⟨rfl, rfl⟩

theorem StreamLibrary.Canonical.serializeInputTransaction_eq (hlib : lib.Canonical) :
    serializeInputTransaction lib (createInputTransaction template draws) =
      compactSize (UInt32.ofNat (createInputTransaction template draws).length).toNat ++
        ((createInputTransaction template draws).map TxIn.toInput).flatMap Input.encode := by
  rw [serializeInputTransaction, hlib.varInt_eq, List.flatMap_map]
  congr 1
  refine List.flatMap_congr fun input hinput => ?_
  rw [if_pos (mem_createInputTransaction hinput).2, hlib.writeUInt32_eq, hlib.writeUInt32_eq]
  rfl

/-- The bytes of the coinbase in the order of the grammar, up to the witnesses. -/
theorem StreamLibrary.Canonical.serializeCoinbase_eq (hlib : lib.Canonical)
    (hbuild : buildCoinbase lib params template draws = .ok coinbase) :
    ∃ aux txOut, coinbaseAuxBytes params template = .ok aux ∧
      createOutputTransaction params template = .ok txOut ∧
      coinbase.serializeCoinbase = encodeUInt32 params.txVersion ++
        (compactSize (UInt32.ofNat (createInputTransaction template draws).length).toNat ++
        (((createInputTransaction template draws).map TxIn.toInput).flatMap Input.encode ++
        (compactSize (UInt32.ofNat txOut.length).toNat ++
        ((txOut.map HandshakeTransactionOutput.toOutput).flatMap Output.encode ++
        (encodeUInt32 template.height ++
        (compactSize (UInt32.ofNat (3 + (template.claims ++ template.airdrops).length)).toNat ++
        (lib.getPushOp aux ++ (lib.getPushOp draws.randomBytes.toList ++
        (lib.getPushOp (List.replicate 8 0) ++
        (template.claims ++ template.airdrops).flatMap fun claim =>
          lib.getPushOp (hexToByteArray claim.blob)))))))))) := by
  simp only [buildCoinbase, generateScriptSig, bind_eq_ok, pure, Except.pure, Except.ok.injEq]
    at hbuild
  obtain ⟨txOut, hout, ops, ⟨aux, haux, rfl⟩, bytes, hbytes, rfl⟩ := hbuild
  refine ⟨aux, txOut, haux, hout, ?_⟩
  rw [Coinbase.serializeCoinbase, hlib.serializeInputTransaction_eq,
    hlib.serializeOutputTransaction_eq hbytes, hlib.writeUInt32_eq, hlib.writeUInt32_eq,
    serializeScriptSig, hlib.varInt_eq, List.append_assoc _ (template.claims.map _),
    ← List.map_append]
  have hlength : (3 : Nat) + (template.claims ++ template.airdrops).length =
      ((template.claims ++ template.airdrops).length + 3) := Nat.add_comm _ _
  simp only [List.cons_append, List.nil_append, List.length_cons, List.length_map, hlength,
    List.flatten_cons, ← List.flatMap_def, encodeUInt32, List.append_assoc]

/-- The first output pays the address of the pool, and the others those of the template. -/
theorem createOutputTransaction_eq (h : createOutputTransaction params template = .ok txOut) :
    ∃ version hash, hash.length ≤ 40 ∧
      txOut = ⟨template.coinbaseValue.toInt, toHexString hash, version, 0⟩ ::
        (template.claims.map (claimOutput 1) ++ template.airdrops.map (claimOutput 0)) := by
  unfold createOutputTransaction at h
  split at h
  · cases h
  · rename_i hrp version hash hdecode
    obtain rfl := Except.ok.inj h
    exact ⟨_, hash, (Bech32Decoder.decode_eq_ok_iff.mp hdecode).1.le_forty, rfl⟩

theorem length_createInputTransaction : (createInputTransaction template draws).length =
    (template.claims ++ template.airdrops).length + 1 := by
  simp only [createInputTransaction, List.length_append, List.length_map, List.length_singleton]
  omega

theorem length_createOutputTransaction
    (h : createOutputTransaction params template = .ok txOut) :
    txOut.length = (template.claims ++ template.airdrops).length + 1 := by
  obtain ⟨version, hash, -, rfl⟩ := createOutputTransaction_eq h
  simp only [List.length_cons, List.length_append, List.length_map]

theorem length_prevHash :
    ∀ i ∈ (createInputTransaction template draws).map TxIn.toInput, i.prevHash.length = 32 := by
  rw [List.forall_mem_map]
  intro input hinput
  rw [TxIn.toInput, (mem_createInputTransaction hinput).1]
  rfl

/-- Where the counts and the addresses fit, the stacks are read behind the other parts. -/
theorem StreamLibrary.Canonical.run_serializeCoinbase (hlib : lib.Canonical)
    (hbuild : buildCoinbase lib params template draws = .ok coinbase)
    (haux : coinbaseAuxBytes params template = .ok aux)
    (hout : createOutputTransaction params template = .ok txOut)
    (hcount : (template.claims ++ template.airdrops).length + 1 < 2 ^ 32)
    (haddress : ∀ o ∈ txOut.map HandshakeTransactionOutput.toOutput, o.address.length < 256) :
    readTransaction.run coinbase.serializeCoinbase =
      (readStacks params.txVersion ((createInputTransaction template draws).map TxIn.toInput)
        (txOut.map HandshakeTransactionOutput.toOutput) template.height).run
        (compactSize (UInt32.ofNat (3 + (template.claims ++ template.airdrops).length)).toNat ++
        (lib.getPushOp aux ++ (lib.getPushOp draws.randomBytes.toList ++
        (lib.getPushOp (List.replicate 8 0) ++
        (template.claims ++ template.airdrops).flatMap fun claim =>
          lib.getPushOp (hexToByteArray claim.blob))))) := by
  obtain ⟨aux', txOut', haux', hout', hbytes⟩ := hlib.serializeCoinbase_eq hbuild
  obtain rfl := Except.ok.inj (haux.symm.trans haux')
  obtain rfl := Except.ok.inj (hout.symm.trans hout')
  have hinputs : (createInputTransaction template draws).length < 2 ^ 32 := by
    rw [length_createInputTransaction]
    exact hcount
  have houtputs : txOut.length < 2 ^ 32 := by
    rw [length_createOutputTransaction hout]
    exact hcount
  have hinputs' : ((createInputTransaction template draws).map TxIn.toInput).length < 2 ^ 64 := by
    rw [List.length_map]
    exact hinputs.trans (by decide)
  have houtputs' : (txOut.map HandshakeTransactionOutput.toOutput).length < 2 ^ 64 := by
    rw [List.length_map]
    exact houtputs.trans (by decide)
  have hcovenant : ∀ o ∈ txOut.map HandshakeTransactionOutput.toOutput, o.covenantItems = [] := by
    rw [List.forall_mem_map]
    exact fun _ _ => rfl
  rw [hbytes, UInt32.toNat_ofNat_of_lt' hinputs, UInt32.toNat_ofNat_of_lt' houtputs,
    ← run_transaction params.txVersion template.height hinputs' length_prevHash houtputs' haddress
      hcovenant]
  simp only [writeVarList, List.length_map, List.append_assoc]

/-- The items of the coinbase alone are pushed as a stack is written. -/
theorem StreamLibrary.Canonical.reads_coinbaseItems (hlib : lib.Canonical) (haux : aux.length = 20)
    (draws : Draws) :
    Reads (counted readWitness 1)
      (compactSize 3 ++ (lib.getPushOp aux ++ (lib.getPushOp draws.randomBytes.toList ++
        (lib.getPushOp (List.replicate 8 0) ++ []))))
      [[aux, draws.randomBytes.toList, List.replicate 8 0]] := by
  have hrandom : draws.randomBytes.toList.length = 8 := Vector.length_toList
  have hstack : Reads readWitness
      (encodeWitness [aux, draws.randomBytes.toList, List.replicate 8 0])
      [aux, draws.randomBytes.toList, List.replicate 8 0] := by
    refine reads_varList (Nat.lt_of_le_of_lt (Nat.le_refl 3) (by decide)) fun item hitem =>
      reads_varBytes ?_
    simp only [List.mem_cons, List.not_mem_nil, or_false] at hitem
    rcases hitem with rfl | rfl | rfl
    · omega
    · omega
    · decide
  rw [hlib.getPushOp_eq_writeVarBytes (by omega) (by omega),
    hlib.getPushOp_eq_writeVarBytes (by omega) (by omega),
    hlib.getPushOp_eq_writeVarBytes (by decide) (by decide)]
  have hbytes : compactSize 3 ++ (writeVarBytes aux ++ (writeVarBytes draws.randomBytes.toList ++
      (writeVarBytes (List.replicate 8 0) ++ []))) =
        encodeWitness [aux, draws.randomBytes.toList, List.replicate 8 0] ++ [] := by
    simp [encodeWitness, writeVarList]
  rw [hbytes]
  exact hstack.bind (Reads.pure _)

/-- The coinbase is read back if and only if there are neither claims nor airdrops. -/
theorem readsBack_iff (hlib : lib.Canonical)
    (hbuild : buildCoinbase lib params template draws = .ok coinbase) :
    ReadsBack params template draws coinbase ↔ template.claims = [] ∧ template.airdrops = [] := by
  rw [← List.append_eq_nil_iff, ← List.length_eq_zero_iff]
  obtain ⟨aux, txOut, haux, hout, hbytes⟩ := hlib.serializeCoinbase_eq hbuild
  constructor
  · rintro ⟨aux', txOut', haux', hout', hrun⟩
    obtain rfl := Except.ok.inj (haux.symm.trans haux')
    obtain rfl := Except.ok.inj (hout.symm.trans hout')
    have haddress := yields_transaction _ _ _ hrun
    have hinputs : (createInputTransaction template draws).length =
        (UInt32.ofNat (createInputTransaction template draws).length).toNat := by
      have hlength := inputs_length_of_run (by
        exact (UInt32.toNat_lt _).trans (by decide)) (hbytes ▸ hrun)
      rwa [coinbaseTransaction, List.length_map] at hlength
    have hcount : (template.claims ++ template.airdrops).length + 1 < 2 ^ 32 :=
      calc (template.claims ++ template.airdrops).length + 1
        _ = (createInputTransaction template draws).length := length_createInputTransaction.symm
        _ = (UInt32.ofNat (createInputTransaction template draws).length).toNat := hinputs
        _ < 2 ^ 32 := UInt32.toNat_lt _
    rw [hlib.run_serializeCoinbase hbuild haux hout hcount haddress] at hrun
    obtain ⟨stack, further, hwitness, hstack⟩ :=
      head_witness_of_run ((UInt32.toNat_lt _).trans (by decide)) hrun
    obtain ⟨rfl, -⟩ := List.cons.inj hwitness
    -- the first stack has the items of all inputs, and the coinbase has three
    have hthree : 3 = (3 + (template.claims ++ template.airdrops).length) % 2 ^ 32 := by
      rw [← UInt32.toNat_ofNat']
      exact hstack
    omega
  · intro hnone
    obtain ⟨version, hash, hhash, htxOut⟩ := createOutputTransaction_eq hout
    have hempty := List.length_eq_zero_iff.mp hnone
    obtain ⟨hclaims, hairdrops⟩ := List.append_eq_nil_iff.mp hempty
    have haddress : ∀ o ∈ txOut.map HandshakeTransactionOutput.toOutput,
        o.address.length < 256 := by
      rw [List.forall_mem_map, htxOut, hclaims, hairdrops]
      simp only [List.map_nil, List.append_nil, List.forall_mem_singleton]
      rw [HandshakeTransactionOutput.toOutput, hexToByteArray_toHexString]
      exact hhash.trans_lt (by decide)
    refine ⟨aux, txOut, haux, hout, ?_⟩
    rw [hlib.run_serializeCoinbase hbuild haux hout (by omega) haddress, hempty]
    have hstack := hlib.reads_coinbaseItems (length_coinbaseAuxBytes haux) draws
    have hrun := hstack.run_bind (fun witness => pure (⟨params.txVersion,
      (createInputTransaction template draws).map TxIn.toInput,
      txOut.map HandshakeTransactionOutput.toOutput, template.height, witness⟩ : Transaction)) []
    rw [List.append_nil] at hrun
    rw [readStacks, List.length_map, length_createInputTransaction, hnone, coinbaseTransaction,
      hempty]
    exact hrun

end ReadsBack

section Example

/-- `Op.GetPushOp`: small numbers have an operation of their own, and more than seventy-five bytes
one that their number follows. -/
def getPushOp : List UInt8 → List UInt8
  | [] => [0]
  | [b] => if 1 ≤ b ∧ b ≤ 16 then [0x50 + b] else if b = 0x81 then [0x4f] else [1, b]
  | data =>
    if data.length ≤ 75 then .ofNat data.length :: data
    else if data.length ≤ 0xff then 0x4c :: leBytes 1 data.length ++ data
    else if data.length ≤ 0xffff then 0x4d :: leBytes 2 data.length ++ data
    else 0x4e :: leBytes 4 data.length ++ data

/-- The stream of NBitcoin; nothing is hashed with it. -/
def handshakeStream : StreamLibrary where
  writeUInt32 n := leBytes 4 n.toNat
  writeUInt64 n := leBytes 8 n.toNat
  varInt n := compactSize n.toNat
  writeScript := writeVarBytes
  getPushOp := getPushOp
  coinbaseHasher bytes := bytes.take 32

theorem handshakeStream_canonical : handshakeStream.Canonical where
  writeUInt32_eq _ := rfl
  writeUInt64_eq _ := rfl
  varInt_eq _ := rfl
  getPushOp_eq data hmin hmax := by
    match data, hmin with
    | a :: b :: rest, _ => exact if_pos hmax

def exampleParameters : CoinbaseParameters where
  txVersion := 0
  coinbaseIgnoreAuxFlags := false
  poolAddress := text "hs1qq5gpkf3383r4yhtgwdlgn9yl426upj7kkjeg5t"

def exampleTemplate (claims : List HandshakeClaim) : CoinbaseTemplate :=
  ⟨100, 2000000000, some (text "6d696e6564"), claims, []⟩

def exampleDraws : Draws := ⟨3, 1, #v[1, 2, 3, 4, 5, 6, 7, 8]⟩

/-- The claim of an address of twenty bytes. -/
def exampleClaim : HandshakeClaim :=
  ⟨text "0102030405", 0, toHexString (List.replicate 20 7), 1000, 10⟩

/-- The coinbase of the example parameters, empty if it is not built. -/
def exampleCoinbase (claims : List HandshakeClaim) : Coinbase :=
  (buildCoinbase handshakeStream exampleParameters (exampleTemplate claims)
    exampleDraws).toOption.getD ⟨[], [], [], []⟩

theorem readsBack_pool_only :
    ReadsBack exampleParameters (exampleTemplate []) exampleDraws (exampleCoinbase []) :=
  have hbuild : buildCoinbase handshakeStream exampleParameters (exampleTemplate [])
      exampleDraws = .ok (exampleCoinbase []) := by decide +kernel
  (readsBack_iff handshakeStream_canonical hbuild).mpr ⟨rfl, rfl⟩

/-- With one claim a fourth item stands in the first stack, and there is no second one. -/
theorem claim_coinbase_not_read :
    buildCoinbase handshakeStream exampleParameters (exampleTemplate [exampleClaim])
      exampleDraws = .ok (exampleCoinbase [exampleClaim]) ∧
    readTransaction.run (exampleCoinbase [exampleClaim]).serializeCoinbase = none ∧
    ¬ ReadsBack exampleParameters (exampleTemplate [exampleClaim]) exampleDraws
      (exampleCoinbase [exampleClaim]) := by
  have hnone : readTransaction.run (exampleCoinbase [exampleClaim]).serializeCoinbase = none := by
    decide +kernel
  refine ⟨by decide +kernel, hnone, ?_⟩
  rintro ⟨aux, txOut, -, -, hrun⟩
  rw [hnone] at hrun
  cases hrun

end Example

end HashStorm.Handshake
