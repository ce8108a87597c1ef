import HashStorm.Blockchain.Bitcoin.Job
import HashStorm.Blockchain.Bitcoin.TransactionGrammar
import HashStorm.Blockchain.ExtraNonceProvider
import HashStorm.Stratum.HexUtils

/-!
# Coinbase and block bytes

`BuildCoinbase` writes the coinbase in two parts around the place of the two
extranonces, and declares the length of the script for a placeholder of eight
bytes. The extranonce of a worker and one that `ParseSubmitInput` accepts make up
these bytes, so what `SerializeCoinbase` puts together is the encoding of a
transaction, and `SerializeBlock` puts it in front of those of the template.
-/

namespace HashStorm.Bitcoin

open Stratum Blockchain LittleEndian Wire

/-- What `BuildCoinbase` calls of NBitcoin's `BitcoinStream` and `Op.GetPushOp`. -/
structure StreamLibrary extends Library where
  writeUInt32 : UInt32 → List UInt8
  writeInt64 : Int64 → List UInt8
  /-- `ReadWriteAsVarString`. -/
  varString : List UInt8 → List UInt8
  pushInteger : Int → List UInt8
  pushData : List UInt8 → List UInt8
  /-- `Encoding.ASCII.GetBytes`. -/
  ascii : Text → List UInt8
  /-- `Encoding.UTF8.GetBytes`. -/
  utf8 : Text → List UInt8

/-- A stream writes little-endian words, and numbers as compact sizes. -/
structure StreamLibrary.Canonical (lib : StreamLibrary) : Prop where
  varInt_eq : ∀ n, lib.varInt n = compactSize n.toNat
  writeUInt32_eq : ∀ n, lib.writeUInt32 n = leBytes 4 n.toNat
  writeInt64_eq : ∀ v, lib.writeInt64 v = leBytes 8 v.toUInt64.toNat

/-- What `BuildCoinbase` reads beside the job and the rewards. -/
structure CoinbaseParameters where
  txVersion : UInt32
  /-- `CoinbaseAux?.Flags`. -/
  flags : Option Text
  coinbaseIgnoreAuxFlags : Bool
  /-- The Unix time of the clock. -/
  now : Int
  coinbaseString : Text
  defaultWitnessCommitment : Option Text
  txComment : Option Text
  coinbasePayload : Option Text
  deriving DecidableEq, Repr

/-- `sha256Empty`. -/
def sha256Empty : List UInt8 := List.replicate 32 0

/-- `txInPrevOutIndex`. -/
def txInPrevOutIndex : UInt32 := 0xffffffff

variable (lib : StreamLibrary) (params : CoinbaseParameters) (template : RewardTemplate) (job : Job)

/-- `scriptSigFinalBytes`. -/
def scriptSigFinalBytes : List UInt8 := lib.pushData (lib.utf8 params.coinbaseString)

/-- `GenerateScriptSigInitial`. -/
def generateScriptSigInitial : List UInt8 :=
  lib.pushInteger job.blockTemplate.height.toNat ++
    (if !params.coinbaseIgnoreAuxFlags && !noText params.flags then
      lib.pushData (hexToByteArray (params.flags.getD []))
    else []) ++
    lib.pushInteger params.now ++ lib.pushInteger 0

/-- `sigScriptLength`, for the placeholder of the extranonces. -/
def sigScriptLength : UInt32 :=
  .ofNat ((generateScriptSigInitial lib params job).length + extranoncePlaceHolderLength +
    (scriptSigFinalBytes lib params).length)

/-- `SerializeOutputTransaction`. -/
def serializeOutputTransaction (tx : List TxOut) : List UInt8 :=
  let withDefaultWitnessCommitment := !noText params.defaultWitnessCommitment
  let outputCount := UInt32.ofNat tx.length
  let outputCount := if withDefaultWitnessCommitment then outputCount + 1 else outputCount
  let serialize (amount : Int64) (raw : List UInt8) :=
    lib.writeInt64 amount ++ lib.varInt (.ofNat raw.length) ++ raw
  lib.varInt outputCount ++
    (if withDefaultWitnessCommitment then
      serialize 0 (hexToByteArray (params.defaultWitnessCommitment.getD []))
    else []) ++
    tx.flatMap fun output => serialize output.value output.scriptPubKey

/-- `AppendCoinbaseFinal`. -/
def appendCoinbaseFinal : List UInt8 :=
  (if noText params.txComment then []
  else lib.varString (lib.ascii (params.txComment.getD []))) ++
  (if template.coin.hasMasterNodes && !noText params.coinbasePayload then
    lib.varString (hexToByteArray (params.coinbasePayload.getD []))
  else [])

/-- The first part of the coinbase, up to the place of the extranonces. -/
def coinbaseInitial : List UInt8 :=
  lib.writeUInt32 params.txVersion ++
    (if job.isPoS then lib.writeUInt32 job.blockTemplate.curTime else []) ++
    lib.varInt 1 ++ sha256Empty ++ lib.writeUInt32 txInPrevOutIndex ++
    lib.varInt (sigScriptLength lib params job) ++ generateScriptSigInitial lib params job

/-- The part behind the extranonces. -/
def coinbaseFinal (txOut : List TxOut) : List UInt8 :=
  scriptSigFinalBytes lib params ++ lib.writeUInt32 0 ++
    serializeOutputTransaction lib params txOut ++ lib.writeUInt32 0 ++
    appendCoinbaseFinal lib params template

/-- `BuildCoinbase`. -/
def buildCoinbase (outputs : OutputLibrary) : Except OutputFailure Job := do
  let txOut ← createOutputTransaction outputs template
  return { job with
    coinbaseInitial := coinbaseInitial lib params job
    coinbaseFinal := coinbaseFinal lib params template txOut.tx }

/-- The longest array the runtime can allocate. -/
def maxArrayLength : Nat := 0x7fffffc7

/-- The arrays of the job are arrays of the runtime. -/
structure Allocated (txOut : List TxOut) : Prop where
  initial_le : (generateScriptSigInitial lib params job).length ≤ maxArrayLength
  final_le : (scriptSigFinalBytes lib params).length ≤ maxArrayLength
  commitment_le :
    (hexToByteArray (params.defaultWitnessCommitment.getD [])).length ≤ maxArrayLength
  outputs_le : txOut.length ≤ maxArrayLength
  scripts_le : ∀ output ∈ txOut, output.scriptPubKey.length ≤ maxArrayLength
  transactions_le : job.blockTemplate.transactions.length ≤ maxArrayLength

/-- The outputs of the coinbase: the witness commitment, if there is one, is the first. -/
def coinbaseOutputs (txOut : List TxOut) : List TxOut :=
  (if noText params.defaultWitnessCommitment then []
  else [⟨0, hexToByteArray (params.defaultWitnessCommitment.getD [])⟩]) ++ txOut

/-- The script of the only input of the coinbase. -/
def coinbaseScript (extraNonce1 extraNonce2 : Text) : List UInt8 :=
  generateScriptSigInitial lib params job ++ hexToByteArray extraNonce1 ++
    hexToByteArray extraNonce2 ++ scriptSigFinalBytes lib params

/-- The transaction that the coinbase stands for. -/
def coinbaseTransaction (extraNonce1 extraNonce2 : Text) (txOut : List TxOut) : Tx where
  version := params.txVersion
  timestamp := if job.isPoS then some job.blockTemplate.curTime else none
  inputs := [⟨sha256Empty, txInPrevOutIndex,
    coinbaseScript lib params job extraNonce1 extraNonce2, 0⟩]
  outputs := coinbaseOutputs params txOut
  witness := none
  lockTime := 0

/-- What follows the transactions of a block: the byte for the signature and the MWEB
section. -/
def blockTail : List UInt8 :=
  (if job.isPoS then [0] else []) ++
    (match if job.hasMWEB then job.blockTemplate.mweb.map hexToByteArray else none with
      | none => []
      | some raw => 1 :: raw)

section Lengths

variable {lib params job} {txOut : List TxOut} {extraNonce1 extraNonce2 : Text}

/-- The extranonces of an accepted submission fill the place that is left for them. -/
theorem length_extraNonces {provider : ExtraNonceProvider} {context : WorkerContext}
    {submission : Submission} {input : SubmitInput}
    (hworker : context.extraNonce1 = some provider.next.1)
    (hparse : submission.parse context = .ok input) :
    (hexToByteArray provider.next.1).length + (hexToByteArray input.extraNonce2).length =
      extranoncePlaceHolderLength := by
  obtain ⟨hlength, hlower⟩ := provider.next_spec
  have hvalid := parseSubmitInput_valid hparse
  have hexpected := hvalid.length_eq
  rw [WorkerContext.expectedExtraNonce2Length, hworker, Option.map_some, Option.getD_some,
    hlength] at hexpected
  rw [hexToByteArray_of_lowerHexDigit hlower, hexToByteArray_of_lowerHexDigit hvalid.lower,
    length_hexPairs, length_hexPairs, hlength]
  unfold extranoncePlaceHolderLength at hexpected ⊢
  omega

/-- The declared length is that of the script with the extranonces in their place. -/
theorem length_coinbaseScript (halloc : Allocated lib params job txOut)
    (hlength : (hexToByteArray extraNonce1).length + (hexToByteArray extraNonce2).length =
      extranoncePlaceHolderLength) :
    (coinbaseScript lib params job extraNonce1 extraNonce2).length =
      (sigScriptLength lib params job).toNat := by
  have hinitial := halloc.initial_le
  have hfinal := halloc.final_le
  unfold maxArrayLength at hinitial hfinal
  unfold extranoncePlaceHolderLength at hlength
  rw [coinbaseScript, sigScriptLength, extranoncePlaceHolderLength, UInt32.toNat_ofNat_of_lt']
  · simp only [List.length_append]
    omega
  · change _ < 2 ^ 32
    omega

/-- A length of an array is not truncated. -/
theorem toNat_ofNat_of_le {n : Nat} (h : n ≤ maxArrayLength) : (UInt32.ofNat n).toNat = n :=
  UInt32.toNat_ofNat_of_lt' (h.trans_lt (by decide))

/-- Nor is that of an array with one more entry. -/
theorem toNat_ofNat_succ_of_le {n : Nat} (h : n ≤ maxArrayLength) :
    (UInt32.ofNat (n + 1)).toNat = n + 1 :=
  UInt32.toNat_ofNat_of_lt' ((Nat.succ_le_succ h).trans_lt (by decide))

end Lengths

section Encoding

variable {lib params template job} {txOut : List TxOut} {extraNonce1 extraNonce2 : Text}

/-- What the stream writes for an output. -/
theorem StreamLibrary.Canonical.encode_txOut (hlib : lib.Canonical) (amount : Int64)
    {raw : List UInt8} (hraw : raw.length ≤ maxArrayLength) :
    lib.writeInt64 amount ++ lib.varInt (.ofNat raw.length) ++ raw =
      TxOut.encode ⟨amount, raw⟩ := by
  rw [hlib.writeInt64_eq, hlib.varInt_eq, toNat_ofNat_of_le hraw, List.append_assoc]
  rfl

/-- The outputs are written behind their number. -/
theorem serializeOutputTransaction_eq (hlib : lib.Canonical)
    (halloc : Allocated lib params job txOut) :
    serializeOutputTransaction lib params txOut =
      writeVarList TxOut.encode (coinbaseOutputs params txOut) := by
  have hrest : (txOut.flatMap fun output => lib.writeInt64 output.value ++
      lib.varInt (.ofNat output.scriptPubKey.length) ++ output.scriptPubKey) =
        txOut.flatMap TxOut.encode :=
    List.flatMap_congr fun output ho => hlib.encode_txOut _ (halloc.scripts_le output ho)
  rw [serializeOutputTransaction, hrest, coinbaseOutputs, writeVarList]
  cases noText params.defaultWitnessCommitment with
  | true =>
    simp only [Bool.not_true, Bool.false_eq_true, if_false, if_true, List.nil_append,
      List.append_nil]
    rw [hlib.varInt_eq, toNat_ofNat_of_le halloc.outputs_le]
  | false =>
    have hfirst := hlib.encode_txOut 0 halloc.commitment_le
    simp only [Bool.not_false, Bool.false_eq_true, if_false, if_true, List.singleton_append,
      List.flatMap_cons, List.length_cons]
    rw [hfirst, hlib.varInt_eq, ← UInt32.ofNat_one, ← UInt32.ofNat_add,
      toNat_ofNat_succ_of_le halloc.outputs_le, List.append_assoc]

/-- The two parts of the coinbase with extranonces between them are a transaction. -/
theorem coinbase_eq_encode (hlib : lib.Canonical) (halloc : Allocated lib params job txOut)
    (hcomment : noText params.txComment)
    (hpayload : template.coin.hasMasterNodes → noText params.coinbasePayload)
    (hlength : (hexToByteArray extraNonce1).length + (hexToByteArray extraNonce2).length =
      extranoncePlaceHolderLength) :
    coinbaseInitial lib params job ++ hexToByteArray extraNonce1 ++ hexToByteArray extraNonce2 ++
        coinbaseFinal lib params template txOut =
      (coinbaseTransaction lib params job extraNonce1 extraNonce2 txOut).encode := by
  have happend : appendCoinbaseFinal lib params template = [] := by
    rw [appendCoinbaseFinal, if_pos hcomment, List.nil_append]
    cases hnodes : template.coin.hasMasterNodes with
    | false => rfl
    | true => rw [hpayload hnodes]; rfl
  have htimestamp : (if job.isPoS then lib.writeUInt32 job.blockTemplate.curTime else []) =
      ((if job.isPoS then some job.blockTemplate.curTime else none).map encodeUInt32).getD [] := by
    cases job.isPoS with
    | false => rfl
    | true => exact hlib.writeUInt32_eq _
  rw [coinbaseInitial, coinbaseFinal, happend, htimestamp,
    serializeOutputTransaction_eq hlib halloc]
  simp only [hlib.writeUInt32_eq, hlib.varInt_eq, ← length_coinbaseScript halloc hlength]
  simp [Tx.encode, Tx.encodeBody, coinbaseTransaction, TxIn.encode, writeVarList, writeVarBytes,
    encodeUInt32, coinbaseScript, List.append_assoc]

/-- The transaction is well formed, with a timestamp on a network that has one. -/
theorem coinbaseTransaction_wellFormed (halloc : Allocated lib params job txOut)
    (hlength : (hexToByteArray extraNonce1).length + (hexToByteArray extraNonce2).length =
      extranoncePlaceHolderLength) :
    (coinbaseTransaction lib params job extraNonce1 extraNonce2 txOut).WellFormed job.isPoS := by
  have hmax : maxArrayLength + 1 < 2 ^ 64 := by decide
  have houtputs := halloc.outputs_le
  have hscript := length_coinbaseScript halloc hlength
  have hdeclared := (sigScriptLength lib params job).toNat_lt
  refine
    { timestamp_eq := ?_, inputs_length := ?_, outputs_length := ?_, prevHash_length := ?_,
      scriptSig_length := ?_, scriptPubKey_length := ?_, legacy := ?_, witness_length := ?_,
      stack_length := ?_ }
  · cases hpos : job.isPoS <;> simp [coinbaseTransaction, hpos]
  · simp [coinbaseTransaction]
  · simp only [coinbaseTransaction, coinbaseOutputs, List.length_append]
    split <;> simp only [List.length_nil, List.length_singleton] <;> omega
  · simp [coinbaseTransaction, sha256Empty]
  · simp only [coinbaseTransaction, List.mem_singleton, forall_eq]
    omega
  · intro output ho
    simp only [coinbaseTransaction, coinbaseOutputs, List.mem_append] at ho
    rcases ho with hfirst | hrest
    · split at hfirst
      · cases hfirst
      · rw [List.mem_singleton.mp hfirst]
        exact halloc.commitment_le.trans_lt (by decide)
    · exact (halloc.scripts_le output hrest).trans_lt (by decide)
  · simp [coinbaseTransaction]
  · simp [coinbaseTransaction]
  · simp [coinbaseTransaction]

end Encoding

section Block

variable {lib job} {header coinbase : List UInt8} {datas : List Text}

/-- The data of the transactions are put together. -/
theorem foldlM_transactions (buffer : List UInt8) (datas : List Text) :
    (datas.map some).foldlM (fun buffer data =>
      match data with
      | none => Except.error Failure.nullReference
      | some data => Except.ok (buffer ++ hexToByteArray data)) buffer =
        .ok (buffer ++ (datas.map hexToByteArray).flatten) := by
  induction datas generalizing buffer with
  | nil => simp [pure, Except.pure]
  | cons data datas ih =>
    rw [List.map_cons, List.foldlM_cons, List.map_cons, List.flatten_cons, ← List.append_assoc]
    exact ih _

/-- The bytes of a block whose transactions all have data. -/
theorem serializeBlock_eq (hlib : lib.Canonical)
    (hdatas : job.blockTemplate.transactions = datas.map some)
    (hlength : datas.length ≤ maxArrayLength) :
    serializeBlock lib.toLibrary job header coinbase =
      .ok (header ++ (compactSize (datas.length + 1) ++
        (coinbase ++ ((datas.map hexToByteArray).flatten ++ []))) ++ blockTail job) := by
  have hbuffer : buildRawTransactionBuffer job.blockTemplate.transactions =
      .ok (datas.map hexToByteArray).flatten := by
    rw [hdatas]
    exact foldlM_transactions [] datas
  have hcount : (job.blockTemplate.transactions.length + 1) = datas.length + 1 := by
    rw [hdatas, List.length_map]
  simp only [serializeBlock, hbuffer, hcount, hlib.varInt_eq, toNat_ofNat_succ_of_le hlength,
    blockTail, List.append_assoc, List.append_nil]
  rfl

end Block

section ParseBack

variable {lib params template job} {outputs : OutputLibrary} {built : Job} {rewards : Outputs}
  {τ : Type} {read : Reader τ} {transactions : List τ} {datas : List Text}

/-- The coinbase of an accepted submission is read back as a transaction with one input,
whose script has the declared length, and with the outputs of the reward behind the
witness commitment. The block is read back as its header, the number of transactions, the
coinbase and the transactions of the template, in front of the last two sections. -/
theorem serializeBlock_parses_back (hlib : lib.Canonical)
    (houtputs : createOutputTransaction outputs template = .ok rewards)
    (hbuild : buildCoinbase lib params template job outputs = .ok built)
    (halloc : Allocated lib params job rewards.tx)
    (hcomment : noText params.txComment)
    (hpayload : template.coin.hasMasterNodes → noText params.coinbasePayload)
    {provider : ExtraNonceProvider} {context : WorkerContext} {submission : Submission}
    {input : SubmitInput} (hworker : context.extraNonce1 = some provider.next.1)
    (hparse : submission.parse context = .ok input)
    (hdatas : built.blockTemplate.transactions = datas.map some)
    (hreads : List.Forall₂ (Reads read) (datas.map hexToByteArray) transactions)
    (header : List UInt8) :
    let coinbase := serializeCoinbase built provider.next.1 input.extraNonce2
    ∃ tx : Tx,
      (readTx built.isPoS).run coinbase = some (tx, []) ∧
      tx.timestamp.isSome = built.isPoS ∧
      (∃ txIn, tx.inputs = [txIn] ∧
        txIn.scriptSig.length = (sigScriptLength lib params built).toNat) ∧
      tx.outputs = coinbaseOutputs params rewards.tx ∧
      ∃ block, serializeBlock lib.toLibrary built header coinbase = .ok block ∧
        (readBlock header.length built.isPoS read).run block =
          some (⟨header, 1 + built.blockTemplate.transactions.length, tx, transactions⟩,
            blockTail built) := by
  intro coinbase
  have hbuilt : built = { job with
      coinbaseInitial := coinbaseInitial lib params job
      coinbaseFinal := coinbaseFinal lib params template rewards.tx } := by
    rw [buildCoinbase, houtputs] at hbuild
    exact (Except.ok.inj hbuild).symm
  have hlength := length_extraNonces hworker hparse
  have hwell := coinbaseTransaction_wellFormed halloc hlength
  have hscript := length_coinbaseScript halloc hlength
  have hcoinbase : coinbase =
      (coinbaseTransaction lib params job provider.next.1 input.extraNonce2 rewards.tx).encode := by
    rw [← coinbase_eq_encode hlib halloc hcomment hpayload hlength]
    simp only [coinbase, serializeCoinbase, hbuilt]
  have hcount : datas.length ≤ maxArrayLength := by
    have htransactions := halloc.transactions_le
    rwa [show job.blockTemplate = built.blockTemplate by rw [hbuilt], hdatas,
      List.length_map] at htransactions
  have hpos : job.isPoS = built.isPoS := by rw [hbuilt]
  rw [hpos] at hwell
  have hread := hwell.reads
  rw [← hcoinbase] at hread
  refine ⟨_, hread.run, hwell.timestamp_eq, ⟨_, rfl, ?_⟩, rfl, _,
    serializeBlock_eq hlib hdatas hcount, ?_⟩
  · rw [hscript, hbuilt]
    rfl
  · have hblock := reads_block header hread hreads
      (by rw [List.length_map]; exact (Nat.succ_le_succ hcount).trans_lt (by decide))
    rw [List.length_map] at hblock
    rw [hdatas, List.length_map, Nat.add_comm 1]
    exact hblock (blockTail built)

end ParseBack

section Example

/-- `Op.GetPushOp` of some bytes, for up to 75 of them. -/
def pushData (data : List UInt8) : List UInt8 := UInt8.ofNat data.length :: data

/-- `Op.GetPushOp` of a number that is not negative: small ones have an operation, and the
bytes of the others leave room for the sign. -/
def pushInteger (n : Int) : List UInt8 :=
  if n = 0 then [0]
  else if n ≤ 16 then [80 + UInt8.ofInt n]
  else pushData (leBytes ((n.toNat.log2 + 1) / 8 + 1) n.toNat)

/-- The stream of NBitcoin, for texts in ASCII; no block is hashed with it. -/
def bitcoinStream : StreamLibrary where
  toBytes header := leBytes 4 header.version.toUInt32.toNat ++
    ((hexToByteArray header.hashPrevBlock).reverse ++ (header.hashMerkleRoot ++
      (leBytes 4 header.blockTime.toNat ++ ((hexToByteArray header.bits).reverse ++
        leBytes 4 header.nonce.toNat))))
  varInt n := compactSize n.toNat
  doubleDigest bytes := bytes.take 32
  writeUInt32 := encodeUInt32
  writeInt64 := encodeInt64
  varString := writeVarBytes
  pushInteger := pushInteger
  pushData := pushData
  ascii s := s.map (·.toUInt8)
  utf8 s := s.map (·.toUInt8)

theorem bitcoinStream_canonical : bitcoinStream.Canonical :=
  ⟨fun _ => rfl, fun _ => rfl, fun _ => rfl⟩

/-- A transaction in the extended form. -/
def segwitTx : Tx where
  version := 2
  timestamp := none
  inputs := [⟨List.replicate 32 1, 0, [], 0xfffffffd⟩]
  outputs := [⟨5000, [0x51]⟩]
  witness := some [[[1, 2, 3]]]
  lockTime := 0

theorem segwitTx_wellFormed : segwitTx.WellFormed false := by
  constructor <;> simp [segwitTx]

/-- A job with that transaction. -/
def segwitJob : Job where
  blockTemplate :=
    { version := 0x20000000
      previousBlockhash := List.replicate 64 48
      curTime := 0x63445774
      bits := text "207fffff"
      height := 840000
      transactions := [some (toHexString segwitTx.encode)]
      mweb := some (text "0102") }
  coinbaseInitial := []
  coinbaseFinal := []
  merkleSteps := []
  isPoS := false
  hasMWEB := true
  shareMultiplier := 1
  difficulty := 1
  blockTargetValue := 0x7fffff * 2 ^ 232
  coinbaseHasher := id
  headerHasher header _ := header
  blockHasher header _ := header

/-- A coinbase with a witness commitment. -/
def segwitParameters : CoinbaseParameters where
  txVersion := 1
  flags := none
  coinbaseIgnoreAuxFlags := false
  now := 1700000000
  coinbaseString := text "HashStorm"
  defaultWitnessCommitment := some (text "6a24aa21a9ed")
  txComment := none
  coinbasePayload := none

/-- The first worker of an instance. -/
def firstProvider : ExtraNonceProvider := .create 3 1

/-- A worker with that extranonce. -/
def firstWorker : WorkerContext where
  extraNonce1 := some firstProvider.next.1
  versionRollingMask := none
  difficulty := 1
  previousDifficulty := none
  varDiffUpdated := false

/-- The block of a share with an extranonce in upper case. -/
theorem serializeBlock_parses_back_segwit :
    ∃ rewards built input tx block,
      createOutputTransaction mainNetwork founderTemplate = .ok rewards ∧
      buildCoinbase bitcoinStream segwitParameters founderTemplate segwitJob mainNetwork =
        .ok built ∧
      Submission.parse firstWorker
        ⟨text "0000ABCD", text "63445774", text "00000000", none⟩ = .ok input ∧
      tx.outputs = coinbaseOutputs segwitParameters rewards.tx ∧
      serializeBlock bitcoinStream.toLibrary built (List.replicate 80 0)
        (serializeCoinbase built firstProvider.next.1 input.extraNonce2) = .ok block ∧
      (readBlock 80 built.isPoS (readTx false)).run block =
        some (⟨List.replicate 80 0, 2, tx, [segwitTx]⟩, [1, 1, 2]) := by
  have hrewards : (createOutputTransaction mainNetwork founderTemplate).toOption.any (fun o =>
      o.tx.length ≤ maxArrayLength ∧
        ∀ output ∈ o.tx, output.scriptPubKey.length ≤ maxArrayLength) := by
    decide +kernel
  have hinput : (Submission.parse firstWorker
      ⟨text "0000ABCD", text "63445774", text "00000000", none⟩).toOption.isSome := by
    decide +kernel
  cases houtputs : createOutputTransaction mainNetwork founderTemplate with
  | error e =>
    rw [houtputs] at hrewards
    cases hrewards
  | ok rewards =>
    rw [houtputs] at hrewards
    obtain ⟨hcount, hscripts⟩ := of_decide_eq_true hrewards
    cases hparse : Submission.parse firstWorker
        ⟨text "0000ABCD", text "63445774", text "00000000", none⟩ with
    | error e =>
      rw [hparse] at hinput
      cases hinput
    | ok input =>
      have halloc : Allocated bitcoinStream segwitParameters segwitJob rewards.tx :=
        ⟨by decide +kernel, by decide +kernel, by decide +kernel, hcount, hscripts,
          by decide +kernel⟩
      have hbuild : buildCoinbase bitcoinStream segwitParameters founderTemplate segwitJob
          mainNetwork = .ok { segwitJob with
            coinbaseInitial := coinbaseInitial bitcoinStream segwitParameters segwitJob
            coinbaseFinal :=
              coinbaseFinal bitcoinStream segwitParameters founderTemplate rewards.tx } := by
        rw [buildCoinbase, houtputs]
        rfl
      have hreads : List.Forall₂ (Reads (readTx false))
          ([toHexString segwitTx.encode].map hexToByteArray) [segwitTx] := by
        rw [List.map_singleton, hexToByteArray_toHexString]
        exact .cons segwitTx_wellFormed.reads .nil
      obtain ⟨tx, -, -, -, hout, block, hblock, hrun⟩ := serializeBlock_parses_back
        bitcoinStream_canonical houtputs hbuild halloc rfl (fun _ => rfl) rfl hparse rfl hreads
        (List.replicate 80 0)
      exact ⟨rewards, _, input, tx, block, rfl, hbuild, rfl, hout, hblock, hrun⟩

end Example

end HashStorm.Bitcoin
