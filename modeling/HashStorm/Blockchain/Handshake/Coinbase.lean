import HashStorm.Blockchain.Bitcoin.TransactionGrammar
import HashStorm.Blockchain.Handshake.Bech32Address

/-!
# The coinbase of the Handshake jobs

`BuildCoinbase` writes an input and an output for the pool and for each claim and
airdrop of the template, and behind them all items of the witnesses as one script: a
count, and an operation that pushes each item. The grammar reads a stack for each
input in that place, so the coinbase is read back as what it stands for only where
the pool's input is the only one.
-/

namespace HashStorm.Handshake

open Stratum LittleEndian Wire

/-- `HandshakeClaim`. -/
structure HandshakeClaim where
  blob : Text
  version : UInt32
  address : Text
  value : Int64
  fee : Int64
  deriving DecidableEq, Repr

/-- `HandshakeAirdrops`, with the same fields. -/
abbrev HandshakeAirdrops := HandshakeClaim

/-- The fields of `HandshakeBlockTemplate` that the coinbase is built from. -/
structure CoinbaseTemplate where
  height : UInt32
  coinbaseValue : Int64
  /-- `CoinbaseAux?.Flags`. -/
  flags : Option Text
  claims : List HandshakeClaim
  airdrops : List HandshakeAirdrops
  deriving DecidableEq, Repr

/-- What `BuildCoinbase` reads beside the template. -/
structure CoinbaseParameters where
  txVersion : UInt32
  coinbaseIgnoreAuxFlags : Bool
  poolAddress : Text
  deriving DecidableEq, Repr

/-- What is drawn at random: the parts of a sequence, and some bytes. -/
structure Draws where
  high : UInt32
  low : UInt32
  randomBytes : Vector UInt8 8
  deriving DecidableEq, Repr

/-- What `BuildCoinbase` calls of NBitcoin's `BitcoinStream` and `Op`, and the hash function. -/
structure StreamLibrary where
  writeUInt32 : UInt32 → List UInt8
  writeUInt64 : UInt64 → List UInt8
  /-- `ReadWriteAsVarInt`. -/
  varInt : UInt32 → List UInt8
  /-- `ReadWrite` of a script. -/
  writeScript : List UInt8 → List UInt8
  /-- The bytes of `Op.GetPushOp`. -/
  getPushOp : List UInt8 → List UInt8
  coinbaseHasher : List UInt8 → List UInt8

/-- A stream writes little-endian words, and numbers as compact sizes; up to seventy-five bytes
are pushed by their number, but for single bytes that have an operation of their own. -/
structure StreamLibrary.Canonical (lib : StreamLibrary) : Prop where
  writeUInt32_eq : ∀ n, lib.writeUInt32 n = leBytes 4 n.toNat
  writeUInt64_eq : ∀ n, lib.writeUInt64 n = leBytes 8 n.toNat
  varInt_eq : ∀ n, lib.varInt n = compactSize n.toNat
  getPushOp_eq : ∀ data, 2 ≤ data.length → data.length ≤ 75 →
    lib.getPushOp data = UInt8.ofNat data.length :: data

/-- A `TxIn`. -/
structure TxIn where
  prevOutHash : List UInt8
  prevOutN : UInt32
  scriptSig : List UInt8
  sequence : UInt32
  deriving DecidableEq, Repr

/-- `HandshakeTransactionOutput`. -/
structure HandshakeTransactionOutput where
  amount : Int
  address : Text
  version : UInt8
  type : UInt32
  deriving DecidableEq, Repr

/-- The exceptions of `BuildCoinbase`: of the decoder, of a negative amount, and of flags that
have no room. -/
inductive CoinbaseFailure where
  | address (error : Bech32Decoder.Error)
  | overflow
  | argument
  deriving DecidableEq, Repr

/-- The parts of the coinbase, and the hashes that are taken of them. -/
structure Coinbase where
  coinbaseInitial : List UInt8
  coinbaseFinal : List UInt8
  coinbaseMerkle : List UInt8
  coinbaseWitness : List UInt8
  deriving DecidableEq, Repr

/-- `ZeroHash`. -/
def zeroHash : List UInt8 := List.replicate 32 0

/-- `txInPrevOutIndex`. -/
def txInPrevOutIndex : UInt32 := 0xffffffff

variable (lib : StreamLibrary) (params : CoinbaseParameters) (template : CoinbaseTemplate)
  (draws : Draws)

/-- `CreateInputTransaction`. -/
def createInputTransaction : List TxIn :=
  [⟨zeroHash, txInPrevOutIndex, [], (draws.high <<< 2) ||| draws.low⟩] ++
    template.claims.map (fun _ => ⟨zeroHash, txInPrevOutIndex, [], txInPrevOutIndex⟩) ++
    template.airdrops.map fun _ => ⟨zeroHash, txInPrevOutIndex, [], txInPrevOutIndex⟩

/-- The outputs of `CreateOutputTransaction` behind the one for the pool. -/
def claimOutput (type : UInt32) (claim : HandshakeClaim) : HandshakeTransactionOutput :=
  ⟨(claim.value - claim.fee).toInt, claim.address, claim.version.toUInt8, type⟩

/-- `CreateOutputTransaction`. -/
def createOutputTransaction : Except CoinbaseFailure (List HandshakeTransactionOutput) :=
  match Bech32Decoder.decode Bech32Decoder.defaultChecksum params.poolAddress with
  | .error error => .error (.address error)
  | .ok (_, version, hash) =>
    .ok ([⟨template.coinbaseValue.toInt, toHexString hash, UInt8.ofNat version, 0⟩] ++
      template.claims.map (claimOutput 1) ++ template.airdrops.map (claimOutput 0))

/-- The bytes of the flags in `GenerateScriptSig`, in an array of twenty. -/
def coinbaseAuxBytes : Except CoinbaseFailure (List UInt8) :=
  if !params.coinbaseIgnoreAuxFlags && !Bitcoin.noText template.flags then
    let flags := hexToByteArray (template.flags.getD [])
    if flags.length ≤ 20 then .ok (flags ++ List.replicate (20 - flags.length) 0)
    else .error .argument
  else .ok (List.replicate 20 0)

/-- `GenerateScriptSig`; the operations by their bytes. -/
def generateScriptSig : Except CoinbaseFailure (List (List UInt8)) := do
  let coinbaseAuxBytes ← coinbaseAuxBytes params template
  return [lib.getPushOp coinbaseAuxBytes, lib.getPushOp draws.randomBytes.toList,
    lib.getPushOp (List.replicate 8 0)] ++
    template.claims.map (fun claim => lib.getPushOp (hexToByteArray claim.blob)) ++
    template.airdrops.map fun airdrop => lib.getPushOp (hexToByteArray airdrop.blob)

/-- `SerializeInputTransaction`. -/
def serializeInputTransaction (tx : List TxIn) : List UInt8 :=
  lib.varInt (.ofNat tx.length) ++ tx.flatMap fun input =>
    if input.scriptSig = [] then
      input.prevOutHash ++ lib.writeUInt32 input.prevOutN ++ lib.writeUInt32 input.sequence
    else
      lib.writeUInt32 input.sequence ++ lib.writeScript input.scriptSig ++
        lib.writeUInt32 input.sequence

/-- The bytes of an output in `SerializeOutputTransaction`. -/
def serializeOutput (output : HandshakeTransactionOutput) : Except CoinbaseFailure (List UInt8) :=
  if output.amount < 0 then .error .overflow
  else
    let raw := hexToByteArray output.address
    .ok (lib.writeUInt64 (.ofNat output.amount.toNat) ++ [output.version, .ofNat raw.length] ++
      raw ++ [output.type.toUInt8] ++ lib.varInt 0)

/-- `SerializeOutputTransaction`. -/
def serializeOutputTransaction (tx : List HandshakeTransactionOutput) :
    Except CoinbaseFailure (List UInt8) := do
  let outputs ← tx.mapM (serializeOutput lib)
  return lib.varInt (.ofNat tx.length) ++ outputs.flatten

/-- `SerializeScriptSig`. -/
def serializeScriptSig (ops : List (List UInt8)) : List UInt8 :=
  lib.varInt (.ofNat ops.length) ++ ops.flatten

/-- `BuildCoinbase`; the lock time is the height. -/
def buildCoinbase : Except CoinbaseFailure Coinbase := do
  let txInt := createInputTransaction template draws
  let txOut ← createOutputTransaction params template
  let scriptSigOutPoint ← generateScriptSig lib params template draws
  let txOutBytes ← serializeOutputTransaction lib txOut
  let coinbaseInitial := lib.writeUInt32 params.txVersion ++
    serializeInputTransaction lib txInt ++ txOutBytes ++ lib.writeUInt32 template.height
  let coinbaseFinal := serializeScriptSig lib scriptSigOutPoint
  let coinbaseMerkle := lib.coinbaseHasher coinbaseInitial
  return ⟨coinbaseInitial, coinbaseFinal, coinbaseMerkle,
    lib.coinbaseHasher (coinbaseMerkle ++ lib.coinbaseHasher coinbaseFinal)⟩

/-- `SerializeCoinbase`. -/
def Coinbase.serializeCoinbase (coinbase : Coinbase) : List UInt8 :=
  coinbase.coinbaseInitial ++ coinbase.coinbaseFinal

end HashStorm.Handshake
