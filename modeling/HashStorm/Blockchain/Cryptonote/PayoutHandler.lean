import HashStorm.Blockchain.Bitcoin.PayoutCycles
import HashStorm.Blockchain.Equihash.PayoutHandler
import Mathlib.Data.List.Dedup

/-!
# Cryptonote payouts

`CryptonotePayoutHandler.PayoutAsync` pays plain addresses in batches and then
addresses with a payment id, and integrated ones, one by one. A transfer that the
wallet finds too large is tried again as `transfer_split`. The answer to that one
has a list of transaction hashes; a batch decodes it as such, a single payment
decodes it as the answer to `transfer` and finds no hash, so an executed payment
ends in an exception before its balance is reset.
-/

namespace HashStorm.Cryptonote

open Payments Dictionary Machine

section Wallet

/-- `TransferDestination`. -/
structure TransferDestination where
  address : String
  amount : Nat
  assetType : Option String
  deriving DecidableEq, Repr

/-- What the handler sets of a `TransferRequest`. -/
structure TransferRequest where
  destinations : List TransferDestination
  paymentId : Option String
  getTxKey : Bool
  transactionType : Option Nat
  sourceAsset : Option String
  destinationAsset : Option String
  deriving DecidableEq, Repr

/-- What the handler reads of a `TransferResponse`. -/
structure TransferResponse where
  txHash : Option String
  fee : Nat
  deriving DecidableEq, Repr

/-- What the handler reads of a `TransferSplitResponse`. -/
structure TransferSplitResponse where
  txHashList : List String
  feeList : List Nat
  deriving DecidableEq, Repr

/-- The answer to `transfer`: an error, and nothing was sent, or the hash of the transaction. -/
inductive TransferAnswer where
  | error (code : Int)
  | executed (txHash : String) (fee : Nat) (txHash_ne : txHash ≠ "")
  deriving DecidableEq, Repr

/-- The answer to `transfer_split`: an error, and nothing was sent, or the hashes of one or
more transactions. It has no member of the name `tx_hash`. -/
inductive SplitAnswer where
  | error (code : Int)
  | executed (txHash : String) (more : List String) (feeList : List Nat) (txHash_ne : txHash ≠ "")
  deriving DecidableEq, Repr

/-- The answer to `get_balance`: the unlocked balance in the smallest unit, and those of the
wallet's assets. -/
inductive BalanceAnswer where
  | error (code : Int)
  | balances (unlocked : Rat) (assets : List (String × Rat))
  deriving DecidableEq, Repr

/-- The answers around one transfer. -/
structure Answers where
  getBalance : BalanceAnswer
  transfer : TransferAnswer
  transferSplit : SplitAnswer
  deriving DecidableEq, Repr

/-- The answers of the daemon and the wallet during one payout: the numbers of incoming and
outgoing connections, unless the request failed, and those around the transfers of the batches
and of the single payments. -/
structure Wallet where
  getInfo : Option (Int × Int)
  batch : Nat → Answers
  paymentId : Nat → Answers

/-- `ExecuteAsync<TransferResponse>` of `transfer`. -/
def TransferAnswer.transferResponse : TransferAnswer → Except Int TransferResponse
  | .error code => .error code
  | .executed txHash fee _ => .ok ⟨some txHash, fee⟩

/-- `ExecuteAsync<TransferSplitResponse>` of `transfer_split`. -/
def SplitAnswer.transferSplitResponse : SplitAnswer → Except Int TransferSplitResponse
  | .error code => .error code
  | .executed txHash more feeList _ => .ok ⟨txHash :: more, feeList⟩

/-- `ExecuteAsync<TransferResponse>` of `transfer_split`: the members that the answer does not
have keep their defaults. -/
def SplitAnswer.transferResponse : SplitAnswer → Except Int TransferResponse
  | .error code => .error code
  | .executed .. => .ok ⟨none, 0⟩

/-- Whether coins were sent. -/
def SplitAnswer.isExecuted : SplitAnswer → Bool
  | .error _ => false
  | .executed .. => true

end Wallet

section Handler

/-- `CryptonoteNetworkType`. -/
inductive NetworkType where
  | main
  | test
  | stage
  deriving DecidableEq, Repr

/-- The prefixes of valid addresses of a network. -/
structure AddressPrefixes where
  addressPrefix : Nat
  subAddressPrefix : Nat
  addressPrefixIntegrated : Nat
  deriving DecidableEq, Repr

/-- `CryptonotePoolPaymentProcessingConfigExtra`. -/
structure ExtraConfig where
  minimumPaymentToPaymentId : Rat
  maximumDestinationPerTransfer : Option Int
  deriving DecidableEq, Repr

/-- What the handler reads of its coin and its configuration, with the decoders of the native
library. -/
structure Handler where
  smallestUnit : Rat
  addressPrefixes : NetworkType → AddressPrefixes
  networkType : NetworkType
  extraConfig : Option ExtraConfig
  walletSupportsTransferSplit : Bool
  decodeAddress : String → Nat
  decodeIntegratedAddress : String → Nat

/-- `PaymentIdHexLength`. -/
def paymentIdHexLength : Nat := 64

/-- `Length`, in UTF-16 code units. -/
def utf16Length (chars : List Char) : Nat :=
  (chars.map fun c => if c.toNat < 0x10000 then 1 else 2).sum

/-- `ExtractAddressAndPaymentId`. -/
def extractAddressAndPaymentId (input : String) : String × Option String :=
  let address := input.toList.takeWhile (· ≠ '.')
  match input.toList.dropWhile (· ≠ '.') with
  | [] | [_] => (String.ofList address, none)
  | _ :: paymentId =>
    -- ignore invalid payment ids
    (String.ofList address,
      if utf16Length paymentId = paymentIdHexLength then some (String.ofList paymentId) else none)

/-- The cast of an amount in the smallest unit to `ulong`; `none` when it overflows. -/
def toULong (amount : Rat) : Option Nat :=
  if 0 ≤ amount.floor ∧ amount.floor < 2 ^ 64 then some amount.floor.toNat else none

variable (config : PoolConfig) (handler : Handler)

/-- `EnsureBalance`. -/
def ensureBalance (requiredAmount : Rat) : BalanceAnswer → Bool
  | .error _ => false
  | .balances unlocked assets =>
    -- not all Cryptonote coins are equal
    let unlockedBalance :=
      if config.symbol = "SAL" ∨ config.symbol = "ZEPH" then
        ((assets.filter fun x => x.1 = config.symbol).map fun x =>
          x.2 / handler.smallestUnit).sum
      else unlocked / handler.smallestUnit
    requiredAmount ≤ unlockedBalance

/-- The destination for a balance. -/
def destination (balance : Balance) : Option TransferDestination :=
  (toULong (balance.amount * handler.smallestUnit)).map fun amount =>
    { address := (extractAddressAndPaymentId balance.address).1
      amount := amount
      assetType := if config.symbol = "SAL" then some config.symbol else none }

/-- The request of a transfer; Salvium wants to know the asset. -/
def transferRequest (destinations : List TransferDestination) (paymentId : Option String) :
    TransferRequest :=
  { destinations := destinations
    paymentId := paymentId
    getTxKey := true
    transactionType := if config.symbol = "SAL" then some 3 else none
    sourceAsset := if config.symbol = "SAL" then some config.symbol else none
    destinationAsset := if config.symbol = "SAL" then some config.symbol else none }

/-- Coins leave the wallet for the owners of some balances, or balances are reset. -/
inductive Event where
  | transferred (request : TransferRequest) (paid : List Balance)
  | debited (balances : List Balance)
  deriving DecidableEq, Repr

/-- What a part of a payout did: the events, the database afterwards, and the returned value,
or `none` on an exception. -/
structure Attempt where
  events : List Event
  db : Database
  result : Option Bool

/-- What was done before is done as well. -/
def Attempt.after (attempt : Attempt) (events : List Event) : Attempt :=
  { attempt with events := events ++ attempt.events }

/-- The transfer of `transfer`, if it was executed. -/
def TransferAnswer.sent (request : TransferRequest) (paid : List Balance) :
    TransferAnswer → List Event
  | .error _ => []
  | .executed .. => [.transferred request paid]

/-- The transfers of `transfer_split`, if they were executed. -/
def SplitAnswer.sent (request : TransferRequest) (paid : List Balance) : SplitAnswer → List Event
  | .error _ => []
  | .executed .. => [.transferred request paid]

variable (db : Database)

/-- The call of `PersistPaymentsAsync`, with a database that always succeeds. -/
def persist (balances : List Balance) (txHash : Option String) : Attempt :=
  match persistPaymentsAsync config db balances (txHash.getD "") [] with
  | none => ⟨[], db, none⟩
  | some db' => ⟨[.debited balances], db', some true⟩

/-- `HandleTransferResponseAsync` of a `TransferResponse`. -/
def handleTransferResponse (balances : List Balance) : Except Int TransferResponse → Attempt
  | .error _ => ⟨[], db, some false⟩
  | .ok response => persist config db balances response.txHash

/-- `HandleTransferResponseAsync` of a `TransferSplitResponse`. -/
def handleTransferSplitResponse (balances : List Balance) :
    Except Int TransferSplitResponse → Attempt
  | .error _ => ⟨[], db, some false⟩
  | .ok response =>
    match response.txHashList with
    | [] => ⟨[], db, none⟩
    | txHash :: _ => persist config db balances (some txHash)

/-- The transaction would be too large. -/
def transactionTooLarge : Int := -4

/-- `PayoutBatch`. -/
def payoutBatch (wallet : Answers) (balances : List Balance) : Attempt :=
  if ¬ensureBalance config handler (balances.map Balance.amount).sum wallet.getBalance then
    ⟨[], db, some false⟩
  else
    let paid := balances.filter fun x => 0 < x.amount
    match paid.mapM (destination config handler) with
    | none => ⟨[], db, none⟩
    | some destinations =>
      if destinations = [] then ⟨[], db, some true⟩
      else
        let request := transferRequest config destinations none
        if wallet.transfer = .error transactionTooLarge ∧ handler.walletSupportsTransferSplit then
          (handleTransferSplitResponse config db balances
            wallet.transferSplit.transferSplitResponse).after
              (wallet.transferSplit.sent request paid)
        else
          (handleTransferResponse config db balances wallet.transfer.transferResponse).after
            (wallet.transfer.sent request paid)

/-- `PayoutToPaymentId`. -/
def payoutToPaymentId (wallet : Answers) (balance : Balance) : Attempt :=
  if ¬ensureBalance config handler balance.amount wallet.getBalance then ⟨[], db, some false⟩
  else
    match destination config handler balance with
    | none => ⟨[], db, none⟩
    | some destination =>
      let request := transferRequest config [destination]
        (extractAddressAndPaymentId balance.address).2
      if wallet.transfer = .error transactionTooLarge ∧ handler.walletSupportsTransferSplit then
        (handleTransferResponse config db [balance] wallet.transferSplit.transferResponse).after
          (wallet.transferSplit.sent request [balance])
      else
        (handleTransferResponse config db [balance] wallet.transfer.transferResponse).after
          (wallet.transfer.sent request [balance])

/-- A loop over payments that ends with the first one that returns `false` or throws. -/
def payEach {α : Type*} (pay : Database → Nat → α → Attempt) :
    Database → Nat → List α → Attempt
  | db, _, [] => ⟨[], db, some true⟩
  | db, i, x :: rest =>
    let attempt := pay db i x
    if attempt.result = some true then
      (payEach pay attempt.db (i + 1) rest).after attempt.events
    else attempt

/-- The address is one of the network. -/
def Handler.isValid (balance : Balance) : Bool :=
  let address := (extractAddressAndPaymentId balance.address).1
  let prefixes := handler.addressPrefixes handler.networkType
  handler.decodeAddress address = prefixes.addressPrefix ∨
    handler.decodeAddress address = prefixes.subAddressPrefix ∨
    handler.decodeIntegratedAddress address = prefixes.addressPrefixIntegrated

/-- The balance has no payment id and is not that of an integrated address, which is not looked
at on the staging network. -/
def Handler.isSimple (balance : Balance) : Bool :=
  let (address, paymentId) := extractAddressAndPaymentId balance.address
  let isIntegratedAddress := handler.networkType ≠ .stage ∧
    handler.decodeIntegratedAddress address =
      (handler.addressPrefixes handler.networkType).addressPrefixIntegrated
  paymentId = none ∧ ¬isIntegratedAddress

/-- The balances that are paid in batches, the largest first. -/
def simpleBalances (balances : List Balance) : List Balance :=
  (balances.filter handler.isSimple).insertionSort fun a b => b.amount ≤ a.amount

/-- The balances that are paid one by one. -/
def paymentIdBalances (balances : List Balance) : List Balance :=
  let minimumPaymentToPaymentId :=
    (handler.extraConfig.map ExtraConfig.minimumPaymentToPaymentId).getD config.minimumPayment
  ((balances.filter fun x => x ∉ simpleBalances handler balances).dedup).filter fun x =>
    minimumPaymentToPaymentId ≤ x.amount

/-- The number of destinations in one batch. A configured number that is not positive makes no
batch that has a destination. -/
def Handler.maxBatchSize : Nat :=
  ((handler.extraConfig.bind ExtraConfig.maximumDestinationPerTransfer).getD 15).toNat

/-- `PayoutAsync`. Decoding an empty address is an exception. -/
def payoutAsync (wallet : Wallet) (balances : List Balance) : Attempt :=
  match wallet.getInfo with
  | none => ⟨[], db, some false⟩
  | some (incoming, outgoing) =>
    if incoming + outgoing < 2 then ⟨[], db, some false⟩
    else if ∃ x ∈ balances, (extractAddressAndPaymentId x.address).1 = "" then ⟨[], db, none⟩
    else
      let balances := balances.filter handler.isValid
      let batches := payEach (fun db i => payoutBatch config handler db (wallet.batch i)) db 0
        (Equihash.pages handler.maxBatchSize (simpleBalances handler balances))
      if batches.result = none then batches
      else
        (payEach (fun db i => payoutToPaymentId config handler db (wallet.paymentId i)) batches.db
          0 (paymentIdBalances config handler balances)).after batches.events

end Handler

end HashStorm.Cryptonote
