import HashStorm.Blockchain.Bitcoin.OutputTransaction
import HashStorm.Blockchain.Bitcoin.Submissions
import HashStorm.Lib.Rounding
import Mathlib.Algebra.BigOperators.Ring.List

/-!
# The outputs of an Equihash coinbase

`EquihashJob.Init` builds the block reward from the subsidy of the template, and
`CreateOutputTransaction` shares it out by percentages, in one of five ways. Each
amount is rounded on its own. Founders and treasury addresses take turns with the
height. Decimals and doubles are exact rationals.
-/

namespace HashStorm.Equihash

open Rounding

/-- How `Init` fails. -/
inductive InitFailure where
  | nullReference
  | argumentNull
  | invalidOperation
  | format
  | overflow
  | divideByZero
  | indexOutOfRange
  | exception (message : String)
  deriving DecidableEq, Repr

/-- The addresses of an array. -/
structure AddressArray where
  addresses : List String
  length_lt : addresses.length < 2 ^ 31
  deriving DecidableEq

/-- The number of addresses. -/
def AddressArray.length (array : AddressArray) : Nat := array.addresses.length

/-- `FundingStream`. -/
structure FundingStream where
  value : Rat
  valueZat : Rat
  address : Option String
  deriving DecidableEq, Repr

/-- `ZCashBlockSubsidy`. -/
structure ZCashBlockSubsidy where
  miner : Rat
  founders : Option Rat
  community : Option Rat
  securenodes : Option Rat
  supernodes : Option Rat
  fundingStreams : Option (List FundingStream)
  deriving DecidableEq, Repr

/-- The fields of `EquihashBlockTemplate` that rewards are built from; the transactions by
their fees. -/
structure RewardTemplate where
  height : UInt32
  coinbaseValue : Int64
  subsidy : Option ZCashBlockSubsidy
  transactions : List Rat
  deriving DecidableEq, Repr

/-- The fields of `EquihashNetworkParams` that choose and share out the reward. -/
structure NetworkParams where
  payFoundersReward : Bool := false
  payFundingStream : Bool := false
  vOuts : Bool := false
  vPercentFoundersReward : Rat := 0
  vTreasuryRewardAddress : Option String := none
  vPercentTreasuryReward : Rat := 0
  vSecureNodesRewardAddress : Option String := none
  percentSecureNodesReward : Rat := 0
  vSuperNodesRewardAddress : Option String := none
  percentSuperNodesReward : Rat := 0
  percentFoundersReward : Rat := 0
  foundersRewardAddresses : Option AddressArray := none
  foundersRewardSubsidySlowStartInterval : UInt64 := 0
  foundersRewardSubsidyHalvingInterval : UInt64 := 0
  percentTreasuryReward : Rat := 0
  treasuryRewardStartBlockHeight : UInt64 := 0
  treasuryRewardAddresses : Option AddressArray := none
  treasuryRewardAddressChangeInterval : Rat := 0
  deriving DecidableEq

/-- What the outputs need of NBitcoin. An exception is `none`. -/
structure OutputLibrary where
  /-- `Encoders.Base58.DecodeData`. -/
  decodeData : Option String → Option (List UInt8)
  /-- The script of `new ScriptId(hash)`. -/
  scriptId : List UInt8 → Option (List UInt8)
  /-- `new Money(amount, MoneyUnit.Satoshi)`. -/
  money : Rat → Option Int64

/-- A conversion of a decimal to a `long` drops its fraction. -/
def OutputLibrary.Truncates (lib : OutputLibrary) : Prop :=
  ∀ amount value, lib.money amount = some value → value.toInt = truncate amount

/-- `SatoshisPerBitcoin`. -/
def satoshisPerBitcoin : Rat := 100000000

section Init

variable (network : NetworkParams) (template : RewardTemplate)

/-- The block reward of `Init`. -/
def blockReward : Except InitFailure Rat :=
  match template.subsidy with
  | none =>
    if network.payFundingStream || network.vOuts || network.payFoundersReward then
      .error .nullReference
    else .ok (template.coinbaseValue.toInt : Rat)
  | some subsidy =>
    if network.payFundingStream then
      match subsidy.fundingStreams with
      | none => .error .argumentNull
      | some streams =>
        let fundingstreamTotal := (streams.map FundingStream.value).sum
        .ok ((subsidy.miner + fundingstreamTotal) * satoshisPerBitcoin)
    else if network.vOuts then
      match subsidy.community, subsidy.securenodes, subsidy.supernodes with
      | some community, some securenodes, some supernodes =>
        .ok ((subsidy.miner + community + securenodes + supernodes) * satoshisPerBitcoin)
      | _, _, _ => .error .invalidOperation
    else if network.payFoundersReward then
      match subsidy.founders.or subsidy.community with
      | none => .error (.exception "Error, founders reward missing for block template")
      | some founders => .ok ((subsidy.miner + founders) * satoshisPerBitcoin)
    else .ok (subsidy.miner * satoshisPerBitcoin)

/-- The fees of `Init`. -/
def rewardFees : Rat := template.transactions.sum

end Init

section Addresses

variable (network : NetworkParams) (height : UInt32)

/-- `FoundersRewardSubsidySlowStartShift`. -/
def NetworkParams.foundersRewardSubsidySlowStartShift : UInt64 :=
  network.foundersRewardSubsidySlowStartInterval / 2

/-- `LastFoundersRewardBlockHeight`. -/
def NetworkParams.lastFoundersRewardBlockHeight : UInt64 :=
  network.foundersRewardSubsidyHalvingInterval + network.foundersRewardSubsidySlowStartShift - 1

/-- The heights an address is used for. -/
def addressChangeInterval (maxHeight length : UInt64) : UInt64 := (maxHeight + length) / length

/-- The index in `GetFoundersRewardAddress`. -/
def foundersRewardIndex (addresses : AddressArray) : Except InitFailure UInt64 :=
  let length := UInt64.ofNat addresses.length
  if length = 0 then .error .divideByZero
  else
    let interval := addressChangeInterval network.lastFoundersRewardBlockHeight length
    if interval = 0 then .error .divideByZero else .ok (height.toUInt64 / interval)

/-- An address of an array. -/
def AddressArray.at (array : AddressArray) (index : Int) : Except InitFailure String :=
  if index < 0 then .error .indexOutOfRange
  else
    match array.addresses[index.toNat]? with
    | none => .error .indexOutOfRange
    | some address => .ok address

/-- `GetFoundersRewardAddress`. -/
def getFoundersRewardAddress : Except InitFailure String :=
  match network.foundersRewardAddresses with
  | none => .error .nullReference
  | some addresses =>
    match foundersRewardIndex network height addresses with
    | .error e => .error e
    | .ok index => addresses.at index.toNat

/-- The remainder of doubles, which has the sign of the dividend. -/
def remainder (x y : Rat) : Rat := x - y * truncate (x / y)

/-- The index in `GetTreasuryRewardAddress`. -/
def treasuryRewardIndex (addresses : AddressArray) : Int :=
  ⌊remainder ((height.toUInt64 - network.treasuryRewardStartBlockHeight).toNat /
    network.treasuryRewardAddressChangeInterval) addresses.length⌋

/-- `GetTreasuryRewardAddress`, for an interval that is not zero and some addresses. -/
def getTreasuryRewardAddress : Except InitFailure String :=
  match network.treasuryRewardAddresses with
  | none => .error .nullReference
  | some addresses => addresses.at (treasuryRewardIndex network height addresses)

/-- The ways `CreateOutputTransaction` shares out the reward. -/
inductive Branch where
  | fundingStream
  | vOuts
  | treasury
  | founders
  | noFounders
  deriving DecidableEq, Repr

/-- The branch that `CreateOutputTransaction` takes. -/
def NetworkParams.branch : Branch :=
  if network.payFundingStream then .fundingStream
  else if network.vOuts then .vOuts
  else if network.payFoundersReward &&
      (network.lastFoundersRewardBlockHeight ≥ height.toUInt64 ||
        network.treasuryRewardStartBlockHeight > 0) then
    if network.treasuryRewardStartBlockHeight > 0 &&
        height.toUInt64 ≥ network.treasuryRewardStartBlockHeight then .treasury
    else .founders
  else .noFounders

end Addresses

section Outputs

variable (lib : OutputLibrary) (network : NetworkParams) (template : RewardTemplate)
  (poolAddressDestination : List UInt8) (blockReward rewardFees : Rat)

/-- `FoundersAddressToScriptDestination`. -/
def foundersAddressToScriptDestination (address : Option String) :
    Except InitFailure (List UInt8) := do
  let some decoded := lib.decodeData address | throw .format
  let hash := (decoded.drop 2).take 20
  let some script := lib.scriptId hash | throw .format
  return script

/-- An amount as `Money`. -/
def toMoney (amount : Rat) : Except InitFailure Int64 :=
  match lib.money amount with
  | none => .error .overflow
  | some value => .ok value

/-- The output of the pool, which gets the fees. -/
def poolOutput (percent : Rat) : Except InitFailure Bitcoin.TxOut := do
  let rewardToPool ← toMoney lib (roundHalfEven (blockReward * (1 - percent / 100)) + rewardFees)
  return ⟨rewardToPool, poolAddressDestination⟩

/-- The output of a percentage to an address. -/
def percentOutput (percent : Rat) (address : Option String) :
    Except InitFailure Bitcoin.TxOut := do
  let destination ← foundersAddressToScriptDestination lib address
  let amount ← toMoney lib (roundHalfEven (blockReward * (percent / 100)))
  return ⟨amount, destination⟩

/-- The outputs of the funding streams. -/
def fundingStreamOutputs : List FundingStream → Except InitFailure (List Bitcoin.TxOut)
  | [] => return []
  | fundingstream :: fundingstreams => do
    let amount ← toMoney lib (roundHalfEven (fundingstream.valueZat / 1))
    let destination ← foundersAddressToScriptDestination lib fundingstream.address
    let outputs ← fundingStreamOutputs fundingstreams
    return ⟨amount, destination⟩ :: outputs

/-- The outputs of `CreateOutputTransaction`. -/
def createOutputTransaction : Except InitFailure (List Bitcoin.TxOut) :=
  match network.branch template.height with
  | .fundingStream => do
    let pool ← poolOutput lib poolAddressDestination blockReward rewardFees
      network.percentFoundersReward
    let some subsidy := template.subsidy | throw .nullReference
    let some fundingStreams := subsidy.fundingStreams | throw .nullReference
    let outputs ← fundingStreamOutputs lib fundingStreams
    return pool :: outputs
  | .vOuts => do
    let pool ← poolOutput lib poolAddressDestination blockReward rewardFees
      network.vPercentFoundersReward
    let treasury ← percentOutput lib blockReward network.vPercentTreasuryReward
      network.vTreasuryRewardAddress
    let secureNodes ← percentOutput lib blockReward network.percentSecureNodesReward
      network.vSecureNodesRewardAddress
    let superNodes ← percentOutput lib blockReward network.percentSuperNodesReward
      network.vSuperNodesRewardAddress
    return [pool, treasury, secureNodes, superNodes]
  | .treasury => do
    let pool ← poolOutput lib poolAddressDestination blockReward rewardFees
      network.percentTreasuryReward
    let address ← getTreasuryRewardAddress network template.height
    let treasury ← percentOutput lib blockReward network.percentTreasuryReward (some address)
    return [pool, treasury]
  | .founders => do
    let pool ← poolOutput lib poolAddressDestination blockReward rewardFees
      network.percentFoundersReward
    let address ← getFoundersRewardAddress network template.height
    let founders ← percentOutput lib blockReward network.percentFoundersReward (some address)
    return [pool, founders]
  | .noFounders => do
    let rewardToPool ← toMoney lib (blockReward + rewardFees)
    return [⟨rewardToPool, poolAddressDestination⟩]

end Outputs

section Sum

variable {lib : OutputLibrary} {network : NetworkParams} {template : RewardTemplate}
  {poolAddressDestination : List UInt8} {reward fees percent : Rat}

/-- The sum of the amounts of outputs. -/
def sumOutputs (outputs : List Bitcoin.TxOut) : Int :=
  (outputs.map fun output => output.value.toInt).sum

@[simp] theorem sumOutputs_nil : sumOutputs [] = 0 := rfl

@[simp] theorem sumOutputs_cons (output : Bitcoin.TxOut) (outputs : List Bitcoin.TxOut) :
    sumOutputs (output :: outputs) = output.value.toInt + sumOutputs outputs := rfl

/-- The exact share of the pool and those of the others, when the reward is shared out. -/
def NetworkParams.exactShares (network : NetworkParams) (template : RewardTemplate)
    (reward : Rat) : Option (Rat × List Rat) :=
  match network.branch template.height with
  | .fundingStream =>
    some (reward * (1 - network.percentFoundersReward / 100),
      ((template.subsidy.bind ZCashBlockSubsidy.fundingStreams).getD []).map
        FundingStream.valueZat)
  | .vOuts =>
    some (reward * (1 - network.vPercentFoundersReward / 100),
      [reward * (network.vPercentTreasuryReward / 100),
        reward * (network.percentSecureNodesReward / 100),
        reward * (network.percentSuperNodesReward / 100)])
  | .treasury =>
    some (reward * (1 - network.percentTreasuryReward / 100),
      [reward * (network.percentTreasuryReward / 100)])
  | .founders =>
    some (reward * (1 - network.percentFoundersReward / 100),
      [reward * (network.percentFoundersReward / 100)])
  | .noFounders => none

/-- The percentages of the branch make up the whole: three shares that make up that of the
founders, or funding streams in zatoshi that make up their percentage of the reward. -/
def NetworkParams.AddsUp (network : NetworkParams) (template : RewardTemplate) (reward : Rat) :
    Prop :=
  match network.branch template.height with
  | .fundingStream =>
    ∀ subsidy ∈ template.subsidy, ∀ streams ∈ subsidy.fundingStreams,
      (∀ stream ∈ streams, stream.valueZat = stream.value * satoshisPerBitcoin) ∧
        (streams.map FundingStream.value).sum * satoshisPerBitcoin =
          reward * (network.percentFoundersReward / 100)
  | .vOuts =>
    network.vPercentTreasuryReward + network.percentSecureNodesReward +
      network.percentSuperNodesReward = network.vPercentFoundersReward
  | .treasury | .founders | .noFounders => True

theorem toMoney_ok (hlib : lib.Truncates) {amount : Rat} {value : Int64}
    (h : toMoney lib amount = .ok value) : value.toInt = truncate amount := by
  rw [toMoney] at h
  split at h
  · cases h
  · rename_i hmoney
    obtain rfl := Except.ok.inj h
    exact hlib _ _ hmoney

theorem poolOutput_ok (hlib : lib.Truncates) {output : Bitcoin.TxOut}
    (h : poolOutput lib poolAddressDestination reward fees percent = .ok output) :
    output.value.toInt = truncate (roundHalfEven (reward * (1 - percent / 100)) + fees) := by
  obtain ⟨value, hvalue, h⟩ := Bitcoin.bind_eq_ok.mp h
  obtain rfl := Except.ok.inj h
  exact toMoney_ok hlib hvalue

theorem percentOutput_ok (hlib : lib.Truncates) {address : Option String}
    {output : Bitcoin.TxOut} (h : percentOutput lib reward percent address = .ok output) :
    output.value.toInt = roundHalfEven (reward * (percent / 100)) := by
  obtain ⟨destination, -, h⟩ := Bitcoin.bind_eq_ok.mp h
  obtain ⟨value, hvalue, h⟩ := Bitcoin.bind_eq_ok.mp h
  obtain rfl := Except.ok.inj h
  exact (toMoney_ok hlib hvalue).trans (truncate_intCast _)

theorem fundingStreamOutputs_ok (hlib : lib.Truncates) {streams : List FundingStream}
    {outputs : List Bitcoin.TxOut} (h : fundingStreamOutputs lib streams = .ok outputs) :
    sumOutputs outputs = ((streams.map FundingStream.valueZat).map roundHalfEven).sum := by
  induction streams generalizing outputs with
  | nil =>
    obtain rfl := Except.ok.inj h
    rfl
  | cons stream streams ih =>
    obtain ⟨value, hvalue, h⟩ := Bitcoin.bind_eq_ok.mp h
    obtain ⟨destination, -, h⟩ := Bitcoin.bind_eq_ok.mp h
    obtain ⟨rest, hrest, h⟩ := Bitcoin.bind_eq_ok.mp h
    obtain rfl := Except.ok.inj h
    have hamount := (toMoney_ok hlib hvalue).trans (truncate_intCast _)
    rw [div_one] at hamount
    rw [sumOutputs_cons, List.map_cons, List.map_cons, List.sum_cons, ih hrest]
    exact congrArg (· + _) hamount

/-- The pool and one address share the reward. -/
theorem pairOutputs_ok (hlib : lib.Truncates) {lookup : Except InitFailure String}
    {outputs : List Bitcoin.TxOut}
    (h : (do
      let pool ← poolOutput lib poolAddressDestination reward fees percent
      let address ← lookup
      let other ← percentOutput lib reward percent (some address)
      return [pool, other]) = .ok outputs) :
    sumOutputs outputs = truncate (roundHalfEven (reward * (1 - percent / 100)) + fees) +
      roundHalfEven (reward * (percent / 100)) := by
  obtain ⟨pool, hpool, h⟩ := Bitcoin.bind_eq_ok.mp h
  obtain ⟨address, -, h⟩ := Bitcoin.bind_eq_ok.mp h
  obtain ⟨other, hother, h⟩ := Bitcoin.bind_eq_ok.mp h
  obtain rfl := Except.ok.inj h
  rw [sumOutputs_cons, sumOutputs_cons, sumOutputs_nil, add_zero, poolOutput_ok hlib hpool,
    percentOutput_ok hlib hother]

/-- The amounts are the rounded shares, and that of the pool has the fees. -/
theorem createOutputTransaction_ok (hlib : lib.Truncates) {outputs : List Bitcoin.TxOut}
    (h : createOutputTransaction lib network template poolAddressDestination reward fees =
      .ok outputs) :
    sumOutputs outputs =
      match network.exactShares template reward with
      | none => truncate (reward + fees)
      | some (share, shares) =>
        truncate (roundHalfEven share + fees) + (shares.map roundHalfEven).sum := by
  rw [createOutputTransaction] at h
  rw [NetworkParams.exactShares]
  cases hbranch : network.branch template.height with
  | fundingStream =>
    rw [hbranch] at h
    obtain ⟨pool, hpool, h⟩ := Bitcoin.bind_eq_ok.mp h
    cases hsubsidy : template.subsidy with
    | none =>
      rw [hsubsidy] at h
      cases h
    | some subsidy =>
      rw [hsubsidy] at h
      cases hstreams : subsidy.fundingStreams with
      | none =>
        simp only [hstreams] at h
        cases h
      | some streams =>
        simp only [hstreams] at h
        obtain ⟨outputs', houtputs, h⟩ := Bitcoin.bind_eq_ok.mp h
        obtain rfl := Except.ok.inj h
        rw [sumOutputs_cons, poolOutput_ok hlib hpool, fundingStreamOutputs_ok hlib houtputs]
        simp only [Option.bind_some, hstreams, Option.getD_some]
  | vOuts =>
    rw [hbranch] at h
    obtain ⟨pool, hpool, h⟩ := Bitcoin.bind_eq_ok.mp h
    obtain ⟨treasury, htreasury, h⟩ := Bitcoin.bind_eq_ok.mp h
    obtain ⟨secureNodes, hsecure, h⟩ := Bitcoin.bind_eq_ok.mp h
    obtain ⟨superNodes, hsuper, h⟩ := Bitcoin.bind_eq_ok.mp h
    obtain rfl := Except.ok.inj h
    simp only [sumOutputs_cons, sumOutputs_nil, List.map_cons, List.map_nil, List.sum_cons,
      List.sum_nil, poolOutput_ok hlib hpool, percentOutput_ok hlib htreasury,
      percentOutput_ok hlib hsecure, percentOutput_ok hlib hsuper]
  | treasury | founders =>
    rw [hbranch] at h
    simp only [List.map_singleton, List.sum_singleton]
    exact pairOutputs_ok hlib h
  | noFounders =>
    rw [hbranch] at h
    obtain ⟨rewardToPool, hpool, h⟩ := Bitcoin.bind_eq_ok.mp h
    obtain rfl := Except.ok.inj h
    rw [sumOutputs_cons, sumOutputs_nil, add_zero]
    exact toMoney_ok hlib hpool

theorem branch_eq_fundingStream (h : network.branch template.height = .fundingStream) :
    network.payFundingStream = true := by
  rw [NetworkParams.branch] at h
  split at h
  · assumption
  split at h
  · cases h
  split at h
  · split at h <;> cases h
  · cases h

/-- A reward of funding streams is that of the miner and of the streams. -/
theorem blockReward_fundingStream (hreward : blockReward network template = .ok reward)
    (h : network.branch template.height = .fundingStream) :
    ∃ subsidy streams, template.subsidy = some subsidy ∧
      subsidy.fundingStreams = some streams := by
  rw [blockReward, branch_eq_fundingStream h] at hreward
  cases hsubsidy : template.subsidy with
  | none =>
    rw [hsubsidy] at hreward
    cases hreward
  | some subsidy =>
    rw [hsubsidy] at hreward
    cases hstreams : subsidy.fundingStreams with
    | none =>
      simp only [hstreams, if_true] at hreward
      cases hreward
    | some streams => exact ⟨subsidy, streams, rfl, hstreams⟩

/-- The exact shares make up the reward. -/
theorem sum_exactShares (hadd : network.AddsUp template reward)
    (hreward : blockReward network template = .ok reward) {share : Rat} {shares : List Rat}
    (hshares : network.exactShares template reward = some (share, shares)) :
    share + shares.sum = reward := by
  rw [NetworkParams.exactShares] at hshares
  rw [NetworkParams.AddsUp] at hadd
  cases hbranch : network.branch template.height with
  | fundingStream =>
    obtain ⟨subsidy, streams, hsubsidy, hstreams⟩ := blockReward_fundingStream hreward hbranch
    rw [hbranch] at hshares hadd
    simp only [hsubsidy, hstreams, Option.bind_some, Option.getD_some, Option.some.injEq,
      Prod.mk.injEq] at hshares
    obtain ⟨rfl, rfl⟩ := hshares
    obtain ⟨hvalues, hsum⟩ := hadd subsidy hsubsidy streams hstreams
    have hzat : (streams.map FundingStream.valueZat).sum =
        (streams.map FundingStream.value).sum * satoshisPerBitcoin := by
      rw [List.map_congr_left hvalues, ← List.sum_map_mul_right]
    rw [hzat, hsum]
    ring
  | vOuts =>
    rw [hbranch] at hshares hadd
    obtain ⟨rfl, rfl⟩ := Prod.mk.inj (Option.some.inj hshares)
    simp only at hadd
    rw [← hadd, List.sum_cons, List.sum_cons, List.sum_singleton]
    ring
  | treasury | founders =>
    rw [hbranch] at hshares
    obtain ⟨rfl, rfl⟩ := Prod.mk.inj (Option.some.inj hshares)
    rw [List.sum_singleton]
    ring
  | noFounders =>
    rw [hbranch] at hshares
    cases hshares

/-- The fractions of the exact shares and of the fees make up as many satoshis as there are
shares that are rounded up; if the reward is not shared out, it is whole with the fees. -/
def NetworkParams.SpendsExactly (network : NetworkParams) (template : RewardTemplate)
    (reward fees : Rat) : Prop :=
  match network.exactShares template reward with
  | none => ∃ n : Int, reward + fees = n
  | some (share, shares) =>
    ((share :: shares).map Int.fract).sum + lostFraction (roundHalfEven share) fees =
      (share :: shares).countP fun x => RoundsUp x

/-- The percentage of a reward that is shared by two. -/
def NetworkParams.sharedPercent (network : NetworkParams) (height : UInt32) : Option Rat :=
  match network.branch height with
  | .treasury => some network.percentTreasuryReward
  | .founders => some network.percentFoundersReward
  | .fundingStream | .vOuts | .noFounders => none

theorem truncate_eq_self_iff {x : Rat} : (truncate x : Rat) = x ↔ ∃ n : Int, x = n := by
  constructor
  · intro h
    exact ⟨_, h.symm⟩
  · rintro ⟨n, rfl⟩
    rw [truncate_intCast]

/-- **When the coinbase spends the reward.** The outputs make up the reward and the fees if and
only if the fractions of the exact shares and of the fees make up as many satoshis as there are
shares that are rounded up. When a whole number of satoshis is shared by two, that fails for an
odd number with shares in the middle, and only then. -/
theorem sumOutputs_eq_iff {lib : OutputLibrary} (hlib : lib.Truncates) {network : NetworkParams}
    {template : RewardTemplate} {poolAddressDestination : List UInt8} {reward : Rat}
    {outputs : List Bitcoin.TxOut} (hreward : blockReward network template = .ok reward)
    (hadd : network.AddsUp template reward)
    (houtputs : createOutputTransaction lib network template poolAddressDestination reward
      (rewardFees template) = .ok outputs) :
    ((sumOutputs outputs : Rat) = reward + rewardFees template ↔
        network.SpendsExactly template reward (rewardFees template)) ∧
      ∀ n m : Int, reward = n → rewardFees template = m →
        ∀ percent, network.sharedPercent template.height = some percent →
          ((sumOutputs outputs : Rat) = reward + rewardFees template ↔
            ¬(Int.fract (reward * (percent / 100)) = 1 / 2 ∧ n % 2 = 1)) := by
  have hsum := createOutputTransaction_ok hlib houtputs
  refine ⟨?_, ?_⟩
  · rw [hsum, NetworkParams.SpendsExactly]
    cases hshares : network.exactShares template reward with
    | none => exact truncate_eq_self_iff
    | some exactShares =>
      obtain ⟨share, shares⟩ := exactShares
      have hexact := sum_exactShares hadd hreward hshares
      have hiff := sum_rounded_shares_eq_iff share shares (rewardFees template)
      rwa [hexact] at hiff
  · intro n m hn hm percent hpercent
    have hshares : network.exactShares template reward =
        some (reward * (1 - percent / 100), [reward * (percent / 100)]) := by
      rw [NetworkParams.sharedPercent] at hpercent
      rw [NetworkParams.exactShares]
      cases hbranch : network.branch template.height with
      | treasury | founders =>
        rw [hbranch] at hpercent
        obtain rfl := Option.some.inj hpercent
        rfl
      | fundingStream | vOuts | noFounders =>
        rw [hbranch] at hpercent
        cases hpercent
    have hwhole : reward * (percent / 100) + reward * (1 - percent / 100) = n := by
      rw [← hn]
      ring
    rw [hshares] at hsum
    simp only [List.map_singleton, List.sum_singleton] at hsum
    rw [← roundHalfEven_add_eq_iff hwhole, hsum, hm, hn, ← Int.cast_add, truncate_intCast,
      ← Int.cast_add, Int.cast_inj]
    omega

end Sum

section Example

/-- Scripts that are their hashes, and amounts that fit 64 bits. -/
def exampleOutputLibrary : OutputLibrary where
  decodeData _ := some (List.replicate 26 7)
  scriptId hash := some hash
  money amount :=
    if -2 ^ 63 ≤ truncate amount ∧ truncate amount < 2 ^ 63 then
      some (.ofInt (truncate amount))
    else none

theorem exampleOutputLibrary_truncates : exampleOutputLibrary.Truncates := by
  intro amount value h
  simp only [exampleOutputLibrary] at h
  split at h
  · rename_i hrange
    obtain rfl := Option.some.inj h
    exact Int64.toInt_ofInt_of_le hrange.1 hrange.2
  · cases h

/-- A network that pays ten percent to the founders. -/
def exampleNetwork : NetworkParams where
  payFoundersReward := true
  percentFoundersReward := 10
  foundersRewardSubsidyHalvingInterval := 840000
  foundersRewardAddresses := some ⟨["founders"], by decide⟩

/-- A template with a reward for the miner and one for the founders. -/
def exampleTemplate (miner founders : Rat) : RewardTemplate where
  height := 1000
  coinbaseValue := 0
  subsidy := some ⟨miner, some founders, none, none, none, none⟩
  transactions := []

/-- Both shares of an odd reward are rounded up. -/
theorem outputs_above_reward :
    ¬∀ lib : OutputLibrary, lib.Truncates → ∀ (network : NetworkParams)
      (template : RewardTemplate) (poolAddressDestination : List UInt8) (reward : Rat)
      (outputs : List Bitcoin.TxOut), blockReward network template = .ok reward →
      network.AddsUp template reward →
      createOutputTransaction lib network template poolAddressDestination reward
        (rewardFees template) = .ok outputs →
      (sumOutputs outputs : Rat) = reward + rewardFees template := by
  intro hclaim
  have hadd : exampleNetwork.AddsUp (exampleTemplate (8789071 / 10 ^ 8) (976564 / 10 ^ 8))
      9765635 := by
    rw [NetworkParams.AddsUp]
    trivial
  have := hclaim exampleOutputLibrary exampleOutputLibrary_truncates exampleNetwork
    (exampleTemplate (8789071 / 10 ^ 8) (976564 / 10 ^ 8)) [1] 9765635
    [⟨8789072, [1]⟩, ⟨976564, List.replicate 20 7⟩] (by decide +kernel) hadd (by decide +kernel)
  revert this
  decide +kernel

/-- An even reward is spent exactly. -/
theorem sumOutputs_eq_even :
    (sumOutputs [⟨8789080, [1]⟩, ⟨976564, List.replicate 20 7⟩] : Rat) =
      9765644 + rewardFees (exampleTemplate (8789080 / 10 ^ 8) (976564 / 10 ^ 8)) := by
  have hadd : exampleNetwork.AddsUp (exampleTemplate (8789080 / 10 ^ 8) (976564 / 10 ^ 8))
      9765644 := by
    rw [NetworkParams.AddsUp]
    trivial
  have hreward : blockReward exampleNetwork
      (exampleTemplate (8789080 / 10 ^ 8) (976564 / 10 ^ 8)) = .ok 9765644 := by decide +kernel
  have houtputs : createOutputTransaction exampleOutputLibrary exampleNetwork
      (exampleTemplate (8789080 / 10 ^ 8) (976564 / 10 ^ 8)) [1] 9765644
      (rewardFees (exampleTemplate (8789080 / 10 ^ 8) (976564 / 10 ^ 8))) =
        .ok [⟨8789080, [1]⟩, ⟨976564, List.replicate 20 7⟩] := by decide +kernel
  exact ((sumOutputs_eq_iff exampleOutputLibrary_truncates hreward hadd houtputs).2 9765644 0 rfl
    (by decide +kernel) 10 (by decide +kernel)).mpr (by decide +kernel)

end Example

section Lookup

variable {network : NetworkParams} {height : UInt32} {addresses array : AddressArray}

theorem at_ok_iff {index : Nat} : (∃ address, array.at index = .ok address) ↔
    index < array.length := by
  rw [AddressArray.at, if_neg (by omega), Int.toNat_natCast]
  cases hget : array.addresses[index]? with
  | none =>
    rw [List.getElem?_eq_none_iff] at hget
    exact iff_of_false nofun (not_lt.mpr hget)
  | some address =>
    obtain ⟨hlt, -⟩ := List.getElem?_eq_some_iff.mp hget
    exact iff_of_true ⟨address, rfl⟩ hlt

/-- The interval is one more than the quotient, and zero if its numerator wraps. -/
theorem toNat_addressChangeInterval (maxHeight length : UInt64) (hlength : 0 < length.toNat) :
    (addressChangeInterval maxHeight length).toNat =
      if maxHeight.toNat + length.toNat < 2 ^ 64 then maxHeight.toNat / length.toNat + 1
      else 0 := by
  have hmax := maxHeight.toNat_lt
  have hlen := length.toNat_lt
  rw [addressChangeInterval, UInt64.toNat_div, UInt64.toNat_add]
  split
  · rename_i hlt
    rw [Nat.mod_eq_of_lt hlt, Nat.add_div_right _ hlength]
  · rename_i hge
    rw [Nat.mod_eq_sub_mod (by omega), Nat.mod_eq_of_lt (by omega), Nat.div_eq_of_lt (by omega)]

/-- The number of heights of an address, when it does not wrap. -/
def NetworkParams.foundersInterval (network : NetworkParams) (addresses : AddressArray) : Nat :=
  network.lastFoundersRewardBlockHeight.toNat / addresses.length + 1

/-- The numerator of the interval does not wrap. -/
def NetworkParams.Fits (network : NetworkParams) (addresses : AddressArray) : Prop :=
  network.lastFoundersRewardBlockHeight.toNat + addresses.length < 2 ^ 64

theorem toNat_length (addresses : AddressArray) :
    (UInt64.ofNat addresses.length).toNat = addresses.length := by
  have := addresses.length_lt
  rw [UInt64.toNat_ofNat', Nat.mod_eq_of_lt]
  rw [AddressArray.length]
  omega

theorem foundersRewardIndex_of_fits (height : UInt32) (hne : 0 < addresses.length)
    (hfits : network.Fits addresses) :
    ∃ index, foundersRewardIndex network height addresses = .ok index ∧
      index.toNat = height.toNat / network.foundersInterval addresses := by
  have hlength := toNat_length addresses
  have hinterval := toNat_addressChangeInterval network.lastFoundersRewardBlockHeight
    (UInt64.ofNat addresses.length) (by rwa [hlength])
  rw [NetworkParams.Fits] at hfits
  rw [hlength, if_pos hfits] at hinterval
  have hlength' : UInt64.ofNat addresses.length ≠ 0 := by
    intro h
    rw [h] at hlength
    exact hne.ne hlength
  have hinterval' : addressChangeInterval network.lastFoundersRewardBlockHeight
      (UInt64.ofNat addresses.length) ≠ 0 := by
    intro h
    rw [h] at hinterval
    cases hinterval
  rw [foundersRewardIndex]
  refine ⟨_, by rw [if_neg hlength', if_neg hinterval'], ?_⟩
  rw [UInt64.toNat_div, hinterval, UInt32.toNat_toUInt64, NetworkParams.foundersInterval]

theorem foundersRewardIndex_of_not_fits (hne : 0 < addresses.length)
    (hfits : ¬network.Fits addresses) :
    foundersRewardIndex network height addresses = .error .divideByZero := by
  have hlength := toNat_length addresses
  have hinterval := toNat_addressChangeInterval network.lastFoundersRewardBlockHeight
    (UInt64.ofNat addresses.length) (by rwa [hlength])
  rw [NetworkParams.Fits] at hfits
  rw [hlength, if_neg hfits] at hinterval
  have hzero : addressChangeInterval network.lastFoundersRewardBlockHeight
      (UInt64.ofNat addresses.length) = 0 := UInt64.toNat_inj.mp hinterval
  simp only [foundersRewardIndex, if_pos hzero, ite_self]

/-- The founders lookup finds an address up to the last height of its table. -/
theorem getFoundersRewardAddress_ok_iff (hne : 0 < addresses.length)
    (haddresses : network.foundersRewardAddresses = some addresses) :
    (∃ address, getFoundersRewardAddress network height = .ok address) ↔
      network.Fits addresses ∧
        height.toNat < addresses.length * network.foundersInterval addresses := by
  rw [getFoundersRewardAddress, haddresses]
  by_cases hfits : network.Fits addresses
  · obtain ⟨index, hindex, htoNat⟩ := foundersRewardIndex_of_fits height hne hfits
    have hpos : 0 < network.foundersInterval addresses := Nat.succ_pos _
    simp only [hindex]
    rw [at_ok_iff, htoNat, Nat.div_lt_iff_lt_mul hpos]
    exact (and_iff_right hfits).symm
  · simp only [foundersRewardIndex_of_not_fits hne hfits]
    exact iff_of_false nofun fun h => hfits h.1

theorem remainder_mem {x y : Rat} (hx : 0 ≤ x) (hy : 0 < y) :
    0 ≤ remainder x y ∧ remainder x y < y := by
  have hquotient : 0 ≤ x / y := div_nonneg hx hy.le
  have hexact : x = y * (x / y) := (mul_div_cancel₀ x hy.ne').symm
  have hremainder : remainder x y = y * Int.fract (x / y) := by
    rw [remainder, truncate, if_pos hquotient, Int.fract, mul_sub, ← hexact]
  rw [hremainder]
  exact ⟨mul_nonneg hy.le (Int.fract_nonneg _), by
    calc y * Int.fract (x / y) < y * 1 := mul_lt_mul_of_pos_left (Int.fract_lt_one _) hy
      _ = y := mul_one y⟩

/-- The treasury lookup never leaves its table. -/
theorem getTreasuryRewardAddress_ok (hne : 0 < addresses.length)
    (haddresses : network.treasuryRewardAddresses = some addresses)
    (hinterval : 0 < network.treasuryRewardAddressChangeInterval) :
    ∃ address, getTreasuryRewardAddress network height = .ok address := by
  rw [getTreasuryRewardAddress, haddresses]
  have hquotient : (0 : Rat) ≤ (height.toUInt64 - network.treasuryRewardStartBlockHeight).toNat /
      network.treasuryRewardAddressChangeInterval :=
    div_nonneg (Nat.cast_nonneg _) hinterval.le
  obtain ⟨hnonneg, hlt⟩ := remainder_mem hquotient (Nat.cast_pos.mpr hne)
  obtain ⟨index, hindex⟩ := Int.eq_ofNat_of_zero_le (Int.floor_nonneg.mpr hnonneg)
  have hindexLt : index < addresses.length := by
    have hfloor := Int.floor_lt.mpr (hlt.trans_eq (Int.cast_natCast addresses.length).symm)
    rw [hindex] at hfloor
    exact Int.ofNat_lt.mp hfloor
  simp only [treasuryRewardIndex, hindex]
  exact at_ok_iff.mpr hindexLt

theorem foundersRewardIndex_eq_iff {index : UInt64} (hne : 0 < addresses.length)
    (hfits : network.Fits addresses) :
    foundersRewardIndex network height addresses = .ok index ↔
      index.toNat * network.foundersInterval addresses ≤ height.toNat ∧
        height.toNat < (index.toNat + 1) * network.foundersInterval addresses := by
  obtain ⟨index', hindex, htoNat⟩ := foundersRewardIndex_of_fits height hne hfits
  have hpos : 0 < network.foundersInterval addresses := Nat.succ_pos _
  rw [hindex, Except.ok.injEq, ← UInt64.toNat_inj, htoNat, Nat.div_eq_iff hpos]
  rw [Nat.succ_mul]
  omega

/-- Every height of the founders period lies in the table. -/
theorem lt_table_of_le_last (hne : 0 < addresses.length)
    (hlast : height.toNat ≤ network.lastFoundersRewardBlockHeight.toNat) :
    height.toNat < addresses.length * network.foundersInterval addresses :=
  hlast.trans_lt (Nat.lt_mul_div_succ _ hne)

/-- The address that `CreateOutputTransaction` looks up for founders or treasury. -/
def NetworkParams.rewardAddress (network : NetworkParams) (height : UInt32) :
    Except InitFailure String :=
  if network.branch height = .treasury then getTreasuryRewardAddress network height
  else getFoundersRewardAddress network height

/-- **When an address is found.** That is so in the treasury branch, and in the founders branch
exactly up to the last height of the table, unless the interval wraps to zero. In the founders
period, each index is used for one range of heights, one after the other. -/
theorem rewardAddress_ok_iff {network : NetworkParams} {founders treasury : AddressArray}
    (hfounders : network.foundersRewardAddresses = some founders) (hne : 0 < founders.length)
    (htreasury : network.treasuryRewardAddresses = some treasury) (hne' : 0 < treasury.length)
    (hinterval : 0 < network.treasuryRewardAddressChangeInterval) :
    (∀ height, network.branch height = .founders ∨ network.branch height = .treasury →
      ((∃ address, network.rewardAddress height = .ok address) ↔
        network.branch height = .treasury ∨
          network.Fits founders ∧
            height.toNat < founders.length * network.foundersInterval founders)) ∧
      (network.Fits founders → ∀ height : UInt32,
        height.toNat ≤ network.lastFoundersRewardBlockHeight.toNat →
          ∃ index : UInt64, index.toNat < founders.length ∧
            foundersRewardIndex network height founders = .ok index ∧
            ∀ height' : UInt32, foundersRewardIndex network height' founders = .ok index ↔
              index.toNat * network.foundersInterval founders ≤ height'.toNat ∧
                height'.toNat < (index.toNat + 1) * network.foundersInterval founders) := by
  refine ⟨fun height _ => ?_, fun hfits height hlast => ?_⟩
  · rw [NetworkParams.rewardAddress]
    by_cases hbranch : network.branch height = .treasury
    · rw [if_pos hbranch]
      exact iff_of_true (getTreasuryRewardAddress_ok hne' htreasury hinterval) (Or.inl hbranch)
    · rw [if_neg hbranch, getFoundersRewardAddress_ok_iff hne hfounders, or_iff_right hbranch]
  · obtain ⟨index, hindex, htoNat⟩ := foundersRewardIndex_of_fits height hne hfits
    have hpos : 0 < network.foundersInterval founders := Nat.succ_pos _
    refine ⟨index, ?_, hindex, fun height' => foundersRewardIndex_eq_iff hne hfits⟩
    rw [htoNat, Nat.div_lt_iff_lt_mul hpos]
    exact lt_table_of_le_last hne hlast

/-- A network that ends its founders period at height 99, with one address, and starts its
treasury at height 1000. -/
def gapNetwork : NetworkParams where
  payFoundersReward := true
  foundersRewardSubsidyHalvingInterval := 100
  foundersRewardAddresses := some ⟨["founders"], by decide⟩
  treasuryRewardStartBlockHeight := 1000
  treasuryRewardAddresses := some ⟨["treasury"], by decide⟩
  treasuryRewardAddressChangeInterval := 50

/-- Between the two periods the founders lookup leaves its table. -/
theorem lookup_leaves_table :
    ¬∀ (network : NetworkParams) (founders treasury : AddressArray),
      network.foundersRewardAddresses = some founders → 0 < founders.length →
      network.treasuryRewardAddresses = some treasury → 0 < treasury.length →
      0 < network.treasuryRewardAddressChangeInterval →
      ∀ height, network.branch height = .founders ∨ network.branch height = .treasury →
        ∃ address, network.rewardAddress height = .ok address := by
  intro hclaim
  obtain ⟨address, haddress⟩ := hclaim gapNetwork _ _ rfl (by decide) rfl (by decide)
    (by decide +kernel) 500 (by decide)
  have herror : gapNetwork.rewardAddress 500 = .error .indexOutOfRange := by decide +kernel
  rw [herror] at haddress
  cases haddress

/-- The last height of the founders period has an address. -/
theorem rewardAddress_last : ∃ address, gapNetwork.rewardAddress 99 = .ok address :=
  ((rewardAddress_ok_iff rfl (by decide) rfl (by decide) (by decide +kernel)).1 99
    (by decide)).mpr (Or.inr ⟨by rw [NetworkParams.Fits]; decide, by decide⟩)

end Lookup

end HashStorm.Equihash
