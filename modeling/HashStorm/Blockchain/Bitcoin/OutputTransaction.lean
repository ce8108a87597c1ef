import HashStorm.Blockchain.Bitcoin.SubmitValidation
import HashStorm.Contracts.ShareEvent
import HashStorm.Lib.Allotment

/-!
# The outputs of a coinbase

`BitcoinJob.CreateOutputTransaction` starts with the value of the coinbase, lets
up to eleven creators add outputs and take their amounts from the reward, and
gives what is left to the pool. Most creators end with an exception when an entry
is invalid. Four of them swallow it, and then the amount of an output that was
added may stay in the reward. That happens only when the difference does not fit
64 bits, so the reward is negative; no later creator can bring it back, and a
negative reward is refused in the end.
-/

namespace HashStorm.Bitcoin

open Contracts Stratum Allotment

/-- How `CreateOutputTransaction` fails. -/
inductive OutputFailure where
  | nullReference
  | argument
  | format
  | overflow
  /-- `ToObject` of a token with other contents. -/
  | json
  | invalidOperation (message : String)
  deriving DecidableEq, Repr

/-- What the creators call of NBitcoin. An exception is `none`. -/
structure OutputLibrary where
  /-- The script of `BitcoinAddress.Create(address, network).ScriptPubKey.GetDestination()`,
  also `none` if there is no destination. -/
  destination : String → Option (List UInt8)
  /-- The bytes of `new Script(bytes)`. -/
  script : List UInt8 → Option (List UInt8)
  /-- The difference of two amounts. -/
  subtract : Int64 → Int64 → Option Int64
  /-- The amount of an unsigned number. -/
  ofUInt64 : UInt64 → Option Int64

/-- Amounts are exact, and a difference fails only when it does not fit. -/
structure OutputLibrary.Checked (lib : OutputLibrary) : Prop where
  subtract_eq : ∀ a b c, lib.subtract a b = some c → c.toInt = a.toInt - b.toInt
  subtract_none : ∀ a b, lib.subtract a b = none →
    a.toInt - b.toInt < -2 ^ 63 ∨ 2 ^ 63 ≤ a.toInt - b.toInt
  ofUInt64_eq : ∀ v a, lib.ofUInt64 v = some a → a.toInt = v.toNat

/-- A transaction output. -/
structure TxOut where
  value : Int64
  scriptPubKey : List UInt8
  deriving DecidableEq, Repr

/-- The transaction a creator adds to, by its outputs, and the reward. -/
structure Outputs where
  tx : List TxOut
  reward : Int64
  deriving DecidableEq, Repr

/-- A token of the template, by what `ToObject` makes of it; `none` is an exception,
and the entries may be null. -/
inductive JToken (α : Type) where
  | array (items : Option (List (Option α)))
  | value (item : Option (Option α))
  deriving DecidableEq, Repr

/-- `Masternode`, `SuperBlock`, `Fortune` and `Founder`. -/
structure PayeeEntry where
  payee : Option String
  amount : Int64
  deriving DecidableEq, Repr

/-- `CoinbaseDevReward`, `Community`, `DataMining` and `Developer`. -/
structure ScriptEntry where
  script : Option Text
  amount : Int64
  deriving DecidableEq, Repr

/-- `PayeeBlockTemplateExtra`. -/
structure PayeeBlockTemplateExtra where
  payee : Option String
  payeeAmount : Option Int64
  deriving DecidableEq, Repr

/-- `MasterNodeBlockTemplateExtra`. -/
structure MasterNodeBlockTemplateExtra extends PayeeBlockTemplateExtra where
  masternode : Option (JToken PayeeEntry)
  superBlocks : Option (List (Option PayeeEntry))
  deriving DecidableEq, Repr

/-- `MinerFundTemplateExtra`. -/
structure MinerFundTemplateExtra where
  addresses : Option (List (Option String))
  minimumValue : UInt64
  deriving DecidableEq, Repr

/-- `CoinbaseStakingRewardTemplateExtra`; the payout script by its hex text. -/
structure CoinbaseStakingRewardTemplateExtra where
  payoutScript : Option (Option Text)
  minimumValue : UInt64
  deriving DecidableEq, Repr

/-- The flags of `BitcoinTemplate` that choose the creators. -/
structure CoinFlags where
  hasPayee : Bool := false
  hasMasterNodes : Bool := false
  hasFounderFee : Bool := false
  hasFortuneReward : Bool := false
  hasMinerFund : Bool := false
  hasCommunityAddress : Bool := false
  hasCoinbaseDevReward : Bool := false
  hasCoinbaseStakingReward : Bool := false
  hasCommunity : Bool := false
  hasDataMining : Bool := false
  hasDeveloper : Bool := false
  deriving DecidableEq, Repr

/-- What the creators read of the job. Parameters that may be null are optional. -/
structure RewardTemplate where
  coin : CoinFlags := {}
  coinbaseValue : Int64
  communityAutonomousAddress : Option String := none
  communityAutonomousValue : Int64 := 0
  payeeParameters : Option PayeeBlockTemplateExtra := none
  masterNodeParameters : Option MasterNodeBlockTemplateExtra := none
  founderParameters : Option (Option (JToken PayeeEntry)) := none
  fortuneParameters : Option (Option (JToken PayeeEntry)) := none
  minerFundParameters : Option MinerFundTemplateExtra := none
  /-- The token is converted to one entry, which may be null. -/
  coinbaseDevRewardParams : Option (Option (Option (Option ScriptEntry))) := none
  coinbaseStakingRewardParameters : Option CoinbaseStakingRewardTemplateExtra := none
  communityParameters : Option (Option (List ScriptEntry)) := none
  dataminingParameters : Option (Option (List ScriptEntry)) := none
  developerParameters : Option (Option (List ScriptEntry)) := none
  /-- The script of `poolAddressDestination`. -/
  poolScript : List UInt8
  deriving DecidableEq, Repr

variable (lib : OutputLibrary) (job : RewardTemplate)

/-- `BitcoinUtils.AddressToDestination`. -/
def addressToDestination (address : Option String) : Except OutputFailure (List UInt8) :=
  if isNullOrWhiteSpace address then .error .argument
  else
    match lib.destination (address.getD "") with
    | none => .error .format
    | some destination => .ok destination

/-- `tx.Outputs.Add(amount, script)` and `reward -= amount`. -/
def Outputs.pay (o : Outputs) (amount : Int64) (script : List UInt8) :
    Except OutputFailure Outputs :=
  match lib.subtract o.reward amount with
  | none => .error .overflow
  | some reward => .ok ⟨o.tx ++ [⟨amount, script⟩], reward⟩

/-- The same with an unsigned amount. -/
def Outputs.payUnsigned (o : Outputs) (amount : UInt64) (script : List UInt8) :
    Except OutputFailure Outputs :=
  match lib.ofUInt64 amount with
  | none => .error .overflow
  | some amount => o.pay lib amount script

/-- `CreatePayeeOutput`. -/
def createPayeeOutput (o : Outputs) : Except OutputFailure Outputs :=
  match job.payeeParameters with
  | none => .ok o
  | some parameters =>
    match parameters.payeeAmount with
    | none => .ok o
    | some amount =>
      if 0 < amount then
        match lib.subtract o.reward amount with
        | none => .error .overflow
        | some reward => do
          let destination ← addressToDestination lib parameters.payee
          return ⟨o.tx ++ [⟨amount, destination⟩], reward⟩
      else .ok o

/-- The entries of a token that may hold one or several of them. -/
def JToken.entries {α : Type} : JToken α → Except OutputFailure (List (Option α))
  | .array none => .error .json
  | .array (some items) => .ok items
  | .value none => .error .json
  | .value (some item) => .ok [item]

/-- The output of an entry of a token. -/
def payEntry (o : Outputs) (entry : Option PayeeEntry) : Except OutputFailure Outputs :=
  match entry with
  | none => .error .nullReference
  | some entry =>
    if isNullOrEmpty entry.payee then .ok o
    else do
      let destination ← addressToDestination lib entry.payee
      o.pay lib entry.amount destination

/-- The outputs of a token, if there is one. -/
def payToken (token : Option (JToken PayeeEntry)) (o : Outputs) : Except OutputFailure Outputs :=
  match token with
  | none => .ok o
  | some token => do
    let entries ← token.entries
    entries.foldlM (payEntry lib) o

/-- The output of a super block, whose payee is not checked. -/
def paySuperBlock (o : Outputs) (superBlock : Option PayeeEntry) : Except OutputFailure Outputs :=
  match superBlock with
  | none => .error .nullReference
  | some superBlock => do
    let destination ← addressToDestination lib superBlock.payee
    o.pay lib superBlock.amount destination

/-- The last part of `CreateMasternodeOutputs`; a null amount raises an exception. -/
def payMasternodePayee (parameters : PayeeBlockTemplateExtra) (o : Outputs) :
    Except OutputFailure Outputs :=
  if !job.coin.hasPayee && !isNullOrEmpty parameters.payee then do
    let destination ← addressToDestination lib parameters.payee
    match parameters.payeeAmount with
    | none => .error .argument
    | some amount => o.pay lib amount destination
  else .ok o

/-- `CreateMasternodeOutputs`. -/
def createMasternodeOutputs (o : Outputs) : Except OutputFailure Outputs :=
  match job.masterNodeParameters with
  | none => .error .nullReference
  | some parameters => do
    let o ← payToken lib parameters.masternode o
    let o ← (parameters.superBlocks.getD []).foldlM (paySuperBlock lib) o
    payMasternodePayee lib job parameters.toPayeeBlockTemplateExtra o

/-- `CreateFounderOutputs`. -/
def createFounderOutputs (o : Outputs) : Except OutputFailure Outputs :=
  match job.founderParameters with
  | none => .error .nullReference
  | some founder => payToken lib founder o

/-- `CreateFortuneOutputs`. -/
def createFortuneOutputs (o : Outputs) : Except OutputFailure Outputs :=
  match job.fortuneParameters with
  | none => .error .nullReference
  | some fortune => payToken lib fortune o

/-- `CreateMinerFundOutputs`. -/
def createMinerFundOutputs (o : Outputs) : Except OutputFailure Outputs :=
  match job.minerFundParameters with
  | none => .error .nullReference
  | some parameters =>
    let address := ((parameters.addresses.getD []).head?).getD none
    if isNullOrEmpty address then .ok o
    else do
      let destination ← addressToDestination lib address
      o.payUnsigned lib parameters.minimumValue destination

/-- `CreateCommunityAddressOutputs`. -/
def createCommunityAddressOutputs (o : Outputs) : Except OutputFailure Outputs :=
  if 0 < job.communityAutonomousValue ∧ isNullOrEmpty job.communityAutonomousAddress = false then do
    let destination ← addressToDestination lib job.communityAutonomousAddress
    o.pay lib job.communityAutonomousValue destination
  else .ok o

/-- `string.IsNullOrEmpty` of a text. -/
def noText (value : Option Text) : Bool := (value.getD []).isEmpty

/-- The body of a loop with a `catch`: an invalid script is skipped, and after an
exception of the subtraction the output stays. -/
def payScript (o : Outputs) (entry : ScriptEntry) : Outputs :=
  if noText entry.script ∨ entry.amount ≤ 0 then o
  else
    match lib.script (hexToByteArray (entry.script.getD [])) with
    | none => o
    | some spk =>
      let tx := o.tx ++ [⟨entry.amount, spk⟩]
      match lib.subtract o.reward entry.amount with
      | none => ⟨tx, o.reward⟩
      | some reward => ⟨tx, reward⟩

/-- `CreateCoinbaseDevRewardOutputs`. -/
def createCoinbaseDevRewardOutputs (o : Outputs) : Except OutputFailure Outputs :=
  match job.coinbaseDevRewardParams with
  | none | some none => .ok o
  | some (some none) => .error .json
  | some (some (some none)) => .ok o
  | some (some (some (some entry))) => .ok (payScript lib o entry)

/-- `CreateCoinbaseStakingRewardOutputs`. -/
def createCoinbaseStakingRewardOutputs (o : Outputs) : Except OutputFailure Outputs :=
  match job.coinbaseStakingRewardParameters with
  | none => .error .nullReference
  | some parameters =>
    let script := parameters.payoutScript.getD none
    if noText script then .ok o
    else
      match lib.script (hexToByteArray (script.getD [])) with
      | none => .error .format
      | some spk => o.payUnsigned lib parameters.minimumValue spk

/-- The outputs of a list of scripts, if there is one. -/
def payScripts (parameters : Option (Option (List ScriptEntry))) (o : Outputs) : Outputs :=
  ((parameters.getD none).getD []).foldl (payScript lib) o

/-- `CreateCommunityOutputs`. -/
def createCommunityOutputs (o : Outputs) : Except OutputFailure Outputs :=
  .ok (payScripts lib job.communityParameters o)

/-- `CreateDataMiningOutputs`. -/
def createDataMiningOutputs (o : Outputs) : Except OutputFailure Outputs :=
  .ok (payScripts lib job.dataminingParameters o)

/-- `CreateDeveloperOutputs`. -/
def createDeveloperOutputs (o : Outputs) : Except OutputFailure Outputs :=
  .ok (payScripts lib job.developerParameters o)

/-- A creator runs when its flag is set. -/
def Outputs.createIf (flag : Bool) (create : Outputs → Except OutputFailure Outputs)
    (o : Outputs) : Except OutputFailure Outputs :=
  if flag then create o else .ok o

/-- `CreateOutputTransaction`: the outputs, with `rewardToPool`. -/
def createOutputTransaction : Except OutputFailure Outputs := do
  let coin := job.coin
  let o : Outputs := ⟨[], job.coinbaseValue⟩
  let o ← o.createIf coin.hasPayee (createPayeeOutput lib job)
  let o ← o.createIf coin.hasMasterNodes (createMasternodeOutputs lib job)
  let o ← o.createIf coin.hasFounderFee (createFounderOutputs lib job)
  let o ← o.createIf coin.hasFortuneReward (createFortuneOutputs lib job)
  let o ← o.createIf coin.hasMinerFund (createMinerFundOutputs lib job)
  let o ← o.createIf coin.hasCommunityAddress (createCommunityAddressOutputs lib job)
  let o ← o.createIf coin.hasCoinbaseDevReward (createCoinbaseDevRewardOutputs lib job)
  let o ← o.createIf coin.hasCoinbaseStakingReward (createCoinbaseStakingRewardOutputs lib job)
  let o ← o.createIf coin.hasCommunity (createCommunityOutputs lib job)
  let o ← o.createIf coin.hasDataMining (createDataMiningOutputs lib job)
  let o ← o.createIf coin.hasDeveloper (createDeveloperOutputs lib job)
  if o.reward < 0 then
    throw (.invalidOperation "Coinbase over-allocated: outputs exceed subsidy+fees")
  if 0 < o.reward then return { o with tx := o.tx ++ [⟨o.reward, job.poolScript⟩] }
  return o

section Payments

/-- The output to an address, if it is one. -/
def addressPayment (payee : Option String) (amount : Int64) : List TxOut :=
  match addressToDestination lib payee with
  | .error _ => []
  | .ok destination => [⟨amount, destination⟩]

/-- The output of an unsigned amount, if it fits. -/
def unsignedPayment (amount : UInt64) (script : List UInt8) : List TxOut :=
  match lib.ofUInt64 amount with
  | none => []
  | some amount => [⟨amount, script⟩]

/-- The output of the payee, if its amount is positive. -/
def payeePayments : List TxOut :=
  match job.payeeParameters.bind fun p => p.payeeAmount.map (p.payee, ·) with
  | some (payee, amount) => if 0 < amount then addressPayment lib payee amount else []
  | none => []

/-- The output of an entry with a payee. -/
def entryPayment (entry : Option PayeeEntry) : List TxOut :=
  match entry with
  | none => []
  | some entry =>
    if isNullOrEmpty entry.payee then [] else addressPayment lib entry.payee entry.amount

/-- The outputs of a token. -/
def tokenPayments (token : Option (JToken PayeeEntry)) : List TxOut :=
  match token.map JToken.entries with
  | some (.ok entries) => entries.flatMap (entryPayment lib)
  | _ => []

/-- The output of a super block. -/
def superBlockPayment (superBlock : Option PayeeEntry) : List TxOut :=
  match superBlock with
  | none => []
  | some superBlock => addressPayment lib superBlock.payee superBlock.amount

/-- The output of the payee of the master nodes, where the coin has no payee of its own. -/
def masternodePayeePayment (parameters : PayeeBlockTemplateExtra) : List TxOut :=
  if !job.coin.hasPayee && !isNullOrEmpty parameters.payee then
    match parameters.payeeAmount with
    | none => []
    | some amount => addressPayment lib parameters.payee amount
  else []

/-- The outputs of the master nodes, the super blocks and their payee. -/
def masternodePayments : List TxOut :=
  match job.masterNodeParameters with
  | none => []
  | some parameters =>
    tokenPayments lib parameters.masternode ++
      (parameters.superBlocks.getD []).flatMap (superBlockPayment lib) ++
      masternodePayeePayment lib job parameters.toPayeeBlockTemplateExtra

/-- The output of the miner fund, if it has an address. -/
def minerFundPayments : List TxOut :=
  match job.minerFundParameters with
  | none => []
  | some parameters =>
    let address := ((parameters.addresses.getD []).head?).getD none
    if isNullOrEmpty address then []
    else
      match addressToDestination lib address with
      | .error _ => []
      | .ok destination => unsignedPayment lib parameters.minimumValue destination

/-- The output of the community address, if its amount is positive. -/
def communityAddressPayments : List TxOut :=
  if 0 < job.communityAutonomousValue ∧ isNullOrEmpty job.communityAutonomousAddress = false then
    addressPayment lib job.communityAutonomousAddress job.communityAutonomousValue
  else []

/-- The output of an entry with a valid script and a positive amount. -/
def scriptPayment (entry : ScriptEntry) : List TxOut :=
  if noText entry.script ∨ entry.amount ≤ 0 then []
  else
    match lib.script (hexToByteArray (entry.script.getD [])) with
    | none => []
    | some spk => [⟨entry.amount, spk⟩]

/-- The output of the developer's reward. -/
def devRewardPayments : List TxOut :=
  match job.coinbaseDevRewardParams with
  | some (some (some (some entry))) => scriptPayment lib entry
  | _ => []

/-- The output of the staking reward, if it has a script. -/
def stakingRewardPayments : List TxOut :=
  match job.coinbaseStakingRewardParameters with
  | none => []
  | some parameters =>
    let script := parameters.payoutScript.getD none
    if noText script then []
    else
      match lib.script (hexToByteArray (script.getD [])) with
      | none => []
      | some spk => unsignedPayment lib parameters.minimumValue spk

/-- The outputs of a list of scripts. -/
def scriptPayments (parameters : Option (Option (List ScriptEntry))) : List TxOut :=
  ((parameters.getD none).getD []).flatMap (scriptPayment lib)

/-- The valid entries of the template under the flags of the coin, in the order of the
creators. -/
def payments : List TxOut :=
  let coin := job.coin
  let paidIf (flag : Bool) (entries : List TxOut) := if flag then entries else []
  paidIf coin.hasPayee (payeePayments lib job) ++
  paidIf coin.hasMasterNodes (masternodePayments lib job) ++
  paidIf coin.hasFounderFee (tokenPayments lib (job.founderParameters.getD none)) ++
  paidIf coin.hasFortuneReward (tokenPayments lib (job.fortuneParameters.getD none)) ++
  paidIf coin.hasMinerFund (minerFundPayments lib job) ++
  paidIf coin.hasCommunityAddress (communityAddressPayments lib job) ++
  paidIf coin.hasCoinbaseDevReward (devRewardPayments lib job) ++
  paidIf coin.hasCoinbaseStakingReward (stakingRewardPayments lib job) ++
  paidIf coin.hasCommunity (scriptPayments lib job.communityParameters) ++
  paidIf coin.hasDataMining (scriptPayments lib job.dataminingParameters) ++
  paidIf coin.hasDeveloper (scriptPayments lib job.developerParameters)

end Payments

section Creators

variable {lib job} {o o' : Outputs}

/-- The value of an output. -/
def TxOut.satoshi (output : TxOut) : Int := output.value.toInt

/-- What was paid and what is left, as exact numbers. -/
def Outputs.state (o : Outputs) : Allotment.State TxOut := ⟨o.tx, o.reward.toInt⟩

/-- The creator added these outputs and took their amounts. -/
abbrev Outputs.Pays (o : Outputs) (es : List TxOut) (o' : Outputs) : Prop :=
  Allotment.Pays TxOut.satoshi o.state es o'.state

/-- The creator added these outputs, and took their amounts or leaves a negative reward. -/
abbrev Outputs.Settles (o : Outputs) (es : List TxOut) (o' : Outputs) : Prop :=
  Allotment.Settles TxOut.satoshi o.state es o'.state

theorem Outputs.Pays.append {o₁ o₂ o₃ : Outputs} {es es' : List TxOut} (h : o₁.Pays es o₂)
    (h' : o₂.Pays es' o₃) : o₁.Pays (es ++ es') o₃ :=
  Allotment.Pays.trans h h'

theorem Outputs.Settles.append {o₁ o₂ o₃ : Outputs} {es es' : List TxOut}
    (h : o₁.Settles es o₂) (h' : o₂.Settles es' o₃) : o₁.Settles (es ++ es') o₃ :=
  Allotment.Settles.trans h h'

variable (hlib : lib.Checked)
include hlib

/-- One output, and its amount taken exactly. -/
theorem pays_of_subtract {amount reward : Int64} {script : List UInt8}
    (h : lib.subtract o.reward amount = some reward) :
    o.Pays [⟨amount, script⟩] ⟨o.tx ++ [⟨amount, script⟩], reward⟩ :=
  ⟨rfl, by simpa [Outputs.state, TxOut.satoshi] using hlib.subtract_eq _ _ _ h⟩

theorem pay_pays {amount : Int64} {script : List UInt8} (h : o.pay lib amount script = .ok o') :
    o.Pays [⟨amount, script⟩] o' := by
  simp only [Outputs.pay] at h
  split at h
  · cases h
  · rename_i reward hreward
    cases h
    exact pays_of_subtract hlib hreward

/-- An output to an address. -/
theorem pays_address {payee : Option String} {amount : Int64}
    (h : (do
      let destination ← addressToDestination lib payee
      o.pay lib amount destination) = .ok o') :
    o.Pays (addressPayment lib payee amount) o' := by
  obtain ⟨destination, hdestination, hpay⟩ := bind_eq_ok.mp h
  rw [addressPayment, hdestination]
  exact pay_pays hlib hpay

theorem payUnsigned_pays {amount : UInt64} {script : List UInt8}
    (h : o.payUnsigned lib amount script = .ok o') :
    o.Pays (unsignedPayment lib amount script) o' := by
  simp only [Outputs.payUnsigned] at h
  split at h
  · cases h
  · rename_i a ha
    rw [unsignedPayment, ha]
    exact pay_pays hlib h

theorem payEntry_pays {entry : Option PayeeEntry} (h : payEntry lib o entry = .ok o') :
    o.Pays (entryPayment lib entry) o' := by
  simp only [payEntry] at h
  split at h
  · cases h
  · simp only [entryPayment]
    split at h
    · rename_i hempty
      cases h
      rw [if_pos hempty]
      exact Pays.refl _
    · rename_i hpayee
      rw [if_neg hpayee]
      exact pays_address hlib h

theorem payToken_pays {token : Option (JToken PayeeEntry)} (h : payToken lib token o = .ok o') :
    o.Pays (tokenPayments lib token) o' := by
  cases token with
  | none =>
    cases h
    exact Pays.refl _
  | some token =>
    obtain ⟨entries, hentries, hloop⟩ := bind_eq_ok.mp h
    simp only [tokenPayments, Option.map_some, hentries]
    exact relates_foldlM (R := Outputs.Pays) hloop (fun o => Pays.refl o.state)
      Outputs.Pays.append fun _ _ _ => payEntry_pays hlib

theorem paySuperBlock_pays {superBlock : Option PayeeEntry}
    (h : paySuperBlock lib o superBlock = .ok o') :
    o.Pays (superBlockPayment lib superBlock) o' := by
  cases superBlock with
  | none => cases h
  | some superBlock => exact pays_address hlib h

theorem payMasternodePayee_pays {parameters : PayeeBlockTemplateExtra}
    (h : payMasternodePayee lib job parameters o = .ok o') :
    o.Pays (masternodePayeePayment lib job parameters) o' := by
  simp only [payMasternodePayee] at h
  simp only [masternodePayeePayment]
  split at h
  · rename_i hpayee
    rw [if_pos hpayee]
    cases hamount : parameters.payeeAmount with
    | none =>
      simp only [hamount] at h
      obtain ⟨_, -, h⟩ := bind_eq_ok.mp h
      cases h
    | some amount =>
      simp only [hamount] at h
      exact pays_address hlib h
  · rename_i hpayee
    cases h
    rw [if_neg hpayee]
    exact Pays.refl _

theorem createPayeeOutput_pays (h : createPayeeOutput lib job o = .ok o') :
    o.Pays (payeePayments lib job) o' := by
  simp only [createPayeeOutput] at h
  simp only [payeePayments]
  cases hparameters : job.payeeParameters with
  | none =>
    simp only [hparameters] at h
    cases h
    exact Pays.refl _
  | some parameters =>
    simp only [hparameters] at h
    cases hamount : parameters.payeeAmount with
    | none =>
      simp only [hamount] at h
      cases h
      simpa [hamount] using Pays.refl o.state
    | some amount =>
      simp only [hamount] at h
      simp only [Option.bind_some, hamount, Option.map_some]
      split at h
      · rename_i hpos
        rw [if_pos hpos]
        split at h
        · cases h
        · rename_i reward hreward
          obtain ⟨destination, hdestination, hpay⟩ := bind_eq_ok.mp h
          cases hpay
          rw [addressPayment, hdestination]
          exact pays_of_subtract hlib hreward
      · rename_i hpos
        cases h
        rw [if_neg hpos]
        exact Pays.refl _

theorem createMasternodeOutputs_pays (h : createMasternodeOutputs lib job o = .ok o') :
    o.Pays (masternodePayments lib job) o' := by
  simp only [createMasternodeOutputs] at h
  simp only [masternodePayments]
  split at h
  · cases h
  · rename_i parameters hparameters
    obtain ⟨o₁, hmasternode, h⟩ := bind_eq_ok.mp h
    obtain ⟨o₂, hsuperBlocks, hpayee⟩ := bind_eq_ok.mp h
    have hloop : o₁.Pays _ o₂ := relates_foldlM (R := Outputs.Pays) hsuperBlocks
      (fun o => Pays.refl o.state) Outputs.Pays.append fun _ _ _ => paySuperBlock_pays hlib
    exact ((payToken_pays hlib hmasternode).append hloop).append
      (payMasternodePayee_pays hlib hpayee)

theorem createFounderOutputs_pays (h : createFounderOutputs lib job o = .ok o') :
    o.Pays (tokenPayments lib (job.founderParameters.getD none)) o' := by
  simp only [createFounderOutputs] at h
  split at h
  · cases h
  · rename_i founder hfounder
    rw [hfounder]
    exact payToken_pays hlib h

theorem createFortuneOutputs_pays (h : createFortuneOutputs lib job o = .ok o') :
    o.Pays (tokenPayments lib (job.fortuneParameters.getD none)) o' := by
  simp only [createFortuneOutputs] at h
  split at h
  · cases h
  · rename_i fortune hfortune
    rw [hfortune]
    exact payToken_pays hlib h

theorem createMinerFundOutputs_pays (h : createMinerFundOutputs lib job o = .ok o') :
    o.Pays (minerFundPayments lib job) o' := by
  simp only [createMinerFundOutputs] at h
  simp only [minerFundPayments]
  split at h
  · cases h
  · split at h
    · rename_i hempty
      cases h
      rw [if_pos hempty]
      exact Pays.refl _
    · rename_i haddress
      rw [if_neg haddress]
      obtain ⟨destination, hdestination, hpay⟩ := bind_eq_ok.mp h
      rw [hdestination]
      exact payUnsigned_pays hlib hpay

theorem createCommunityAddressOutputs_pays
    (h : createCommunityAddressOutputs lib job o = .ok o') :
    o.Pays (communityAddressPayments lib job) o' := by
  simp only [createCommunityAddressOutputs] at h
  simp only [communityAddressPayments]
  split at h
  · rename_i haddress
    rw [if_pos haddress]
    exact pays_address hlib h
  · rename_i haddress
    cases h
    rw [if_neg haddress]
    exact Pays.refl _

/-- An entry whose amount is not taken leaves a negative reward. -/
theorem payScript_settles (o : Outputs) (entry : ScriptEntry) :
    o.Settles (scriptPayment lib entry) (payScript lib o entry) := by
  simp only [payScript, scriptPayment]
  split
  · exact Settles.refl _
  · rename_i hvalid
    have hpos : 0 < entry.amount.toInt := by
      rw [not_or, Int64.not_le, Int64.lt_iff_toInt_lt] at hvalid
      exact hvalid.2
    cases hscript : lib.script (hexToByteArray (entry.script.getD [])) with
    | none => exact Settles.refl _
    | some spk =>
      simp only
      cases hreward : lib.subtract o.reward entry.amount with
      | some reward =>
        refine Pays.settles (pays_of_subtract hlib hreward) fun e he => ?_
        obtain rfl := List.mem_singleton.mp he
        exact Int.le_of_lt hpos
      | none =>
        have hfail := hlib.subtract_none _ _ hreward
        have hamount := entry.amount.toInt_lt
        have hbound := o.reward.toInt_lt
        have hneg : o.reward.toInt < 0 := by omega
        exact ⟨rfl, Or.inr hneg, id⟩

/-- The loop of the three creators of lists of scripts. -/
theorem payScripts_settles {parameters : Option (Option (List ScriptEntry))}
    (h : (.ok (payScripts lib parameters o) : Except OutputFailure Outputs) = .ok o') :
    o.Settles (scriptPayments lib parameters) o' := by
  cases h
  exact relates_foldl (R := Outputs.Settles) (fun o => Settles.refl o.state)
    Outputs.Settles.append (payScript_settles hlib) _ o

theorem createCoinbaseDevRewardOutputs_settles
    (h : createCoinbaseDevRewardOutputs lib job o = .ok o') :
    o.Settles (devRewardPayments lib job) o' := by
  simp only [createCoinbaseDevRewardOutputs] at h
  simp only [devRewardPayments]
  split at h
  · rename_i hparams
    cases h
    simpa only [hparams] using Settles.refl o.state
  · rename_i hparams
    cases h
    simpa only [hparams] using Settles.refl o.state
  · cases h
  · rename_i hparams
    cases h
    simpa only [hparams] using Settles.refl o.state
  · rename_i entry hparams
    cases h
    simpa only [hparams] using payScript_settles hlib o entry

theorem createCoinbaseStakingRewardOutputs_settles
    (h : createCoinbaseStakingRewardOutputs lib job o = .ok o') :
    o.Settles (stakingRewardPayments lib job) o' := by
  simp only [createCoinbaseStakingRewardOutputs] at h
  simp only [stakingRewardPayments]
  split at h
  · cases h
  · rename_i parameters hparameters
    split at h
    · rename_i hempty
      cases h
      rw [if_pos hempty]
      exact Settles.refl _
    · rename_i hscript
      rw [if_neg hscript]
      split at h
      · cases h
      · rename_i spk hspk
        refine Pays.settles (payUnsigned_pays hlib h) fun e he => ?_
        simp only [unsignedPayment] at he
        split at he
        · cases he
        · rename_i amount hamount
          obtain rfl := List.mem_singleton.mp he
          rw [TxOut.satoshi, hlib.ofUInt64_eq _ _ hamount]
          exact Int.natCast_nonneg _

omit hlib in
/-- A creator that does not run adds nothing. -/
theorem createIf_relates {R : Outputs → List TxOut → Outputs → Prop} (hrefl : ∀ o, R o [] o)
    {flag : Bool} {create : Outputs → Except OutputFailure Outputs} {es : List TxOut}
    (h : o.createIf flag create = .ok o')
    (hcreate : ∀ {o o' : Outputs}, create o = .ok o' → R o es o') :
    R o (if flag then es else []) o' := by
  cases flag with
  | false =>
    cases h
    exact hrefl _
  | true => exact hcreate h

omit hlib in
/-- The output of the pool makes up the value. -/
theorem conserved_of_pays {es : List TxOut} {paid : Outputs}
    (hpays : (⟨[], job.coinbaseValue⟩ : Outputs).Pays es paid) (hnonneg : 0 ≤ paid.reward.toInt)
    (h : (if 0 < paid.reward then
        pure { paid with tx := paid.tx ++ [⟨paid.reward, job.poolScript⟩] }
      else pure paid : Except OutputFailure Outputs) = .ok o) :
    (o.tx.map TxOut.satoshi).sum = job.coinbaseValue.toInt ∧
      o.tx = es ++ (if 0 < o.reward then [⟨o.reward, job.poolScript⟩] else []) ∧
      o.reward.toInt = job.coinbaseValue.toInt - (es.map TxOut.satoshi).sum := by
  have hsum := hpays.sum_add_rest
  have htx : paid.tx = es := hpays.paid_eq
  have hreward : paid.reward.toInt = job.coinbaseValue.toInt - (es.map TxOut.satoshi).sum :=
    hpays.rest_eq
  split at h
  · rename_i hpool
    cases h
    refine ⟨?_, by rw [if_pos hpool, htx], hreward⟩
    simpa [Outputs.state, TxOut.satoshi] using hsum
  · rename_i hpool
    have hzero : paid.reward.toInt ≤ 0 := by
      rwa [Int64.not_lt, Int64.le_iff_toInt_le] at hpool
    cases h
    refine ⟨?_, by rw [if_neg hpool, htx, List.append_nil], hreward⟩
    have hrest : o.reward.toInt = 0 := Int.le_antisymm hzero hnonneg
    simpa [Outputs.state, hrest] using hsum

/-- **The value of the coinbase is conserved.** A transaction that is returned has the
output of every valid entry and then that of the pool, which is positive and has what
the entries leave of the value. -/
theorem createOutputTransaction_conserves (h : createOutputTransaction lib job = .ok o) :
    (o.tx.map TxOut.satoshi).sum = job.coinbaseValue.toInt ∧
      o.tx = payments lib job ++ (if 0 < o.reward then [⟨o.reward, job.poolScript⟩] else []) ∧
      o.reward.toInt = job.coinbaseValue.toInt - ((payments lib job).map TxOut.satoshi).sum := by
  simp only [createOutputTransaction] at h
  obtain ⟨o₁, h₁, h⟩ := bind_eq_ok.mp h
  obtain ⟨o₂, h₂, h⟩ := bind_eq_ok.mp h
  obtain ⟨o₃, h₃, h⟩ := bind_eq_ok.mp h
  obtain ⟨o₄, h₄, h⟩ := bind_eq_ok.mp h
  obtain ⟨o₅, h₅, h⟩ := bind_eq_ok.mp h
  obtain ⟨o₆, h₆, h⟩ := bind_eq_ok.mp h
  obtain ⟨o₇, h₇, h⟩ := bind_eq_ok.mp h
  obtain ⟨o₈, h₈, h⟩ := bind_eq_ok.mp h
  obtain ⟨o₉, h₉, h⟩ := bind_eq_ok.mp h
  obtain ⟨o₁₀, h₁₀, h⟩ := bind_eq_ok.mp h
  obtain ⟨o₁₁, h₁₁, h⟩ := bind_eq_ok.mp h
  have hrefl : ∀ o : Outputs, o.Pays [] o := fun o => Pays.refl o.state
  have hrefl' : ∀ o : Outputs, o.Settles [] o := fun o => Settles.refl o.state
  -- the creators that end with an exception rather than lose an amount
  have hpays := createIf_relates hrefl h₁ (createPayeeOutput_pays hlib)
    |>.append (createIf_relates hrefl h₂ (createMasternodeOutputs_pays hlib))
    |>.append (createIf_relates hrefl h₃ (createFounderOutputs_pays hlib))
    |>.append (createIf_relates hrefl h₄ (createFortuneOutputs_pays hlib))
    |>.append (createIf_relates hrefl h₅ (createMinerFundOutputs_pays hlib))
    |>.append (createIf_relates hrefl h₆ (createCommunityAddressOutputs_pays hlib))
  -- and those behind the first `catch`
  have hsettles := createIf_relates hrefl' h₇ (createCoinbaseDevRewardOutputs_settles hlib)
    |>.append (createIf_relates hrefl' h₈ (createCoinbaseStakingRewardOutputs_settles hlib))
    |>.append (createIf_relates hrefl' h₉ (payScripts_settles hlib))
    |>.append (createIf_relates hrefl' h₁₀ (payScripts_settles hlib))
    |>.append (createIf_relates hrefl' h₁₁ (payScripts_settles hlib))
  split at h
  · cases h
  · rename_i hguard
    have hnonneg : 0 ≤ o₁₁.reward.toInt := by
      rwa [Int64.not_lt, Int64.le_iff_toInt_le] at hguard
    have hall : (⟨[], job.coinbaseValue⟩ : Outputs).Pays (payments lib job) o₁₁ := by
      simpa only [payments, ← List.append_assoc] using hpays.append (hsettles.pays hnonneg)
    exact conserved_of_pays hall hnonneg h

end Creators

/-- Amounts as checked 64-bit numbers, one address of the main network, and scripts of
any bytes. -/
def mainNetwork : OutputLibrary where
  destination address :=
    if address = "1A1zP1eP5QGefi2DMPTfTL5SLmv7DivfNa" then
      some [0x76, 0xa9, 0x14, 0x62, 0xe9, 0x07, 0xb1, 0x5c, 0xbf, 0x27, 0xd5, 0x42, 0x53, 0x99,
        0xeb, 0xf6, 0xf0, 0xfb, 0x50, 0xeb, 0xb8, 0x8f, 0x18, 0x88, 0xac]
    else none
  script := some
  subtract a b :=
    let difference := a.toInt - b.toInt
    if -2 ^ 63 ≤ difference ∧ difference < 2 ^ 63 then some (.ofInt difference) else none
  ofUInt64 amount := if amount.toNat < 2 ^ 63 then some (.ofInt amount.toNat) else none

theorem mainNetwork_checked : mainNetwork.Checked where
  subtract_eq a b c h := by
    simp only [mainNetwork] at h
    split at h
    · rename_i hfits
      cases h
      exact Int64.toInt_ofInt_of_le hfits.1 hfits.2
    · cases h
  subtract_none a b h := by
    simp only [mainNetwork] at h
    split at h
    · cases h
    · omega
  ofUInt64_eq v a h := by
    simp only [mainNetwork] at h
    split at h
    · rename_i hfits
      cases h
      exact Int64.toInt_ofInt_of_le (by omega) (by omega)
    · cases h

/-- A template with a founder, a community script, and one without an amount. -/
def founderTemplate : RewardTemplate where
  coin := { hasFounderFee := true, hasCommunity := true }
  coinbaseValue := 312500000
  founderParameters :=
    some (some (.value (some (some ⟨some "1A1zP1eP5QGefi2DMPTfTL5SLmv7DivfNa", 12500000⟩))))
  communityParameters := some (some [⟨some (text "6a00"), 1000⟩, ⟨some (text "51"), 0⟩])
  poolScript := [0x51]

/-- The outputs of that template. -/
theorem createOutputTransaction_founder_and_community :
    ∃ o, createOutputTransaction mainNetwork founderTemplate = .ok o ∧
      (o.tx.map TxOut.satoshi).sum = founderTemplate.coinbaseValue.toInt ∧
      o.tx = payments mainNetwork founderTemplate ++
        (if 0 < o.reward then [⟨o.reward, founderTemplate.poolScript⟩] else []) ∧
      o.reward.toInt = founderTemplate.coinbaseValue.toInt -
        ((payments mainNetwork founderTemplate).map TxOut.satoshi).sum := by
  have hok : (createOutputTransaction mainNetwork founderTemplate).toOption.isSome := by
    decide +kernel
  cases h : createOutputTransaction mainNetwork founderTemplate with
  | error e =>
    rw [h] at hok
    cases hok
  | ok o => exact ⟨o, rfl, createOutputTransaction_conserves mainNetwork_checked h⟩

end HashStorm.Bitcoin
