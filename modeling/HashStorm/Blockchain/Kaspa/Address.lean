import HashStorm.Blockchain.Kaspa.AddressCodec

/-!
# Validated Kaspa addresses

`KaspaUtils.ValidateAddress` decodes an address, checks its prefix against that of the
network, and builds an address object of one of three kinds. The objects write the name
of the prefix enumeration where the codec reads the prefix of the coin, so that what they
encode is of mixed case and never accepted; the object of a script hash has hashed its
payload twice.
-/

namespace HashStorm.Kaspa

open Stratum Bitcoin

/-- `KaspaBech32Prefix`. -/
inductive KaspaBech32Prefix where
  | unknown
  | kaspaMain
  | kaspaDev
  | kaspaTest
  | kaspaSim
  deriving DecidableEq, Repr

/-- `ToString` of the enumeration. -/
def KaspaBech32Prefix.toText : KaspaBech32Prefix → Text
  | .unknown => text "Unknown"
  | .kaspaMain => text "KaspaMain"
  | .kaspaDev => text "KaspaDev"
  | .kaspaTest => text "KaspaTest"
  | .kaspaSim => text "KaspaSim"

/-- The prefixes of `KaspaCoinTemplate`. -/
structure KaspaCoinTemplate where
  addressBech32Prefix : Text
  addressBech32PrefixDevnet : Text
  addressBech32PrefixSimnet : Text
  addressBech32PrefixTestnet : Text
  deriving DecidableEq, Repr

/-- The exceptions of `ValidateAddress`, with what their texts name. -/
inductive AddressError where
  /-- Empty address -/
  | emptyAddress
  /-- Two prefixes of the coin are one key. -/
  | duplicateKey
  /-- Decoded address is of unknown format -/
  | unknownFormat (error : KaspaBech32.Error)
  /-- Could not parse prefix -/
  | unknownPrefix (prefixString : Text)
  /-- Decoded address is of wrong network -/
  | wrongNetwork (expected got : KaspaBech32Prefix)
  /-- Public key must be of a size -/
  | publicKeySize (size : Nat)
  /-- Script hash must be of a size -/
  | scriptHashSize (size : Nat)
  /-- Unknown address type -/
  | unknownType
  deriving DecidableEq, Repr

/-- `PubKeyAddrID`. -/
def pubKeyAddrID : UInt8 := 0x00

/-- `PubKeyECDSAAddrID`. -/
def pubKeyECDSAAddrID : UInt8 := 0x01

/-- `ScriptHashAddrID`. -/
def scriptHashAddrID : UInt8 := 0x08

/-- `PublicKeySize`. -/
def publicKeySize : Nat := 32

/-- `PublicKeySizeECDSA`. -/
def publicKeySizeECDSA : Nat := 33

/-- `Blake2bSize256`. -/
def blake2bSize256 : Nat := 32

/-- `KaspaAddressPublicKey`. -/
structure KaspaAddressPublicKey where
  bech32Prefix : KaspaBech32Prefix
  publicKey : List UInt8
  length_eq : publicKey.length = publicKeySize
  deriving DecidableEq, Repr

/-- `KaspaAddressPublicKeyECDSA`. -/
structure KaspaAddressPublicKeyECDSA where
  bech32Prefix : KaspaBech32Prefix
  publicKey : List UInt8
  length_eq : publicKey.length = publicKeySizeECDSA
  deriving DecidableEq, Repr

/-- `KaspaAddressScriptHash`. -/
structure KaspaAddressScriptHash where
  bech32Prefix : KaspaBech32Prefix
  hash : List UInt8
  length_eq : hash.length = blake2bSize256
  deriving DecidableEq, Repr

/-- `KaspaIAddress`, by its three classes. -/
inductive KaspaIAddress where
  | publicKey (address : KaspaAddressPublicKey)
  | publicKeyECDSA (address : KaspaAddressPublicKeyECDSA)
  | scriptHash (address : KaspaAddressScriptHash)
  deriving DecidableEq, Repr

namespace KaspaIAddress

/-- `Version`. -/
def version : KaspaIAddress → UInt8
  | .publicKey _ => pubKeyAddrID
  | .publicKeyECDSA _ => pubKeyECDSAAddrID
  | .scriptHash _ => scriptHashAddrID

/-- `Prefix`. -/
def bech32Prefix : KaspaIAddress → KaspaBech32Prefix
  | .publicKey address => address.bech32Prefix
  | .publicKeyECDSA address => address.bech32Prefix
  | .scriptHash address => address.bech32Prefix

/-- `ScriptAddress`. -/
def scriptAddress : KaspaIAddress → List UInt8
  | .publicKey address => address.publicKey
  | .publicKeyECDSA address => address.publicKey
  | .scriptHash address => address.hash

/-- `EncodeAddress`, which is the same in the three classes. -/
def encodeAddress (address : KaspaIAddress) : Text :=
  KaspaBech32.encode address.bech32Prefix.toText address.scriptAddress address.version

end KaspaIAddress

section Validate

variable (hashBlake2b : List UInt8 → List UInt8)

/-- The constructor of `KaspaAddressPublicKey`. -/
def newPublicKey (publicKey : List UInt8) (bech32Prefix : KaspaBech32Prefix) :
    Except AddressError KaspaIAddress :=
  if h : publicKey.length = publicKeySize then .ok (.publicKey ⟨bech32Prefix, publicKey, h⟩)
  else .error (.publicKeySize publicKeySize)

/-- The constructor of `KaspaAddressPublicKeyECDSA`. -/
def newPublicKeyECDSA (publicKey : List UInt8) (bech32Prefix : KaspaBech32Prefix) :
    Except AddressError KaspaIAddress :=
  if h : publicKey.length = publicKeySizeECDSA then
    .ok (.publicKeyECDSA ⟨bech32Prefix, publicKey, h⟩)
  else .error (.publicKeySize publicKeySizeECDSA)

/-- The constructor of `KaspaAddressScriptHash`, which hashes what it is given. -/
def newScriptHash (serializedScript : List UInt8) (bech32Prefix : KaspaBech32Prefix) :
    Except AddressError KaspaIAddress :=
  let scriptHash := hashBlake2b serializedScript
  if h : scriptHash.length = blake2bSize256 then .ok (.scriptHash ⟨bech32Prefix, scriptHash, h⟩)
  else .error (.scriptHashSize blake2bSize256)

/-- `stringsToBech32Prefixes`. -/
def KaspaCoinTemplate.stringsToBech32Prefixes (coin : KaspaCoinTemplate) :
    List (Text × KaspaBech32Prefix) :=
  [(coin.addressBech32Prefix, .kaspaMain), (coin.addressBech32PrefixDevnet, .kaspaDev),
    (coin.addressBech32PrefixSimnet, .kaspaSim), (coin.addressBech32PrefixTestnet, .kaspaTest)]

/-- `ParsePrefix`. -/
def KaspaCoinTemplate.parsePrefix (coin : KaspaCoinTemplate) (prefixString : Text) :
    Except AddressError KaspaBech32Prefix :=
  match coin.stringsToBech32Prefixes.lookup prefixString with
  | none => .error (.unknownPrefix prefixString)
  | some bech32Prefix => .ok bech32Prefix

/-- The switch over the version in `DecodeAddress`. -/
def newAddress (version : UInt8) (decoded : List UInt8) (bech32Prefix : KaspaBech32Prefix) :
    Except AddressError KaspaIAddress :=
  if version = pubKeyAddrID then newPublicKey decoded bech32Prefix
  else if version = pubKeyECDSAAddrID then newPublicKeyECDSA decoded bech32Prefix
  else if version = scriptHashAddrID then
    newScriptHash hashBlake2b (hashBlake2b decoded) bech32Prefix
  else .error .unknownType

/-- `DecodeAddress`; the address in place of the property that is set. -/
def decodeAddress (coin : KaspaCoinTemplate) (addr : Text) (expectedPrefix : KaspaBech32Prefix) :
    Except AddressError KaspaIAddress :=
  match KaspaBech32.decode addr with
  | .error error => .error (.unknownFormat error)
  | .ok (prefixString, decoded, version) => do
    let bech32Prefix ← coin.parsePrefix prefixString
    if expectedPrefix ≠ .unknown ∧ expectedPrefix ≠ bech32Prefix then
      throw (.wrongNetwork expectedPrefix bech32Prefix)
    newAddress hashBlake2b version decoded bech32Prefix

/-- The prefix of a network in `ValidateAddress`. -/
def networkBech32Prefix (network : Text) : KaspaBech32Prefix :=
  if toLower network = text "devnet" then .kaspaDev
  else if toLower network = text "simnet" then .kaspaSim
  else if toLower network = text "testnet" then .kaspaTest
  else .kaspaMain

/-- `ValidateAddress`; the address of the utility, or the exception. -/
def validateAddress (address network : Text) (coin : KaspaCoinTemplate) :
    Except AddressError KaspaIAddress := do
  if address = [] then
    throw .emptyAddress
  if ¬(coin.stringsToBech32Prefixes.map Prod.fst).Nodup then
    throw .duplicateKey
  decodeAddress hashBlake2b coin address (networkBech32Prefix network)

end Validate

section Stays

variable {hashBlake2b : List UInt8 → List UInt8} {coin : KaspaCoinTemplate} {s network : Text}
  {address : KaspaIAddress}

/-- The object has the payload and the version of the string, and what it encodes is accepted as
an equal object. -/
def Stays (hashBlake2b : List UInt8 → List UInt8) (coin : KaspaCoinTemplate) (s network : Text)
    (address : KaspaIAddress) : Prop :=
  ∃ hrp payload version, KaspaBech32.decode s = .ok (hrp, payload, version) ∧
    address.scriptAddress = payload ∧ address.version = version ∧
    validateAddress hashBlake2b address.encodeAddress network coin = .ok address

theorem validateAddress_ok (h : validateAddress hashBlake2b s network coin = .ok address) :
    ∃ hrp payload version, KaspaBech32.decode s = .ok (hrp, payload, version) ∧
      coin.parsePrefix hrp = .ok (networkBech32Prefix network) ∧
      newAddress hashBlake2b version payload (networkBech32Prefix network) = .ok address := by
  simp only [validateAddress, check_eq_ok] at h
  obtain ⟨-, -, h⟩ := h
  rw [decodeAddress] at h
  split at h
  · cases h
  · rename_i hrp payload version hdecode
    obtain ⟨bech32Prefix, hparse, h⟩ := bind_eq_ok.mp h
    rw [check_eq_ok] at h
    obtain ⟨hnetwork, h⟩ := h
    have hknown : networkBech32Prefix network ≠ .unknown := by
      rw [networkBech32Prefix]
      split_ifs <;> decide
    obtain rfl : networkBech32Prefix network = bech32Prefix := by
      by_contra hne
      exact hnetwork ⟨hknown, hne⟩
    exact ⟨hrp, payload, version, hdecode, hparse, h⟩

/-- An object has the version it is built with, and the payload, unless that is hashed twice. -/
theorem newAddress_ok {version : UInt8} {payload : List UInt8} {bech32Prefix : KaspaBech32Prefix}
    (h : newAddress hashBlake2b version payload bech32Prefix = .ok address) :
    address.version = version ∧ address.bech32Prefix = bech32Prefix ∧
      address.scriptAddress =
        if version = scriptHashAddrID then hashBlake2b (hashBlake2b payload) else payload := by
  rw [newAddress] at h
  split at h
  · rename_i hversion
    subst hversion
    rw [newPublicKey] at h
    split at h
    · obtain rfl := Except.ok.inj h
      exact ⟨rfl, rfl, rfl⟩
    · cases h
  split at h
  · rename_i hversion
    subst hversion
    rw [newPublicKeyECDSA] at h
    split at h
    · obtain rfl := Except.ok.inj h
      exact ⟨rfl, rfl, rfl⟩
    · cases h
  split at h
  · rename_i hversion
    subst hversion
    rw [newScriptHash] at h
    split at h
    · obtain rfl := Except.ok.inj h
      exact ⟨rfl, rfl, rfl⟩
    · cases h
  · cases h

/-- The object of an accepted string has its version, and its payload, unless that is the hash of
a script, which is hashed twice. -/
theorem validateAddress_parts (h : validateAddress hashBlake2b s network coin = .ok address) :
    ∃ hrp payload, KaspaBech32.decode s = .ok (hrp, payload, address.version) ∧
      address.bech32Prefix = networkBech32Prefix network ∧
      address.scriptAddress = if address.version = scriptHashAddrID then
        hashBlake2b (hashBlake2b payload) else payload := by
  obtain ⟨hrp, payload, version, hdecode, -, hnew⟩ := validateAddress_ok h
  obtain ⟨rfl, hprefix, hscript⟩ := newAddress_ok hnew
  exact ⟨hrp, payload, hdecode, hprefix, hscript⟩

/-- The names of the enumeration begin with a letter in upper case and one in lower case. -/
theorem KaspaBech32Prefix.toText_eq_cons (p : KaspaBech32Prefix) :
    ∃ a b rest, p.toText = a :: b :: rest ∧ IsUpper a ∧ IsLower b := by
  cases p <;> exact ⟨_, _, _, rfl, by decide, by decide⟩

theorem ne_toLower_of_isUpper {c : UInt16} (h : IsUpper c) (t u : Text) :
    t ++ c :: u ≠ toLower (t ++ c :: u) := by
  intro heq
  have hmem : c ∈ toLower (t ++ c :: u) := by
    rw [← heq]
    exact List.mem_append_right _ List.mem_cons_self
  obtain ⟨d, -, rfl⟩ := List.mem_map.mp hmem
  exact not_isUpper_lowerChar h

theorem ne_toUpper_of_isLower {c : UInt16} (h : IsLower c) (t u : Text) :
    t ++ c :: u ≠ toUpper (t ++ c :: u) := by
  intro heq
  have hmem : c ∈ toUpper (t ++ c :: u) := by
    rw [← heq]
    exact List.mem_append_right _ List.mem_cons_self
  obtain ⟨d, -, rfl⟩ := List.mem_map.mp hmem
  exact not_isLower_upperChar h

/-- What an object encodes is of mixed case. -/
theorem decode_encodeAddress_ne_ok (address : KaspaIAddress)
    (result : Text × List UInt8 × UInt8) :
    KaspaBech32.decode address.encodeAddress ≠ .ok result := by
  obtain ⟨hrp, payload, version⟩ := result
  intro h
  obtain ⟨data, hdata, -⟩ := KaspaBech32.decode_eq_ok_iff.mp h
  obtain ⟨-, -, hcase, -⟩ := KaspaBech32.decodeInternal_eq_ok_iff.mp hdata
  obtain ⟨a, b, rest, hname, hupper, hlower⟩ := address.bech32Prefix.toText_eq_cons
  rw [KaspaIAddress.encodeAddress, KaspaBech32.encode, KaspaBech32.encodeInternal, hname] at hcase
  rcases hcase with hcase | hcase
  · exact ne_toLower_of_isUpper hupper [] _ hcase
  · exact ne_toUpper_of_isLower hlower [a] _ hcase

/-- **No string stays the same address**, whichever object it is read as. -/
theorem not_stays (hashBlake2b : List UInt8 → List UInt8) (coin : KaspaCoinTemplate)
    (s network : Text) (address : KaspaIAddress) : ¬Stays hashBlake2b coin s network address := by
  rintro ⟨_, _, _, -, -, -, hagain⟩
  obtain ⟨hrp, payload, version, hdecode, -, -⟩ := validateAddress_ok hagain
  exact decode_encodeAddress_ne_ok address _ hdecode

/-- The prefixes of Kaspa. -/
def kaspaTemplate : KaspaCoinTemplate :=
  ⟨text "kaspa", text "kaspadev", text "kaspasim", text "kaspatest"⟩

/-- A public key of zeros is accepted, but not what its object encodes. -/
theorem publicKey_not_read_again :
    ∃ address, validateAddress id
        (text "kaspa:qqqqqqqqqqqqqqqqqqqqqqqqqqqqqqqqqqqqqqqqqqqqqqqqqqqqqkx9awp4e")
        (text "mainnet") kaspaTemplate = .ok address ∧
      address.scriptAddress = List.replicate 32 0 ∧
      address.encodeAddress =
        text "KaspaMain:qqqqqqqqqqqqqqqqqqqqqqqqqqqqqqqqqqqqqqqqqqqqqqqqqqqqq4synk9xx" ∧
      validateAddress id address.encodeAddress (text "mainnet") kaspaTemplate =
        .error (.unknownFormat .mixedCase) := by
  refine ⟨.publicKey ⟨.kaspaMain, List.replicate 32 0, rfl⟩, ?_⟩
  decide +kernel

end Stays

end HashStorm.Kaspa
