import Mathlib.Data.Rat.Defs

/-!
# Share events

The event contract shared by the pool core, the outbox and the database writer.
A nullable `string` is an `Option String`, a `DateTime` is its tick count (so
that `default` is `0`), and `double` and `decimal` are exact rationals.
-/

namespace HashStorm.Contracts

/-- Ticks of a `DateTime`; `default(DateTime)` is `0`. -/
abbrev DateTime := Nat

/-- The kinds of events the pipeline carries; an enumeration variable can also hold
a value that has no name, such as its default `0`. -/
inductive ShareEventType where
  | shareAccepted
  | shareRejected
  | shareStale
  | blockCandidate
  | blockAccepted
  | blockRejected
  | newTemplate
  | poolOnline
  | poolOffline
  | unnamed (value : Int)
  deriving DecidableEq, Repr

/-- `Enum.ToString`. -/
def ShareEventType.toText : ShareEventType → String
  | shareAccepted => "ShareAccepted"
  | shareRejected => "ShareRejected"
  | shareStale => "ShareStale"
  | blockCandidate => "BlockCandidate"
  | blockAccepted => "BlockAccepted"
  | blockRejected => "BlockRejected"
  | newTemplate => "NewTemplate"
  | poolOnline => "PoolOnline"
  | poolOffline => "PoolOffline"
  | unnamed value => toString value

/-- One event as it is queued, logged, published and persisted. -/
structure ShareEvent where
  eventId : Option String := some ""
  eventType : ShareEventType := .unnamed 0
  poolId : Option String := some ""
  coinSymbol : Option String := some ""
  coinFamily : Option String := some ""
  miner : Option String := some ""
  worker : Option String := some ""
  source : Option String := some ""
  created : DateTime := 0
  blockHeight : Option Int := none
  difficulty : Rat := 0
  networkDifficulty : Rat := 0
  shareMultiplier : Rat := 0
  isBlockCandidate : Bool := false
  blockHash : Option String := some ""
  ipAddress : Option String := some ""
  userAgent : Option String := some ""
  rejectReason : Option String := some ""
  errorCode : Option String := some ""
  errorMessage : Option String := some ""
  transactionConfirmationData : Option String := some ""
  blockReward : Rat := 0
  blockType : Option String := some ""
  deriving DecidableEq, Repr

/-- `string.IsNullOrEmpty`. -/
def isNullOrEmpty (s : Option String) : Bool :=
  match s with
  | none => true
  | some s => s.isEmpty

/-- `char.IsWhiteSpace`: the Unicode separators and the control characters it names. -/
def isWhiteSpace (c : Char) : Bool :=
  let n := c.toNat
  (9 ≤ n ∧ n ≤ 13) ∨ n = 0x20 ∨ n = 0x85 ∨ n = 0xa0 ∨ n = 0x1680 ∨ (0x2000 ≤ n ∧ n ≤ 0x200a) ∨
    n = 0x2028 ∨ n = 0x2029 ∨ n = 0x202f ∨ n = 0x205f ∨ n = 0x3000

/-- `string.IsNullOrWhiteSpace`. -/
def isNullOrWhiteSpace (s : Option String) : Bool :=
  match s with
  | none => true
  | some s => s.toList.all isWhiteSpace

end HashStorm.Contracts
