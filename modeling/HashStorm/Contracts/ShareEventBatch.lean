import HashStorm.Contracts.ShareEvent

/-!
# Batches of share events

`ShareEventBatch` is what the publisher adds to the stream: events of one node in
their order, with the sequence number that the publisher gave them.
-/

namespace HashStorm.Contracts

/-- `ShareEventBatchMetadata`. -/
structure ShareEventBatchMetadata where
  streamName : String
  brokerType : String
  deriving DecidableEq, Repr

/-- `ShareEventBatch`. -/
structure ShareEventBatch where
  batchId : String
  producerId : String
  nodeId : String
  clusterName : String
  created : DateTime
  sequence : Int
  eventCount : Nat
  approxBytes : Nat
  events : List ShareEvent
  metadata : ShareEventBatchMetadata
  deriving DecidableEq, Repr

end HashStorm.Contracts
