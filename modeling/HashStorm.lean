import HashStorm.Lib.LittleEndian
import HashStorm.Lib.Machine
import HashStorm.Lib.Scan
import HashStorm.Contracts.ShareEvent
import HashStorm.Eventing.Outbox.Record
import HashStorm.Eventing.Outbox.Segment
import HashStorm.Eventing.Outbox.File
import HashStorm.Eventing.Outbox.Stored
import HashStorm.Eventing.Outbox.Publisher
import HashStorm.Eventing.Outbox.FailedAppend
import HashStorm.Eventing.Outbox.Rotation
import HashStorm.Lib.Replay
import HashStorm.Eventing.Outbox.Delivery
import HashStorm.Eventing.Outbox.Writer
import HashStorm.DbWriter.Persistence
import HashStorm.DbWriter.ExactlyOnce
import HashStorm.Lib.Paging
import HashStorm.Lib.Dictionary
import HashStorm.Lib.Rounding
import HashStorm.Payments.Repository
import HashStorm.Payments.Rewards
import HashStorm.Payments.Pplns
import HashStorm.Payments.Proportional
import HashStorm.Payments.ProportionalRounds
import HashStorm.Payments.PayoutHandler
import HashStorm.Payments.PayoutScheme
import HashStorm.Payments.PayoutManager
import HashStorm.Payments.PaymentCycles
import HashStorm.Payments.Cancellation
import HashStorm.Blockchain.Bitcoin.PayoutHandler
import HashStorm.Blockchain.Bitcoin.PayoutCycles
import HashStorm.Blockchain.Equihash.PayoutHandler
import HashStorm.Stratum.Text
import HashStorm.Blockchain.ExtraNonceProvider
import HashStorm.Blockchain.Bitcoin.SubmitValidation
import HashStorm.Lib.Registry
import HashStorm.Blockchain.Bitcoin.Job
import HashStorm.Blockchain.Bitcoin.Submissions
import HashStorm.Stratum.HexUtils
import HashStorm.Blockchain.JobSubmissions
import HashStorm.Blockchain.WorkerJobs
import HashStorm.Blockchain.Ethereum.Job
import HashStorm.Blockchain.Equihash.Veruscoin
import HashStorm.Blockchain.Ergo.Job
import HashStorm.Mining.ShareRecorder
import HashStorm.Contracts.RedisLiveKeyNames
import HashStorm.LiveAggregator.LiveStateWriter
import HashStorm.Eventing.Transport.RedisStreamsConsumer
import HashStorm.Lib.Lines
import HashStorm.Stratum.Connection
import HashStorm.Blockchain.Kaspa.Job
import HashStorm.Blockchain.CreditedWork
import HashStorm.Lib.Draft
import HashStorm.Blockchain.Warthog.Job
import HashStorm.Blockchain.BlockSubmission
import HashStorm.Blockchain.Bitcoin.Pool
import HashStorm.Blockchain.Cryptonote.PayoutHandler
import HashStorm.Blockchain.Cryptonote.PayoutCycles
import HashStorm.Blockchain.Cryptonote.Job
import HashStorm.Blockchain.Cryptonote.IssuedWork
import HashStorm.Blockchain.Zano.Job
import HashStorm.Blockchain.Progpow.Job
import HashStorm.Blockchain.WorkerNonces
import HashStorm.Blockchain.Ethereum.PayoutHandler
import HashStorm.Blockchain.Ethereum.MatureBlocks
import HashStorm.Blockchain.Ethereum.ConfirmedOnce
import HashStorm.Payments.BalanceUpdate
import HashStorm.Lib.MerkleRoot
import HashStorm.Blockchain.Bitcoin.MerkleTree
import HashStorm.Blockchain.Bitcoin.SubmitGrammar
import HashStorm.Payments.PplnsExact
import HashStorm.Payments.PplnsDeletion
import HashStorm.Payments.Pplnsbf
import HashStorm.Eventing.Outbox.PrefixExact
import HashStorm.Eventing.Outbox.CorruptRecovery
import HashStorm.Live.HashrateState
import HashStorm.Lib.Allotment
import HashStorm.Blockchain.Bitcoin.OutputTransaction
import HashStorm.Lib.Wire
import HashStorm.Blockchain.Bitcoin.TransactionGrammar
import HashStorm.Blockchain.Bitcoin.Coinbase
import HashStorm.Blockchain.Equihash.Job
import HashStorm.Blockchain.Equihash.OutputTransaction
import HashStorm.Blockchain.Ethereum.BlockReward
import HashStorm.Lib.CompactTarget
import HashStorm.Blockchain.Alephium.Job
import HashStorm.Blockchain.Handshake.Job
import HashStorm.Blockchain.BlockTarget
import HashStorm.Blockchain.Handshake.MerkleTree
import HashStorm.Lib.Regroup
import HashStorm.Lib.LinearChecksum
import HashStorm.Lib.Bech32
import HashStorm.Stratum.Casing
import HashStorm.Blockchain.Handshake.Bech32Decoder
import HashStorm.Blockchain.Handshake.Bech32Address
import HashStorm.Blockchain.Handshake.Coinbase
import HashStorm.Blockchain.Handshake.TransactionGrammar
import HashStorm.Blockchain.Handshake.CoinbaseWitness
import HashStorm.Blockchain.Kaspa.Bech32
import HashStorm.Blockchain.Kaspa.AddressCodec
import HashStorm.Blockchain.Kaspa.Address
import HashStorm.VarDiff.VarDiffManager
import HashStorm.Blockchain.Ergo.TableSize
import HashStorm.Blockchain.Beam.Utils
import HashStorm.Lib.BinaryFloat
import HashStorm.Blockchain.Warthog.CustomFloat
import HashStorm.Blockchain.Warthog.Target
import HashStorm.Blockchain.Warthog.FloatArithmetic
import HashStorm.Blockchain.Warthog.JanusProduct
import HashStorm.Blockchain.AdvertisedTarget
import HashStorm.Blockchain.Progpow.ShareDifficulty
import HashStorm.Lib.KeyedSet
import HashStorm.LiveAggregator.LiveSummaries
import HashStorm.LiveAggregator.SummaryAccounts
import HashStorm.Blockchain.Kaspa.CompactTarget
import HashStorm.Blockchain.Warthog.FloatErrors
import HashStorm.LiveAggregator.WrittenEvents
import HashStorm.Lib.CriticalSection
import HashStorm.Lib.Gauge
import HashStorm.Mining.StatsRecorder
import HashStorm.Mining.WorkerResets
import HashStorm.Live.RollingRing
import HashStorm.Lib.StampedSlots
import HashStorm.Lib.CountingLoop
import HashStorm.Eventing.Queue.InMemoryShareEventQueue
import HashStorm.Blockchain.ExtraNonces
import HashStorm.Blockchain.JobIds
import HashStorm.Lib.Progress
import HashStorm.Pipeline.ConsumerGroup
import HashStorm.Pipeline.EventPipeline
import HashStorm.Pipeline.EndToEnd
import HashStorm.Pipeline.Drain
import HashStorm.Contracts.ShareEventBatch
import HashStorm.Lib.RangePages
import HashStorm.Eventing.Transport.ReadRange
import HashStorm.LiveAggregator.PoolState
import HashStorm.LiveAggregator.LiveAggregatorService
import HashStorm.LiveAggregator.Restarts
import HashStorm.Lib.RecentlyUsed
import HashStorm.Crypto.EthashLight
import HashStorm.Crypto.RecentCaches
import HashStorm.Blockchain.PayoutLoops
import HashStorm.Blockchain.CoinPayouts
import HashStorm.Payments.Solvency
import HashStorm.Mining.SharePersistence
import HashStorm.Mining.ShareRecovery
import HashStorm.Blockchain.Kaspa.Header
import HashStorm.Blockchain.Kaspa.Pool
import HashStorm.Blockchain.Alephium.MiningStream
