import LedgerLens.LucasCertificate
import LedgerLens.JacobianCoordinates
import LedgerLens.CurveOrder
import LedgerLens.Bn254
import LedgerLens.ByteStrings
import LedgerLens.Sha256
import LedgerLens.FallibleRuns
import LedgerLens.Proofs.ZkCommitment
import LedgerLens.Proofs.ZkVerifierWords
import LedgerLens.Proofs.ZkVerifierCurve
import LedgerLens.Proofs.SigmaOrProof
import LedgerLens.Proofs.ThresholdVerifier
import LedgerLens.Proofs.ZkVerifierContract
import LedgerLens.Proofs.ZkProver
import LedgerLens.Proofs.HonestTranscripts
import LedgerLens.Proofs.ProofSubmission
import LedgerLens.Proofs.SdkZkVerifier
import LedgerLens.CircuitConstants
import LedgerLens.ScoreRangeCircuit
import LedgerLens.ScoreRangeSoundness
import LedgerLens.ScoreRangeCompleteness
import LedgerLens.OracleAggregator
import LedgerLens.VoteTally
import LedgerLens.BftQuorumAggregator
import LedgerLens.OracleCoordinator
import LedgerLens.JsonText
import LedgerLens.JsonParsing
import LedgerLens.IsoTimestamps
import LedgerLens.LabelledRuns
import LedgerLens.SqlTables
import LedgerLens.ChainSubmissionQueue
import LedgerLens.Governance
import LedgerLens.GovernanceRuns
import LedgerLens.GovernanceApprovals
import LedgerLens.GovernanceCommittee
import LedgerLens.GovernanceInterleaving
import LedgerLens.HashChain
import LedgerLens.StableReplay
import LedgerLens.AuditLog
import LedgerLens.AuditLogConcurrency
import LedgerLens.ScoringEvents
import LedgerLens.Graph.StrongComponents
import LedgerLens.Graph.TarjanScc
import LedgerLens.Graph.SimpleCycles
import LedgerLens.Graph.BottleneckCycle
import LedgerLens.Graph.ApproxBottleneckCycle
import LedgerLens.Graph.RingMetrics
import LedgerLens.Graph.TradeGraph
import LedgerLens.SecretSharing
import LedgerLens.WormholeVaa
import LedgerLens.SecureAggregation
import LedgerLens.SortedSums
import LedgerLens.Krum
import LedgerLens.EvmFinality
import LedgerLens.EventDedup
import LedgerLens.HorizonTrades
import LedgerLens.TradeStreaming
import LedgerLens.HorizonStreamer
import LedgerLens.StreamRecovery
import LedgerLens.HistoricalChunks
import LedgerLens.HistoricalLoader
import LedgerLens.ScoringTampering
import LedgerLens.Graph.GraphSharding
import LedgerLens.Graph.ShardedTradeGraph
import LedgerLens.DisputeStore
import LedgerLens.FederatedServer
import LedgerLens.FederatedBudget
import LedgerLens.FederatedKeys
import LedgerLens.FederatedWeights
import LedgerLens.FederatedGrowth
import LedgerLens.ConformalCalibration
import LedgerLens.Doubles
import LedgerLens.KeyedTotals
import LedgerLens.StreamingWindow
import LedgerLens.PathCycleDetector
import LedgerLens.PathCycleCompleteness
import LedgerLens.ExtensionFields
import LedgerLens.ExtensionInverses
import LedgerLens.MillerLoop
import LedgerLens.PackedFields
import LedgerLens.Bn254Twist
import LedgerLens.Pairing
import LedgerLens.PairingBilinearity
import LedgerLens.Graph.ShardFailures
import LedgerLens.Graph.TransactionGraph
import LedgerLens.CircuitBreaker
import LedgerLens.GraphqlCost
import LedgerLens.TieredRetention
import LedgerLens.VoteInterleaving
import LedgerLens.AnalystStore
import LedgerLens.FeatureArchive
import LedgerLens.WebhookDelivery
import LedgerLens.SorobanPublisher
import LedgerLens.SorobanSubmission
import LedgerLens.ApiKeyStore
import LedgerLens.Graph.TarjanRuns
import LedgerLens.Graph.BottleneckValues
import LedgerLens.Graph.AdjacencyPaths
import LedgerLens.RateLimiter
import LedgerLens.Adwin
import LedgerLens.EventBus
import LedgerLens.OracleMessages
import LedgerLens.SorobanLease
import LedgerLens.ParquetExporter
import LedgerLens.Graph.GraphLimit
import LedgerLens.Graph.MergedRings
import LedgerLens.TimedSelection
import LedgerLens.CycleAlignment
import LedgerLens.GovernanceMajority
import LedgerLens.ReplayWindow
import LedgerLens.EventCustody
import LedgerLens.KeyValueLines
import LedgerLens.SettingsReloader
import LedgerLens.ConfigExecution
import LedgerLens.LabelMatching
import LedgerLens.Graph.GraphRebalancing
import LedgerLens.SignatureCollection
import LedgerLens.VaaLayout
import LedgerLens.TradeKeys
import LedgerLens.TradeQueue
import LedgerLens.ReplayBuffer
import LedgerLens.SubmissionRetries
import LedgerLens.NewestEntries
import LedgerLens.RollingWindow
import LedgerLens.Dictionaries
import LedgerLens.StreamCheckpoint
import LedgerLens.Proofs.WordArithmetic
import LedgerLens.Proofs.PointArithmetic
import LedgerLens.Proofs.ProofEncoding
import LedgerLens.ExtensionFieldLaws
import LedgerLens.G2Arithmetic
import LedgerLens.RobustAggregation
import LedgerLens.WaterFilling
import LedgerLens.RapsCalibration
import LedgerLens.ClampedFeedback
import LedgerLens.OnlineAdaptation
import LedgerLens.FederatedFailures
import LedgerLens.Bisection
import LedgerLens.PathPaymentSandwiches
import LedgerLens.PathPaymentGraph
import LedgerLens.PathPaymentCycles
import LedgerLens.BoundedSimplex
import LedgerLens.EnsembleWeights
import LedgerLens.BridgeReceipts
import LedgerLens.EvmProviderPool
import LedgerLens.AmmSessions
import LedgerLens.AmmBatches
import LedgerLens.FallbackCopies
import LedgerLens.FeatureStore
import LedgerLens.FeatureStoreRuns
import LedgerLens.StableBatches
import LedgerLens.WebhookPolling
import LedgerLens.CanaryRuns
import LedgerLens.MeteredGrants
import LedgerLens.TokenBuckets
import LedgerLens.BlockingBuckets
import LedgerLens.AdaptiveLimiter
import LedgerLens.LexicographicOrder
import LedgerLens.IsoOrder
import LedgerLens.AlertStates
import LedgerLens.TradeDlq
import LedgerLens.ScoreCache
import LedgerLens.CalendarPeriods
import LedgerLens.GatewayQuotas
import LedgerLens.AlertStream
import LedgerLens.TemporalGraph
import LedgerLens.WorklistSearch
import LedgerLens.LineageGraph
