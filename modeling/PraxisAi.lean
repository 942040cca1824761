import PraxisAi.TimedRuns
import PraxisAi.SaturatingArithmetic
import PraxisAi.KeyedMaps
import PraxisAi.PotentialBounds
import PraxisAi.ReservationLedger
import PraxisAi.LedgerViews
import PraxisAi.LedgerSimulation
import PraxisAi.ConcurrentLedger
import PraxisAi.SlidingWindowLedger
import PraxisAi.SlidingWindowReference
import PraxisAi.TokenBucketLedger
import PraxisAi.ConcurrentBucket
import PraxisAi.DecimalText
import PraxisAi.ExpiringKeys
import PraxisAi.IndexedSums
import PraxisAi.StateBackend
import PraxisAi.ValkeyCommands
import PraxisAi.ValkeyTokenBucket
import PraxisAi.ValkeyTokenBucketSerial
import PraxisAi.SubWindows
import PraxisAi.ValkeySlidingWindow
import PraxisAi.UsageCharges
import PraxisAi.SubWindowAccounting
import PraxisAi.ValkeySlidingWindowInterleaved
import PraxisAi.FallibleSteps
import PraxisAi.NameRegistries
import PraxisAi.IpAddresses
import PraxisAi.ForwardedAddresses
import PraxisAi.JsonValues
import PraxisAi.BlockStreams
import PraxisAi.SseFrames
import PraxisAi.ChunkedRuns
import PraxisAi.SseFraming
import PraxisAi.BatchedFrames
import PraxisAi.Utf8Text
import PraxisAi.EventStreamFrames
import PraxisAi.FiniteTranslation
import PraxisAi.BedrockTranslation
import PraxisAi.BedrockStream
import PraxisAi.BedrockEndings
import PraxisAi.AnthropicTranslation
import PraxisAi.AnthropicStream
import PraxisAi.AnthropicChunking
import PraxisAi.AnthropicFaithfulness
import PraxisAi.AnthropicEndings
import PraxisAi.ResponseState
import PraxisAi.ClientToolPlans
import PraxisAi.ClientToolLowering
import PraxisAi.ClientToolHistory
import PraxisAi.ClientToolRequests
import PraxisAi.LoweringLedger
import PraxisAi.LoweringIsolation
import PraxisAi.LoweringRoundTrip
import PraxisAi.LoweringFailures
import PraxisAi.MemoryStore
import PraxisAi.InputItemPages
import PraxisAi.NamespaceNames
import PraxisAi.RetryHints
import PraxisAi.LocalRetryHints
import PraxisAi.ReplayStreams
import PraxisAi.HistoryTurns
import PraxisAi.LoweringIdempotence
import PraxisAi.WeightedCosts
import PraxisAi.TaskRoutes
import PraxisAi.BedrockToolCalls
import PraxisAi.EventStreamRoundTrip
import PraxisAi.KeySeparation
import PraxisAi.ConfigFingerprints
import PraxisAi.AccountingMarkers
import PraxisAi.McpNameHeaders
import PraxisAi.SessionExpiry
import PraxisAi.RetainedResults
import PraxisAi.SessionPool
import PraxisAi.StreamedUsage
import PraxisAi.GroupSelection
import PraxisAi.EventScanner
import PraxisAi.BodySplicing
import PraxisAi.MessageTranslation
import PraxisAi.UsageMerging
import PraxisAi.StreamedComparison
import PraxisAi.StableIds
import PraxisAi.CachedListings
import PraxisAi.ProjectedCache
