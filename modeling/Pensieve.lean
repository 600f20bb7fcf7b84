import Pensieve.AnnMaintain
import Pensieve.AnnSearch
import Pensieve.Arrangement
import Pensieve.Arrow
import Pensieve.ArtifactRetention
import Pensieve.AuthTokens
import Pensieve.Bfs
import Pensieve.BlockStats
import Pensieve.Bounds
import Pensieve.BrainExport
import Pensieve.BrainVault
import Pensieve.Buffers
import Pensieve.CacheFreshness
import Pensieve.CatalogParity
import Pensieve.CatalogTypes
import Pensieve.ColumnCasts
import Pensieve.ColumnStats
import Pensieve.Compaction
import Pensieve.CompactionRuns
import Pensieve.Components
import Pensieve.Consolidator
import Pensieve.CrossDbView
import Pensieve.CsrGraph
import Pensieve.CsrTraverse
import Pensieve.CursorFeed
import Pensieve.DataSourceTicks
import Pensieve.DurableQueue
import Pensieve.EmbedCoverage
import Pensieve.EmbedExtents
import Pensieve.EqualityPrune
import Pensieve.EventTime
import Pensieve.ExploreAccess
import Pensieve.ExprLowering
import Pensieve.ExtentGc
import Pensieve.Fabric
import Pensieve.Fallible
import Pensieve.FileDrop
import Pensieve.FilterExpr
import Pensieve.FirstRun
import Pensieve.Flood
import Pensieve.ForwardPush
import Pensieve.FtsSidecar
import Pensieve.GitStream
import Pensieve.GithubPages
import Pensieve.GraphExport
import Pensieve.GraphMatch
import Pensieve.GraphMatchExact
import Pensieve.GraphSidecar
import Pensieve.HighestWeight
import Pensieve.IngestLedger
import Pensieve.IvfSidecar
import Pensieve.JobLogs
import Pensieve.KMeans
import Pensieve.KafkaIngest
import Pensieve.KqlExpr
import Pensieve.KqlGrammar
import Pensieve.KqlLexer
import Pensieve.KqlOperators
import Pensieve.LikePattern
import Pensieve.ListExtents
import Pensieve.LiveDelivery
import Pensieve.LocalMoving
import Pensieve.Louvain
import Pensieve.LruIndexes
import Pensieve.ManagedRegion
import Pensieve.Masking
import Pensieve.MemoryApprovals
import Pensieve.MemoryBatches
import Pensieve.MemoryCalls
import Pensieve.MemoryFilter
import Pensieve.MemoryRecall
import Pensieve.MemoryUndo
import Pensieve.MemoryUpserts
import Pensieve.Modularity
import Pensieve.NdjsonIngest
import Pensieve.NdjsonRows
import Pensieve.ObjectCache
import Pensieve.OidcUrls
import Pensieve.OpLog
import Pensieve.OtlpRows
import Pensieve.PageRank
import Pensieve.PipelineOrder
import Pensieve.PipelineResults
import Pensieve.Planner
import Pensieve.PrivateSpans
import Pensieve.QueryState
import Pensieve.QueueOrigin
import Pensieve.RateLimit
import Pensieve.ReadRouter
import Pensieve.Redact
import Pensieve.RedactJson
import Pensieve.Relational
import Pensieve.Rows
import Pensieve.Runs
import Pensieve.SafeCommunities
import Pensieve.SafeTraverse
import Pensieve.SchemaJson
import Pensieve.SchemaPromotion
import Pensieve.SearchCache
import Pensieve.SearchGrammar
import Pensieve.SearchNegation
import Pensieve.SearchPages
import Pensieve.SearchPills
import Pensieve.SearchTimeRange
import Pensieve.SessionTokens
import Pensieve.SidecarSafety
import Pensieve.SlackHistory
import Pensieve.SnapshotCommit
import Pensieve.SnapshotDb
import Pensieve.SnapshotRead
import Pensieve.SqlQuery
import Pensieve.SqlText
import Pensieve.SqliteQueue
import Pensieve.StagedCommit
import Pensieve.StagedRuns
import Pensieve.StagingBuffer
import Pensieve.StagingSafety
import Pensieve.StreamScrub
import Pensieve.TaskQueue
import Pensieve.TenantScope
import Pensieve.TextOps
import Pensieve.TextPrune
import Pensieve.TimePrune
import Pensieve.TokenGrants
import Pensieve.Tokenizers
import Pensieve.TopologyCache
import Pensieve.Traverse
import Pensieve.TreeFile
import Pensieve.UnitSphere
import Pensieve.VaultLinks
import Pensieve.VaultPaths
import Pensieve.VectorPrune
import Pensieve.Wire
import Pensieve.WriteLog
