import FlexQL.Lib.ByteMemory
import FlexQL.Lib.Runs
import FlexQL.Lib.Traces
import FlexQL.Lib.ListSegment
import FlexQL.Lib.Fallible
import FlexQL.Lib.FencedLeaves
import FlexQL.Storage.Pager
import FlexQL.Cache.LRUCache
import FlexQL.Cache.CacheManager
import FlexQL.Lib.Text
import FlexQL.Storage.ColumnStore
import FlexQL.Storage.ColumnInsert
import FlexQL.Storage.ColumnLayout
import FlexQL.Storage.ColumnSpec
import FlexQL.Storage.VariableItems
import FlexQL.Index.BPTree
import FlexQL.Index.NodeOps
import FlexQL.Index.TreeInvariant
import FlexQL.Index.TreeInsert
import FlexQL.Index.TreeStep
import FlexQL.Index.TreeSplit
import FlexQL.Index.TreeRuns
import FlexQL.Index.TreeProperties
import FlexQL.Index.Representation
import FlexQL.Recovery
import FlexQL.Storage.Row
import FlexQL.Storage.Table
import FlexQL.Parser.Parser
import FlexQL.Executor.Platform
import FlexQL.Executor.Executor
import FlexQL.Storage.StoreAlike
import FlexQL.Storage.TableSpec
import FlexQL.Storage.TableAlike
import FlexQL.Storage.InsertEvents
import FlexQL.Executor.Lookalike
import FlexQL.Executor.Materialize
import FlexQL.Executor.Reachable
import FlexQL.Executor.InsertAtomic
import FlexQL.Executor.Alignment
import FlexQL.Executor.DeleteReset
import FlexQL.Executor.PointQuery
import FlexQL.Executor.SharedFiles
import FlexQL.Server.ConcurrentInsert
import FlexQL.Cache.CacheProperties
import FlexQL.Storage.PageBounds
import FlexQL.Lib.Recency
import FlexQL.Cache.CacheRecency
import FlexQL.Cache.CacheHistory
import FlexQL.Storage.Durability
import FlexQL.Lib.NestedLoop
import FlexQL.Executor.JoinSpec
import FlexQL.Executor.Isolation
import FlexQL.Executor.SelectSpec
import FlexQL.Executor.OrderBy
import FlexQL.Executor.StoredRows
import FlexQL.Executor.ResultRows
import FlexQL.Executor.SelectStar
import FlexQL.Executor.SelectSafe
import FlexQL.Executor.Clauses
import FlexQL.Executor.Duplicates
import FlexQL.Lib.TextLemmas
import FlexQL.Lib.Framing
import FlexQL.Server.Wire
import FlexQL.Server.RowCodec
import FlexQL.Server.Responses
import FlexQL.Server.WireInvariant
import FlexQL.Server.Pairing
import FlexQL.Server.Chunks
import FlexQL.Lib.Words
import FlexQL.Lib.Grammar
import FlexQL.Parser.Grammar
import FlexQL.Parser.ReadBack
import FlexQL.Parser.SelectWords
import FlexQL.Parser.ReadSelect
import FlexQL.Parser.RoundTrip
import FlexQL.Parser.Coverage
import FlexQL.Executor.Literals
import FlexQL.Executor.Qualifiers
import FlexQL.Executor.ParallelScan
import FlexQL.Server.ThreadPool
import FlexQL.Executor.InsertTexts
import FlexQL.Executor.QuotedDelimiters
import FlexQL.Executor.Decimals
import FlexQL.Parser.CreateColumns
import FlexQL.Storage.ColumnImage
import FlexQL.Executor.FloatColumns
import FlexQL.Executor.TextJoin
import FlexQL.Lib.Simulation
import FlexQL.Executor.Database
import FlexQL.Executor.Refinement
import FlexQL.Server.Delivery
import FlexQL.Server.Session
import FlexQL.Index.Capacity
import FlexQL.Cache.ConcurrentCache
import FlexQL.Server.ConcurrentTables
import FlexQL.Server.Serving
import FlexQL.Server.ServingRest
import FlexQL.Server.SingleWorker
import FlexQL.Server.RowsUnderway
import FlexQL.Server.ConcurrentReads
import FlexQL.Server.InsertOrder
import FlexQL.Server.SharedExecutor
import FlexQL.Server.Linearised
import FlexQL.Server.OwnTables
