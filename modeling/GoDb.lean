import GoDb.Foundation.Separators
import GoDb.Foundation.SortedEntries
import GoDb.Foundation.SortedMap
import GoDb.Foundation.ListEdits
import GoDb.Foundation.Keyed
import GoDb.Foundation.Recency
import GoDb.Foundation.LittleEndian
import GoDb.Foundation.Bitmap
import GoDb.Foundation.Binary64
import GoDb.Foundation.Iteration
import GoDb.Foundation.Outcome
import GoDb.Foundation.Keeps
import GoDb.Foundation.Coupling
import GoDb.Foundation.Runs
import GoDb.Foundation.TransactionLog
import GoDb.Foundation.Walks
import GoDb.Foundation.NextFit
import GoDb.Bytes
import GoDb.BTree
import GoDb.BTreeLeaf
import GoDb.BTreeMeaning
import GoDb.BTreeRuns
import GoDb.Time
import GoDb.Value
import GoDb.Schema
import GoDb.Error
import GoDb.Page
import GoDb.PageRecords
import GoDb.BufferPool
import GoDb.Pager
import GoDb.PagerMeaning
import GoDb.PoolCoherence
import GoDb.LinkedPool
import GoDb.PoolInterleaving
import GoDb.Wal
import GoDb.Store
import GoDb.StoreFrame
import GoDb.StoreChain
import GoDb.StoreInvariant
import GoDb.Semantics.Contents
import GoDb.StoreMeaning
import GoDb.StoreOpen
import GoDb.PageChains
import GoDb.StoreCompact
import GoDb.CleanShutdown
import GoDb.PagerWindow
import GoDb.WalReplay
import GoDb.WalLog
import GoDb.WalRecords
import GoDb.PageBytes
import GoDb.Semantics.Layout
import GoDb.StoreLayout
import GoDb.Recovery
import GoDb.Codec
import GoDb.Table
import GoDb.CodecMeaning
import GoDb.CodecInverse
import GoDb.Statement
import GoDb.Foundation.Quoting
import GoDb.GoSyntax
import GoDb.Query
import GoDb.Overlay
import GoDb.Executor
import GoDb.Server
import GoDb.Catalog
import GoDb.Backup
import GoDb.Text
import GoDb.Lexer
import GoDb.Parser
import GoDb.Prepared
import GoDb.DataDefinition
import GoDb.Semantics.History
import GoDb.TableInvariant
import GoDb.StoreSnapshot
import GoDb.Session
import GoDb.StoreLog
import GoDb.Reopening
import GoDb.Sidecar
import GoDb.Lifetimes
import GoDb.FailedPut
import GoDb.KilledWrites
import GoDb.CompactionSize
import GoDb.CheckInvariants
import GoDb.TornHeader
import GoDb.TableMeaning
import GoDb.ExecutorRule
import GoDb.ExecutorInvariant
import GoDb.CatalogAgreement
import GoDb.BackupCoverage
import GoDb.ServerInvariant
import GoDb.Commit
import GoDb.Committed
import GoDb.FirstCommitter
import GoDb.DirectWrites
import GoDb.RowUpdates
import GoDb.Rollback
import GoDb.BatchUndo
import GoDb.Commands
import GoDb.AlterUndo
import GoDb.AlterMeaning
import GoDb.TableReopen
import GoDb.Alterations
import GoDb.SecondaryIndex
import GoDb.IndexUpkeep
import GoDb.OverlayMeaning
import GoDb.SnapshotReads
import GoDb.StagedWrites
import GoDb.Acknowledged
import GoDb.Unique
import GoDb.NotNull
import GoDb.References
import GoDb.Leases
import GoDb.Timestamps
import GoDb.IndexKeys
import GoDb.Foundation.Binary64Integers
import GoDb.IntegerMeaning
import GoDb.AutoIds
import GoDb.Foundation.Results
import GoDb.JoinMeaning
import GoDb.Foundation.Groups
import GoDb.Grouping
import GoDb.GroupNames
import GoDb.Foundation.Binary64Decimals
import GoDb.Foundation.StableSort
import GoDb.Paging
import GoDb.LetterCase
import GoDb.FailedDefinitions
import GoDb.DecimalText
import GoDb.LexerMeaning
import GoDb.ParserReading
import GoDb.ParserSafety
import GoDb.PreparedMeaning
import GoDb.PreparedParsing
import GoDb.CanonicalText
import GoDb.LexerInverse
import GoDb.ParserInverse
import GoDb.StatementInverse
import GoDb.Scanning
import GoDb.Splitting
import GoDb.GroupColumns
import GoDb.Foundation.Hiding
import GoDb.TableRuns
import GoDb.Isolation
import GoDb.Connections
import GoDb.IndexedRuns
import GoDb.Restarts
