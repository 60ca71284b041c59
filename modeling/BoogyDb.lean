import BoogyDb.EncryptedPages
import BoogyDb.FindRows
import BoogyDb.IndexSet
import BoogyDb.KeySet
import BoogyDb.Lib.BinarySearch
import BoogyDb.RowRoundTrip
import BoogyDb.DbSteps
import BoogyDb.LongRow
import BoogyDb.PrimaryKeyScan
import BoogyDb.TransactionCalls
import BoogyDb.RowCounts
import BoogyDb.RowidRuns
import BoogyDb.IndexKeyOrder
import BoogyDb.RegistryRoundTrip
import BoogyDb.SchemaEvolution
import BoogyDb.GuardSections
import BoogyDb.WalRedo
import BoogyDb.VectorWalRecovery
import BoogyDb.OverflowSplits
import BoogyDb.IndexSplits
import BoogyDb.AcidEncryption
import BoogyDb.VectorEntry
import BoogyDb.MappingTable
import BoogyDb.VectorErrors
import BoogyDb.VectorNodes
import BoogyDb.GraphRegion
import BoogyDb.SearchExact
import BoogyDb.RawFilters
import BoogyDb.BatchFetch
import BoogyDb.OverflowWalk
import BoogyDb.RowDecoders
import BoogyDb.RegistryWalk
import BoogyDb.CollectedRows
import BoogyDb.SortOrder
import BoogyDb.RowPatches
import BoogyDb.Lib.StableSort
import BoogyDb.FreedNodes
import BoogyDb.FreedVectors
import BoogyDb.GrownFile
import BoogyDb.HnswLists
import BoogyDb.LeafRewrites
import BoogyDb.Lib.Separator
import BoogyDb.MappingNames
import BoogyDb.MappingRuns
import BoogyDb.VectorLinks
import BoogyDb.AsyncGate
import BoogyDb.ReachedTables
import BoogyDb.ScriptRuns
import BoogyDb.Lifetimes
import BoogyDb.Queries
import BoogyDb.FastQueries
import BoogyDb.SearchSound
import BoogyDb.VectorContents
import BoogyDb.LinkedNodes
import BoogyDb.NearestRows
import BoogyDb.CacheIndifference
import BoogyDb.Rollbacks
