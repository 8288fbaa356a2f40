import Snii.Lib.TopK
import Snii.Query.ScoringQuery
import Snii.Query.WandInvariant
import Snii.Query.TopKQueue
import Snii.Query.WandExhaustive
import Snii.Common.Status
import Snii.Encoding.Varint
import Snii.Writer.CompactPostingPool
import Snii.Writer.PoolChains
import Snii.Lib.Grouping
import Snii.Writer.SpillRunCodec
import Snii.Writer.SpimiTermBuffer
import Snii.Writer.TermChain
import Snii.Writer.ToPostings
import Snii.Writer.SortByDocid
import Snii.Writer.SlotPool
import Snii.Writer.SpimiInvariant
import Snii.Writer.SpimiRun
import Snii.Writer.RunRecords
import Snii.Writer.RunSchedule
import Snii.Writer.MergeTerm
import Snii.Writer.MergeRuns
import Snii.Writer.SpillTransparent
import Snii.Writer.LogicalIndexWriter
import Snii.Writer.SpillOrder
import Snii.Query.LazyWand
import Snii.Query.Bm25Scorer
import Snii.Writer.MemoryAccounting
import Snii.Query.DocidPosting
import Snii.Query.WildcardQuery
import Snii.Query.BooleanAnd
import Snii.Query.BooleanOr
import Snii.Query.Conjunction
import Snii.Query.RegexpQuery
import Snii.Reader.DictionaryRoundTrip
import Snii.Encoding.ByteSource
import Snii.Encoding.Pfor
import Snii.Encoding.Crc32c
import Snii.Encoding.CrcTables
import Snii.Encoding.CrcBurst
import Snii.Encoding.Zstd
import Snii.Lib.Chunks
import Snii.Format.FrqPod
import Snii.Format.PrxPod
import Snii.Format.FrqPrelude
import Snii.Format.DictEntry
import Snii.Format.DictEntryCodec
import Snii.Format.DictBlock
import Snii.Encoding.SectionFramer
import Snii.Format.DictIndex
import Snii.Format.Bsbf
import Snii.Format.PerIndexMeta
import Snii.Format.FrqPreludeSafety
import Snii.Format.FrqPreludeLocate
import Snii.Format.FrqPreludeConsistency
import Snii.Query.DocidSetOps
import Snii.Format.TailMeta
import Snii.Writer.PoolInterleaving
import Snii.Writer.RunBytes
import Snii.Writer.MergeUnchecked
import Snii.Writer.MergeRecords
import Snii.Writer.IndexBuild
import Snii.Writer.IndexInvariant
import Snii.Writer.PostingTiling
import Snii.Io.BatchRangeFetcher
import Snii.Reader.LogicalIndexReader
import Snii.Reader.WindowedPosting
import Snii.Reader.WindowRanges
import Snii.Reader.FilterProbes
import Snii.Writer.PreludeColumns
import Snii.Reader.PostingRoundTrip
import Snii.Writer.BlockWidths
import Snii.Format.ContainerEnds
import Snii.Reader.DictionaryLookup
import Snii.Reader.SegmentReader
import Snii.Writer.CompoundFile
import Snii.Writer.CompoundWriter
import Snii.Lib.Aligned
import Snii.Writer.ContainerLayout
import Snii.Reader.Container
import Snii.Reader.TermPositions
import Snii.Query.PositionCursor
import Snii.Query.PhraseQuery
import Snii.Query.PhrasePrefixQuery
import Snii.Format.PayloadRoundTrip
import Snii.Encoding.ByteCursor
import Snii.Encoding.PforArrays
import Snii.Format.PayloadArrays
import Snii.Format.PayloadSafety
import Snii.Format.WindowDecoders
import Snii.Lib.Runs
import Snii.Io.MeteredFileReader
import Snii.Io.MeteredAccounting
import Snii.Io.MeteredRuns
import Snii.Format.MetaSections
import Snii.Writer.SlotPoolRuns
import Snii.Writer.DrainContract
import Snii.Format.DictBlockSafety
import Snii.Format.BurstDetection
import Snii.Writer.BudgetFreeFeed
import Snii.Query.PostingPaths
import Snii.Reader.MovedIndex
import Snii.Reader.SameIndex
import Snii.Query.MovedPostings
import Snii.Query.FailedAdds
import Snii.Query.TermQuery
import Snii.Query.TokenSearch
import Snii.Format.NormsPod
import Snii.Reader.WrittenTerms
import Snii.Stats.SniiStatsProvider
import Snii.Query.FetchedWindows
import Snii.Query.IndexCursors
import Snii.Query.IndexScoring
import Snii.Io.LocalFile
import Snii.Reader.LocalSession
import Snii.Query.Isolation
import Snii.Lib.Blame
import Snii.Format.MetaSafety
import Snii.Reader.ReaderSafety
import Snii.Query.QuerySafety
import Snii.Format.NullBitmap
import Snii.Lib.Requests
import Snii.Io.Requests
import Snii.Query.QueryRequests
import Snii.Query.QueryProfile
import Snii.Query.QueryReads
import Snii.Query.ByteSkip
import Snii.Io.FetchPlan
import Snii.Lib.Coverage
import Snii.Lib.Waves
import Snii.Io.S3ObjectStore
import Snii.Query.StoreQueries
