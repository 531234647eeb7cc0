import LucenePlusPlus.MergedDeletes
import LucenePlusPlus.ByteSliceReader
import LucenePlusPlus.SnapshotProtection
import LucenePlusPlus.CommitSafety
import LucenePlusPlus.DeleteSemantics
import LucenePlusPlus.SyncCoordination
import LucenePlusPlus.DirectoryLocks
import LucenePlusPlus.ReadWriteLock
import LucenePlusPlus.NativeFSLock
import LucenePlusPlus.DictionaryKeys
import LucenePlusPlus.AddIndexesTransaction
import LucenePlusPlus.RAMFiles
import LucenePlusPlus.CompoundFiles
import LucenePlusPlus.FieldCacheSharing
import LucenePlusPlus.TopScoreDocCollector
import LucenePlusPlus.TopFieldHits
import LucenePlusPlus.StringOrdValComparator
import LucenePlusPlus.FieldCacheRanges
import LucenePlusPlus.SpanCombinators
import LucenePlusPlus.RemappedDeletes
import LucenePlusPlus.PostingsTableRuns
import LucenePlusPlus.CompositeReaders
import LucenePlusPlus.MergedDocuments
import LucenePlusPlus.MergeSelection
import LucenePlusPlus.StartCommit
import LucenePlusPlus.UTF8WellFormed
import LucenePlusPlus.DirectoryCopy
import LucenePlusPlus.BitVectorPersistence
import LucenePlusPlus.PrefixCoding
import LucenePlusPlus.SetHashes
import LucenePlusPlus.SortedVIntList
import LucenePlusPlus.NormFiles
import LucenePlusPlus.TermOrdinals
import LucenePlusPlus.LazyReads
import LucenePlusPlus.FieldInfosFile
import LucenePlusPlus.AttributeSource
import LucenePlusPlus.DisjunctionMaxScores
import LucenePlusPlus.FilteredSearchExact
import LucenePlusPlus.TermRangeTermEnum
import LucenePlusPlus.MergedPositions
import LucenePlusPlus.NormsLayout
import LucenePlusPlus.SimpleLRUCache
import LucenePlusPlus.ConcurrentMergeScheduler
import LucenePlusPlus.CharTokenizer
import LucenePlusPlus.CorrectedOffsets
import LucenePlusPlus.PorterStemming
import LucenePlusPlus.QueryLexing
import LucenePlusPlus.Base64RoundTrip
import LucenePlusPlus.CachedFilters
import LucenePlusPlus.RebuiltTokens
import LucenePlusPlus.NGrams
import LucenePlusPlus.DateStrings
import LucenePlusPlus.MergedFragments
import LucenePlusPlus.MMapIndexInput
