import ErofsUtils.CompactRoundTrip
import ErofsUtils.DedupeSound
import ErofsUtils.Lz77
import ErofsUtils.KiteLazySound
import ErofsUtils.ReadDataCorrect
import ErofsUtils.BufMgrSound
import ErofsUtils.MkfsThreads
import ErofsUtils.MkfsErrors
import ErofsUtils.Workqueue
import ErofsUtils.WorkqueueSound
import ErofsUtils.RebuildGrow
import ErofsUtils.RebuildLookup
import ErofsUtils.RebuildResolve
import ErofsUtils.TarAttach
import ErofsUtils.TarGrow
import ErofsUtils.TarLookup
import ErofsUtils.TarReplay
import ErofsUtils.Extract
import ErofsUtils.ExtractFiles
import ErofsUtils.SourceImport
import ErofsUtils.SourceSafe
import ErofsUtils.SuperLayout
import ErofsUtils.SuperRoundTrip
import ErofsUtils.Overlay
import ErofsUtils.PartialRef
import ErofsUtils.RebuildLoad
import ErofsUtils.RebuildMerge
import ErofsUtils.RebuildOverlay
import ErofsUtils.ZmapRobust
import ErofsUtils.RawExtent
import ErofsUtils.KiteSymbols
import ErofsUtils.ExtentQuery
import ErofsUtils.CString
import ErofsUtils.DirBlocks
import ErofsUtils.DirBounds
import ErofsUtils.DirSorted
import ErofsUtils.NameiBounds
import ErofsUtils.BufMgrEvolve
import ErofsUtils.BufMgrFail
import ErofsUtils.BufMgrInline
import ErofsUtils.BufMgrNid
import ErofsUtils.BufMgrRevoke
import ErofsUtils.DepthFirst
import ErofsUtils.DirEntries
import ErofsUtils.DirImage
import ErofsUtils.FixParent
import ErofsUtils.FsckWalk
import ErofsUtils.Namei
import ErofsUtils.PathLookup
import ErofsUtils.XattrFormat
import ErofsUtils.XattrLast
import ErofsUtils.ExtractSafe
import ErofsUtils.FlushJobs
import ErofsUtils.SharedIctx
import ErofsUtils.TarBase64
import ErofsUtils.TarPath
import ErofsUtils.IoTransfer
import ErofsUtils.DeviceMap
import ErofsUtils.ChunkLists
import ErofsUtils.RebuildIndex
import ErofsUtils.Memcmp2
import ErofsUtils.RollingHash
import ErofsUtils.FragmentExtend
import ErofsUtils.CanonicalCode
import ErofsUtils.Inflate
import ErofsUtils.DestSize
import ErofsUtils.ReflectedCrc
import ErofsUtils.SuperChecksum
import ErofsUtils.SuperRewrite
import ErofsUtils.Xcopy
import ErofsUtils.BucketIndex
import ErofsUtils.BufBuckets
import ErofsUtils.BufBucketsSound
import ErofsUtils.HeapSort
import ErofsUtils.HuffmanTree
import ErofsUtils.HuffmanLengths
import ErofsUtils.KiteFinderReads
import ErofsUtils.KiteFinderRuns
import ErofsUtils.KiteFinderTurns
import ErofsUtils.Numerals
import ErofsUtils.TarNumber
import ErofsUtils.TarStream
import ErofsUtils.TarStreamSound
import ErofsUtils.InodeForm
import ErofsUtils.DropInline
import ErofsUtils.PointerChain
import ErofsUtils.HashMap
import ErofsUtils.HashMapSound
import ErofsUtils.HashMapRuns
import ErofsUtils.BlockFold
import ErofsUtils.Sha256
import ErofsUtils.DirRoundTrip
import ErofsUtils.DirReadBack
import ErofsUtils.ComprProgress
