import Babeltrace.Program
import Babeltrace.Machine
import Babeltrace.Bitfield
import Babeltrace.ItemSeqModel
import Babeltrace.ItemSeqData
import Babeltrace.ItemSeqIter
import Babeltrace.ItemSeqPadding
import Babeltrace.ItemSeqRun
import Babeltrace.ItemSeqResume
import Babeltrace.ItemSeqAgenda
import Babeltrace.ItemSeqReads
import Babeltrace.ItemSeqRefine
import Babeltrace.ItemSeqGrammar
import Babeltrace.ItemSeqSeek
import Babeltrace.ItemSeqConfine
import Babeltrace.ItemSeqClock
import Babeltrace.Leb128
import Babeltrace.ItemSeqVarLen
import Babeltrace.ItemSeqEventCls
import Babeltrace.ItemSeqOffsets
import Babeltrace.ItemSeqEnds
import Babeltrace.FixedLenReaders
import Babeltrace.FieldLocs
import Babeltrace.IntRanges
import Babeltrace.LibFcs
import Babeltrace.OrderedMerge
import Babeltrace.DsIndex
import Babeltrace.FsMedium
import Babeltrace.KeyedFold
import Babeltrace.Clock
import Babeltrace.ClockConversions
import Babeltrace.Messages
import Babeltrace.AutoSeek
import Babeltrace.AutoSeekRuns
import Babeltrace.AutoSeekProtocol
import Babeltrace.AutoSeekTimes
import Babeltrace.Trimmer
import Babeltrace.TrimmerTimes
import Babeltrace.TrimmerResume
import Babeltrace.PrioHeap
import Babeltrace.Muxer
import Babeltrace.MuxerMerge
import Babeltrace.SinkVariant
import Babeltrace.TsdlStrings
import Babeltrace.StarLanguage
import Babeltrace.StarGlob
import Babeltrace.Values
import Babeltrace.TsdlStructs
import Babeltrace.GraphRun
import Babeltrace.TsdlClasses
import Babeltrace.TsdlVisitor
import Babeltrace.TsdlNames
import Babeltrace.TsdlEnums
import Babeltrace.LiveUrl
import Babeltrace.Dmesg
import Babeltrace.MsgSeqChecks
import Babeltrace.CtfMsgIter
import Babeltrace.MuxerProtocol
import Babeltrace.Numerals
import Babeltrace.ParamValidation
import Babeltrace.CtfserRoundTrip
import Babeltrace.BitfieldLaws
import Babeltrace.DestructionListeners
import Babeltrace.ClkCorrelation
import Babeltrace.DelayedErrors
import Babeltrace.TrimmerBoundStr
import Babeltrace.FsIndexing
import Babeltrace.FsIndexedFile
import Babeltrace.FsIdxFile
import Babeltrace.LiveMedium
import Babeltrace.MetadataStreamDecoder
import Babeltrace.LiveMetadata
import Babeltrace.FdCache
import Babeltrace.ParamParse
import Babeltrace.DebugInfoLookup
import Babeltrace.WriterFieldTypes
import Babeltrace.TsdlAlignments
import Babeltrace.PrioHeapRuns
import Babeltrace.NullCpFinder
import Babeltrace.NormalizePath
import Babeltrace.ParentForest
import Babeltrace.ObjectRefs
