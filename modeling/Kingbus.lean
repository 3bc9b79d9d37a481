import Kingbus.Lib.Bytes
import Kingbus.Lib.Varint
import Kingbus.Lib.Crc32
import Kingbus.Lib.Numbered
import Kingbus.Lib.Chunks
import Kingbus.Lib.Table
import Kingbus.Lib.Packets
import Kingbus.Lib.Intervals
import Kingbus.Lib.Decimal
import Kingbus.Lib.Budget
import Kingbus.Lib.Cursor
import Kingbus.RaftEntry
import Kingbus.MmapFile
import Kingbus.SegmentIndex
import Kingbus.Segment
import Kingbus.SegmentSpec
import Kingbus.DiskStorage
import Kingbus.SegmentedLog
import Kingbus.StorageRefinement
import Kingbus.LogRefinement
import Kingbus.OpenSegments
import Kingbus.Restart
import Kingbus.CleanRestart
import Kingbus.Recovery
import Kingbus.IndexRebuild
import Kingbus.FileSteps
import Kingbus.CrashPoints
import Kingbus.ReachableStorage
import Kingbus.SizeLimit
import Kingbus.SingleCalls
import Kingbus.PowerFailure
import Kingbus.RecordFrames
import Kingbus.AppendBounds
import Kingbus.CrashCoverage
import Kingbus.NodeRestart
import Kingbus.BinlogEvent
import Kingbus.EventRelay
import Kingbus.PacketRoundTrip
import Kingbus.FabricatedEvents
import Kingbus.GtidSet
import Kingbus.TrxBoundary
import Kingbus.MetaStore
import Kingbus.BinlogProgress
import Kingbus.MetaKeys
import Kingbus.EventSurvival
import Kingbus.EventRuns
import Kingbus.TrxRecording
import Kingbus.TrxStream
import Kingbus.DumpStart
import Kingbus.PurgedText
import Kingbus.PreviousGtidKeys
import Kingbus.Purging
import Kingbus.GtidPurged
import Kingbus.ReplicaLog
import Kingbus.CrashReplay
import Kingbus.LeaderReset
import Kingbus.StreamCut
import Kingbus.ProposeOrder
import Kingbus.MetadataCrash
import Kingbus.Membership
import Kingbus.MembershipAgreement
import Kingbus.MembershipReplay
import Kingbus.Lib.Runs
import Kingbus.Lib.FirstReturn
import Kingbus.BoundaryGrammar
import Kingbus.DumpReader
import Kingbus.DumpFilter
import Kingbus.DumpServer
import Kingbus.SlaveRegistry
import Kingbus.Purger
import Kingbus.Lib.Text
import Kingbus.GtidFormat
import Kingbus.MetaBucketStore
import Kingbus.NodePipeline
import Kingbus.ConfigureWait
import Kingbus.Lib.GoSlice
import Kingbus.Handshake
import Kingbus.SlaveCommands
import Kingbus.ResultSet
import Kingbus.SlaveSession
import Kingbus.FollowerSession
