import Ruka.BigEndian
import Ruka.LexicalPaths
import Ruka.FilePrograms
import Ruka.CachedPrograms
import Ruka.LocalPrograms
import Ruka.SortedSearch
import Ruka.TiledBlocks
import Ruka.Errors
import Ruka.RecordCodec
import Ruka.DecimalNames
import Ruka.OffsetIndex
import Ruka.SegmentFiles
import Ruka.IndexRuns
import Ruka.RecordGrammar
import Ruka.PartitionLog
import Ruka.SegmentStorage
import Ruka.SegmentReads
import Ruka.SegmentRecovery
import Ruka.FaultyPrograms
import Ruka.SegmentAdditions
import Ruka.TruncatedLogs
import Ruka.FailedAppends
import Ruka.PartitionStorage
import Ruka.RotationProgress
import Ruka.PartitionReads
import Ruka.PartitionOpening
import Ruka.PartitionSessions
import Ruka.BatchGrouping
import Ruka.AppendOnlyRefinement
import Ruka.RejectedBatches
import Ruka.RestartSurvival
import Ruka.FetchGaps
import Ruka.FetchProgress
import Ruka.LocalPartitions
import Ruka.FrayedSegments
import Ruka.FrayedPartitions
import Ruka.FrayedReads
import Ruka.FrayedOpening
import Ruka.CrashRecovery
import Ruka.CrashCourses
import Ruka.StreamDecoding
import Ruka.WireFrames
import Ruka.FrameGrammar
import Ruka.FrameStreams
import Ruka.RequestFrames
import Ruka.TopicDirectories
import Ruka.TopicRegistry
import Ruka.PartitionOwnership
import Ruka.Broker
import Ruka.BrokerStorage
import Ruka.BrokerRuns
import Ruka.ResponseFrames
import Ruka.RecordStreams
import Ruka.RegistryRestart
import Ruka.BrokerDisks
import Ruka.BrokerSteps
import Ruka.BrokerCourses
import Ruka.LogSpans
import Ruka.Conversations
import Ruka.ConnectionSteps
import Ruka.ConcurrentClients
import Ruka.TaskOutcomes
import Ruka.ServerSteps
import Ruka.ServerConversations
import Ruka.ServerProgress
import Ruka.LinearHistories
import Ruka.ServerRefinement
