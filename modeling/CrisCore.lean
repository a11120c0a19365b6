import CrisCore.TransitionSystem
import CrisCore.FifoBaton
import CrisCore.RingBuffer
import CrisCore.CallAnswers
import CrisCore.JobLockQueue
import CrisCore.JobQueueBulk
import CrisCore.JobQueueThreads
import CrisCore.JobQueueThrows
import CrisCore.WorkerLoop
import CrisCore.SpinMutex
import CrisCore.StrandModel
import CrisCore.StrandLife
import CrisCore.StrandPlaces
import CrisCore.StrandTurns
import CrisCore.StrandMoves
import CrisCore.StrandExclusion
import CrisCore.StrandHistory
import CrisCore.StrandOrder
import CrisCore.StrandAccounting
import CrisCore.StrandEnqueue
import CrisCore.StrandStarts
import CrisCore.StrandOwnership
import CrisCore.RunnerLifetime
import CrisCore.SubscriptionRegistry
import CrisCore.SubscriptionLinks
import CrisCore.SubscriptionDelivery
import CrisCore.FixedWidth
import CrisCore.OrderedStore
import CrisCore.RecordKey
import CrisCore.RecordDirs
import CrisCore.RecordFile
import CrisCore.RecordFileDecoding
import CrisCore.RecordFileCleanup
import CrisCore.RecordFileCommit
import CrisCore.RecordFileContents
import CrisCore.DirectoryCopy
import CrisCore.PriorityMerge
import CrisCore.MessageRecorder
import CrisCore.MessageReplayer
import CrisCore.RecordReplay
import CrisCore.ReplayOrder
import CrisCore.RecordFileCursors
import CrisCore.RecorderSnapshot
import CrisCore.SnapshotContents
import CrisCore.SnapshotExact
import CrisCore.ChannelDirs
import CrisCore.RecorderInstances
import CrisCore.RecorderThreads
import CrisCore.RecorderJobs
import CrisCore.SnapshotHandshake
import CrisCore.SnapshotProgress
import CrisCore.SnapshotLocals
import CrisCore.RecordFileLifetime
import CrisCore.RecorderConfig
import CrisCore.ProgressionMerge
import CrisCore.SnapshotWorker
import CrisCore.SnapshotSchedule
import CrisCore.SnapshotStarvation
import CrisCore.SnapshotRetention
import CrisCore.ItemPlaces
import CrisCore.TimelineSessions
import CrisCore.TimelineTree
import CrisCore.TimelineNesting
import CrisCore.TimelinePrint
import CrisCore.TimelineRelease
import CrisCore.DeliveredTime
import CrisCore.ChannelFidelity
import CrisCore.ListSums
import CrisCore.PairedLists
import CrisCore.WorkerWakeUp
import CrisCore.WorkerStop
import CrisCore.WorkerSelection
import CrisCore.RunnerConfig
import CrisCore.ConfigIntegers
import CrisCore.RecorderOpens
import CrisCore.TimerStats
import CrisCore.RankedLists
import CrisCore.TimerPercentiles
import CrisCore.TimerReportTree
import CrisCore.TimerSections
import CrisCore.TimerReports
import CrisCore.TimerCollectors
import CrisCore.TimerConservation
import CrisCore.TimerHandouts
import CrisCore.TimerCapacity
import CrisCore.TimerSessions
import CrisCore.TimerNames
import CrisCore.TimerHistory
import CrisCore.TimerFreshness
import CrisCore.RecordKeyCodec
import CrisCore.RecordKeyMake
import CrisCore.RecordReadBack
import CrisCore.RecordConvert
import CrisCore.RecordFileFailures
import CrisCore.UtcTime
import CrisCore.StealPass
import CrisCore.RollingHelpers
import CrisCore.RollingTimes
import CrisCore.RollingSizes
import CrisCore.ModularRecords
import CrisCore.SizeLimits
import CrisCore.BacklogDiscard
import CrisCore.PlainDirectories
import CrisCore.RecorderDestruction
import CrisCore.JobLedger
import CrisCore.RunnerJobs
import CrisCore.RunnerService
import CrisCore.SnapshotReplay
import CrisCore.RecordFileCrashes
import CrisCore.CivilDates
import CrisCore.UtcNames
import CrisCore.RolledReadBack
import CrisCore.ClockedRecorder
import CrisCore.PublishedReadBack
import CrisCore.ConfigGets
