import Squiz.Lib.System
import Squiz.Lib.Simulation
import Squiz.Lib.Operations
import Squiz.Lib.StructuredOperations
import Squiz.Lib.History
import Squiz.Lib.Linearizability
import Squiz.Lib.SourceOrder
import Squiz.Lib.Enumerates
import Squiz.Lib.Word
import Squiz.Lib.Processes
import Squiz.Lib.Broadcast
import Squiz.Lib.Ring
import Squiz.Lib.LinkedList
import Squiz.Lib.LinkPath
import Squiz.Lib.InactiveQueue
import Squiz.Lib.Distribution
import Squiz.Lib.StableQueue
import Squiz.Lib.WideProduct
import Squiz.Detail.IntegerOps
import Squiz.Lib.Radix
import Squiz.Lib.Promotion
import Squiz.Lib.Chunks
import Squiz.Detail.BinnedTimePriorityQueue.Queue
import Squiz.Detail.BinnedTimePriorityQueue.Bins
import Squiz.Detail.BinnedTimePriorityQueue.Placed
import Squiz.Detail.BinnedTimePriorityQueue.Update
import Squiz.Detail.BinnedTimePriorityQueue.Dequeue
import Squiz.Detail.BinnedTimePriorityQueue.BinTime
import Squiz.Detail.BinnedTimePriorityQueue.Earlier
import Squiz.Detail.BinnedTimePriorityQueue.Reindex
import Squiz.Detail.BinnedTimePriorityQueue.Runs
import Squiz.Detail.BinnedTimePriorityQueue.Linked
import Squiz.CompletionSignatures
import Squiz.Detail.Children
import Squiz.Detail.StoreResult
import Squiz.Detail.IntrusiveList
import Squiz.Detail.IntrusiveLists
import Squiz.Detail.Bitset
import Squiz.CountingScope.Scope
import Squiz.CountingScope.Spawn
import Squiz.CountingScope.SpawnProtocol
import Squiz.CountingScope.Future
import Squiz.CountingScope.FutureProtocol
import Squiz.CountingScope.Nest
import Squiz.CountingScope.NestProtocol
import Squiz.WhenAll.Op
import Squiz.WhenAll.Invariant
import Squiz.WhenAll.Protocol
import Squiz.WhenAll.AlwaysSucceeds
import Squiz.WhenAll.Signatures
import Squiz.FirstSuccessful.Op
import Squiz.FirstSuccessful.Invariant
import Squiz.FirstSuccessful.Steps
import Squiz.FirstSuccessful.Delivery
import Squiz.FirstSuccessful.Progress
import Squiz.FirstSuccessful.Protocol
import Squiz.Statement
import Squiz.StopWhen.Op
import Squiz.StopWhen.Invariant
import Squiz.StopWhen.Steps
import Squiz.StopWhen.Protocol
import Squiz.StopWhen.RequestStop
import Squiz.LetValue.Op
import Squiz.LetValue.Invariant
import Squiz.LetValue.Steps
import Squiz.LetValue.Protocol
import Squiz.StopTokenSender.Op
import Squiz.StopTokenSender.Invariant
import Squiz.StopTokenSender.Steps
import Squiz.StopTokenSender.Protocol
import Squiz.SingleInplaceStopSource.Source
import Squiz.SingleInplaceStopSource.Invariant
import Squiz.SingleInplaceStopSource.Stacks
import Squiz.SingleInplaceStopSource.Steps
import Squiz.SingleInplaceStopSource.Protocol
import Squiz.SingleInplaceStopSource.Moves
import Squiz.Senders.Results
import Squiz.Senders.Statement
import Squiz.Senders.StopWhen
import Squiz.Senders.WhenAll
import Squiz.Senders.FirstSuccessful
import Squiz.Senders.LetValue
import Squiz.Senders.Forward
import Squiz.Senders.Nest
import Squiz.Senders.Sender
import Squiz.AtomicIntrusiveQueue.Queue
import Squiz.AtomicIntrusiveQueue.Invariant
import Squiz.AtomicIntrusiveQueue.Steps
import Squiz.AtomicIntrusiveQueue.Protocol
import Squiz.AtomicIntrusiveQueue.Linearizable
import Squiz.LinuxOS.ScheduleAt
import Squiz.LinuxOS.ScheduleAtProtocol
import Squiz.LinuxOS.IoUringOperation.Op
import Squiz.LinuxOS.IoUringOperation.Invariant
import Squiz.LinuxOS.IoUringOperation.Protocol
import Squiz.LinuxOS.IoUringOperation.Context
import Squiz.LinuxOS.IoUringOperation.ContextProtocol
import Squiz.LinuxOS.IoUringOperation.Queues
import Squiz.LinuxOS.IoUringOperation.QueuesProtocol
import Squiz.LinuxOS.IoUringOperation.QueuesProgress
import Squiz.LinuxOS.RunLoop.Loop
import Squiz.LinuxOS.RunLoop.WakeUp
import Squiz.LinuxOS.RunLoop.ReadyQueue
import Squiz.LinuxOS.RunLoop.SqeSpace
import Squiz.LinuxOS.SubmissionQueue
import Squiz.LinuxOS.CompletionQueue
import Squiz.LinuxOS.MonotonicClock
import Squiz.LinuxOS.TimePointArithmetic
import Squiz.LinuxOS.TimerBase
import Squiz.LinuxOS.Timestamps
import Squiz.LinuxOS.TimerLoop
import Squiz.LinuxOS.EarliestTimer
import Squiz.LinuxOS.TimerLoopEnd
import Squiz.ManualEventLoop.Loop
import Squiz.ManualEventLoop.WakeUp
import Squiz.ManualEventLoop.Returns
import Squiz.ManualEventLoop.TaskQueue
import Squiz.SyncWait.Calls
import Squiz.SyncWait.Invariant
import Squiz.SyncWait.Steps
import Squiz.SyncWait.Protocol
import Squiz.Detail.BinnedTimePriorityQueue.BinArithmetic
