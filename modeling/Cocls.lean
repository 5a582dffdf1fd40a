import Cocls.Run
import Cocls.Links
import Cocls.Interleave
import Cocls.ReadyList
import Cocls.SharedPtr
import Cocls.Awaiter
import Cocls.CoroQueue
import Cocls.CoroQueue.CoroMode
import Cocls.CoroQueue.Nested
import Cocls.CoroQueue.Cooperative
import Cocls.SuspendPoint
import Cocls.SuspendPoint.Lists
import Cocls.SuspendPoint.Await
import Cocls.Queue
import Cocls.Queue.Limited
import Cocls.Queue.Limit
import Cocls.Queue.Pairing
import Cocls.Mutex
import Cocls.Mutex.Fifo
import Cocls.Mutex.Steps
import Cocls.Mutex.Exclusion
import Cocls.Future
import Cocls.Future.Resolve
import Cocls.Promise
import Cocls.Promise.NoOrphan
import Cocls.Promise.WithDefault
import Cocls.Future.Queries
import Cocls.Future.Reference
import Cocls.SharedFuture
import Cocls.SharedFuture.Lifetime
import Cocls.Generator
import Cocls.Generator.Access
import Cocls.Generator.Refused
import Cocls.Generator.Aggregator
import Cocls.Generator.Merge
import Cocls.Generator.RoundRobin
import Cocls.Generator.Teardown
import Cocls.Heap
import Cocls.Scheduler
import Cocls.Scheduler.Live
import Cocls.Scheduler.Runs
import Cocls.Scheduler.Stop
import Cocls.Scheduler.Reentry
import Cocls.Scheduler.Bounds
import Cocls.Scheduler.Oversleep
import Cocls.Publisher
import Cocls.Publisher.Stream
import Cocls.Publisher.Table
import Cocls.Publisher.Slots
import Cocls.Publisher.Batch
import Cocls.Publisher.AllValues
import Cocls.Publisher.Skipping
import Cocls.Publisher.Session
import Cocls.Publisher.Retention
import Cocls.Publisher.Inside
import Cocls.Publisher.FinalEnd
import Cocls.Publisher.Blocking
import Cocls.Publisher.Wakeups
import Cocls.Spots
import Cocls.Owners
import Cocls.ThreadPool
import Cocls.ThreadPool.Steps
import Cocls.ThreadPool.Stopped
import Cocls.ThreadPool.Kept
import Cocls.ThreadPool.Progress
import Cocls.ThreadPool.ExactlyOnce
import Cocls.Scheduler.Shutdown
import Cocls.Signal
import Cocls.Signal.Delivery
import Cocls.FutureConv
import Cocls.FutureConv.Forms
import Cocls.Callbacks
import Cocls.Callbacks.Once
import Cocls.BlockHeap
import Cocls.CoroStorage
import Cocls.CoroStorage.Protection
import Cocls.Procedures
import Cocls.Async
import Cocls.Async.Lifecycle
import Cocls.Async.Calls
import Cocls.SyncAwaiter
import Cocls.SyncAwaiter.Wakeups
import Cocls.Functions
import Cocls.Functions.Values
import Cocls.Mutex.Ownership
import Cocls.Mutex.Held
import Cocls.ThreadPool.Runs
import Cocls.ThreadPool.Resolved
import Cocls.Generator.Argument
import Cocls.Generator.Conversation
import Cocls.CoroStorage.StackStorage
import Cocls.CoroStorage.StackFrames
