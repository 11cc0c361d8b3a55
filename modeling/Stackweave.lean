import Stackweave.Deque
import Stackweave.Netpoll.Arm
import Stackweave.Netpoll.Commit
import Stackweave.Netpoll.Outcome
import Stackweave.ParkWake
import Stackweave.WakeState
import Stackweave.Pending
import Stackweave.RingBuffer
import Stackweave.Tally
import Stackweave.Transition
import Stackweave.Channel.Fifo
import Stackweave.Channel.Exactly
import Stackweave.Monkey.Mutex
import Stackweave.Monkey.Queue
import Stackweave.Monkey.Backend
import Stackweave.Monkey.Condition
import Stackweave.Monkey.Users
import Stackweave.HandleTable
import Stackweave.Blockpool
import Stackweave.Sleep
import Stackweave.Netpoll.Conn
import Stackweave.Monkey.Sockets
import Stackweave.IoUring.Ring
import Stackweave.IoUring.Multishot
import Stackweave.IoUring.MultishotLife
import Stackweave.Monkey.Notify
import Stackweave.Monkey.Semaphore
import Stackweave.Sync.RWMutex
import Stackweave.Sync.Semaphore
import Stackweave.Aio.Future
import Stackweave.Aio.Cancel
import Stackweave.Aio.Task
import Stackweave.Aio.CurrentTask
import Stackweave.Aio.TlsBio
import Stackweave.Aio.StreamTransport
import Stackweave.Aio.StreamRead
import Stackweave.Aio.StreamWriter
import Stackweave.Context.Deadline
import Stackweave.Context.Cancel
import Stackweave.Monkey.DnsQuery
import Stackweave.Monkey.Event
import Stackweave.Time.Contract
import Stackweave.Time.Wake
import Stackweave.Sync.JoinSet
import Stackweave.Time.Backing
import Stackweave.LinkedList
import Stackweave.Sched.Runq
import Stackweave.Sched.Pick
import Stackweave.Sched.PumpKick
import Stackweave.Sched.WakepCalls
import Stackweave.Sched.Pin
import Stackweave.Sched.Teardown
import Stackweave.Sched.Spawn
import Stackweave.Monkey.ResolveDual
import Stackweave.Monkey.Timeouts
import Stackweave.BlockpoolStop
import Stackweave.Netpoll.ArmCache
import Stackweave.Heap
import Stackweave.Netpoll.Parkers
import Stackweave.Netpoll.Drain
import Stackweave.HandleReclaim
import Stackweave.Channel.TryEach
import Stackweave.Monkey.BackendJobs
import Stackweave.Monkey.BackendExit
import Stackweave.Sync.Once
import Stackweave.Sync.Singleflight
import Stackweave.Sync.Watch
import Stackweave.Sync.Future
import Stackweave.Monkey.DnsName
import Stackweave.IoUring.Submit
import Stackweave.IoUring.Inflight
import Stackweave.IoUring.SingleDrainer
import Stackweave.IoUring.SignalWake
import Stackweave.Sched.StackLive
import Stackweave.Monkey.SemLock
import Stackweave.Monkey.Awaiting
import Stackweave.Monkey.Executor
import Stackweave.Monkey.Permits
import Stackweave.Monkey.ExecutorTasks
import Stackweave.Monkey.ExecutorShutdown
import Stackweave.Aio.StreamReader
import Stackweave.Monkey.DnsNegative
import Stackweave.Aio.Connect
import Stackweave.Monkey.ExecutorGuard
import Stackweave.Monkey.Deadlines
import Stackweave.Aio.FlowControl
import Stackweave.Aio.ServerClose
import Stackweave.Aio.ForeignTask
import Stackweave.Netpoll.DeadlineHeap
