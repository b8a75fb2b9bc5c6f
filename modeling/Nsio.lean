import Nsio.Foundations.Machine
import Nsio.Foundations.Word
import Nsio.Foundations.Socket
import Nsio.Foundations.GrowVec
import Nsio.Foundations.MinHeap
import Nsio.Foundations.Ledger
import Nsio.Foundations.Progress
import Nsio.Foundations.Cells
import Nsio.Foundations.Link
import Nsio.Foundations.Memory
import Nsio.Common.Zio
import Nsio.Coio.ByteBuffer
import Nsio.Coio.BufferCache
import Nsio.Coio.BufferOwnership
import Nsio.Coio.FdTable
import Nsio.Coio.CtlFailures
import Nsio.Coio.HeldReference
import Nsio.Coio.StaleEvents
import Nsio.Coio.CancelledEvents
import Nsio.Coio.AcceptLoop
import Nsio.Coio.RecvRequest
import Nsio.Coio.RecvLazy
import Nsio.Coio.HostileHeader
import Nsio.Coio.FreshAllocation
import Nsio.Coio.SendLazy
import Nsio.Coio.TimerQueue
import Nsio.Coio.PollTimeout
import Nsio.Coio.TimerRuns
import Nsio.Coio.TimerLatency
import Nsio.Coio.TimedAwaiter
import Nsio.Coio.TimerOwnership
import Nsio.Coio.ResumeOnce
import Nsio.Coio.ConnectOutcome
import Nsio.Coio.WakeUp
import Nsio.Coio.AsyncQueue
import Nsio.Coio.IoContext
import Nsio.Coio.ContextFutures
import Nsio.Coio.ContextStop
import Nsio.Coio.Aio
import Nsio.Coio.AioAccounting
import Nsio.Coio.AioRetry
import Nsio.Coio.DiskAwait
import Nsio.Coio.Task
import Nsio.Coio.TaskCalls
import Nsio.Coio.TaskRuns
import Nsio.Test.Echo
import Nsio.Test.EchoProgress
import Nsio.Test.EchoServer
import Nsio.Test.EchoIsolation
import Nsio.Test.EchoBounds
