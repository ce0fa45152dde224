import NetTest.Core.BufExtent
import NetTest.Core.CycleMemoryBlock
import NetTest.Core.Descriptors
import NetTest.Core.EventLoop.Disconnect
import NetTest.Core.EventLoop.Lifetime
import NetTest.Core.EventLoop.Tasks
import NetTest.Core.EventLoop.TaskLock
import NetTest.Core.EventLoop.Timers
import NetTest.Core.EventLoop.Wakeup
import NetTest.Core.EventLoop.Writes
import NetTest.Core.EventThread
import NetTest.Core.Log.Leak
import NetTest.Core.NgxCore.ParseUrl
import NetTest.Core.NgxCore.Shutdown
import NetTest.Core.NgxCore.Startup
import NetTest.Core.Pool.Growth
import NetTest.Core.Pool.Teardown
import NetTest.Core.Queue.Fifo
import NetTest.Core.TcpConn.Lengths
import NetTest.Core.TcpConn.Pending
import NetTest.Core.TcpConn.Transient
import NetTest.Basic.Allocator
import NetTest.Basic.AsyncResultSyncer.Requests
import NetTest.Basic.AsyncResultSyncer.Sequential
import NetTest.Basic.BHeap.Sift
import NetTest.Basic.DynamicBuffer.Contents
import NetTest.Basic.DynamicBuffer.Growth
import NetTest.Basic.FBuffer
import NetTest.Basic.FString.Access
import NetTest.Basic.FString.Append
import NetTest.Basic.FString.Compare
import NetTest.Basic.FString.Construct
import NetTest.Basic.FixedBitSet.FindFirst
import NetTest.Basic.FixedBitSet.FindLast
import NetTest.Basic.FixedShm.Access
import NetTest.Basic.FixedShm.LifeCycle
import NetTest.Basic.LockFreeArray.Consumers
import NetTest.Basic.LockFreeArray.Fifo
import NetTest.Basic.LockFreeArray.Mask
import NetTest.Basic.LockFreeArray.Publication
import NetTest.Basic.RepeatFilterLimit
import NetTest.Basic.Ringbuffer.Sharing
import NetTest.Basic.Ringbuffer.Template
import NetTest.Basic.StagingBuffer.Drained
import NetTest.Basic.Config.Agreement
import NetTest.Basic.Config.ConfRoundTrip
import NetTest.Basic.Config.Document
import NetTest.Basic.Config.IniMeaning
import NetTest.Basic.Config.IniRoundTrip
import NetTest.Basic.Config.Instances
import NetTest.Basic.Config.Numbers
import NetTest.Basic.Config.Typed
import NetTest.Network.Sockets
import NetTest.Script.StructDecodec
import NetTest.Threadpool.Acks
import NetTest.Threadpool.Removal
import NetTest.Threadpool.RoundRobin
import NetTest.Threadpool.Shutdown
import NetTest.Threadpool.TaskTable
import NetTest.ThirdParty.Cmdline.Words
import NetTest.ThirdParty.Cmdline.Outcome
