import BoostCoro.Lib.Segment
import BoostCoro.Lib.Refinement
import BoostCoro.Lib.Transition
import BoostCoro.Buffer.Fifo
import BoostCoro.Coroutine.Coreactor
import BoostCoro.Coroutine.State
import BoostCoro.Coroutine.Machine
import BoostCoro.Coroutine.Calls
import BoostCoro.Coroutine.Sched
import BoostCoro.Coroutine.Effects
import BoostCoro.Coroutine.Running
import BoostCoro.Coroutine.ResumerChain
import BoostCoro.Coroutine.Faults
import BoostCoro.Coroutine.Stacks
import BoostCoro.Coroutine.Mailbox
import BoostCoro.Coroutine.Spine
import BoostCoro.Coroutine.Tree
import BoostCoro.Coroutine.Ownership
import BoostCoro.Lib.Ahead
import BoostCoro.Coroutine.Asleep
import BoostCoro.Coroutine.Wake
import BoostCoro.Coroutine.WaitFlags
import BoostCoro.Coroutine.Reactor
import BoostCoro.Coroutine.Triggers
import BoostCoro.Coroutine.WaitEnds
import BoostCoro.Coroutine.OneShot
import BoostCoro.Coroutine.Callbacks
import BoostCoro.Coroutine.MesgWait
import BoostCoro.Coroutine.Cancel
import BoostCoro.Coroutine.Broadcast
import BoostCoro.Buffer.Scatter
import BoostCoro.Buffer.Gather
import BoostCoro.Buffer.Strnstr
import BoostCoro.Lib.Occurrence
import BoostCoro.Buffer.Delimiter
import BoostCoro.Coasio.Addr
import BoostCoro.Cothread.Effects
import BoostCoro.Cothread.Start
import BoostCoro.Cothread.Join
import BoostCoro.Buffer.Observers
import BoostCoro.Buffer.Memory
import BoostCoro.Coroutine.Message
import BoostCoro.Coasio.CoSocket
import BoostCoro.Buffer.Cursors
import BoostCoro.Coasio.RecvVbuf
import BoostCoro.Coroutine.Loops
import BoostCoro.Coroutine.Pass
import BoostCoro.Coroutine.NestedPasses
import BoostCoro.Coroutine.Drain
import BoostCoro.Coroutine.Twins
import BoostCoro.Coroutine.TwinCalls
import BoostCoro.Coroutine.TwinSteps
import BoostCoro.Coroutine.Schedulers
import BoostCoro.Coasio.LocalAddr
import BoostCoro.Coroutine.WakeNotices
import BoostCoro.Util.ListT
import BoostCoro.Util.LinkedAllocator
import BoostCoro.Coroutine.EventBlocks
import BoostCoro.Lib.DHeap
import BoostCoro.Libev.Heap
import BoostCoro.Libev.InvokePending
import BoostCoro.Libev.Timers
import BoostCoro.Libev.Fds
import BoostCoro.Libev.Signals
import BoostCoro.Libev.LoopRuns
import BoostCoro.Libev.Delivery
import BoostCoro.Libev.Faces
import BoostCoro.Libev.Event
import BoostCoro.Libev.EventCalls
import BoostCoro.Libev.EventRuns
import BoostCoro.Libev.Threads
import BoostCoro.Libev.ThreadRuns
