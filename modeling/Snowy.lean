import Snowy.Basic
import Snowy.Lib.HeapRange
import Snowy.Lib.RingBuffer
import Snowy.Lib.Handoff
import Snowy.Loop.Machine
import Snowy.Loop.Frame
import Snowy.Loop.Wakeup
import Snowy.Loop.WellFormed
import Snowy.Loop.KeepAlive
import Snowy.Loop.Cancellation
import Snowy.Owner.World
import Snowy.Owner.Sound
import Snowy.Owner.Completion
import Snowy.Uring.Driver
import Snowy.Uring.Retirement
import Snowy.Ledger
import Snowy.Owner.Channel
import Snowy.Owner.Fifo
import Snowy.Remote.Delivery
import Snowy.Remote.Mailbox
import Snowy.Remote.Exchange
import Snowy.Remote.Fifo
import Snowy.Agreement.Desk
import Snowy.Agreement.OfChannel
import Snowy.Agreement.OfMailbox
import Snowy.Agreement.Agree
import Snowy.Remote.Futex
import Snowy.Loop.Queues
import Snowy.When.Join
import Snowy.When.Drain
import Snowy.When.Outcome
import Snowy.Direction
import Snowy.Lib.Threaded
import Snowy.Uring.Provided
import Snowy.Uring.Lease
import Snowy.Uring.Bundle
import Snowy.Uring.Submission
import Snowy.Uring.Chains
import Snowy.Uring.WakePoll
import Snowy.Lib.Drain
import Snowy.WriteAll
import Snowy.Owner.Timers
import Snowy.Lib.Signed
import Snowy.Owner.Delay
import Snowy.Pool.Run
import Snowy.Remote.Spawn
import Snowy.Lib.Intrusive
import Snowy.Lib.Program
import Snowy.Uring.Flush
import Snowy.Uring.Await
import Snowy.Uring.Hooks
import Snowy.Uring.ZcSend
import Snowy.Uring.SubmitBatch
import Snowy.Uring.Multishot
import Snowy.Uring.Receive
import Snowy.Uring.Accept
import Snowy.Lib.Unsigned
import Snowy.Ranges
import Snowy.FrameStorage
import Snowy.Lib.Bytes
import Snowy.Uring.RecvMsg
import Snowy.Uring.Registered
import Snowy.Lib.LinkFamily
import Snowy.Loop.IntrusiveLists
import Snowy.Uring.Ticks
import Snowy.Coroutine.Frames
import Snowy.Coroutine.Ownership
import Snowy.Coroutine.Calls
import Snowy.Lib.CallStack
import Snowy.Backend.Kqueue
