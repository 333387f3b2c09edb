import Mutty.Lib.Loop
import Mutty.Lib.Transition
import Mutty.Lib.Grid
import Mutty.Lib.Heap
import Mutty.Buffer.SizeIndex
import Mutty.Buffer.HandleLayout
import Mutty.Lib.Tiling
import Mutty.Buffer.RunMachine
import Mutty.Buffer.BestFit
import Mutty.Buffer.Residency
import Mutty.Buffer.Thresholds
import Mutty.Buffer.Exhaustive
import Mutty.Buffer.CacheSlots
import Mutty.Buffer.Fit
import Mutty.Buffer.Fifo
import Mutty.Buffer.ThreadBinding
import Mutty.Buffer.Accounting
import Mutty.Http.Server
import Mutty.Http.Incremental
import Mutty.Http.Safety
import Mutty.Http.Format
import Mutty.Http.Boundary
import Mutty.Timing.Lateness
import Mutty.Timing.DelayQueue
import Mutty.Timing.Concurrent
import Mutty.Timing.Placement
import Mutty.Timing.Destroy
import Mutty.Net.TcpConnection
import Mutty.Http.Service
import Mutty.Net.EventLoop
import Mutty.Net.EPollPoller
import Mutty.Net.SharedTimer
import Mutty.Net.Connector
import Mutty.Net.HandleEvent
import Mutty.Net.Spread
import Mutty.Net.Acceptor
import Mutty.Net.EventLoopThread
import Mutty.Net.QueueDestroy
import Mutty.Thread.StartTick
import Mutty.Thread.Sum
