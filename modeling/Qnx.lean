import Qnx.Ker.SchedPriority
import Qnx.Ker.SporadicRun
import Qnx.Ker.PulseShort
import Qnx.Ker.TimerClock
import Qnx.Ker.TimerNext
import Qnx.Ker.MutexWalk
import Qnx.Ker.ConnectRun
import Qnx.Ker.HeapRun
import Qnx.Ker.ServingRun
import Qnx.Ker.ChannelDestroy
import Qnx.Ker.GlobalRun
import Qnx.Ker.Semaphore
import Qnx.Ker.AttachExits
import Qnx.Iofunc.LockSafe
import Qnx.Iofunc.LockMap
import Qnx.Iofunc.Notify
import Qnx.Alloc.AllocRun
import Qnx.Memmgr.AdpLock
import Qnx.Pipe.PipeStream
import Qnx.Slogger.SlogCalls
import Qnx.Mqueue.MqueueBook
import Qnx.Rsrc.MinorRun
import Qnx.Rsrc.HandlerFits
import Qnx.Memmgr.TymemAlloc
import Qnx.Memmgr.TymemOpen
import Qnx.Rsrc.Limits
import Qnx.Rsrc.SearchEnds
import Qnx.Pathmgr.NamedSem
import Qnx.Memmgr.PaFailed
import Qnx.Memmgr.PmemWalk
import Qnx.Proc.Loader
import Qnx.Dispatch.Pool
