import Ufp.Lib.MemSafety
import Ufp.Lib.Io
import Ufp.Lib.IoQueue
import Ufp.Dev.I40e
import Ufp.Dev.NicProtocol
import Ufp.Theory.Bits
import Ufp.Daemon.Lpm
import Ufp.Daemon.Fib
import Ufp.Daemon.Routes
import Ufp.Daemon.HeapInv
import Ufp.Daemon.LpmInv
import Ufp.Daemon.LpmSlot
import Ufp.Daemon.LpmLoops
import Ufp.Daemon.LpmTree
import Ufp.Daemon.FibInv
import Ufp.Daemon.FibRefine
import Ufp.Daemon.FibLife
import Ufp.Daemon.Neigh
import Ufp.Daemon.Netlink
import Ufp.Daemon.NeighFollow
import Ufp.Daemon.FibFollow
import Ufp.Daemon.Forward
import Ufp.Lib.Plane
import Ufp.Daemon.Events
import Ufp.Daemon.Announce
import Ufp.Daemon.Ownership
import Ufp.Lib.Region
import Ufp.Daemon.Refill
import Ufp.Daemon.Checksum
import Ufp.Daemon.Tables
import Ufp.Daemon.Decision
import Ufp.Dev.Queues
import Ufp.Dev.AdminQueue
import Ufp.Dev.AdminSessions
import Ufp.Daemon.FibExact
import Ufp.Daemon.FibLayout
import Ufp.Daemon.FibAccount
import Ufp.Daemon.NeighMap
import Ufp.Dev.Hmc
import Ufp.Theory.BitString
import Ufp.Dev.HmcContext
import Ufp.Daemon.Args
import Ufp.Daemon.CoreList
import Ufp.Daemon.Options
import Ufp.Dev.Irq
import Ufp.Daemon.Pinning
import Ufp.Daemon.NetlinkBounds
import Ufp.Daemon.RangeEnds
import Ufp.Lib.Fifo
import Ufp.Lib.MemCanon
import Ufp.Lib.Ifname
import Ufp.Lib.IrqVector
import Ufp.Lib.SlotExact
import Ufp.Dev.AdminClean
import Ufp.Dev.AdminFields
import Ufp.Dev.HmcFrame
import Ufp.Lib.Hlist
import Ufp.Daemon.NetlinkCalls
import Ufp.Daemon.KernelView
import Ufp.Daemon.PoolRefine
import Ufp.Daemon.ThreadLife
import Ufp.Daemon.Passages
import Ufp.Daemon.ProcessLife
import Ufp.Daemon.NeighMemory
import Ufp.Daemon.NeighMemorySim
import Ufp.Lib.CircularList
import Ufp.Lib.Drivers
import Ufp.Daemon.SlotBounds
import Ufp.Dev.HmcApart
