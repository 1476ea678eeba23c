import OsKernel.Lib.ActionSystem
import OsKernel.Lib.Bitmap
import OsKernel.Lib.FirstFit
import OsKernel.Lib.KeyedLists
import OsKernel.Lib.MachineInt
import OsKernel.Lib.OwnedLists
import OsKernel.Lib.Xor
import OsKernel.Lvm.Model
import OsKernel.Lvm.PvAlloc
import OsKernel.Lvm.Allocator
import OsKernel.Lvm.Volumes
import OsKernel.Lvm.Isolation
import OsKernel.Raid.Model
import OsKernel.Raid.Striping
import OsKernel.Raid.Rebuild
import OsKernel.Writeback.Model
import OsKernel.Writeback.Tracking
import OsKernel.Writeback.Fsync
import OsKernel.Writeback.LostUpdate
import OsKernel.IoSched.Model
import OsKernel.IoSched.Deadline
import OsKernel.IoSched.Policy
import OsKernel.Futex.Model
import OsKernel.Futex.Mutex
import OsKernel.Futex.Wakeup
import OsKernel.Vfs.Model
import OsKernel.Vfs.Slots
import OsKernel.Vfs.Refcount
import OsKernel.Netfilter.Input
import OsKernel.Congestion.Bounds
import OsKernel.Netfilter.Forward
import OsKernel.Conntrack.Lookup
import OsKernel.Lvm.Extents
import OsKernel.Lib.Totals
import OsKernel.Writeback.Accounting
import OsKernel.Writeback.Sync
import OsKernel.BlockIo.Model
import OsKernel.BlockIo.Split
import OsKernel.Lib.WeightedXor
import OsKernel.Raid.DoubleParity
import OsKernel.Lib.Striping
import OsKernel.Raid.Layout
import OsKernel.Conntrack.TcpState
import OsKernel.Lvm.Shortage
import OsKernel.IoSched.CfqModel
import OsKernel.IoSched.CfqQueues
import OsKernel.IoSched.CfqService
import OsKernel.IoSched.Frontend
import OsKernel.IoSched.Overtaking
import OsKernel.Netfilter.Exemption
import OsKernel.Netfilter.Recording
import OsKernel.Vfs.Ext4
import OsKernel.Lvm.Snapshot
import OsKernel.Lvm.CowLocation
import OsKernel.BlockIo.Pool
import OsKernel.Lib.TextLayout
import OsKernel.Multiboot.Vga
import OsKernel.Multiboot.KernelMain
import OsKernel.Iptables.Model
import OsKernel.Iptables.Order
import OsKernel.Lib.PrefixMask
import OsKernel.Route.Lookup
import OsKernel.Congestion.Rounds
import OsKernel.Congestion.FastRetransmit
import OsKernel.Lvm.FreeCount
import OsKernel.Lvm.FirstFitOrder
import OsKernel.BlockIo.Advance
import OsKernel.Lib.Scrolling
import OsKernel.Multiboot.Scrollback
import OsKernel.Congestion.Loss
import OsKernel.Lib.ResidueWindow
import OsKernel.Raid.Balance
import OsKernel.Raid.Parity
import OsKernel.IoSched.Merge
import OsKernel.BlockIo.Submit
import OsKernel.Lib.Loops
import OsKernel.Multiboot.MemoryMap
import OsKernel.Neigh.Resolve
import OsKernel.Route.Metric
import OsKernel.Vfs.DentryHash
import OsKernel.Vfs.Ext4Io
import OsKernel.Lvm.PvAllocCall
import OsKernel.Concurrency.Race
import OsKernel.Futex.Spinlock
import OsKernel.Conntrack.Flows
import OsKernel.Futex.Finish
import OsKernel.Iptables.Process
import OsKernel.IoSched.Waiting
import OsKernel.Congestion.Convergence
import OsKernel.BlockIo.Queues
import OsKernel.Route.Decision
import OsKernel.Vfs.Ext4Files
import OsKernel.Vfs.Runs
import OsKernel.Lib.Document
import OsKernel.Multiboot.Report
import OsKernel.Multiboot.Boot
import OsKernel.Lib.BlockHeap
import OsKernel.Lvm.SharedTables
import OsKernel.Neigh.Segment
import OsKernel.Writeback.FlushThread
import OsKernel.Netfilter.History
import OsKernel.Conntrack.MatchState
