import LiberSystem.Kernel.Object.HandleStale
import LiberSystem.Kernel.Object.DomainHandles
import LiberSystem.Kernel.Object.DomainQuota
import LiberSystem.Kernel.Object.ChannelCharge
import LiberSystem.Kernel.Syscall.TransferLinear
import LiberSystem.Kernel.Syscall.TransferAuthority
import LiberSystem.Kernel.Object.PortExclusive
import LiberSystem.Buddy.Invariant
import LiberSystem.Net.ReceiveStream
import LiberSystem.Net.Listeners
import LiberSystem.Net.SendIsolation
import LiberSystem.Net.SendAcks
import LiberSystem.Net.Retransmits
import LiberSystem.Net.RtoBounds
import LiberSystem.LiberFs.Crc
import LiberSystem.LiberFs.DirSplit
import LiberSystem.LiberFs.TreeMaps
import LiberSystem.Boot.RollbackRun
import LiberSystem.Dma.CompletionRun
import LiberSystem.Dma.IovaRun
import LiberSystem.Dma.AttributionRun
import LiberSystem.Kernel.Sched.OneOwner
import LiberSystem.Kernel.Sched.WaitSets
import LiberSystem.Kernel.Object.ThreadQuota
import LiberSystem.Kernel.Object.SubtreeCover
import LiberSystem.Kernel.Sched.Frozen
import LiberSystem.Kernel.Mem.RetireSafe
import LiberSystem.Kernel.Mem.Confirmed
import LiberSystem.Kernel.Mem.PlugOwners
import LiberSystem.Shell.DataNotSyntax
import LiberSystem.Shell.Quoting
import LiberSystem.Admin.Unrecorded
import LiberSystem.Lsidl.OneEncoding
import LiberSystem.Perf.Buffer
