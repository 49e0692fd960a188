import Lume.Pmm.Coalescing
import Lume.Boot
import Lume.Vm.Coverage
import Lume.Vm.Brk
import Lume.Vm.GapSearch
import Lume.Vm.DataKept
import Lume.Vm.HugePages
import Lume.Vm.PageMap
import Lume.Sched.Placement
import Lume.Sched.Order
import Lume.Sched.Interrupts
import Lume.Sched.Wakeups
import Lume.Slab.Counting
import Lume.Klog.Messages
import Lume.Memblock.Extremal
import Lume.Memblock.Complement
import Lume.Fdt.Compatible
import Lume.Fdt.EarlyScans
import Lume.Image.Lz4
import Lume.Irq
import Lume.Pid
import Lume.Image.ChooseBase
import Lume.Uaccess.Paging
import Lume.Sched.Slices
import Lume.Vm.Mmio
import Lume.Sched.Deadlock
import Lume.Trap
import Lume.Vm.Confinement
