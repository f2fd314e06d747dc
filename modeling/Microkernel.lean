import Microkernel.Arch.IrqLines
import Microkernel.Arch.Ring3
import Microkernel.Boot.MmapEntries
import Microkernel.Boot.TagLayout
import Microkernel.Core.Syscall
import Microkernel.Heap.FirstFitService
import Microkernel.Heap.HeapStats
import Microkernel.Heap.SlabHistory
import Microkernel.Kernel.BitmapPageIndex
import Microkernel.Kernel.PagedFrames
import Microkernel.Kernel.TypedCommands
import Microkernel.Kernel.UnusableHeap
import Microkernel.Kernel.Watermark
import Microkernel.Pmm.LayoutRounding
import Microkernel.Vma.MapleCapacity
import Microkernel.Vma.RbTreeDescent
import Microkernel.Vma.RbTreeDump
import Microkernel.Vmm.BootDirectory
import Microkernel.Vmm.BootMap
