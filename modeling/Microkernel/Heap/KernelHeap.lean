import Microkernel.Word

/-! # The kernel heap region

The constants of `vmm.h` that both heap backends share.

The heap has a window of its own in the address space, and `kmain` hands the backend that is registered a
region of its first pages. The window begins 512 MiB above `KERNEL_VIRT_OFFSET`, where the direct map
begins, and this is all that keeps the two apart: neither `vmm_init` nor the backends compare an address
with the other one.
-/

namespace Microkernel.Heap

/-- `KHEAP_START`. -/
def kheapStart : U32 := 0xE0000000#32

/-- `KHEAP_MAX_SIZE`. -/
def kheapMaxSize : U32 := 0x10000000#32

/-- `KHEAP_END`. -/
def kheapEnd : U32 := kheapStart + kheapMaxSize

end Microkernel.Heap
