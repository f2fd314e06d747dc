import Microkernel.Vma.MapleLeaf
import Microkernel.Vma.RbTreeInvariant
import Microkernel.Vma.SortedArrayRefinement

/-! # The VMA backends

Backends that refine the registry cannot be told apart by their answers, whatever their static data
held before `init`. Each of the three backends serves the registry within its room.

* **`rb_answers_eq_sa`** — the red-black tree and the sorted array, over all sequences of calls.
* **`VmaBackend`, `room`** — the backend that is configured, and how many areas it is good for: all that
  the registry promises, or for the maple tree the number of keys of its first leaf.
* **`refinement`** — what the kernel is verified against, one statement for the three of them.
-/

namespace Microkernel.Vma

/-- **The red-black tree and the sorted array agree**: started by `init` on any data, the two
backends answer every sequence of calls alike. -/
theorem rb_answers_eq_sa (s₀ : RbState) (t₀ : SaState) (calls : List VmaCall) :
    ∃ s t answers, (rbOps.machine s₀).run calls = some (s, answers) ∧
      (saOps.machine t₀).run calls = some (t, answers) :=
  rbOps_refines.answers_eq saOps_refines s₀ t₀ calls

/-- `KCONFIG_VMA_BACKEND`. -/
inductive VmaBackend where
  | sortedArray
  | rbTree
  | maple
  deriving DecidableEq, Repr

namespace VmaBackend

/-- The static data of a backend. -/
def State : VmaBackend → Type
  | sortedArray => SaState
  | rbTree => RbState
  | maple => MapleState

/-- The operations of a backend. -/
def ops : (b : VmaBackend) → VmaOps b.State
  | sortedArray => saOps
  | rbTree => rbOps
  | maple => mapleOps

/-- The number of areas from which on a backend has no place for another one: its capacity, or for the
maple tree the number of keys of its first leaf. -/
def room : VmaBackend → ℕ
  | sortedArray => vmaMaxAreas
  | rbTree => vmaMaxAreas
  | maple => mapleMaxPivots

/-- **Each backend serves the registry within its room.** -/
def refinement : (b : VmaBackend) → RegistryRefinement b.ops b.room
  | sortedArray => saOps_refines.within _
  | rbTree => rbOps_refines.within _
  | maple => mapleOps_within

/-- Every backend has room for two areas, and none for more than the registry promises. -/
theorem room_bounds (b : VmaBackend) : 2 ≤ b.room ∧ b.room ≤ vmaMaxAreas := by
  cases b
  · exact ⟨by decide, le_rfl⟩
  · exact ⟨by decide, le_rfl⟩
  · exact ⟨by decide, by decide⟩

end VmaBackend

end Microkernel.Vma
