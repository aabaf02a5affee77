import OsKernel.Lib.Align

/-!
# Pages and addresses (`kernel/mm/mm_types.h`)

The direct map puts all of physical memory at a fixed offset, so the pointer that
`phys_to_virt` makes of a physical address stands for that address, and comparing
two of them compares the addresses.
-/

namespace OsKernel.Mm

/-- `PAGE_SHIFT`. -/
def PAGE_SHIFT : Nat := 12

/-- `PAGE_SIZE`. -/
def PAGE_SIZE : Nat := 2 ^ PAGE_SHIFT

/-- `INVALID_PHYS`. -/
def INVALID_PHYS : Nat := U64 - 1

/-- `PAGE_COUNT`. -/
def pageCount (size : Nat) : Nat := size / PAGE_SIZE

theorem PAGE_SIZE_eq : PAGE_SIZE = 4096 := rfl

end OsKernel.Mm
