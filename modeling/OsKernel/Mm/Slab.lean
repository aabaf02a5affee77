import OsKernel.Base.Memory
import OsKernel.Lib.List
import OsKernel.Mm.PageAlloc

/-!
# Slab allocators (`kernel/mm/slab.c`)

A slab is a block of pages cut into objects of one size. The free objects of a slab
form a chain that starts at `first_free_index` in the first page's `struct page` and
goes on through the first four bytes of the free objects themselves. Slabs with a free
object are on the list of the allocator.

The page allocator is outside this model: what `alloc_pages` answers is an input of
`slab_alloc`. It hands out pages that are in no slab, marks them and clears their
memory; `free_pages` marks them free again. Addresses are virtual, and the pages are
mapped one after the other from `base` on. Locks are left out: one call runs at a time.
-/

namespace OsKernel.Mm

/-- `UINT32_MAX`, the end of a chain. -/
def UINT32_MAX : Nat := 2 ^ 32 - 1

/-- `MIN_OBJ_PER_SLAB`. -/
def MIN_OBJ_PER_SLAB : Nat := 4

/-- Addition of 32-bit counters. -/
def add32 (x y : Nat) : Nat := (x + y) % 2 ^ 32

/-- Subtraction of 32-bit counters. -/
def sub32 (x y : Nat) : Nat := (2 ^ 32 - y + x) % 2 ^ 32

/-- `struct slab_allocator`, without the lock, the flags and the head of the list. -/
structure SlabAllocator where
  objectSize : Nat
  objectCountPerSlab : Nat
  slabOrder : Nat
  freeObjCount : Nat
  slabCount : Nat

/--
The slab member of `struct page`, and the state. `slab_list` is in the list heap. A page is either
the head of a slab or a tail, so the two members of the inner union do not meet.
-/
structure SlabPage where
  state : PageState
  allocator : Option Nat
  freeObjCount : Nat
  firstFreeIndex : Nat
  tailHead : Option Nat

/-- An allocator, at the address `self`, and the memory it works on. -/
structure Slabs where
  self : Nat
  alloc : SlabAllocator
  pages : Nat → SlabPage
  list : ListPtr → RingLinks ListPtr
  mem : Memory
  base : Nat

/-! ## Setting up -/

/-- The loop of `slab_allocator_init`: the least order whose block is large enough. -/
def findSlabOrder (minSize : Nat) : Nat → Nat → Result Nat
  | 0, _ => .error .outOfFuel
  | fuel + 1, order =>
    if PAGE_SIZE * 2 ^ order < minSize then findSlabOrder minSize fuel (order + 1) else .ok order

/--
`slab_allocator_init`; `none` where it returns false. The fields are 32-bit, the locals 64.
`slab_count` is not written.
-/
def slabAllocatorInit (slabAlloc : SlabAllocator) (objectSizeArg : Nat) :
    Result (Option SlabAllocator) :=
  match alignUp objectSizeArg 16 with
  | none => .ok none
  | some objectSize => do
    let order ← findSlabOrder (objectSize * MIN_OBJ_PER_SLAB) 64 0
    pure (some { slabAlloc with
      objectSize := objectSize % 2 ^ 32
      objectCountPerSlab := PAGE_SIZE * 2 ^ order / objectSize % 2 ^ 32
      slabOrder := order
      freeObjCount := 0 })

namespace Slabs

/-! ## Pages -/

/-- `page_to_virt`. -/
def pageToVirt (s : Slabs) (page : Nat) : Nat := s.base + PAGE_SIZE * page

/-- `virt_to_page`. -/
def virtToPage (s : Slabs) (mem : Nat) : Nat := (mem - s.base) / PAGE_SIZE

/-- Write one `struct page`. -/
def modifyPage (s : Slabs) (page : Nat) (f : SlabPage → SlabPage) : Slabs :=
  { s with pages := Function.update s.pages page (f (s.pages page)) }

/-- Whether a page is one of the `2 ^ order` pages from `head` on. -/
def InBlock (s : Slabs) (head page : Nat) : Prop :=
  head ≤ page ∧ page < head + 2 ^ s.alloc.slabOrder

instance (s : Slabs) (head page : Nat) : Decidable (s.InBlock head page) :=
  inferInstanceAs (Decidable (_ ∧ _))

/--
`alloc_pages(PAGE_STATE_SLAB_HEAD, __ALLOC_ZERO, order)`, with what it finds as an input: the first
page heads the block, the others point at it, the memory is clear and the list element is set up.
-/
def allocPages (s : Slabs) (answer : Option Nat) : Option Nat × Slabs :=
  if MAX_ORDER ≤ s.alloc.slabOrder then (none, s)
  else match answer with
    | none => (none, s)
    | some head =>
      let pages := fun page =>
        if page = head then { s.pages page with state := .slabHead }
        else if s.InBlock head page then
          { s.pages page with state := .slabTail, tailHead := some head }
        else s.pages page
      (some head, { s with
        pages := pages
        mem := s.mem.zero (s.pageToVirt head) (PAGE_SIZE * 2 ^ s.alloc.slabOrder)
        list := Function.update s.list (.node head) ⟨some (.node head), some (.node head)⟩ })

/-- `free_pages`: the pages of the block are in no slab any more. -/
def freePages (s : Slabs) (head : Nat) : Slabs :=
  { s with
    pages := fun page =>
      if s.InBlock head page then { s.pages page with state := .freeListTail } else s.pages page }

/-! ## Allocation -/

/-- The loop of `alloc_slab_page` over all objects but the last. -/
def linkObjects (virt objectSize : Nat) : Nat → Nat → Nat → Memory → Nat × Memory
  | 0, _, objectByteIndex, mem => (objectByteIndex, mem)
  | n + 1, i, objectByteIndex, mem =>
    linkObjects virt objectSize n (i + 1) (objectByteIndex + objectSize)
      (mem.store32 (virt + objectByteIndex) (i + 1))

/-- `alloc_slab_page`. The loop over the tail pages stops one page early. -/
def allocSlabPage (s : Slabs) (answer : Option Nat) : Result (Option Nat × Slabs) :=
  match s.allocPages answer with
  | (none, s) => .ok (none, s)
  | (some head, s) => do
    let s := { s with
      pages := fun page =>
        if head + 1 ≤ page ∧ page < head + (2 ^ s.alloc.slabOrder - 1) then
          { s.pages page with allocator := some s.self }
        else s.pages page }
    let list ← listAdd s.list .head (.node head)
    let s := s.modifyPage head fun page => { page with
      allocator := some s.self
      firstFreeIndex := 0
      freeObjCount := s.alloc.objectCountPerSlab }
    let (last, mem) := linkObjects (s.pageToVirt head) s.alloc.objectSize
      (s.alloc.objectCountPerSlab - 1) 0 0 s.mem
    pure (some head, { s with
      list := list
      alloc := { s.alloc with
        slabCount := add32 s.alloc.slabCount 1
        freeObjCount := add32 s.alloc.freeObjCount s.alloc.objectCountPerSlab }
      mem := mem.store32 (s.pageToVirt head + last) UINT32_MAX })

/-- `get_free_ptr`. The product is checked in 32 bits, the type of the index. -/
def getFreePtr (s : Slabs) (page : Nat) : Result (Option Nat) :=
  let index := (s.pages page).firstFreeIndex
  if index = UINT32_MAX then .ok none
  else if index * s.alloc.objectSize < 2 ^ 32 then
    .ok (some (s.pageToVirt page + index * s.alloc.objectSize))
  else .error .panic

/-- The first part of `slab_alloc`: the slab to take an object from. -/
def pickSlab (s : Slabs) (answer : Option Nat) : Result (Option Nat × Slabs) :=
  if listEmpty s.list .head then s.allocSlabPage answer
  else match (s.list .head).next with
    | some (.node page) => .ok (some page, s)
    | _ => .error .badMemory

/-- One free object less. -/
def countDown (s : Slabs) (page : Nat) : Slabs :=
  let s := { s with alloc := { s.alloc with freeObjCount := sub32 s.alloc.freeObjCount 1 } }
  s.modifyPage page fun page => { page with freeObjCount := sub32 page.freeObjCount 1 }

/-- A slab without free objects leaves the list. -/
def unlistFull (s : Slabs) (page : Nat) : Result Slabs :=
  if (s.pages page).freeObjCount = 0 then do
    let list ← listDelete s.list (.node page)
    pure { s with list := list }
  else .ok s

/-- The second part of `slab_alloc`: take the first free object. -/
def takeObject (s : Slabs) (page : Nat) : Result (Option Nat × Slabs) := do
  let s ← (s.countDown page).unlistFull page
  let result ← s.getFreePtr page
  let next := match result with
    | some result => s.mem.load32 result
    | none => UINT32_MAX
  pure (result, s.modifyPage page fun page => { page with firstFreeIndex := next })

/-- `slab_alloc`. -/
def slabAlloc (s : Slabs) (answer : Option Nat) : Result (Option Nat × Slabs) := do
  match ← s.pickSlab answer with
  | (none, s) => pure (none, s)
  | (some page, s) => s.takeObject page

/-! ## Freeing -/

/-- `slab_head_of`. -/
def slabHeadOf (s : Slabs) (mem : Nat) : Result Nat :=
  let page := s.virtToPage mem
  if (s.pages page).state = .slabHead then .ok page
  else match (s.pages page).tailHead with
    | some head => .ok head
    | none => .error .nullDeref

/-- `get_free_index`, stored in a 32-bit field. -/
def getFreeIndex (s : Slabs) (page freeObject : Nat) : Result Nat :=
  if s.alloc.objectSize = 0 then .error .panic
  else .ok ((freeObject + U64 - s.pageToVirt page) % U64 / s.alloc.objectSize % 2 ^ 32)

/-- The end of `slab_free`: the object becomes the first of the chain. -/
def pushObject (s : Slabs) (head mem : Nat) : Result Slabs := do
  let s := { s with mem := s.mem.store32 mem (s.pages head).firstFreeIndex }
  let index ← s.getFreeIndex head mem
  pure (s.modifyPage head fun page => { page with firstFreeIndex := index })

/-- One free object more. -/
def countUp (s : Slabs) (page : Nat) : Slabs :=
  let s := { s with alloc := { s.alloc with freeObjCount := add32 s.alloc.freeObjCount 1 } }
  s.modifyPage page fun page => { page with freeObjCount := add32 page.freeObjCount 1 }

/-- A slab without live objects is given back. -/
def destroySlab (s : Slabs) (head : Nat) : Result Slabs := do
  let list ← listDelete s.list (.node head)
  let s := { s with
    list := list
    alloc := { s.alloc with
      freeObjCount := sub32 s.alloc.freeObjCount s.alloc.objectCountPerSlab
      slabCount := sub32 s.alloc.slabCount 1 } }
  pure (s.freePages head)

/-- `slab_free`, for an object of this allocator. -/
def slabFree (s : Slabs) (mem : Nat) : Result Slabs := do
  let head ← s.slabHeadOf mem
  if (s.pages head).allocator = some s.self then
    let s := { s with mem := s.mem.zero mem s.alloc.objectSize }
    let s := s.countUp head
    if (s.pages head).freeObjCount ≠ 1 then
      if (s.pages head).freeObjCount = s.alloc.objectCountPerSlab then s.destroySlab head
      else s.pushObject head mem
    else do
      -- the slab was full, and off the list
      let list ← listAdd s.list .head (.node head)
      pushObject { s with list := list } head mem
  else .error .badMemory

end Slabs

end OsKernel.Mm
