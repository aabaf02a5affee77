import OsKernel.Mm.Slab

/-!
# The slab allocators together (`kernel/mm/kmalloc.c`)

`kmalloc` is sixteen slab allocators, one for each size class, at the addresses 0 to 15
of this model; other parts of the kernel have slab allocators of their own at other
addresses. They share the pages and the memory. The list of each allocator is a heap by
itself: no page is on the lists of two allocators at a time.

What an allocator does is in `Mm.Slab`, for one allocator at a time. Here a call first
has to find its allocator: `kmalloc` by the size it is asked for, `slab_free` through the
head of the slab, and `slab_object_size` through the page that the object starts in.
What `alloc_pages` answers is an input, for each order that it may be asked for. Messages
to the log are left out.
-/

namespace OsKernel.Mm

/-- `KMALLOC_MAX`. -/
def KMALLOC_MAX : Nat := 8192

/-- The object sizes that `kmalloc_init` passes on, in its order. -/
def kmallocSizes : List Nat :=
  [16, 32, 64, 96, 128, 192, 256, 384, 512, 768, 1024, 1536, 2048, 4096, 6102, 8192]

/-- The slab allocators, by address, and the memory they work on. -/
structure SlabHeap where
  alloc : Nat → Option SlabAllocator
  list : Nat → ListPtr → RingLinks ListPtr
  pages : Nat → SlabPage
  mem : Memory
  base : Nat
  /-- `kmalloc_is_initialized`. -/
  kmallocIsInitialized : Bool

namespace SlabHeap

/-! ## One allocator of many -/

/-- The allocator at an address, next to the memory. -/
def view (h : SlabHeap) (i : Nat) (a : SlabAllocator) : Slabs :=
  ⟨i, a, h.pages, h.list i, h.mem, h.base⟩

/-- The allocators after a call of one of them. -/
def put (h : SlabHeap) (s : Slabs) : SlabHeap :=
  { h with
    alloc := Function.update h.alloc s.self (some s.alloc)
    list := Function.update h.list s.self s.list
    pages := s.pages
    mem := s.mem }

/-- `virt_to_page`. -/
def virtToPage (h : SlabHeap) (mem : Nat) : Nat := (mem - h.base) / PAGE_SIZE

/-- `slab_alloc`. -/
def slabAlloc (h : SlabHeap) (i : Nat) (answer : Nat → Option Nat) :
    Result (Option Nat × SlabHeap) :=
  match h.alloc i with
  | none => .error .badMemory
  | some a => do
    let (result, s) ← (h.view i a).slabAlloc (answer a.slabOrder)
    pure (result, h.put s)

/-- `slab_head_of`. -/
def slabHeadOf (h : SlabHeap) (mem : Nat) : Result Nat :=
  let page := h.virtToPage mem
  if (h.pages page).state = .slabHead then .ok page
  else match (h.pages page).tailHead with
    | some head => .ok head
    | none => .error .nullDeref

/-- `slab_free`: the allocator is the one that the head of the slab names. -/
def slabFree (h : SlabHeap) (mem : Nat) : Result SlabHeap := do
  let head ← h.slabHeadOf mem
  match (h.pages head).allocator with
  | none => .error .nullDeref
  | some i =>
    match h.alloc i with
    | none => .error .badMemory
    | some a => do
      let s ← (h.view i a).slabFree mem
      pure (h.put s)

/-- `slab_object_size`: the allocator is the one that the page of the object names. -/
def slabObjectSize (h : SlabHeap) : Option Nat → Result Nat
  | none => .error .panic
  | some mem =>
    let page := h.pages (h.virtToPage mem)
    if page.state = .slabHead ∨ page.state = .slabTail then
      match page.allocator with
      | none => .error .nullDeref
      | some i =>
        match h.alloc i with
        | none => .error .badMemory
        | some a => .ok a.objectSize
    else .error .panic

/-! ## `kmalloc` -/

/-- The calls of `slab_allocator_init` in `kmalloc_init`, from one index on. -/
def initSlabs : List Nat → Nat → SlabHeap → Result SlabHeap
  | [], _, h => .ok h
  | size :: sizes, index, h =>
    match h.alloc index with
    | none => .error .outOfBounds
    | some a₀ => do
      match ← slabAllocatorInit a₀ size with
      | none => .error .panic
      | some a =>
        initSlabs sizes (index + 1) { h with
          alloc := Function.update h.alloc index (some a)
          list := Function.update h.list index
            (Function.update (h.list index) .head ⟨some .head, some .head⟩) }

/-- `kmalloc_init`. -/
def kmallocInit (h : SlabHeap) : Result SlabHeap := do
  let h ← initSlabs kmallocSizes 0 h
  pure { h with kmallocIsInitialized := true }

/-- The loop of `kmalloc` over the size classes that are left. -/
def findSlab (h : SlabHeap) (size : Nat) : List Nat → Result Nat
  | [] => .error .outOfBounds
  | i :: rest =>
    match h.alloc i with
    | none => .error .outOfBounds
    | some a => if a.objectSize < size then h.findSlab size rest else .ok i

/-- `kmalloc`. -/
def kmalloc (h : SlabHeap) (size : Nat) (answer : Nat → Option Nat) :
    Result (Option Nat × SlabHeap) :=
  if h.kmallocIsInitialized then
    if size = 0 then .ok (none, h)
    else if size > KMALLOC_MAX then .ok (none, h)
    else do
      let i ← h.findSlab size (List.range 16)
      h.slabAlloc i answer
  else .error .panic

/-- `kfree`. -/
def kfree (h : SlabHeap) (buffer : Nat) : Result SlabHeap :=
  if h.kmallocIsInitialized then h.slabFree buffer else .error .panic

/-- The end of `krealloc`, with a new buffer at hand. -/
def moveTo (h : SlabHeap) (buffer ret bufferSize : Nat) : Result (Option Nat × SlabHeap) := do
  let h ← kfree { h with mem := h.mem.copy ret buffer bufferSize } buffer
  pure (some ret, h)

/-- `krealloc`; `none` for a buffer that is NULL. -/
def krealloc (h : SlabHeap) (buffer : Option Nat) (size : Nat) (answer : Nat → Option Nat) :
    Result (Option Nat × SlabHeap) :=
  if h.kmallocIsInitialized then
    match buffer with
    | none => if size = 0 then .ok (none, h) else h.kmalloc size answer
    | some buf =>
      if size = 0 then do
        let h ← h.kfree buf
        pure (none, h)
      else do
        let bufferSize ← h.slabObjectSize buffer
        if size ≤ bufferSize then pure (buffer, h)
        else
          match ← h.kmalloc size answer with
          | (none, h) => pure (none, h)
          | (some ret, h) => h.moveTo buf ret bufferSize
  else .error .panic

end SlabHeap

end OsKernel.Mm
