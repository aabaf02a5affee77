import OsKernel.Adt.Range
import OsKernel.Lib.List
import OsKernel.Mm.Types

/-!
# The early page allocator (`kernel/mm/early.c`)

Before there is a page allocator, free memory is a set of areas. The first page of an
area holds a `struct freepages_info`, and pages are taken from the area's end. Every
area is on two lists: `g_freepage_list` in the order of addresses, and `g_asc_freelist`
in the order of available pages, so that small areas are used up first.

An area is given by its physical address. The lists live inside the pages that are
handed out, so zeroing a page wipes the `freepages_info` in it. The sums and differences
are of 64-bit words; where a comparison before a subtraction has shown that it is not
negative, natural numbers stand for the words.
-/

namespace OsKernel.Mm

open Adt (Range)

/-- The two lists, the counters, and every `struct freepages_info` in memory. -/
structure Early where
  /-- `g_freepage_list` and the members `list`. -/
  list : ListPtr → RingLinks ListPtr
  /-- `g_asc_freelist` and the members `asc_list`. -/
  ascList : ListPtr → RingLinks ListPtr
  availPageCount : Nat → Nat
  totalPageCount : Nat → Nat
  totalFreePages : Nat
  totalFreePagesRemaining : Nat

namespace Early

/-- Write the two counts of an area. -/
def setPageCounts (s : Early) (info avail total : Nat) : Early :=
  { s with
    availPageCount := Function.update s.availPageCount info avail
    totalPageCount := Function.update s.totalPageCount info total }

/-- Write `avail_page_count`. -/
def setAvail (s : Early) (info avail : Nat) : Early :=
  { s with availPageCount := Function.update s.availPageCount info avail }

/-- `add_to_asc_list`. -/
def addToAscList (s : Early) (fuel info : Nat) : Result Early := do
  let prev ← listForeachPrev s.ascList
    (fun iter => s.availPageCount info < s.availPageCount iter) fuel .head
  let ascList ← listAdd s.ascList prev (.node info)
  pure { s with ascList := ascList }

/-! ## Claiming memory -/

/--
Merging with the area after `prev`. The new area grows by its own size, not by that of the area it
takes in, and the latter stays on `g_asc_freelist`.
-/
def mergeNext (s : Early) (info pageCount : Nat) (prev : ListPtr) : Result Early :=
  match (s.list prev).next with
  | none => .error .nullDeref
  | some .head => .ok s
  | some (.node next) =>
    if (info + s.availPageCount info * PAGE_SIZE) % U64 = next then do
      let s := s.setPageCounts info ((s.availPageCount info + pageCount) % U64)
        ((s.totalPageCount info + pageCount) % U64)
      let list ← listDelete s.list (.node next)
      pure { s with list := list }
    else .ok s

/-- The place of a new area on `g_freepage_list`: the element before it. -/
def findPrev (s : Early) (fuel info pageCount : Nat) (tail : ListPtr) :
    Result (ListPtr × Early) :=
  match tail with
  | .head => .ok (.head, s)
  | .node last =>
    if info < last then do
      let prev ← listForeachPrev s.list (fun iter => info < iter) fuel .head
      let s ← s.mergeNext info pageCount prev
      pure (prev, s)
    else .ok (tail, s)

/-- Whether the area before ends where the new one begins. -/
def endsAt (s : Early) (prev : ListPtr) (info : Nat) : Bool :=
  match prev with
  | .head => false
  | .node prev => (prev + s.availPageCount prev * PAGE_SIZE) % U64 == info

/-- Merging with the area before: it grows where it is. -/
def mergePrev (s : Early) (prev : ListPtr) (pageCount : Nat) : Early :=
  match prev with
  | .head => s
  | .node prev => s.setPageCounts prev ((s.availPageCount prev + pageCount) % U64)
      ((s.totalPageCount prev + pageCount) % U64)

/-- `claim_pages`, up to the lists: the new `struct freepages_info` and the counters. -/
def claimInit (s : Early) (info pageCount : Nat) : Early :=
  let s := { s with
    list := listInit s.list (.node info)
    ascList := listInit s.ascList (.node info)
    totalFreePages := (s.totalFreePages + pageCount) % U64
    totalFreePagesRemaining := (s.totalFreePagesRemaining + pageCount) % U64 }
  s.setPageCounts info pageCount pageCount

/-- `claim_pages`. -/
def claimPages (s : Early) (fuel : Nat) (range : Range) : Result Early :=
  let info := range.front
  let pageCount := pageCount range.size
  let s := s.claimInit info pageCount
  match (s.list .head).prev with
  | none => .error .nullDeref
  | some tail => do
    let (prev, s) ← s.findPrev fuel info pageCount tail
    if s.endsAt prev info then pure (s.mergePrev prev pageCount)
    else
      let list ← listAdd s.list prev (.node info)
      let s := { s with list := list }
      s.addToAscList fuel info

/-! ## Taking pages -/

/-- `list_delete` on both lists. -/
def deleteInfo (s : Early) (info : Nat) : Result Early := do
  let ascList ← listDelete s.ascList (.node info)
  let list ← listDelete s.list (.node info)
  pure { s with list := list, ascList := ascList }

/-- `zero_page` and `zero_multiple_pages`, on the `struct freepages_info`s in the pages. -/
def zeroPages (s : Early) (phys amount : Nat) : Early :=
  let inside (p : Nat) : Bool := phys ≤ p && p < phys + amount * PAGE_SIZE
  let wipe (H : ListPtr → RingLinks ListPtr) : ListPtr → RingLinks ListPtr
    | .head => H .head
    | .node p => if inside p then ⟨none, none⟩ else H (.node p)
  { s with
    list := wipe s.list
    ascList := wipe s.ascList
    availPageCount := fun p => if inside p then 0 else s.availPageCount p
    totalPageCount := fun p => if inside p then 0 else s.totalPageCount p }

/-- The end of both functions: the pages are zeroed and no longer counted. -/
def handOut (s : Early) (phys amount : Nat) : Early :=
  let s := s.zeroPages phys amount
  { s with totalFreePagesRemaining := (s.totalFreePagesRemaining + U64 - amount) % U64 }

/-- `early_alloc_page`. -/
def earlyAllocPage (s : Early) : Result (Nat × Early) :=
  if listEmpty s.ascList .head then .ok (INVALID_PHYS, s)
  else
    match (s.ascList .head).next with
    | some (.node info) => do
      let avail := (s.availPageCount info + U64 - 1) % U64
      let s := s.setAvail info avail
      let s ← if avail = 0 then s.deleteInfo info else pure s
      let freePage := (info + avail * PAGE_SIZE) % U64
      pure (freePage, s.handOut freePage 1)
    | _ => .error .badMemory

/--
The loop body of `early_alloc_large_page`: where the area has room for an aligned block, as far
back as possible, and whether pages are left behind the block. The boundary is computed in 32 bits
and asserted not to be zero.
-/
def fit (s : Early) (allocAmount info : Nat) : Result (Option (Nat × Bool)) :=
  let avail := s.availPageCount info
  if avail < allocAmount then .ok none
  else
    let lastPhys := (info + (avail - allocAmount) * PAGE_SIZE) % U64
    let boundary := allocAmount * PAGE_SIZE % 2 ^ 32
    if boundary = 0 then .error .panic
    else if hasAlign lastPhys boundary then .ok (some (lastPhys, false))
    else
      let lastPhys := alignDown lastPhys boundary
      if lastPhys < info then .ok none else .ok (some (lastPhys, true))

/-- An area that became smaller goes back on `g_asc_freelist`, if it is out of order. -/
def fixAscList (s : Early) (fuel info : Nat) : Result Early :=
  match (s.ascList (.node info)).prev with
  | none => .error .nullDeref
  | some .head => .ok s
  | some (.node prev) =>
    if s.availPageCount info < s.availPageCount prev then do
      let ascList ← listRemove s.ascList (.node info)
      let s := { s with ascList := ascList }
      s.addToAscList fuel info
    else .ok s

/-- The area loses its end from the block on: the element of `g_freepage_list` before the block. -/
def cutFront (s : Early) (fuel info : Nat) : Result (ListPtr × Early) :=
  if s.availPageCount info ≠ 0 then do
    let s ← s.fixAscList fuel info
    pure (.node info, s)
  else
    match (s.list (.node info)).prev with
    | none => .error .nullDeref
    | some prev => do
      let s ← s.deleteInfo info
      pure (prev, s)

/-- What is left behind the block becomes an area of its own. -/
def addBack (s : Early) (fuel newInfo newCount : Nat) (prev : ListPtr) : Result Early :=
  if newCount ≠ 0 then do
    let s := s.setPageCounts newInfo newCount newCount
    let list ← listAdd (listInit s.list (.node newInfo)) prev (.node newInfo)
    let s := { s with list := list, ascList := listInit s.ascList (.node newInfo) }
    s.addToAscList fuel newInfo
  else .ok s

/-- `early_alloc_large_page` where the block is in the middle of the area. -/
def takeMiddle (s : Early) (fuel info freePage allocAmount : Nat) : Result Early := do
  let oldInfoCount := s.availPageCount info
  let avail := pageCount (freePage - info)
  let s := s.setPageCounts info avail ((avail + pageCount allocAmount) % U64)
  let (prev, s) ← s.cutFront fuel info
  let newInfoPhys := (freePage + allocAmount * PAGE_SIZE % 2 ^ 32) % U64
  s.addBack fuel newInfoPhys (oldInfoCount - s.availPageCount info - allocAmount) prev

/-- `early_alloc_large_page` where the block is at the end of the area. -/
def takeEnd (s : Early) (fuel info allocAmount : Nat) : Result Early :=
  let s := s.setAvail info (s.availPageCount info - allocAmount)
  if s.availPageCount info = 0 then s.deleteInfo info else s.fixAscList fuel info

/-- `early_alloc_large_page`. -/
def earlyAllocLargePage (s : Early) (fuel allocAmount : Nat) : Result (Nat × Early) :=
  if listEmpty s.ascList .head then .ok (INVALID_PHYS, s)
  else do
    match ← listForeachFind s.ascList (s.fit allocAmount) fuel .head with
    | none => pure (INVALID_PHYS, s)
    | some (info, freePage, isInMiddle) =>
      if freePage = INVALID_PHYS then pure (INVALID_PHYS, s)
      else
        let s ← if isInMiddle then s.takeMiddle fuel info freePage allocAmount
          else s.takeEnd fuel info allocAmount
        pure (freePage, s.handOut freePage allocAmount)

end Early

end OsKernel.Mm
