import OsKernel.Base.Fault
import OsKernel.Mm.Types

/-!
# The page allocator (`kernel/mm/page_alloc.c`, `kernel/mm/section.c`)

Physical memory is cut into *sections*, each in one *zone*. A section keeps one
freelist per order; a free block of order `k` is `2 ^ k` consecutive `struct page`s
whose first page heads the block and whose other pages point back at the head.
Allocation takes a block off a list and splits it, freeing merges a run of pages
with its neighbours and cuts the result into blocks again.

A `struct page *` is the index of the page in the page table `PAGE_OFFSET`, which
is its pfn. A freelist is the list of the head pages on it, front first: `list_add`
puts a page in front and `list_delete` takes it off whichever list holds it. The
counters are natural numbers, bounded by the number of pages; the two places where
the source relies on 64-bit wrap-around say so.
-/

namespace OsKernel.Mm

/-- `MAX_ORDER` of the x86_64 port. -/
def MAX_ORDER : Nat := 21

/-- `enum page_state`. -/
inductive PageState where
  | freeListTail
  | freeListHead
  | systemCrucial
  | lruCache
  | slabHead
  | slabTail
  | table
  | largeHead
  | largeTail
  | used
  deriving DecidableEq, Repr

/--
The union of `struct page`, as the member that was stored last. A `delayed_free_list`
or `slab_list` that was just set up by `list_init` links to itself, which is what
storing the member says; nothing here puts such a node on a list.
-/
inductive PageData where
  | freelistHead (order : Nat)
  | freelistTail (head : Nat)
  | slabHead
  | slabTail (head : Nat)
  | table (refcount : Int)
  | largeHead (pageRefcount refcount : Int) (level : Nat)
  | largeTail (refcount : Int) (head : Nat)
  | used (refcount : Int)
  deriving DecidableEq, Repr

/-- `struct page`: its state, the index of its section, and the union. -/
structure Page where
  state : PageState
  sect : Nat
  data : PageData
  deriving DecidableEq, Repr

/-- `struct page_freelist`. -/
structure PageFreelist where
  pageList : List Nat
  count : Nat

/-- `struct page_section`. The lock is an oracle of the calls that try to take it. -/
structure PageSection where
  zone : Nat
  front : Nat
  size : Nat
  pfn : Nat
  freelistList : Nat → PageFreelist
  minOrder : Nat
  maxOrder : Nat
  totalFree : Nat

/-- Write the freelist of one order of a section. -/
def PageSection.setFreelist (x : PageSection) (order : Nat) (fl : PageFreelist) : PageSection :=
  { x with freelistList := Function.update x.freelistList order fl }

/-- `struct page_zone`. -/
structure PageZone where
  sectionList : List Nat
  totalFree : Nat

/-- `struct largepage_level_info`, the fields the allocator reads. -/
structure LargepageLevelInfo where
  order : Nat
  level : Nat
  isSupported : Bool

/--
The allocator's memory. `zones` are numbered in fallback order: zone `z` falls back
to `z + 1`, the last of the `zoneCount` zones has no fallback, `page_zone_iterstart`
is zone 0 and `page_zone_default` is zone `zoneDefault`.
-/
structure PageAlloc where
  pages : Nat → Page
  sections : Nat → PageSection
  sectionCount : Nat
  zones : Nat → PageZone
  zoneCount : Nat
  zoneDefault : Nat
  pageEnd : Nat

namespace PageAlloc

/-! ## Small accessors and updates -/

/-- Write one `struct page`. -/
def modifyPage (s : PageAlloc) (page : Nat) (f : Page → Page) : PageAlloc :=
  { s with pages := Function.update s.pages page (f (s.pages page)) }

/-- `page_set_state`. -/
def pageSetState (s : PageAlloc) (page : Nat) (state : PageState) : PageAlloc :=
  s.modifyPage page fun pg => { pg with state := state }

/-- Store a member of a page's union. -/
def setData (s : PageAlloc) (page : Nat) (data : PageData) : PageAlloc :=
  s.modifyPage page fun pg => { pg with data := data }

/-- `for (iter = first; iter != first + count; iter++) body(iter)`. -/
def forPages (body : PageAlloc → Nat → PageAlloc) (s : PageAlloc) (first : Nat) : Nat → PageAlloc
  | 0 => s
  | count + 1 => forPages body (body s first) (first + 1) count

/-- Write one section. -/
def setSection (s : PageAlloc) (sec : Nat) (x : PageSection) : PageAlloc :=
  { s with sections := Function.update s.sections sec x }

/-- `atomic_fetch_add(&section->zone->total_free, …)` and `atomic_fetch_sub`. -/
def setZoneFree (s : PageAlloc) (zone : Nat) (free : Nat) : PageAlloc :=
  { s with zones := Function.update s.zones zone { s.zones zone with totalFree := free } }

/-- `page_to_phys`, linear within the section of the page. -/
def pageToPhys (s : PageAlloc) (page : Nat) : Nat :=
  let section_ := s.sections (s.pages page).sect
  section_.front + (page - section_.pfn) * PAGE_SIZE

/-! ## Freelists -/

/-- `list_init` and `list_add` of a head page, with the block's order and the list's count. -/
def linkHead (s : PageAlloc) (sec order page : Nat) : PageAlloc :=
  let section_ := s.sections sec
  let freelist := section_.freelistList order
  let s := s.modifyPage page fun pg =>
    { pg with state := .freeListHead, data := .freelistHead order }
  s.setSection sec (section_.setFreelist order
    { pageList := page :: freelist.pageList, count := freelist.count + 1 })

/-- `add_to_freelist_order`. -/
def addToFreelistOrder (s : PageAlloc) (sec order page : Nat) : PageAlloc :=
  let s := s.linkHead sec order page
  let s := forPages (fun s iter => s.modifyPage iter fun pg =>
    { pg with state := .freeListTail, data := .freelistTail page }) s (page + 1) (2 ^ order - 1)
  let section_ := s.sections sec
  let s := s.setZoneFree section_.zone (add64 (s.zones section_.zone).totalFree (2 ^ order))
  s.setSection sec { section_ with totalFree := add64 section_.totalFree (2 ^ order) }

/-- `add_to_freelist_order_from_higher`: the pages are tail pages of a block already. -/
def addToFreelistOrderFromHigher (s : PageAlloc) (sec order page : Nat) : PageAlloc :=
  let s := s.linkHead sec order page
  forPages (fun s iter => s.setData iter (.freelistTail page)) s (page + 1) (2 ^ order - 1)

/-- Whether a page is on the freelist of some section and order. -/
def onFreelist (s : PageAlloc) (page : Nat) : Bool :=
  (List.range s.sectionCount).any fun sec =>
    (List.range MAX_ORDER).any fun order =>
      ((s.sections sec).freelistList order).pageList.contains page

/-- `list_delete` of a head page: the list that holds it loses it. -/
def listDelete (s : PageAlloc) (page : Nat) : Result PageAlloc :=
  if s.onFreelist page then
    .ok { s with
      sections := fun sec => { s.sections sec with
        freelistList := fun order =>
          let fl := (s.sections sec).freelistList order
          { fl with pageList := fl.pageList.erase page } } }
  else .error .badMemory

/-- The first order from `order` up, `n` of them looked at, whose freelist is not empty. -/
def firstNonEmptyUp (section_ : PageSection) (order : Nat) : Nat → Nat
  | 0 => order
  | n + 1 =>
    if (section_.freelistList order).count ≠ 0 then order
    else firstNonEmptyUp section_ (order + 1) n

/-- One above the first order below `order` whose freelist is not empty, zero if there is none. -/
def aboveNonEmptyDown (section_ : PageSection) : Nat → Nat
  | 0 => 0
  | order + 1 =>
    if (section_.freelistList order).count ≠ 0 then order + 1
    else aboveNonEmptyDown section_ order

/-- A section without free pages goes back to the smallest bounds. -/
def resetOrders (section_ : PageSection) : PageSection :=
  if section_.totalFree = 0 then { section_ with minOrder := 0, maxOrder := 0 } else section_

/-- `min_order` moves up past the freelists that are empty now. -/
def settleMinOrder (section_ : PageSection) (order : Nat) : PageSection :=
  if section_.minOrder = order then
    { section_ with minOrder := firstNonEmptyUp section_ order (MAX_ORDER - order) }
  else section_

/-- `max_order` moves down, but only if it was `order` itself and not one above it. -/
def settleMaxOrder (section_ : PageSection) (order : Nat) : PageSection :=
  if section_.maxOrder = order then
    { section_ with maxOrder := aboveNonEmptyDown section_ order }
  else section_

/-- `section->min_order` and `section->max_order` once a page left the list of `order`. -/
def settleOrders (section_ : PageSection) (order : Nat) : PageSection :=
  let section_ := resetOrders section_
  if (section_.freelistList order).count = 0 then
    settleMaxOrder (settleMinOrder section_ order) order
  else section_

/-- `take_off_freelist_to_add_later`. -/
def takeOffFreelistToAddLater (s : PageAlloc) (sec order page : Nat) : Result PageAlloc := do
  let s ← s.listDelete page
  let section_ := s.sections sec
  let freelist := section_.freelistList order
  let section_ := section_.setFreelist order { freelist with count := sub64 freelist.count 1 }
  pure (s.setSection sec (settleOrders section_ order))

/-- `take_off_freelist_order`. -/
def takeOffFreelistOrder (s : PageAlloc) (sec order page removePageOrder : Nat) :
    Result PageAlloc :=
  let section_ := s.sections sec
  let s := s.setZoneFree section_.zone
    (sub64 (s.zones section_.zone).totalFree (2 ^ removePageOrder))
  let s := s.setSection sec
    { section_ with totalFree := sub64 section_.totalFree (2 ^ removePageOrder) }
  s.takeOffFreelistToAddLater sec order page

/-- `get_from_freelist_order`. -/
def getFromFreelistOrder (s : PageAlloc) (sec order pageRemoveOrder : Nat) :
    Result (Option Nat × PageAlloc) :=
  if MAX_ORDER ≤ order then .error .outOfBounds
  else
    let freelist := (s.sections sec).freelistList order
    if freelist.count = 0 then .ok (none, s)
    else
      match freelist.pageList with
      | [] => .error .badMemory
      | page :: _ => do
        let s ← s.takeOffFreelistOrder sec order page pageRemoveOrder
        pure (some page, s)

/-! ## Freeing a run -/

/-- The highest order from `order` down whose blocks fit in `avail` pages. -/
def orderFitting (avail : Nat) : Nat → Option Nat
  | 0 => if 1 ≤ avail then some 0 else none
  | order + 1 => if 2 ^ (order + 1) ≤ avail then some (order + 1) else orderFitting avail order

/-- The bounds update that closes both `free_range_of_pages` and the splitting of a block. -/
def widenOrders (section_ : PageSection) (order : Nat) : PageSection :=
  let section_ :=
    if section_.minOrder > order then { section_ with minOrder := order } else section_
  if section_.maxOrder ≤ order then { section_ with maxOrder := order + 1 } else section_

/-- The loop of `free_range_of_pages`: `avail` pages from `page` on, cut into blocks. -/
def freeRangeLoop (s : PageAlloc) (sec : Nat) : Nat → Nat → Nat → Nat → Result PageAlloc
  | 0, _, _, _ => .error .outOfFuel
  | fuel + 1, page, order, avail =>
    let s := s.addToFreelistOrder sec order page
    let avail := avail - 2 ^ order
    if avail = 0 then .ok (s.setSection sec (widenOrders (s.sections sec) order))
    else
      match orderFitting avail order with
      | none => .error .outOfBounds
      | some order' => freeRangeLoop s sec fuel (page + 2 ^ order) order' avail

/-- `free_range_of_pages`. An empty run leaves `order` at -1 and indexes the freelists with it. -/
def freeRangeOfPages (s : PageAlloc) (page sec amount : Nat) : Result PageAlloc :=
  match orderFitting amount (MAX_ORDER - 1) with
  | none => .error .outOfBounds
  | some order => freeRangeLoop s sec amount page order amount

/-! ## Allocation -/

/--
`setup_pages_off_freelist`. In the `PAGE_STATE_USED` case the source's loop runs over
`iter` but writes `page`, so only the first page of the block gets the state.
-/
def setupPagesOffFreelist (s : PageAlloc) (page order : Nat) : PageState → Result PageAlloc
  | .used => .ok (forPages (fun s _ => s.pageSetState page .used) s page (2 ^ order))
  | .slabHead =>
    let s := s.pageSetState page .slabHead
    .ok (forPages (fun s iter => s.modifyPage iter fun pg =>
      { pg with state := .slabTail, data := .slabTail page }) s (page + 1) (2 ^ order - 1))
  | .table => .ok (s.pageSetState page .table)
  | .largeHead =>
    let s := s.pageSetState page .largeHead
    .ok (forPages (fun s iter => s.modifyPage iter fun pg =>
      { pg with state := .largeTail, data := .largeTail 1 page }) s (page + 1) (2 ^ order - 1))
  | _ => .error .panic

/-- Splitting: `while (alloced_order > order)`, `n` orders are left to go down. -/
def splitDown (s : PageAlloc) (sec page order : Nat) : Nat → PageAlloc
  | 0 => s
  | n + 1 =>
    let s := s.addToFreelistOrderFromHigher sec (order + n) (page + 2 ^ (order + n))
    splitDown s sec page order n

/-- The scan of one section's freelists from `allocedOrder` up to its `max_order`. -/
def scanSection (s : PageAlloc) (sec order : Nat) : Nat → Nat → Result (Option (Nat × Nat) × PageAlloc)
  | _, 0 => .ok (none, s)
  | allocedOrder, n + 1 => do
    let (page, s') ← s.getFromFreelistOrder sec allocedOrder order
    match page with
    | some page => pure (some (page, allocedOrder), s')
    | none => scanSection s' sec order (allocedOrder + 1) n

/-- The part of `try_alloc_pages_from_zone` after `done:`, under the section's lock. -/
def finishAlloc (s : PageAlloc) (sec page order allocedOrder : Nat) : PageAlloc :=
  let s := s.splitDown sec page order (allocedOrder - order)
  s.setSection sec (widenOrders (s.sections sec) order)

/-- The loop over a zone's sections; `lockFails sec` says the try-lock of `sec` fails. -/
def tryAllocFromSections (s : PageAlloc) (lockFails : Nat → Bool) (order : Nat)
    (state : PageState) : List Nat → Result (Option Nat × PageAlloc)
  | [] => .ok (none, s)
  | sec :: rest =>
    if lockFails sec then tryAllocFromSections s lockFails order state rest
    else do
      let start := max order (s.sections sec).minOrder
      let (found, s') ← s.scanSection sec order start ((s.sections sec).maxOrder - start)
      match found with
      | none => tryAllocFromSections s' lockFails order state rest
      | some (page, allocedOrder) =>
        let s'' ← (s'.finishAlloc sec page order allocedOrder).setupPagesOffFreelist page order state
        pure (some page, s'')

/-- `try_alloc_pages_from_zone`. -/
def tryAllocPagesFromZone (s : PageAlloc) (lockFails : Nat → Bool) (zone order : Nat)
    (state : PageState) : Result (Option Nat × PageAlloc) :=
  if (s.zones zone).totalFree < 2 ^ order then .ok (none, s)
  else s.tryAllocFromSections lockFails order state (s.zones zone).sectionList

/--
`setup_alloced_page`. As in `setupPagesOffFreelist`, the `PAGE_STATE_USED` loop writes
`page`, not `iter`. `largeinfo` is NULL for `alloc_pages`.
-/
def setupAllocedPage (s : PageAlloc) (page : Nat) (state : PageState) (order : Nat)
    (largeinfo : Option LargepageLevelInfo) : Result PageAlloc :=
  match state with
  | .used => .ok (forPages (fun s _ => s.setData page (.used 1)) s page (2 ^ order))
  | .slabHead => .ok (s.setData page .slabHead)
  | .table => .ok (s.setData page (.table 0))
  | .largeHead =>
    match largeinfo with
    | none => .error .nullDeref
    | some info => .ok (s.setData page (.largeHead 1 1 info.level))
  | _ => .error .panic

/-- The fallback loop of `alloc_pages`, over the zones still to be tried. -/
def allocFromZones (s : PageAlloc) (lockFails : Nat → Bool) (state : PageState) (order : Nat) :
    List Nat → Result (Option Nat × PageAlloc)
  | [] => .ok (none, s)
  | zone :: rest => do
    let (page, s') ← s.tryAllocPagesFromZone lockFails zone order state
    match page with
    | none => allocFromZones s' lockFails state order rest
    | some page =>
      let s'' ← s'.setupAllocedPage page state order none
      pure (some page, s'')

/-- A zone and the zones it falls back to. -/
def zonesFrom (s : PageAlloc) (zone : Nat) : List Nat :=
  (List.range s.zoneCount).drop zone

/-- `alloc_pages`. -/
def allocPages (s : PageAlloc) (lockFails : Nat → Bool) (state : PageState) (order : Nat) :
    Result (Option Nat × PageAlloc) :=
  if MAX_ORDER ≤ order then .ok (none, s)
  else s.allocFromZones lockFails state order (s.zonesFrom s.zoneDefault)

/-! ## Large pages -/

/-- The carving path of `get_large_from_freelist_order`, for a block above the wanted order. -/
def carveLarge (s : PageAlloc) (sec freelistOrder largepageOrder head : Nat) :
    Result (Option Nat × PageAlloc) := do
  let pagePhys := s.pageToPhys head
  let align := PAGE_SIZE * 2 ^ largepageOrder
  let s ← s.takeOffFreelistOrder sec freelistOrder head freelistOrder
  if hasAlign pagePhys align then
    carveTail s head
  else
    match alignUp pagePhys align with
    | none => pure (none, s)
    | some newPhys =>
      let page := head + (newPhys - pagePhys) / PAGE_SIZE
      let s ← s.freeRangeOfPages head sec (page - head)
      carveTail s page
where
  /-- Set up the large page and free what is left behind it. -/
  carveTail (s : PageAlloc) (page : Nat) : Result (Option Nat × PageAlloc) := do
    let s ← s.setupPagesOffFreelist page largepageOrder .largeHead
    let begin_ := page + 2 ^ largepageOrder
    let count := head + 2 ^ freelistOrder - begin_
    if count ≠ 0 then
      let s ← s.freeRangeOfPages begin_ sec count
      pure (some page, s)
    else pure (some page, s)

/-- The list walk of `get_large_from_freelist_order` at the wanted order. -/
def pickAligned (s : PageAlloc) (align : Nat) : List Nat → Option Nat
  | [] => none
  | page :: rest => if hasAlign (s.pageToPhys page) align then some page else pickAligned s align rest

/-- `get_large_from_freelist_order`. -/
def getLargeFromFreelistOrder (s : PageAlloc) (sec freelistOrder largepageOrder : Nat) :
    Result (Option Nat × PageAlloc) :=
  if MAX_ORDER ≤ freelistOrder then .error .outOfBounds
  else
    let freelist := (s.sections sec).freelistList freelistOrder
    if freelist.count = 0 then .ok (none, s)
    else
      match freelist.pageList with
      | [] => .error .badMemory
      | head :: rest =>
        if largepageOrder ≠ freelistOrder then s.carveLarge sec freelistOrder largepageOrder head
        else
          match s.pickAligned (PAGE_SIZE * 2 ^ largepageOrder) (head :: rest) with
          | none => .ok (none, s)
          | some page => do
            let s ← s.takeOffFreelistOrder sec freelistOrder page freelistOrder
            let s ← s.setupPagesOffFreelist page largepageOrder .largeHead
            pure (some page, s)

/-- The scan of one section's freelists for a large page. -/
def scanSectionLarge (s : PageAlloc) (sec order : Nat) : Nat → Nat → Result (Option Nat × PageAlloc)
  | _, 0 => .ok (none, s)
  | allocedOrder, n + 1 => do
    let (page, s') ← s.getLargeFromFreelistOrder sec allocedOrder order
    match page with
    | some page => pure (some page, s')
    | none => scanSectionLarge s' sec order (allocedOrder + 1) n

/-- The loop over a zone's sections of `try_alloc_large_page_from_zone`. -/
def tryAllocLargeFromSections (s : PageAlloc) (lockFails : Nat → Bool) (order : Nat) :
    List Nat → Result (Option Nat × PageAlloc)
  | [] => .ok (none, s)
  | sec :: rest =>
    if lockFails sec then tryAllocLargeFromSections s lockFails order rest
    else do
      let start := max order (s.sections sec).minOrder
      let (page, s') ← s.scanSectionLarge sec order start ((s.sections sec).maxOrder - start)
      match page with
      | none => tryAllocLargeFromSections s' lockFails order rest
      | some page => pure (some page, s')

/-- `try_alloc_large_page_from_zone`. -/
def tryAllocLargePageFromZone (s : PageAlloc) (lockFails : Nat → Bool) (zone order : Nat) :
    Result (Option Nat × PageAlloc) :=
  if (s.zones zone).totalFree < 2 ^ order then .ok (none, s)
  else s.tryAllocLargeFromSections lockFails order (s.zones zone).sectionList

/-- The fallback loop of `alloc_large_page`. -/
def allocLargeFromZones (s : PageAlloc) (lockFails : Nat → Bool) (info : LargepageLevelInfo) :
    List Nat → Result (Option Nat × PageAlloc)
  | [] => .ok (none, s)
  | zone :: rest => do
    let (page, s') ← s.tryAllocLargePageFromZone lockFails zone info.order
    match page with
    | none => allocLargeFromZones s' lockFails info rest
    | some page =>
      let s'' ← s'.setupAllocedPage page .largeHead info.order (some info)
      pure (some page, s'')

/-- `alloc_large_page`; `info` is the entry of `largepage_level_info_list` for the level. -/
def allocLargePage (s : PageAlloc) (lockFails : Nat → Bool) (info : LargepageLevelInfo) :
    Result (Option Nat × PageAlloc) :=
  if !info.isSupported then .ok (none, s)
  else if MAX_ORDER ≤ info.order then .ok (none, s)
  else s.allocLargeFromZones lockFails info (s.zonesFrom 0)

/-! ## Freeing -/

/-- `freelist_tail.head` of a page. -/
def tailHead (s : PageAlloc) (page : Nat) : Result Nat :=
  match (s.pages page).data with
  | .freelistTail head => .ok head
  | _ => .error .badMemory

/-- `freelist_head.order` of a page. -/
def headOrder (s : PageAlloc) (page : Nat) : Result Nat :=
  match (s.pages page).data with
  | .freelistHead order => .ok order
  | _ => .error .badMemory

/-- The first half of `free_amount_of_pages`: merge with the block in front of the run. -/
def mergePrev (s : PageAlloc) (sec page amount : Nat) : Result (Nat × Nat × PageAlloc) :=
  -- page_pfn != 0: there is a page of the section in front of this one
  if sub64 page (s.sections sec).pfn = 0 then .ok (page, amount, s)
  else
    match (s.pages (page - 1)).state with
    | .freeListTail => do
      let freePage ← s.tailHead (page - 1)
      let order ← s.headOrder freePage
      let s ← s.takeOffFreelistToAddLater sec order freePage
      -- `amount += (uint64_t)(page - free_page)` wraps when the pointer leads forward
      pure (freePage, (amount + sub64 page freePage) % U64, s)
    | .freeListHead => do
      let order ← s.headOrder (page - 1)
      let s ← s.takeOffFreelistToAddLater sec order (page - 1)
      pure (page - 1, (amount + 1) % U64, s)
    | _ => .ok (page, amount, s)

/-- The second half: merge with the block behind the run. -/
def mergeNext (s : PageAlloc) (sec endPage amount : Nat) : Result (Nat × PageAlloc) :=
  if endPage < s.pageEnd ∧ (s.pages endPage).state = .freeListHead then do
    let order ← s.headOrder endPage
    let s ← s.takeOffFreelistToAddLater sec order endPage
    pure ((amount + 2 ^ order) % U64, s)
  else .ok (amount, s)

/-- `free_amount_of_pages`. -/
def freeAmountOfPages (s : PageAlloc) (page amount : Nat) : Result PageAlloc := do
  let sec := (s.pages page).sect
  let (freePage, amount, s) ← s.mergePrev sec page amount
  let (amount, s) ← s.mergeNext sec ((freePage + amount) % U64) amount
  s.freeRangeOfPages freePage sec amount

/-- `REFCOUNT_MAX`. -/
def REFCOUNT_MAX : Int := 2 ^ 31 - 1

/--
`page->largehead.page_refcount`. It is the first field of its member, as `refcount` is of
`largetail`, `used` and `table`, so it names the count of a page in any of these forms.
-/
def pageRefcount (s : PageAlloc) (page : Nat) : Result Int :=
  match (s.pages page).data with
  | .largeHead count _ _ => .ok count
  | .largeTail count _ => .ok count
  | .used count => .ok count
  | .table count => .ok count
  | _ => .error .badMemory

/-- Store the count read by `pageRefcount`. -/
def setPageRefcount (s : PageAlloc) (page : Nat) (count : Int) : PageAlloc :=
  match (s.pages page).data with
  | .largeHead _ refcount level => s.setData page (.largeHead count refcount level)
  | .largeTail _ head => s.setData page (.largeTail count head)
  | .used _ => s.setData page (.used count)
  | .table _ => s.setData page (.table count)
  | _ => s

/-- `ref_down` of a page's count: whether it was the last reference. -/
def refDown (s : PageAlloc) (page : Nat) : Result (Bool × PageAlloc) := do
  let old ← s.pageRefcount page
  if old < 1 ∨ old = REFCOUNT_MAX then .error .panic
  else pure (old == 1, s.setPageRefcount page (old - 1))

/-- The inner loop of `free_large_page`: the run of last references from `iter` on. -/
def dropRun (s : PageAlloc) : Nat → Nat → Result (Nat × PageAlloc)
  | iter, 0 => .ok (iter, s)
  | iter, n + 1 => do
    let (last, s) ← s.refDown iter
    if last then dropRun s (iter + 1) n else pure (iter, s)

/-- The outer loop of `free_large_page`. -/
def freeLargeLoop (end_ : Nat) : Nat → PageAlloc → Nat → Result PageAlloc
  | 0, s, page => if page < end_ then .error .outOfFuel else .ok s
  | fuel + 1, s, page =>
    if page < end_ then do
      let (last, s) ← s.refDown page
      if last then
        let (iter, s) ← s.dropRun (page + 1) (end_ - (page + 1))
        let s ← s.freeAmountOfPages page (iter - page)
        freeLargeLoop end_ fuel s (iter + 1)
      else freeLargeLoop end_ fuel s (page + 1)
    else .ok s

/-- `free_large_page`; `levelOrder` reads the order out of `largepage_level_info_list`. -/
def freeLargePage (s : PageAlloc) (levelOrder : Nat → Nat) (head : Nat) : Result PageAlloc :=
  if (s.pages head).state ≠ .largeHead then .error .panic
  else
    match (s.pages head).data with
    | .largeHead _ _ level =>
      let pageCount := 2 ^ levelOrder level
      freeLargeLoop (head + pageCount) pageCount s head
    | _ => .error .badMemory

/-- `free_pages`. What is passed on to `free_amount_of_pages` is the order, not the page count. -/
def freePages (s : PageAlloc) (levelOrder : Nat → Nat) (page order : Nat) : Result PageAlloc :=
  if MAX_ORDER ≤ order then .ok s
  else if (s.pages page).state = .largeHead then
    if order ≠ 0 then .ok s else s.freeLargePage levelOrder page
  else s.freeAmountOfPages page order

end PageAlloc

end OsKernel.Mm
