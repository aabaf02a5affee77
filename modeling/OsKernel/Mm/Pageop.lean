import OsKernel.Adt.Range
import OsKernel.Base.Effect
import OsKernel.Lib.List
import OsKernel.Mm.PageAlloc

/-!
# Page operations (`kernel/mm/pageop.c`, `arch/x86_64/mm/tlb.c`)

While page tables are changed, a *pageop* gathers what has to be done once the change is
over: the addresses to flush from the TLB, and the pages to free. The addresses are one
range. A request right beside it makes it longer; any other request has the pageop
finished first and starts a new range.

The list of the pages to free runs through the `struct page`s themselves, and `free_page`
writes its own links where the list had its links. It is a parameter of the operations, for it
works for few pages only: it is `free_pages` with order 0, which hands on a run of no pages, and
with no free block in front of the page such a run is an index in front of the freelists.

A log records what a run did: which ranges were asked for, the range at each
`pageop_finish`, which pages were queued and freed, and whose links were read on the way.
-/

namespace OsKernel.Mm

open Adt (Range)

/-- The parts of all `struct page`s that a pageop uses, and the head of its list. -/
structure PageStructs where
  /-- `pageop->delayed_free`, and the member `delayed_free_list` of each page. -/
  list : ListPtr → RingLinks ListPtr
  /-- The allocator's view of the pages. -/
  alloc : PageAlloc
  /-- `used.refcount`, which is where `table.refcount` is too. -/
  refcount : Nat → Int
  /-- `largehead.refcount`. -/
  largeRefcount : Nat → Int

namespace PageStructs

/-- `page_get_state`. -/
def state (s : PageStructs) (page : Nat) : PageState := (s.alloc.pages page).state

/-- The links once the allocator has changed: a page that it has written to has lost them. -/
def linksAfter (s : PageStructs) (alloc : PageAlloc) : ListPtr → RingLinks ListPtr
  | .head => s.list .head
  | .node page => if alloc.pages page = s.alloc.pages page then s.list (.node page) else ⟨none, none⟩

/-- `free_page`. -/
def freePage (levelOrder : Nat → Nat) (page : Nat) (s : PageStructs) : Result PageStructs :=
  (s.alloc.freePages levelOrder page 0).map fun alloc =>
    { s with alloc := alloc, list := s.linksAfter alloc }

end PageStructs

/-- What a run does. -/
inductive PageopEvent where
  /-- The range has been set up for a request. -/
  | named (range : Range)
  /-- `pageop_finish`, at this flush range. -/
  | finish (range : Range)
  | queue (page : Nat)
  /-- A link of the page is read. -/
  | read (page : Nat)
  | free (page : Nat)
  deriving DecidableEq

/-- `struct pageop`, the memory that its list runs through, and the log. -/
structure Pageop extends PageStructs where
  flushRange : Range
  /-- `get_cpu_info()->pagemap == pageop->pagemap`. -/
  isCurrent : Bool
  log : List PageopEvent

namespace Pageop

def record (event : PageopEvent) : Effect Pageop Unit :=
  fun s => (.ok (), { s with log := s.log ++ [event] })

theorem record_run (event : PageopEvent) (s : Pageop) :
    record event s = (.ok (), { s with log := s.log ++ [event] }) := rfl

def setFlushRange (range : Range) : Effect Pageop Unit :=
  fun s => (.ok (), { s with flushRange := range })

/-- A change of the links that may fail. -/
def changeLinks (f : (ListPtr → RingLinks ListPtr) → Result (ListPtr → RingLinks ListPtr)) :
    Effect Pageop Unit := fun s =>
  match f s.list with
  | .ok list => (.ok (), { s with list := list })
  | .error e => (.error e, s)

variable {s : Pageop}

theorem changeLinks_ok {list : ListPtr → RingLinks ListPtr}
    {f : (ListPtr → RingLinks ListPtr) → Result (ListPtr → RingLinks ListPtr)}
    (h : f s.list = .ok list) : changeLinks f s = (.ok (), { s with list := list }) := by
  unfold changeLinks
  rw [h]

/-- The link `next` of an element, which is in memory whether the page is in use or not. -/
def readNext (elem : ListPtr) : Effect Pageop ListPtr := fun s =>
  match (s.list elem).next with
  | some next => (.ok next, s)
  | none => (.error .nullDeref, s)

theorem readNext_ok {elem next : ListPtr} (h : (s.list elem).next = some next) :
    readNext elem s = (.ok next, s) := by
  unfold readNext
  rw [h]

/-- `list_next`, and `list_head` if the element is the head. -/
def listNext : ListPtr → Effect Pageop ListPtr
  | .head => readNext .head
  | .node page => do
    record (.read page)
    readNext (.node page)

theorem listNext_empty (h : (s.list .head).next = some .head) :
    listNext .head s = (.ok .head, s) := readNext_ok h

section Finish

-- what `free_page` does to the `struct page`s
variable (free : Nat → PageStructs → Result PageStructs) {fuel : Nat}

/-! ## Finishing -/

/-- A change of the `struct page`s that may fail. -/
def changeStructs (f : PageStructs → Result PageStructs) : Effect Pageop Unit := fun s =>
  match f s.toPageStructs with
  | .ok structs => (.ok (), { s with toPageStructs := structs })
  | .error e => (.error e, s)

/-- A call of `free_page`. -/
def freePage (page : Nat) : Effect Pageop Unit := do
  record (.free page)
  changeStructs (free page)

theorem freePage_run {free : Nat → PageStructs → Result PageStructs} {page : Nat}
    {structs : PageStructs} (h : free page s.toPageStructs = .ok structs) :
    freePage free page s =
      (.ok (), { s with toPageStructs := structs, log := s.log ++ [.free page] }) := by
  rw [freePage, Effect.bind_of_ok (record_run _ s), changeStructs, h]

/-- The `list_foreach` of `free_all_pages`. It asks the page that it has just freed for the next. -/
def freeFrom : Nat → ListPtr → Effect Pageop Unit
  | 0, _ => Effect.lift (.error .outOfFuel)
  | _ + 1, .head => pure ()
  | fuel + 1, .node page => do
    freePage free page
    let iter ← listNext (.node page)
    freeFrom fuel iter

/-- `free_all_pages`. -/
def freeAllPages (fuel : Nat) : Effect Pageop Unit := do
  let iter ← listNext .head
  freeFrom free fuel iter

/-- The `list_foreach_mut` of `tlb_flush_pageop`; `tmp` comes after `page`. -/
def flushFrom : Nat → ListPtr → ListPtr → Effect Pageop Unit
  | 0, _, _ => Effect.lift (.error .outOfFuel)
  | _ + 1, .head, _ => pure ()
  | fuel + 1, .node page, tmp => do
    record (.read page)
    changeLinks fun list => listDelete list (.node page)
    freePage free page
    let next ← listNext tmp
    flushFrom fuel tmp next

/-- `tlb_flush_pageop`. Of `tlb_flush_range` there is the assertion. -/
def tlbFlushPageop (fuel : Nat) : Effect Pageop Unit := fun s =>
  (do
    let _ ← Effect.lift s.flushRange.getEndAssert
    let page ← listNext .head
    let tmp ← listNext page
    flushFrom free fuel page tmp : Effect Pageop Unit) s

/-- What `pageop_finish` does if the pagemap is the one in use. -/
def flushIfCurrent (fuel : Nat) : Effect Pageop Unit := fun s =>
  if s.isCurrent then tlbFlushPageop free fuel s else (.ok (), s)

/-- `pageop_finish`. -/
def pageopFinish (fuel : Nat) : Effect Pageop Unit := fun s =>
  (do
    record (.finish s.flushRange)
    if s.flushRange.size = 0 then freeAllPages free fuel
    else do
      flushIfCurrent free fuel
      freeAllPages free fuel
      setFlushRange ⟨0, 0⟩ : Effect Pageop Unit) s

/-! With nothing on the list there is nothing to do but to move the range. -/

theorem freeAllPages_empty (h : (s.list .head).next = some .head)
    (hfuel : 0 < fuel) : freeAllPages free fuel s = (.ok (), s) := by
  match fuel, hfuel with
  | fuel + 1, _ =>
    rw [freeAllPages, Effect.bind_of_ok (listNext_empty h)]
    rfl

theorem tlbFlushPageop_empty (h : (s.list .head).next = some .head)
    (hfuel : 0 < fuel) (hfits : s.flushRange.end_ < U64) :
    tlbFlushPageop free fuel s = (.ok (), s) := by
  match fuel, hfuel with
  | fuel + 1, _ =>
    rw [tlbFlushPageop, Range.getEndAssert_eq hfits, Effect.lift_ok_bind,
      Effect.bind_of_ok (listNext_empty h), Effect.bind_of_ok (listNext_empty h)]
    rfl

theorem pageopFinish_empty (h : (s.list .head).next = some .head)
    (hfuel : 0 < fuel) (hfits : s.flushRange.end_ < U64) :
    pageopFinish free fuel s = (.ok (), { s with
      flushRange := if s.flushRange.size = 0 then s.flushRange else ⟨0, 0⟩
      log := s.log ++ [.finish s.flushRange] }) := by
  have hfree : freeAllPages free fuel { s with log := s.log ++ [.finish s.flushRange] } =
      (.ok (), { s with log := s.log ++ [.finish s.flushRange] }) :=
    freeAllPages_empty free h hfuel
  unfold pageopFinish
  rw [Effect.bind_of_ok (record_run _ s)]
  split
  · exact hfree
  · have hflush : flushIfCurrent free fuel { s with log := s.log ++ [.finish s.flushRange] } =
        (.ok (), { s with log := s.log ++ [.finish s.flushRange] }) := by
      unfold flushIfCurrent
      split
      · exact tlbFlushPageop_empty free h hfuel hfits
      · rfl
    rw [Effect.bind_of_ok hflush, Effect.bind_of_ok hfree]
    rfl

/-! ## Requests -/

/-- The range that takes in an address as well, if the source finds one. -/
def extendForAddress (flush : Range) (virt : Nat) : Option Range :=
  if (virt + PAGE_SIZE) % U64 = flush.front then some { flush with front := virt }
  else if flush.hasLoc virt then some flush
  else if flush.getEnd = some virt then some { flush with size := (flush.size + PAGE_SIZE) % U64 }
  else none

/-- The range that takes in another as well, if the source finds one. -/
def extendForRange (flush virt : Range) : Option Range :=
  if flush.has virt then some flush
  else if virt.getEnd = some flush.front then some { flush with front := virt.front }
  else if flush.getEnd = some virt.front then
    some { flush with size := (flush.size + virt.size) % U64 }
  else none

/-- Both requests keep the range they have found, or finish and start with their own. -/
def setup (fuel : Nat) (extended : Option Range) (virt : Range) : Effect Pageop Unit :=
  match extended with
  | some range => setFlushRange range
  | none => do
    pageopFinish free fuel
    setFlushRange virt

/-- `pageop_setup_for_address`. -/
def pageopSetupForAddress (fuel virt : Nat) : Effect Pageop Unit := fun s =>
  setup free fuel (extendForAddress s.flushRange virt) ⟨virt, PAGE_SIZE⟩ s

/-- `pageop_setup_for_range`. -/
def pageopSetupForRange (fuel : Nat) (virt : Range) : Effect Pageop Unit := fun s =>
  setup free fuel (extendForRange s.flushRange virt) virt s

end Finish

/-! ## Queueing -/

/-- `ref_down` of a count: the new count, and whether the old one may be counted down. -/
def countDown (old : Int) : Int × Result Bool :=
  (old - 1,
    if old < 0 ∨ old < 1 ∨ old = PageAlloc.REFCOUNT_MAX then .error .panic else .ok (old == 1))

/-- `ref_down(&page->used.refcount)`. -/
def refDown (page : Nat) : Effect Pageop Bool := fun s =>
  let (count, result) := countDown (s.refcount page)
  (result, { s with refcount := Function.update s.refcount page count })

/-- `ref_down(&page->largehead.refcount)`. -/
def refDownLarge (page : Nat) : Effect Pageop Bool := fun s =>
  let (count, result) := countDown (s.largeRefcount page)
  (result, { s with largeRefcount := Function.update s.largeRefcount page count })

/-- `list_add` of a page that has lost its last reference. -/
def queueIf (page : Nat) (last : Bool) : Effect Pageop Unit :=
  if last then do
    record (.queue page)
    changeLinks fun list => listAdd list .head (.node page)
  else pure ()

/-- `deref_page`. -/
def derefPage (page : Nat) : Effect Pageop Unit := fun s =>
  if s.state page = .largeHead then (.error .panic, s)
  else (do
    let last ← refDown page
    queueIf page last : Effect Pageop Unit) s

/-- The loop of `deref_large_page`. -/
def derefPages : Nat → Nat → Effect Pageop Unit
  | _, 0 => pure ()
  | page, count + 1 => do
    derefPage page
    derefPages (page + 1) count

/-- `deref_large_page`; `order` is that of the level in `largepage_level_info_list`. -/
def derefLargePage (page order : Nat) : Effect Pageop Unit := fun s =>
  if s.state page = .largeHead then (do
    let last ← refDownLarge page
    queueIf page last : Effect Pageop Unit) s
  else derefPages page (2 ^ order) s

/-- What `pageop_flush_pte_in_current_range` does with the page of an entry. -/
def flushEntry (page : Nat) (isLarge shouldFreePages : Bool) : Effect Pageop Unit := do
  let last ← (if isLarge then refDownLarge page else refDown page)
  queueIf page (last && shouldFreePages)

/-! ## Runs -/

/-- What is done with a pageop. -/
inductive Call where
  | setupForAddress (virt : Nat)
  | setupForRange (virt : Range)
  | derefPage (page : Nat)
  | derefLargePage (page order : Nat)
  | flushEntry (page : Nat) (shouldFreePages : Bool)
  /-- The processor changes to another pagemap, or back. -/
  | switchTo (isCurrent : Bool)
  | finish

/-- A call, with a note of the range that was asked for. An entry is large if its page heads one. -/
def Call.exec (free : Nat → PageStructs → Result PageStructs) (fuel : Nat) : Call → Effect Pageop Unit
  | .setupForAddress virt => do
    pageopSetupForAddress free fuel virt
    record (.named ⟨virt, PAGE_SIZE⟩)
  | .setupForRange virt => do
    pageopSetupForRange free fuel virt
    record (.named virt)
  | .derefPage page => Pageop.derefPage page
  | .derefLargePage page order => Pageop.derefLargePage page order
  | .flushEntry page shouldFreePages => fun s =>
    Pageop.flushEntry page (s.state page = .largeHead) shouldFreePages s
  | .switchTo isCurrent => fun s => (.ok (), { s with isCurrent := isCurrent })
  | .finish => pageopFinish free fuel

/-- A pageop right after `pageop_init`. -/
def pageopInit (structs : PageStructs) (isCurrent : Bool) (range : Range) : Pageop :=
  { structs with list := listInit structs.list .head, flushRange := range, isCurrent := isCurrent, log := [] }

/-! ## What freeing leaves alone -/

section Freeing

open Effect

variable {P : Pageop → Prop} {free : Nat → PageStructs → Result PageStructs}

/-- A property that does not look at the pages, and that reading and freeing cannot end. -/
structure Unaffected (P : Pageop → Prop) : Prop where
  structs : ∀ s structs, P s → P { s with toPageStructs := structs }
  read : ∀ page, Keeps P (record (.read page))
  free : ∀ page, Keeps P (record (.free page))

theorem Unaffected.changeLinks (h : Unaffected P)
    (f : (ListPtr → RingLinks ListPtr) → Result (ListPtr → RingLinks ListPtr)) :
    Keeps P (changeLinks f) := by
  intro s hs
  unfold Pageop.changeLinks
  split
  · exact h.structs s _ hs
  · exact hs

theorem keeps_readNext (elem : ListPtr) : Keeps P (readNext elem) := by
  intro s hs
  unfold readNext
  split <;> exact hs

theorem Unaffected.listNext (h : Unaffected P) : ∀ elem, Keeps P (listNext elem)
  | .head => keeps_readNext .head
  | .node page => (h.read page).bind fun _ => keeps_readNext _

theorem Unaffected.freePage (h : Unaffected P) (page : Nat) : Keeps P (freePage free page) := by
  refine (h.free page).bind fun _ s hs => ?_
  unfold changeStructs
  split
  · exact h.structs s _ hs
  · exact hs

theorem Unaffected.freeFrom (h : Unaffected P) :
    ∀ fuel iter, Keeps P (freeFrom free fuel iter)
  | 0, _ => keeps_lift _
  | _ + 1, .head => keeps_pure ()
  | fuel + 1, .node page =>
    (h.freePage page).bind fun _ => (h.listNext _).bind fun iter => h.freeFrom fuel iter

theorem Unaffected.freeAllPages (h : Unaffected P) (fuel : Nat) : Keeps P (freeAllPages free fuel) :=
  (h.listNext .head).bind fun iter => h.freeFrom fuel iter

theorem Unaffected.flushFrom (h : Unaffected P) :
    ∀ fuel iter tmp, Keeps P (flushFrom free fuel iter tmp)
  | 0, _, _ => keeps_lift _
  | _ + 1, .head, _ => keeps_pure ()
  | fuel + 1, .node page, tmp =>
    (h.read page).bind fun _ => (h.changeLinks _).bind fun _ => (h.freePage page).bind fun _ =>
      (h.listNext tmp).bind fun next => h.flushFrom fuel tmp next

theorem Unaffected.flushIfCurrent (h : Unaffected P) (fuel : Nat) :
    Keeps P (flushIfCurrent free fuel) := by
  intro s hs
  unfold Pageop.flushIfCurrent
  split
  · have hkeeps : Keeps P (do
        let _ ← Effect.lift s.flushRange.getEndAssert
        let page ← Pageop.listNext .head
        let tmp ← Pageop.listNext page
        Pageop.flushFrom free fuel page tmp) :=
      (keeps_lift _).bind fun _ => (h.listNext .head).bind fun page =>
        (h.listNext page).bind fun tmp => h.flushFrom fuel page tmp
    exact hkeeps s hs
  · exact hs

end Freeing

end Pageop

end OsKernel.Mm
