import OsKernel.Adt.RangeAlign
import OsKernel.Lib.List
import OsKernel.Mm.PageAlloc

/-!
# The section array (`kernel/boot.c`, `kernel/mm/early.c`, `kernel/mm/section.c`)

Usable memory is kept in an array of sections, one for each usable range. The pages of
all sections share one table of `struct page`, section behind section: a section knows the
index (the pfn) of its first page there. Before the page allocator takes over, sections
that touch are merged, sections that cross the limit between two zones are split, and each
section is put on the list of its zone.

A section holds list nodes: the heads of its freelists and its node on the list of its
zone. They are given by where they live, the slot of the array they are in. An element
that `memmove` takes to another slot takes the contents of its nodes along as they are, so
a head that linked to itself then links to where it was before.
-/

namespace OsKernel.Boot

open Adt (Range)
open Mm (PAGE_SIZE pageCount MAX_ORDER)

/-- The zones of the x86_64 port. -/
inductive Zone where
  | low4g
  | default_
  deriving DecidableEq, Repr

/-- `phys_to_zone`. -/
def physToZone (phys : Nat) : Zone := if phys < 4 * 2 ^ 30 then .low4g else .default_

/-- A `struct list *`: where the node lives. -/
inductive ListAddr where
  /-- `freelist_list[order].page_list` of the section in a slot. -/
  | freelist (slot order : Nat)
  /-- `zone_list` of the section in a slot. -/
  | zoneList (slot : Nat)
  /-- `section_list` of a zone. -/
  | zoneHead (zone : Zone)
  deriving DecidableEq

/-- `struct page_section` without its list nodes. -/
structure Section where
  zone : Option Zone
  range : Range
  pfn : Nat
  freelistCount : Nat → Nat
  minOrder : Nat
  maxOrder : Nat
  totalFree : Nat

/-- `mm_page_section_list` with the list nodes in it, and `mm_page_section_count`. -/
structure Sections where
  list : Nat → Section
  links : ListAddr → RingLinks ListAddr
  count : Nat

/-- The number of slots in `mm_page_section_list`. -/
def SECTION_SLOTS : Nat := 255

namespace Sections

/-- Write one slot. -/
def setSection (s : Sections) (slot : Nat) (x : Section) : Sections :=
  { s with list := Function.update s.list slot x }

/-- `page_section_init`. -/
def pageSectionInit (s : Sections) (slot : Nat) (zone : Option Zone) (range : Range) (pfn : Nat) :
    Sections :=
  { s with
    list := Function.update s.list slot
      { zone := zone, range := range, pfn := pfn, freelistCount := fun _ => 0
        minOrder := 0, maxOrder := 0, totalFree := 0 }
    links := fun p =>
      if p = .zoneList slot ∨ ∃ order < MAX_ORDER, p = .freelist slot order then ⟨some p, some p⟩
      else s.links p }

/-- `memmove` of `n` slots from slot `src` on to slot `dst` on. -/
def memmove (s : Sections) (dst src n : Nat) : Sections :=
  let from_ (slot : Nat) : Nat := if dst ≤ slot ∧ slot < dst + n then src + (slot - dst) else slot
  { s with
    list := fun slot => s.list (from_ slot)
    links := fun
      | .freelist slot order => s.links (.freelist (from_ slot) order)
      | .zoneList slot => s.links (.zoneList (from_ slot))
      | .zoneHead zone => s.links (.zoneHead zone) }

/-- The loop of `phys_to_pfn`, with `n` slots left to look at. -/
def physToPfnFrom (s : Sections) (phys : Nat) : Nat → Nat → Result Nat
  | _, 0 => .error .panic
  | slot, n + 1 =>
    let iter := s.list slot
    if iter.range.hasLoc phys then .ok (iter.pfn + (phys - iter.range.front) / PAGE_SIZE)
    else physToPfnFrom s phys (slot + 1) n

/-- `phys_to_pfn`. -/
def physToPfn (s : Sections) (phys : Nat) : Result Nat := s.physToPfnFrom phys 0 s.count

/-! ## Merging -/

/-- The body of the merge: the section before `index` takes in the one at `index`. -/
def mergeInto (s : Sections) (index : Nat) : Sections :=
  let prevMemmap := s.list (index - 1)
  let size := (prevMemmap.range.size + (s.list index).range.size) % U64
  let s := s.setSection (index - 1) { prevMemmap with range := ⟨prevMemmap.range.front, size⟩ }
  let s := s.memmove index (index + 1) (s.count - (index + 1))
  { s with count := s.count - 1 }

/--
The two loops of `boot_merge_usable_memmaps`. The inner one leaves the function when `index` is the
count, which is also what the outer one tests first.
-/
def mergeFrom : Nat → Sections → Nat → Result Sections
  | 0, _, _ => .error .outOfFuel
  | fuel + 1, s, index =>
    if index = s.count then .ok s
    else do
      let prevEnd ← (s.list (index - 1)).range.getEndAssert
      if prevEnd ≠ (s.list index).range.front then mergeFrom fuel s (index + 1)
      else mergeFrom fuel (s.mergeInto index) index

/-- `boot_merge_usable_memmaps`. -/
def bootMergeUsableMemmaps (s : Sections) (fuel : Nat) : Result Sections := mergeFrom fuel s 1

/-! ## Splitting -/

/-- `boot_add_section_at`: everything from the slot on moves up by one. -/
def bootAddSectionAt (s : Sections) (slot : Nat) : Result Sections :=
  if s.count < SECTION_SLOTS then
    .ok { s.memmove (slot + 1) slot (s.count - slot) with count := s.count + 1 }
  else .error .outOfBounds

/-- `split_section_at_boundary`. -/
def splitSectionAtBoundary (s : Sections) (slot : Nat) (zone : Zone) (boundary : Nat) :
    Result Sections := do
  let section_ := s.list slot
  let newRange ← Range.createEnd section_.range.front boundary
  let range ← section_.range.fromLoc boundary
  let s := s.setSection slot
    { section_ with pfn := section_.pfn + pageCount newRange.size, range := range }
  let s ← s.bootAddSectionAt slot
  pure (s.pageSectionInit slot (some zone) newRange section_.pfn)

/-- The halving search of `split_sections_for_zones`: `while (mid_index != 0)`. -/
def searchBoundary (beginZone : Zone) (searchFront midIndex : Nat) : Nat :=
  if _ : midIndex = 0 then searchFront
  else
    let searchFront :=
      if physToZone (searchFront + midIndex) = beginZone then searchFront + midIndex
      else searchFront
    searchBoundary beginZone searchFront (midIndex / 2)
termination_by midIndex

/-- The boundary at which a section is split. -/
def splitBoundary (range : Range) : Option Nat :=
  alignUp (searchBoundary (physToZone range.front) range.front (range.size / 2)) PAGE_SIZE

/-- `if (section->zone == NULL) section->zone = begin_zone`. -/
def setZoneIfNull (s : Sections) (slot : Nat) (zone : Zone) : Sections :=
  match (s.list slot).zone with
  | some _ => s
  | none => s.setSection slot { s.list slot with zone := some zone }

/-- The loop body of `split_sections_for_zones`. -/
def splitAt (s : Sections) (slot : Nat) : Result Sections := do
  let range := (s.list slot).range
  let beginZone := physToZone range.front
  let end_ ← range.getEndAssert
  let backZone := physToZone ((end_ + U64 - PAGE_SIZE) % U64)
  let s := s.setZoneIfNull slot beginZone
  if beginZone = backZone then pure s
  else
    match splitBoundary range with
    | none => .error .panic
    | some boundary => s.splitSectionAtBoundary slot beginZone boundary

/-- The loop of `split_sections_for_zones`; the count grows while it runs. -/
def splitFrom : Nat → Sections → Nat → Result Sections
  | 0, _, _ => .error .outOfFuel
  | fuel + 1, s, slot =>
    if slot = s.count then .ok s
    else do
      let s ← s.splitAt slot
      splitFrom fuel s (slot + 1)

/-- `split_sections_for_zones`. There are at most as many turns as slots. -/
def splitSectionsForZones (s : Sections) : Result Sections := splitFrom (SECTION_SLOTS + 1) s 0

/-- The loop of `setup_zone_section_list`, with `n` slots left. -/
def setupFrom (s : Sections) : Nat → Nat → Result Sections
  | _, 0 => .ok s
  | slot, n + 1 =>
    match (s.list slot).zone with
    | none => .error .nullDeref
    | some zone => do
      let links ← listAdd s.links (.zoneHead zone) (.zoneList slot)
      setupFrom { s with links := links } (slot + 1) n

/-- `setup_zone_section_list`. -/
def setupZoneSectionList (s : Sections) : Result Sections := s.setupFrom 0 s.count

end Sections

end OsKernel.Boot
