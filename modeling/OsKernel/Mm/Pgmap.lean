import OsKernel.Adt.Range
import OsKernel.Mm.Walker

/-!
# Mapping ranges (`kernel/mm/pgmap.c`, `kernel/mm/pageop.c`)

`pgmap_at` maps a range of physical memory at a virtual address, with the largest pages
that fit, and `pgunmap_at` takes a range out again. Both move one walker along the range.
The loops over entries of a table are the source's, with the walker, the tables and the
offset in the range as their state; `fuel` bounds the number of rounds.

`map_large_at_top_level_overwrite` and its sibling are not here: `LARGEPAGE_LEVELS` holds
2 and 3, which are never the top level. The range that is flushed from the TLB in the end,
and the pages that `pageop_finish` gives back to the allocator, do not touch the tables.
-/

namespace OsKernel.Mm

open Adt (Range)

/-- `struct pgmap_options`, without the arguments of the callbacks. -/
structure PgmapOptions where
  pteFlags : Nat
  supportsLargepageAtLevelMask : Nat
  freePages : Bool
  isInEarly : Bool
  isOverwrite : Bool

/-- `struct pgunmap_options`. -/
structure PgunmapOptions where
  freePages : Bool
  dontSplitLargePages : Bool

/-- `enum map_result`. -/
inductive MapResult where
  | done
  | continue_
  | restart
  deriving DecidableEq

/-- `enum override_result`. -/
inductive OverrideResult where
  | ok
  | done

/-- `struct current_split_info`. -/
structure SplitInfo where
  physRange : Range
  virtAddr : Nat
  isActive : Bool

/-- `CURRENT_SPLIT_INFO_INIT`. -/
def SplitInfo.init : SplitInfo := ⟨⟨0, 0⟩, 0, false⟩

/-- What the functions here work on. -/
structure MapState where
  w : PtWalker
  s : PageTables
  /-- `curr_split`, `none` for NULL. -/
  split : Option SplitInfo
  /-- `pageop->delayed_free`. -/
  delayedFree : List Nat
  /-- Whether the walker was created with a callback `free_pgtable`. -/
  hasFree : Bool

/-- `PTE_LEAF_FLAGS`. -/
def PTE_LEAF_FLAGS : Nat := 1

/-- `PTE_LARGE_FLAGS`. -/
def PTE_LARGE_FLAGS : Nat := 0x81

/-- The entry that maps a page of 4 KiB. -/
def PgmapOptions.leafPte (opts : PgmapOptions) (phys : Nat) : Nat :=
  phys ||| PTE_LEAF_FLAGS ||| opts.pteFlags

/-- The entry that maps a large page. -/
def PgmapOptions.largePte (opts : PgmapOptions) (phys : Nat) : Nat :=
  phys ||| PTE_LARGE_FLAGS ||| opts.pteFlags

/-- `pte_flags_equal`, with the bits present, write, user, PWT, PCD, global and no-execute. -/
def pteFlagsEqual (pte flags : Nat) : Bool := pte &&& 0x800000000000011f == flags

namespace MapState

/-- Read the entry the walker has at a level. -/
def readAt (m : MapState) (level : Nat) : Result Nat :=
  m.s.pteRead (m.w.tables level) (m.w.indices level)

/-- Write the entry the walker has at a level. -/
def writeAt (m : MapState) (level value : Nat) : Result MapState := do
  let s ← m.s.pteWrite (m.w.tables level) (m.w.indices level) value
  pure { m with s := s }

/-- `ptwalker_fill_in_to`; every failure is a panic. -/
def fillInTo (opts : PgmapOptions) (m : MapState) (level : Nat) : Result MapState := do
  match ← m.w.fillInTo m.s level !opts.isInEarly with
  | (.ok, w, s) => pure { m with w := w, s := s }
  | _ => .error .panic

/-- `ptwalker_next_with_options` without allocation; every failure is a panic. -/
def next (p : Paging) (opts : PgmapOptions) (m : MapState) (level : Nat) : Result MapState := do
  match ← m.w.nextWithOptions p m.s level false false !opts.isInEarly with
  | (.ok, w, s) => pure { m with w := w, s := s }
  | _ => .error .panic

/-- `ptwalker_deref_from_level`, which asserts that there is a callback. -/
def derefFromLevel (m : MapState) (level : Nat) : Result MapState :=
  if level < m.w.level || m.w.topLevel < level then .ok m
  else if !m.hasFree then .error .panic
  else do
    let (w, s) ← m.w.derefFromLevel m.s level
    pure { m with w := w, s := s }

/-- `deref_page`. -/
def derefPage (m : MapState) (page : Nat) : Result MapState :=
  if m.s.isLargeHead page then .error .panic
  else do
    let (last, s) ← m.s.refDown (some page)
    pure { m with s := s, delayedFree := if last then page :: m.delayedFree else m.delayedFree }

/--
`pageop_flush_pte_in_current_range`. For an entry that names a table, the walker it makes has no
callback `free_pgtable`, so its first `ptwalker_deref_from_level` fails an assertion.
-/
def flushPte (m : MapState) (entry : Nat) : Result MapState :=
  if m.s.isTable (pteToPhys entry) then .error .panic else m.derefPage (pteToPhys entry)

/-- The part of `split_large_page` that `is_in_early` leaves out. -/
def flushUnlessEarly (opts : PgmapOptions) (m : MapState) (entry : Nat) : Result MapState :=
  if opts.isInEarly then .ok m else m.flushPte entry

/-- `split_large_page`. -/
def splitLargePage (opts : PgmapOptions) (m : MapState) (level : Nat) : Result MapState :=
  match m.split with
  | none => .error .nullDeref
  | some split =>
    if split.isActive then .error .panic
    else do
      let entry ← m.readAt m.w.level
      let m ← m.writeAt m.w.level 0
      let m ← m.derefFromLevel m.w.level
      -- The walker's level may have been raised in between.
      let split : SplitInfo :=
        { physRange := ⟨pteToPhys entry, pageSizeAtLevel m.w.level⟩
          virtAddr := m.w.getVirtAddr
          isActive := true }
      let m ← m.flushUnlessEarly opts entry
      pure { m with w := m.w.resetLevelsLowerThan (level + 1), split := some split }

/-! ## Overwriting an entry -/

/-- The end of `override_pte`, for a present entry. -/
def overrideEntry (p : Paging) (opts : PgmapOptions) (m : MapState)
    (physBegin offset size level newPteValue entry : Nat) :
    Result (OverrideResult × MapState × Nat) :=
  if pteToPhys entry == physBegin + offset && pteFlagsEqual entry opts.pteFlags then
    if size ≤ offset + pageSizeAtLevel m.w.level then
      .ok (.done, m, offset + pageSizeAtLevel m.w.level)
    else do
      let m ← m.next p opts m.w.level
      -- `phys_addr` was computed before the offset was advanced.
      pure (.ok, m, physBegin + offset - physBegin)
  else if level < m.w.level then do
    let m ← m.splitLargePage opts level
    let m ← m.writeAt level newPteValue
    pure (.ok, m, offset)
  else do
    let m ← m.writeAt level newPteValue
    pure (.ok, m, offset)

/-- `override_pte`: what it returns, and `*offset_in`. -/
def overridePte (p : Paging) (opts : PgmapOptions) (m : MapState)
    (physBegin offset size level newPteValue : Nat) : Result (OverrideResult × MapState × Nat) :=
  if m.w.level < level then do
    let entry ← m.readAt level
    let m ← m.writeAt level newPteValue
    let m ← m.flushPte entry
    pure (.ok, m, offset)
  else if level < m.w.level then do
    if !(← m.w.pointsToLargepage p m.s) then do
      let m ← m.fillInTo opts level
      let m ← m.writeAt level newPteValue
      pure (.ok, m, offset)
    else do
      let entry ← m.readAt m.w.level
      overrideEntry p opts m physBegin offset size level newPteValue entry
  else do
    let entry ← m.readAt level
    if !pteIsPresent entry then do
      let m ← m.writeAt level newPteValue
      pure (.ok, m, offset)
    else overrideEntry p opts m physBegin offset size level newPteValue entry

/-! ## Pages of 4 KiB -/

/-- `ptwalker_fill_in_to` at the head of an outer loop. -/
def fillWhen (opts : PgmapOptions) (fill : Bool) (m : MapState) (level : Nat) : Result MapState :=
  if fill then m.fillInTo opts level else .ok m

/-- The loops of `map_normal` with `is_overwrite`; `fill` at the head of the outer one. -/
def mapNormalOverwrite (p : Paging) (opts : PgmapOptions) (physBegin offsetIn size : Nat) :
    (fuel : Nat) → (fill : Bool) → MapState → (offset : Nat) → Result (MapResult × MapState × Nat)
  | 0, _, _, _ => .error .outOfFuel
  | fuel + 1, fill, m, offset => do
    let m ← m.fillWhen opts fill 1
    match ← overridePte p opts m physBegin offset size 1 (opts.leafPte (physBegin + offset)) with
    | (.done, m, _) => pure (.done, m, offsetIn)
    | (.ok, m, offset) => do
      let m ← m.next p opts 1
      if offset + PAGE_SIZE = size then pure (.done, m, offset + PAGE_SIZE)
      else if m.w.indices 1 = 0 then
        if m.w.indices 2 = 0 then pure (.restart, m, offset + PAGE_SIZE)
        else mapNormalOverwrite p opts physBegin offsetIn size fuel true m (offset + PAGE_SIZE)
      else mapNormalOverwrite p opts physBegin offsetIn size fuel false m (offset + PAGE_SIZE)

/-- The loops of `map_normal` without `is_overwrite`; `index` is that of `pte` in its table. -/
def mapNormalNoOverwrite (p : Paging) (opts : PgmapOptions) (physBegin physEnd : Nat) :
    (fuel : Nat) → (fill : Bool) → MapState → (index physAddr : Nat) →
    Result (MapResult × MapState × Nat)
  | 0, _, _, _, _ => .error .outOfFuel
  | fuel + 1, fill, m, index, physAddr => do
    let m ← m.fillWhen opts fill 1
    let index := if fill then m.w.indices 1 else index
    let s ← m.s.pteWrite (m.w.tables 1) index (opts.leafPte physAddr)
    let m := { m with s := s }
    if index + 1 = PGT_PTE_COUNT then do
      let m ← ({ m with w := m.w.setIndex 1 (PGT_PTE_COUNT - 1) } : MapState).next p opts 1
      if m.w.indices 2 = 0 then pure (.restart, m, physAddr + PAGE_SIZE - physBegin)
      else mapNormalNoOverwrite p opts physBegin physEnd fuel true m 0 (physAddr + PAGE_SIZE)
    else if physAddr + PAGE_SIZE = physEnd then
      pure (.done, { m with w := m.w.setIndex 1 (index + 1) }, physAddr + PAGE_SIZE - physBegin)
    else
      mapNormalNoOverwrite p opts physBegin physEnd fuel false m (index + 1) (physAddr + PAGE_SIZE)

/-- `map_normal`: what it returns, and `*offset_in`. -/
def mapNormal (p : Paging) (opts : PgmapOptions) (fuel : Nat) (m : MapState)
    (physBegin offset size : Nat) : Result (MapResult × MapState × Nat) :=
  if size ≤ offset then .ok (.done, m, offset)
  else if opts.isOverwrite then
    mapNormalOverwrite p opts physBegin offset size fuel true m offset
  else
    mapNormalNoOverwrite p opts physBegin (physBegin + size) fuel true m 0 (physBegin + offset)

/-! ## Large pages -/

/-- `walker->indices[walker->level]`, the index above the walker's level. -/
def indexAbove (m : MapState) : Result Nat :=
  if m.w.level < PGT_LEVEL_COUNT then .ok (m.w.indices (m.w.level + 1)) else .error .outOfBounds

/--
The loop of `map_large_at_level_overwrite`. `override_pte` works on `*offset_in`, which the loop
itself advances only in the end.
-/
def mapLargeOverwriteLoop (p : Paging) (opts : PgmapOptions) (physBegin size level : Nat) :
    (fuel : Nat) → MapState → (offsetIn offset : Nat) → Result (MapResult × MapState × Nat)
  | 0, _, _, _ => .error .outOfFuel
  | fuel + 1, m, offsetIn, offset => do
    match ← overridePte p opts m physBegin offsetIn size level (opts.largePte (physBegin + offset))
      with
    | (.done, m, offsetIn) => pure (.done, m, offsetIn)
    | (.ok, m, offsetIn) => do
      let m ← m.next p opts level
      let offset := offset + pageSizeAtLevel level
      if offset = size then pure (.done, m, offset)
      else if m.w.indices m.w.level = 0 then do
        let above ← m.indexAbove
        if above = 0 then pure (.restart, m, offset) else pure (.continue_, m, offset)
      else if offset + pageSizeAtLevel level ≤ size then
        mapLargeOverwriteLoop p opts physBegin size level fuel m offsetIn offset
      else pure (.continue_, m, offset)

/-- `map_large_at_level_overwrite`. -/
def mapLargeAtLevelOverwrite (p : Paging) (opts : PgmapOptions) (fuel : Nat) (m : MapState)
    (physBegin offset size level : Nat) : Result (MapResult × MapState × Nat) := do
  let m ← m.fillInTo opts level
  mapLargeOverwriteLoop p opts physBegin size level fuel m offset offset

/-- The loops of `map_large_at_level_no_overwrite`. -/
def mapLargeNoOverwriteLoop (p : Paging) (opts : PgmapOptions) (physBegin physEnd level : Nat) :
    (fuel : Nat) → (fill : Bool) → MapState → (index physAddr : Nat) →
    Result (MapResult × MapState × Nat)
  | 0, _, _, _, _ => .error .outOfFuel
  | fuel + 1, fill, m, index, physAddr => do
    let m ← m.fillWhen opts fill level
    let index := if fill then m.w.indices level else index
    let s ← m.s.pteWrite (m.w.tables level) index (opts.largePte physAddr)
    let m := { m with s := s }
    let physAddr := physAddr + pageSizeAtLevel level
    if physAddr = physEnd then
      pure (.done, { m with w := m.w.setIndex level index }, physAddr - physBegin)
    else if index + 1 = PGT_PTE_COUNT then do
      let m ← ({ m with w := m.w.setIndex level (PGT_PTE_COUNT - 1) } : MapState).next p opts level
      let above ← m.indexAbove
      if above = 0 then pure (.restart, m, physAddr - physBegin)
      else mapLargeNoOverwriteLoop p opts physBegin physEnd level fuel true m 0 physAddr
    else if physEnd < physAddr + pageSizeAtLevel level then
      pure (.continue_, { m with w := m.w.setIndex level (index + 1) }, physAddr - physBegin)
    else mapLargeNoOverwriteLoop p opts physBegin physEnd level fuel false m (index + 1) physAddr

/-- `map_large_at_level`, below the top level. -/
def mapLargeAtLevel (p : Paging) (opts : PgmapOptions) (fuel : Nat) (m : MapState)
    (physBegin offset size level : Nat) : Result (MapResult × MapState × Nat) :=
  if opts.isOverwrite then mapLargeAtLevelOverwrite p opts fuel m physBegin offset size level
  else
    mapLargeNoOverwriteLoop p opts physBegin (physBegin + size) level fuel true m 0
      (physBegin + offset)

/-- The lowest level whose index is not zero, 0 if there is none. -/
def highestLargepageLevel (w : PtWalker) : Nat :=
  ((List.range' 1 w.topLevel).find? fun level => w.indices level != 0).getD 0

/-- Whether a large page of a level may come next. -/
def largeFits (opts : PgmapOptions) (range : Range) (highest offset level : Nat) : Bool :=
  level ≤ highest && opts.supportsLargepageAtLevelMask.testBit level &&
    hasAlign (range.front + offset) (pageSizeAtLevel level) &&
    offset + pageSizeAtLevel level ≤ range.size

/-- The loop of `pgmap_with_ptwalker` over the levels of large pages. -/
def mapLarge (p : Paging) (opts : PgmapOptions) (fuel : Nat) (range : Range) (highest : Nat) :
    (levels : List Nat) → MapState → (offset : Nat) → Result (MapResult × MapState × Nat)
  | [], m, offset => .ok (.continue_, m, offset)
  | level :: levels, m, offset =>
    if largeFits opts range highest offset level then do
      match ← m.mapLargeAtLevel p opts fuel range.front offset range.size level with
      | (.continue_, m, offset) => mapLarge p opts fuel range highest levels m offset
      | r => pure r
    else mapLarge p opts fuel range highest levels m offset

/-! ## A range -/

/-- The loop of `finish_split_info` that counts pages up. -/
def refUpPages (m : MapState) : (pages : List Nat) → Result MapState
  | [] => .ok m
  | page :: pages => do
    let s ← m.s.refUp (some page)
    refUpPages { m with s := s } pages

mutual

/-- `finish_split_info`. -/
def finishSplitInfo (p : Paging) (opts : PgmapOptions) :
    (fuel : Nat) → MapState → (virt : Nat) → Result MapState
  | 0, _, _ => .error .outOfFuel
  | fuel + 1, m, virt =>
    match m.split with
    | none => .error .nullDeref
    | some split =>
      if !split.isActive then .ok m
      else if U64 ≤ split.virtAddr + split.physRange.size then .error .panic
      else
        let offset := split.virtAddr + split.physRange.size - m.w.getVirtAddr
        if split.virtAddr + split.physRange.size ≤ m.w.getVirtAddr then
          if split.physRange.front ≠ 0 && opts.freePages then m.derefPage split.physRange.front
          else .ok m
        -- The pages to count up would be those behind the end, and so without end.
        else if split.physRange.size < offset then .error .badMemory
        else do
          let m ← m.refUpPages ((List.range' (pageCount offset)
            (pageCount split.physRange.size - pageCount offset)).map
              fun i => split.physRange.front + i * PAGE_SIZE)
          -- `range_from_index` asserts that the offset is in the range.
          if split.physRange.size ≤ offset then .error .panic
          else do
            let m ← pgmapWithPtwalker p opts fuel { m with split := some .init }
              ⟨split.physRange.front + offset, split.physRange.size - offset⟩ virt 0
            pure { m with split := some { split with isActive := false } }

/-- `pgmap_with_ptwalker` from an offset in the range on. It returns true if it returns. -/
def pgmapWithPtwalker (p : Paging) (opts : PgmapOptions) :
    (fuel : Nat) → MapState → (range : Range) → (virtBegin offset : Nat) → Result MapState
  | 0, _, _, _, _ => .error .outOfFuel
  | fuel + 1, m, range, virtBegin, offset => do
    let highest := highestLargepageLevel m.w
    match ← mapLarge p opts fuel range highest (if 1 < highest then [3, 2] else []) m offset with
    | (.done, m, offset) => finishSplitInfo p opts fuel m (virtBegin + offset)
    | (.restart, m, offset) => pgmapWithPtwalker p opts fuel m range virtBegin offset
    | (.continue_, m, offset) => do
      match ← m.mapNormal p opts fuel range.front offset range.size with
      | (.done, m, offset) => finishSplitInfo p opts fuel m (virtBegin + offset)
      | (_, m, offset) =>
        if offset < range.size then pgmapWithPtwalker p opts fuel m range virtBegin offset
        else finishSplitInfo p opts fuel m (virtBegin + offset)

end

end MapState

open MapState

/-- The checks that `pgmap_at` makes before it starts. -/
def pgmapChecks (physRange : Range) (virtAddr : Nat) : Bool :=
  physRange.size ≠ 0 && physRange.front + physRange.size < U64 &&
    (hasAlign physRange.front PAGE_SIZE && hasAlign physRange.size PAGE_SIZE) &&
    virtAddr + physRange.size < U64 &&
    (hasAlign virtAddr PAGE_SIZE && hasAlign physRange.size PAGE_SIZE)

/-- `pgmap_at` from the last call of `pgmap_with_ptwalker` on. -/
def pgmapFinish (p : Paging) (opts : PgmapOptions) (fuel : Nat) (m : MapState) (physRange : Range)
    (virtAddr : Nat) : Result (Bool × PageTables) := do
  let m ← pgmapWithPtwalker p opts fuel m physRange virtAddr 0
  pure (true, m.s)

/-- The part of `pgmap_at` for an address in the middle of a large page. -/
def pgmapInLargepage (p : Paging) (opts : PgmapOptions) (fuel : Nat) (m : MapState)
    (physRange : Range) (virtAddr : Nat) : Result (Bool × PageTables) := do
  let walkerVirtAddr := m.w.getVirtAddr
  let offset := virtAddr - walkerVirtAddr
  let entry ← m.readAt m.w.level
  if offset ≤ physRange.front && pteToPhys entry == physRange.front - offset &&
      pteFlagsEqual entry opts.pteFlags then
    let rest := (walkerVirtAddr + pageSizeAtLevel m.w.level + (U64 - virtAddr)) % U64
    if !physRange.hasIndex rest then pure (true, m.s)
    else
      pgmapFinish p opts fuel m ⟨physRange.front + rest, physRange.size - rest⟩ (virtAddr + rest)
  else do
    let m ← m.splitLargePage opts m.w.level
    let split := m.split.getD .init
    let m ← pgmapWithPtwalker p opts fuel { m with split := none } ⟨split.physRange.front, offset⟩
      walkerVirtAddr 0
    if !split.physRange.hasIndex offset then .error .panic
    else
      pgmapFinish p opts fuel
        { m with
          split := some
            { split with
              virtAddr := virtAddr
              physRange := ⟨split.physRange.front + offset, split.physRange.size - offset⟩ } }
        physRange virtAddr

/-- `pgmap_at`, with the physical address of the pagemap's root. -/
def pgmapAt (p : Paging) (opts : PgmapOptions) (fuel : Nat) (s : PageTables) (root : Nat)
    (physRange : Range) (virtAddr : Nat) : Result (Bool × PageTables) :=
  if !pgmapChecks physRange virtAddr then .ok (false, s)
  else do
    let w ← PtWalker.createForPagemap p s root virtAddr
    let m : MapState :=
      { w := w, s := s, split := some .init, delayedFree := [], hasFree := !opts.isInEarly }
    if opts.isOverwrite then do
      let largepage ← w.pointsToLargepage p s
      if largepage && w.getVirtAddr < virtAddr then
        pgmapInLargepage p opts fuel m physRange virtAddr
      else pgmapFinish p opts fuel m physRange virtAddr
    else pgmapFinish p opts fuel m physRange virtAddr

/-! ## Unmapping -/

/-- The level that `pgunmap_at` starts with, by the size of the range. -/
def unmapLevel (w : PtWalker) (size : Nat) : Nat :=
  match (List.range' (w.level + 1) (w.topLevel - w.level)).find? fun iter =>
      size < pageSizeAtLevel iter with
  | some iter => iter - 1
  | none => w.level

/-- `while (size < PAGE_SIZE_AT_LEVEL(level)) { level--; }`. -/
def lowerLevel (size : Nat) : (level : Nat) → Nat
  | 0 => 0
  | level + 1 => if size < pageSizeAtLevel (level + 1) then lowerLevel size level else level + 1

namespace MapState

/-- Clearing an entry in `pgunmap_at`. -/
def clearEntry (m : MapState) (level : Nat) (freePages : Bool) : Result MapState :=
  if freePages then do
    let entry ← m.readAt level
    let m ← m.writeAt level 0
    m.flushPte entry
  else m.writeAt level 0

/-- Splitting in `pgunmap_at`: the entry is not that of the large page, but that of `level`. -/
def unmapSplit (p : Paging) (opts : PgmapOptions) (fuel : Nat) (m : MapState) (level virt mapSize : Nat) :
    Result (Bool × MapState) := do
  let entry ← m.readAt level
  if !pteIsLarge entry then pure (false, m)
  else do
    let m ← m.writeAt level 0
    let m ← m.derefFromLevel m.w.level
    let m ← pgmapWithPtwalker p opts fuel { m with split := none } ⟨pteToPhys entry, mapSize⟩ virt 0
    pure (true, m)

/-- What a round of `pgunmap_at` does to the entry, and whether the loop goes on. -/
def unmapEntry (p : Paging) (opts : PgmapOptions) (unmap : PgunmapOptions) (fuel : Nat)
    (m : MapState) (level virt mapSize : Nat) : Result (Bool × MapState) :=
  if level < m.w.level then
    if unmap.dontSplitLargePages then .ok (false, m)
    else m.unmapSplit p opts fuel level virt mapSize
  else do
    let m ← m.clearEntry level unmap.freePages
    let m ← m.derefFromLevel m.w.level
    pure (true, m)

/-- The sanity check at the head of the loop of `pgunmap_at`. -/
def noLargeHere (p : Paging) (w : PtWalker) : Result Bool :=
  if 1 < w.level then do
    let canHaveLarge ← p.pteLevelCanHaveLarge w.level
    pure !canHaveLarge
  else .ok false

/-- The loop of `pgunmap_at`. -/
def unmapLoop (p : Paging) (opts : PgmapOptions) (unmap : PgunmapOptions) (range : Range) :
    (fuel : Nat) → MapState → (level offset : Nat) → Result (Bool × MapState)
  | 0, _, _, _ => .error .outOfFuel
  | fuel + 1, m, level, offset => do
    if ← noLargeHere p m.w then pure (false, m)
    else do
      match ← m.unmapEntry p opts unmap fuel level (range.front + offset) (range.size - offset) with
      | (false, m) => pure (false, m)
      | (true, m) => do
        let offset := offset + pageSizeAtLevel level
        if offset = range.size then pure (true, m)
        else do
          match ← ({ m.w with level := level } : PtWalker).next p m.s with
          | (.ok, w, s) =>
            -- The difference is one of 64-bit words.
            unmapLoop p opts unmap range fuel { m with w := w, s := s }
              (lowerLevel ((range.size + U64 - offset) % U64) level) offset
          | (_, w, s) => pure (false, { m with w := w, s := s })

end MapState

/-- `pgunmap_at`. -/
def pgunmapAt (p : Paging) (opts : PgmapOptions) (unmap : PgunmapOptions) (fuel : Nat)
    (s : PageTables) (root : Nat) (virtRange : Range) : Result (Bool × PageTables) :=
  if !(hasAlign virtRange.front PAGE_SIZE && hasAlign virtRange.size PAGE_SIZE) then .ok (false, s)
  else do
    let w ← PtWalker.createForPagemap p s root virtRange.front
    let (result, m) ← unmapLoop p opts unmap virtRange fuel
      { w := w, s := s, split := none, delayedFree := [], hasFree := true }
      (unmapLevel w virtRange.size) 0
    pure (result, m.s)

end OsKernel.Mm
