import OsKernel.Mm.PageTable

/-!
# The page-table walker (`kernel/mm/walker.c`)

A walker stands at a virtual address: for every level it holds a table and an index into
it, and `level` is the lowest level that has a table. `ptwalker_create_for_pagemap` walks
down from the root, `ptwalker_next_with_options` moves on to the next entry of a level and
`ptwalker_prev_with_options` back to the one before, and `ptwalker_fill_in_to` makes the
tables that are missing on the way down.

A member `tables[level - 1]` of the source is `tables level` here, and so with
`indices`. A table is the physical address of its page, `none` for NULL.
-/

namespace OsKernel.Mm

/-- `enum pt_walker_result`. -/
inductive WalkerResult where
  | ok
  | reachedEnd
  | allocFail
  | badIncr
  deriving DecidableEq, Repr

/--
`PTWALKER_DONE`. The source has −1; it is only ever compared with levels, which are at least 1.
-/
def PTWALKER_DONE : Nat := 0

/-- `struct pt_walker`, without the two callbacks. -/
structure PtWalker where
  tables : Nat → Option Nat
  indices : Nat → Nat
  level : Nat
  topLevel : Nat

namespace PtWalker

/-- Write `tables[level - 1]`. -/
def setTable (w : PtWalker) (level : Nat) (table : Option Nat) : PtWalker :=
  { w with tables := Function.update w.tables level table }

/-- Write `indices[level - 1]`. -/
def setIndex (w : PtWalker) (level index : Nat) : PtWalker :=
  { w with indices := Function.update w.indices level index }

/-! ## Creating a walker -/

/--
One round of the loop of `ptwalker_create_for_pagemap`: the table of the level below
`parentLevel`, and what `walker->level` becomes.
-/
def createStep (p : Paging) (s : PageTables) (w : PtWalker) (parentLevel : Nat)
    (prevTable : Option Nat) : Result (Option Nat × Nat) :=
  match prevTable with
  | none => .ok (none, w.level)
  | some table => do
    let entry ← s.pteRead (some table) (w.indices parentLevel)
    if pteIsPresent entry then
      if !(← p.pteLevelCanHaveLarge parentLevel) || !pteIsLarge entry then
        pure (some (pteToPhys entry), parentLevel - 1)
      else pure (none, parentLevel)
    else pure (none, w.level)

/-- The loop of `ptwalker_create_for_pagemap` over the levels below the top. -/
def createLoop (p : Paging) (s : PageTables) (virt : Nat) :
    (level : Nat) → PtWalker → (prevTable : Option Nat) → Result PtWalker
  | 0, w, _ => .ok w
  | level + 1, w, prevTable => do
    let (table, walkerLevel) ← createStep p s w (level + 2) prevTable
    let w := (w.setTable (level + 1) table).setIndex (level + 1) (virtToPtIndex virt (level + 1))
    createLoop p s virt level { w with level := walkerLevel } table

/-- `ptwalker_create_for_pagemap`, with the physical address of the pagemap's root. -/
def createForPagemap (p : Paging) (s : PageTables) (root virt : Nat) : Result PtWalker :=
  if !hasAlign root PAGE_SIZE || !hasAlign virt PAGE_SIZE then .error .panic
  else
    let top := p.pgtGetTopLevel
    createLoop p s virt (top - 1)
      { tables := Function.update (fun _ => none) top (some root)
        indices := Function.update (fun _ => 0) top (virtToPtIndex virt top)
        level := top
        topLevel := top }
      (some root)

/-! ## Moving on -/

/-- `reset_levels_lower_than`. -/
def resetLevelsLowerThan (w : PtWalker) (level : Nat) : PtWalker :=
  { w with
    tables := fun k => if k < level then none else w.tables k
    indices := fun k => if k < level then 0 else w.indices k }

/-- The condition under which `setup_levels_lower_than` stops at an entry of a level. -/
def stopsAt (p : Paging) (level entry : Nat) : Result Bool :=
  if !pteIsPresent entry then .ok true
  else do
    let canHaveLarge ← p.pteLevelCanHaveLarge level
    pure (canHaveLarge && pteIsLarge entry)

/-- `setup_levels_lower_than` for the levels from `level` down, below the entry `entry`. -/
def setupLevels (p : Paging) (s : PageTables) : (level : Nat) → PtWalker → (entry : Nat) →
    Result PtWalker
  | 0, _, _ => .error .outOfBounds
  | level + 1, w, entry => do
    let table := some (pteToPhys entry)
    let w := (w.setTable (level + 1) table).setIndex (level + 1) 0
    let entry ← s.pteRead table 0
    if ← stopsAt p (level + 1) entry then pure { w with level := level + 1 }
    else if level = 0 then pure { w with level := 1 }
    else setupLevels p s level w entry

/-- `setup_levels_lower_than`. -/
def setupLevelsLowerThan (p : Paging) (s : PageTables) (w : PtWalker) (parentLevel entry : Nat) :
    Result PtWalker := setupLevels p s (parentLevel - 1) w entry

/-- What `ptwalker_next_with_options` does at a present entry, in two places. -/
def enterEntry (p : Paging) (s : PageTables) (w : PtWalker) (level entry : Nat) :
    Result PtWalker := do
  if !(← p.pteLevelCanHaveLarge level) then setupLevelsLowerThan p s w level entry
  else if pteIsLarge entry then pure { w.resetLevelsLowerThan level with level := level }
  else setupLevelsLowerThan p s w level entry

/-- How the loop that carries an index into the next level ends. -/
inductive Carried where
  | returned (result : WalkerResult) (w : PtWalker)
  /-- The entry at the level reached is not present. -/
  | absent (level : Nat) (w : PtWalker)

/-- The loop of `ptwalker_next_with_options`, from the level whose index has run over. -/
def carry (p : Paging) (s : PageTables) : (fuel : Nat) → PtWalker → (level : Nat) → Result Carried
  | 0, _, _ => .error .outOfFuel
  | fuel + 1, w, level =>
    if w.topLevel < level + 1 then
      -- With five levels `*indices_ptr` is past the end of `indices`.
      if PGT_LEVEL_COUNT < level + 1 then .error .outOfBounds
      else
        .ok (.returned .reachedEnd
          { (w.setIndex (level + 1) 0).resetLevelsLowerThan (level + 1) with
            level := PTWALKER_DONE })
    else
      let index := w.indices (level + 1) + 1
      let w := w.setIndex (level + 1) index
      if index = PGT_PTE_COUNT then carry p s fuel w (level + 1)
      else do
        let entry ← s.pteRead (w.tables (level + 1)) index
        if !pteIsPresent entry then
          pure (.absent (level + 1) (w.resetLevelsLowerThan (level + 1)))
        else do
          let w ← enterEntry p s w (level + 1) entry
          pure (.returned .ok w)

/-! ## Making and dropping tables -/

/-- The loop of `ptwalker_deref_from_level`. -/
def derefLoop : (fuel : Nat) → PtWalker → PageTables → (level : Nat) → (table : Option Nat) →
    Result (PtWalker × PageTables)
  | 0, _, _, _, _ => .error .outOfFuel
  | fuel + 1, w, s, level, table =>
    if w.topLevel < level then .ok ({ w with level := level }, s)
    else do
      let (last, s) ← s.refDown table
      if !last then pure ({ w with level := level }, s)
      else if level ≠ w.topLevel then do
        let s ← s.pteWrite (w.tables (level + 1)) (w.indices (level + 1)) 0
        derefLoop fuel w (s.freePgtable (table.getD 0)) (level + 1) (w.tables (level + 1))
      else derefLoop fuel w (s.freePgtable (table.getD 0)) (level + 1) table

/-- `ptwalker_deref_from_level`. -/
def derefFromLevel (w : PtWalker) (s : PageTables) (level : Nat) : Result (PtWalker × PageTables) :=
  if level < w.level || w.topLevel < level then .ok (w, s)
  else derefLoop (PGT_LEVEL_COUNT + 1) w s level (w.tables level)

/-- `ptwalker_drop_lowest`. -/
def dropLowest (w : PtWalker) (s : PageTables) : Result (PtWalker × PageTables) :=
  derefFromLevel ((w.setTable w.level none).setIndex w.level 0) s (w.level + 1)

/-- The loop of `alloc_levels_down_to`, from the level whose table is missing. -/
def allocLoop (lastLevel : Nat) (allocLastLevel shouldRef : Bool) :
    (level : Nat) → PtWalker → PageTables → Result (WalkerResult × PtWalker × PageTables)
  | 0, _, _ => .error .outOfBounds
  | level + 1, w, s =>
    let parentTable := w.tables (level + 2)
    match s.allocPgtable with
    | none => do
      let (w, s) ← dropLowest { w with level := level + 2 } s
      pure (.allocFail, w, s)
    | some (phys, s) => do
      let w := w.setTable (level + 1) (some phys)
      let s ← s.pteWrite parentTable (w.indices (level + 2)) (phys ||| PGT_FLAGS)
      let s ← if shouldRef then s.refUp parentTable else pure s
      if (level = lastLevel && !allocLastLevel) || level < lastLevel then
        pure (.ok, { w with level := level + 1 }, s)
      else allocLoop lastLevel allocLastLevel shouldRef level w s

/-- `alloc_levels_down_to`. -/
def allocLevelsDownTo (w : PtWalker) (s : PageTables) (parentLevel lastLevel : Nat)
    (allocLastLevel shouldRef : Bool) : Result (WalkerResult × PtWalker × PageTables) :=
  if parentLevel - 1 = lastLevel && !allocLastLevel then
    .ok (.ok, { w with level := parentLevel }, s)
  else allocLoop lastLevel allocLastLevel shouldRef (parentLevel - 1) w s

/-- `ptwalker_next_with_options`. Level 0 would be an index before the start of `indices`. -/
def nextWithOptions (p : Paging) (w : PtWalker) (s : PageTables) (level : Nat)
    (allocParents allocLevel shouldRef : Bool) : Result (WalkerResult × PtWalker × PageTables) :=
  if level < w.level || w.topLevel < level then .ok (.badIncr, w, s)
  else if level = 0 then .error .outOfBounds
  else
    let index := w.indices level + 1
    let w := w.setIndex level index
    if index < PGT_PTE_COUNT then
      if level = 1 then .ok (.ok, w, s)
      else do
        let entry ← s.pteRead (w.tables level) index
        if !pteIsPresent entry then pure (.ok, w.resetLevelsLowerThan level, s)
        else do
          let w ← enterEntry p s w level entry
          pure (.ok, w, s)
    else do
      match ← carry p s PGT_LEVEL_COUNT w level with
      | .returned result w => pure (result, w, s)
      | .absent landing w =>
        if !allocParents then pure (.ok, { w with level := landing }, s)
        else allocLevelsDownTo w s landing level allocLevel shouldRef

/-- `ptwalker_next`. The level −1 of a finished walker is passed on as the level 255. -/
def next (p : Paging) (w : PtWalker) (s : PageTables) :
    Result (WalkerResult × PtWalker × PageTables) :=
  if w.level = PTWALKER_DONE then .ok (.badIncr, w, s)
  else nextWithOptions p w s w.level true true true

/-- The loop of `ptwalker_prev_with_options`, from the level whose index was 0. -/
def borrow (p : Paging) (s : PageTables) : (fuel : Nat) → PtWalker → (level : Nat) → Result Carried
  | 0, _, _ => .error .outOfFuel
  | fuel + 1, w, level =>
    if w.topLevel < level + 1 then
      if PGT_LEVEL_COUNT < level + 1 then .error .outOfBounds
      else
        .ok (.returned .reachedEnd
          { (w.setIndex (level + 1) 0).resetLevelsLowerThan (level + 1) with
            level := PTWALKER_DONE })
    else
      let index := w.indices (level + 1)
      if index = 0 then borrow p s fuel (w.setIndex (level + 1) (PGT_PTE_COUNT - 1)) (level + 1)
      else do
        let w := w.setIndex (level + 1) (index - 1)
        let entry ← s.pteRead (w.tables (level + 1)) (index - 1)
        let canHaveLarge ← p.pteLevelCanHaveLarge (level + 1)
        -- Only at a level that can have large pages is the entry checked for being present.
        if !canHaveLarge then do
          let w ← setupLevelsLowerThan p s w (level + 1) entry
          pure (.returned .ok w)
        else if !pteIsPresent entry then
          pure (.absent (level + 1) (w.resetLevelsLowerThan (level + 1)))
        else if pteIsLarge entry then
          pure (.returned .ok { w.resetLevelsLowerThan (level + 1) with level := level + 1 })
        else do
          let w ← setupLevelsLowerThan p s w (level + 1) entry
          pure (.returned .ok w)

/-- `ptwalker_prev_with_options`. Level 0 would be an index before the start of `indices`. -/
def prevWithOptions (p : Paging) (w : PtWalker) (s : PageTables) (level : Nat)
    (allocParents allocLevel shouldRef : Bool) : Result (WalkerResult × PtWalker × PageTables) :=
  if level < w.level || w.topLevel < level then .ok (.badIncr, w, s)
  else if level = 0 then .error .outOfBounds
  else
    let w := if w.level < level then w.resetLevelsLowerThan level else w
    let index := w.indices level
    if index ≠ 0 then
      let w := w.setIndex level (index - 1)
      if level = 1 then .ok (.ok, w, s)
      else do
        let entry ← s.pteRead (w.tables level) (index - 1)
        if !pteIsPresent entry then pure (.ok, w.resetLevelsLowerThan level, s)
        else do
          let w ← enterEntry p s w level entry
          pure (.ok, w, s)
    else do
      match ← borrow p s PGT_LEVEL_COUNT (w.setIndex level (PGT_PTE_COUNT - 1)) level with
      | .returned result w => pure (result, w, s)
      | .absent landing w =>
        if !allocParents then pure (.ok, { w with level := landing }, s)
        else allocLevelsDownTo w s landing level allocLevel shouldRef

/-- `ptwalker_prev`. -/
def prev (p : Paging) (w : PtWalker) (s : PageTables) :
    Result (WalkerResult × PtWalker × PageTables) := prevWithOptions p w s 1 true true true

/-- `ptwalker_fill_in_to`. -/
def fillInTo (w : PtWalker) (s : PageTables) (level : Nat) (shouldRef : Bool) :
    Result (WalkerResult × PtWalker × PageTables) :=
  if w.level ≤ level then .ok (.ok, w, s)
  else allocLevelsDownTo w s w.level level true shouldRef

/-! ## Looking an address up -/

/-- `ptwalker_virt_get_phys`. -/
def virtGetPhys (p : Paging) (s : PageTables) (root virt : Nat) : Result Nat := do
  let w ← createForPagemap p s root virt
  let noLarge ← if 1 < w.level then do pure !(← p.pteLevelCanHaveLarge w.level) else pure false
  if noLarge then pure INVALID_PHYS
  else do
    let pte ← s.pteRead (w.tables w.level) (w.indices w.level)
    if !pteIsPresent pte then pure INVALID_PHYS
    else if w.level ≠ 1 && !pteIsLarge pte then pure INVALID_PHYS
    else pure (pteToPhys pte + virt % pageSizeAtLevel w.level)

/-- `ptwalker_points_to_largepage`. -/
def pointsToLargepage (p : Paging) (w : PtWalker) (s : PageTables) : Result Bool :=
  if w.level ≤ 1 then .ok false
  else do
    let canHaveLarge ← p.pteLevelCanHaveLarge w.level
    if !canHaveLarge then pure false
    else do
      let pte ← s.pteRead (w.tables w.level) (w.indices w.level)
      pure (pteIsLarge pte)

/-- `ptwalker_get_virt_addr`. The address is not sign-extended. -/
def getVirtAddr (w : PtWalker) : Nat :=
  (List.range' w.level (w.topLevel + 1 - w.level)).foldl
    (fun result level => result ||| ((w.indices level &&& 0x1ff) <<< pageShift level)) 0

end PtWalker

end OsKernel.Mm
