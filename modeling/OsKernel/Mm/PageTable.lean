import OsKernel.Base.Fault
import OsKernel.Base.RadixTree
import OsKernel.Mm.Types

/-!
# Page tables (`kernel/arch/x86_64/mm/types.{h,c}`, `kernel/mm/mm_types.h`)

A page table is a page of 512 entries of 64 bits, given by its physical address. The
tables of a pagemap form a radix tree (`OsKernel.Base.RadixTree`) of four levels, or of
five with 5-level paging, and an entry of level 2 or 3 may be a *large page* instead of
naming a table.

`translate` is the walk that the processor's manual describes. The walker of the kernel
is compared with it in `OsKernel.Mm.WalkerProof`.
-/

namespace OsKernel.Mm

open Nat

variable {level v : Nat}

/-- `PGT_LEVEL_COUNT`. -/
def PGT_LEVEL_COUNT : Nat := 5

/-- `PGT_PTE_COUNT`. -/
def PGT_PTE_COUNT : Nat := 512

/-- What the kernel finds out about paging when it boots. -/
structure Paging where
  /-- `PAGING_MODE == LIMINE_PAGING_MODE_X86_64_5LVL`. -/
  has5lvlPaging : Bool
  /-- `largepage_level_info_list[LARGEPAGE_LEVEL_1GIB].is_supported`. -/
  has1gibPages : Bool
  deriving DecidableEq, Repr

namespace Paging

/-- `pgt_get_top_level`. -/
def pgtGetTopLevel (p : Paging) : Nat := if p.has5lvlPaging then 5 else 4

/-- The members `is_supported` of `largepage_level_info_list`. -/
def isSupported (p : Paging) (level : Nat) : Bool := level == 2 || (level == 3 && p.has1gibPages)

/--
`pte_level_can_have_large`. The list has an element for each level below `PGT_LEVEL_COUNT`, so
level 5 reads past its end.
-/
def pteLevelCanHaveLarge (p : Paging) (level : Nat) : Result Bool :=
  if level < PGT_LEVEL_COUNT then .ok (p.isSupported level) else .error .outOfBounds

end Paging

/-- `PAGE_SHIFTS[level - 1]`. -/
def pageShift (level : Nat) : Nat := PAGE_SHIFT + 9 * (level - 1)

/-- `PAGE_SIZE_AT_LEVEL`. -/
def pageSizeAtLevel (level : Nat) : Nat := 2 ^ pageShift level

/-- `virt_to_pt_index`; `PT_LEVEL_MASKS` has the same mask for each level. -/
def virtToPtIndex (virt level : Nat) : Nat := (virt >>> pageShift level) &&& 0x1ff

/-! ## Entries -/

/-- `pte_is_present`. -/
def pteIsPresent (pte : Nat) : Bool := pte.testBit 0

/-- `pte_is_large`. -/
def pteIsLarge (pte : Nat) : Bool := pte.testBit 7

/-- `pte_to_phys`. -/
def pteToPhys (pte : Nat) : Nat := pte &&& 0x0000fffffffff000

/-- `PGT_FLAGS`: present and writable. -/
def PGT_FLAGS : Nat := 3

/-- `refcount_max`, the largest count. -/
def REFCOUNT_MAX : Int := 2 ^ 31 - 1

/-! ## The tables in memory -/

/-- The page tables in memory, and the pages that new tables are made of. -/
structure PageTables where
  /-- The entries of the table at a physical address. -/
  entries : Nat → Nat → Nat
  /--
  The `refcount` that the union in the `struct page` of a page starts with: `table.refcount`,
  `used.refcount` or `largetail.refcount`.
  -/
  refcount : Nat → Int
  /-- `page_get_state(page) == PAGE_STATE_TABLE`. -/
  isTable : Nat → Bool
  /-- `page_get_state(page) == PAGE_STATE_LARGE_HEAD`. -/
  isLargeHead : Nat → Bool
  /-- The pages that `alloc_pgtable` is going to return. -/
  pool : List Nat
  /-- The pages that were given back with `free_pgtable`, the last one first. -/
  freed : List Nat

namespace PageTables

/-- `pte_read(&table[index])`. -/
def pteRead (s : PageTables) (table : Option Nat) (index : Nat) : Result Nat :=
  match table with
  | none => .error .nullDeref
  | some t => if index < PGT_PTE_COUNT then .ok (s.entries t index) else .error .outOfBounds

/-- Write one entry. -/
def setEntry (s : PageTables) (t index value : Nat) : PageTables :=
  { s with entries := Function.update s.entries t (Function.update (s.entries t) index value) }

/-- `pte_write(&table[index], value)`. -/
def pteWrite (s : PageTables) (table : Option Nat) (index value : Nat) : Result PageTables :=
  match table with
  | none => .error .nullDeref
  | some t => if index < PGT_PTE_COUNT then .ok (s.setEntry t index value) else .error .outOfBounds

/-- `ref_up` on the count of a table. -/
def refUp (s : PageTables) (table : Option Nat) : Result PageTables :=
  match table with
  | none => .error .nullDeref
  | some t =>
    if s.refcount t < 0 ∨ s.refcount t = REFCOUNT_MAX then .error .panic
    else .ok { s with refcount := Function.update s.refcount t (s.refcount t + 1) }

/-- `ref_down` on the count of a table: whether that was the last reference. -/
def refDown (s : PageTables) (table : Option Nat) : Result (Bool × PageTables) :=
  match table with
  | none => .error .nullDeref
  | some t =>
    if s.refcount t < 1 ∨ s.refcount t = REFCOUNT_MAX then .error .panic
    else .ok (s.refcount t == 1,
      { s with refcount := Function.update s.refcount t (s.refcount t - 1) })

/--
`alloc_pgtable`: a page that `alloc_table` has zeroed and given an empty count, `none` for
`INVALID_PHYS`.
-/
def allocPgtable (s : PageTables) : Option (Nat × PageTables) :=
  match s.pool with
  | [] => none
  | phys :: pool =>
    some (phys,
      { s with
        entries := Function.update s.entries phys fun _ => 0
        refcount := Function.update s.refcount phys 0
        isTable := Function.update s.isTable phys true
        isLargeHead := Function.update s.isLargeHead phys false
        pool := pool })

/-- `free_pgtable`. -/
def freePgtable (s : PageTables) (table : Nat) : PageTables :=
  { s with isTable := Function.update s.isTable table false, freed := table :: s.freed }

/-! ## The textbook walk -/

/--
The walk from the table of a level: descend through present entries that are no large pages, and
stop at an entry of level 1 or at a large page of a level that allows them.
-/
def translateFrom (p : Paging) (s : PageTables) (virt : Nat) : (level table : Nat) → Option Nat
  | 0, _ => none
  | level + 1, table =>
    let entry := s.entries table (virtToPtIndex virt (level + 1))
    if !pteIsPresent entry then none
    else if level = 0 || (p.isSupported (level + 1) && pteIsLarge entry) then
      some (pteToPhys entry + virt % pageSizeAtLevel (level + 1))
    else translateFrom p s virt level (pteToPhys entry)

/-- The physical address that the tables below `root` give a virtual address. -/
def translate (p : Paging) (s : PageTables) (root virt : Nat) : Option Nat :=
  translateFrom p s virt p.pgtGetTopLevel root

end PageTables

/-! ## Page tables as a radix tree -/

/-- The tables below `root` as a radix tree. -/
def Paging.radix (p : Paging) (root : Nat) : Radix Nat Nat where
  root := root
  top := p.pgtGetTopLevel
  width := PGT_PTE_COUNT
  child level entry :=
    if pteIsPresent entry && level != 1 && !(p.isSupported level && pteIsLarge entry) then
      some (pteToPhys entry)
    else none

/-- The level and the entry where the walk of an address ends. -/
def walkEnd (p : Paging) (s : PageTables) (root virt : Nat) : Nat × Nat :=
  (p.radix root).lookup s.entries (virtToPtIndex virt) p.pgtGetTopLevel root

/-- The level and the entry of the page that an address lies in, if it has a translation. -/
def PageTables.leafAt (p : Paging) (s : PageTables) (root virt : Nat) : Option (Nat × Nat) :=
  if pteIsPresent (walkEnd p s root virt).2 then some (walkEnd p s root virt) else none

/-- The translation that an entry of a level gives if the walk ends there. -/
def leafPhys (virt : Nat) (leaf : Nat × Nat) : Option Nat :=
  if pteIsPresent leaf.2 then some (pteToPhys leaf.2 + virt % pageSizeAtLevel leaf.1) else none

variable {p : Paging} {s : PageTables} {root virt : Nat}
variable {k entry u : Nat}

@[simp] theorem radix_root : (p.radix root).root = root := rfl

@[simp] theorem radix_top : (p.radix root).top = p.pgtGetTopLevel := rfl

theorem radix_child :
    (p.radix root).child level entry =
      if pteIsPresent entry && level != 1 && !(p.isSupported level && pteIsLarge entry) then
        some (pteToPhys entry)
      else none := rfl

theorem radix_child_one (entry : Nat) : (p.radix root).child 1 entry = none := by
  simp [radix_child]

theorem radix_child_absent (h : pteIsPresent entry = false) :
    (p.radix root).child level entry = none := by
  simp [radix_child, h]

theorem radix_child_large (hs : p.isSupported level = true) (h : pteIsLarge entry = true) :
    (p.radix root).child level entry = none := by
  simp [radix_child, hs, h]

theorem radix_child_table (h : pteIsPresent entry = true) (hl : level ≠ 1)
    (hn : (p.isSupported level && pteIsLarge entry) = false) :
    (p.radix root).child level entry = some (pteToPhys entry) := by
  simp [radix_child, h, hl, hn]

theorem three_lt_top : 3 < p.pgtGetTopLevel := by
  unfold Paging.pgtGetTopLevel
  split <;> omega

theorem top_pos : 0 < p.pgtGetTopLevel := lt_trans (by decide) three_lt_top

theorem top_le : p.pgtGetTopLevel ≤ PGT_LEVEL_COUNT := by
  unfold Paging.pgtGetTopLevel PGT_LEVEL_COUNT
  split <;> omega

/-- The textbook walk is the walk of the radix tree, read as a translation. -/
theorem translateFrom_eq (level table : Nat) :
    s.translateFrom p virt (level + 1) table =
      leafPhys virt ((p.radix root).lookup s.entries (virtToPtIndex virt) (level + 1) table) := by
  induction level generalizing table with
  | zero =>
    rw [PageTables.translateFrom, Radix.lookup, radix_child_one]
    cases hpr : pteIsPresent (s.entries table (virtToPtIndex virt (0 + 1))) with
    | false => simp [leafPhys, hpr]
    | true => simp [leafPhys, hpr]
  | succ level ih =>
    rw [PageTables.translateFrom, Radix.lookup]
    cases hpr : pteIsPresent (s.entries table (virtToPtIndex virt (level + 1 + 1))) with
    | false => simp [radix_child_absent hpr, leafPhys, hpr]
    | true =>
      cases hlg : (p.isSupported (level + 1 + 1) &&
          pteIsLarge (s.entries table (virtToPtIndex virt (level + 1 + 1)))) with
      | true =>
        obtain ⟨hsup, hlarge⟩ := Bool.and_eq_true_iff.mp hlg
        simp [radix_child_large hsup hlarge, leafPhys, hpr]
      | false => simp [radix_child_table hpr (by omega) hlg, ih]

theorem translate_eq : s.translate p root virt = leafPhys virt (walkEnd p s root virt) := by
  obtain ⟨n, hn⟩ : ∃ n, p.pgtGetTopLevel = n + 1 :=
    ⟨p.pgtGetTopLevel - 1, by have := @top_pos p; omega⟩
  rw [PageTables.translate, walkEnd, hn]
  exact translateFrom_eq n root

theorem translate_eq_leafAt :
    s.translate p root virt = (s.leafAt p root virt).bind (leafPhys virt) := by
  rw [translate_eq, PageTables.leafAt]
  split
  · rfl
  · simp [leafPhys, ‹¬ _›]

theorem leafAt_eq_none : s.leafAt p root virt = none ↔ s.translate p root virt = none := by
  rw [translate_eq, PageTables.leafAt, leafPhys]
  split
  · simp
  · simp

/-! ## Indices of addresses -/

theorem virtToPtIndex_eq (virt level : Nat) :
    virtToPtIndex virt level = virt / pageSizeAtLevel level % PGT_PTE_COUNT := by
  unfold virtToPtIndex pageSizeAtLevel PGT_PTE_COUNT
  rw [shiftRight_eq_div_pow, show (0x1ff : Nat) = 2 ^ 9 - 1 from rfl,
    and_two_pow_sub_one_eq_mod]

theorem virtToPtIndex_lt (virt level : Nat) : virtToPtIndex virt level < PGT_PTE_COUNT := by
  rw [virtToPtIndex_eq]
  exact mod_lt _ (by decide)

theorem pageSizeAtLevel_pos (level : Nat) : 0 < pageSizeAtLevel level := Nat.two_pow_pos _

theorem pageSizeAtLevel_succ (h : 0 < level) :
    pageSizeAtLevel (level + 1) = pageSizeAtLevel level * PGT_PTE_COUNT := by
  unfold pageSizeAtLevel pageShift PGT_PTE_COUNT
  rw [show (512 : Nat) = 2 ^ 9 from rfl, ← pow_add]
  congr 1
  omega

/-- The first address after the page of a level that holds `virt`. -/
def pageAfter (level virt : Nat) : Nat :=
  (virt / pageSizeAtLevel level + 1) * pageSizeAtLevel level

/-- After the last page of a table comes the first page of the next table. -/
theorem pageAfter_carry (hlevel : 0 < level) (h : virtToPtIndex virt level + 1 = PGT_PTE_COUNT) :
    pageAfter level virt = pageAfter (level + 1) virt := by
  rw [virtToPtIndex_eq] at h
  unfold pageAfter
  rw [pageSizeAtLevel_succ hlevel, ← Nat.div_div_eq_div_mul]
  have hsplit := div_add_mod (virt / pageSizeAtLevel level) PGT_PTE_COUNT
  have hnum : virt / pageSizeAtLevel level + 1 =
      (virt / pageSizeAtLevel level / PGT_PTE_COUNT + 1) * PGT_PTE_COUNT := by
    rw [add_mul, one_mul, mul_comm]
    omega
  rw [hnum]
  ring

theorem pageSizeAtLevel_add (h : 0 < level) (n : Nat) :
    pageSizeAtLevel (level + n) = pageSizeAtLevel level * PGT_PTE_COUNT ^ n := by
  induction n with
  | zero => simp
  | succ n ih => rw [← add_assoc, pageSizeAtLevel_succ (by omega), ih, mul_assoc, pow_succ]

theorem virtToPtIndex_pageAfter_below (hk : 0 < k) (hlt : k < level) :
    virtToPtIndex (pageAfter level virt) k = 0 := by
  obtain ⟨n, rfl⟩ : ∃ n, level = k + (n + 1) := ⟨level - k - 1, by omega⟩
  rw [virtToPtIndex_eq]
  unfold pageAfter
  rw [pageSizeAtLevel_add hk]
  generalize virt / (pageSizeAtLevel k * PGT_PTE_COUNT ^ (n + 1)) + 1 = a
  rw [show a * (pageSizeAtLevel k * PGT_PTE_COUNT ^ (n + 1)) =
      pageSizeAtLevel k * (a * PGT_PTE_COUNT ^ n * PGT_PTE_COUNT) by ring,
    Nat.mul_div_cancel_left _ (pageSizeAtLevel_pos k), Nat.mul_mod_left]

section pageAfter

variable {level : Nat} (h : virtToPtIndex virt level + 1 < PGT_PTE_COUNT)
include h

theorem virtToPtIndex_pageAfter_self :
    virtToPtIndex (pageAfter level virt) level = virtToPtIndex virt level + 1 := by
  rw [virtToPtIndex_eq] at h
  rw [virtToPtIndex_eq, virtToPtIndex_eq]
  unfold pageAfter
  rw [Nat.mul_div_cancel _ (pageSizeAtLevel_pos level), Nat.add_mod,
    mod_eq_of_lt (b := PGT_PTE_COUNT) (a := 1) (by decide), mod_eq_of_lt h]

theorem pageAfter_div (hlevel : 0 < level) (hlt : level < k) :
    pageAfter level virt / pageSizeAtLevel k = virt / pageSizeAtLevel k := by
  obtain ⟨n, rfl⟩ : ∃ n, k = level + (n + 1) := ⟨k - level - 1, by omega⟩
  rw [virtToPtIndex_eq] at h
  unfold pageAfter
  rw [pageSizeAtLevel_add hlevel, ← Nat.div_div_eq_div_mul, ← Nat.div_div_eq_div_mul,
    Nat.mul_div_cancel _ (pageSizeAtLevel_pos level), pow_succ, mul_comm (PGT_PTE_COUNT ^ n),
    ← Nat.div_div_eq_div_mul, ← Nat.div_div_eq_div_mul]
  -- Adding one to a number that does not end in 511 does not change what stands before that.
  have hdiv : (virt / pageSizeAtLevel level + 1) / PGT_PTE_COUNT =
      virt / pageSizeAtLevel level / PGT_PTE_COUNT := by
    have hsplit := div_add_mod (virt / pageSizeAtLevel level) PGT_PTE_COUNT
    unfold PGT_PTE_COUNT at h hsplit ⊢
    omega
  rw [hdiv]

theorem virtToPtIndex_pageAfter_above (hlevel : 0 < level) (hlt : level < k) :
    virtToPtIndex (pageAfter level virt) k = virtToPtIndex virt k := by
  rw [virtToPtIndex_eq, virtToPtIndex_eq, pageAfter_div h hlevel hlt]

end pageAfter

/-! ## Pages of addresses -/

/-- An address lies in an entry of a table, which lies in a page of the level above. -/
theorem div_pageSizeAtLevel (h : 0 < level) :
    virt / pageSizeAtLevel level =
      virt / pageSizeAtLevel (level + 1) * PGT_PTE_COUNT + virtToPtIndex virt level := by
  rw [virtToPtIndex_eq, pageSizeAtLevel_succ h, ← Nat.div_div_eq_div_mul, mul_comm]
  exact (div_add_mod _ _).symm

theorem virtToPtIndex_of_div (hpos : 0 < level)
    (h : v / pageSizeAtLevel level = u / pageSizeAtLevel level) (hk : level ≤ k) :
    virtToPtIndex v k = virtToPtIndex u k := by
  obtain ⟨n, rfl⟩ : ∃ n, k = level + n := ⟨k - level, by omega⟩
  rw [virtToPtIndex_eq, virtToPtIndex_eq, pageSizeAtLevel_add hpos, ← Nat.div_div_eq_div_mul,
    ← Nat.div_div_eq_div_mul, h]

/-- Indices from a level up to `n`, and the page of the level above, say which page it is. -/
theorem div_eq_of_indices {n : Nat} (hpos : 0 < level) (hle : level ≤ n + 1)
    (hregion : v / pageSizeAtLevel (n + 1) = u / pageSizeAtLevel (n + 1))
    (h : ∀ k, level ≤ k → k ≤ n → virtToPtIndex v k = virtToPtIndex u k) :
    v / pageSizeAtLevel level = u / pageSizeAtLevel level := by
  induction hle using decreasingInduction with
  | self => exact hregion
  | of_succ k hk ih =>
    have hu : u / pageSizeAtLevel k =
        u / pageSizeAtLevel (k + 1) * PGT_PTE_COUNT + virtToPtIndex u k := div_pageSizeAtLevel hpos
    rw [div_pageSizeAtLevel hpos, hu, ih (by omega) fun j hj hjn => h j (by omega) hjn,
      h k le_rfl (by omega)]

/-- The addresses that the processor accepts: those of the lower and of the upper half. -/
def Canonical (p : Paging) (virt : Nat) : Prop :=
  virt < pageSizeAtLevel (p.pgtGetTopLevel + 1) / 2 ∨
    (U64 - pageSizeAtLevel (p.pgtGetTopLevel + 1) / 2 ≤ virt ∧ virt < U64)

instance (p : Paging) (virt : Nat) : Decidable (Canonical p virt) :=
  inferInstanceAs (Decidable (_ ∨ _))

theorem Canonical.lt (hv : Canonical p v) : v < U64 := by
  rcases hv with hlow | ⟨-, hlt⟩
  · have hhalf : pageSizeAtLevel (p.pgtGetTopLevel + 1) / 2 < U64 := by
      unfold Paging.pgtGetTopLevel
      split <;> decide
    omega
  · exact hlt

/-- The index of the top level says which half an address is in. -/
theorem Canonical.region (hv : Canonical p v) (hu : Canonical p u)
    (h : virtToPtIndex v p.pgtGetTopLevel = virtToPtIndex u p.pgtGetTopLevel) :
    v / pageSizeAtLevel (p.pgtGetTopLevel + 1) = u / pageSizeAtLevel (p.pgtGetTopLevel + 1) := by
  rw [virtToPtIndex_eq, virtToPtIndex_eq] at h
  unfold Canonical at hv hu
  unfold Paging.pgtGetTopLevel at hv hu h ⊢
  cases hfive : p.has5lvlPaging with
  | false =>
    simp only [hfive, Bool.false_eq_true, ↓reduceIte, pageSizeAtLevel, pageShift, PAGE_SHIFT, PGT_PTE_COUNT,
      U64, reduceAdd, reduceSub, reduceMul, reducePow, reduceDiv] at hv hu h ⊢
    omega
  | true =>
    simp only [hfive, ↓reduceIte, pageSizeAtLevel, pageShift, PAGE_SHIFT, PGT_PTE_COUNT, U64,
      reduceAdd, reduceSub, reduceMul, reducePow, reduceDiv] at hv hu h ⊢
    omega

/-! ## Aligned addresses -/

theorem pageSizeAtLevel_dvd (h : level ≤ k) :
    pageSizeAtLevel level ∣ pageSizeAtLevel k := by
  refine pow_dvd_pow 2 ?_
  unfold pageShift
  omega

section aligned

variable {level e v : Nat} (h : pageSizeAtLevel level ∣ e)
include h

theorem pageAfter_of_dvd : pageAfter level e = e + pageSizeAtLevel level := by
  rw [pageAfter, add_mul, one_mul, Nat.div_mul_cancel h]

theorem div_eq_iff_of_dvd :
    v / pageSizeAtLevel level = e / pageSizeAtLevel level ↔ e ≤ v ∧ v < e + pageSizeAtLevel level := by
  have hpos := pageSizeAtLevel_pos level
  obtain ⟨q, rfl⟩ := h
  have hcomm : pageSizeAtLevel level * q = q * pageSizeAtLevel level := mul_comm _ _
  rw [Nat.mul_div_cancel_left _ hpos, Nat.div_eq_iff hpos]
  constructor
  · omega
  · omega

theorem virtToPtIndex_of_dvd (hk : 0 < k) (hlt : k < level) : virtToPtIndex e k = 0 := by
  obtain ⟨n, rfl⟩ : ∃ n, level = k + (n + 1) := ⟨level - k - 1, by omega⟩
  rw [pageSizeAtLevel_add hk] at h
  obtain ⟨a, rfl⟩ := h
  rw [virtToPtIndex_eq, mul_assoc, Nat.mul_div_cancel_left _ (pageSizeAtLevel_pos k), pow_succ]
  exact mod_eq_zero_of_dvd ⟨PGT_PTE_COUNT ^ n * a, by ring⟩

end aligned

end OsKernel.Mm
