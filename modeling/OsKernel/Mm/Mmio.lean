import OsKernel.Adt.AddrAdd
import OsKernel.Mm.Types

/-!
# Regions of device memory (`kernel/mm/mmio.c`)

`vmap_mmio` takes a region structure from the heap, puts its node into the address space of
all regions, and then maps the pages. It can fail at each of the three. What `kmalloc` and
`arch_make_mapping` answer is an input here, so every way to fail is one; messages to the
log and the lock are left out.

The calls that are refused, and those for which there is no memory, leave everything as it
was. From then on nothing is undone: a call that finds no room keeps the region, and a call
whose pages cannot be mapped gives the region back, but not its place in the address space.
-/

namespace OsKernel.Mm

open Adt (Ptr Range AddressSpace ADDRSPACE_INVALID_ADDR)
open Adt.AvlTree (Holds)
open Adt.AddressSpace (Agrees)
open LinkedRing LinkedTree

/-- `VMAP_BASE` of x86_64. -/
def VMAP_BASE : Nat := 0xffffd00000000000

/-- `VMAP_END` of x86_64. -/
def VMAP_END : Nat := 0xffffe00000000000

/-- `GUARD_PAGE_SIZE`. -/
def GUARD_PAGE_SIZE : Nat := min (16 * 1024) PAGE_SIZE

/-- `PROT_NONE`. -/
def PROT_NONE : Nat := 0

/-- `PROT_READ | PROT_WRITE`. -/
def PROT_RW : Nat := 1 <<< 0 ||| 1 <<< 1

/-- `PROT_EXEC`. -/
def PROT_EXEC : Nat := 1 <<< 2

/-- `PROT_USER`. -/
def PROT_USER : Nat := 1 <<< 3

/-- `enum prot_fail`. -/
inductive ProtFail where
  | none
  | protNone
  | protExec
  | protUser
  deriving DecidableEq, Repr

/-- `verify_prot`. -/
def verifyProt (prot : Nat) : ProtFail :=
  if prot = PROT_NONE then .protNone
  else if prot &&& PROT_EXEC ≠ 0 then .protExec
  else if prot &&& PROT_USER ≠ 0 then .protUser
  else .none

/-- The regions: their address space, and what else is in the `struct mmio_region`s. -/
structure Mmio where
  /-- `mmio_space` and the nodes of the regions. -/
  space : AddressSpace
  /-- The regions that `kmalloc` has handed out and `kfree` has not got back. -/
  heap : Finset Ptr
  base : Ptr → Nat
  size : Ptr → Nat
  /-- The physical address that `arch_make_mapping` has mapped at `base`. -/
  phys : Ptr → Nat

namespace Mmio

/--
`map_mmio_region`, with the answers of `kmalloc` and `arch_make_mapping`. The size of the region
has 32 bits.
-/
def mapMmioRegion (s : Mmio) (fuel : Nat) (kmalloc : Option Ptr) (mapSuccess : Bool)
    (physRange : Range) : Result (Option Ptr × Mmio) := do
  let inRange ← Range.createEnd (VMAP_BASE + GUARD_PAGE_SIZE) VMAP_END
  match kmalloc with
  | none => pure (none, s)
  | some mmio =>
    let s := { s with heap := insert mmio s.heap }
    let space := (s.space.nodeInit mmio).withSize mmio ((physRange.size + GUARD_PAGE_SIZE) % U64)
    let (virtAddr, space) ← space.addrspaceFindSpaceAndAddNode fuel inRange mmio PAGE_SIZE
    let s := { s with space := space }
    if virtAddr = ADDRSPACE_INVALID_ADDR then pure (none, s)
    else if !mapSuccess then pure (none, { s with heap := s.heap.erase mmio })
    else
      let s := { s with
        base := Function.update s.base mmio virtAddr
        size := Function.update s.size mmio (physRange.size % 2 ^ 32)
        phys := Function.update s.phys mmio physRange.front }
      pure (some mmio, s)

/-- `vmap_mmio`. The flags only choose what `arch_make_mapping` is asked for. -/
def vmapMmio (s : Mmio) (fuel : Nat) (kmalloc : Option Ptr) (mapSuccess : Bool)
    (physRange : Range) (prot : Nat) : Result (Option Ptr × Mmio) :=
  if physRange.empty then .ok (none, s)
  else if !physRange.hasAlign PAGE_SIZE then .ok (none, s)
  else match verifyProt prot with
    | .none => s.mapMmioRegion fuel kmalloc mapSuccess physRange
    | .protNone => .ok (none, s)
    | .protExec => .ok (none, s)
    | .protUser => .ok (none, s)

/-! ## What a failed call owes -/

/-- The node is on the list of the address space. -/
def Listed (t : AddressSpace) (p : Ptr) : Prop :=
  ∃ L : List Ptr, IsRing t.ext.list .head (L.map .node) ∧ p ∈ L

/-- The node is in the tree of the address space. -/
def InTree (t : AddressSpace) (p : Ptr) : Prop := ∃ T, Holds t T ∧ p ∈ inorder T

/-- The call has undone what it did. -/
structure RolledBack (s s' : Mmio) : Prop where
  listed : ∀ p, Listed s'.space p ↔ Listed s.space p
  inTree : ∀ p, InTree s'.space p ↔ InTree s.space p
  /-- No node refers to memory that was given back. -/
  alive : ∀ p, Listed s'.space p ∨ InTree s'.space p → p ∈ s'.heap
  /-- The region that the call took from the heap is back. -/
  freed : s'.heap = s.heap

/-- The arguments with which `vmap_mmio` goes on. -/
def Accepts (physRange : Range) (prot : Nat) : Prop :=
  physRange.empty = false ∧ physRange.hasAlign PAGE_SIZE = true ∧ verifyProt prot = .none

section

variable {s s' : Mmio} {live : Set Ptr} {T : BinaryTree Ptr} {fuel prot : Nat}
  {kmalloc : Option Ptr} {mapSuccess : Bool} {physRange : Range}

theorem RolledBack.refl (h : Agrees s.space live T) (halive : ∀ p ∈ live, p ∈ s.heap) :
    RolledBack s s := by
  refine ⟨fun p => Iff.rfl, fun p => Iff.rfl, ?_, rfl⟩
  rintro p (⟨L, hring, hp⟩ | ⟨T', hold, hp⟩)
  · rw [ring_unique hring h.ring] at hp
    exact halive p ((h.mem p).mp hp)
  · rw [hold.unique h.holds] at hp
    exact halive p ((h.mem p).mp hp)

/-- Once there is a region, a call that returns NULL leaks it or leaves its node behind. -/
theorem mapMmioRegion_fails {mmio : Ptr} (h : Agrees s.space live T)
    (halive : ∀ p ∈ live, p ∈ s.heap) (hfresh : mmio ∉ s.heap)
    (hfuel : (inorder T).length + 2 ≤ fuel)
    (hrun : s.mapMmioRegion fuel (some mmio) mapSuccess physRange = .ok (none, s')) :
    ¬ RolledBack s s' := by
  have hnode : mmio ∉ inorder T := fun hmem => hfresh (halive mmio ((h.mem mmio).mp hmem))
  obtain ⟨inRange, -, hrun⟩ := bind_eq_ok.mp hrun
  dsimp only at hrun
  obtain ⟨⟨addr, space⟩, hfind, hrun⟩ := bind_eq_ok.mp hrun
  intro hback
  split at hrun
  · -- there is no room, and the region is not given back
    cases hrun
    apply hfresh
    rw [← hback.freed]
    exact Finset.mem_insert_self _ _
  · rename_i hvalid
    split at hrun
    · -- the region is given back, and its node is on the list
      cases hrun
      have hold : Holds ((s.space.nodeInit mmio).withSize mmio
          ((physRange.size + GUARD_PAGE_SIZE) % U64)) T :=
        (AddressSpace.nodeInit_holds h.holds hnode).of_links rfl rfl
      obtain ⟨A, B, -, hring⟩ := AddressSpace.findSpace_listed hold
        (listInit_ring h.ring hnode) hnode hfuel hfind hvalid
      have hlisted : Listed space mmio :=
        ⟨A ++ mmio :: B, hring, List.mem_append_right _ List.mem_cons_self⟩
      exact absurd (hback.alive mmio (Or.inl hlisted)) (Finset.notMem_erase _ _)
    · cases hrun

theorem vmapMmio_refused (hno : ¬ Accepts physRange prot) :
    s.vmapMmio fuel kmalloc mapSuccess physRange prot = .ok (none, s) := by
  unfold vmapMmio
  split
  · rfl
  · rename_i hempty
    split
    · rfl
    · rename_i halign
      cases hprot : verifyProt prot with
      | none => exact absurd ⟨by simpa using hempty, by simpa using halign, hprot⟩ hno
      | protNone => rfl
      | protExec => rfl
      | protUser => rfl

/-- A region that `vmap_mmio` returns is for a range that is not empty. -/
theorem vmapMmio_some {mmio : Ptr}
    (hrun : s.vmapMmio fuel kmalloc mapSuccess physRange prot = .ok (some mmio, s')) :
    0 < physRange.size ∧ s'.size mmio = physRange.size % 2 ^ 32 ∧ s'.phys mmio = physRange.front := by
  by_cases hok : Accepts physRange prot
  · have hsize : physRange.size ≠ 0 := by simpa [Range.empty] using hok.1
    rw [vmapMmio, hok.1, hok.2.1, hok.2.2, if_neg (by decide), if_neg (by decide)] at hrun
    obtain ⟨inRange, -, hrun⟩ := bind_eq_ok.mp hrun
    cases kmalloc with
    | none => cases hrun
    | some region =>
      obtain ⟨⟨addr, space⟩, -, hrun⟩ := bind_eq_ok.mp hrun
      dsimp only at hrun
      split at hrun
      · cases hrun
      · split at hrun
        · cases hrun
        · cases hrun
          exact ⟨Nat.pos_of_ne_zero hsize, by simp, by simp⟩
  · rw [vmapMmio_refused hok] at hrun
    cases hrun

/--
**When `vmap_mmio` returns NULL**, the address space and the heap are as before exactly if the call
never got to have a region: its arguments were refused, or there was no memory for the region. When
there is no room or the pages cannot be mapped, this is not so.
-/
theorem vmapMmio_rolls_back_iff (h : Agrees s.space live T) (halive : ∀ p ∈ live, p ∈ s.heap)
    (hfresh : ∀ mmio ∈ kmalloc, mmio ∉ s.heap) (hfuel : (inorder T).length + 2 ≤ fuel)
    (hrun : s.vmapMmio fuel kmalloc mapSuccess physRange prot = .ok (none, s')) :
    RolledBack s s' ↔ ¬ Accepts physRange prot ∨ kmalloc = none := by
  by_cases hok : Accepts physRange prot
  · rw [vmapMmio, hok.1, hok.2.1, hok.2.2, if_neg (by decide), if_neg (by decide)] at hrun
    cases kmalloc with
    | none =>
      cases hrun
      exact iff_of_true (RolledBack.refl h halive) (Or.inr rfl)
    | some mmio =>
      refine iff_of_false (mapMmioRegion_fails h halive (hfresh mmio rfl) hfuel hrun) ?_
      rintro (hno | hnone)
      · exact hno hok
      · cases hnone
  · rw [vmapMmio_refused hok] at hrun
    cases hrun
    exact iff_of_true (RolledBack.refl h halive) (Or.inl hok)

end

/-- No regions, as at boot. -/
def noRegions : Mmio where
  space := AddressSpace.blank fun _ => ⟨0, 0⟩
  heap := ∅
  base _ := 0
  size _ := 0
  phys _ := 0

/-- Three regions of a page each. -/
def threeRegions : Mmio where
  space := AddressSpace.threePages
  heap := {1, 2, 3}
  base p := p * 0x2000
  size _ := 0x1000
  phys p := p * 0x1000

/-- A call for one page of a device beside three regions, without memory for a fourth. -/
theorem vmapMmio_rolls_back_iff_no_memory :
    ∃ s', threeRegions.vmapMmio 5 none true ⟨0xfee00000, 0x1000⟩ PROT_RW = .ok (none, s') ∧
      RolledBack threeRegions s' := by
  have hrun : threeRegions.vmapMmio 5 none true ⟨0xfee00000, 0x1000⟩ PROT_RW
      = .ok (none, threeRegions) := rfl
  refine ⟨threeRegions, hrun, (vmapMmio_rolls_back_iff AddressSpace.threePages_agrees ?_ ?_
    (Nat.le_refl 5) hrun).mpr (Or.inr rfl)⟩
  · intro p hp
    simpa [threeRegions] using hp
  · intro mmio hmmio
    cases hmmio

/--
The same call at boot, with a region. If the page cannot be mapped, the region is given back, and its node
is on the list. A call for more than there is room for keeps its region.
-/
theorem vmapMmio_leaves_node :
    (∃ s', noRegions.vmapMmio 2 (some 1) false ⟨0xfee00000, 0x1000⟩ PROT_RW = .ok (none, s') ∧
      1 ∉ s'.heap ∧ Listed s'.space 1 ∧ InTree s'.space 1) ∧
    ∃ s', noRegions.vmapMmio 2 (some 1) true ⟨0, 0x200000000000⟩ PROT_RW = .ok (none, s') ∧
      1 ∈ s'.heap := by
  refine ⟨⟨_, rfl, by decide +kernel, ⟨[1], ?_, List.mem_singleton_self 1⟩,
    .node 1 .nil .nil, ?_, by simp⟩, _, rfl, by decide +kernel⟩
  · exact ⟨⟨⟨rfl, rfl⟩, rfl, rfl⟩, by simp⟩
  · exact ⟨⟨rfl, rfl, rfl, rfl⟩, by simp⟩

end Mmio

end OsKernel.Mm
