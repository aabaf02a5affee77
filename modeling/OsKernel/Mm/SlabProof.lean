import OsKernel.Base.Runs
import OsKernel.Mm.Slab

/-!
# Slabs over whole runs

The invariant has three layers. The pages of the slabs are apart from each other and
know their slab. In each slab the chain of free objects has as many members as the page
says, and no live object is on it. The totals and the list of the allocator follow from
the pages.

The chain runs through the memory of the free objects, so the first two layers carry
each other: whoever owns a live object may write to it, and the objects of all slabs
being apart is what keeps the chains intact.
-/

namespace OsKernel.Mm

open LinkedRing
open Function List Nat

variable {i g h h' i' : Nat} {chain : Nat → List Nat} {live C L rest : List Nat}
  {H : ListPtr → RingLinks ListPtr}

/-! ## The layout that `slab_allocator_init` chooses -/

/-- Objects that can hold an index, several of them to a slab, and slabs of at most 4 GiB. -/
structure SlabAllocator.Laid (a : SlabAllocator) : Prop where
  size : 16 ≤ a.objectSize
  count : 4 ≤ a.objectCountPerSlab
  room : a.objectCountPerSlab * a.objectSize ≤ PAGE_SIZE * 2 ^ a.slabOrder
  block : PAGE_SIZE * 2 ^ a.slabOrder ≤ 2 ^ 32

theorem SlabAllocator.Laid.count_lt {a : SlabAllocator} (h : a.Laid) :
    a.objectCountPerSlab < UINT32_MAX := by
  have hmul := mul_le_mul_left a.objectCountPerSlab h.size
  have hroom := h.room
  have hblock := h.block
  unfold UINT32_MAX
  omega

theorem findSlabOrder_spec {minSize : Nat} : ∀ {fuel n order : Nat},
    minSize ≤ PAGE_SIZE * 2 ^ (order + n) → n < fuel →
    ∃ o, findSlabOrder minSize fuel order = .ok o ∧ minSize ≤ PAGE_SIZE * 2 ^ o := by
  intro fuel
  induction fuel with
  | zero =>
    omega
  | succ fuel ih =>
    intro n order hmin hfuel
    unfold findSlabOrder
    split
    · cases n with
      | zero =>
        rw [add_zero] at hmin
        omega
      | succ n =>
        rw [show order + (n + 1) = order + 1 + n by omega] at hmin
        exact ih hmin (by omega)
    · rename_i hge
      exact ⟨order, rfl, not_lt.mp hge⟩

/-- `slab_allocator_init` succeeds, and what it lays out fits, if pages of that order exist. -/
theorem slabAllocatorInit_laid (a₀ : SlabAllocator) {arg : Nat} (hpos : 1 ≤ arg)
    (harg : arg < 2 ^ 32) :
    ∃ a, slabAllocatorInit a₀ arg = .ok (some a) ∧ a.freeObjCount = 0 ∧
      (a.slabOrder < MAX_ORDER → a.Laid) := by
  have hsome : ∃ size, alignUp arg 16 = some size := by
    cases hup : alignUp arg 16 with
    | none =>
      have hover := (alignUp_eq_none (n := arg) (k := 4)).mp hup
      omega
    | some size => exact ⟨size, rfl⟩
  obtain ⟨size, hup⟩ := hsome
  obtain ⟨hdvd, hle, hlt, -⟩ := alignUp_two_pow (n := arg) (k := 4) (by decide) hup
  have hsize : 16 ≤ size := le_of_dvd (by omega) hdvd
  have hmin : size * MIN_OBJ_PER_SLAB ≤ PAGE_SIZE * 2 ^ (0 + 23) := by
    unfold MIN_OBJ_PER_SLAB PAGE_SIZE PAGE_SHIFT
    omega
  have hfuel : 23 < 64 := by decide
  obtain ⟨order, hrun, hroom⟩ := findSlabOrder_spec hmin hfuel
  unfold slabAllocatorInit
  rw [hup]
  simp only [hrun, ok_bind, pure_eq_ok]
  refine ⟨_, rfl, rfl, ?_⟩
  intro horder
  -- the order exists, so the block has at most 4 GiB and nothing is cut off
  have hblock : PAGE_SIZE * 2 ^ order ≤ 2 ^ 32 := by
    have hpow : 2 ^ order ≤ 2 ^ 20 := Nat.pow_le_pow_right (by decide) (Nat.le_of_lt_succ horder)
    unfold PAGE_SIZE PAGE_SHIFT
    omega
  have hsmall : size % 2 ^ 32 = size := by
    unfold MIN_OBJ_PER_SLAB at hroom
    exact mod_eq_of_lt (by omega)
  have hcount : PAGE_SIZE * 2 ^ order / size % 2 ^ 32 = PAGE_SIZE * 2 ^ order / size := by
    refine mod_eq_of_lt (lt_of_le_of_lt (div_le_div_left hsize (by decide)) ?_)
    omega
  refine ⟨?_, ?_, ?_, hblock⟩
  · simp only [hsmall]
    exact hsize
  · simp only [hcount]
    rw [le_div_iff_mul_le (by omega), mul_comm]
    exact hroom
  · simp only [hsmall, hcount]
    exact div_mul_le_self _ _

namespace Slabs

variable {s s' : Slabs} {slabs : List Nat}

/-! ## Objects -/

/-- The address of an object. -/
def objAddr (s : Slabs) (head i : Nat) : Nat := s.pageToVirt head + i * s.alloc.objectSize

/-- The index stored in an object. -/
def nextOf (s : Slabs) (head i : Nat) : Nat := s.mem.load32 (s.objAddr head i)

/-- The slabs and their pages. -/
structure Blocks (s : Slabs) (slabs : List Nat) : Prop where
  nodup : slabs.Nodup
  /-- The slabs are the pages that head one of this allocator. -/
  heads : ∀ p, p ∈ slabs ↔ (s.pages p).state = .slabHead ∧ (s.pages p).allocator = some s.self
  /-- The other pages of a slab point at its head. -/
  tails : ∀ h ∈ slabs, ∀ p, h < p → p < h + 2 ^ s.alloc.slabOrder →
    (s.pages p).state = .slabTail ∧ (s.pages p).tailHead = some h
  placed : ∀ h ∈ slabs, s.base + PAGE_SIZE * (h + 2 ^ s.alloc.slabOrder) ≤ U64
  /-- There are no slabs of an order that `alloc_pages` refuses. -/
  laid : slabs ≠ [] → s.alloc.Laid

/-- What the layout of the slabs depends on. -/
structure SameLayout (s s' : Slabs) : Prop where
  self : s'.self = s.self
  base : s'.base = s.base
  objectSize : s'.alloc.objectSize = s.alloc.objectSize
  objectCount : s'.alloc.objectCountPerSlab = s.alloc.objectCountPerSlab
  slabOrder : s'.alloc.slabOrder = s.alloc.slabOrder

theorem SameLayout.trans {s₁ s₂ s₃ : Slabs} (h : SameLayout s₁ s₂) (h' : SameLayout s₂ s₃) :
    SameLayout s₁ s₃ :=
  ⟨h'.self.trans h.self, h'.base.trans h.base, h'.objectSize.trans h.objectSize,
    h'.objectCount.trans h.objectCount, h'.slabOrder.trans h.slabOrder⟩

theorem SameLayout.laid (h : SameLayout s s') (hl : s.alloc.Laid) : s'.alloc.Laid := by
  refine ⟨?_, ?_, ?_, ?_⟩
  · rw [h.objectSize]
    exact hl.size
  · rw [h.objectCount]
    exact hl.count
  · rw [h.objectCount, h.objectSize, h.slabOrder]
    exact hl.room
  · rw [h.slabOrder]
    exact hl.block

theorem SameLayout.objAddr (h : SameLayout s s') (head i : Nat) :
    s'.objAddr head i = s.objAddr head i := by
  unfold Slabs.objAddr pageToVirt
  rw [h.base, h.objectSize]

theorem Blocks.congr (h : Blocks s slabs) (hsame : SameLayout s s')
    (hpages : ∀ p, (s'.pages p).state = (s.pages p).state ∧
      (s'.pages p).tailHead = (s.pages p).tailHead ∧
      (s'.pages p).allocator = (s.pages p).allocator) : Blocks s' slabs := by
  refine ⟨h.nodup, ?_, ?_, ?_, fun hne => hsame.laid (h.laid hne)⟩
  · intro p
    rw [(hpages p).1, (hpages p).2.2, hsame.self]
    exact h.heads p
  · intro g hg p hp hp'
    rw [(hpages p).1, (hpages p).2.1]
    rw [hsame.slabOrder] at hp'
    exact h.tails g hg p hp hp'
  · intro g hg
    rw [hsame.base, hsame.slabOrder]
    exact h.placed g hg

theorem Blocks.apart (h : Blocks s slabs) {g' : Nat} (hg : g ∈ slabs) (hg' : g' ∈ slabs)
    (hne : g ≠ g') : g + 2 ^ s.alloc.slabOrder ≤ g' ∨ g' + 2 ^ s.alloc.slabOrder ≤ g := by
  by_contra hno
  rw [not_or, not_le, not_le] at hno
  have hhead := ((h.heads g).mp hg).1
  have hhead' := ((h.heads g').mp hg').1
  rcases lt_or_gt_of_ne hne with hlt | hlt
  · rw [(h.tails g hg g' hlt hno.1).1] at hhead'
    cases hhead'
  · rw [(h.tails g' hg' g hlt hno.2).1] at hhead
    cases hhead

theorem obj_inside (hl : s.alloc.Laid) (hi : i < s.alloc.objectCountPerSlab) :
    s.pageToVirt h ≤ s.objAddr h i ∧
    s.objAddr h i + s.alloc.objectSize ≤ s.pageToVirt h + PAGE_SIZE * 2 ^ s.alloc.slabOrder := by
  have hmul : (i + 1) * s.alloc.objectSize
      ≤ s.alloc.objectCountPerSlab * s.alloc.objectSize := mul_le_mul_right _ hi
  have hroom := hl.room
  rw [add_mul, one_mul] at hmul
  unfold objAddr
  omega

section

variable (hb : Blocks s slabs) (hh : h ∈ slabs) (hh' : h' ∈ slabs)
  (hi : i < s.alloc.objectCountPerSlab)
include hb hh hh' hi

theorem Blocks.obj_apart (hi' : i' < s.alloc.objectCountPerSlab) (hne : h ≠ h' ∨ i ≠ i') :
    s.objAddr h i + s.alloc.objectSize ≤ s.objAddr h' i' ∨
      s.objAddr h' i' + s.alloc.objectSize ≤ s.objAddr h i := by
  have hl := hb.laid (ne_nil_of_mem hh)
  by_cases hsame : h = h'
  · subst hsame
    have hii : i ≠ i' := by
      rcases hne with hne | hne
      · exact absurd rfl hne
      · exact hne
    unfold objAddr
    rcases lt_or_gt_of_ne hii with hlt | hlt
    · have hmul : (i + 1) * s.alloc.objectSize ≤ i' * s.alloc.objectSize :=
        mul_le_mul_right _ hlt
      rw [add_mul, one_mul] at hmul
      omega
    · have hmul : (i' + 1) * s.alloc.objectSize ≤ i * s.alloc.objectSize :=
        mul_le_mul_right _ hlt
      rw [add_mul, one_mul] at hmul
      omega
  · obtain ⟨h1, h2⟩ := obj_inside hl (h := h) hi
    obtain ⟨h3, h4⟩ := obj_inside hl (h := h') hi'
    have hvirt : ∀ {g g' : Nat}, g + 2 ^ s.alloc.slabOrder ≤ g' →
        s.pageToVirt g + PAGE_SIZE * 2 ^ s.alloc.slabOrder ≤ s.pageToVirt g' := by
      intro g g' hle
      have hmul := mul_le_mul_left PAGE_SIZE hle
      rw [mul_add] at hmul
      unfold pageToVirt
      omega
    rcases hb.apart hh hh' hsame with hle | hle
    · have := hvirt hle
      omega
    · have := hvirt hle
      omega

theorem Blocks.obj_inj (hi' : i' < s.alloc.objectCountPerSlab)
    (heq : s.objAddr h i = s.objAddr h' i') : h = h' ∧ i = i' := by
  by_contra hno
  have hsize := (hb.laid (ne_nil_of_mem hh)).size
  have hne : h ≠ h' ∨ i ≠ i' := by
    by_cases hhh : h = h'
    · exact .inr fun hii => hno ⟨hhh, hii⟩
    · exact .inl hhh
  rcases hb.obj_apart hh hh' hi hi' hne with hle | hle
  · omega
  · omega

end

/-! ## Chains -/

/-- The free objects of one slab. -/
structure Chained (s : Slabs) (h : Nat) (C : List Nat) : Prop where
  chain : Chain (s.nextOf h) UINT32_MAX (s.pages h).firstFreeIndex C
  nodup : C.Nodup
  lt : ∀ i ∈ C, i < s.alloc.objectCountPerSlab
  length : C.length = (s.pages h).freeObjCount

theorem Chained.length_le (hc : Chained s h C) :
    C.length ≤ s.alloc.objectCountPerSlab := by
  have hsub := hc.nodup.subperm fun i hi => mem_range.mpr (hc.lt i hi)
  have hle := hsub.length_le
  rwa [length_range] at hle

theorem Chained.length_lt (hc : Chained s h C) (hi : i < s.alloc.objectCountPerSlab)
    (hnot : i ∉ C) :
    C.length < s.alloc.objectCountPerSlab := by
  have hnd : (i :: C).Nodup := nodup_cons.mpr ⟨hnot, hc.nodup⟩
  have hsub : i :: C ⊆ range s.alloc.objectCountPerSlab := by
    intro j hj
    rcases mem_cons.mp hj with rfl | hj
    · exact mem_range.mpr hi
    · exact mem_range.mpr (hc.lt j hj)
  have hle := (hnd.subperm hsub).length_le
  rw [length_range, length_cons] at hle
  exact hle

theorem Chained.congr (hc : Chained s h C) (hsame : SameLayout s s')
    (hfirst : (s'.pages h).firstFreeIndex = (s.pages h).firstFreeIndex)
    (hfree : (s'.pages h).freeObjCount = (s.pages h).freeObjCount)
    (hmem : ∀ i ∈ C, ∀ x, s.objAddr h i ≤ x → x < s.objAddr h i + 4 → s'.mem x = s.mem x) :
    Chained s' h C := by
  refine ⟨?_, hc.nodup, ?_, by rw [hfree]; exact hc.length⟩
  · rw [hfirst]
    refine hc.chain.congr ?_
    intro i hi
    unfold nextOf
    rw [hsame.objAddr]
    exact Memory.load32_congr (hmem i hi)
  · rw [hsame.objectCount]
    exact hc.lt

/-- **The invariant**, for the slabs there are, their chains and the objects that are live. -/
structure Inv (s : Slabs) (slabs : List Nat) (chain : Nat → List Nat) (live : List Nat) : Prop where
  blocks : Blocks s slabs
  chained : ∀ h ∈ slabs, Chained s h (chain h)
  /-- The counter of the allocator is the sum, in 32 bits. -/
  total : s.alloc.freeObjCount = (slabs.map fun h => (s.pages h).freeObjCount).sum % 2 ^ 32
  /-- On the list are the slabs that have a free object. -/
  listed : ∃ L : List Nat, IsRing s.list .head (L.map .node) ∧
    ∀ h, h ∈ L ↔ h ∈ slabs ∧ (s.pages h).freeObjCount ≠ 0
  live_nodup : live.Nodup
  /-- The live objects are those that are on no chain. -/
  mem_live : ∀ a, a ∈ live ↔
    ∃ h ∈ slabs, ∃ i < s.alloc.objectCountPerSlab, i ∉ chain h ∧ a = s.objAddr h i

theorem Inv.notMem_live (h : Inv s slabs chain live) (hg : g ∈ slabs)
    (hi : i < s.alloc.objectCountPerSlab) (hon : i ∈ chain g) :
    s.objAddr g i ∉ live := by
  intro hlive
  obtain ⟨g', hg', i', hi', hoff, heq⟩ := (h.mem_live _).mp hlive
  obtain ⟨rfl, rfl⟩ := h.blocks.obj_inj hg hg' hi hi' heq
  exact hoff hon

theorem Inv.change {live' : List Nat} (h : Inv s slabs chain live) (hsame : SameLayout s s')
    (hpage : (s'.pages g).state = (s.pages g).state ∧
      (s'.pages g).tailHead = (s.pages g).tailHead ∧
      (s'.pages g).allocator = (s.pages g).allocator) (hother : ∀ p, p ≠ g → s'.pages p = s.pages p)
    (hmem : ∀ p ∈ slabs, p ≠ g → ∀ i ∈ chain p, ∀ x, s.objAddr p i ≤ x → x < s.objAddr p i + 4 →
      s'.mem x = s.mem x) (hC : Chained s' g C)
    (htotal : s'.alloc.freeObjCount = (slabs.map fun h => (s'.pages h).freeObjCount).sum % 2 ^ 32)
    (hlisted : ∃ L : List Nat, IsRing s'.list .head (L.map .node) ∧
      ∀ p, p ∈ L ↔ p ∈ slabs ∧ (s'.pages p).freeObjCount ≠ 0) (hnodup : live'.Nodup)
    (hlive : ∀ a, a ∈ live' ↔ ∃ p ∈ slabs, ∃ i < s.alloc.objectCountPerSlab,
      i ∉ update chain g C p ∧ a = s.objAddr p i) :
    Inv s' slabs (update chain g C) live' := by
  refine ⟨h.blocks.congr hsame ?_, ?_, htotal, hlisted, hnodup, ?_⟩
  · intro p
    by_cases hp : p = g
    · subst hp
      exact hpage
    · rw [hother p hp]
      exact ⟨rfl, rfl, rfl⟩
  · intro p hps
    by_cases hp : p = g
    · subst hp
      rw [update_self]
      exact hC
    · rw [update_of_ne hp]
      exact (h.chained p hps).congr hsame (by rw [hother p hp]) (by rw [hother p hp])
        (hmem p hps hp)
  · intro a
    rw [hlive a, hsame.objectCount]
    simp only [hsame.objAddr]

/-! ## The list of slabs -/

theorem list_add_slab (hring : IsRing H .head (L.map .node)) (hnot : h ∉ L) :
    ∃ H', listAdd H .head (.node h) = .ok H' ∧ IsRing H' .head ((h :: L).map .node) := by
  have hout : ListPtr.node h ∉ ListPtr.head :: ([] ++ L.map .node) := by
    intro hmem
    rcases mem_cons.mp hmem with hmem | hmem
    · cases hmem
    · obtain ⟨h', hh', he⟩ := mem_map.mp hmem
      cases he
      exact hnot hh'
  obtain ⟨H', hrun, hring', -⟩ := listAdd_ring (A := []) hring hout
  exact ⟨H', hrun, hring'⟩

theorem list_delete_slab (hring : IsRing H .head (L.map .node)) (hmem : h ∈ L) :
    ∃ H' L', listDelete H (.node h) = .ok H' ∧ IsRing H' .head (List.map .node L') ∧
      ∀ g, g ∈ L' ↔ g ∈ L ∧ g ≠ h := by
  obtain ⟨A, B, rfl⟩ := append_of_mem hmem
  rw [map_append, map_cons] at hring
  obtain ⟨H', hrun, hring', -⟩ := listDelete_ring hring
  refine ⟨H', A ++ B, hrun, by rw [map_append]; exact hring', ?_⟩
  -- `h` is on the list once
  have hnd := (nodup_cons.mp hring.nodup).2
  rw [← map_cons, ← map_append] at hnd
  have hnd' := nodup_middle.mp (hnd.of_map _)
  have hnot := (nodup_cons.mp hnd').1
  intro g
  simp only [mem_append, mem_cons] at hnot ⊢
  constructor
  · intro hg
    refine ⟨by tauto, ?_⟩
    intro he
    subst he
    exact hnot hg
  · tauto

/-! ## Taking an object -/

theorem unlistFull_spec (h : Inv s slabs chain live) {n : Nat} (hg : g ∈ slabs)
    (hfree : (s.pages g).freeObjCount = n + 1) (hn : n + 1 < 2 ^ 32) :
    ∃ s', (s.countDown g).unlistFull g = .ok s' ∧ SameLayout s s' ∧ s'.mem = s.mem ∧
      s'.pages = update s.pages g { s.pages g with freeObjCount := n } ∧
      s'.alloc.freeObjCount = sub32 s.alloc.freeObjCount 1 ∧
      ∃ L : List Nat, IsRing s'.list .head (L.map .node) ∧
        ∀ p, p ∈ L ↔ p ∈ slabs ∧ (s'.pages p).freeObjCount ≠ 0 := by
  have hdown : (s.countDown g).pages = update s.pages g { s.pages g with freeObjCount := n } := by
    have hmod : sub32 (n + 1) 1 = n := by
      unfold sub32
      omega
    simp only [countDown, modifyPage, hfree, hmod]
  have hself : ((s.countDown g).pages g).freeObjCount = n := by
    rw [hdown, update_self]
  obtain ⟨L, hring, hL⟩ := h.listed
  have hgL : g ∈ L := (hL g).mpr ⟨hg, by omega⟩
  have hother : ∀ p, p ≠ g → (s.countDown g).pages p = s.pages p := by
    intro p hp
    rw [hdown, update_of_ne hp]
  unfold unlistFull
  by_cases hzero : n = 0
  · -- the last free object: off the list
    rw [if_pos (by rw [hself]; exact hzero)]
    obtain ⟨H', L', hrun, hring', hL'⟩ := list_delete_slab hring hgL
    have hrun' : listDelete (s.countDown g).list (.node g) = .ok H' := hrun
    rw [hrun']
    refine ⟨_, rfl, ⟨rfl, rfl, rfl, rfl, rfl⟩, rfl, hdown, rfl, L', hring', ?_⟩
    intro p
    rw [hL' p, hL p]
    by_cases hp : p = g
    · subst hp
      simp [hself, hzero]
    · simp [hp, hother p hp]
  · rw [if_neg (by rw [hself]; exact hzero)]
    refine ⟨_, rfl, ⟨rfl, rfl, rfl, rfl, rfl⟩, rfl, hdown, rfl, L, hring, ?_⟩
    intro p
    rw [hL p]
    by_cases hp : p = g
    · subst hp
      rw [hself, hfree]
      simp [hzero]
    · rw [hother p hp]

theorem takeObject_run (h : Inv s slabs chain live) (hg : g ∈ slabs)
    (hchain : chain g = i :: rest) :
    ∃ s', s.takeObject g = .ok (some (s.objAddr g i), s') ∧ SameLayout s s' ∧ s'.mem = s.mem ∧
      s'.pages = update s.pages g
        { s.pages g with freeObjCount := rest.length, firstFreeIndex := s.nextOf g i } ∧
      s'.alloc.freeObjCount = sub32 s.alloc.freeObjCount 1 ∧
      ∃ L : List Nat, IsRing s'.list .head (L.map .node) ∧
        ∀ p, p ∈ L ↔ p ∈ slabs ∧ (s'.pages p).freeObjCount ≠ 0 := by
  have hc := h.chained g hg
  rw [hchain] at hc
  have hl := h.blocks.laid (ne_nil_of_mem hg)
  have hi := hc.lt i mem_cons_self
  have hlen := hc.length
  have hle := hc.length_le
  rw [length_cons] at hlen hle
  have hcount := hl.count_lt
  have hsmall : rest.length + 1 < 2 ^ 32 := by
    unfold UINT32_MAX at hcount
    omega
  obtain ⟨s1, hrun1, hsame1, hmem1, hpages1, htotal1, L, hring, hL⟩ :=
    unlistFull_spec h hg hlen.symm hsmall
  -- the object at the front of the chain
  have hptr : s1.getFreePtr g = .ok (some (s.objAddr g i)) := by
    have hindex : (s1.pages g).firstFreeIndex = i := by
      rw [hpages1, update_self]
      exact hc.chain.1
    have hinside := (obj_inside (h := g) hl hi).2
    have hmul : i * s1.alloc.objectSize < 2 ^ 32 := by
      have hblock := hl.block
      have hsize := hl.size
      rw [hsame1.objectSize]
      unfold objAddr at hinside
      omega
    have haddr : s1.pageToVirt g + i * s1.alloc.objectSize = s.objAddr g i := hsame1.objAddr g i
    unfold getFreePtr
    simp only [hindex]
    rw [if_neg (by omega), if_pos hmul, haddr]
  have hnext : s1.mem.load32 (s.objAddr g i) = s.nextOf g i := by
    rw [hmem1]
    rfl
  refine ⟨s1.modifyPage g fun page => { page with firstFreeIndex := s.nextOf g i }, ?_,
    ⟨hsame1.self, hsame1.base, hsame1.objectSize, hsame1.objectCount, hsame1.slabOrder⟩, hmem1, ?_,
    htotal1, L, hring, ?_⟩
  · unfold takeObject
    rw [hrun1]
    simp only [ok_bind, hptr, hnext, pure_eq_ok]
  · simp only [modifyPage, hpages1, update_self, update_idem]
  · intro p
    rw [hL p]
    by_cases hp : p = g
    · subst hp
      simp only [modifyPage, update_self]
    · simp only [modifyPage, update_of_ne hp]

/-- What taking an object leaves as it is. -/
structure Taken (s s' : Slabs) (g : Nat) : Prop where
  layout : SameLayout s s'
  mem : s'.mem = s.mem
  page : (s'.pages g).state = (s.pages g).state ∧
    (s'.pages g).tailHead = (s.pages g).tailHead ∧
    (s'.pages g).allocator = (s.pages g).allocator
  pages : ∀ p, p ≠ g → s'.pages p = s.pages p

/-- **Taking an object**: the first one of the chain becomes live. -/
theorem takeObject_spec (h : Inv s slabs chain live) (hg : g ∈ slabs)
    (hchain : chain g = i :: rest) :
    ∃ s', s.takeObject g = .ok (some (s.objAddr g i), s') ∧ Taken s s' g ∧
      Inv s' slabs (update chain g rest) (s.objAddr g i :: live) := by
  obtain ⟨s', hrun, hsame, hmem, hpages, htotal, hlisted⟩ := takeObject_run h hg hchain
  have hc := h.chained g hg
  rw [hchain] at hc
  have hi := hc.lt i mem_cons_self
  have htaken : Taken s s' g := by
    refine ⟨hsame, hmem, ?_, ?_⟩
    · rw [hpages, update_self]
      exact ⟨rfl, rfl, rfl⟩
    · intro p hp
      rw [hpages, update_of_ne hp]
  refine ⟨s', hrun, htaken, h.change hsame htaken.page htaken.pages ?_ ?_ ?_ hlisted ?_ ?_⟩
  · intro p _ _ j _ x _ _
    rw [hmem]
  · -- the rest of the chain, from where the object pointed
    refine ⟨?_, (nodup_cons.mp hc.nodup).2, ?_, ?_⟩
    · rw [hpages, update_self]
      refine hc.chain.2.congr ?_
      intro j _
      unfold nextOf
      rw [hsame.objAddr, hmem]
    · intro j hj
      rw [hsame.objectCount]
      exact hc.lt j (.tail _ hj)
    · rw [hpages, update_self]
  · have hsum : (slabs.map fun p => (s'.pages p).freeObjCount).sum + 1
        = (slabs.map fun p => (s.pages p).freeObjCount).sum + 0 := by
      refine sum_map_change h.blocks.nodup hg ?_ ?_
      · rw [hpages, update_self, ← hc.length, length_cons]
      · intro p _ hp
        rw [htaken.pages p hp]
    rw [htotal, h.total, sub32]
    omega
  · exact nodup_cons.mpr ⟨h.notMem_live hg hi (by rw [hchain]; exact mem_cons_self), h.live_nodup⟩
  · intro a
    rw [mem_cons, h.mem_live a]
    have hnot := (nodup_cons.mp hc.nodup).1
    constructor
    · intro ha
      rcases ha with rfl | ⟨p, hp, j, hj, hoff, rfl⟩
      · exact ⟨g, hg, i, hi, by rwa [update_self], rfl⟩
      · refine ⟨p, hp, j, hj, ?_, rfl⟩
        by_cases hpg : p = g
        · subst hpg
          rw [update_self]
          rw [hchain] at hoff
          exact fun hmem => hoff (.tail _ hmem)
        · rwa [update_of_ne hpg]
    · intro ha
      obtain ⟨p, hp, j, hj, hoff, rfl⟩ := ha
      by_cases hpg : p = g
      · subst hpg
        rw [update_self] at hoff
        by_cases hji : j = i
        · subst hji
          exact .inl rfl
        · refine .inr ⟨p, hp, j, hj, ?_, rfl⟩
          rw [hchain, mem_cons, not_or]
          exact ⟨hji, hoff⟩
      · rw [update_of_ne hpg] at hoff
        exact .inr ⟨p, hp, j, hj, hoff, rfl⟩

end Slabs

end OsKernel.Mm
