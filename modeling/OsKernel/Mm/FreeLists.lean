import OsKernel.Base.Runs
import OsKernel.Mm.PageAlloc

/-!
# What the freelists hold

A state of the page allocator denotes a set of *free blocks*: a section, an order
and a head page. `WellFormed` says that the blocks are disjoint, that the page
table agrees with the lists (the head page knows its order, every other page
points at its head), and that the counters count what is there.

The allocator never changes this in one go. It takes a block off its list, adds
other blocks, and meanwhile moves the totals. `Removed` and `Added` say once what
taking off and adding do to lists and pages, totals left open; the invariant
`Sound` is kept by both, and the totals are settled at the end of each call from
the sizes in `sectionFree`.
-/

namespace OsKernel.Mm

open PageAlloc List Set Finset

variable {n q : Nat} {f : Nat → Nat} {s'' : PageAlloc} {t : Set Nat}

/-- A free block: its section, its order and its head page. -/
structure Block where
  sec : Nat
  order : Nat
  page : Nat
  deriving DecidableEq

/-- The pages of a block. -/
def Block.pages (b : Block) : Set Nat := Set.Ico b.page (b.page + 2 ^ b.order)

theorem Block.mem_pages {b : Block} :
    q ∈ b.pages ↔ b.page ≤ q ∧ q < b.page + 2 ^ b.order := Iff.rfl

theorem Block.page_mem (b : Block) : b.page ∈ b.pages :=
  ⟨le_rfl, Nat.lt_add_of_pos_right (Nat.two_pow_pos _)⟩

theorem Block.eq_iff_page {b c : Block} (h : (c.sec, c.order) = (b.sec, b.order)) :
    c = b ↔ c.page = b.page := by
  obtain ⟨sec, order, page⟩ := b
  obtain ⟨sec', order', page'⟩ := c
  simp_all

namespace PageAlloc

variable {s s' : PageAlloc} {b : Block} {page order : Nat} {sec : Nat}

/-- The head pages on the freelist of one order of a section. -/
def freelist (s : PageAlloc) (sec order : Nat) : List Nat :=
  ((s.sections sec).freelistList order).pageList

/-- The count kept beside that list. -/
def freelistCount (s : PageAlloc) (sec order : Nat) : Nat :=
  ((s.sections sec).freelistList order).count

/-- The free blocks of a state. -/
def blocks (s : PageAlloc) : Set Block :=
  { b | b.sec < s.sectionCount ∧ b.order < MAX_ORDER ∧ b.page ∈ s.freelist b.sec b.order }

/-- The pages on the freelists. -/
def freeSet (s : PageAlloc) : Set Nat := ⋃ b ∈ s.blocks, b.pages

/-- The pages of a section, by the pfn range its address range covers. -/
def sectionPages (s : PageAlloc) (sec : Nat) : Set Nat :=
  Set.Ico (s.sections sec).pfn ((s.sections sec).pfn + (s.sections sec).size / PAGE_SIZE)

/-- The number of pages in a section's free blocks. -/
def sectionFree (s : PageAlloc) (sec : Nat) : Nat :=
  ∑ order ∈ Finset.range MAX_ORDER, 2 ^ order * (s.freelist sec order).length

/-- The number of pages in the free blocks of a zone's sections. -/
def zoneFree (s : PageAlloc) (zone : Nat) : Nat :=
  ((s.zones zone).sectionList.map s.sectionFree).sum

theorem mem_freeSet : q ∈ s.freeSet ↔ ∃ b ∈ s.blocks, q ∈ b.pages := by
  simp [freeSet]

/-! ## The static layout -/

/--
How sections, zones and the page table fit together. Nothing in the allocator changes
any of it, and `page_to_phys` is linear within a section because of `pageSect`.
-/
structure Layout (s : PageAlloc) : Prop where
  /-- A section on a zone's list is a section of that zone. -/
  listed : ∀ zone < s.zoneCount, ∀ sec ∈ (s.zones zone).sectionList,
    sec < s.sectionCount ∧ (s.sections sec).zone = zone
  /-- No section is on its zone's list twice. -/
  nodup : ∀ zone < s.zoneCount, (s.zones zone).sectionList.Nodup
  /-- Every section is on the list of its zone. -/
  zoned : ∀ sec < s.sectionCount, (s.sections sec).zone < s.zoneCount ∧
    sec ∈ (s.zones (s.sections sec).zone).sectionList
  /-- Sections begin on a page boundary. -/
  aligned : ∀ sec < s.sectionCount, PAGE_SIZE ∣ (s.sections sec).front
  /-- Sections end inside the physical address space. -/
  fits : ∀ sec < s.sectionCount, (s.sections sec).front + (s.sections sec).size ≤ 2 ^ 64
  /-- The page table covers every section. -/
  covered : ∀ sec < s.sectionCount, ∀ page ∈ s.sectionPages sec, page < s.pageEnd
  /-- The page table ends inside the virtual address space. -/
  addressable : s.pageEnd < 2 ^ 63
  /-- Every page of a section names it. -/
  pageSect : ∀ sec < s.sectionCount, ∀ page ∈ s.sectionPages sec, (s.pages page).sect = sec

/-- Two states with the same layout. -/
structure SameLayout (s s' : PageAlloc) : Prop where
  sectionCount : s'.sectionCount = s.sectionCount
  zoneCount : s'.zoneCount = s.zoneCount
  zoneDefault : s'.zoneDefault = s.zoneDefault
  pageEnd : s'.pageEnd = s.pageEnd
  zone : ∀ sec, (s'.sections sec).zone = (s.sections sec).zone
  front : ∀ sec, (s'.sections sec).front = (s.sections sec).front
  size : ∀ sec, (s'.sections sec).size = (s.sections sec).size
  pfn : ∀ sec, (s'.sections sec).pfn = (s.sections sec).pfn
  sectionList : ∀ zone, (s'.zones zone).sectionList = (s.zones zone).sectionList
  sect : ∀ page, (s'.pages page).sect = (s.pages page).sect

theorem SameLayout.refl (s : PageAlloc) : SameLayout s s := by
  constructor <;> intros <;> rfl

theorem SameLayout.trans (h : SameLayout s s') (h' : SameLayout s' s'') :
    SameLayout s s'' where
  sectionCount := h'.sectionCount.trans h.sectionCount
  zoneCount := h'.zoneCount.trans h.zoneCount
  zoneDefault := h'.zoneDefault.trans h.zoneDefault
  pageEnd := h'.pageEnd.trans h.pageEnd
  zone sec := (h'.zone sec).trans (h.zone sec)
  front sec := (h'.front sec).trans (h.front sec)
  size sec := (h'.size sec).trans (h.size sec)
  pfn sec := (h'.pfn sec).trans (h.pfn sec)
  sectionList zone := (h'.sectionList zone).trans (h.sectionList zone)
  sect page := (h'.sect page).trans (h.sect page)

theorem SameLayout.sectionPages (h : SameLayout s s') (sec : Nat) :
    s'.sectionPages sec = s.sectionPages sec := by
  unfold PageAlloc.sectionPages
  rw [h.pfn, h.size]

theorem SameLayout.layout (h : SameLayout s s') (hl : Layout s) :
    Layout s' where
  listed zone hz sec hsec := by
    rw [h.zoneCount] at hz
    rw [h.sectionList] at hsec
    rw [h.sectionCount, h.zone]
    exact hl.listed zone hz sec hsec
  nodup zone hz := by
    rw [h.zoneCount] at hz
    rw [h.sectionList]
    exact hl.nodup zone hz
  zoned sec hsec := by
    rw [h.sectionCount] at hsec
    rw [h.zone, h.zoneCount, h.sectionList]
    exact hl.zoned sec hsec
  aligned sec hsec := by
    rw [h.sectionCount] at hsec
    rw [h.front]
    exact hl.aligned sec hsec
  fits sec hsec := by
    rw [h.sectionCount] at hsec
    rw [h.front, h.size]
    exact hl.fits sec hsec
  covered sec hsec page hp := by
    rw [h.sectionCount] at hsec
    rw [h.sectionPages] at hp
    rw [h.pageEnd]
    exact hl.covered sec hsec page hp
  addressable := by
    rw [h.pageEnd]
    exact hl.addressable
  pageSect sec hsec page hp := by
    rw [h.sectionCount] at hsec
    rw [h.sectionPages] at hp
    rw [h.sect]
    exact hl.pageSect sec hsec page hp

/-! ## The invariant -/

/-- What a page table entry says about a page of a free block. -/
structure Marked (s : PageAlloc) (b : Block) : Prop where
  /-- The first page is a head and knows the order. -/
  headState : (s.pages b.page).state = .freeListHead
  headData : (s.pages b.page).data = .freelistHead b.order
  /-- Every other page is a tail and points at the head. -/
  tailState : ∀ q, b.page < q → q < b.page + 2 ^ b.order → (s.pages q).state = .freeListTail
  tailData : ∀ q, b.page < q → q < b.page + 2 ^ b.order →
    (s.pages q).data = .freelistTail b.page

theorem Marked.congr (h : Marked s b) (hpages : ∀ q ∈ b.pages, s'.pages q = s.pages q) :
    Marked s' b where
  headState := by rw [hpages _ b.page_mem, h.headState]
  headData := by rw [hpages _ b.page_mem, h.headData]
  tailState q hlt hend := by rw [hpages q ⟨hlt.le, hend⟩, h.tailState q hlt hend]
  tailData q hlt hend := by rw [hpages q ⟨hlt.le, hend⟩, h.tailData q hlt hend]

/-- The invariant without the totals. -/
structure Sound (s : PageAlloc) : Prop where
  layout : Layout s
  /-- Each freelist's count is the length of its list. -/
  count : ∀ sec < s.sectionCount, ∀ order < MAX_ORDER,
    s.freelistCount sec order = (s.freelist sec order).length
  /-- No list holds a page twice. -/
  nodup : ∀ sec < s.sectionCount, ∀ order < MAX_ORDER, (s.freelist sec order).Nodup
  /-- The free blocks are pairwise disjoint. -/
  disjoint : s.blocks.PairwiseDisjoint Block.pages
  /-- The page table agrees with the lists. -/
  marked : ∀ b ∈ s.blocks, Marked s b
  /-- A section's blocks lie inside the section. -/
  inside : ∀ b ∈ s.blocks, b.pages ⊆ s.sectionPages b.sec
  /-- `max_order` never runs past the freelists. -/
  maxOrder : ∀ sec < s.sectionCount, (s.sections sec).maxOrder ≤ MAX_ORDER

/-- **A well-formed free-list state.** -/
structure WellFormed (s : PageAlloc) : Prop extends Sound s where
  /-- A section's `total_free` is the summed size of its blocks. -/
  sectionTotal : ∀ sec < s.sectionCount, (s.sections sec).totalFree = s.sectionFree sec
  /-- A zone's `total_free` is the summed size of its sections' blocks. -/
  zoneTotal : ∀ zone < s.zoneCount, (s.zones zone).totalFree = s.zoneFree zone

/-! ## Sizes -/

theorem sectionFree_congr
    (h : ∀ order < MAX_ORDER, (s'.freelist sec order).length = (s.freelist sec order).length) :
    s'.sectionFree sec = s.sectionFree sec := by
  refine sum_congr rfl ?_
  intro order ho
  rw [h order (Finset.mem_range.mp ho)]

/-- One list of a section grew by one block, and its size by the size of the block. -/
theorem sectionFree_grow (ho : order < MAX_ORDER)
    (h : (s'.freelist sec order).length = (s.freelist sec order).length + 1)
    (hother : ∀ o < MAX_ORDER, o ≠ order →
      (s'.freelist sec o).length = (s.freelist sec o).length) :
    s'.sectionFree sec = s.sectionFree sec + 2 ^ order := by
  unfold sectionFree
  have hmem : order ∈ Finset.range MAX_ORDER := Finset.mem_range.mpr ho
  rw [← add_sum_erase _ _ hmem, ← add_sum_erase _ (fun o =>
    2 ^ o * (s.freelist sec o).length) hmem, h]
  have hrest : ∑ x ∈ (Finset.range MAX_ORDER).erase order, 2 ^ x * (s'.freelist sec x).length
      = ∑ x ∈ (Finset.range MAX_ORDER).erase order, 2 ^ x * (s.freelist sec x).length := by
    refine sum_congr rfl ?_
    intro o ho'
    rw [hother o (Finset.mem_range.mp (Finset.mem_of_mem_erase ho')) (Finset.ne_of_mem_erase ho')]
  rw [hrest]
  ring

theorem two_pow_le_sectionFree (hb : b ∈ s.blocks) :
    2 ^ b.order ≤ s.sectionFree b.sec := by
  have hmem : b.order ∈ Finset.range MAX_ORDER := Finset.mem_range.mpr hb.2.1
  have hlen : 1 ≤ (s.freelist b.sec b.order).length := length_pos_of_mem hb.2.2
  calc 2 ^ b.order = 2 ^ b.order * 1 := (mul_one _).symm
    _ ≤ 2 ^ b.order * (s.freelist b.sec b.order).length := Nat.mul_le_mul_left _ hlen
    _ ≤ _ := single_le_sum
        (f := fun o => 2 ^ o * (s.freelist b.sec o).length) (fun _ _ => Nat.zero_le _) hmem

/-! ## Steps that leave the lists alone -/

/-- `s'` has the lists of `s`; only totals, order bounds and pages in `touched` may differ. -/
structure Quiet (s s' : PageAlloc) (touched : Set Nat) : Prop where
  same : SameLayout s s'
  pages : ∀ q, q ∉ touched → s'.pages q = s.pages q
  list : ∀ sec order, s'.freelist sec order = s.freelist sec order
  count : ∀ sec order, s'.freelistCount sec order = s.freelistCount sec order
  maxOrder : ∀ sec < s.sectionCount, (s.sections sec).maxOrder ≤ MAX_ORDER →
    (s'.sections sec).maxOrder ≤ MAX_ORDER

section

variable (h : Quiet s s' t)
include h

theorem Quiet.trans {t' : Set Nat} (h' : Quiet s' s'' t') :
    Quiet s s'' (t ∪ t') where
  same := h.same.trans h'.same
  pages q hq := by
    rw [h'.pages q fun hqt => hq (.inr hqt), h.pages q fun hqt => hq (.inl hqt)]
  list sec order := (h'.list sec order).trans (h.list sec order)
  count sec order := (h'.count sec order).trans (h.count sec order)
  maxOrder sec hsec hle :=
    h'.maxOrder sec (by rw [h.same.sectionCount]; exact hsec) (h.maxOrder sec hsec hle)

theorem Quiet.blocks :
    s'.blocks = s.blocks := by
  unfold PageAlloc.blocks
  simp only [h.same.sectionCount, h.list]

theorem Quiet.freeSet :
    s'.freeSet = s.freeSet := by
  unfold PageAlloc.freeSet
  rw [h.blocks]

theorem Quiet.sectionFree (sec : Nat) :
    s'.sectionFree sec = s.sectionFree sec :=
  sectionFree_congr fun o _ => by rw [h.list]

theorem Quiet.sound (hs : Sound s) (ht : Disjoint t s.freeSet) :
    Sound s' := by
  have hpg : ∀ b ∈ s.blocks, ∀ q ∈ b.pages, s'.pages q = s.pages q := by
    intro b hb q hq
    exact h.pages q fun hqt => disjoint_left.mp ht hqt (mem_freeSet.mpr ⟨b, hb, hq⟩)
  refine ⟨h.same.layout hs.layout, ?_, ?_, ?_, ?_, ?_, ?_⟩
  · intro sec hsec order ho
    rw [h.same.sectionCount] at hsec
    rw [h.count, h.list]
    exact hs.count sec hsec order ho
  · intro sec hsec order ho
    rw [h.same.sectionCount] at hsec
    rw [h.list]
    exact hs.nodup sec hsec order ho
  · rw [h.blocks]
    exact hs.disjoint
  · intro b hb
    rw [h.blocks] at hb
    exact (hs.marked b hb).congr (hpg b hb)
  · intro b hb
    rw [h.blocks] at hb
    rw [h.same.sectionPages]
    exact hs.inside b hb
  · intro sec hsec
    rw [h.same.sectionCount] at hsec
    exact h.maxOrder sec hsec (hs.maxOrder sec hsec)

end

/-! ## Taking a block off its list -/

/-- `s'` is `s` with one block taken off its list; totals and order bounds are left open. -/
structure Removed (s s' : PageAlloc) (b : Block) : Prop where
  same : SameLayout s s'
  pages : s'.pages = s.pages
  list : s'.freelist b.sec b.order = (s.freelist b.sec b.order).erase b.page
  listOther : ∀ sec < s.sectionCount, ∀ order < MAX_ORDER, (sec, order) ≠ (b.sec, b.order) →
    s'.freelist sec order = s.freelist sec order
  count : s'.freelistCount b.sec b.order = s.freelistCount b.sec b.order - 1
  countOther : ∀ sec order, (sec, order) ≠ (b.sec, b.order) →
    s'.freelistCount sec order = s.freelistCount sec order
  maxOrder : ∀ sec < s.sectionCount, (s'.sections sec).maxOrder ≤ MAX_ORDER

section

variable (h : Removed s s' b) (hs : Sound s) (hb : b ∈ s.blocks)
include h hs hb

theorem Removed.blocks :
    s'.blocks = s.blocks \ {b} := by
  ext c
  simp only [PageAlloc.blocks, mem_ofPred_eq, mem_sdiff, mem_singleton_iff, h.same.sectionCount]
  by_cases hc : (c.sec, c.order) = (b.sec, b.order)
  · obtain ⟨h1, h2⟩ := Prod.mk.inj hc
    rw [h1, h2, h.list, (hs.nodup b.sec hb.1 b.order hb.2.1).mem_erase_iff]
    rw [Block.eq_iff_page hc]
    tauto
  · have hne : c ≠ b := fun e => hc (by rw [e])
    constructor
    · rintro ⟨h1, h2, h3⟩
      rw [h.listOther _ h1 _ h2 hc] at h3
      exact ⟨⟨h1, h2, h3⟩, hne⟩
    · rintro ⟨⟨h1, h2, h3⟩, _⟩
      rw [← h.listOther _ h1 _ h2 hc] at h3
      exact ⟨h1, h2, h3⟩

theorem Removed.sound : Sound s' := by
  have hblocks := h.blocks hs hb
  have hsub : s'.blocks ⊆ s.blocks := by
    rw [hblocks]
    exact sdiff_subset
  refine ⟨h.same.layout hs.layout, ?_, ?_, hs.disjoint.subset hsub, ?_, ?_, ?_⟩
  · intro sec hsec order ho
    rw [h.same.sectionCount] at hsec
    by_cases hc : (sec, order) = (b.sec, b.order)
    · obtain ⟨rfl, rfl⟩ := Prod.mk.inj hc
      rw [h.count, h.list, length_erase_of_mem hb.2.2, hs.count _ hsec _ ho]
    · rw [h.countOther _ _ hc, h.listOther _ hsec _ ho hc, hs.count _ hsec _ ho]
  · intro sec hsec order ho
    rw [h.same.sectionCount] at hsec
    by_cases hc : (sec, order) = (b.sec, b.order)
    · obtain ⟨rfl, rfl⟩ := Prod.mk.inj hc
      rw [h.list]
      exact (hs.nodup _ hsec _ ho).erase _
    · rw [h.listOther _ hsec _ ho hc]
      exact hs.nodup _ hsec _ ho
  · intro c hc
    exact (hs.marked c (hsub hc)).congr fun q _ => by rw [h.pages]
  · intro c hc
    rw [h.same.sectionPages]
    exact hs.inside c (hsub hc)
  · intro sec hsec
    rw [h.same.sectionCount] at hsec
    exact h.maxOrder sec hsec

theorem Removed.freeSet :
    s'.freeSet = s.freeSet \ b.pages := by
  unfold PageAlloc.freeSet
  rw [h.blocks hs hb]
  have hunion : s.blocks ∪ {b} = s.blocks := by
    rw [union_singleton, insert_eq_of_mem hb]
  have hdiff := biUnion_sdiff_biUnion_eq (s := s.blocks) (t := {b}) (f := Block.pages)
    (by rw [hunion]; exact hs.disjoint)
  rw [← hdiff, biUnion_singleton]

end

theorem Removed.sectionFree (h : Removed s s' b) (hb : b ∈ s.blocks) :
    s'.sectionFree b.sec + 2 ^ b.order = s.sectionFree b.sec := by
  refine (sectionFree_grow hb.2.1 ?_ ?_).symm
  · rw [h.list, length_erase_of_mem hb.2.2]
    have := length_pos_of_mem hb.2.2
    omega
  · intro o ho hne
    rw [h.listOther _ hb.1 _ ho (by simp [hne])]

theorem Removed.sectionFree_other (h : Removed s s' b) (hsec : sec < s.sectionCount)
    (hne : sec ≠ b.sec) : s'.sectionFree sec = s.sectionFree sec :=
  sectionFree_congr fun o ho => by rw [h.listOther _ hsec _ ho (by simp [hne])]

/-! ## Adding a block -/

/-- `s'` is `s` with a block put in front of its list and its pages marked; totals left open. -/
structure Added (s s' : PageAlloc) (b : Block) : Prop where
  same : SameLayout s s'
  marked : Marked s' b
  pages : ∀ q, q ∉ b.pages → s'.pages q = s.pages q
  list : s'.freelist b.sec b.order = b.page :: s.freelist b.sec b.order
  listOther : ∀ sec order, (sec, order) ≠ (b.sec, b.order) →
    s'.freelist sec order = s.freelist sec order
  count : s'.freelistCount b.sec b.order = s.freelistCount b.sec b.order + 1
  countOther : ∀ sec order, (sec, order) ≠ (b.sec, b.order) →
    s'.freelistCount sec order = s.freelistCount sec order
  maxOrder : ∀ sec, (s'.sections sec).maxOrder = (s.sections sec).maxOrder

section

variable (h : Added s s' b) (hsec : b.sec < s.sectionCount) (ho : b.order < MAX_ORDER)
include h hsec ho

theorem Added.blocks :
    s'.blocks = insert b s.blocks := by
  ext c
  simp only [PageAlloc.blocks, mem_ofPred_eq, mem_insert_iff, h.same.sectionCount]
  by_cases hc : (c.sec, c.order) = (b.sec, b.order)
  · obtain ⟨h1, h2⟩ := Prod.mk.inj hc
    rw [h1, h2, h.list, List.mem_cons]
    rw [Block.eq_iff_page hc]
    tauto
  · rw [h.listOther _ _ hc]
    have hne : c ≠ b := fun e => hc (by rw [e])
    tauto

theorem Added.freeSet :
    s'.freeSet = b.pages ∪ s.freeSet := by
  unfold PageAlloc.freeSet
  rw [h.blocks hsec ho, biUnion_insert]

end

theorem Added.sound (h : Added s s' b) (hs : Sound s) (hsec : b.sec < s.sectionCount)
    (ho : b.order < MAX_ORDER) (hin : b.pages ⊆ s.sectionPages b.sec)
    (hfree : Disjoint b.pages s.freeSet) : Sound s' := by
  have hblocks := h.blocks hsec ho
  have hapart : ∀ c ∈ s.blocks, Disjoint b.pages c.pages := by
    intro c hc
    exact hfree.mono_right (subset_biUnion_of_mem (u := Block.pages) hc)
  have hfresh : b.page ∉ s.freelist b.sec b.order := by
    intro hmem
    exact disjoint_left.mp (hapart b ⟨hsec, ho, hmem⟩) b.page_mem b.page_mem
  refine ⟨h.same.layout hs.layout, ?_, ?_, ?_, ?_, ?_, ?_⟩
  · intro sec hsec' order ho'
    rw [h.same.sectionCount] at hsec'
    by_cases hc : (sec, order) = (b.sec, b.order)
    · obtain ⟨rfl, rfl⟩ := Prod.mk.inj hc
      rw [h.count, h.list, length_cons, hs.count _ hsec' _ ho']
    · rw [h.countOther _ _ hc, h.listOther _ _ hc, hs.count _ hsec' _ ho']
  · intro sec hsec' order ho'
    rw [h.same.sectionCount] at hsec'
    by_cases hc : (sec, order) = (b.sec, b.order)
    · obtain ⟨rfl, rfl⟩ := Prod.mk.inj hc
      rw [h.list]
      exact nodup_cons.mpr ⟨hfresh, hs.nodup _ hsec' _ ho'⟩
    · rw [h.listOther _ _ hc]
      exact hs.nodup _ hsec' _ ho'
  · rw [hblocks]
    exact hs.disjoint.insert fun c hc _ => hapart c hc
  · intro c hc
    rw [hblocks] at hc
    rcases mem_insert_iff.mp hc with rfl | hc
    · exact h.marked
    · -- an old block: none of its pages was touched
      have hpg : ∀ q ∈ c.pages, s'.pages q = s.pages q := fun q hq =>
        h.pages q fun hqb => disjoint_left.mp (hapart c hc) hqb hq
      exact (hs.marked c hc).congr hpg
  · intro c hc
    rw [h.same.sectionPages]
    rw [hblocks] at hc
    rcases mem_insert_iff.mp hc with rfl | hc
    · exact hin
    · exact hs.inside c hc
  · intro sec hsec'
    rw [h.same.sectionCount] at hsec'
    rw [h.maxOrder]
    exact hs.maxOrder sec hsec'

theorem Added.sectionFree (h : Added s s' b) (ho : b.order < MAX_ORDER) :
    s'.sectionFree b.sec = s.sectionFree b.sec + 2 ^ b.order := by
  refine sectionFree_grow ho ?_ ?_
  · rw [h.list, length_cons]
  · intro o _ hne
    rw [h.listOther _ _ (by simp [hne])]

theorem Added.sectionFree_other (h : Added s s' b) (hne : sec ≠ b.sec) :
    s'.sectionFree sec = s.sectionFree sec :=
  sectionFree_congr fun o _ => by rw [h.listOther _ _ (by simp [hne])]

/-! ## Moving the totals -/

/--
The totals of one section and of its zone went through `f`, all others are as before. The
calls compose their moves; what the moves add up to is compared with the blocks at the end.
-/
structure Shift (s s' : PageAlloc) (sec : Nat) (f : Nat → Nat) : Prop where
  section_ : (s'.sections sec).totalFree = f (s.sections sec).totalFree
  sectionOther : ∀ i, i ≠ sec → (s'.sections i).totalFree = (s.sections i).totalFree
  zone : (s'.zones (s.sections sec).zone).totalFree = f (s.zones (s.sections sec).zone).totalFree
  zoneOther : ∀ z, z ≠ (s.sections sec).zone → (s'.zones z).totalFree = (s.zones z).totalFree

theorem Shift.refl (s : PageAlloc) (sec : Nat) : Shift s s sec id :=
  ⟨rfl, fun _ _ => rfl, rfl, fun _ _ => rfl⟩

theorem Shift.trans {g : Nat → Nat}
    (hz : (s'.sections sec).zone = (s.sections sec).zone) (h : Shift s s' sec f)
    (h' : Shift s' s'' sec g) : Shift s s'' sec (g ∘ f) where
  section_ := by rw [h'.section_, h.section_]; rfl
  sectionOther i hi := by rw [h'.sectionOther i hi, h.sectionOther i hi]
  zone := by
    rw [← hz, h'.zone, hz, h.zone]
    rfl
  zoneOther z hne := by
    rw [h'.zoneOther z (by rw [hz]; exact hne), h.zoneOther z hne]

section

variable (hl : Layout s) (hsame : SameLayout s s')
include hl hsame

theorem zoneFree_change {m : Nat} (hsec : sec < s.sectionCount)
    (hchange : s'.sectionFree sec + n = s.sectionFree sec + m)
    (hother : ∀ i < s.sectionCount, i ≠ sec → s'.sectionFree i = s.sectionFree i) :
    s'.zoneFree (s.sections sec).zone + n = s.zoneFree (s.sections sec).zone + m := by
  obtain ⟨hz, hmem⟩ := hl.zoned sec hsec
  unfold zoneFree
  rw [hsame.sectionList]
  exact sum_map_change (hl.nodup _ hz) hmem hchange fun i hi => hother i (hl.listed _ hz i hi).1

theorem zoneFree_other {zone : Nat} (hzone : zone < s.zoneCount)
    (hne : zone ≠ (s.sections sec).zone)
    (hother : ∀ i < s.sectionCount, i ≠ sec → s'.sectionFree i = s.sectionFree i) :
    s'.zoneFree zone = s.zoneFree zone := by
  unfold zoneFree
  rw [hsame.sectionList]
  refine congrArg sum (map_congr_left ?_)
  intro i hi
  refine hother i (hl.listed zone hzone i hi).1 fun e => hne ?_
  rw [← e, (hl.listed zone hzone i hi).2]

end

theorem sectionFree_le_zoneFree (hl : Layout s) (hsec : sec < s.sectionCount) :
    s.sectionFree sec ≤ s.zoneFree (s.sections sec).zone :=
  le_sum_of_mem (mem_map_of_mem (hl.zoned sec hsec).2)

/-! ## A bound for the totals -/

/-- The pages of the blocks on one freelist. -/
def listPages (s : PageAlloc) (sec order : Nat) : Finset Nat :=
  (s.freelist sec order).toFinset.biUnion fun p => Finset.Ico p (p + 2 ^ order)

/-- The pages of a section's blocks. -/
def blockPages (s : PageAlloc) (sec : Nat) : Finset Nat :=
  (Finset.range MAX_ORDER).biUnion (s.listPages sec)

section

variable (hs : Sound s)
include hs

theorem Sound.block_eq {c : Block} (hb : b ∈ s.blocks) (hc : c ∈ s.blocks) (hqb : q ∈ b.pages)
    (hqc : q ∈ c.pages) : b = c := by
  by_contra hne
  exact Set.disjoint_left.mp (hs.disjoint hb hc hne) hqb hqc

omit hs in
theorem mem_listPages (hsec : sec < s.sectionCount) (ho : order < MAX_ORDER)
    (hq : q ∈ s.listPages sec order) :
    ∃ b ∈ s.blocks, b.sec = sec ∧ b.order = order ∧ q ∈ b.pages := by
  obtain ⟨p, hp, hq⟩ := Finset.mem_biUnion.mp hq
  exact ⟨⟨sec, order, p⟩, ⟨hsec, ho, mem_toFinset.mp hp⟩, rfl, rfl, Finset.mem_Ico.mp hq⟩

omit hs in
theorem mem_blockPages (hsec : sec < s.sectionCount) (hq : q ∈ s.blockPages sec) :
    ∃ b ∈ s.blocks, b.sec = sec ∧ q ∈ b.pages := by
  obtain ⟨o, ho, hq⟩ := Finset.mem_biUnion.mp hq
  obtain ⟨b, hb, hbsec, -, hqb⟩ := mem_listPages hsec (Finset.mem_range.mp ho) hq
  exact ⟨b, hb, hbsec, hqb⟩

theorem Sound.card_listPages (hsec : sec < s.sectionCount) (ho : order < MAX_ORDER) :
    (s.listPages sec order).card = 2 ^ order * (s.freelist sec order).length := by
  rw [listPages, Finset.card_biUnion]
  · simp [toFinset_card_of_nodup (hs.nodup sec hsec order ho), mul_comm]
  · intro p hp p' hp' hne
    refine Finset.disjoint_left.mpr fun q hq hq' => hne ?_
    have heq := hs.block_eq (b := ⟨sec, order, p⟩) (c := ⟨sec, order, p'⟩)
      ⟨hsec, ho, mem_toFinset.mp hp⟩ ⟨hsec, ho, mem_toFinset.mp hp'⟩ (Finset.mem_Ico.mp hq)
      (Finset.mem_Ico.mp hq')
    exact congrArg Block.page heq

theorem Sound.card_blockPages (hsec : sec < s.sectionCount) :
    (s.blockPages sec).card = s.sectionFree sec := by
  rw [blockPages, Finset.card_biUnion]
  · exact sum_congr rfl fun o ho => hs.card_listPages hsec (Finset.mem_range.mp ho)
  · intro o ho o' ho' hne
    refine Finset.disjoint_left.mpr fun q hq hq' => hne ?_
    obtain ⟨b, hb, -, rfl, hqb⟩ := mem_listPages hsec (Finset.mem_range.mp ho) hq
    obtain ⟨c, hc, -, rfl, hqc⟩ := mem_listPages hsec (Finset.mem_range.mp ho') hq'
    rw [hs.block_eq hb hc hqb hqc]

/-- Free blocks lie apart in the page table, so no zone has more free pages than there are pages. -/
theorem Sound.zoneFree_le {zone : Nat} (hz : zone < s.zoneCount) : s.zoneFree zone ≤ s.pageEnd := by
  have hsec {sec : Nat} (h : sec ∈ (s.zones zone).sectionList.toFinset) : sec < s.sectionCount :=
    (hs.layout.listed zone hz sec (mem_toFinset.mp h)).1
  calc s.zoneFree zone = ∑ sec ∈ (s.zones zone).sectionList.toFinset, s.sectionFree sec :=
        (sum_toFinset _ (hs.layout.nodup zone hz)).symm
    _ = ∑ sec ∈ (s.zones zone).sectionList.toFinset, (s.blockPages sec).card :=
        sum_congr rfl fun sec h => (hs.card_blockPages (hsec h)).symm
    _ = ((s.zones zone).sectionList.toFinset.biUnion s.blockPages).card := by
        refine (Finset.card_biUnion fun i hi j hj hne => ?_).symm
        refine Finset.disjoint_left.mpr fun q hq hq' => hne ?_
        obtain ⟨b, hb, rfl, hqb⟩ := mem_blockPages (hsec hi) hq
        obtain ⟨c, hc, rfl, hqc⟩ := mem_blockPages (hsec hj) hq'
        rw [hs.block_eq hb hc hqb hqc]
    _ ≤ (Finset.range s.pageEnd).card := by
        refine Finset.card_le_card fun q hq => ?_
        obtain ⟨sec, h, hq⟩ := Finset.mem_biUnion.mp hq
        obtain ⟨b, hb, -, hqb⟩ := mem_blockPages (hsec h) hq
        exact Finset.mem_range.mpr (hs.layout.covered b.sec hb.1 q (hs.inside b hb hqb))
    _ = s.pageEnd := Finset.card_range _

end

/-- The totals of one section and of its zone are `n` lower, all others are as before. -/
structure Dropped (s s' : PageAlloc) (sec n : Nat) : Prop where
  section_ : (s'.sections sec).totalFree + n = (s.sections sec).totalFree
  sectionOther : ∀ i, i ≠ sec → (s'.sections i).totalFree = (s.sections i).totalFree
  zone : (s'.zones (s.sections sec).zone).totalFree + n
    = (s.zones (s.sections sec).zone).totalFree
  zoneOther : ∀ z, z ≠ (s.sections sec).zone → (s'.zones z).totalFree = (s.zones z).totalFree

theorem WellFormed.zoneTotal_lt (hw : WellFormed s) {zone : Nat} (hz : zone < s.zoneCount) :
    (s.zones zone).totalFree < U64 := by
  have hle := hw.toSound.zoneFree_le hz
  have haddr := hw.layout.addressable
  rw [hw.zoneTotal zone hz]
  simp only [U64]
  omega

theorem WellFormed.sectionTotal_lt (hw : WellFormed s) (hsec : sec < s.sectionCount) :
    (s.sections sec).totalFree < U64 := by
  have hz := (hw.layout.zoned sec hsec).1
  rw [hw.sectionTotal sec hsec]
  refine (sectionFree_le_zoneFree hw.layout hsec).trans_lt ?_
  rw [← hw.zoneTotal _ hz]
  exact hw.zoneTotal_lt hz

/-- Totals that start at the size of a block or above are in reach of no wrap-around. -/
theorem Shift.dropped (h : Shift s s' b.sec f) (hw : WellFormed s) (hb : b ∈ s.blocks)
    (hf : ∀ x, 2 ^ b.order ≤ x → x < U64 → f x + n = x) : Dropped s s' b.sec n where
  section_ := by
    rw [h.section_]
    refine hf _ ?_ (hw.sectionTotal_lt hb.1)
    rw [hw.sectionTotal _ hb.1]
    exact two_pow_le_sectionFree hb
  sectionOther := h.sectionOther
  zone := by
    have hz := (hw.layout.zoned _ hb.1).1
    rw [h.zone]
    refine hf _ ?_ (hw.zoneTotal_lt hz)
    rw [hw.zoneTotal _ hz]
    exact (two_pow_le_sectionFree hb).trans (sectionFree_le_zoneFree hw.layout hb.1)
  zoneOther := h.zoneOther

/-- The totals moved with the blocks: the state is well-formed again. -/
theorem WellFormed.shift {m : Nat} (hw : WellFormed s) (hs' : Sound s') (hsame : SameLayout s s')
    (hsec : sec < s.sectionCount) (hshift : Shift s s' sec f)
    (hf : f (s.sections sec).totalFree + n = (s.sections sec).totalFree + m ∧
      f (s.zones (s.sections sec).zone).totalFree + n
        = (s.zones (s.sections sec).zone).totalFree + m)
    (hchange : s'.sectionFree sec + n = s.sectionFree sec + m)
    (hother : ∀ i < s.sectionCount, i ≠ sec → s'.sectionFree i = s.sectionFree i) :
    WellFormed s' := by
  refine ⟨hs', ?_, ?_⟩
  · intro i hi
    rw [hsame.sectionCount] at hi
    by_cases hne : i = sec
    · subst hne
      have htotal := hf.1
      rw [← hshift.section_, hw.sectionTotal i hi] at htotal
      omega
    · rw [hshift.sectionOther i hne, hother i hi hne, hw.sectionTotal i hi]
  · intro z hz
    rw [hsame.zoneCount] at hz
    by_cases hne : z = (s.sections sec).zone
    · have hzone := zoneFree_change hw.layout hsame hsec hchange hother
      have htotal := hf.2
      subst hne
      rw [← hshift.zone, hw.zoneTotal _ hz] at htotal
      omega
    · rw [hshift.zoneOther z hne, zoneFree_other hw.layout hsame hz hne hother, hw.zoneTotal z hz]

end PageAlloc

end OsKernel.Mm
