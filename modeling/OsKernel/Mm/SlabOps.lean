import OsKernel.Mm.SlabProof

/-!
# The operations of a slab allocator keep the invariant

`slab_alloc` takes an object off a chain, after it made a slab if no slab had a free
object. `slab_free` puts one back, or gives the slab back if this was its last live
object. Both return whenever the page allocator hands out pages that are in no slab.
-/

namespace OsKernel.Mm.Slabs

open LinkedRing
open Function List Memory

variable {s s' : Slabs} {slabs live : List Nat} {chain : Nat → List Nat}
variable {g i head n : Nat} {answer : Option Nat}

/-! ## A new slab -/

/-- The loop that links the objects: what it returns, what it stores, what it leaves alone. -/
theorem linkObjects_spec (virt : Nat) {size : Nat} (hsize : 4 ≤ size) : ∀ (n i : Nat) (mem : Memory),
    i + n < 2 ^ 32 →
    (linkObjects virt size n i (i * size) mem).1 = (i + n) * size ∧
    (∀ j, i ≤ j → j < i + n →
      (linkObjects virt size n i (i * size) mem).2.load32 (virt + j * size) = j + 1) ∧
    ∀ x, x < virt + i * size ∨ virt + (i + n) * size ≤ x →
      (linkObjects virt size n i (i * size) mem).2 x = mem x := by
  intro n
  induction n with
  | zero =>
    intro i mem _
    refine ⟨rfl, ?_, fun _ _ => rfl⟩
    omega
  | succ n ih =>
    intro i mem hlt
    have hstep : i * size + size = (i + 1) * size := (Nat.succ_mul i size).symm
    have hend : i + 1 + n = i + (n + 1) := by omega
    obtain ⟨hlast, hwords, hframe⟩ := ih (i + 1) (mem.store32 (virt + i * size) (i + 1)) (by omega)
    have hgrow : (i + 1) * size ≤ (i + (n + 1)) * size := Nat.mul_le_mul_right _ (by omega)
    rw [hend] at hlast hwords hframe
    simp only [linkObjects, hstep]
    refine ⟨hlast, ?_, ?_⟩
    · intro j hj hj'
      by_cases hji : j = i
      · -- the later objects are behind this word
        subst hji
        rw [load32_congr fun x _ hx => hframe x (.inl (by omega))]
        exact load32_store32 _ _ (by omega)
      · exact hwords j (by omega) hj'
    · intro x hx
      rw [hframe x (by omega)]
      exact store32_other (by omega)

theorem linkObjects_store_spec (virt : Nat) {size count : Nat} (mem : Memory) (hsize : 4 ≤ size)
    (hpos : 0 < count) (hcount : count < 2 ^ 32) :
    let r := linkObjects virt size (count - 1) 0 0 mem
    let mem' := r.2.store32 (virt + r.1) UINT32_MAX
    (∀ i, i + 1 < count → mem'.load32 (virt + i * size) = i + 1) ∧
    mem'.load32 (virt + (count - 1) * size) = UINT32_MAX ∧
    ∀ x, x < virt ∨ virt + count * size ≤ x → mem' x = mem x := by
  obtain ⟨hlast, hwords, hframe⟩ := linkObjects_spec virt hsize (count - 1) 0 mem (by omega)
  rw [zero_add, zero_mul] at hlast hwords hframe
  intro r mem'
  have hr : r.1 = (count - 1) * size := hlast
  have hend : (count - 1) * size + size = count * size := by
    rw [← Nat.succ_mul, Nat.succ_eq_add_one, Nat.sub_add_cancel hpos]
  refine ⟨?_, ?_, ?_⟩
  · intro i hi
    have hle : (i + 1) * size ≤ (count - 1) * size := Nat.mul_le_mul_right _ (by omega)
    rw [Nat.succ_mul] at hle
    -- the end marker is stored behind this word
    have hsame : mem'.load32 (virt + i * size) = r.2.load32 (virt + i * size) :=
      load32_congr fun x _ hx => store32_other (.inl (by omega))
    rw [hsame]
    exact hwords i (Nat.zero_le _) (by omega)
  · rw [← hr]
    exact load32_store32 _ _ (by decide)
  · intro x hx
    have hkeep : mem' x = r.2 x := store32_other (by omega)
    rw [hkeep]
    exact hframe x (by omega)

/-- Whether a page heads a slab of this allocator. -/
def Owns (s : Slabs) (p : Nat) : Prop :=
  (s.pages p).state = .slabHead ∧ (s.pages p).allocator = some s.self

/-- Pages that are in no slab, inside the address space. -/
structure Fresh (s : Slabs) (head : Nat) : Prop where
  unused : ∀ p, s.InBlock head p →
    (s.pages p).state ≠ .slabHead ∧ (s.pages p).state ≠ .slabTail
  placed : s.base + PAGE_SIZE * (head + 2 ^ s.alloc.slabOrder) ≤ U64

/-- What making a slab writes. -/
structure NewSlab (s s' : Slabs) (head : Nat) : Prop where
  layout : SameLayout s s'
  state : (s'.pages head).state = .slabHead
  owner : (s'.pages head).allocator = some s.self
  firstFree : (s'.pages head).firstFreeIndex = 0
  freeObj : (s'.pages head).freeObjCount = s.alloc.objectCountPerSlab
  tails : ∀ p, head < p → p < head + 2 ^ s.alloc.slabOrder →
    (s'.pages p).state = .slabTail ∧ (s'.pages p).tailHead = some head
  /-- The loop over the tail pages does not get to the last one. -/
  named : ∀ p, head < p → p < head + 2 ^ s.alloc.slabOrder →
    (s'.pages p).allocator
      = if p + 1 < head + 2 ^ s.alloc.slabOrder then some s.self else (s.pages p).allocator
  /-- The pages of other slabs stay. -/
  pages : ∀ p, ¬ s.InBlock head p → s'.pages p = s.pages p
  /-- Each object points at the next one. -/
  linked : ∀ i, i + 1 < s.alloc.objectCountPerSlab → s'.nextOf head i = i + 1
  last : s'.nextOf head (s.alloc.objectCountPerSlab - 1) = UINT32_MAX
  mem : ∀ x, x < s.pageToVirt head ∨ s.pageToVirt head + PAGE_SIZE * 2 ^ s.alloc.slabOrder ≤ x →
    s'.mem x = s.mem x
  total : s'.alloc.freeObjCount = add32 s.alloc.freeObjCount s.alloc.objectCountPerSlab

theorem allocSlabPage_run (hl : s.alloc.Laid) (horder : s.alloc.slabOrder < MAX_ORDER)
    {L : List Nat} (hring : IsRing s.list .head (L.map .node)) (hnot : head ∉ L) :
    ∃ s', s.allocSlabPage (some head) = .ok (some head, s') ∧ NewSlab s s' head ∧
      IsRing s'.list .head ((head :: L).map .node) := by
  -- `alloc_pages` sets up a list element that is on no list
  have hring0 : IsRing (update s.list (.node head) ⟨some (.node head), some (.node head)⟩)
      .head (L.map .node) := by
    have hkeep : ∀ p ∈ ListPtr.head :: L.map .node, p ≠ .node head := by
      intro p hp he
      subst he
      rcases mem_cons.mp hp with hp | hp
      · cases hp
      · obtain ⟨q, hq, he⟩ := mem_map.mp hp
        cases he
        exact hnot hq
    exact hring.congr fun p hp => update_of_ne (hkeep p hp) _ _
  obtain ⟨H', hadd, hring'⟩ := list_add_slab hring0 hnot
  have hcount := hl.count_lt
  unfold UINT32_MAX at hcount
  have hsize := hl.size
  have hcount4 := hl.count
  have hroom := hl.room
  obtain ⟨hwords, hlast, hframe⟩ := linkObjects_store_spec (s.pageToVirt head)
    (s.mem.zero (s.pageToVirt head) (PAGE_SIZE * 2 ^ s.alloc.slabOrder))
    (show 4 ≤ s.alloc.objectSize by omega) (show 0 < s.alloc.objectCountPerSlab by omega) (by omega)
  unfold allocSlabPage
  simp only [allocPages, if_neg (not_le.mpr horder)]
  rw [hadd]
  simp only [ok_bind, pure_eq_ok, modifyPage]
  refine ⟨_, rfl, ⟨⟨rfl, rfl, rfl, rfl, rfl⟩, ?_, ?_, ?_, ?_, ?_, ?_, ?_, ?_, ?_, ?_, rfl⟩, hring'⟩
  · simp
  · simp
  · simp
  · simp
  · intro p hp hp'
    have hne : p ≠ head := ne_of_gt hp
    have hin : s.InBlock head p := ⟨le_of_lt hp, hp'⟩
    simp only [update_of_ne hne, if_neg hne, if_pos hin]
    split
    · exact ⟨rfl, rfl⟩
    · exact ⟨rfl, rfl⟩
  · intro p hp hp'
    have hne : p ≠ head := ne_of_gt hp
    have hin : s.InBlock head p := ⟨le_of_lt hp, hp'⟩
    simp only [update_of_ne hne, if_neg hne, if_pos hin]
    by_cases hlast : p + 1 < head + 2 ^ s.alloc.slabOrder
    · rw [if_pos (by omega), if_pos hlast]
    · rw [if_neg (by omega), if_neg hlast]
  · intro p hp
    have hne : p ≠ head := by
      intro he
      subst he
      exact hp ⟨le_rfl, Nat.lt_add_of_pos_right (Nat.two_pow_pos _)⟩
    have hout : ¬ (head + 1 ≤ p ∧ p < head + (2 ^ s.alloc.slabOrder - 1)) := by
      intro h
      exact hp ⟨by omega, by omega⟩
    simp only [update_of_ne hne, if_neg hne, if_neg hp, if_neg hout]
  · intro i hi
    exact hwords i hi
  · exact hlast
  · intro x hx
    exact (hframe x (by omega)).trans (zero_other hx)

theorem Blocks.fresh_apart (h : Blocks s slabs) (hfresh : Fresh s head) (hg : g ∈ slabs) :
    head + 2 ^ s.alloc.slabOrder ≤ g ∨ g + 2 ^ s.alloc.slabOrder ≤ head := by
  by_contra hno
  rw [not_or, not_le, not_le] at hno
  rcases lt_or_ge g head with hlt | hle
  · -- the head would be a tail of the slab
    have hin : s.InBlock head head :=
      ⟨le_rfl, Nat.lt_add_of_pos_right (Nat.two_pow_pos _)⟩
    exact (hfresh.unused head hin).2 (h.tails g hg head hlt hno.2).1
  · exact (hfresh.unused g ⟨hle, hno.1⟩).1 ((h.heads g).mp hg).1

theorem NewSlab.keeps (hnew : NewSlab s s' head)
    (hapart : head + 2 ^ s.alloc.slabOrder ≤ g ∨ g + 2 ^ s.alloc.slabOrder ≤ head) :
    (∀ p, s.InBlock g p → s'.pages p = s.pages p) ∧
    ∀ x, s.pageToVirt g ≤ x → x < s.pageToVirt g + PAGE_SIZE * 2 ^ s.alloc.slabOrder →
      s'.mem x = s.mem x := by
  refine ⟨?_, ?_⟩
  · intro p hp
    refine hnew.pages p ?_
    intro hin
    unfold InBlock at hp hin
    omega
  · intro x hx hx'
    refine hnew.mem x ?_
    unfold pageToVirt at hx hx' ⊢
    rcases hapart with hle | hle
    · have hmul := Nat.mul_le_mul_left PAGE_SIZE hle
      rw [mul_add] at hmul
      omega
    · have hmul := Nat.mul_le_mul_left PAGE_SIZE hle
      rw [mul_add] at hmul
      omega

theorem Blocks.newSlab (h : Blocks s slabs) (hl : s.alloc.Laid) (hfresh : Fresh s head)
    (hnew : NewSlab s s' head) : Blocks s' (head :: slabs) := by
  have hpos := Nat.two_pow_pos s.alloc.slabOrder
  have hself : s.InBlock head head := ⟨le_rfl, Nat.lt_add_of_pos_right hpos⟩
  have hnot : head ∉ slabs := by
    intro hmem
    exact (hfresh.unused head hself).1 ((h.heads head).mp hmem).1
  refine ⟨nodup_cons.mpr ⟨hnot, h.nodup⟩, ?_, ?_, ?_, fun _ => hnew.layout.laid hl⟩
  · intro p
    rw [mem_cons, hnew.layout.self]
    by_cases hp : p = head
    · subst hp
      simp only [true_or, true_iff]
      exact ⟨hnew.state, hnew.owner⟩
    · by_cases hin : s.InBlock head p
      · -- neither before nor after is a tail page a head
        have htail := (hnew.tails p (by have := hin.1; omega) hin.2).1
        have hout : p ∉ slabs := fun hmem => (hfresh.unused p hin).1 ((h.heads p).mp hmem).1
        simp [hp, hout, htail]
      · rw [hnew.pages p hin, ← h.heads p]
        simp [hp]
  · intro g hg p hp hp'
    rw [hnew.layout.slabOrder] at hp'
    rcases mem_cons.mp hg with rfl | hg
    · exact hnew.tails p hp hp'
    · rw [(hnew.keeps (h.fresh_apart hfresh hg)).1 p ⟨le_of_lt hp, hp'⟩]
      exact h.tails g hg p hp hp'
  · intro g hg
    rw [hnew.layout.base, hnew.layout.slabOrder]
    rcases mem_cons.mp hg with rfl | hg
    · exact hfresh.placed
    · exact h.placed g hg

section

variable (h : Inv s slabs chain live)
include h

theorem Inv.newSlab (hl : s.alloc.Laid) (hfresh : Fresh s head) (hnew : NewSlab s s' head)
    (hlisted : ∃ L : List Nat, IsRing s'.list .head ((head :: L).map .node) ∧
      ∀ p, p ∈ L ↔ p ∈ slabs ∧ (s.pages p).freeObjCount ≠ 0) :
    Inv s' (head :: slabs)
      (update chain head (List.range' 0 s.alloc.objectCountPerSlab)) live := by
  have hcount := hl.count
  have hpos := Nat.two_pow_pos s.alloc.slabOrder
  have hblocks := h.blocks.newSlab hl hfresh hnew
  obtain ⟨hnot, -⟩ := nodup_cons.mp hblocks.nodup
  have hne : ∀ {g}, g ∈ slabs → g ≠ head := fun hg he => hnot (he ▸ hg)
  have hpage : ∀ {g}, g ∈ slabs → s'.pages g = s.pages g := by
    intro g hg
    exact (hnew.keeps (h.blocks.fresh_apart hfresh hg)).1 g ⟨le_rfl, Nat.lt_add_of_pos_right hpos⟩
  refine ⟨hblocks, ?_, ?_, ?_, h.live_nodup, ?_⟩
  · intro g hg
    rcases mem_cons.mp hg with rfl | hg
    · rw [update_self]
      refine ⟨?_, nodup_range', ?_, ?_⟩
      · rw [hnew.firstFree]
        refine Chain.of_steps (zero_add _) ?_ (fun _ => hnew.last) (by omega)
        intro i _ hi
        exact hnew.linked i hi
      · intro i hi
        rw [hnew.layout.objectCount]
        have := mem_range'_1.mp hi
        omega
      · rw [length_range', hnew.freeObj]
    · rw [update_of_ne (hne hg)]
      have hc := h.chained g hg
      refine hc.congr hnew.layout (by rw [hpage hg]) (by rw [hpage hg]) ?_
      intro i hi x hx hx'
      have hsize := hl.size
      have hinside := obj_inside (h := g) hl (hc.lt i hi)
      exact (hnew.keeps (h.blocks.fresh_apart hfresh hg)).2 x (by omega) (by omega)
  · have hsum : slabs.map (fun g => (s'.pages g).freeObjCount)
        = slabs.map fun g => (s.pages g).freeObjCount := by
      refine map_congr_left ?_
      intro g hg
      rw [hpage hg]
    rw [hnew.total, map_cons, sum_cons, hsum, hnew.freeObj, h.total, add32]
    omega
  · obtain ⟨L, hring, hL⟩ := hlisted
    refine ⟨head :: L, hring, ?_⟩
    intro p
    rw [mem_cons, mem_cons, hL p]
    by_cases hp : p = head
    · subst hp
      rw [hnew.freeObj]
      omega
    · simp only [hp, false_or]
      constructor
      · intro hmem
        rw [hpage hmem.1]
        exact hmem
      · intro hmem
        rw [hpage hmem.1] at hmem
        exact hmem
  · intro a
    rw [h.mem_live a, hnew.layout.objectCount]
    simp only [hnew.layout.objAddr]
    constructor
    · intro ha
      obtain ⟨g, hg, i, hi, hoff, rfl⟩ := ha
      exact ⟨g, mem_cons_of_mem _ hg, i, hi, by rwa [update_of_ne (hne hg)], rfl⟩
    · intro ha
      obtain ⟨g, hg, i, hi, hoff, rfl⟩ := ha
      rcases mem_cons.mp hg with rfl | hg
      · -- every object of the new slab is on its chain
        rw [update_self] at hoff
        exact absurd (mem_range'_1.mpr (by omega)) hoff
      · rw [update_of_ne (hne hg)] at hoff
        exact ⟨g, hg, i, hi, hoff, rfl⟩

/-! ## `slab_alloc` -/

/-- While a slab has a free object, one such slab is taken and nothing is made. -/
theorem pickSlab_listed (hg : g ∈ slabs) (hfree : (s.pages g).freeObjCount ≠ 0)
    (answer : Option Nat) :
    ∃ g ∈ slabs, ∃ i rest, chain g = i :: rest ∧ s.pickSlab answer = .ok (some g, s) := by
  obtain ⟨L, hring, hL⟩ := h.listed
  cases L with
  | nil => exact absurd ((hL g).mpr ⟨hg, hfree⟩) not_mem_nil
  | cons p L =>
    obtain ⟨hp, hpfree⟩ := (hL p).mp mem_cons_self
    have hlen := (h.chained p hp).length
    cases hchain : chain p with
    | nil =>
      rw [hchain] at hlen
      exact absurd hlen.symm hpfree
    | cons i rest =>
      refine ⟨p, hp, i, rest, hchain, ?_⟩
      have hempty : ¬ listEmpty s.list .head = true := by
        rw [listEmpty_iff hring]
        exact cons_ne_nil _ _
      have hnext : (s.list .head).next = some (.node p) := hring.way.next_eq
      unfold pickSlab
      rw [if_neg hempty, hnext]

/-- When all slabs are full, `alloc_pages` is asked for a new one. -/
theorem pickSlab_full (hfull : ∀ g ∈ slabs, (s.pages g).freeObjCount = 0) (answer : Option Nat) :
    s.pickSlab answer = s.allocSlabPage answer := by
  obtain ⟨L, hring, hL⟩ := h.listed
  have hnil : L = [] := by
    refine eq_nil_iff_forall_not_mem.mpr ?_
    intro p hp
    obtain ⟨hps, hfree⟩ := (hL p).mp hp
    exact hfree (hfull p hps)
  unfold pickSlab
  rw [if_pos ((listEmpty_iff hring).mpr (by rw [hnil]; rfl))]

end

theorem allocSlabPage_none (hno : answer = none ∨ MAX_ORDER ≤ s.alloc.slabOrder) :
    s.allocSlabPage answer = .ok (none, s) := by
  have hpages : s.allocPages answer = (none, s) := by
    unfold allocPages
    rcases hno with rfl | horder
    · split
      · rfl
      · rfl
    · rw [if_pos horder]
  unfold allocSlabPage
  rw [hpages]

/-- The result of an allocation, and the slabs and chains after it. -/
inductive Allocated (s : Slabs) (slabs : List Nat) (live : List Nat) (answer : Option Nat) :
    Option Nat → Slabs → Prop where
  /-- All slabs are full and there are no pages. -/
  | none : (∀ g ∈ slabs, (s.pages g).freeObjCount = 0) →
      answer = none ∨ MAX_ORDER ≤ s.alloc.slabOrder → Allocated s slabs live answer none s
  /-- From a slab that has a free object. -/
  | old {a g : Nat} {s' : Slabs} {chain' : Nat → List Nat} : g ∈ slabs → Taken s s' g →
      Inv s' slabs chain' (a :: live) → Allocated s slabs live answer (some a) s'
  /-- From a new slab. -/
  | new {a head : Nat} {s₁ s' : Slabs} {chain' : Nat → List Nat} :
      (∀ g ∈ slabs, (s.pages g).freeObjCount = 0) → answer = some head → NewSlab s s₁ head →
      Taken s₁ s' head → Inv s' (head :: slabs) chain' (a :: live) →
      Allocated s slabs live answer (some a) s'

theorem Allocated.layout {r : Option Nat} (h : Allocated s slabs live answer r s') :
    SameLayout s s' := by
  cases h with
  | none _ _ => exact ⟨rfl, rfl, rfl, rfl, rfl⟩
  | old _ htaken _ => exact htaken.layout
  | new _ _ hnew htaken _ => exact hnew.layout.trans htaken.layout

/-- **`slab_alloc`** returns, and a new object is live if it returns one. -/
theorem slabAlloc_spec (h : Inv s slabs chain live)
    (hlaid : s.alloc.slabOrder < MAX_ORDER → s.alloc.Laid)
    (hfresh : ∀ head, answer = some head → Fresh s head) :
    ∃ r s', s.slabAlloc answer = .ok (r, s') ∧ Allocated s slabs live answer r s' := by
  by_cases hfull : ∀ g ∈ slabs, (s.pages g).freeObjCount = 0
  · have hpick := pickSlab_full h hfull answer
    by_cases hno : answer = none ∨ MAX_ORDER ≤ s.alloc.slabOrder
    · refine ⟨none, s, ?_, .none hfull hno⟩
      unfold slabAlloc
      rw [hpick, allocSlabPage_none hno]
      rfl
    · rw [not_or, not_le] at hno
      obtain ⟨head, rfl⟩ := Option.ne_none_iff_exists'.mp hno.1
      have hl := hlaid hno.2
      have hfresh := hfresh head rfl
      obtain ⟨L, hring, hL⟩ := h.listed
      have hself : s.InBlock head head :=
        ⟨le_rfl, Nat.lt_add_of_pos_right (Nat.two_pow_pos _)⟩
      have hnot : head ∉ L := by
        intro hmem
        exact (hfresh.unused head hself).1 ((h.blocks.heads head).mp ((hL head).mp hmem).1).1
      obtain ⟨s1, hrun1, hnew, hring'⟩ := allocSlabPage_run hl hno.2 hring hnot
      have h1 := h.newSlab hl hfresh hnew ⟨L, hring', hL⟩
      -- the chain of the new slab starts with the first object
      have hchain : update chain head (range' 0 s.alloc.objectCountPerSlab) head
          = 0 :: range' 1 (s.alloc.objectCountPerSlab - 1) := by
        obtain ⟨n, hn⟩ := Nat.exists_eq_add_of_le hl.count
        have hn' : s.alloc.objectCountPerSlab = n + 3 + 1 := by omega
        rw [update_self, hn', range'_succ]
        rfl
      obtain ⟨s', hrun, htaken, h'⟩ := takeObject_spec h1 mem_cons_self hchain
      refine ⟨_, s', ?_, .new hfull rfl hnew htaken h'⟩
      unfold slabAlloc
      rw [hpick, hrun1]
      exact hrun
  · rw [not_forall] at hfull
    obtain ⟨g, hfull⟩ := hfull
    obtain ⟨hg, hfree⟩ := Classical.not_imp.mp hfull
    obtain ⟨p, hp, i, rest, hchain, hpick⟩ := pickSlab_listed h hg hfree answer
    obtain ⟨s', hrun, htaken, h'⟩ := takeObject_spec h hp hchain
    refine ⟨_, s', ?_, .old hp htaken h'⟩
    unfold slabAlloc
    rw [hpick]
    exact hrun

/-! ## `slab_free` -/

section

variable (h : Blocks s slabs) (hg : g ∈ slabs) (hi : i < s.alloc.objectCountPerSlab)
include h hg hi

theorem virtToPage_objAddr :
    s.virtToPage (s.objAddr g i) = g + i * s.alloc.objectSize / PAGE_SIZE ∧
      i * s.alloc.objectSize / PAGE_SIZE < 2 ^ s.alloc.slabOrder := by
  have hl := h.laid (ne_nil_of_mem hg)
  have hin := (obj_inside (h := g) hl hi).2
  have hsize := hl.size
  constructor
  · have hoff : s.objAddr g i - s.base = PAGE_SIZE * g + i * s.alloc.objectSize := by
      unfold objAddr pageToVirt
      omega
    unfold virtToPage
    rw [hoff, Nat.mul_add_div (by decide)]
  · rw [Nat.div_lt_iff_lt_mul (by decide), mul_comm (2 ^ _)]
    unfold objAddr at hin
    omega

theorem slabHeadOf_spec : s.slabHeadOf (s.objAddr g i) = .ok g := by
  obtain ⟨hpage, hlt⟩ := virtToPage_objAddr h hg hi
  unfold slabHeadOf
  simp only [hpage]
  rcases Nat.eq_zero_or_pos (i * s.alloc.objectSize / PAGE_SIZE) with hzero | hpos
  · rw [hzero, add_zero, if_pos ((h.heads g).mp hg).1]
  · obtain ⟨hstate, htail⟩ := h.tails g hg (g + i * s.alloc.objectSize / PAGE_SIZE) (by omega)
      (by omega)
    rw [if_neg (by rw [hstate]; decide), htail]

theorem getFreeIndex_spec : s.getFreeIndex g (s.objAddr g i) = .ok i := by
  have hl := h.laid (ne_nil_of_mem hg)
  have hsize := hl.size
  have hcount := hl.count_lt
  have hin := (obj_inside (h := g) hl hi).2
  have hblock := hl.block
  have hoff : (s.objAddr g i + U64 - s.pageToVirt g) % U64 = i * s.alloc.objectSize := by
    have hsub : s.objAddr g i + U64 - s.pageToVirt g = i * s.alloc.objectSize + U64 := by
      unfold objAddr
      omega
    rw [hsub, Nat.add_mod_right]
    unfold U64
    omega
  unfold getFreeIndex
  rw [if_neg (by omega), hoff, Nat.mul_div_cancel _ (by omega), Nat.mod_eq_of_lt]
  unfold UINT32_MAX at hcount
  omega

end

/-- `slab_free` after the first half: the object is clear and counted. -/
def cleared (s : Slabs) (g mem : Nat) : Slabs :=
  countUp { s with mem := s.mem.zero mem s.alloc.objectSize } g

theorem cleared_pages (mem : Nat) (hfree : (s.pages g).freeObjCount = n) (hn : n + 1 < 2 ^ 32) :
    (s.cleared g mem).pages = update s.pages g { s.pages g with freeObjCount := n + 1 } := by
  have hmod : add32 n 1 = n + 1 := Nat.mod_eq_of_lt hn
  simp only [cleared, countUp, modifyPage, hfree, hmod]

section

variable (h : Blocks s slabs) (hg : g ∈ slabs) (hi : i < s.alloc.objectCountPerSlab)
include h hg hi

theorem slabFree_eq (hfree : (s.pages g).freeObjCount = n) (hn : n + 1 < 2 ^ 32) :
    s.slabFree (s.objAddr g i) =
      if n ≠ 0 then
        if n + 1 = s.alloc.objectCountPerSlab then (s.cleared g (s.objAddr g i)).destroySlab g
        else (s.cleared g (s.objAddr g i)).pushObject g (s.objAddr g i)
      else (listAdd s.list .head (.node g)).bind fun list =>
        pushObject { s.cleared g (s.objAddr g i) with list := list } g (s.objAddr g i) := by
  have hcount : ((s.cleared g (s.objAddr g i)).pages g).freeObjCount = n + 1 := by
    rw [cleared_pages _ hfree hn, update_self]
  unfold slabFree
  rw [slabHeadOf_spec h hg hi]
  simp only [ok_bind]
  rw [if_pos ((h.heads g).mp hg).2]
  change (if ((s.cleared g (s.objAddr g i)).pages g).freeObjCount ≠ 1 then
    if ((s.cleared g (s.objAddr g i)).pages g).freeObjCount = s.alloc.objectCountPerSlab then _
    else _ else _) = _
  rw [hcount]
  by_cases hzero : n = 0
  · subst hzero
    rfl
  · rw [if_pos (by omega), if_pos hzero]
    rfl

/-- What putting an object back writes, apart from the list. -/
structure Pushed (s s' : Slabs) (g i : Nat) : Prop where
  layout : SameLayout s s'
  pages : s'.pages = Function.update s.pages g
    { s.pages g with freeObjCount := (s.pages g).freeObjCount + 1, firstFreeIndex := i }
  /-- The object points at what was first. -/
  next : s'.nextOf g i = (s.pages g).firstFreeIndex
  mem : ∀ x, x < s.objAddr g i ∨ s.objAddr g i + s.alloc.objectSize ≤ x → s'.mem x = s.mem x
  total : s'.alloc.freeObjCount = add32 s.alloc.freeObjCount 1

theorem pushObject_run (hfree : (s.pages g).freeObjCount = n) (hn : n + 1 < 2 ^ 32)
    (hfirst : (s.pages g).firstFreeIndex < 2 ^ 32) (list : ListPtr → RingLinks ListPtr) :
    ∃ s', pushObject { s.cleared g (s.objAddr g i) with list := list } g (s.objAddr g i) = .ok s' ∧
      s'.list = list ∧ Pushed s s' g i := by
  have hpages := cleared_pages (s.objAddr g i) hfree hn
  have hold : ((s.cleared g (s.objAddr g i)).pages g).firstFreeIndex
      = (s.pages g).firstFreeIndex := by
    rw [hpages, update_self]
  have hindex := getFreeIndex_spec h hg hi
  have hsize := (h.laid (ne_nil_of_mem hg)).size
  unfold pushObject
  simp only [hold]
  change ∃ s', (s.getFreeIndex g (s.objAddr g i)).bind _ = _ ∧ _
  rw [hindex]
  refine ⟨_, rfl, rfl, ⟨rfl, rfl, rfl, rfl, rfl⟩, ?_, ?_, ?_, rfl⟩
  · simp only [modifyPage, hpages, update_self, update_idem, hfree]
  · exact load32_store32 _ _ hfirst
  · intro x hx
    refine (store32_other ?_).trans (zero_other hx)
    omega

theorem Blocks.chain_kept {p j : Nat} (hp : p ∈ slabs) (hj : j < s.alloc.objectCountPerSlab)
    (hne : p ≠ g ∨ j ≠ i)
    (hmem : ∀ x, x < s.objAddr g i ∨ s.objAddr g i + s.alloc.objectSize ≤ x → s'.mem x = s.mem x) :
    ∀ x, s.objAddr p j ≤ x → x < s.objAddr p j + 4 → s'.mem x = s.mem x := by
  intro x hx hx'
  have hsize := (h.laid (ne_nil_of_mem hg)).size
  refine hmem x ?_
  rcases h.obj_apart hp hg hj hi hne with hle | hle
  · omega
  · omega

end

/-- **Putting an object back**: it is the first of the chain, and not live any more. -/
theorem Inv.pushed (h : Inv s slabs chain live) (hg : g ∈ slabs)
    (hi : i < s.alloc.objectCountPerSlab) (hoff : i ∉ chain g) (hpush : Pushed s s' g i)
    (hlisted : ∃ L : List Nat, IsRing s'.list .head (L.map .node) ∧
      ∀ p, p ∈ L ↔ p ∈ slabs ∧ (s'.pages p).freeObjCount ≠ 0) :
    Inv s' slabs (update chain g (i :: chain g)) (live.erase (s.objAddr g i)) := by
  have hc := h.chained g hg
  have hother : ∀ p, p ≠ g → s'.pages p = s.pages p := by
    intro p hp
    rw [hpush.pages, update_of_ne hp]
  refine h.change hpush.layout ?_ hother ?_ ?_ ?_ hlisted (h.live_nodup.erase _) ?_
  · rw [hpush.pages, update_self]
    exact ⟨rfl, rfl, rfl⟩
  · intro p hp hpg j hj
    exact h.blocks.chain_kept hg hi hp ((h.chained p hp).lt j hj) (.inl hpg) hpush.mem
  · refine ⟨⟨?_, ?_⟩, nodup_cons.mpr ⟨hoff, hc.nodup⟩, ?_, ?_⟩
    · rw [hpush.pages, update_self]
    · rw [hpush.next]
      refine hc.chain.congr ?_
      intro j hj
      unfold nextOf
      rw [hpush.layout.objAddr]
      refine load32_congr (h.blocks.chain_kept hg hi hg (hc.lt j hj) (.inr ?_) hpush.mem)
      exact fun he => hoff (he ▸ hj)
    · intro j hj
      rw [hpush.layout.objectCount]
      rcases mem_cons.mp hj with rfl | hj
      · exact hi
      · exact hc.lt j hj
    · rw [hpush.pages, update_self, length_cons, hc.length]
  · have hsum : (slabs.map fun p => (s.pages p).freeObjCount).sum + 1
        = (slabs.map fun p => (s'.pages p).freeObjCount).sum + 0 := by
      refine sum_map_change h.blocks.nodup hg ?_ ?_
      · rw [hpush.pages, update_self]
      · intro p _ hp
        rw [hother p hp]
    rw [hpush.total, h.total, add32]
    omega
  · intro a
    rw [h.live_nodup.mem_erase_iff, h.mem_live a]
    constructor
    · intro ha
      obtain ⟨hne, p, hp, j, hj, hjoff, rfl⟩ := ha
      refine ⟨p, hp, j, hj, ?_, rfl⟩
      by_cases hpg : p = g
      · subst hpg
        rw [update_self, mem_cons, not_or]
        exact ⟨fun hji => hne (by rw [hji]), hjoff⟩
      · rwa [update_of_ne hpg]
    · intro ha
      obtain ⟨p, hp, j, hj, hjoff, rfl⟩ := ha
      by_cases hpg : p = g
      · subst hpg
        rw [update_self, mem_cons, not_or] at hjoff
        refine ⟨?_, p, hp, j, hj, hjoff.2, rfl⟩
        intro he
        exact hjoff.1 (h.blocks.obj_inj hp hp hj hi he).2
      · rw [update_of_ne hpg] at hjoff
        refine ⟨?_, p, hp, j, hj, hjoff, rfl⟩
        intro he
        exact hpg (h.blocks.obj_inj hp hg hj hi he).1

theorem Chained.first_lt {C : List Nat} (hl : s.alloc.Laid) (hc : Chained s g C) :
    (s.pages g).firstFreeIndex < 2 ^ 32 := by
  have hcount := hl.count_lt
  unfold UINT32_MAX at hcount
  have hchain := hc.chain
  cases C with
  | nil =>
    rw [show (s.pages g).firstFreeIndex = UINT32_MAX from hchain]
    decide
  | cons i C =>
    rw [hchain.1]
    have := hc.lt i mem_cons_self
    omega

/-- `slab_free` of an object that is not the last live one of its slab. -/
theorem slabFree_push (h : Inv s slabs chain live) (hg : g ∈ slabs)
    (hi : i < s.alloc.objectCountPerSlab) (hoff : i ∉ chain g)
    (hmore : (s.pages g).freeObjCount + 1 < s.alloc.objectCountPerSlab) :
    ∃ s', s.slabFree (s.objAddr g i) = .ok s' ∧ Pushed s s' g i ∧
      Inv s' slabs (update chain g (i :: chain g)) (live.erase (s.objAddr g i)) := by
  have hl := h.blocks.laid (ne_nil_of_mem hg)
  have hcount := hl.count_lt
  unfold UINT32_MAX at hcount
  have hn : (s.pages g).freeObjCount + 1 < 2 ^ 32 := by omega
  have hfirst := (h.chained g hg).first_lt hl
  obtain ⟨L, hring, hL⟩ := h.listed
  rw [slabFree_eq h.blocks hg hi rfl hn]
  by_cases hzero : (s.pages g).freeObjCount = 0
  · -- the slab was full, and off the list
    have hnot : g ∉ L := fun hmem => ((hL g).mp hmem).2 hzero
    obtain ⟨H', hadd, hring'⟩ := list_add_slab hring hnot
    obtain ⟨s', hrun, hlist, hpush⟩ := pushObject_run h.blocks hg hi rfl hn hfirst H'
    rw [if_neg (not_not.mpr hzero), hadd]
    refine ⟨s', hrun, hpush, h.pushed hg hi hoff hpush ⟨g :: L, ?_, ?_⟩⟩
    · rw [hlist]
      exact hring'
    · intro p
      rw [hpush.pages, mem_cons, hL p]
      by_cases hp : p = g
      · subst hp
        simp [hg]
      · simp [hp]
  · obtain ⟨s', hrun, hlist, hpush⟩ := pushObject_run h.blocks hg hi rfl hn hfirst s.list
    rw [if_pos hzero, if_neg (ne_of_lt hmore)]
    refine ⟨s', hrun, hpush, h.pushed hg hi hoff hpush ⟨L, ?_, ?_⟩⟩
    · rw [hlist]
      exact hring
    · intro p
      rw [hpush.pages, hL p]
      by_cases hp : p = g
      · subst hp
        simp [hzero]
      · simp [hp]

/-- What giving a slab back writes, apart from the list. -/
structure Destroyed (s s' : Slabs) (g i : Nat) : Prop where
  layout : SameLayout s s'
  gone : ∀ p, s.InBlock g p → (s'.pages p).state = .freeListTail
  pages : ∀ p, ¬ s.InBlock g p → s'.pages p = s.pages p
  mem : ∀ x, x < s.objAddr g i ∨ s.objAddr g i + s.alloc.objectSize ≤ x → s'.mem x = s.mem x
  total : s'.alloc.freeObjCount
    = sub32 (add32 s.alloc.freeObjCount 1) s.alloc.objectCountPerSlab

theorem destroySlab_run (hfree : (s.pages g).freeObjCount = n) (hn : n + 1 < 2 ^ 32)
    {H' : ListPtr → RingLinks ListPtr} (hdel : listDelete s.list (.node g) = .ok H') :
    ∃ s', (s.cleared g (s.objAddr g i)).destroySlab g = .ok s' ∧ s'.list = H' ∧
      Destroyed s s' g i := by
  have hpages := cleared_pages (s.objAddr g i) hfree hn
  have hdel' : listDelete (s.cleared g (s.objAddr g i)).list (.node g) = .ok H' := hdel
  unfold destroySlab
  rw [hdel']
  refine ⟨_, rfl, rfl, ⟨rfl, rfl, rfl, rfl, rfl⟩, ?_, ?_, ?_, rfl⟩
  · intro p hp
    have hp' : InBlock (s.cleared g (s.objAddr g i)) g p := hp
    exact congrArg SlabPage.state (if_pos hp')
  · intro p hp
    have hp' : ¬ InBlock (s.cleared g (s.objAddr g i)) g p := hp
    have hne : p ≠ g := by
      intro he
      subst he
      exact hp ⟨le_rfl, Nat.lt_add_of_pos_right (Nat.two_pow_pos _)⟩
    refine (if_neg hp').trans ?_
    rw [hpages, update_of_ne hne]
  · intro x hx
    exact zero_other hx

theorem Blocks.destroyed (h : Blocks s slabs) (hg : g ∈ slabs) (hdes : Destroyed s s' g i) :
    Blocks s' (slabs.erase g) := by
  have hout : ∀ {q}, q ∈ slabs.erase g → ∀ p, s.InBlock q p → ¬ s.InBlock g p := by
    intro q hq p hp hin
    obtain ⟨hne, hqs⟩ := h.nodup.mem_erase_iff.mp hq
    have hapart := h.apart hqs hg hne
    unfold InBlock at hp hin
    omega
  have hpos := Nat.two_pow_pos s.alloc.slabOrder
  refine ⟨h.nodup.erase _, ?_, ?_, ?_, fun _ => hdes.layout.laid (h.laid (ne_nil_of_mem hg))⟩
  · intro p
    rw [hdes.layout.self]
    by_cases hin : s.InBlock g p
    · -- pages of the slab are not even in a slab any more
      have hnot : p ∉ slabs.erase g := by
        intro hmem
        exact hout hmem p ⟨le_rfl, Nat.lt_add_of_pos_right hpos⟩ hin
      simp [hnot, hdes.gone p hin]
    · rw [hdes.pages p hin, ← h.heads p, h.nodup.mem_erase_iff]
      refine and_iff_right ?_
      intro he
      subst he
      exact hin ⟨le_rfl, Nat.lt_add_of_pos_right hpos⟩
  · intro q hq p hp hp'
    rw [hdes.layout.slabOrder] at hp'
    rw [hdes.pages p (hout hq p ⟨le_of_lt hp, hp'⟩)]
    exact h.tails q (mem_of_mem_erase hq) p hp hp'
  · intro q hq
    rw [hdes.layout.base, hdes.layout.slabOrder]
    exact h.placed q (mem_of_mem_erase hq)

/-- The last live object of a slab is the only one that is not on the chain. -/
theorem Chained.eq_of_last {j : Nat} {C : List Nat} (hc : Chained s g C)
    (hlast : C.length + 1 = s.alloc.objectCountPerSlab) (hi : i < s.alloc.objectCountPerSlab)
    (hioff : i ∉ C) (hj : j < s.alloc.objectCountPerSlab) (hjoff : j ∉ C) : j = i := by
  by_contra hne
  have hnd : (j :: i :: C).Nodup := by
    refine nodup_cons.mpr ⟨?_, nodup_cons.mpr ⟨hioff, hc.nodup⟩⟩
    rw [mem_cons, not_or]
    exact ⟨hne, hjoff⟩
  have hsub : j :: i :: C ⊆ range s.alloc.objectCountPerSlab := by
    intro k hk
    rw [mem_range]
    rcases mem_cons.mp hk with rfl | hk
    · exact hj
    · rcases mem_cons.mp hk with rfl | hk
      · exact hi
      · exact hc.lt k hk
  have hle := (hnd.subperm hsub).length_le
  rw [length_range, length_cons, length_cons] at hle
  omega

section

variable (h : Inv s slabs chain live) (hg : g ∈ slabs) (hi : i < s.alloc.objectCountPerSlab)
  (hoff : i ∉ chain g)
include h hg hi hoff

/-- **Giving a slab back**: its last live object goes with it. -/
theorem Inv.destroyed (hlast : (s.pages g).freeObjCount + 1 = s.alloc.objectCountPerSlab)
    (hdes : Destroyed s s' g i) (hlisted : ∃ L : List Nat, IsRing s'.list .head (L.map .node) ∧
      ∀ p, p ∈ L ↔ p ∈ slabs.erase g ∧ (s.pages p).freeObjCount ≠ 0) :
    Inv s' (slabs.erase g) chain (live.erase (s.objAddr g i)) := by
  have hc := h.chained g hg
  have hl := h.blocks.laid (ne_nil_of_mem hg)
  have hpage : ∀ {p}, p ∈ slabs.erase g → s'.pages p = s.pages p := by
    intro p hp
    obtain ⟨hne, hps⟩ := h.blocks.nodup.mem_erase_iff.mp hp
    have hapart := h.blocks.apart hps hg hne
    refine hdes.pages p ?_
    intro hin
    unfold InBlock at hin
    omega
  refine ⟨h.blocks.destroyed hg hdes, ?_, ?_, ?_, h.live_nodup.erase _, ?_⟩
  · intro p hp
    obtain ⟨hne, hps⟩ := h.blocks.nodup.mem_erase_iff.mp hp
    have hcp := h.chained p hps
    refine hcp.congr hdes.layout (by rw [hpage hp]) (by rw [hpage hp]) ?_
    intro j hj
    exact h.blocks.chain_kept hg hi hps (hcp.lt j hj) (.inl hne) hdes.mem
  · have hperm := ((perm_cons_erase hg).map fun p => (s.pages p).freeObjCount).sum_eq
    rw [map_cons, sum_cons] at hperm
    have hsum : (slabs.erase g).map (fun p => (s'.pages p).freeObjCount)
        = (slabs.erase g).map fun p => (s.pages p).freeObjCount := by
      refine map_congr_left ?_
      intro p hp
      rw [hpage hp]
    have hcount := hl.count_lt
    unfold UINT32_MAX at hcount
    rw [hdes.total, h.total, hsum, hperm, add32, sub32]
    omega
  · obtain ⟨L, hring, hL⟩ := hlisted
    refine ⟨L, hring, ?_⟩
    intro p
    rw [hL p]
    refine and_congr_right ?_
    intro hp
    rw [hpage hp]
  · intro a
    rw [h.live_nodup.mem_erase_iff, h.mem_live a, hdes.layout.objectCount]
    simp only [hdes.layout.objAddr]
    constructor
    · intro ha
      obtain ⟨hne, p, hp, j, hj, hjoff, rfl⟩ := ha
      refine ⟨p, h.blocks.nodup.mem_erase_iff.mpr ⟨?_, hp⟩, j, hj, hjoff, rfl⟩
      intro hpg
      subst hpg
      have hji := hc.eq_of_last (by rw [hc.length]; exact hlast) hi hoff hj hjoff
      exact hne (by rw [hji])
    · intro ha
      obtain ⟨p, hp, j, hj, hjoff, rfl⟩ := ha
      obtain ⟨hne, hps⟩ := h.blocks.nodup.mem_erase_iff.mp hp
      refine ⟨?_, p, hps, j, hj, hjoff, rfl⟩
      intro he
      exact hne (h.blocks.obj_inj hps hg hj hi he).1

end

/-- What freeing an object writes: its slab keeps it, or goes with it. -/
inductive Freed (s : Slabs) (slabs : List Nat) : Slabs → Prop where
  | pushed {s' : Slabs} {g i : Nat} : g ∈ slabs → i < s.alloc.objectCountPerSlab →
      Pushed s s' g i → Freed s slabs s'
  | destroyed {s' : Slabs} {g i : Nat} : g ∈ slabs → i < s.alloc.objectCountPerSlab →
      Destroyed s s' g i → Freed s slabs s'

theorem Freed.layout (h : Freed s slabs s') : SameLayout s s' := by
  cases h with
  | pushed _ _ hpush => exact hpush.layout
  | destroyed _ _ hdes => exact hdes.layout

/-- **`slab_free`** of a live object returns, and the object is not live any more. -/
theorem slabFree_spec (h : Inv s slabs chain live) {a : Nat} (ha : a ∈ live) :
    ∃ s' slabs' chain', s.slabFree a = .ok s' ∧ Freed s slabs s' ∧
      Inv s' slabs' chain' (live.erase a) := by
  obtain ⟨g, hg, i, hi, hoff, rfl⟩ := (h.mem_live a).mp ha
  have hc := h.chained g hg
  have hlt := hc.length_lt hi hoff
  rw [hc.length] at hlt
  by_cases hlast : (s.pages g).freeObjCount + 1 = s.alloc.objectCountPerSlab
  · have hl := h.blocks.laid (ne_nil_of_mem hg)
    have hcount := hl.count_lt
    have hcount4 := hl.count
    unfold UINT32_MAX at hcount
    have hn : (s.pages g).freeObjCount + 1 < 2 ^ 32 := by omega
    have hsome : (s.pages g).freeObjCount ≠ 0 := by omega
    obtain ⟨L, hring, hL⟩ := h.listed
    obtain ⟨H', L', hdel, hring', hL'⟩ := list_delete_slab hring ((hL g).mpr ⟨hg, hsome⟩)
    obtain ⟨s', hrun, hlist, hdes⟩ := destroySlab_run (i := i) rfl hn hdel
    rw [slabFree_eq h.blocks hg hi rfl hn, if_pos hsome, if_pos hlast]
    refine ⟨s', _, _, hrun, .destroyed hg hi hdes, h.destroyed hg hi hoff hlast hdes ⟨L', ?_, ?_⟩⟩
    · rw [hlist]
      exact hring'
    · intro p
      rw [hL' p, hL p, h.blocks.nodup.mem_erase_iff]
      tauto
  · obtain ⟨s', hrun, hpush, h'⟩ := slabFree_push h hg hi hoff (by omega)
    exact ⟨s', _, _, hrun, .pushed hg hi hpush, h'⟩

end OsKernel.Mm.Slabs
