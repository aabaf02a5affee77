import OsKernel.Mm.Kmalloc
import OsKernel.Mm.SlabFrame

/-!
# `kmalloc`, `kfree` and `krealloc` over whole runs

All allocators of the kernel run over the same pages. Each of them keeps its own
invariant, since the calls of the others are steps of the rest of the kernel to it.

`slab_object_size` asks the page that an object starts in for the allocator, and this page
need not be the head of the slab. The tail pages name the allocator too, all but the last
one, where `slab.allocator` is what it was before the pages became a slab. So the size is
right, and with it `krealloc`, for the allocators none of whose objects start in the last
page of a slab of several pages, and for no others.
-/

namespace OsKernel.Mm

open Function List Nat Option

variable {live : List Nat} {mem n ret : Nat} {sizes : Nat → Option Nat} {r : Option Nat}
  {a₀ : SlabAllocator}

/-- No object starts in the last page of a slab, unless that is its first page as well. -/
def SlabAllocator.LastPageClear (a : SlabAllocator) : Prop :=
  a.slabOrder = 0 ∨
    (a.objectCountPerSlab - 1) * a.objectSize < PAGE_SIZE * (2 ^ a.slabOrder - 1)

instance (a : SlabAllocator) : Decidable a.LastPageClear := inferInstanceAs (Decidable (_ ∨ _))

/-- There are no pages for a slab: `alloc_pages` has none, or refuses the order. -/
def SlabAllocator.NoPages (a : SlabAllocator) (answer : Nat → Option Nat) : Prop :=
  answer a.slabOrder = none ∨ MAX_ORDER ≤ a.slabOrder

namespace SlabHeap

open LinkedRing Slabs

variable {h start : SlabHeap} {st st' : SlabHeap × (Nat → List Nat)} {i j : Nat}
  {a b : SlabAllocator}
variable {s' : Slabs} {buffer : Nat} {answer : Nat → Option Nat}

/-! ## Steps -/

/-- One step, next to the objects that are live, by allocator. -/
inductive HeapOp where
  /-- `slab_alloc`. -/
  | alloc (i : Nat) (answer : Nat → Option Nat)
  /-- `slab_free`, of an object of this allocator. -/
  | free (i mem : Nat)
  /-- The rest of the kernel: new contents of pages and memory. -/
  | other (pages : Nat → SlabPage) (mem : Memory)

def HeapOp.exec (st : SlabHeap × (Nat → List Nat)) :
    HeapOp → Result (SlabHeap × (Nat → List Nat))
  | .alloc i answer => do
    let (result, h) ← st.1.slabAlloc i answer
    pure (h, Function.update st.2 i (result.toList ++ st.2 i))
  | .free i mem => do
    let h ← st.1.slabFree mem
    pure (h, Function.update st.2 i ((st.2 i).erase mem))
  | .other pages mem => .ok ({ st.1 with pages := pages, mem := mem }, st.2)

/-- The pages that `alloc_pages` hands to an allocator are fresh. -/
def FreshAnswer (h : SlabHeap) (i : Nat) (a : SlabAllocator) (answer : Nat → Option Nat) : Prop :=
  ∀ head, answer a.slabOrder = some head → Fresh (h.view i a) head

/-- Pages are fresh when handed out, only live objects are freed, and slabs are respected. -/
def HeapOp.Legal (st : SlabHeap × (Nat → List Nat)) : HeapOp → Prop
  | .alloc i answer => ∃ a, st.1.alloc i = some a ∧ st.1.FreshAnswer i a answer
  | .free i mem => ∃ a, st.1.alloc i = some a ∧ mem ∈ st.2 i
  | .other pages mem => ∀ i a, st.1.alloc i = some a → Respects (st.1.view i a) (st.2 i) pages mem

/-- The states of all runs. -/
inductive Reachable (start : SlabHeap) : SlabHeap × (Nat → List Nat) → Prop where
  | start : Reachable start (start, fun _ => [])
  | step {st st' : SlabHeap × (Nat → List Nat)} {op : HeapOp} : Reachable start st →
      op.Legal st → op.exec st = .ok st' → Reachable start st'

/-! ## The invariant over runs -/

/-- What `slab_allocator_init` has set. -/
def layoutAt (h : SlabHeap) (i : Nat) : Option (Nat × Nat × Nat) :=
  (h.alloc i).map fun a => (a.objectSize, a.objectCountPerSlab, a.slabOrder)

/-- Between the steps: the allocators there were, each with its invariant. -/
structure Good (start : SlabHeap) (st : SlabHeap × (Nat → List Nat)) : Prop where
  initialized : st.1.kmallocIsInitialized = start.kmallocIsInitialized
  layout : ∀ i, st.1.layoutAt i = start.layoutAt i
  each : ∀ i a, st.1.alloc i = some a →
    Slabs.Good (st.1.view i a, st.2 i) ∧ (st.1.view i a).Named

theorem Good.blocks (hgood : Good start st) (ha : st.1.alloc i = some a) :
    ∃ slabs, Blocks (st.1.view i a) slabs := by
  obtain ⟨⟨-, slabs, chain, hinv⟩, -⟩ := hgood.each i a ha
  exact ⟨slabs, hinv.blocks⟩

theorem beside (h : SlabHeap) (hne : i ≠ j) (a b : SlabAllocator) :
    Beside (h.view i a) (h.view j b) := ⟨hne, rfl, rfl, rfl⟩

theorem put_alloc_self (hself : s'.self = i) : (h.put s').alloc i = some s'.alloc := by
  rw [put, hself]
  exact update_self ..

theorem put_alloc_other (hself : s'.self = i) (hne : j ≠ i) :
    (h.put s').alloc j = h.alloc j := by
  rw [put, hself]
  exact update_of_ne hne ..

theorem put_view_self (hself : s'.self = i) (hbase : s'.base = h.base) :
    (h.put s').view i s'.alloc = s' := by
  have hlist : update h.list s'.self s'.list i = s'.list := by
    rw [hself, update_self]
  simp only [view, put, hlist, ← hbase]
  rw [← hself]

theorem put_view_other (hself : s'.self = i) (hne : j ≠ i) (b : SlabAllocator) :
    (h.put s').view j b = { h.view j b with pages := s'.pages, mem := s'.mem } := by
  have hlist : (h.put s').list j = h.list j := by
    rw [put, hself]
    exact update_of_ne hne ..
  simp only [view, hlist]
  rfl

/-- **A call of one allocator** that keeps its invariant keeps those of all others. -/
theorem Good.call (hgood : Good start st) (ha : st.1.alloc i = some a)
    (hf : Frame (st.1.view i a) s') (hs' : Slabs.Good (s', live)) :
    Good start (st.1.put s', update st.2 i live) := by
  have hself : s'.self = i := hf.layout.self
  refine ⟨hgood.initialized, ?_, ?_⟩
  · intro k
    rw [← hgood.layout k]
    unfold layoutAt
    by_cases hk : k = i
    · subst hk
      have hsize : s'.alloc.objectSize = a.objectSize := hf.layout.objectSize
      have hcount : s'.alloc.objectCountPerSlab = a.objectCountPerSlab := hf.layout.objectCount
      have horder : s'.alloc.slabOrder = a.slabOrder := hf.layout.slabOrder
      rw [put_alloc_self hself, ha]
      simp only [map_some, hsize, hcount, horder]
    · rw [put_alloc_other hself hk]
  · intro k b hb
    by_cases hk : k = i
    · subst hk
      obtain rfl := some.inj ((put_alloc_self hself).symm.trans hb)
      rw [put_view_self hself hf.layout.base]
      change Slabs.Good (s', update st.2 k live k) ∧ _
      rw [update_self]
      exact ⟨hs', hf.named (hgood.each k a ha).2⟩
    · rw [put_alloc_other hself hk] at hb
      obtain ⟨slabs, hblocks⟩ := hgood.blocks ha
      obtain ⟨⟨hlaid, slabs', chain', hinv⟩, hnamed⟩ := hgood.each k b hb
      have hres := hf.respects (st.1.beside (Ne.symm hk) a b) hblocks hinv.blocks (st.2 k)
      rw [put_view_other hself hk]
      change Slabs.Good (_, update st.2 i live k) ∧ _
      rw [update_of_ne hk]
      exact ⟨⟨hlaid, slabs', chain', hinv.respects hres⟩, hnamed.respects hres⟩

theorem slabAlloc_run (ha : h.alloc i = some a)
    (hrun : (h.view i a).slabAlloc (answer a.slabOrder) = .ok (r, s')) :
    h.slabAlloc i answer = .ok (r, h.put s') := by
  unfold slabAlloc
  rw [ha]
  dsimp only
  rw [hrun]
  rfl

theorem HeapOp.alloc_exec (hrun : st.1.slabAlloc i answer = .ok (r, h)) :
    (HeapOp.alloc i answer).exec st = .ok (h, update st.2 i (r.toList ++ st.2 i)) := by
  rw [exec, hrun]
  rfl

theorem HeapOp.free_exec (hrun : st.1.slabFree mem = .ok h) :
    (HeapOp.free i mem).exec st = .ok (h, update st.2 i ((st.2 i).erase mem)) := by
  rw [exec, hrun]
  rfl

theorem Good.slabAlloc (hgood : Good start st) (ha : st.1.alloc i = some a)
    (hfresh : st.1.FreshAnswer i a answer) :
    ∃ r s', st.1.slabAlloc i answer = .ok (r, st.1.put s') ∧ Frame (st.1.view i a) s' ∧
      Slabs.Good (s', r.toList ++ st.2 i) ∧ (r = none → a.NoPages answer) := by
  obtain ⟨⟨hlaid, slabs, chain, hinv⟩, -⟩ := hgood.each i a ha
  obtain ⟨r, s', hrun, hres⟩ := slabAlloc_spec hinv hlaid hfresh
  refine ⟨r, s', slabAlloc_run ha hrun, hres.frame hinv hfresh, ⟨?_, ?_⟩, ?_⟩
  · intro horder
    exact hres.layout.laid (hlaid (by rw [← hres.layout.slabOrder]; exact horder))
  · cases hres with
    | none _ _ => exact ⟨slabs, chain, hinv⟩
    | old _ _ h' => exact ⟨_, _, h'⟩
    | new _ _ _ _ h' => exact ⟨_, _, h'⟩
  · intro hr
    subst hr
    cases hres with
    | none _ hno => exact hno

theorem Good.slabFree (hgood : Good start st) (ha : st.1.alloc i = some a) (hmem : mem ∈ st.2 i) :
    ∃ s', st.1.slabFree mem = .ok (st.1.put s') ∧ Frame (st.1.view i a) s' ∧
      Slabs.Good (s', (st.2 i).erase mem) := by
  obtain ⟨⟨hlaid, slabs, chain, hinv⟩, -⟩ := hgood.each i a ha
  obtain ⟨s', slabs', chain', hrun, hfreed, h'⟩ := slabFree_spec hinv hmem
  refine ⟨s', ?_, hfreed.frame hinv, ?_, slabs', chain', h'⟩
  · obtain ⟨g, hg, k, hk, -, rfl⟩ := (hinv.mem_live mem).mp hmem
    have hhead : st.1.slabHeadOf ((st.1.view i a).objAddr g k) = .ok g :=
      slabHeadOf_spec hinv.blocks hg hk
    have howner : (st.1.pages g).allocator = some i := ((hinv.blocks.heads g).mp hg).2
    unfold SlabHeap.slabFree
    simp only [hhead, ok_bind, howner, ha]
    rw [show (st.1.view i a).slabFree _ = .ok s' from hrun]
    rfl
  · intro horder
    exact hfreed.layout.laid (hlaid (by rw [← hfreed.layout.slabOrder]; exact horder))

/-- **One step** returns and keeps all invariants. -/
theorem HeapOp.exec_good (hgood : Good start st) (op : HeapOp) (hlegal : op.Legal st) :
    ∃ st', op.exec st = .ok st' ∧ Good start st' := by
  cases op with
  | alloc i answer =>
    obtain ⟨a, ha, hfresh⟩ := hlegal
    obtain ⟨r, s', hrun, hf, hs', -⟩ := hgood.slabAlloc ha hfresh
    exact ⟨_, alloc_exec hrun, hgood.call ha hf hs'⟩
  | free i mem =>
    obtain ⟨a, ha, hmem⟩ := hlegal
    obtain ⟨s', hrun, hf, hs'⟩ := hgood.slabFree ha hmem
    exact ⟨_, free_exec hrun, hgood.call ha hf hs'⟩
  | other pages mem =>
    refine ⟨_, rfl, hgood.initialized, hgood.layout, ?_⟩
    intro i a ha
    obtain ⟨⟨hlaid, slabs, chain, hinv⟩, hnamed⟩ := hgood.each i a ha
    exact ⟨⟨hlaid, slabs, chain, hinv.respects (hlegal i a ha)⟩, hnamed.respects (hlegal i a ha)⟩

theorem Reachable.good (hstart : Good start (start, fun _ => [])) (hreach : Reachable start st) :
    Good start st := by
  induction hreach with
  | start => exact hstart
  | step _ hlegal hexec ih =>
    obtain ⟨st', hexec', hgood⟩ := HeapOp.exec_good ih _ hlegal
    rw [Except.ok.inj (hexec.symm.trans hexec')]
    exact hgood

/-! ## Setting up -/

/-- The object sizes that the allocators are set up for, by address. -/
structure Sizes (sizes : Nat → Option Nat) : Prop where
  range : ∀ i arg, sizes i = some arg → 1 ≤ arg ∧ arg < 2 ^ 32
  kmalloc : ∀ i, i < 16 → sizes i = kmallocSizes[i]?

/-- The allocators right after `kmalloc_init` and the other calls of `slab_allocator_init`. -/
structure Started (sizes : Nat → Option Nat) (h : SlabHeap) : Prop where
  init : ∀ i arg, sizes i = some arg →
    ∃ a₀ a, slabAllocatorInit a₀ arg = .ok (some a) ∧ h.alloc i = some a
  none : ∀ i, sizes i = none → h.alloc i = none
  empty : ∀ i a, h.alloc i = some a → IsRing (h.list i) .head []
  unused : ∀ p, (h.pages p).state ≠ .slabHead
  initialized : h.kmallocIsInitialized = true

theorem Started.good (hsizes : Sizes sizes) (h : Started sizes start) :
    Good start (start, fun _ => []) := by
  refine ⟨rfl, fun _ => rfl, ?_⟩
  intro i a ha
  have hunused : ∀ p, ¬ (start.view i a).Owns p := fun p hp => h.unused p hp.1
  refine ⟨?_, fun g hg => absurd hg (hunused g)⟩
  cases harg : sizes i with
  | none =>
    rw [h.none i harg] at ha
    cases ha
  | some arg =>
    obtain ⟨a₀, a', hinit, ha'⟩ := h.init i arg harg
    obtain rfl := some.inj (ha.symm.trans ha')
    obtain ⟨hpos, hlt⟩ := hsizes.range i arg harg
    exact Slabs.Started.good hpos hlt ⟨hinit, h.empty i a ha, hunused⟩

theorem initSlabs_spec (h : SlabHeap) (sizes : List Nat)
    (hsizes : ∀ size ∈ sizes, 1 ≤ size ∧ size < 2 ^ 32) (index : Nat)
      (hthere : ∀ k, k < sizes.length → h.alloc (index + k) ≠ none) :
    ∃ h', initSlabs sizes index h = .ok h' ∧ h'.pages = h.pages ∧
      (∀ k arg, sizes[k]? = some arg → ∃ a₀ a, slabAllocatorInit a₀ arg = .ok (some a) ∧
        h'.alloc (index + k) = some a ∧ IsRing (h'.list (index + k)) .head []) ∧
      ∀ j, j < index ∨ index + sizes.length ≤ j →
        h'.alloc j = h.alloc j ∧ h'.list j = h.list j := by
  induction sizes generalizing h index with
  | nil =>
    refine ⟨h, rfl, rfl, ?_, fun _ _ => ⟨rfl, rfl⟩⟩
    intro k arg hk
    cases hk
  | cons size sizes ih =>
    obtain ⟨a₀, ha₀⟩ := ne_none_iff_exists'.mp (hthere 0 (zero_lt_succ _))
    rw [add_zero] at ha₀
    obtain ⟨hpos, hlt⟩ := hsizes size mem_cons_self
    obtain ⟨a, hinit, -, -⟩ := slabAllocatorInit_laid a₀ hpos hlt
    obtain ⟨h', hrun, hpages, hdone, hkeep⟩ := ih
      { h with
        alloc := update h.alloc index (some a)
        list := update h.list index
          (update (h.list index) .head ⟨some .head, some .head⟩) }
      (fun size hs => hsizes size (.tail _ hs)) (index + 1) (by
        intro k hk
        have hne : index + 1 + k ≠ index := by omega
        dsimp only
        rw [update_of_ne hne, show index + 1 + k = index + (k + 1) by omega]
        exact hthere (k + 1) (succ_lt_succ hk))
    refine ⟨h', ?_, hpages, ?_, ?_⟩
    · rw [initSlabs, ha₀]
      dsimp only
      rw [hinit]
      exact hrun
    · intro k arg hk
      cases k with
      | zero =>
        obtain ⟨halloc, hlist⟩ := hkeep index (.inl (lt_succ_self _))
        dsimp only at halloc hlist
        rw [update_self] at halloc hlist
        rw [add_zero, hlist]
        cases hk
        refine ⟨a₀, a, hinit, halloc, ⟨?_, ?_⟩, by simp⟩
        · rw [update_self]
        · rw [update_self]
      | succ k =>
        rw [show index + (k + 1) = index + 1 + k by omega]
        exact hdone k arg hk
    · intro j hj
      rw [length_cons] at hj
      obtain ⟨halloc, hlist⟩ := hkeep j (by omega)
      have hne : j ≠ index := by omega
      dsimp only at halloc hlist
      rw [update_of_ne hne] at halloc hlist
      exact ⟨halloc, hlist⟩

/-- **`kmalloc_init`** returns; with the other allocators set up, all are. -/
theorem kmallocInit_started (hsizes : Sizes sizes) (hthere : ∀ i, i < 16 → h.alloc i ≠ none)
    (hinit : ∀ i arg, 16 ≤ i → sizes i = some arg → IsRing (h.list i) .head [] ∧
      ∃ a₀ a, slabAllocatorInit a₀ arg = .ok (some a) ∧ h.alloc i = some a)
    (hnone : ∀ i, 16 ≤ i → sizes i = none → h.alloc i = none)
    (hunused : ∀ p, (h.pages p).state ≠ .slabHead) :
    ∃ h', h.kmallocInit = .ok h' ∧ Started sizes h' := by
  obtain ⟨h', hrun, hpages, hdone, hkeep⟩ := initSlabs_spec h kmallocSizes
    (by decide) 0 (fun k hk => by rw [zero_add]; exact hthere k hk)
  have hall : ∀ i, (∀ arg, sizes i = some arg → IsRing (h'.list i) .head [] ∧
      ∃ a₀ a, slabAllocatorInit a₀ arg = .ok (some a) ∧ h'.alloc i = some a) ∧
      (sizes i = none → h'.alloc i = none) := by
    intro i
    rcases lt_or_ge i 16 with hi | hi
    · rw [hsizes.kmalloc i hi, getElem?_eq_none_iff]
      refine ⟨fun arg harg => ?_, fun hge => absurd hi (not_lt.mpr hge)⟩
      have hdone := hdone i arg harg
      rw [zero_add] at hdone
      obtain ⟨a₀, a, hinit, ha, hring⟩ := hdone
      exact ⟨hring, a₀, a, hinit, ha⟩
    · obtain ⟨halloc, hlist⟩ := hkeep i (.inr hi)
      rw [halloc, hlist]
      exact ⟨fun arg => hinit i arg hi, hnone i hi⟩
  refine ⟨{ h' with kmallocIsInitialized := true }, ?_, fun i arg harg => ((hall i).1 arg harg).2,
    fun i => (hall i).2, ?_, ?_, rfl⟩
  · rw [kmallocInit, hrun]
    rfl
  · intro i a ha
    cases harg : sizes i with
    | none => cases ha.symm.trans ((hall i).2 harg)
    | some arg => exact ((hall i).1 arg harg).1
  · intro p
    rw [hpages]
    exact hunused p

/-! ## `slab_object_size` -/

theorem Good.live_page (hgood : Good start st) (ha : st.1.alloc i = some a)
    (hlive : buffer ∈ st.2 i) : ∃ g k, (st.1.view i a).Owns g ∧ k < a.objectCountPerSlab ∧
      st.1.virtToPage buffer = g + k * a.objectSize / PAGE_SIZE ∧
      k * a.objectSize / PAGE_SIZE < 2 ^ a.slabOrder := by
  obtain ⟨⟨-, slabs, chain, hinv⟩, -⟩ := hgood.each i a ha
  obtain ⟨g, hg, k, hk, -, rfl⟩ := (hinv.mem_live buffer).mp hlive
  exact ⟨g, k, (hinv.blocks.heads g).mp hg, hk, virtToPage_objAddr hinv.blocks hg hk⟩

/-- **`slab_object_size`** of a live object, when no object starts in the last page. -/
theorem Good.slabObjectSize (hgood : Good start st) (ha : st.1.alloc i = some a)
    (hclear : a.LastPageClear) (hlive : buffer ∈ st.2 i) :
    st.1.slabObjectSize (some buffer) = .ok a.objectSize := by
  obtain ⟨slabs, hblocks⟩ := hgood.blocks ha
  obtain ⟨g, k, hg, hk, hpage, hlt⟩ := hgood.live_page ha hlive
  have hpages : ((st.1.pages (st.1.virtToPage buffer)).state = .slabHead ∨
      (st.1.pages (st.1.virtToPage buffer)).state = .slabTail) ∧
      (st.1.pages (st.1.virtToPage buffer)).allocator = some i := by
    rw [hpage]
    rcases Nat.eq_zero_or_pos (k * a.objectSize / PAGE_SIZE) with hzero | hpos
    · rw [hzero, add_zero]
      exact ⟨.inl hg.1, hg.2⟩
    · refine ⟨.inr (hblocks.tails g ((hblocks.heads g).mpr hg) _ (by omega)
        (Nat.add_lt_add_left hlt g)).1, (hgood.each i a ha).2 g hg _ (by omega) ?_⟩
      change _ < g + 2 ^ a.slabOrder
      rcases hclear with horder | hclear
      · rw [horder] at hlt
        omega
      · have hmul : k * a.objectSize ≤ (a.objectCountPerSlab - 1) * a.objectSize :=
          mul_le_mul_right _ (by omega)
        have hlast : k * a.objectSize / PAGE_SIZE < 2 ^ a.slabOrder - 1 := by
          rw [div_lt_iff_lt_mul (by decide), mul_comm (2 ^ _ - 1)]
          omega
        omega
  unfold SlabHeap.slabObjectSize
  dsimp only
  rw [if_pos hpages.1]
  simp only [hpages.2, ha]

/-! ## `kmalloc` and `krealloc` -/

/-- The loop of `kmalloc` finds a class that is large enough, if there is one. -/
theorem findSlab_spec (h : SlabHeap) (size : Nat) (L : List Nat) (hall : ∀ i ∈ L, h.alloc i ≠ none)
    (hex : ∃ i ∈ L, ∃ a, h.alloc i = some a ∧ size ≤ a.objectSize) :
    ∃ i a, h.findSlab size L = .ok i ∧ h.alloc i = some a ∧ size ≤ a.objectSize ∧ i ∈ L := by
  induction L with
  | nil =>
    obtain ⟨i, hi, -⟩ := hex
    cases hi
  | cons k L ih =>
    obtain ⟨a, ha⟩ := ne_none_iff_exists'.mp (hall k mem_cons_self)
    rw [findSlab, ha]
    dsimp only
    by_cases hsmall : a.objectSize < size
    · rw [if_pos hsmall]
      obtain ⟨i, hi, b, hb, hsize⟩ := hex
      have hiL : i ∈ L := by
        rcases mem_cons.mp hi with rfl | hi
        · obtain rfl := some.inj (ha.symm.trans hb)
          omega
        · exact hi
      obtain ⟨i, b, hrun, hb, hsize, hi⟩ := ih (fun i hi => hall i (.tail _ hi))
        ⟨i, hiL, b, hb, hsize⟩
      exact ⟨i, b, hrun, hb, hsize, mem_cons_of_mem _ hi⟩
    · rw [if_neg hsmall]
      exact ⟨k, a, rfl, ha, not_lt.mp hsmall, mem_cons_self⟩

theorem slabAllocatorInit_max {a : SlabAllocator}
    (h : slabAllocatorInit a₀ KMALLOC_MAX = .ok (some a)) : a.objectSize = KMALLOC_MAX := by
  have hrun : slabAllocatorInit a₀ KMALLOC_MAX = .ok (some { a₀ with
          objectSize := 8192
          objectCountPerSlab := 4
          slabOrder := 3
          freeObjCount := 0 }) := rfl
  rw [← some.inj (Except.ok.inj (hrun.symm.trans h))]
  rfl

section

variable (hgood : Good start st)
include hgood

theorem Good.layout_eq (ha₀ : start.alloc i = some a₀) :
    ∃ a, st.1.alloc i = some a ∧ a.objectSize = a₀.objectSize ∧
      a.objectCountPerSlab = a₀.objectCountPerSlab ∧ a.slabOrder = a₀.slabOrder := by
  have hlayout := hgood.layout i
  unfold layoutAt at hlayout
  rw [ha₀, map_some, map_eq_some_iff] at hlayout
  obtain ⟨a, ha, he⟩ := hlayout
  simp only [Prod.mk.injEq] at he
  exact ⟨a, ha, he⟩

theorem Good.findSlab (hsizes : Sizes sizes) (hstart : Started sizes start) {size : Nat}
    (hsize : size ≤ KMALLOC_MAX) :
    ∃ i a, st.1.findSlab size (List.range 16) = .ok i ∧ st.1.alloc i = some a ∧
      size ≤ a.objectSize := by
  have hclass : ∀ k arg, k < 16 → kmallocSizes[k]? = some arg → ∃ a₀ a₁ a,
      slabAllocatorInit a₀ arg = .ok (some a₁) ∧ st.1.alloc k = some a ∧
        a.objectSize = a₁.objectSize := by
    intro k arg hk harg
    obtain ⟨a₀, a₁, hinit, ha₁⟩ := hstart.init k arg ((hsizes.kmalloc k hk).trans harg)
    obtain ⟨a, ha, hsame, -⟩ := hgood.layout_eq ha₁
    exact ⟨a₀, a₁, a, hinit, ha, hsame⟩
  obtain ⟨i, a, hrun, ha, hle, -⟩ := findSlab_spec st.1 size (range 16) (by
    intro k hk
    have hk' : k < 16 := mem_range.mp hk
    obtain ⟨arg, harg⟩ : ∃ arg, kmallocSizes[k]? = some arg :=
      ⟨_, getElem?_eq_getElem hk'⟩
    obtain ⟨-, -, a, -, ha, -⟩ := hclass k arg hk' harg
    rw [ha]
    exact some_ne_none a) (by
    obtain ⟨a₀, a₁, a, hinit, ha, hsame⟩ := hclass 15 KMALLOC_MAX (by decide) rfl
    refine ⟨15, by decide, a, ha, ?_⟩
    rw [hsame, slabAllocatorInit_max hinit]
    exact hsize)
  exact ⟨i, a, hrun, ha, hle⟩

theorem Good.live_inside (ha : st.1.alloc i = some a) (hlive : buffer ∈ st.2 i) :
    ∃ g, (st.1.view i a).Owns g ∧
      (st.1.view i a).pageToVirt g ≤ buffer ∧
      buffer + a.objectSize ≤ (st.1.view i a).pageToVirt g + PAGE_SIZE * 2 ^ a.slabOrder := by
  obtain ⟨⟨-, slabs, chain, hinv⟩, -⟩ := hgood.each i a ha
  obtain ⟨g, hg, hin⟩ := hinv.liveApart.inside buffer hlive
  exact ⟨g, (hinv.blocks.heads g).mp hg, hin⟩

/-- A call of one allocator does not write to the live objects of another one. -/
theorem Good.live_kept (ha : st.1.alloc i = some a) (hf : Frame (st.1.view i a) s')
    (hb : st.1.alloc j = some b) (hne : i ≠ j) {k : Nat} (hlive : buffer ∈ st.2 j)
    (hk : k < b.objectSize) :
    s'.mem (buffer + k) = st.1.mem (buffer + k) := by
  obtain ⟨slabs, hblocks⟩ := hgood.blocks ha
  obtain ⟨slabs', hblocks'⟩ := hgood.blocks hb
  obtain ⟨g, hg, hle, hle'⟩ := hgood.live_inside hb hlive
  refine hf.mem_beside (st.1.beside hne a b) hblocks hblocks' hg (by omega) ?_
  change _ < _ + PAGE_SIZE * 2 ^ b.slabOrder
  omega

/-- `memcpy` into a live object is a step of the rest of the kernel. -/
theorem Good.copy_legal (hb : st.1.alloc j = some b) (hret : ret ∈ st.2 j) (buffer : Nat)
    (hn : n ≤ b.objectSize) :
    (HeapOp.other st.1.pages (st.1.mem.copy ret buffer n)).Legal st := by
  intro k c hc
  refine ⟨fun _ _ _ _ => rfl, fun p hstate howner => ⟨hstate, howner⟩, ?_⟩
  intro x hne
  have hx : ret ≤ x ∧ x < ret + n := by
    by_contra hout
    exact hne (Memory.copy_other (by omega))
  by_cases hkj : k = j
  · subst hkj
    obtain rfl := some.inj (hb.symm.trans hc)
    have hlt : x < ret + b.objectSize := by omega
    exact .inl ⟨ret, hret, hx.1, hlt⟩
  · refine .inr ?_
    intro g hg
    by_contra hin
    rw [not_or, not_lt, not_le] at hin
    -- the address would be in slabs of two allocators
    obtain ⟨slabs, hblocks⟩ := hgood.blocks hb
    obtain ⟨slabs', hblocks'⟩ := hgood.blocks hc
    obtain ⟨q, hq, hle, hle'⟩ := hgood.live_inside hb hret
    obtain ⟨p, hp, hpx⟩ := page_of_block (s := st.1.view j b) (g := q) (x := x) (by omega) (by
      change _ < _ + PAGE_SIZE * 2 ^ b.slabOrder
      omega)
    obtain ⟨p', hp', hpx'⟩ := page_of_block hin.1 hin.2
    have hpp : p = p' := page_unique (s := st.1.view j b) hpx hpx'
    subst hpp
    exact (st.1.beside (Ne.symm hkj) b c).not_usable hblocks hblocks' hg hp' (.inl ⟨q, hq, hp⟩)

/-- A live buffer of the size asked for, that starts with the bytes of the old one. -/
def Reallocated (start h h' : SlabHeap) (buffer bufferSize size ret : Nat) : Prop :=
  ∃ live j b, Reachable start (h', live) ∧ h'.alloc j = some b ∧ ret ∈ live j ∧
    size ≤ b.objectSize ∧ ∀ k < bufferSize, h'.mem (ret + k) = h.mem (buffer + k)

/-- Why `krealloc` returns NULL: it was asked for nothing, or for more and there are no pages. -/
def Refused (h : SlabHeap) (bufferSize size : Nat) (answer : Nat → Option Nat) : Prop :=
  size = 0 ∨ bufferSize < size ∧ ∃ j b, h.alloc j = some b ∧ size ≤ b.objectSize ∧ b.NoPages answer

/-- The end of `krealloc`: the bytes are copied and the old buffer is freed. -/
theorem Good.moveTo (hreach : Reachable start st) (hinit : start.kmallocIsInitialized = true)
    (ha : st.1.alloc i = some a) (hb : st.1.alloc j = some b) (hne : i ≠ j)
    (hbuffer : buffer ∈ st.2 i) (hret : ret ∈ st.2 j) (hsize : a.objectSize ≤ b.objectSize) :
    ∃ h', st.1.moveTo buffer ret a.objectSize = .ok (some ret, h') ∧
      ∃ live, Reachable start (h', live) ∧ h'.alloc j = some b ∧ ret ∈ live j ∧
        ∀ k < a.objectSize, h'.mem (ret + k) = st.1.mem (buffer + k) := by
  have hlegal := hgood.copy_legal hb hret buffer hsize
  obtain ⟨st₂, hexec₂, hgood₂⟩ := HeapOp.exec_good hgood _ hlegal
  have hreach₂ := hreach.step hlegal hexec₂
  cases hexec₂
  have ha₂ : ({ st.1 with mem := st.1.mem.copy ret buffer a.objectSize } : SlabHeap).alloc i
      = some a := ha
  obtain ⟨s', hrun, hf, hs'⟩ := hgood₂.slabFree ha₂ hbuffer
  have hlegal₃ : (HeapOp.free i buffer).Legal
      ({ st.1 with mem := st.1.mem.copy ret buffer a.objectSize }, st.2) := ⟨a, ha₂, hbuffer⟩
  have hinit₂ : st.1.kmallocIsInitialized = true := hgood.initialized.trans hinit
  refine ⟨_, ?_, _, hreach₂.step hlegal₃ (HeapOp.free_exec hrun), ?_, ?_, ?_⟩
  · unfold SlabHeap.moveTo kfree
    rw [if_pos hinit₂]
    rw [show SlabHeap.slabFree _ buffer = _ from hrun]
    rfl
  · rw [put_alloc_other hf.layout.self (Ne.symm hne)]
    exact hb
  · rw [update_of_ne (Ne.symm hne)]
    exact hret
  · intro k hk
    change s'.mem (ret + k) = _
    rw [hgood₂.live_kept ha₂ hf hb hne hret (lt_of_lt_of_le hk hsize)]
    exact Memory.copy_at hk

/-- **`krealloc`** of a live buffer, when `slab_object_size` is right. -/
theorem Good.krealloc (hreach : Reachable start st) (hsizes : Sizes sizes)
    (hstart : Started sizes start) (ha : st.1.alloc i = some a) (hbuffer : buffer ∈ st.2 i)
    (hobject : st.1.slabObjectSize (some buffer) = .ok a.objectSize) {size : Nat}
    (hsize : size ≤ KMALLOC_MAX)
    (hfresh : ∀ j b, st.1.alloc j = some b → st.1.FreshAnswer j b answer) :
    ∃ r h', st.1.krealloc (some buffer) size answer = .ok (r, h') ∧
      (r = none → Refused st.1 a.objectSize size answer) ∧
      ∀ ret, r = some ret → Reallocated start st.1 h' buffer a.objectSize size ret := by
  have hinit : st.1.kmallocIsInitialized = true := hgood.initialized.trans hstart.initialized
  unfold SlabHeap.krealloc
  rw [if_pos hinit]
  dsimp only
  by_cases hzero : size = 0
  · -- the buffer is freed
    obtain ⟨s', hrun, -⟩ := hgood.slabFree ha hbuffer
    rw [if_pos hzero, kfree, if_pos hinit, hrun]
    exact ⟨none, _, rfl, fun _ => .inl hzero, fun ret hret => by cases hret⟩
  · rw [if_neg hzero, hobject, ok_bind]
    by_cases hfits : size ≤ a.objectSize
    · rw [if_pos hfits]
      refine ⟨some buffer, st.1, rfl, (fun hnone => by cases hnone), ?_⟩
      intro ret hret
      cases hret
      exact ⟨st.2, i, a, hreach, ha, hbuffer, hfits, fun _ _ => rfl⟩
    · rw [if_neg hfits]
      obtain ⟨j, b, hfind, hb, hlarge⟩ := hgood.findSlab hsizes hstart hsize
      have hne : i ≠ j := by
        rintro rfl
        obtain rfl := some.inj (ha.symm.trans hb)
        exact hfits hlarge
      obtain ⟨r, s', hrun, hf, hs', hno⟩ := hgood.slabAlloc hb (hfresh j b hb)
      have hgood₁ := hgood.call hb hf hs'
      have hlegal : (HeapOp.alloc j answer).Legal st := ⟨b, hb, hfresh j b hb⟩
      have hkmalloc : st.1.kmalloc size answer = .ok (r, st.1.put s') := by
        rw [kmalloc, if_pos hinit, if_neg hzero, if_neg (not_lt.mpr hsize), hfind]
        exact hrun
      rw [hkmalloc]
      cases r with
      | none =>
        exact ⟨none, _, rfl, fun hr => .inr ⟨by omega, j, b, hb, hlarge, hno hr⟩,
          fun ret hret => by cases hret⟩
      | some ret =>
        have hself : s'.self = j := hf.layout.self
        have hb' := put_alloc_self (h := st.1) hself
        have hsame : s'.alloc.objectSize = b.objectSize := hf.layout.objectSize
        obtain ⟨h', hmove, live, hreach', hb'', hret, hbytes⟩ := hgood₁.moveTo
          (hreach.step hlegal (HeapOp.alloc_exec hrun)) hstart.initialized
            ((put_alloc_other hself hne).trans ha) hb' hne
          (by
            change buffer ∈ update st.2 j _ i
            rw [update_of_ne hne]
            exact hbuffer)
          (by
            change ret ∈ update st.2 j (ret :: st.2 j) j
            rw [update_self]
            exact mem_cons_self)
          (by omega)
        refine ⟨some ret, h', hmove, (fun hnone => by cases hnone), ?_⟩
        intro ret' hret'
        cases hret'
        refine ⟨live, j, s'.alloc, hreach', hb'', hret, by omega, ?_⟩
        intro k hk
        rw [hbytes k hk]
        exact hgood.live_kept hb hf ha (Ne.symm hne) hbuffer hk

end

/-! ## An object in the last page -/

/-- A run after which one slab, at page 0, has so many live objects and a last page without owner. -/
def Fills (start : SlabHeap) (i last n : Nat) : Prop :=
  ∃ st a chain, Reachable start st ∧ st.1.alloc i = some a ∧
    Inv (st.1.view i a) [0] chain (st.2 i) ∧ (st.2 i).length = n ∧
    (st.1.pages last).allocator = none

section Fill

variable {sizes : Nat → Option Nat} {a₀ : SlabAllocator} {last : Nat}

theorem fills_put {chain : Nat → List Nat} (hself : s'.self = i) (hbase : s'.base = h.base)
    (hinv : Inv s' [0] chain live) (hnone : (s'.pages last).allocator = none)
    {others : Nat → List Nat} (hreach : Reachable start (h.put s', update others i live)) :
    Fills start i last live.length := by
  refine ⟨_, s'.alloc, chain, hreach, put_alloc_self hself, ?_, ?_, hnone⟩
  · dsimp only
    rw [put_view_self hself hbase, update_self]
    exact hinv
  · dsimp only
    rw [update_self]

section

variable (hgood : Good start (start, fun _ => [])) (ha₀ : start.alloc i = some a₀)
include hgood ha₀

theorem fills_one (horder : a₀.slabOrder < MAX_ORDER) (hpos : 0 < last)
    (hlast : last + 1 = 2 ^ a₀.slabOrder) (hbase : start.base = 0)
    (hpages : start.pages = fun _ => ⟨.used, none, 0, 0, none⟩) :
    Fills start i last 1 := by
  obtain ⟨⟨hlaid, slabs, chain, hinv⟩, -⟩ := hgood.each i a₀ ha₀
  have hnil : slabs = [] := by
    refine eq_nil_iff_forall_not_mem.mpr ?_
    intro p hp
    have hstate : (start.pages p).state = .slabHead := ((hinv.blocks.heads p).mp hp).1
    rw [hpages] at hstate
    cases hstate
  subst hnil
  have hfresh : start.FreshAnswer i a₀ fun _ => some 0 := by
    intro head hhead
    cases hhead
    refine ⟨?_, ?_⟩
    · intro p _
      change (start.pages p).state ≠ _ ∧ (start.pages p).state ≠ _
      simp [hpages]
    · change start.base + PAGE_SIZE * (0 + 2 ^ a₀.slabOrder) ≤ U64
      have hblock := (hlaid horder).block
      rw [hbase, zero_add, zero_add]
      exact le_trans hblock (by decide)
  have hlegal : (HeapOp.alloc i fun _ => some 0).Legal (start, fun _ => []) := ⟨a₀, ha₀, hfresh⟩
  obtain ⟨r, s', hrun, hres⟩ := slabAlloc_spec hinv hlaid hfresh
  have hlayout := hres.layout
  have hexec : (HeapOp.alloc i fun _ => some 0).exec (start, fun _ => [])
      = .ok (start.put s', update (fun _ => []) i (r.toList ++ [])) :=
    HeapOp.alloc_exec (slabAlloc_run ha₀ hrun)
  have hself : s'.self = i := hlayout.self
  cases hres with
  | none _ hno =>
    rcases hno with hno | hno
    · cases hno
    · exact absurd horder (not_lt.mpr hno)
  | old hg _ _ => cases hg
  | new _ he hnew htaken h' =>
    cases he
    refine fills_put hself hlayout.base h' ?_ (Reachable.start.step hlegal hexec)
    -- nobody has written the owner of the last page
    have hnot : ¬ last + 1 < 0 + 2 ^ (start.view i a₀).alloc.slabOrder := by
      change ¬ last + 1 < 0 + 2 ^ a₀.slabOrder
      omega
    have hin : last < 0 + 2 ^ (start.view i a₀).alloc.slabOrder := by
      change last < 0 + 2 ^ a₀.slabOrder
      omega
    rw [htaken.allocator, hnew.named last hpos hin, if_neg hnot]
    change (start.pages last).allocator = none
    rw [hpages]

theorem Fills.more (hfills : Fills start i last n) (hn : n < a₀.objectCountPerSlab) :
    Fills start i last (n + 1) := by
  obtain ⟨st, a, chain, hreach, ha, hinv, rfl, hnone⟩ := hfills
  have hgood' := hreach.good hgood
  obtain ⟨a', ha', -, hcount, -⟩ := hgood'.layout_eq ha₀
  obtain rfl := some.inj (ha.symm.trans ha')
  obtain ⟨⟨hlaid, -⟩, -⟩ := hgood'.each i a ha
  have hfresh : st.1.FreshAnswer i a fun _ => none := fun _ he => by cases he
  have hlegal : (HeapOp.alloc i fun _ => none).Legal st := ⟨a, ha, hfresh⟩
  obtain ⟨r, s', hrun, hres⟩ := slabAlloc_spec hinv hlaid hfresh
  have hlayout := hres.layout
  have hself : s'.self = i := hlayout.self
  have hexec : (HeapOp.alloc i fun _ => none).exec st
      = .ok (st.1.put s', update st.2 i (r.toList ++ st.2 i)) :=
    HeapOp.alloc_exec (slabAlloc_run ha hrun)
  cases hres with
  | none hfull _ =>
    -- the slab is not full
    have hall := hinv.free_add_live
    have hzero := hfull 0 (mem_singleton.mpr rfl)
    rw [map_singleton, sum_singleton, hzero, length_singleton] at hall
    change 0 + (st.2 i).length = 1 * a.objectCountPerSlab at hall
    omega
  | old _ htaken h' =>
    refine fills_put hself hlayout.base h' ?_ (hreach.step hlegal hexec)
    rw [htaken.allocator]
    exact hnone
  | new _ he _ _ _ => cases he

/-- **The last object of a slab** has no size, if it starts in a last page that names nobody. -/
theorem last_object_null (horder : a₀.slabOrder < MAX_ORDER) (hbusy : ¬ a₀.LastPageClear)
    (hbase : start.base = 0) (hpages : start.pages = fun _ => ⟨.used, none, 0, 0, none⟩) :
    ∃ st, Reachable start st ∧ ∃ buffer ∈ st.2 i,
      st.1.slabObjectSize (some buffer) = .error .nullDeref := by
  unfold SlabAllocator.LastPageClear at hbusy
  rw [not_or, not_lt] at hbusy
  have hl := (hgood.each i a₀ ha₀).1.1 horder
  have hcount4 : 4 ≤ a₀.objectCountPerSlab := hl.count
  obtain ⟨last, hlast, hpos⟩ : ∃ last, last + 1 = 2 ^ a₀.slabOrder ∧ 0 < last := by
    have htwo : 2 ^ 1 ≤ 2 ^ a₀.slabOrder := Nat.pow_le_pow_right (by decide) (by omega)
    exact ⟨2 ^ a₀.slabOrder - 1, by omega, by omega⟩
  have hfull : ∀ n, 1 ≤ n → n ≤ a₀.objectCountPerSlab → Fills start i last n := by
    intro n hn
    induction n, hn using le_induction with
    | base => exact fun _ => fills_one hgood ha₀ horder hpos hlast hbase hpages
    | succ n _ ih => exact fun hle => (ih (by omega)).more hgood ha₀ (by omega)
  obtain ⟨st, a, chain, hreach, ha, hinv, hlen, hnone⟩ := hfull _ (by omega) le_rfl
  obtain ⟨a', ha', hsize, hcount, hslab⟩ := (hreach.good hgood).layout_eq ha₀
  obtain rfl := some.inj (ha.symm.trans ha')
  -- all objects are live, the last one too
  have hzero : 0 ∈ [0] := mem_singleton.mpr rfl
  have hchain : chain 0 = [] := by
    have hall := hinv.free_add_live
    rw [map_singleton, sum_singleton, length_singleton, hlen] at hall
    change _ + _ = 1 * a.objectCountPerSlab at hall
    have hnil := (hinv.chained 0 hzero).length
    exact length_eq_zero_iff.mp (by omega)
  have hk : a.objectCountPerSlab - 1 < (st.1.view i a).alloc.objectCountPerSlab := by
    change _ < a.objectCountPerSlab
    omega
  have hlive : (st.1.view i a).objAddr 0 (a.objectCountPerSlab - 1) ∈ st.2 i := by
    refine (hinv.mem_live _).mpr ⟨0, hzero, _, hk, ?_, rfl⟩
    rw [hchain]
    exact not_mem_nil
  refine ⟨st, hreach, _, hlive, ?_⟩
  -- it starts in the last page
  obtain ⟨hpage, hlt⟩ := virtToPage_objAddr hinv.blocks hzero hk
  have hlt' : (a.objectCountPerSlab - 1) * a.objectSize / PAGE_SIZE < last + 1 := by
    rw [hlast, ← hslab]
    exact hlt
  have hge : last ≤ (a.objectCountPerSlab - 1) * a.objectSize / PAGE_SIZE := by
    rw [le_div_iff_mul_le (by decide), hcount, hsize, mul_comm]
    rw [← hlast, Nat.add_sub_cancel] at hbusy
    exact hbusy.2
  have hpage' : st.1.virtToPage ((st.1.view i a).objAddr 0 (a.objectCountPerSlab - 1)) = last := by
    refine Eq.trans (b := 0 + (a.objectCountPerSlab - 1) * a.objectSize / PAGE_SIZE) hpage ?_
    omega
  have htail : (st.1.pages last).state = .slabTail := by
    refine (hinv.blocks.tails 0 hzero last hpos ?_).1
    change last < 0 + 2 ^ a.slabOrder
    rw [hslab, ← hlast]
    omega
  unfold slabObjectSize
  dsimp only
  rw [hpage', if_pos (.inr htail)]
  simp only [hnone]

end

end Fill

/-! ## When the size is right -/

/-- What the callers of `slab_object_size` and `krealloc` are promised for a live object. -/
structure Right (start : SlabHeap) (st : SlabHeap × (Nat → List Nat)) (i objectSize buffer : Nat) :
    Prop where
  size : st.1.slabObjectSize (some buffer) = .ok objectSize
  /-- A buffer from `kmalloc` can be given any size, as far as there is memory. -/
  realloc : i < 16 → ∀ size ≤ KMALLOC_MAX, ∀ answer : Nat → Option Nat,
    (∀ j b, st.1.alloc j = some b → st.1.FreshAnswer j b answer) →
    ∃ r h', st.1.krealloc (some buffer) size answer = .ok (r, h') ∧
      (r = none → Refused st.1 objectSize size answer) ∧
      ∀ ret, r = some ret → Reallocated start st.1 h' buffer objectSize size ret

theorem exists_started (hsizes : Sizes sizes) {arg : Nat} (hi : sizes i = some arg)
    (hinit : slabAllocatorInit a₀ arg = .ok (some a)) :
    ∃ start, Started sizes start ∧ start.alloc i = some a ∧ start.base = 0 ∧
      start.pages = fun _ => ⟨.used, none, 0, 0, none⟩ := by
  have hexists : ∀ k, ∃ x : Option SlabAllocator, (sizes k = none → x = none) ∧
      ∀ arg, sizes k = some arg → ∃ a₀ a, slabAllocatorInit a₀ arg = .ok (some a) ∧ x = some a := by
    intro k
    cases harg : sizes k with
    | none => exact ⟨none, fun _ => rfl, fun _ he => by cases he⟩
    | some arg =>
      obtain ⟨hpos, hlt⟩ := hsizes.range k arg harg
      obtain ⟨b, hb, -⟩ := slabAllocatorInit_laid a hpos hlt
      refine ⟨some b, (fun he => by cases he), ?_⟩
      intro arg' harg'
      cases harg'
      exact ⟨a, b, hb, rfl⟩
  choose alloc hnone hsome using hexists
  refine ⟨⟨update alloc i (some a), fun _ p => ⟨some p, some p⟩,
    fun _ => ⟨.used, none, 0, 0, none⟩, fun _ => 0, 0, true⟩, ⟨?_, ?_, ?_, ?_, rfl⟩,
    update_self .., rfl, rfl⟩
  · intro k arg' harg'
    dsimp only
    by_cases hk : k = i
    · subst hk
      rw [hi] at harg'
      cases harg'
      exact ⟨a₀, a, hinit, update_self ..⟩
    · rw [update_of_ne hk]
      exact hsome k arg' harg'
  · intro k harg'
    have hk : k ≠ i := by
      rintro rfl
      rw [hi] at harg'
      cases harg'
    dsimp only
    rw [update_of_ne hk]
    exact hnone k harg'
  · intro k b _
    exact ⟨⟨rfl, rfl⟩, by simp⟩
  · simp

/-- The size classes of `kmalloc` for which they do not. -/
example : kmallocSizes.filter (fun size =>
    match slabAllocatorInit ⟨0, 0, 0, 0, 0⟩ size with
    | .ok (some a) => ¬ a.LastPageClear
    | _ => false) = [1536, 2048, 4096] := by
  decide +kernel

/-- The memory before `kmalloc_init`. -/
def bootHeap : SlabHeap where
  alloc := fun i => if i < 16 then some ⟨0, 0, 0, 0, 0⟩ else none
  list := fun _ p => ⟨some p, some p⟩
  pages := fun _ => ⟨.used, none, 0, 0, none⟩
  mem := fun _ => 0
  base := 4096
  kmallocIsInitialized := false

theorem kmalloc_sizes : Sizes fun i => kmallocSizes[i]? := by
  refine ⟨?_, fun _ _ => rfl⟩
  intro i arg harg
  have hall : ∀ arg ∈ kmallocSizes, 1 ≤ arg ∧ arg < 2 ^ 32 := by decide
  exact hall arg (mem_of_getElem? harg)

/-- After `kmalloc_init`, with one object of 16 bytes handed out. -/
theorem exists_live : ∃ start st, bootHeap.kmallocInit = .ok start ∧
    Started (fun i => kmallocSizes[i]?) start ∧ start.alloc 0 = some ⟨16, 256, 0, 0, 0⟩ ∧
    (HeapOp.alloc 0 fun _ => some 0).exec (start, fun _ => []) = .ok st ∧ Reachable start st ∧
    st.2 0 = [4096] := by
  obtain ⟨start, hrun, hstart⟩ := kmallocInit_started (h := bootHeap) kmalloc_sizes
    (by decide) (fun i arg hi harg => by
      rw [getElem?_eq_none_iff.mpr hi] at harg
      cases harg)
    (fun i hi _ => if_neg (not_lt.mpr hi)) (fun p => by simp [bootHeap])
  have hbase : bootHeap.kmallocInit.map (fun h => (h.pages, h.base, h.alloc 0))
      = .ok (bootHeap.pages, 4096, some ⟨16, 256, 0, 0, 0⟩) := rfl
  obtain ⟨start', hrun', heq⟩ := map_eq_ok.mp hbase
  obtain rfl := Except.ok.inj (hrun.symm.trans hrun')
  simp only [Prod.mk.injEq] at heq
  obtain ⟨hpages, hbase, ha⟩ := heq
  have hlegal : (HeapOp.alloc 0 fun _ => some 0).Legal (start, fun _ => []) := by
    refine ⟨_, ha, ?_⟩
    intro head hhead
    cases hhead
    refine ⟨?_, ?_⟩
    · intro p _
      change (start.pages p).state ≠ _ ∧ (start.pages p).state ≠ _
      rw [hpages]
      simp [bootHeap]
    · change start.base + PAGE_SIZE * (0 + 2 ^ 0) ≤ U64
      rw [hbase]
      decide
  have hexec : (bootHeap.kmallocInit >>= fun h =>
      (HeapOp.alloc 0 fun _ => some 0).exec (h, fun _ => [])).map (fun st => st.2 0)
        = .ok [4096] := by decide +kernel
  rw [hrun, ok_bind] at hexec
  obtain ⟨st, hexec, hlive⟩ := map_eq_ok.mp hexec
  exact ⟨start, st, hrun, hstart, ha, hexec, Reachable.start.step hlegal hexec, hlive⟩

theorem Good.page_of_live (hgood : Good start st) (ha : st.1.alloc i = some a) {x z : Nat}
    (hx : x ∈ st.2 i) (hz : x ≤ z ∧ z < x + a.objectSize) :
    ∃ g p, (st.1.view i a).Owns g ∧ (st.1.view i a).InBlock g p ∧
      (st.1.view i a).pageToVirt p ≤ z ∧ z < (st.1.view i a).pageToVirt p + PAGE_SIZE := by
  obtain ⟨g, hg, hle, hend⟩ := hgood.live_inside ha hx
  obtain ⟨p, hp, hpz⟩ := page_of_block (hle.trans hz.1) (hz.2.trans_le hend)
  exact ⟨g, p, hg, hp, hpz⟩

theorem Good.live_apart (hgood : Good start st) {x y z : Nat} (ha : st.1.alloc i = some a)
    (hb : st.1.alloc j = some b) (hx : x ∈ st.2 i) (hy : y ∈ st.2 j)
    (hz : x ≤ z ∧ z < x + a.objectSize) (hz' : y ≤ z ∧ z < y + b.objectSize) : i = j ∧ x = y := by
  by_cases hij : i = j
  · subst hij
    obtain rfl := some.inj (ha.symm.trans hb)
    obtain ⟨⟨-, slabs, chain, hinv⟩, -⟩ := hgood.each i a ha
    refine ⟨rfl, by_contra fun hne => ?_⟩
    have := @Pairwise.forall _ _ _ ⟨fun _ _ => Or.symm⟩ hinv.liveApart.pairwise x hx y hy hne
    simp only [view] at this
    omega
  · -- a byte of both would be in slabs of two allocators
    obtain ⟨g, p, hg, hp, hpz⟩ := hgood.page_of_live ha hx hz
    obtain ⟨g', p', hg', hp', hpz'⟩ := hgood.page_of_live hb hy hz'
    obtain rfl : p = p' := page_unique hpz hpz'
    obtain ⟨slabs, hblocks⟩ := hgood.blocks ha
    obtain ⟨slabs', hblocks'⟩ := hgood.blocks hb
    exact absurd (.inl ⟨g, hg, hp⟩) ((st.1.beside hij a b).not_usable hblocks hblocks' hg' hp')

theorem Good.objectSize_pos (hgood : Good start st) (ha : st.1.alloc i = some a)
    (hlive : buffer ∈ st.2 i) : 0 < a.objectSize := by
  obtain ⟨⟨-, slabs, chain, hinv⟩, -⟩ := hgood.each i a ha
  obtain ⟨g, hg, -⟩ := (hinv.mem_live buffer).mp hlive
  have hsize : 16 ≤ a.objectSize := (hinv.blocks.laid (ne_nil_of_mem hg)).size
  omega

/-- A buffer that is live in a run is in the live list of one allocator, and there once. -/
theorem Good.live_once (hgood : Good start st) (ha : st.1.alloc i = some a) :
    (st.2 i).Nodup ∧ ∀ j b, st.1.alloc j = some b → j ≠ i → ∀ x ∈ st.2 i, x ∉ st.2 j := by
  obtain ⟨⟨-, slabs, chain, hinv⟩, -⟩ := hgood.each i a ha
  refine ⟨hinv.live_nodup, ?_⟩
  intro j b hb hne x hx hxj
  have hpos := hgood.objectSize_pos ha hx
  have hpos' := hgood.objectSize_pos hb hxj
  exact hne (hgood.live_apart (z := x) ha hb hx hxj (by omega) (by omega)).1.symm

end SlabHeap

end OsKernel.Mm
