import OsKernel.Mm.SlabOps

/-!
# Slab allocators over whole runs

A run mixes allocations, frees of live objects, and steps of the rest of the kernel. The
rest of the kernel may write to live objects and to everything outside the slabs, and it
may use the pages that are in no slab of this allocator as it likes, also for slabs of
another one.

The invariant holds in every state of every run, and every call returns. One number is
not what it seems: the allocator counts its free objects in 32 bits, and more than that
many of them fit in memory.
-/

namespace OsKernel.Mm.Slabs

open LinkedRing List Finset

variable {s s' : Slabs} {slabs live : List Nat} {chain : Nat → List Nat} {k n : Nat}
  {st : Slabs × List Nat}

/-! ## Steps -/

/-- One step, next to the objects that are live. -/
inductive SlabOp where
  /-- `slab_alloc`, with what `alloc_pages` answers if it is asked. -/
  | alloc (answer : Option Nat)
  /-- `slab_free`. -/
  | free (mem : Nat)
  /-- The rest of the kernel: new contents of pages and memory. -/
  | other (pages : Nat → SlabPage) (mem : Memory)

def SlabOp.exec (st : Slabs × List Nat) : SlabOp → Result (Slabs × List Nat)
  | .alloc answer => do
    let (result, s) ← st.1.slabAlloc answer
    pure (s, result.toList ++ st.2)
  | .free mem => do
    let s ← st.1.slabFree mem
    pure (s, st.2.erase mem)
  | .other pages mem => .ok ({ st.1 with pages := pages, mem := mem }, st.2)

/-- What the rest of the kernel leaves alone. -/
structure Respects (s : Slabs) (live : List Nat) (pages : Nat → SlabPage) (mem : Memory) : Prop where
  kept : ∀ g, s.Owns g → ∀ p, s.InBlock g p → pages p = s.pages p
  /-- Nobody else makes slabs for this allocator. -/
  noNew : ∀ p, (pages p).state = .slabHead → (pages p).allocator = some s.self → s.Owns p
  /-- Inside the slabs, only live objects are written. -/
  written : ∀ x, mem x ≠ s.mem x →
    (∃ a ∈ live, a ≤ x ∧ x < a + s.alloc.objectSize) ∨
    ∀ g, s.Owns g →
      x < s.pageToVirt g ∨ s.pageToVirt g + PAGE_SIZE * 2 ^ s.alloc.slabOrder ≤ x

/-- Pages are fresh when handed out, and only live objects are freed. -/
def SlabOp.Legal (st : Slabs × List Nat) : SlabOp → Prop
  | .alloc answer => ∀ head, answer = some head → Fresh st.1 head
  | .free mem => mem ∈ st.2
  | .other pages mem => Respects st.1 st.2 pages mem

/-- The states of all runs. -/
inductive Reachable (start : Slabs) : Slabs × List Nat → Prop where
  | start : Reachable start (start, [])
  | step {st st' : Slabs × List Nat} {op : SlabOp} : Reachable start st → op.Legal st →
      op.exec st = .ok st' → Reachable start st'

/-- An allocator right after `slab_allocator_init`. -/
structure Started (a₀ : SlabAllocator) (arg : Nat) (s : Slabs) : Prop where
  init : slabAllocatorInit a₀ arg = .ok (some s.alloc)
  empty : IsRing s.list .head []
  unused : ∀ p, ¬ s.Owns p

/-! ## The invariant over runs -/

theorem Inv.respects (h : Inv s slabs chain live) {pages : Nat → SlabPage} {mem : Memory}
    (hres : Respects s live pages mem) :
    Inv { s with pages := pages, mem := mem } slabs chain live := by
  have hpos := Nat.two_pow_pos s.alloc.slabOrder
  have hkept : ∀ {g}, g ∈ slabs → ∀ p, s.InBlock g p → pages p = s.pages p := by
    intro g hg
    exact hres.kept g ((h.blocks.heads g).mp hg)
  have hself : ∀ {g}, g ∈ slabs → pages g = s.pages g := by
    intro g hg
    exact hkept hg g ⟨le_rfl, Nat.lt_add_of_pos_right hpos⟩
  have hsame : SameLayout s { s with pages := pages, mem := mem } := ⟨rfl, rfl, rfl, rfl, rfl⟩
  refine ⟨⟨h.blocks.nodup, ?_, ?_, h.blocks.placed, h.blocks.laid⟩, ?_, ?_, ?_, h.live_nodup,
    h.mem_live⟩
  · intro p
    constructor
    · intro hp
      change (pages p).state = _ ∧ (pages p).allocator = _
      rw [hself hp]
      exact (h.blocks.heads p).mp hp
    · intro hp
      exact (h.blocks.heads p).mpr (hres.noNew p hp.1 hp.2)
  · intro g hg p hp hp'
    change (pages p).state = _ ∧ (pages p).tailHead = _
    rw [hkept hg p ⟨le_of_lt hp, hp'⟩]
    exact h.blocks.tails g hg p hp hp'
  · intro g hg
    have hc := h.chained g hg
    have hl := h.blocks.laid (ne_nil_of_mem hg)
    have hsize := hl.size
    refine hc.congr hsame (congrArg _ (hself hg)) (congrArg _ (hself hg)) ?_
    intro i hi x hx hx'
    by_contra hne
    have hinside := obj_inside (h := g) hl (hc.lt i hi)
    rcases hres.written x hne with ⟨a, ha, hax, hax'⟩ | hout
    · -- the object that is written is not this one
      obtain ⟨p, hp, j, hj, hoff, rfl⟩ := (h.mem_live a).mp ha
      have hdiff : g ≠ p ∨ i ≠ j := by
        by_cases hgp : g = p
        · subst hgp
          exact .inr fun he => hoff (he ▸ hi)
        · exact .inl hgp
      rcases h.blocks.obj_apart hg hp (hc.lt i hi) hj hdiff with hle | hle
      · omega
      · omega
    · have := hout g ((h.blocks.heads g).mp hg)
      omega
  · have hsum : slabs.map (fun g => (pages g).freeObjCount)
        = slabs.map fun g => (s.pages g).freeObjCount := by
      refine map_congr_left ?_
      intro g hg
      rw [hself hg]
    rw [hsum]
    exact h.total
  · obtain ⟨L, hring, hL⟩ := h.listed
    refine ⟨L, hring, ?_⟩
    intro p
    rw [hL p]
    refine and_congr_right ?_
    intro hp
    change _ ↔ (pages p).freeObjCount ≠ 0
    rw [hself hp]

/-- Between the operations: the invariant, and a layout that fits if there can be slabs. -/
def Good (st : Slabs × List Nat) : Prop :=
  (st.1.alloc.slabOrder < MAX_ORDER → st.1.alloc.Laid) ∧
    ∃ slabs chain, Inv st.1 slabs chain st.2

/-- **One step** returns and keeps the invariant. -/
theorem SlabOp.exec_good (h : Good st) (op : SlabOp) (hlegal : op.Legal st) :
    ∃ st', op.exec st = .ok st' ∧ Good st' := by
  obtain ⟨hlaid, slabs, chain, hinv⟩ := h
  have hkeep : ∀ {s'}, SameLayout st.1 s' → s'.alloc.slabOrder < MAX_ORDER → s'.alloc.Laid := by
    intro s' hsame horder
    exact hsame.laid (hlaid (by rw [← hsame.slabOrder]; exact horder))
  cases op with
  | alloc answer =>
    obtain ⟨r, s', hrun, hres⟩ := slabAlloc_spec hinv hlaid hlegal
    refine ⟨(s', r.toList ++ st.2), ?_, ?_⟩
    · rw [exec, hrun]
      rfl
    · refine ⟨hkeep hres.layout, ?_⟩
      cases hres with
      | none _ _ => exact ⟨slabs, chain, hinv⟩
      | old _ _ h' => exact ⟨_, _, h'⟩
      | new _ _ _ _ h' => exact ⟨_, _, h'⟩
  | free mem =>
    obtain ⟨s', slabs', chain', hrun, hfreed, h'⟩ := slabFree_spec hinv hlegal
    refine ⟨(s', st.2.erase mem), ?_, hkeep hfreed.layout, slabs', chain', h'⟩
    rw [exec, hrun]
    rfl
  | other pages mem => exact ⟨_, rfl, hlaid, slabs, chain, hinv.respects hlegal⟩

theorem Started.good {a₀ : SlabAllocator} {arg : Nat} (hpos : 1 ≤ arg) (harg : arg < 2 ^ 32)
    (h : Started a₀ arg s) : Good (s, []) := by
  obtain ⟨a, hinit, hzero, hlaid⟩ := slabAllocatorInit_laid a₀ hpos harg
  have ha : s.alloc = a := by
    have := h.init.symm.trans hinit
    injection this with this
    injection this
  subst ha
  refine ⟨hlaid, [], fun _ => [], ⟨nodup_nil, ?_, ?_, ?_, fun hne => absurd rfl hne⟩, ?_, hzero,
    ⟨[], h.empty, ?_⟩, nodup_nil, ?_⟩
  · intro p
    simp only [not_mem_nil, false_iff]
    exact h.unused p
  · simp
  · simp
  · simp
  · simp
  · simp

theorem Reachable.good (hstart : Good (s, [])) (h : Reachable s st) :
    Good st := by
  induction h with
  | start => exact hstart
  | step _ hlegal hexec ih =>
    obtain ⟨st', hexec', hgood⟩ := SlabOp.exec_good ih _ hlegal
    rw [hexec] at hexec'
    injection hexec' with hexec'
    rw [hexec']
    exact hgood

/-- The ranges of live objects. -/
structure LiveApart (s : Slabs) (slabs : List Nat) (chain : Nat → List Nat) (live : List Nat) :
    Prop where
  pairwise : live.Pairwise fun a b =>
    a + s.alloc.objectSize ≤ b ∨ b + s.alloc.objectSize ≤ a
  inside : ∀ a ∈ live, ∃ g ∈ slabs, s.pageToVirt g ≤ a ∧
    a + s.alloc.objectSize ≤ s.pageToVirt g + PAGE_SIZE * 2 ^ s.alloc.slabOrder
  /-- Live objects have no byte in common with free ones. -/
  offChain : ∀ a ∈ live, ∀ g ∈ slabs, ∀ i ∈ chain g,
    a + s.alloc.objectSize ≤ s.objAddr g i ∨ s.objAddr g i + s.alloc.objectSize ≤ a

theorem Inv.liveApart (h : Inv s slabs chain live) : LiveApart s slabs chain live := by
  refine ⟨?_, ?_, ?_⟩
  · refine h.live_nodup.pairwise_of_forall_ne ?_
    intro a ha b hb hne
    obtain ⟨g, hg, i, hi, -, rfl⟩ := (h.mem_live a).mp ha
    obtain ⟨p, hp, j, hj, -, rfl⟩ := (h.mem_live b).mp hb
    refine h.blocks.obj_apart hg hp hi hj ?_
    by_cases hgp : g = p
    · subst hgp
      exact .inr fun he => hne (by rw [he])
    · exact .inl hgp
  · intro a ha
    obtain ⟨g, hg, i, hi, -, rfl⟩ := (h.mem_live a).mp ha
    exact ⟨g, hg, obj_inside (h.blocks.laid (ne_nil_of_mem hg)) hi⟩
  · intro a ha p hp j hj
    obtain ⟨g, hg, i, hi, hoff, rfl⟩ := (h.mem_live a).mp ha
    refine h.blocks.obj_apart hg hp hi ((h.chained p hp).lt j hj) ?_
    by_cases hgp : g = p
    · subst hgp
      exact .inr fun he => hoff (he ▸ hj)
    · exact .inl hgp

/--
**Slabs over every run.** In every state that an allocator for objects of at least one byte can
get to, the chains, the counters, the list and the live objects fit together, the sum being taken
in 32 bits; and every further call returns.
-/
theorem slab_invariant {a₀ : SlabAllocator} {arg : Nat} (hpos : 1 ≤ arg) (harg : arg < 2 ^ 32)
    {start : Slabs} (hstart : Started a₀ arg start) {st : Slabs × List Nat}
    (hreach : Reachable start st) :
    (∃ slabs chain, Inv st.1 slabs chain st.2 ∧ LiveApart st.1 slabs chain st.2) ∧
    ∀ op : SlabOp, op.Legal st → ∃ st', op.exec st = .ok st' := by
  have hgood := hreach.good (hstart.good hpos harg)
  refine ⟨?_, ?_⟩
  · obtain ⟨-, slabs, chain, hinv⟩ := hgood
    exact ⟨slabs, chain, hinv, hinv.liveApart⟩
  · intro op hlegal
    obtain ⟨st', hexec, -⟩ := SlabOp.exec_good hgood op hlegal
    exact ⟨st', hexec⟩

/-- Objects of 16 bytes, in memory that starts at 0. -/
def sixteen : Slabs where
  self := 0
  alloc := ⟨16, 256, 0, 0, 0⟩
  pages := fun _ => ⟨.used, none, 0, 0, none⟩
  list := fun p => ⟨some p, some p⟩
  mem := fun _ => 0
  base := 0

theorem sixteen_started : Started ⟨0, 0, 0, 0, 0⟩ 16 sixteen := by
  refine ⟨rfl, ⟨⟨rfl, rfl⟩, by simp⟩, ?_⟩
  intro p hp
  cases hp.1

/-- The first object of a new slab, at the address of the slab. -/
theorem slab_invariant_sixteen : ∃ s', Reachable sixteen (s', [4096]) ∧
    ∃ slabs chain, Inv s' slabs chain [4096] ∧ LiveApart s' slabs chain [4096] := by
  have hlegal : (SlabOp.alloc (some 1)).Legal (sixteen, []) := by
    intro head hhead
    cases hhead
    refine ⟨?_, by decide⟩
    intro p _
    exact ⟨by simp [sixteen], by simp [sixteen]⟩
  have hrun : ((SlabOp.alloc (some 1)).exec (sixteen, [])).map Prod.snd = .ok [4096] := by
    decide +kernel
  obtain ⟨⟨s', live⟩, hexec, hlive⟩ := map_eq_ok.mp hrun
  subst hlive
  have hreach : Reachable sixteen (s', [4096]) := Reachable.start.step hlegal hexec
  exact ⟨s', hreach, (slab_invariant (by decide) (by decide) sixteen_started hreach).1⟩

/-! ## The counter wraps -/

theorem Inv.free_add_live (h : Inv s slabs chain live) :
    (slabs.map fun g => (s.pages g).freeObjCount).sum + live.length
      = slabs.length * s.alloc.objectCountPerSlab := by
  have hcard : live.length
      = (slabs.map fun g => s.alloc.objectCountPerSlab - (s.pages g).freeObjCount).sum := by
    have hlive : live.toFinset = (slabs.toFinset.sigma fun g =>
            range s.alloc.objectCountPerSlab \ (chain g).toFinset).image
          fun x => s.objAddr x.1 x.2 := by
      ext a
      simp only [List.mem_toFinset, h.mem_live, Finset.mem_image, Finset.mem_sigma,
        Finset.mem_sdiff, Finset.mem_range, Sigma.exists]
      constructor
      · intro ha
        obtain ⟨g, hg, i, hi, hoff, rfl⟩ := ha
        exact ⟨g, i, ⟨hg, hi, hoff⟩, rfl⟩
      · intro ha
        obtain ⟨g, i, ⟨hg, hi, hoff⟩, rfl⟩ := ha
        exact ⟨g, hg, i, hi, hoff, rfl⟩
    rw [← toFinset_card_of_nodup h.live_nodup, hlive, card_image_of_injOn,
      card_sigma, ← sum_toFinset _ h.blocks.nodup]
    · refine sum_congr rfl ?_
      intro g hg
      have hc := h.chained g (mem_toFinset.mp hg)
      rw [card_sdiff_of_subset, card_range, toFinset_card_of_nodup hc.nodup, hc.length]
      intro i hi
      exact Finset.mem_range.mpr (hc.lt i (List.mem_toFinset.mp hi))
    · intro x hx y hy he
      simp only [coe_sigma, Set.mem_sigma_iff, mem_coe, mem_toFinset,
        Finset.mem_sdiff, Finset.mem_range] at hx hy
      obtain ⟨h1, h2⟩ := h.blocks.obj_inj hx.1 hy.1 hx.2.1 hy.2.1 he
      exact Sigma.ext h1 (heq_of_eq h2)
  have hall : ∀ g ∈ slabs, (s.pages g).freeObjCount ≤ s.alloc.objectCountPerSlab := by
    intro g hg
    rw [← (h.chained g hg).length]
    exact (h.chained g hg).length_le
  rw [hcard, ← sum_map_add]
  have hconst : slabs.map (fun g => (s.pages g).freeObjCount
        + (s.alloc.objectCountPerSlab - (s.pages g).freeObjCount))
      = slabs.map fun _ => s.alloc.objectCountPerSlab := by
    refine map_congr_left ?_
    intro g hg
    exact Nat.add_sub_cancel' (hall g hg)
  rw [hconst, map_const', sum_replicate, smul_eq_mul]

/-- Some run leads to so many slabs and so many live objects. -/
def Reaches (start : Slabs) (slabCount liveCount : Nat) : Prop :=
  ∃ s live slabs chain, Reachable start (s, live) ∧ Inv s slabs chain live ∧ SameLayout start s ∧
    slabs.length = slabCount ∧ live.length = liveCount

section Wrap

variable {start : Slabs}

theorem Reaches.alloc (hl : start.alloc.Laid) (h : Reaches start n k)
    (hlt : k < n * start.alloc.objectCountPerSlab) : Reaches start n (k + 1) := by
  obtain ⟨s, live, slabs, chain, hreach, hinv, hsame, rfl, rfl⟩ := h
  have hlegal : (SlabOp.alloc none).Legal (s, live) := fun _ he => by cases he
  obtain ⟨r, s', hrun, hres⟩ := slabAlloc_spec hinv (fun _ => hsame.laid hl) hlegal
  have hexec : (SlabOp.alloc none).exec (s, live) = .ok (s', r.toList ++ live) := by
    rw [SlabOp.exec, hrun]
    rfl
  have hreach' := hreach.step hlegal hexec
  cases hres with
  | none hfull _ =>
    -- not all slabs are full
    have hsum : (slabs.map fun g => (s.pages g).freeObjCount).sum = 0 := by
      refine sum_eq_zero ?_
      intro x hx
      obtain ⟨g, hg, rfl⟩ := mem_map.mp hx
      exact hfull g hg
    have hall := hinv.free_add_live
    rw [hsame.objectCount] at hall
    omega
  | old _ htaken h' => exact ⟨s', _, slabs, _, hreach', h', hsame.trans htaken.layout, rfl, rfl⟩
  | new _ he _ _ _ => cases he

theorem Reaches.grow (hl : start.alloc.Laid) (horder : start.alloc.slabOrder = 0)
    (hroom : start.base + PAGE_SIZE * (n + 1) ≤ U64)
    (h : Reaches start n (n * start.alloc.objectCountPerSlab)) :
    Reaches start (n + 1) (n * start.alloc.objectCountPerSlab + 1) := by
  obtain ⟨s, live, slabs, chain, hreach, hinv, hsame, rfl, hlen⟩ := h
  -- the rest of the kernel gives up all pages that are in no slab
  let pages : Nat → SlabPage := fun p => if p ∈ slabs then s.pages p else ⟨.used, none, 0, 0, none⟩
  have hblock : ∀ {g p}, s.InBlock g p ↔ p = g := by
    unfold InBlock
    rw [hsame.slabOrder, horder]
    omega
  have hres : (SlabOp.other pages s.mem).Legal (s, live) := by
    refine ⟨?_, ?_, fun x hne => absurd rfl hne⟩
    · intro g hg p hp
      rw [hblock.mp hp]
      exact if_pos ((hinv.blocks.heads g).mpr hg)
    · intro p hp _
      by_cases hmem : p ∈ slabs
      · exact (hinv.blocks.heads p).mp hmem
      · simp only [pages, if_neg hmem] at hp
        cases hp
  have hreach1 : Reachable start ({ s with pages := pages }, live) :=
    hreach.step hres rfl
  have hinv1 := hinv.respects hres
  -- among the first pages there is one outside the slabs
  obtain ⟨head, hle, hnot⟩ : ∃ head ≤ slabs.length, head ∉ slabs := by
    by_contra hno
    push Not at hno
    have hsub : List.range (slabs.length + 1) ⊆ slabs := by
      intro p hp
      exact hno p (Nat.le_of_lt_succ (List.mem_range.mp hp))
    have := (nodup_range.subperm hsub).length_le
    rw [length_range] at this
    omega
  have hfresh : Fresh { s with pages := pages } head := by
    refine ⟨?_, ?_⟩
    · intro p hp
      have hp' : p = head := hblock.mp hp
      subst hp'
      simp [pages, hnot]
    · rw [hsame.base, hsame.slabOrder, horder, pow_zero]
      have := Nat.mul_le_mul_left PAGE_SIZE (Nat.add_le_add_right hle 1)
      omega
  have hlegal : (SlabOp.alloc (some head)).Legal ({ s with pages := pages }, live) := by
    intro p hp
    cases hp
    exact hfresh
  obtain ⟨r, s', hrun, hres'⟩ := slabAlloc_spec hinv1 (fun _ => hsame.laid hl) hlegal
  have hexec : (SlabOp.alloc (some head)).exec ({ s with pages := pages }, live)
      = .ok (s', r.toList ++ live) := by
    rw [SlabOp.exec, hrun]
    rfl
  have hreach' := hreach1.step hlegal hexec
  have hsame' := hres'.layout
  cases hres' with
  | none _ hno =>
    rcases hno with hno | hno
    · cases hno
    · rw [hsame.slabOrder, horder] at hno
      exact absurd hno (by decide)
  | old _ _ h' =>
    -- then there would be more live objects than objects
    have hall := h'.free_add_live
    rw [hsame'.objectCount, length_cons, hlen] at hall
    rw [hsame.objectCount] at hall
    omega
  | new _ he _ _ h' =>
    refine ⟨s', _, _, _, hreach', h', ?_, rfl, ?_⟩
    · exact hsame.trans ⟨hsame'.self, hsame'.base, hsame'.objectSize, hsame'.objectCount,
        hsame'.slabOrder⟩
    · rw [Option.toList_some, singleton_append, length_cons, hlen]

/-- With more live objects than slabs, one can be freed that is not the last of its slab. -/
theorem Reaches.free (h : Reaches start n (k + 1)) (hlt : n < k + 1) :
    Reaches start n k := by
  obtain ⟨s, live, slabs, chain, hreach, hinv, hsame, rfl, hlen⟩ := h
  obtain ⟨g, hg, hfew⟩ : ∃ g ∈ slabs, (s.pages g).freeObjCount + 1 < s.alloc.objectCountPerSlab := by
    by_contra hno
    push Not at hno
    have hsum := card_nsmul_le_sum (slabs.map fun g => (s.pages g).freeObjCount)
      (s.alloc.objectCountPerSlab - 1) (by
        intro x hx
        obtain ⟨g, hg, rfl⟩ := mem_map.mp hx
        have := hno g hg
        omega)
    have hall := hinv.free_add_live
    rw [length_map, smul_eq_mul, Nat.mul_sub, mul_one] at hsum
    omega
  obtain ⟨i, hi, hoff⟩ : ∃ i < s.alloc.objectCountPerSlab, i ∉ chain g := by
    by_contra hno
    push Not at hno
    have hsub : List.range s.alloc.objectCountPerSlab ⊆ chain g := by
      intro i hi
      exact hno i (List.mem_range.mp hi)
    have := (nodup_range.subperm hsub).length_le
    rw [length_range, (hinv.chained g hg).length] at this
    omega
  have hlive : (SlabOp.free (s.objAddr g i)).Legal (s, live) :=
      (hinv.mem_live _).mpr ⟨g, hg, i, hi, hoff, rfl⟩
  obtain ⟨s', hrun, hpush, h'⟩ := slabFree_push hinv hg hi hoff hfew
  have hexec : (SlabOp.free (s.objAddr g i)).exec (s, live)
      = .ok (s', live.erase (s.objAddr g i)) := by
    rw [SlabOp.exec, hrun]
    rfl
  refine ⟨s', _, slabs, _, hreach.step hlive hexec, h', hsame.trans hpush.layout, rfl, ?_⟩
  rw [length_erase_of_mem hlive, hlen, Nat.add_sub_cancel]

theorem reaches_full (hl : start.alloc.Laid) (horder : start.alloc.slabOrder = 0)
    (hzero : Reaches start 0 0) : ∀ n, start.base + PAGE_SIZE * n ≤ U64 →
    Reaches start n (n * start.alloc.objectCountPerSlab) := by
  intro n
  induction n with
  | zero =>
    intro _
    rw [zero_mul]
    exact hzero
  | succ n ih =>
    intro hroom
    have hless : PAGE_SIZE * n ≤ PAGE_SIZE * (n + 1) := Nat.mul_le_mul_left _ (Nat.le_succ n)
    have hgrow := (ih (by omega)).grow hl horder hroom
    -- one object is live in the new slab; fill it up
    have hfill : ∀ j, 1 ≤ j → j ≤ start.alloc.objectCountPerSlab →
        Reaches start (n + 1) (n * start.alloc.objectCountPerSlab + j) := by
      intro j hj
      induction j, hj using Nat.le_induction with
      | base => exact fun _ => hgrow
      | succ j _ ihj =>
        intro hle
        have hlt : n * start.alloc.objectCountPerSlab + j
            < (n + 1) * start.alloc.objectCountPerSlab := by
          rw [add_mul, one_mul]
          omega
        exact Reaches.alloc hl (ihj (by omega)) hlt
    rw [Nat.succ_mul]
    exact hfill _ (by have := hl.count; omega) le_rfl

theorem Reaches.free_many (h : Reaches start n k) : ∀ j, n + j ≤ k →
    Reaches start n (k - j) := by
  intro j
  induction j with
  | zero => exact fun _ => h
  | succ j ih =>
    intro hle
    refine Reaches.free ?_ (show n < k - (j + 1) + 1 by omega)
    rw [show k - (j + 1) + 1 = k - j by omega]
    exact ih (by omega)

end Wrap

/-- The counter of the allocator at 0, with `2 ^ 32` free objects in `2 ^ 25` slabs. -/
theorem slab_counter_wraps : ∃ st slabs chain, Reachable sixteen st ∧
    Inv st.1 slabs chain st.2 ∧ st.1.alloc.freeObjCount = 0 ∧
    (slabs.map fun g => (st.1.pages g).freeObjCount).sum = 2 ^ 32 := by
  have hl : sixteen.alloc.Laid := ⟨by decide, by decide, by decide, by decide⟩
  obtain ⟨-, slabs, chain, hinv⟩ := sixteen_started.good (by decide) (by decide)
  have hzero : Reaches sixteen 0 0 := by
    have hnil : slabs = [] := by
      refine eq_nil_iff_forall_not_mem.mpr ?_
      intro p hp
      exact sixteen_started.unused p ((hinv.blocks.heads p).mp hp)
    exact ⟨sixteen, [], slabs, chain, .start, hinv, ⟨rfl, rfl, rfl, rfl, rfl⟩, by rw [hnil]; rfl, rfl⟩
  have hfull := reaches_full hl rfl hzero (2 ^ 25) (by decide)
  have hfree := hfull.free_many (2 ^ 32) (by decide)
  obtain ⟨s, live, slabs, chain, hreach, hinv, hsame, hslabs, hlive⟩ := hfree
  have hall := hinv.free_add_live
  rw [hslabs, hlive, hsame.objectCount] at hall
  have hsum : (slabs.map fun g => (s.pages g).freeObjCount).sum = 2 ^ 32 := by
    have hcount : sixteen.alloc.objectCountPerSlab = 256 := rfl
    omega
  refine ⟨(s, live), slabs, chain, hreach, hinv, ?_, hsum⟩
  rw [hinv.total, hsum, Nat.mod_self]

end OsKernel.Mm.Slabs
