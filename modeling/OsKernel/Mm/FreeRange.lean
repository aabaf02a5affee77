import OsKernel.Mm.FreeListOps

/-!
# Freeing a run of pages

`free_range_of_pages` cuts a run into blocks, the largest first: at each turn it
takes the highest order that still fits in what is left. The run it is given lies
inside one section and meets no free block, and each block it adds leaves the same
situation for the rest of the run, so one induction over the loop carries the
invariant, the free set and the totals through together.
-/

namespace OsKernel.Mm.PageAlloc

open Set List

variable {sec page amount : Nat} {s s' : PageAlloc} {avail order : Nat}

/-! ## Choosing the order -/

theorem orderFitting_some : ∀ {order o : Nat}, orderFitting avail order = some o →
    o ≤ order ∧ 2 ^ o ≤ avail
  | 0, o, h => by
    unfold orderFitting at h
    split at h
    · cases h
      exact ⟨le_rfl, by simpa⟩
    · cases h
  | order + 1, o, h => by
    unfold orderFitting at h
    split at h
    · cases h
      exact ⟨le_rfl, by assumption⟩
    · obtain ⟨h1, h2⟩ := orderFitting_some h
      exact ⟨Nat.le_succ_of_le h1, h2⟩

theorem orderFitting_isSome (h : 1 ≤ avail) : ∀ order, ∃ o, orderFitting avail order = some o
  | 0 => ⟨0, by simp [orderFitting, h]⟩
  | order + 1 => by
    unfold orderFitting
    split
    · exact ⟨_, rfl⟩
    · exact orderFitting_isSome h order

/-! ## The loop -/

/-- `s'` is `s` with the `n` pages of `run`, in section `sec`, on the freelists. -/
structure Freed (s s' : PageAlloc) (sec : Nat) (run : Set Nat) (n : Nat) : Prop where
  sound : Sound s'
  same : SameLayout s s'
  blocks : s.blocks ⊆ s'.blocks
  freeSet : s'.freeSet = run ∪ s.freeSet
  sectionFree : s'.sectionFree sec = s.sectionFree sec + n
  sectionFree_other : ∀ i, i ≠ sec → s'.sectionFree i = s.sectionFree i
  pages : ∀ q, q ∉ run → s'.pages q = s.pages q

theorem Added.freed {b : Block} (h : Added s s' b) (hs : Sound s) (hsec : b.sec < s.sectionCount)
    (ho : b.order < MAX_ORDER) (hin : b.pages ⊆ s.sectionPages b.sec)
    (hfree : Disjoint b.pages s.freeSet) :
    Freed s s' b.sec b.pages (2 ^ b.order) where
  sound := h.sound hs hsec ho hin hfree
  same := h.same
  blocks := by
    rw [h.blocks hsec ho]
    exact subset_insert _ _
  freeSet := h.freeSet hsec ho
  sectionFree := h.sectionFree ho
  sectionFree_other _ hi := h.sectionFree_other hi
  pages := h.pages

theorem Freed.trans {s'' : PageAlloc} {m n : Nat} {run run' : Set Nat} (h : Freed s s' sec run m)
    (h' : Freed s' s'' sec run' n) :
    Freed s s'' sec (run ∪ run') (m + n) where
  sound := h'.sound
  same := h.same.trans h'.same
  blocks := h.blocks.trans h'.blocks
  freeSet := by
    rw [h'.freeSet, h.freeSet, ← union_assoc, union_comm run' run]
  sectionFree := by
    rw [h'.sectionFree, h.sectionFree]
    omega
  sectionFree_other i hi := (h'.sectionFree_other i hi).trans (h.sectionFree_other i hi)
  pages q hq := by
    rw [h'.pages q fun hr => hq (.inr hr), h.pages q fun hr => hq (.inl hr)]

theorem Freed.quiet {s'' : PageAlloc} {n : Nat} {run : Set Nat} (h : Freed s s' sec run n)
    (h' : Quiet s' s'' ∅) : Freed s s'' sec run n where
  sound := h'.sound h.sound (Set.empty_disjoint _)
  same := h.same.trans h'.same
  blocks := by rw [h'.blocks]; exact h.blocks
  freeSet := by rw [h'.freeSet, h.freeSet]
  sectionFree := by rw [h'.sectionFree, h.sectionFree]
  sectionFree_other i hi := by rw [h'.sectionFree, h.sectionFree_other i hi]
  pages q hq := by rw [h'.pages q (Set.notMem_empty q), h.pages q hq]

theorem widenOrders_eq (x : PageSection) (order : Nat) :
    ∃ lo hi, widenOrders x order = { x with minOrder := lo, maxOrder := hi } ∧
      (hi = x.maxOrder ∨ hi = order + 1) := by
  unfold widenOrders
  by_cases h1 : x.minOrder > order
  · by_cases h2 : x.maxOrder ≤ order
    · exact ⟨order, order + 1, by simp [h1, h2], .inr rfl⟩
    · exact ⟨order, x.maxOrder, by simp [h1, h2], .inl rfl⟩
  · by_cases h2 : x.maxOrder ≤ order
    · exact ⟨x.minOrder, order + 1, by simp [h1, h2], .inr rfl⟩
    · exact ⟨x.minOrder, x.maxOrder, by simp [h1, h2], .inl rfl⟩

theorem quiet_widenOrders (s : PageAlloc) (sec : Nat) (ho : order < MAX_ORDER) :
    Quiet s (s.setSection sec (widenOrders (s.sections sec) order)) ∅ := by
  obtain ⟨lo, hi, he, hhi⟩ := widenOrders_eq (s.sections sec) order
  rw [he]
  refine quiet_setSection s sec rfl rfl rfl rfl rfl ?_
  intro hle
  rcases hhi with rfl | rfl
  · exact hle
  · exact ho

theorem shift_widenOrders (s : PageAlloc) (sec order : Nat) :
    Shift s (s.setSection sec (widenOrders (s.sections sec) order)) sec id := by
  obtain ⟨lo, hi, he, _⟩ := widenOrders_eq (s.sections sec) order
  rw [he]
  refine ⟨?_, ?_, rfl, fun _ _ => rfl⟩
  · simp only [setSection, Function.update_self, id]
  · intro i hi
    simp only [setSection, Function.update_of_ne hi]

/--
A run cut into blocks: the first has order `order`, each of the others the highest order that fits
in what is left, and with the last one the bounds of the section are widened.
-/
inductive CutUp (sec : Nat) : PageAlloc → (page order avail : Nat) → PageAlloc → Prop
  | last (s : PageAlloc) (page : Nat) {order : Nat} (ho : order < MAX_ORDER) :
    CutUp sec s page order (2 ^ order) ((s.addToFreelistOrder sec order page).setSection sec
      (widenOrders ((s.addToFreelistOrder sec order page).sections sec) order))
  | next {s s' : PageAlloc} {page order order' left : Nat} (ho : order < MAX_ORDER)
    (hfit : orderFitting left order = some order')
    (rest : CutUp sec (s.addToFreelistOrder sec order page) (page + 2 ^ order) order' left s') :
    CutUp sec s page order (2 ^ order + left) s'

theorem freeRangeLoop_cutUp : ∀ (fuel : Nat) {s s' : PageAlloc} {page order avail : Nat},
    freeRangeLoop s sec fuel page order avail = .ok s' → order < MAX_ORDER → 2 ^ order ≤ avail →
    CutUp sec s page order avail s'
  | 0, s, s', page, order, avail, h, _, _ => by cases h
  | fuel + 1, s, s', page, order, avail, h, ho, hle => by
    obtain ⟨left, rfl⟩ := Nat.exists_eq_add_of_le hle
    simp only [freeRangeLoop, Nat.add_sub_cancel_left] at h
    split at h
    · rename_i hzero
      subst hzero
      cases h
      exact .last s page ho
    · split at h
      · cases h
      · rename_i order' hfit
        obtain ⟨hle', hfits⟩ := orderFitting_some hfit
        exact .next ho hfit (freeRangeLoop_cutUp fuel h (lt_of_le_of_lt hle' ho) hfits)

/-- Each turn takes a page at least, so the loop comes to its end. -/
theorem freeRangeLoop_total (sec : Nat) : ∀ (fuel : Nat) (s : PageAlloc) (page : Nat)
    {order avail : Nat}, 2 ^ order ≤ avail → avail ≤ fuel →
    ∃ s', freeRangeLoop s sec fuel page order avail = .ok s'
  | 0, s, page, order, avail, hle, hfuel => by
    have := Nat.two_pow_pos order
    omega
  | fuel + 1, s, page, order, avail, hle, hfuel => by
    have hpos := Nat.two_pow_pos order
    rw [freeRangeLoop]
    split
    · exact ⟨_, rfl⟩
    · have hleft : 1 ≤ avail - 2 ^ order := by omega
      obtain ⟨order', hfit⟩ := orderFitting_isSome hleft order
      rw [hfit]
      exact freeRangeLoop_total sec fuel _ _ (orderFitting_some hfit).2 (by omega)

theorem freeRangeOfPages_cutUp (h : s.freeRangeOfPages page sec amount = .ok s') :
    ∃ order, orderFitting amount (MAX_ORDER - 1) = some order ∧ CutUp sec s page order amount s' := by
  unfold freeRangeOfPages at h
  split at h
  · cases h
  · rename_i order hfit
    obtain ⟨hle, hfits⟩ := orderFitting_some hfit
    have hmax : 0 < MAX_ORDER := by decide
    exact ⟨order, hfit, freeRangeLoop_cutUp amount h (by omega) hfits⟩

theorem pages_union_rest (sec page order left : Nat) :
    Block.pages ⟨sec, order, page⟩ ∪ Set.Ico (page + 2 ^ order) (page + 2 ^ order + left) =
      Set.Ico page (page + (2 ^ order + left)) := by
  rw [← add_assoc]
  exact Set.Ico_union_Ico_eq_Ico le_self_add le_self_add

section cut

variable {order avail : Nat}

section

variable (h : CutUp sec s page order avail s')
include h

theorem CutUp.shift : Shift s s' sec (add64 · avail) := by
  induction h with
  | last s page _ =>
    exact (addToFreelistOrder_shift s sec _ page).trans
      ((addToFreelistOrder_added s sec _ page).same.zone sec) (shift_widenOrders _ sec _)
  | @next s _ page order _ left _ _ _ ih =>
    have hall := (addToFreelistOrder_shift s sec order page).trans
      ((addToFreelistOrder_added s sec order page).same.zone sec) ih
    have he : ((add64 · left) ∘ (add64 · (2 ^ order)) : Nat → Nat) = (add64 · (2 ^ order + left)) := by
      funext x
      simp only [Function.comp, add64, Nat.mod_add_mod, add_assoc]
    rwa [he] at hall

theorem CutUp.freeSet (hsec : sec < s.sectionCount) :
    s'.freeSet = Set.Ico page (page + avail) ∪ s.freeSet := by
  induction h with
  | last s page ho =>
    rw [(quiet_widenOrders _ sec ho).freeSet]
    exact (addToFreelistOrder_added s sec _ page).freeSet hsec ho
  | @next s _ page order _ left ho _ _ ih =>
    have hadd := addToFreelistOrder_added s sec order page
    rw [ih (by rw [hadd.same.sectionCount]; exact hsec), hadd.freeSet hsec ho, ← union_assoc,
      union_comm (Set.Ico _ _), pages_union_rest]

/-- **A run cut into blocks is freed.** -/
theorem CutUp.freed (hs : Sound s) (hsec : sec < s.sectionCount)
    (hin : Set.Ico page (page + avail) ⊆ s.sectionPages sec)
    (hfree : Disjoint (Set.Ico page (page + avail)) s.freeSet) :
    Freed s s' sec (Set.Ico page (page + avail)) avail := by
  induction h with
  | last s page ho =>
    exact ((addToFreelistOrder_added s sec _ page).freed hs hsec ho hin hfree).quiet
      (quiet_widenOrders _ sec ho)
  | @next s _ page order _ left ho _ _ ih =>
    rw [← pages_union_rest sec] at hin hfree ⊢
    obtain ⟨hinBlock, hinRest⟩ := union_subset_iff.mp hin
    obtain ⟨hfreeBlock, hfreeRest⟩ := disjoint_union_left.mp hfree
    have hadd := (addToFreelistOrder_added s sec order page).freed hs hsec ho hinBlock hfreeBlock
    refine hadd.trans (ih hadd.sound ?_ ?_ ?_)
    · rw [hadd.same.sectionCount]
      exact hsec
    · rw [hadd.same.sectionPages]
      exact hinRest
    · rw [hadd.freeSet]
      exact Set.Ico_disjoint_Ico_same.symm.union_right hfreeRest

end

end cut

theorem freeRangeOfPages_total (s : PageAlloc) (page sec : Nat) (hpos : 1 ≤ amount) :
    ∃ s', s.freeRangeOfPages page sec amount = .ok s' := by
  obtain ⟨order, hfit⟩ := orderFitting_isSome hpos (MAX_ORDER - 1)
  unfold freeRangeOfPages
  rw [hfit]
  exact freeRangeLoop_total sec amount s page (orderFitting_some hfit).2 le_rfl

/-- **`free_range_of_pages` frees a non-empty run of one section.** -/
theorem freeRangeOfPages_freed (hs : Sound s) (hsec : sec < s.sectionCount) (hpos : 1 ≤ amount)
    (hin : Set.Ico page (page + amount) ⊆ s.sectionPages sec)
    (hfree : Disjoint (Set.Ico page (page + amount)) s.freeSet) :
    ∃ s', s.freeRangeOfPages page sec amount = .ok s' ∧
      Freed s s' sec (Set.Ico page (page + amount)) amount := by
  obtain ⟨s', hrun⟩ := freeRangeOfPages_total s page sec hpos
  obtain ⟨_, _, hcut⟩ := freeRangeOfPages_cutUp hrun
  exact ⟨s', hrun, hcut.freed hs hsec hin hfree⟩

theorem freeRangeOfPages_shift (h : s.freeRangeOfPages page sec amount = .ok s') :
    Shift s s' sec (add64 · amount) := by
  obtain ⟨_, _, hcut⟩ := freeRangeOfPages_cutUp h
  exact hcut.shift

theorem freeRangeOfPages_freeSet (h : s.freeRangeOfPages page sec amount = .ok s')
    (hsec : sec < s.sectionCount) :
    s'.freeSet = Set.Ico page (page + amount) ∪ s.freeSet := by
  obtain ⟨_, _, hcut⟩ := freeRangeOfPages_cutUp h
  exact hcut.freeSet hsec

/-- The pages outside the run are left alone. -/
theorem CutUp.pages {q : Nat} (h : CutUp sec s page order avail s')
    (hq : q ∉ Set.Ico page (page + avail)) : s'.pages q = s.pages q := by
  induction h with
  | last s page ho =>
    rw [(quiet_widenOrders _ sec ho).pages q (notMem_empty q)]
    exact (addToFreelistOrder_added s sec _ page).pages q hq
  | @next s _ page order _ left _ _ _ ih =>
    rw [← pages_union_rest sec] at hq
    rw [ih fun hr => hq (.inr hr)]
    exact (addToFreelistOrder_added s sec order page).pages q fun hr => hq (.inl hr)

/-- The blocks of a run in the order of their addresses. -/
theorem CutUp.blocks (h : CutUp sec s page order avail s')
    (hsec : sec < s.sectionCount) : ∃ new : List Block,
      (∀ b ∈ new, page ≤ b.page ∧ b.sec = sec ∧ b.order ≤ order ∧ Marked s' b) ∧
      (⋃ b ∈ new, b.pages) = Set.Ico page (page + avail) ∧
      new.Pairwise (fun b c => b.page + 2 ^ b.order ≤ c.page ∧ c.order ≤ b.order) ∧
      s'.blocks = { b | b ∈ new } ∪ s.blocks := by
  induction h with
  | @last s page order ho =>
    have hadd := addToFreelistOrder_added s sec order page
    have hquiet := quiet_widenOrders (s.addToFreelistOrder sec order page) sec ho
    refine ⟨[⟨sec, order, page⟩], ?_, ?_, pairwise_singleton _ _, ?_⟩
    · intro b hb
      rw [mem_singleton.mp hb]
      exact ⟨le_rfl, rfl, le_rfl, hadd.marked.congr fun q _ => hquiet.pages q (notMem_empty q)⟩
    · simp [Block.pages]
    · rw [hquiet.blocks, hadd.blocks hsec ho]
      simp
  | @next s _ page order order' left ho hfit rest ih =>
    have hadd := addToFreelistOrder_added s sec order page
    obtain ⟨new, hall, hunion, hpair, hblocks⟩ := ih (by rw [hadd.same.sectionCount]; exact hsec)
    have hle := (orderFitting_some hfit).1
    refine ⟨⟨sec, order, page⟩ :: new, ?_, ?_, pairwise_cons.mpr ⟨?_, hpair⟩, ?_⟩
    · intro b hb
      rcases mem_cons.mp hb with rfl | hb
      · exact ⟨le_rfl, rfl, le_rfl, hadd.marked.congr fun q hq =>
          rest.pages (disjoint_left.mp Set.Ico_disjoint_Ico_same hq)⟩
      · obtain ⟨hpage, hbsec, ho', hmarked⟩ := hall b hb
        exact ⟨le_self_add.trans hpage, hbsec, ho'.trans hle, hmarked⟩
    · rw [← pages_union_rest sec, ← hunion]
      simp
    · intro c hc
      obtain ⟨hpage, _, ho', _⟩ := hall c hc
      exact ⟨hpage, ho'.trans hle⟩
    · rw [hblocks, hadd.blocks hsec ho]
      ext b
      simp [or_left_comm, or_assoc]

/--
**A run is cut into blocks that fill it exactly**: their orders do not go up with the address, all
their pages are marked, and the totals go up by the run's length.
-/
theorem freeRangeOfPages_partition (s : PageAlloc) (page sec amount : Nat)
    (hsec : sec < s.sectionCount) (hpos : 1 ≤ amount)
    (hfree : Disjoint (Set.Ico page (page + amount)) s.freeSet) :
    ∃ s', ∃ new : List Block, s.freeRangeOfPages page sec amount = .ok s' ∧
      (∀ b ∈ new, b.sec = sec ∧ b.order < MAX_ORDER ∧ b ∉ s.blocks ∧ Marked s' b) ∧
      (⋃ b ∈ new, b.pages) = Set.Ico page (page + amount) ∧
      new.Pairwise (fun b c => b.page + 2 ^ b.order ≤ c.page ∧ c.order ≤ b.order) ∧
      s'.blocks = { b | b ∈ new } ∪ s.blocks ∧ Shift s s' sec (add64 · amount) := by
  obtain ⟨s', hrun⟩ := freeRangeOfPages_total s page sec hpos
  obtain ⟨order, hfit, hcut⟩ := freeRangeOfPages_cutUp hrun
  obtain ⟨new, hall, hunion, hpair, hblocks⟩ := hcut.blocks hsec
  refine ⟨s', new, hrun, ?_, hunion, hpair, hblocks, hcut.shift⟩
  intro b hb
  obtain ⟨_, hbsec, ho, hmarked⟩ := hall b hb
  have hle := (orderFitting_some hfit).1
  have hmax : 0 < MAX_ORDER := by decide
  refine ⟨hbsec, by omega, ?_, hmarked⟩
  intro hold
  have hpage : b.page ∈ Set.Ico page (page + amount) := by
    rw [← hunion]
    exact mem_biUnion hb b.page_mem
  exact disjoint_left.mp hfree hpage (mem_freeSet.mpr ⟨b, hold, b.page_mem⟩)

/-- The totals do not wrap around: they come to the free pages there are afterwards. -/
theorem Freed.totals {S : Set Nat} (hw : WellFormed s) (hsec : sec < s.sectionCount)
    (h : Freed s s' sec S amount) :
    add64 (s.sections sec).totalFree amount = (s.sections sec).totalFree + amount ∧
      add64 (s.zones (s.sections sec).zone).totalFree amount
        = (s.zones (s.sections sec).zone).totalFree + amount := by
  have hz := (hw.layout.zoned sec hsec).1
  have hchange : s'.sectionFree sec + 0 = s.sectionFree sec + amount := by
    rw [Nat.add_zero, h.sectionFree]
  have hsum := zoneFree_change hw.layout h.same hsec hchange fun i _ hi => h.sectionFree_other i hi
  have hbound := h.sound.zoneFree_le (by rw [h.same.zoneCount]; exact hz)
  have haddr := h.sound.layout.addressable
  have hle := sectionFree_le_zoneFree hw.layout hsec
  rw [hw.sectionTotal sec hsec, hw.zoneTotal _ hz]
  constructor <;> refine Nat.mod_eq_of_lt ?_ <;> simp only [U64] <;> omega

theorem WellFormed.freeRange (hw : WellFormed s) (hsec : sec < s.sectionCount) (hpos : 1 ≤ amount)
    (hin : Set.Ico page (page + amount) ⊆ s.sectionPages sec)
    (hfree : Disjoint (Set.Ico page (page + amount)) s.freeSet) :
    ∃ s', s.freeRangeOfPages page sec amount = .ok s' ∧ WellFormed s' ∧
      Freed s s' sec (Set.Ico page (page + amount)) amount := by
  obtain ⟨s', hrun, hfreed⟩ := freeRangeOfPages_freed hw.toSound hsec hpos hin hfree
  refine ⟨s', hrun, hw.shift (n := 0) (m := amount) hfreed.sound hfreed.same hsec
    (freeRangeOfPages_shift hrun) ?_ ?_ fun i _ hi => hfreed.sectionFree_other i hi, hfreed⟩
  · simp only [Nat.add_zero]
    exact hfreed.totals hw hsec
  · rw [Nat.add_zero, hfreed.sectionFree]

/-! ## A machine with one section -/

/-- One zone with one section of `count` pages from address 0 on, none of them free. -/
def bare (count : Nat) : PageAlloc where
  pages _ := ⟨.systemCrucial, 0, .used 1⟩
  sections _ := ⟨0, 0, count * PAGE_SIZE, 0, fun _ => ⟨[], 0⟩, 0, 0, 0⟩
  sectionCount := 1
  zones _ := ⟨[0], 0⟩
  zoneCount := 1
  zoneDefault := 0
  pageEnd := count

theorem bare_sectionPages (count sec : Nat) : (bare count).sectionPages sec = Set.Ico 0 count := by
  have hps : 0 < PAGE_SIZE := Nat.two_pow_pos _
  simp only [sectionPages, bare, zero_add, Nat.mul_div_cancel count hps]

theorem bare_blocks (count : Nat) : (bare count).blocks = ∅ := by
  ext b
  simp [blocks, freelist, bare]

theorem bare_freeSet (count : Nat) : (bare count).freeSet = ∅ := by
  simp [freeSet, bare_blocks]

theorem bare_wellFormed {count : Nat} (h : count ≤ 2 ^ 52) : WellFormed (bare count) where
  layout := by
    refine ⟨?_, ?_, ?_, ?_, ?_, ?_, ?_, ?_⟩
    · intro zone hzone sec hsec
      have hz : zone < 1 := hzone
      have hs : sec = 0 := mem_singleton.mp hsec
      subst hs
      exact ⟨one_pos, by simp only [bare]; omega⟩
    · intro zone _
      exact nodup_singleton 0
    · intro sec hsec
      have hs : sec < 1 := hsec
      exact ⟨one_pos, mem_singleton.mpr (by omega)⟩
    · intro sec _
      exact dvd_zero _
    · simp only [bare, PAGE_SIZE, PAGE_SHIFT]
      omega
    · intro sec _ page hpage
      rw [bare_sectionPages] at hpage
      exact hpage.2
    · simp only [bare]
      omega
    · intro sec hsec page _
      have hs : sec < 1 := hsec
      simp only [bare]
      omega
  count _ _ _ _ := rfl
  nodup _ _ _ _ := nodup_nil
  disjoint := by
    rw [bare_blocks]
    exact pairwiseDisjoint_empty
  marked b hb := by
    rw [bare_blocks] at hb
    exact absurd hb (notMem_empty b)
  inside b hb := by
    rw [bare_blocks] at hb
    exact absurd hb (notMem_empty b)
  maxOrder _ _ := Nat.zero_le _
  sectionTotal _ _ := by simp [sectionFree, freelist, bare]
  zoneTotal _ _ := by simp [zoneFree, sectionFree, freelist, bare]

/-- Three pages of five make a block of two and a block of one. -/
theorem freeRangeOfPages_partition_bare :
    ∃ s', ∃ new : List Block, (bare 5).freeRangeOfPages 1 0 3 = .ok s' ∧
      s'.freelist 0 1 = [1] ∧ s'.freelist 0 0 = [3] ∧ (⋃ b ∈ new, b.pages) = Set.Ico 1 4 := by
  obtain ⟨s', new, hrun, _, hunion, _⟩ := freeRangeOfPages_partition (bare 5) 1 0 3
    (by decide) (by decide) (by rw [bare_freeSet]; exact disjoint_empty _)
  have hlists : ((bare 5).freeRangeOfPages 1 0 3).map (fun t => (t.freelist 0 1, t.freelist 0 0))
      = .ok ([1], [3]) := rfl
  rw [hrun] at hlists
  injection hlists with hlists
  exact ⟨s', new, hrun, (Prod.mk.inj hlists).1, (Prod.mk.inj hlists).2, hunion⟩

/-- The same machine with its first `free` pages freed. -/
def boot (count free : Nat) : PageAlloc :=
  match (bare count).freeRangeOfPages 0 0 free with
  | .ok s => s
  | .error _ => bare count

theorem boot_spec (count free : Nat) (h : count ≤ 2 ^ 52) (hfree : 1 ≤ free) (hle : free ≤ count) :
    WellFormed (boot count free) ∧
    Freed (bare count) (boot count free) 0 (Set.Ico 0 free) free := by
  have hin : Set.Ico 0 (0 + free) ⊆ (bare count).sectionPages 0 := by
    rw [bare_sectionPages, zero_add]
    exact Set.Ico_subset_Ico_right hle
  obtain ⟨s', hrun, hw, hfreed⟩ := (bare_wellFormed h).freeRange one_pos hfree hin (by
      rw [bare_freeSet]
      exact disjoint_empty _)
  rw [zero_add] at hfreed
  unfold boot
  rw [hrun]
  exact ⟨hw, hfreed⟩

end OsKernel.Mm.PageAlloc
