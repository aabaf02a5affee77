import OsKernel.Mm.AllocProof

/-!
# Freeing pages, and where it goes wrong

`free_amount_of_pages` looks at the page in front of the run and at the page behind
it, takes the free blocks it finds there off their lists, and frees the run together
with them. Taking a block off this way leaves the totals alone, and
`free_range_of_pages` adds the pages of the merged run to the totals, so a block that
was merged is counted twice. The totals come out right exactly when nothing is merged.

`free_pages` has another fault on top: it hands the *order* of its block to
`free_amount_of_pages` as if it were the number of pages, so the last page of the
block never becomes free again.
-/

namespace OsKernel.Mm.PageAlloc

open Function Set

variable {s s' : PageAlloc} {b : Block} {page order amount amount' endPage n sec start : Nat}

/-! ## Taking a neighbour off its list -/

/-- What is left of `s` once `page` was taken off whichever list held it. -/
structure TakenOff (s s' : PageAlloc) (page : Nat) : Prop where
  listed : ∃ b ∈ s.blocks, b.page = page
  list : ∀ sec order, s'.freelist sec order = (s.freelist sec order).erase page
  pages : s'.pages = s.pages
  sectionCount : s'.sectionCount = s.sectionCount
  pageEnd : s'.pageEnd = s.pageEnd
  total : ∀ sec, (s'.sections sec).totalFree = (s.sections sec).totalFree

theorem takeOffFreelistToAddLater_takenOff
    (h : s.takeOffFreelistToAddLater sec order page = .ok s') : TakenOff s s' page := by
  unfold takeOffFreelistToAddLater listDelete at h
  split at h
  · rename_i hon
    cases h
    refine ⟨onFreelist_iff.mp hon, ?_, rfl, rfl, rfl, ?_⟩
    · intro i o
      unfold freelist
      by_cases hi : i = sec
      · subst hi
        simp only [setSection, update_self, settleOrders_freelistList,
          PageSection.setFreelist, update_apply]
        split
        · rename_i ho
          rw [ho]
        · rfl
      · simp only [setSection, update_of_ne hi]
    · intro i
      by_cases hi : i = sec
      · subst hi
        simp only [setSection, update_self, settleOrders_totalFree, PageSection.setFreelist]
      · simp only [setSection, update_of_ne hi]
  · simp [bind, Except.bind] at h

theorem TakenOff.blocks_subset (h : TakenOff s s' page) :
    s'.blocks ⊆ s.blocks := by
  rintro b ⟨hsec, ho, hmem⟩
  rw [h.sectionCount] at hsec
  rw [h.list] at hmem
  exact ⟨hsec, ho, List.mem_of_mem_erase hmem⟩

/-- A page is on one list, once: it cannot be taken off again. -/
theorem TakenOff.gone (h : TakenOff s s' page) (hs : Sound s) :
    ¬ ∃ b ∈ s'.blocks, b.page = page := by
  rintro ⟨b, hb, rfl⟩
  obtain ⟨hsec, ho, _⟩ := h.blocks_subset hb
  have hmem := hb.2.2
  rw [h.list, (hs.nodup _ hsec _ ho).mem_erase_iff] at hmem
  exact hmem.1 rfl

theorem Sound.listed_lt (hs : Sound s) (hb : b ∈ s.blocks) :
    b.page < 2 ^ 63 :=
  (hs.layout.covered b.sec hb.1 b.page (hs.inside b hb b.page_mem)).trans hs.layout.addressable

/-! ## Merging -/

/-- The page in front of the run is outside the section or looks like no page of a free block. -/
def PrevUsed (s : PageAlloc) (sec page : Nat) : Prop :=
  page = (s.sections sec).pfn ∨
    (s.pages (page - 1)).state ≠ .freeListTail ∧ (s.pages (page - 1)).state ≠ .freeListHead

/-- The page behind the run is outside the page table or heads no free block. -/
def NextUsed (s : PageAlloc) (endPage : Nat) : Prop :=
  ¬ (endPage < s.pageEnd ∧ (s.pages endPage).state = .freeListHead)

instance (s : PageAlloc) (sec page : Nat) : Decidable (PrevUsed s sec page) :=
  inferInstanceAs (Decidable (_ ∨ _ ∧ _))

instance (s : PageAlloc) (endPage : Nat) : Decidable (NextUsed s endPage) :=
  inferInstanceAs (Decidable (¬ (_ ∧ _)))

theorem mergePrev_of_prevUsed (h : PrevUsed s sec page) :
    s.mergePrev sec page amount = .ok (page, amount, s) := by
  unfold mergePrev
  rcases h with he | ⟨h1, h2⟩
  · rw [if_pos (by rw [← he]; simp [sub64])]
  · split
    · rfl
    · split
      · contradiction
      · contradiction
      · rfl

theorem mergeNext_of_nextUsed (h : NextUsed s endPage) :
    s.mergeNext sec endPage amount = .ok (amount, s) := by
  unfold mergeNext
  rw [if_neg h]

/-- Merging with the block in front takes a listed page off and starts the run there. -/
theorem mergePrev_merged (hpfn : (s.sections sec).pfn ≤ page) (hprev : ¬ PrevUsed s sec page)
    (h : s.mergePrev sec page amount = .ok (start, amount', s')) :
    TakenOff s s' start ∧ amount' = (amount + sub64 page start) % U64 := by
  unfold mergePrev at h
  split at h
  · rename_i hzero
    refine absurd (.inl ?_) hprev
    simp only [sub64, hpfn, if_true] at hzero
    omega
  · have hpos : 1 ≤ page := by
      rcases Nat.eq_zero_or_pos page with h0 | h0
      · refine absurd (.inl ?_) hprev
        omega
      · exact h0
    split at h
    · -- the page in front is a tail: follow it to its head
      obtain ⟨q, _, h⟩ := bind_eq_ok.mp h
      obtain ⟨o, _, h⟩ := bind_eq_ok.mp h
      obtain ⟨t, hoff, h⟩ := bind_eq_ok.mp h
      obtain ⟨rfl, rfl, rfl⟩ : q = start ∧ _ = amount' ∧ t = s' := by simpa using h
      exact ⟨takeOffFreelistToAddLater_takenOff hoff, rfl⟩
    · -- the page in front is a block of one page
      obtain ⟨o, _, h⟩ := bind_eq_ok.mp h
      obtain ⟨t, hoff, h⟩ := bind_eq_ok.mp h
      obtain ⟨rfl, rfl, rfl⟩ : page - 1 = start ∧ _ = amount' ∧ t = s' := by simpa using h
      refine ⟨takeOffFreelistToAddLater_takenOff hoff, ?_⟩
      rw [sub64, if_pos (by omega), Nat.sub_sub_self hpos]
    · exact absurd (.inr ⟨by assumption, by assumption⟩) hprev

theorem mergeNext_merged (hnext : ¬ NextUsed s endPage)
    (h : s.mergeNext sec endPage amount = .ok (amount', s')) :
    ∃ o, (s.pages endPage).data = .freelistHead o ∧ TakenOff s s' endPage ∧
      amount' = (amount + 2 ^ o) % U64 := by
  unfold mergeNext at h
  rw [if_pos (not_not.mp hnext)] at h
  obtain ⟨o, ho, h⟩ := bind_eq_ok.mp h
  obtain ⟨t, hoff, h⟩ := bind_eq_ok.mp h
  obtain ⟨rfl, rfl⟩ : _ = amount' ∧ t = s' := by simpa using h
  refine ⟨o, ?_, takeOffFreelistToAddLater_takenOff hoff, rfl⟩
  unfold headOrder at ho
  split at ho
  · rename_i o' hdata
    injection ho with ho
    rw [hdata, ho]
  · simp at ho

theorem merged_end (h : page + amount < 2 ^ 63) (hs : start < 2 ^ 63) :
    (start + (amount + sub64 page start) % U64) % U64 = page + amount := by
  unfold sub64
  split <;> simp only [U64] <;> omega

/-- A run that grew by one block, or by two, is longer or has wrapped around. -/
theorem merged_ne {p : Nat} (hn : 1 ≤ n) (hend : page + n < 2 ^ 63) (hs : start < 2 ^ 63)
    (hp : p ≤ 2 ^ 21) (hout : ¬ (page ≤ start ∧ start < page + n + p)) :
    ((n + sub64 page start) % U64 + p) % U64 ≠ n := by
  unfold sub64
  split <;> simp only [U64] <;> omega

/-- A total that came out as if `n` pages had been added did have `n` pages added. -/
theorem add64_cancel {x : Nat} (hamount : amount < U64) (hn : n < U64)
    (h : x + n = add64 x amount) : amount = n := by
  simp only [add64, U64] at *
  omega

theorem freeAmountOfPages_ok (h : s.freeAmountOfPages page amount = .ok s') :
    ∃ start a t, s.mergePrev (s.pages page).sect page amount = .ok (start, a, t) ∧
      ∃ a' t', t.mergeNext (s.pages page).sect ((start + a) % U64) a = .ok (a', t') ∧
        t'.freeRangeOfPages start (s.pages page).sect a' = .ok s' := by
  obtain ⟨⟨start, a, t⟩, hprev, h⟩ := bind_eq_ok.mp h
  obtain ⟨⟨a', t'⟩, hnext, h⟩ := bind_eq_ok.mp h
  exact ⟨start, a, t, hprev, a', t', hnext, h⟩

/-! ## `free_amount_of_pages` -/

theorem freeAmountOfPages_unmerged (hsect : (s.pages page).sect = sec) (hend : page + n < 2 ^ 63)
    (hprev : PrevUsed s sec page) (hnext : NextUsed s (page + n)) :
    s.freeAmountOfPages page n = s.freeRangeOfPages page sec n := by
  have hmod : (page + n) % U64 = page + n := Nat.mod_eq_of_lt (by simp only [U64]; omega)
  unfold freeAmountOfPages
  simp only [hsect, mergePrev_of_prevUsed hprev, ok_bind, hmod, mergeNext_of_nextUsed hnext]

/-- If the section's total comes out right, nothing was merged. -/
theorem freeAmountOfPages_total (hw : WellFormed s) (hn : 1 ≤ n)
    (hpfn : (s.sections sec).pfn ≤ page) (hused : Disjoint (Set.Ico page (page + n)) s.freeSet)
    (hend : page + n < 2 ^ 63) (hsect : (s.pages page).sect = sec)
    (h : s.freeAmountOfPages page n = .ok s')
    (htotal : (s'.sections sec).totalFree = (s.sections sec).totalFree + n) :
    PrevUsed s sec page ∧ NextUsed s (page + n) := by
  obtain ⟨start, a, t, hprev, a', t', hnext, hrun⟩ := freeAmountOfPages_ok h
  rw [hsect] at hprev hnext hrun
  have hgrown := (freeRangeOfPages_shift hrun).section_
  have hwide : n < U64 := by
    simp only [U64]
    omega
  -- a block behind the run, if one is merged
  have hbehind : ∀ {x : PageAlloc}, TakenOff t x (page + n) → t.blocks ⊆ s.blocks →
      ∀ o, (t.pages (page + n)).data = .freelistHead o → t.pages = s.pages →
      ∃ b ∈ s.blocks, b.page = page + n ∧ b.order = o ∧ 2 ^ o ≤ 2 ^ 21 := by
    intro x hoff hsub o hdata hpages
    obtain ⟨b, hb, hbp⟩ := hoff.listed
    have hhead := (hw.marked b (hsub hb)).headData
    rw [hbp, ← hpages, hdata] at hhead
    injection hhead with ho
    refine ⟨b, hsub hb, hbp, ho.symm, Nat.pow_le_pow_right (by decide) ?_⟩
    rw [ho]
    exact (hsub hb).2.1.le
  by_cases hp : PrevUsed s sec page
  · rw [mergePrev_of_prevUsed hp] at hprev
    obtain ⟨rfl, rfl, rfl⟩ : page = start ∧ n = a ∧ s = t := by simpa using hprev
    rw [Nat.mod_eq_of_lt (show page + n < U64 by simp only [U64]; omega)] at hnext
    refine ⟨hp, ?_⟩
    by_contra hnu
    obtain ⟨o, hdata, hoff, ha'⟩ := mergeNext_merged hnu hnext
    obtain ⟨_, _, _, _, hpow⟩ := hbehind hoff (Set.Subset.refl _) o hdata rfl
    have hpos := Nat.two_pow_pos o
    rw [hoff.total, htotal] at hgrown
    have hlen := add64_cancel (by rw [ha']; exact Nat.mod_lt _ (by decide)) hwide hgrown
    simp only [U64] at ha'
    omega
  · obtain ⟨hoff, ha⟩ := mergePrev_merged hpfn hp hprev
    obtain ⟨b, hb, hbp⟩ := hoff.listed
    have hstart : start < 2 ^ 63 := hbp ▸ hw.toSound.listed_lt hb
    have hout : start ∉ Set.Ico page (page + n) := by
      intro hin
      refine disjoint_left.mp hused hin (mem_freeSet.mpr ⟨b, hb, ?_⟩)
      exact hbp ▸ b.page_mem
    rw [ha, merged_end hend hstart] at hnext
    by_cases hnu : NextUsed t (page + n)
    · rw [mergeNext_of_nextUsed hnu] at hnext
      obtain ⟨rfl, rfl⟩ : _ = a' ∧ t = t' := by simpa using hnext
      rw [hoff.total, htotal] at hgrown
      have hlong := merged_ne (p := 0) hn hend hstart (by decide) hout
      rw [add_zero, Nat.mod_mod] at hlong
      exact absurd (add64_cancel (Nat.mod_lt _ (by decide)) hwide hgrown) hlong
    · -- blocks on both sides of the run
      obtain ⟨o, hdata, hoff', ha'⟩ := mergeNext_merged hnu hnext
      obtain ⟨c, hc, hcp, hco, hpow⟩ := hbehind hoff' hoff.blocks_subset o hdata hoff.pages
      have hbc : b ≠ c := by
        rintro rfl
        obtain ⟨d, hd, hdp⟩ := hoff'.listed
        exact hoff.gone hw.toSound ⟨d, hd, by rw [hdp, ← hbp, hcp]⟩
      have hout' : start ∉ Set.Ico (page + n) (page + n + 2 ^ o) := by
        intro hin
        refine disjoint_left.mp (hw.disjoint hb hc hbc) b.page_mem ?_
        rw [Block.mem_pages, hbp, hcp, hco]
        exact hin
      rw [mem_Ico] at hout hout'
      rw [hoff'.total, hoff.total, htotal] at hgrown
      have hlong := merged_ne (p := 2 ^ o) hn hend hstart hpow (by omega)
      rw [ha'] at hgrown
      exact absurd (add64_cancel (Nat.mod_lt _ (by decide)) hwide hgrown) hlong

/--
**Freeing a run of a section is correct exactly when it merges with nothing.** The page in front
must not look like a page of a free block and the page behind must not head one; otherwise the
block merged with is counted again.
-/
theorem freeAmountOfPages_correct_iff {s : PageAlloc} (hw : WellFormed s) {sec page n : Nat}
    (hsec : sec < s.sectionCount) (hn : 1 ≤ n)
    (hin : Set.Ico page (page + n) ⊆ s.sectionPages sec)
    (hused : Disjoint (Set.Ico page (page + n)) s.freeSet) :
    (∃ s', s.freeAmountOfPages page n = .ok s' ∧ WellFormed s' ∧
      s'.freeSet = Set.Ico page (page + n) ∪ s.freeSet ∧
      (s'.sections sec).totalFree = (s.sections sec).totalFree + n ∧
      (s'.zones (s.sections sec).zone).totalFree
        = (s.zones (s.sections sec).zone).totalFree + n ∧
      ∀ b ∈ s.blocks \ s'.blocks, b.sec = sec) ↔
    PrevUsed s sec page ∧ NextUsed s (page + n) := by
  have hfirst : page ∈ s.sectionPages sec := hin ⟨le_rfl, by omega⟩
  have hlast : page + n - 1 ∈ s.sectionPages sec := hin ⟨by omega, by omega⟩
  have hend : page + n < 2 ^ 63 := by
    have h1 := hw.layout.covered sec hsec _ hlast
    have h2 := hw.layout.addressable
    omega
  have hsect := hw.layout.pageSect sec hsec page hfirst
  constructor
  · rintro ⟨s', hrun, _, _, htotal, _⟩
    exact freeAmountOfPages_total hw hn hfirst.1 hused hend hsect hrun htotal
  · rintro ⟨hprev, hnext⟩
    obtain ⟨s', hrun, hw', hfreed⟩ := hw.freeRange hsec hn hin hused
    have hshift := freeRangeOfPages_shift hrun
    obtain ⟨hsecTotal, hzoneTotal⟩ := hfreed.totals hw hsec
    refine ⟨s', ?_, hw', hfreed.freeSet, hshift.section_.trans hsecTotal,
      hshift.zone.trans hzoneTotal, ?_⟩
    · rw [freeAmountOfPages_unmerged hsect hend hprev hnext, hrun]
    · rintro b ⟨hb, hb'⟩
      exact absurd (hfreed.blocks hb) hb'

/-- Page 2, with page 0 free and page 1 in use: neither neighbour is free. -/
theorem freeAmountOfPages_correct_iff_boot :
    ∃ s', (boot 4 1).freeAmountOfPages 2 1 = .ok s' ∧ WellFormed s' ∧
      s'.freeSet = Set.Ico 2 3 ∪ (boot 4 1).freeSet := by
  obtain ⟨hw, hfreed⟩ := boot_spec 4 1 (by decide) (by decide) (by decide)
  have hin : Set.Ico 2 (2 + 1) ⊆ (boot 4 1).sectionPages 0 := by
    exact Set.Ico_subset_Ico (by decide) (by decide)
  have hused : Disjoint (Set.Ico 2 (2 + 1)) (boot 4 1).freeSet := by
    rw [hfreed.freeSet, bare_freeSet, union_empty]
    exact Set.Ico_disjoint_Ico.mpr (by decide)
  have hsec : 0 < (boot 4 1).sectionCount := by decide
  obtain ⟨s', hrun, hw', hset, _⟩ :=
    (freeAmountOfPages_correct_iff hw hsec (Nat.le_refl 1) hin hused).mpr (by decide)
  exact ⟨s', hrun, hw', hset⟩

/--
Page 1, with page 0 free: the block of page 0 is taken off its list uncounted and counted again
with the merged run, so one page more raises the total from 1 to 3.
-/
theorem freeAmountOfPages_counts_twice :
    WellFormed (boot 4 1) ∧ 1 ∉ (boot 4 1).freeSet ∧
    ((boot 4 1).sections 0).totalFree = 1 ∧
    ((boot 4 1).freeAmountOfPages 1 1).map (fun s => (s.sections 0).totalFree) = .ok 3 := by
  obtain ⟨hw, hfreed⟩ := boot_spec 4 1 (by decide) (by decide) (by decide)
  refine ⟨hw, ?_, rfl, rfl⟩
  rw [hfreed.freeSet, bare_freeSet, union_empty, mem_Ico]
  decide

/-! ## `free_pages` -/

/-- The last page of a block that is in use stays in use when the block's *order* is freed. -/
theorem freeAmountOfPages_order_keeps_last (hw : WellFormed s) (hsec : sec < s.sectionCount)
    (hin : Set.Ico page (page + 2 ^ order) ⊆ s.sectionPages sec)
    (hused : Disjoint (Set.Ico page (page + 2 ^ order)) s.freeSet)
    (h : s.freeAmountOfPages page order = .ok s') : page + 2 ^ order - 1 ∉ s'.freeSet := by
  have hlt : order < 2 ^ order := Nat.lt_two_pow_self
  have hfirst : page ∈ s.sectionPages sec := hin ⟨le_rfl, by omega⟩
  have hlast : page + 2 ^ order - 1 ∈ s.sectionPages sec := hin ⟨by omega, by omega⟩
  have hend : page + 2 ^ order < 2 ^ 63 := by
    have h1 := hw.layout.covered sec hsec _ hlast
    have h2 := hw.layout.addressable
    omega
  have hlisted : ∀ b ∈ s.blocks, b.page ∉ Set.Ico page (page + 2 ^ order) := by
    intro b hb hmem
    exact disjoint_left.mp hused hmem (mem_freeSet.mpr ⟨b, hb, b.page_mem⟩)
  obtain ⟨start, a, t, hprev, a', t', hnext, hrun⟩ := freeAmountOfPages_ok h
  rw [hw.layout.pageSect sec hsec page hfirst] at hprev hnext hrun
  -- the run ends inside the block, so nothing behind it is merged
  have hbehind : t.blocks ⊆ s.blocks → (start + a) % U64 = page + order → a' = a ∧ t' = t := by
    intro hsub hmod
    rw [hmod] at hnext
    by_cases hnu : NextUsed t (page + order)
    · rw [mergeNext_of_nextUsed hnu] at hnext
      simpa [eq_comm] using hnext
    · obtain ⟨o, _, hoff, _⟩ := mergeNext_merged hnu hnext
      obtain ⟨b, hb, hbp⟩ := hoff.listed
      refine absurd ?_ (hlisted b (hsub hb))
      exact ⟨by omega, by omega⟩
  have hset : ∀ {x : PageAlloc}, x.freeRangeOfPages start sec a = .ok s' →
      x.sectionCount = s.sectionCount → x.freeSet ⊆ s.freeSet →
      page + 2 ^ order - 1 ∉ Set.Ico start (start + a) → page + 2 ^ order - 1 ∉ s'.freeSet := by
    intro x hfree hcount hsub hout
    rw [freeRangeOfPages_freeSet hfree (by rw [hcount]; exact hsec)]
    rintro (hmem | hmem)
    · exact hout hmem
    · exact disjoint_left.mp hused ⟨by omega, by omega⟩ (hsub hmem)
  by_cases hp : PrevUsed s sec page
  · rw [mergePrev_of_prevUsed hp] at hprev
    obtain ⟨rfl, rfl, rfl⟩ : page = start ∧ order = a ∧ s = t := by simpa using hprev
    obtain ⟨rfl, rfl⟩ := hbehind (Set.Subset.refl _) (Nat.mod_eq_of_lt (by simp only [U64]; omega))
    refine hset hrun rfl (Set.Subset.refl _) ?_
    rw [mem_Ico]
    omega
  · obtain ⟨hoff, ha⟩ := mergePrev_merged hfirst.1 hp hprev
    obtain ⟨b, hb, hbp⟩ := hoff.listed
    have hstart : start < 2 ^ 63 := hbp ▸ hw.toSound.listed_lt hb
    have hout := hlisted b hb
    rw [hbp, mem_Ico] at hout
    obtain ⟨rfl, rfl⟩ := hbehind hoff.blocks_subset (by rw [ha]; exact merged_end (by omega) hstart)
    refine hset hrun hoff.sectionCount (biUnion_subset_biUnion_left hoff.blocks_subset) ?_
    rw [mem_Ico]
    unfold sub64 at ha
    split at ha <;> simp only [U64] at ha <;> omega

/--
**Freeing a block that was just allocated never restores the state.** Whatever the order and
wherever the block lies, its last page is not free afterwards.
-/
theorem freePages_never_restores {s s' : PageAlloc} (hw : WellFormed s) {lockFails : Nat → Bool}
    {order page : Nat} (halloc : s.allocPages lockFails .used order = .ok (some page, s'))
    (levelOrder : Nat → Nat) :
    ¬ ∃ s'', s'.freePages levelOrder page order = .ok s'' ∧ WellFormed s'' ∧
      s''.freeSet = s.freeSet ∧
      (∀ sec < s.sectionCount, (s''.sections sec).totalFree = (s.sections sec).totalFree) ∧
      ∀ zone < s.zoneCount, (s''.zones zone).totalFree = (s.zones zone).totalFree := by
  rintro ⟨s'', hfree, _, hset, _⟩
  have hpos := Nat.two_pow_pos order
  have hdone : Allocated s s' order page := by
    have hout := allocPages_outcome hw lockFails .used order
    rw [halloc] at hout
    exact hout
  obtain ⟨b, hb, hsub, _⟩ := hdone.block
  obtain ⟨b', t, rfl, ⟨hb', hfits, u, _, hoff⟩, hup⟩ := allocPages_served hw.toSound halloc
  have ho : order < MAX_ORDER := lt_of_le_of_lt hfits hb'.2.1
  have hstate : (s'.pages b'.page).state = .used := by
    rw [setupPagesOffFreelist_used] at hoff
    rw [setupAllocedPage_used] at hup
    injection hoff with hoff
    injection hup with hup
    simp only [← hup, ← hoff, setData, pageSetState, modifyPage, update_self]
  unfold freePages at hfree
  rw [if_neg (by omega), if_neg (by rw [hstate]; decide)] at hfree
  have hsec : b.sec < s'.sectionCount := by
    rw [hdone.same.sectionCount]
    exact hb.1
  refine freeAmountOfPages_order_keeps_last hdone.wellFormed hsec
    (by rw [hdone.same.sectionPages]; exact hsub.trans (hw.inside b hb))
    (by rw [hdone.freeSet]; exact disjoint_sdiff_right) hfree ?_
  rw [hset]
  exact mem_freeSet.mpr ⟨b, hb, hsub ⟨by omega, by omega⟩⟩

/-- The first two of four pages. -/
theorem freePages_never_restores_boot :
    ∃ s', (boot 4 4).allocPages (fun _ => false) .used 1 = .ok (some 0, s') ∧
      ¬ ∃ s'', s'.freePages (fun _ => 9) 0 1 = .ok s'' ∧ WellFormed s'' ∧
        s''.freeSet = (boot 4 4).freeSet ∧
        (∀ sec < (boot 4 4).sectionCount,
          (s''.sections sec).totalFree = ((boot 4 4).sections sec).totalFree) ∧
        ∀ zone < (boot 4 4).zoneCount,
          (s''.zones zone).totalFree = ((boot 4 4).zones zone).totalFree := by
  have hrun : ((boot 4 4).allocPages (fun _ => false) .used 1).map Prod.fst = .ok (some 0) := rfl
  obtain ⟨⟨_, s'⟩, halloc, rfl⟩ := map_eq_ok.mp hrun
  exact ⟨s', halloc, freePages_never_restores
    (boot_spec 4 4 (by decide) (by decide) (by decide)).1 halloc _⟩

/-- Two of four pages are taken and given back, and only one of them is counted as free again. -/
theorem freePages_loses_page :
    ((boot 4 4).sections 0).totalFree = 4 ∧
    ((boot 4 4).allocPages (fun _ => false) .used 1 >>= fun r =>
      r.2.freePages (fun _ => 9) 0 1).map (fun s => (s.sections 0).totalFree) = .ok 3 :=
  ⟨rfl, rfl⟩

end OsKernel.Mm.PageAlloc
