import OsKernel.Mm.FreeRange

/-!
# Allocation takes exactly one run of pages

Both allocation paths take a free block off its list, hand out one aligned piece of
it and put the rest back: `alloc_pages` by splitting from the top, one order at a
time, `alloc_large_page` by freeing the ends on either side of an aligned page. In
both the free set loses the pages handed out and nothing else, and the totals drop
by their number.
-/

namespace OsKernel.Mm.PageAlloc

open List Set Function

variable {s s' : PageAlloc} {b : Block} {page order o sec zone : Nat}
  {info : Option LargepageLevelInfo} {state : PageState} {t : Set Nat} {α : Type} {r : Result α}

/-! ## Writing pages of a block that is off the lists -/

/-- `s'` is `s` up to pages in `touched`, which keep their section. -/
structure PagesOnly (s s' : PageAlloc) (touched : Set Nat) : Prop where
  eq : s' = { s with pages := s'.pages }
  pages : ∀ q, q ∉ touched → s'.pages q = s.pages q
  sect : ∀ q, (s'.pages q).sect = (s.pages q).sect

theorem PagesOnly.quiet (h : PagesOnly s s' t) : Quiet s s' t where
  same := by
    refine ⟨?_, ?_, ?_, ?_, ?_, ?_, ?_, ?_, ?_, h.sect⟩ <;> intros <;> rw [h.eq]
  pages := h.pages
  list _ _ := by rw [h.eq]; rfl
  count _ _ := by rw [h.eq]; rfl
  maxOrder _ _ hle := by rw [h.eq]; exact hle

theorem PagesOnly.shift (h : PagesOnly s s' t) (sec : Nat) :
    Shift s s' sec id := by
  rw [h.eq]
  exact ⟨rfl, fun _ _ => rfl, rfl, fun _ _ => rfl⟩

theorem pagesOnly_modifyPage (s : PageAlloc) (page : Nat) (f : Page → Page)
    (hf : ∀ pg, (f pg).sect = pg.sect) (ht : page ∈ t) :
    PagesOnly s (s.modifyPage page f) t where
  eq := rfl
  pages q hq := by
    have hne : q ≠ page := by
      rintro rfl
      exact hq ht
    simp only [modifyPage, update_of_ne hne]
  sect q := by
    simp only [modifyPage, update_apply]
    split
    · rename_i e
      rw [hf, e]
    · rfl

theorem pagesOnly_pageSetState (s : PageAlloc) (state : PageState) (ht : page ∈ t) :
    PagesOnly s (s.pageSetState page state) t :=
  pagesOnly_modifyPage s page (fun pg => { pg with state := state }) (fun _ => rfl) ht

theorem pagesOnly_forPages (s : PageAlloc) (f : Nat → Page → Page)
    (hf : ∀ q pg, (f q pg).sect = pg.sect) (first n : Nat) (ht : Set.Ico first (first + n) ⊆ t) :
    PagesOnly s (forPages (fun s iter => s.modifyPage iter (f iter)) s first n) t := by
  rw [forPages_modify]
  refine ⟨rfl, ?_, ?_⟩
  · intro q hq
    exact if_neg fun hin => hq (ht hin)
  · intro q
    simp only
    split
    · exact hf _ _
    · rfl

theorem PagesOnly.trans {s'' : PageAlloc} (h : PagesOnly s s' t) (h' : PagesOnly s' s'' t) :
    PagesOnly s s'' t where
  eq := by
    have h1 := h.eq
    have h2 := h'.eq
    rw [h1] at h2
    exact h2
  pages q hq := (h'.pages q hq).trans (h.pages q hq)
  sect q := (h'.sect q).trans (h.sect q)

/-- The loops of the `PAGE_STATE_USED` cases write one page, over and over. -/
theorem setupPagesOffFreelist_used (s : PageAlloc) (page order : Nat) :
    s.setupPagesOffFreelist page order .used = .ok (s.pageSetState page .used) := by
  obtain ⟨n, hn⟩ := Nat.exists_eq_add_of_lt (Nat.two_pow_pos order)
  rw [setupPagesOffFreelist, show 2 ^ order = n + 1 by omega]
  unfold pageSetState
  rw [forPages_const (fun pg => { pg with state := PageState.used }) (fun _ => rfl)]

theorem setupAllocedPage_used (s : PageAlloc) (page order : Nat)
    (info : Option LargepageLevelInfo) :
    s.setupAllocedPage page .used order info = .ok (s.setData page (.used 1)) := by
  obtain ⟨n, hn⟩ := Nat.exists_eq_add_of_lt (Nat.two_pow_pos order)
  simp only [setupAllocedPage]
  rw [show 2 ^ order = n + 1 by omega]
  unfold setData
  rw [forPages_const (fun pg => { pg with data := PageData.used 1 }) (fun _ => rfl)]

theorem setupPagesOffFreelist_pagesOnly (h : s.setupPagesOffFreelist page order state = .ok s') :
    PagesOnly s s' (Set.Ico page (page + 2 ^ order)) := by
  have hpos := Nat.two_pow_pos order
  have hpage : page ∈ Set.Ico page (page + 2 ^ order) := ⟨le_rfl, by omega⟩
  have htails : Set.Ico (page + 1) (page + 1 + (2 ^ order - 1))
      ⊆ Set.Ico page (page + 2 ^ order) := Set.Ico_subset_Ico (by omega) (by omega)
  cases state with
  | used =>
    rw [setupPagesOffFreelist_used] at h
    cases h
    exact pagesOnly_pageSetState s .used hpage
  | slabHead =>
    cases h
    exact (pagesOnly_pageSetState s .slabHead hpage).trans (pagesOnly_forPages _ (fun _ pg =>
        { pg with state := PageState.slabTail, data := PageData.slabTail page })
        (fun _ _ => rfl) _ _ htails)
  | table =>
    cases h
    exact pagesOnly_pageSetState s .table hpage
  | largeHead =>
    cases h
    exact (pagesOnly_pageSetState s .largeHead hpage).trans (pagesOnly_forPages _ (fun _ pg =>
        { pg with state := PageState.largeTail, data := PageData.largeTail 1 page })
        (fun _ _ => rfl) _ _ htails)
  | _ => cases h

/-- All that `setup_alloced_page` stores is a member of the union of the first page. -/
theorem setupAllocedPage_eq (h : s.setupAllocedPage page state order info = .ok s') :
    ∃ data, s' = s.setData page data := by
  cases state with
  | used =>
    rw [setupAllocedPage_used] at h
    cases h
    exact ⟨_, rfl⟩
  | slabHead =>
    cases h
    exact ⟨_, rfl⟩
  | table =>
    cases h
    exact ⟨_, rfl⟩
  | largeHead =>
    cases info with
    | none => cases h
    | some info =>
      cases h
      exact ⟨_, rfl⟩
  | _ => cases h

theorem setupAllocedPage_pagesOnly (h : s.setupAllocedPage page state order info = .ok s') :
    PagesOnly s s' (Set.Ico page (page + 2 ^ order)) := by
  obtain ⟨data, rfl⟩ := setupAllocedPage_eq h
  exact pagesOnly_modifyPage s page _ (fun _ => rfl) ⟨le_rfl, Nat.lt_add_of_pos_right (Nat.two_pow_pos order)⟩

/-! ## Cutting up one block -/

/--
The block `b` was taken off its list and the `n` pages of `rest`, all of them pages of `b`, were
put back on the lists of the section.
-/
structure Carved (s s' : PageAlloc) (b : Block) (rest : Set Nat) (n : Nat) : Prop where
  sound : Sound s'
  same : SameLayout s s'
  freeSet : s'.freeSet = rest ∪ (s.freeSet \ b.pages)
  sectionFree : s'.sectionFree b.sec + 2 ^ b.order = s.sectionFree b.sec + n
  sectionFree_other : ∀ i < s.sectionCount, i ≠ b.sec → s'.sectionFree i = s.sectionFree i

theorem Removed.carved (h : Removed s s' b) (hs : Sound s) (hb : b ∈ s.blocks) :
    Carved s s' b ∅ 0 where
  sound := h.sound hs hb
  same := h.same
  freeSet := by rw [h.freeSet hs hb, Set.empty_union]
  sectionFree := by rw [h.sectionFree hb, add_zero]
  sectionFree_other _ hi hne := h.sectionFree_other hi hne

section Carving

variable {s'' : PageAlloc} {rest run : Set Nat} {n m : Nat}

section

variable (h : Carved s s' b rest n)
include h

theorem Carved.disjoint (hrun : run ⊆ b.pages) (hrest : Disjoint run rest) : Disjoint run s'.freeSet := by
  rw [h.freeSet]
  refine hrest.union_right ?_
  rw [Set.disjoint_left]
  intro q hq hq'
  exact hq'.2 (hrun hq)

theorem Carved.inside (hs : Sound s) (hb : b ∈ s.blocks) (hrun : run ⊆ b.pages) :
    run ⊆ s'.sectionPages b.sec := by
  rw [h.same.sectionPages]
  exact hrun.trans (hs.inside b hb)

theorem Carved.freed (h' : Freed s' s'' b.sec run m) :
    Carved s s'' b (run ∪ rest) (n + m) where
  sound := h'.sound
  same := h.same.trans h'.same
  freeSet := by rw [h'.freeSet, h.freeSet, Set.union_assoc]
  sectionFree := by
    have := h.sectionFree
    rw [h'.sectionFree]
    omega
  sectionFree_other i hi hne := by
    rw [h'.sectionFree_other i hne, h.sectionFree_other i hi hne]

theorem Carved.quiet (h' : Quiet s' s'' run) (hrun : run ⊆ b.pages) (hrest : Disjoint run rest) :
    Carved s s'' b rest n where
  sound := h'.sound h.sound (h.disjoint hrun hrest)
  same := h.same.trans h'.same
  freeSet := by rw [h'.freeSet, h.freeSet]
  sectionFree := by rw [h'.sectionFree, h.sectionFree]
  sectionFree_other i hi hne := by rw [h'.sectionFree, h.sectionFree_other i hi hne]

end

end Carving

/--
The `2 ^ order` pages from `page` on were cut out of the free block `b`; the other pages of `b`
are free still, and section and zone were charged for what is gone.
-/
structure Cut (s s' : PageAlloc) (b : Block) (order page : Nat) : Prop where
  block : b ∈ s.blocks
  sub : Set.Ico page (page + 2 ^ order) ⊆ b.pages
  le : 2 ^ order ≤ 2 ^ b.order
  carved : Carved s s' b (b.pages \ Set.Ico page (page + 2 ^ order)) (2 ^ b.order - 2 ^ order)
  charged : ∃ f, Shift s s' b.sec f ∧ ∀ x, 2 ^ b.order ≤ x → x < U64 → f x + 2 ^ order = x

theorem Cut.freeSet (h : Cut s s' b order page) :
    s'.freeSet = s.freeSet \ Set.Ico page (page + 2 ^ order) := by
  have hfree : b.pages ⊆ s.freeSet := subset_biUnion_of_mem (u := Block.pages) h.block
  rw [h.carved.freeSet]
  ext q
  constructor
  · rintro (⟨hq, hq'⟩ | ⟨hq, hq'⟩)
    · exact ⟨hfree hq, hq'⟩
    · exact ⟨hq, fun hin => hq' (h.sub hin)⟩
  · rintro ⟨hq, hq'⟩
    by_cases hqb : q ∈ b.pages
    · exact .inl ⟨hqb, hq'⟩
    · exact .inr ⟨hq, hqb⟩

theorem Cut.sectionFree (h : Cut s s' b order page) :
    s'.sectionFree b.sec + 2 ^ order = s.sectionFree b.sec := by
  have hsize := h.carved.sectionFree
  have hle := h.le
  omega

theorem Cut.pagesOnly {s'' : PageAlloc} (h : Cut s s' b order page)
    (h' : PagesOnly s' s'' (Set.Ico page (page + 2 ^ order))) : Cut s s'' b order page where
  block := h.block
  sub := h.sub
  le := h.le
  carved := h.carved.quiet h'.quiet h.sub Set.disjoint_sdiff_right
  charged := by
    obtain ⟨f, hshift, hf⟩ := h.charged
    exact ⟨_, hshift.trans (h.carved.same.zone b.sec) (h'.shift b.sec), hf⟩

/-- **What a call that returned `page` did**: the `2 ^ order` pages from `page` on are gone. -/
structure Allocated (s s' : PageAlloc) (order page : Nat) : Prop where
  wellFormed : WellFormed s'
  same : SameLayout s s'
  /-- The pages handed out were part of one free block, and its section and zone pay for them. -/
  block : ∃ b ∈ s.blocks, Set.Ico page (page + 2 ^ order) ⊆ b.pages ∧
    Dropped s s' b.sec (2 ^ order)
  freeSet : s'.freeSet = s.freeSet \ Set.Ico page (page + 2 ^ order)

theorem Cut.allocated (hw : WellFormed s) (h : Cut s s' b order page) :
    Allocated s s' order page := by
  obtain ⟨f, hshift, hf⟩ := h.charged
  have hdrop := hshift.dropped hw h.block hf
  refine ⟨hw.shift (n := 2 ^ order) (m := 0) h.carved.sound h.carved.same h.block.1 hshift ?_ ?_
    h.carved.sectionFree_other, h.carved.same, ⟨b, h.block, h.sub, hdrop⟩, h.freeSet⟩
  · rw [← hshift.section_, ← hshift.zone, Nat.add_zero, Nat.add_zero]
    exact ⟨hdrop.section_, hdrop.zone⟩
  · rw [Nat.add_zero, h.sectionFree]

/-! ## Splitting -/

/--
The pieces above the wanted one. Going down one order puts the upper half of what is left on
its list; the pages of that half are tail pages of the old block still, and the lower half is
untouched, which is what the next turn needs.
-/
theorem splitDown_freed (page order : Nat) : ∀ (n : Nat) {s : PageAlloc},
    Sound s → sec < s.sectionCount → order + n ≤ MAX_ORDER →
    Set.Ico page (page + 2 ^ (order + n)) ⊆ s.sectionPages sec →
    Disjoint (Set.Ico page (page + 2 ^ (order + n))) s.freeSet →
    (∀ q, page < q → q < page + 2 ^ (order + n) → (s.pages q).state = .freeListTail) →
    Freed s (s.splitDown sec page order n) sec
      (Set.Ico (page + 2 ^ order) (page + 2 ^ (order + n))) (2 ^ (order + n) - 2 ^ order) ∧
    Shift s (s.splitDown sec page order n) sec id
  | 0, s, hs, _, _, _, _, _ => by
    refine ⟨⟨hs, .refl s, Set.Subset.refl _, ?_, ?_, fun _ _ => rfl, fun _ _ => rfl⟩, .refl s sec⟩
    · simp [splitDown]
    · simp [splitDown]
  | n + 1, s, hs, hsec, hmax, hin, hfree, htails => by
    have hpos := Nat.two_pow_pos (order + n)
    have hdouble : 2 ^ (order + (n + 1)) = 2 ^ (order + n) + 2 ^ (order + n) := by
      rw [show order + (n + 1) = (order + n) + 1 by omega, pow_succ]
      omega
    have hbase : 2 ^ order ≤ 2 ^ (order + n) := Nat.pow_le_pow_right (by decide) (by omega)
    rw [hdouble] at hin hfree htails ⊢
    -- the upper half becomes a block of its own
    have hupper : Block.pages ⟨sec, order + n, page + 2 ^ (order + n)⟩
        ⊆ Set.Ico page (page + (2 ^ (order + n) + 2 ^ (order + n))) :=
      Set.Ico_subset_Ico (by simp) (by simp [add_assoc])
    have hadded : Added s _ ⟨sec, order + n, page + 2 ^ (order + n)⟩ :=
      addToFreelistOrderFromHigher_added s sec fun q hq hq' => htails q (by omega) (by omega)
    have hup := hadded.freed hs hsec (by simp only; omega) (hupper.trans hin)
      (hfree.mono_left hupper)
    -- the lower half is what is left to split
    have hlower : Set.Ico page (page + 2 ^ (order + n))
        ⊆ Set.Ico page (page + (2 ^ (order + n) + 2 ^ (order + n))) :=
      Set.Ico_subset_Ico_right (by omega)
    have hapart : Disjoint (Set.Ico page (page + 2 ^ (order + n)))
        (Block.pages ⟨sec, order + n, page + 2 ^ (order + n)⟩) := Set.Ico_disjoint_Ico_same
    obtain ⟨hrec, hshift⟩ := splitDown_freed page order n hup.sound
      (by rw [hup.same.sectionCount]; exact hsec) (by omega)
      (by rw [hup.same.sectionPages]; exact hlower.trans hin)
      (by rw [hup.freeSet]; exact hapart.union_right (hfree.mono_left hlower))
      (by
        intro q hq hq'
        rw [hup.pages q fun hb => disjoint_left.mp hapart ⟨hq.le, hq'⟩ hb]
        exact htails q hq (by omega))
    refine ⟨?_, ?_⟩
    · have hall := hup.trans hrec
      have hunion : Block.pages ⟨sec, order + n, page + 2 ^ (order + n)⟩
            ∪ Set.Ico (page + 2 ^ order) (page + 2 ^ (order + n))
          = Set.Ico (page + 2 ^ order) (page + (2 ^ (order + n) + 2 ^ (order + n))) := by
        ext q
        simp only [Block.mem_pages, mem_union, mem_Ico]
        omega
      have hsum : 2 ^ (order + n) + (2 ^ (order + n) - 2 ^ order)
          = 2 ^ (order + n) + 2 ^ (order + n) - 2 ^ order := by omega
      rw [hunion, hsum] at hall
      exact hall
    · exact (addToFreelistOrderFromHigher_shift s sec (order + n) _).trans
        (hadded.same.zone sec) hshift

/-- The piece at the front of the block stays off the lists, the rest goes back. -/
theorem finishAlloc_cut (hs : Sound s) (hb : b ∈ s.blocks) (ho : order ≤ b.order)
    (hrun : s.takeOffFreelistOrder b.sec b.order b.page order = .ok s') :
    Cut s (s'.finishAlloc b.sec b.page order b.order) b order b.page := by
  obtain ⟨hrem, hshift⟩ := hs.takenOff hb hrun
  have hpos := Nat.two_pow_pos order
  have hle : 2 ^ order ≤ 2 ^ b.order := Nat.pow_le_pow_right (by decide) ho
  obtain ⟨n, hn⟩ := Nat.exists_eq_add_of_le ho
  have hcarved := hrem.carved hs hb
  have hall : Set.Ico b.page (b.page + 2 ^ (order + n)) ⊆ b.pages := by
    rw [← hn]
    exact Set.Subset.refl _
  obtain ⟨hfreed, hsplit⟩ := splitDown_freed b.page order n hcarved.sound
    (by rw [hrem.same.sectionCount]; exact hb.1) (by have := hb.2.1; omega)
    (hcarved.inside hs hb hall) (hcarved.disjoint hall (disjoint_empty _))
    (by
      intro q hq hq'
      rw [hrem.pages]
      exact (hs.marked b hb).tailState q hq (by rw [hn]; exact hq'))
  have hmax : order < MAX_ORDER := lt_of_le_of_lt ho hb.2.1
  have hcut := (hcarved.freed hfreed).quiet (quiet_widenOrders _ b.sec hmax)
    (empty_subset _) (empty_disjoint _)
  have hrest : Set.Ico (b.page + 2 ^ order) (b.page + 2 ^ (order + n)) ∪ ∅
      = b.pages \ Set.Ico b.page (b.page + 2 ^ order) := by
    rw [← hn]
    ext q
    simp only [union_empty, mem_Ico, mem_sdiff, Block.mem_pages]
    omega
  rw [hrest, zero_add, ← hn] at hcut
  have htotals := (hshift.trans (hrem.same.zone b.sec) hsplit).trans
    ((hfreed.same.zone b.sec).trans (hrem.same.zone b.sec)) (shift_widenOrders _ b.sec order)
  unfold finishAlloc
  rw [show b.order - order = n by omega]
  refine ⟨hb, Set.Ico_subset_Ico_right (Nat.add_le_add_left hle _), hle, hcut, _, htotals, ?_⟩
  intro x hx
  simp only [comp, id, sub64]
  rw [if_pos (by omega)]
  omega

/-! ## Looking for a block -/

theorem getFromFreelistOrder_cases (hs : Sound s) (hsec : sec < s.sectionCount) (ho : o < MAX_ORDER)
    (order : Nat) :
    (s.freelist sec o = [] ∧ s.getFromFreelistOrder sec o order = .ok (none, s)) ∨
    ∃ b s', s.getFromFreelistOrder sec o order = .ok (some b.page, s') ∧ b ∈ s.blocks ∧
      b.sec = sec ∧ b.order = o ∧
      s.takeOffFreelistOrder b.sec b.order b.page order = .ok s' := by
  have hcount : ((s.sections sec).freelistList o).count = (s.freelist sec o).length :=
    hs.count sec hsec o ho
  unfold getFromFreelistOrder
  rw [if_neg (not_le.mpr ho)]
  simp only [hcount]
  cases hlist : s.freelist sec o with
  | nil => exact .inl ⟨rfl, by simp⟩
  | cons page rest =>
    right
    have hb : (⟨sec, o, page⟩ : Block) ∈ s.blocks := by
      refine ⟨hsec, ho, ?_⟩
      simp only [hlist, mem_cons, true_or]
    obtain ⟨s', hrun, _⟩ := takeOffFreelistOrder_removed hs hb order
    refine ⟨⟨sec, o, page⟩, s', ?_, hb, rfl, rfl, hrun⟩
    have hlist' : ((s.sections sec).freelistList o).pageList = page :: rest := hlist
    simp [hlist', hrun]

/--
The scan of a section: every list it looked at was empty and nothing changed, or the first block
of a fitting order was taken off.
-/
theorem scanSection_cases (order : Nat) (hs : Sound s) (hsec : sec < s.sectionCount) :
    ∀ (n start : Nat), n ≤ MAX_ORDER - start →
    ((∀ o, start ≤ o → o < start + n → s.freelist sec o = []) ∧
      s.scanSection sec order start n = .ok (none, s)) ∨
    ∃ b s', s.scanSection sec order start n = .ok (some (b.page, b.order), s') ∧ b ∈ s.blocks ∧
      b.sec = sec ∧ start ≤ b.order ∧
      s.takeOffFreelistOrder b.sec b.order b.page order = .ok s'
  | 0, start, _ => .inl ⟨fun o h h' => by omega, rfl⟩
  | n + 1, start, hn => by
    rcases getFromFreelistOrder_cases hs hsec (o := start) (by omega) order with
      ⟨hempty, hnone⟩ | ⟨b, s', hsome, hb, hbsec, hbo, hrun⟩
    · have hstep : s.scanSection sec order start (n + 1)
          = s.scanSection sec order (start + 1) n := by
        rw [scanSection, hnone]
        rfl
      rw [hstep]
      rcases scanSection_cases order hs hsec n (start + 1) (by omega) with
        ⟨hrest, h⟩ | ⟨b, s', h, hb, hbsec, hle, hrun⟩
      · refine .inl ⟨?_, h⟩
        intro o hle hlt
        rcases eq_or_lt_of_le hle with rfl | hlt'
        · exact hempty
        · exact hrest o hlt' (by omega)
      · exact .inr ⟨b, s', h, hb, hbsec, by omega, hrun⟩
    · right
      refine ⟨b, s', ?_, hb, hbsec, by omega, hrun⟩
      rw [scanSection, hsome, hbo]
      rfl

/-- What a call may come back with: nothing at all, or a block that was handed out. -/
def AllocSpec (s : PageAlloc) (order : Nat) : Option Nat × PageAlloc → Prop
  | (none, s') => s' = s
  | (some page, s') => Allocated s s' order page

/-- The states a caller of `alloc_pages` asks for: the others end in `verify_not_reached()`. -/
def Allocatable (state : PageState) : Prop := state = .used ∨ state = .slabHead ∨ state = .table

/-- A call that came back as specified, or was made for a state it is not meant for. -/
def Outcome {α : Type} (state : PageState) (spec : α → Prop) : Result α → Prop
  | .ok r => spec r
  | .error _ => ¬ Allocatable state

theorem Outcome.mono {spec spec' : α → Prop} (h : Outcome state spec r)
    (himp : ∀ a, spec a → spec' a) : Outcome state spec' r := by
  cases r with
  | ok a => exact himp a h
  | error e => exact h

theorem Outcome.of_run (h : ∀ e, r = .error e → ¬ Allocatable state) :
    Outcome state (fun a => r = .ok a) r := by
  cases r with
  | ok a => exact rfl
  | error e => exact h e rfl

theorem Outcome.bind {β : Type} {spec : α → Prop} {spec' : β → Prop}
    {f : α → Result β} (h : Outcome state spec r) (hf : ∀ a, spec a → Outcome state spec' (f a)) :
      Outcome state spec' (r >>= f) := by
  cases r with
  | ok a => exact hf a h
  | error e => exact h

/-- A search that came back empty-handed changed nothing, and what it says then holds of `s`. -/
def Searched (s : PageAlloc) (nothing : Prop) (got : Nat → PageAlloc → Prop) :
    Option Nat × PageAlloc → Prop
  | (none, s') => s' = s ∧ nothing
  | (some page, s') => got page s'

theorem Searched.mono {nothing nothing' : Prop} {got got' : Nat → PageAlloc → Prop}
    {r : Option Nat × PageAlloc} (h : Searched s nothing got r) (hnone : nothing → nothing')
    (hsome : ∀ page s', got page s' → got' page s') : Searched s nothing' got' r := by
  obtain ⟨_ | page, s'⟩ := r
  · exact ⟨h.1, hnone h.2⟩
  · exact hsome page s' h

/-- No section of the list has a block that the scan of its orders would meet. -/
def NoneListed (s : PageAlloc) (order : Nat) (secs : List Nat) : Prop :=
  ∀ sec ∈ secs, ∀ o, max order (s.sections sec).minOrder ≤ o → o < (s.sections sec).maxOrder →
    s.freelist sec o = []

/--
`try_alloc_pages_from_zone` found the block `b`, took it off its list, put back what it does not
need and set up the pages it keeps.
-/
structure Tried (s : PageAlloc) (b : Block) (order : Nat) (state : PageState) (s' : PageAlloc) :
    Prop where
  block : b ∈ s.blocks
  fits : order ≤ b.order
  run : ∃ t, s.takeOffFreelistOrder b.sec b.order b.page order = .ok t ∧
    (t.finishAlloc b.sec b.page order b.order).setupPagesOffFreelist b.page order state = .ok s'

/-- Why a zone has nothing to give. -/
def Exhausted (s : PageAlloc) (lockFails : Nat → Bool) (order zone : Nat) : Prop :=
  (s.zones zone).totalFree < 2 ^ order ∨
    NoneListed s order ((s.zones zone).sectionList.filter fun sec => !lockFails sec)

/-- **What `alloc_pages` did to come back with `page`.** -/
def Served (s : PageAlloc) (order : Nat) (state : PageState) (page : Nat) (s' : PageAlloc) :
    Prop :=
  ∃ b t, b.page = page ∧ Tried s b order state t ∧
    t.setupAllocedPage page state order none = .ok s'

section Search

variable (hs : Sound s) (lockFails : Nat → Bool)
include hs

theorem tryAllocFromSections_outcome (order : Nat) (state : PageState) :
    ∀ secs : List Nat, (∀ sec ∈ secs, sec < s.sectionCount) →
    Outcome state
      (Searched s (NoneListed s order (secs.filter fun sec => !lockFails sec))
        fun page s' => ∃ b, b.page = page ∧ Tried s b order state s')
      (s.tryAllocFromSections lockFails order state secs)
  | [], _ => ⟨rfl, fun sec hsec => absurd hsec not_mem_nil⟩
  | sec :: rest, hsecs => by
    have hrest := tryAllocFromSections_outcome order state rest fun i hi =>
      hsecs i (.tail _ hi)
    have hsec := hsecs sec mem_cons_self
    have hmax := hs.maxOrder sec hsec
    rw [tryAllocFromSections]
    split
    · rename_i hlock
      rw [filter_cons_of_neg (by simp [hlock])]
      exact hrest
    · rename_i hlock
      rw [filter_cons_of_pos (by simp [hlock])]
      dsimp only
      rcases scanSection_cases order hs hsec
          ((s.sections sec).maxOrder - max order (s.sections sec).minOrder)
          (max order (s.sections sec).minOrder) (by omega) with
        ⟨hempty, hnone⟩ | ⟨b, t, hsome, hb, hbsec, hle, hrun⟩
      · rw [hnone]
        refine hrest.mono fun r h => h.mono ?_ fun _ _ h => h
        intro hnone i hi
        rcases mem_cons.mp hi with rfl | hi
        · intro o ho ho'
          exact hempty o ho (by omega)
        · exact hnone i hi
      · rw [hsome]
        subst hbsec
        refine (Outcome.of_run (r := setupPagesOffFreelist _ _ _ _) fun _ h => ?_).bind ?_
        · rintro (rfl | rfl | rfl) <;> simp [setupPagesOffFreelist] at h
        intro s' hset
        exact ⟨b, rfl, hb, by omega, t, hrun, hset⟩

theorem tryAllocPagesFromZone_outcome (hzone : zone < s.zoneCount) (order : Nat)
    (state : PageState) :
    Outcome state
      (Searched s (Exhausted s lockFails order zone)
        fun page s' => ∃ b, b.page = page ∧ Tried s b order state s')
      (s.tryAllocPagesFromZone lockFails zone order state) := by
  unfold tryAllocPagesFromZone
  split
  · rename_i hlow
    exact ⟨rfl, .inl hlow⟩
  · refine (tryAllocFromSections_outcome hs lockFails order state _ fun sec hsec =>
      (hs.layout.listed zone hzone sec hsec).1).mono ?_
    intro r h
    exact h.mono .inr fun _ _ h => h

theorem allocFromZones_outcome (state : PageState) (order : Nat) :
    ∀ zones : List Nat, (∀ zone ∈ zones, zone < s.zoneCount) →
    Outcome state
      (Searched s (∀ zone ∈ zones, Exhausted s lockFails order zone) (Served s order state))
      (s.allocFromZones lockFails state order zones)
  | [], _ => ⟨rfl, fun zone hzone => absurd hzone not_mem_nil⟩
  | zone :: rest, hzones => by
    have hrest := allocFromZones_outcome state order rest fun i hi =>
      hzones i (.tail _ hi)
    refine (tryAllocPagesFromZone_outcome hs lockFails (hzones zone mem_cons_self)
      order state).bind ?_
    rintro ⟨_ | page, t⟩ h
    · -- this zone is exhausted, the search goes on where it was
      obtain ⟨rfl, hout⟩ := h
      refine hrest.mono fun r h => h.mono ?_ fun _ _ h => h
      intro hnone i hi
      rcases mem_cons.mp hi with rfl | hi
      · exact hout
      · exact hnone i hi
    · obtain ⟨b, hpage, htried⟩ := h
      refine (Outcome.of_run fun _ h => ?_).bind ?_
      · rintro (rfl | rfl | rfl) <;> simp [setupAllocedPage] at h
      intro s' hset
      exact ⟨b, t, hpage, htried, hset⟩

omit hs in
theorem mem_zonesFrom {z : Nat} (h : z ∈ s.zonesFrom zone) :
    z < s.zoneCount :=
  mem_range.mp (mem_of_mem_drop h)

/-- `alloc_pages` serves the call, or no zone had anything to give. -/
theorem allocPages_searched (state : PageState) (order : Nat) :
    Outcome state
      (Searched s (order < MAX_ORDER →
          ∀ zone ∈ s.zonesFrom s.zoneDefault, Exhausted s lockFails order zone)
        (Served s order state))
      (s.allocPages lockFails state order) := by
  unfold allocPages
  split
  · rename_i hmax
    exact ⟨rfl, fun hlt => absurd hmax (not_le.mpr hlt)⟩
  · refine (allocFromZones_outcome hs lockFails state order _ fun _ hz => mem_zonesFrom hz).mono ?_
    intro r h
    exact h.mono (fun hnone _ => hnone) fun _ _ h => h

end Search

theorem Served.cut (hs : Sound s) (h : Served s order state page s') :
    ∃ b, Cut s s' b order page := by
  obtain ⟨b, t, rfl, ⟨hb, hfits, u, hrun, hset⟩, hset'⟩ := h
  exact ⟨b, ((finishAlloc_cut hs hb hfits hrun).pagesOnly (setupPagesOffFreelist_pagesOnly hset)).pagesOnly
    (setupAllocedPage_pagesOnly hset')⟩

theorem allocPages_served (hs : Sound s) {lockFails : Nat → Bool}
    (h : s.allocPages lockFails state order = .ok (some page, s')) :
    Served s order state page s' := by
  have hout := allocPages_searched hs lockFails state order
  rw [h] at hout
  exact hout

theorem allocPages_outcome (hw : WellFormed s) (lockFails : Nat → Bool) (state : PageState)
    (order : Nat) :
    Outcome state (AllocSpec s order) (s.allocPages lockFails state order) := by
  refine (allocPages_searched hw.toSound lockFails state order).mono ?_
  rintro ⟨_ | page, s'⟩ h
  · exact h.1
  · have hserved : Served s order state page s' := h
    obtain ⟨b, hcut⟩ := hserved.cut hw.toSound
    exact hcut.allocated hw

/-! ## Large pages -/

section

variable (hl : Layout s) (hsec : sec < s.sectionCount) (hp : page ∈ s.sectionPages sec)
include hl hsec hp

theorem pageToPhys_eq :
    s.pageToPhys page = (s.sections sec).front + (page - (s.sections sec).pfn) * PAGE_SIZE := by
  simp only [pageToPhys, hl.pageSect sec hsec page hp]

theorem pageToPhys_add {k : Nat} (hp' : page + k ∈ s.sectionPages sec) :
    s.pageToPhys (page + k) = s.pageToPhys page + k * PAGE_SIZE := by
  rw [pageToPhys_eq hl hsec hp, pageToPhys_eq hl hsec hp']
  have hle : (s.sections sec).pfn ≤ page := hp.1
  rw [show page + k - (s.sections sec).pfn = (page - (s.sections sec).pfn) + k by omega]
  ring

theorem pageSize_dvd_pageToPhys :
    PAGE_SIZE ∣ s.pageToPhys page := by
  rw [pageToPhys_eq hl hsec hp]
  exact dvd_add (hl.aligned sec hsec) (dvd_mul_left _ _)

end

theorem pageToPhys_block_le (hs : Sound s) (hb : b ∈ s.blocks) :
    s.pageToPhys b.page + 2 ^ b.order * PAGE_SIZE ≤ 2 ^ 64 := by
  have hin := hs.inside b hb
  have hpos := Nat.two_pow_pos b.order
  have hfits := hs.layout.fits b.sec hb.1
  have hfirst := hin b.page_mem
  have hlast : b.page + 2 ^ b.order - 1 ∈ s.sectionPages b.sec :=
    hin ⟨by omega, by omega⟩
  have hfirst1 : (s.sections b.sec).pfn ≤ b.page := hfirst.1
  have hlast2 : b.page + 2 ^ b.order - 1
      < (s.sections b.sec).pfn + (s.sections b.sec).size / PAGE_SIZE := hlast.2
  rw [pageToPhys_eq hs.layout hb.1 hfirst]
  have hcount : b.page - (s.sections b.sec).pfn + 2 ^ b.order
      ≤ (s.sections b.sec).size / PAGE_SIZE := by omega
  have hbytes := (Nat.mul_le_mul_right PAGE_SIZE hcount).trans (Nat.div_mul_le_self _ _)
  rw [add_mul] at hbytes
  omega

theorem pageSize_mul_two_pow (order : Nat) : PAGE_SIZE * 2 ^ order = 2 ^ (PAGE_SHIFT + order) :=
  (pow_add 2 PAGE_SHIFT order).symm

/-- The large page is set up and what is left of the block behind it goes back on the lists. -/
theorem carveTail_carved (order page : Nat) (hs : Sound s) (hb : b ∈ s.blocks)
    (hpage : b.page ≤ page) (hend : page + 2 ^ order ≤ b.page + 2 ^ b.order)
    (h : Carved s s' b (Set.Ico b.page page) (page - b.page)) :
    ∃ s'' f, carveLarge.carveTail b.sec b.order order b.page s' page = .ok (some page, s'') ∧
      Carved s s'' b (b.pages \ Set.Ico page (page + 2 ^ order)) (2 ^ b.order - 2 ^ order) ∧
      Shift s' s'' b.sec f ∧ ∀ x, x + (b.page + 2 ^ b.order - (page + 2 ^ order)) < U64 →
        f x = x + (b.page + 2 ^ b.order - (page + 2 ^ order)) := by
  have hpos := Nat.two_pow_pos order
  obtain ⟨t, ht⟩ : ∃ t, s'.setupPagesOffFreelist page order .largeHead = .ok t := ⟨_, rfl⟩
  have hsetup := setupPagesOffFreelist_pagesOnly ht
  have hcarved := h.quiet hsetup.quiet (Set.Ico_subset_Ico hpage hend) Set.Ico_disjoint_Ico_same.symm
  -- what is left are the pages before the large page and those behind it, if there are any
  have hset : Set.Ico (page + 2 ^ order)
        (page + 2 ^ order + (b.page + 2 ^ b.order - (page + 2 ^ order))) ∪ Set.Ico b.page page
      = b.pages \ Set.Ico page (page + 2 ^ order) := by
    ext q
    simp only [mem_union, mem_Ico, mem_sdiff, Block.mem_pages]
    omega
  have hsum : page - b.page + (b.page + 2 ^ b.order - (page + 2 ^ order))
      = 2 ^ b.order - 2 ^ order := by omega
  rw [← hset, ← hsum]
  unfold carveLarge.carveTail
  rw [ht]
  simp only [ok_bind]
  split
  · have htail : Set.Ico (page + 2 ^ order)
        (page + 2 ^ order + (b.page + 2 ^ b.order - (page + 2 ^ order))) ⊆ b.pages :=
      Set.Ico_subset_Ico (by omega) (by omega)
    obtain ⟨s'', hrun, hfreed⟩ := freeRangeOfPages_freed hcarved.sound
      (by rw [hcarved.same.sectionCount]; exact hb.1) (by omega)
      (hcarved.inside hs hb htail) (hcarved.disjoint htail (Set.Ico_disjoint_Ico.mpr (by omega)))
    rw [hrun]
    exact ⟨s'', _, rfl, hcarved.freed hfreed, (hsetup.shift b.sec).trans
      (hsetup.quiet.same.zone b.sec) (freeRangeOfPages_shift hrun), fun _ hlt => Nat.mod_eq_of_lt hlt⟩
  case isFalse hzero =>
    rw [show b.page + 2 ^ b.order - (page + 2 ^ order) = 0 by omega, add_zero, add_zero,
      Set.Ico_self, empty_union]
    exact ⟨t, _, rfl, hcarved, hsetup.shift b.sec, fun _ _ => rfl⟩

theorem two_mul_two_pow_le (ho : order < o) : 2 * 2 ^ order ≤ 2 ^ o := by
  calc 2 * 2 ^ order = 2 ^ (order + 1) := by rw [pow_succ]; omega
    _ ≤ 2 ^ o := Nat.pow_le_pow_right (by decide) ho

/--
Where the aligned page inside the block is. The block has room for two pages of the wanted
order, so rounding up neither leaves the address space nor the block.
-/
theorem alignUp_block (hs : Sound s) (hb : b ∈ s.blocks) (ho : order < b.order)
    (hmis : ¬ PAGE_SIZE * 2 ^ order ∣ s.pageToPhys b.page) :
    ∃ phys k, alignUp (s.pageToPhys b.page) (PAGE_SIZE * 2 ^ order) = some phys ∧
      (phys - s.pageToPhys b.page) / PAGE_SIZE = k ∧ 1 ≤ k ∧ k < 2 ^ order ∧
      PAGE_SIZE * 2 ^ order ∣ s.pageToPhys (b.page + k) := by
  have hps : 0 < PAGE_SIZE := Nat.two_pow_pos _
  have hroom := pageToPhys_block_le hs hb
  have htwo := two_mul_two_pow_le ho
  have hbytes : PAGE_SIZE * 2 ^ order * 2 ≤ 2 ^ b.order * PAGE_SIZE := by
    calc PAGE_SIZE * 2 ^ order * 2 = 2 * 2 ^ order * PAGE_SIZE := by ring
      _ ≤ _ := Nat.mul_le_mul_right _ htwo
  have hpos : 0 < PAGE_SIZE * 2 ^ order := mul_pos hps (Nat.two_pow_pos _)
  have hk : PAGE_SHIFT + order ≤ 64 := by
    have h1 := hb.2.1
    have h2 : MAX_ORDER = 21 := rfl
    have h3 : PAGE_SHIFT = 12 := rfl
    omega
  cases hup : alignUp (s.pageToPhys b.page) (PAGE_SIZE * 2 ^ order) with
  | none =>
    rw [pageSize_mul_two_pow, alignUp_eq_none, ← pageSize_mul_two_pow] at hup
    omega
  | some phys =>
    rw [pageSize_mul_two_pow] at hup
    obtain ⟨hdvd, hge, hlt, _⟩ := alignUp_two_pow hk hup
    rw [← pageSize_mul_two_pow] at hdvd hlt
    have hin := hs.inside b hb
    have hfirst := hin b.page_mem
    have hsub : PAGE_SIZE ∣ phys - s.pageToPhys b.page :=
      Nat.dvd_sub (Dvd.dvd.trans (dvd_mul_right _ _) hdvd)
        (pageSize_dvd_pageToPhys hs.layout hb.1 hfirst)
    obtain ⟨k, hkeq⟩ := hsub
    have hphys : phys = s.pageToPhys b.page + k * PAGE_SIZE := by
      rw [mul_comm]
      omega
    have hklt : k < 2 ^ order := by
      refine Nat.lt_of_mul_lt_mul_left (a := PAGE_SIZE) ?_
      omega
    have hkpos : 1 ≤ k := by
      rcases Nat.eq_zero_or_pos k with rfl | h
      · refine absurd ?_ hmis
        rw [zero_mul, add_zero] at hphys
        rw [← hphys]
        exact hdvd
      · exact h
    refine ⟨phys, k, rfl, ?_, hkpos, hklt, ?_⟩
    · rw [hkeq, Nat.mul_div_cancel_left k hps]
    · rw [pageToPhys_add hs.layout hb.1 hfirst (hin ⟨by omega, by omega⟩), ← hphys]
      exact hdvd

/-- Handed out, and aligned to its own size. -/
def LargeSpec (s : PageAlloc) (order : Nat) (r : Option Nat × PageAlloc) : Prop :=
  AllocSpec s order r ∧ ∀ page ∈ r.1, PAGE_SIZE * 2 ^ order ∣ s.pageToPhys page

theorem carveLarge_cut (hs : Sound s) (hb : b ∈ s.blocks) (ho : order < b.order) :
    ∃ page s', s.carveLarge b.sec b.order order b.page = .ok (some page, s') ∧
      Cut s s' b order page ∧ PAGE_SIZE * 2 ^ order ∣ s.pageToPhys page ∧
        page < b.page + 2 ^ order := by
  have hlt : 2 ^ order < 2 ^ b.order := Nat.pow_lt_pow_right (by decide) ho
  obtain ⟨s1, hrun, hrem, hshift⟩ := takeOffFreelistOrder_removed hs hb b.order
  have hcarved := hrem.carved hs hb
  -- the pages in front of the first aligned one go back first
  obtain ⟨page, s2, f, hfront, hpage, hend, hcarved, hshift, hf, hdvd, hfirst⟩ : ∃ page s2 f,
      s.carveLarge b.sec b.order order b.page
        = carveLarge.carveTail b.sec b.order order b.page s2 page ∧
      b.page ≤ page ∧ page + 2 ^ order ≤ b.page + 2 ^ b.order ∧
      Carved s s2 b (Set.Ico b.page page) (page - b.page) ∧ Shift s s2 b.sec f ∧
      (∀ x, 2 ^ b.order ≤ x → x < U64 → f x + 2 ^ b.order = x + (page - b.page)) ∧
      PAGE_SIZE * 2 ^ order ∣ s.pageToPhys page ∧ page < b.page + 2 ^ order := by
    have hpos := Nat.two_pow_pos order
    have hsub : ∀ x, 2 ^ b.order ≤ x → sub64 x (2 ^ b.order) + 2 ^ b.order = x := by
      intro x hx
      rw [sub64, if_pos hx]
      omega
    unfold carveLarge
    simp only [hrun, ok_bind, pageSize_mul_two_pow, hasAlign_two_pow]
    rw [← pageSize_mul_two_pow]
    split
    case isTrue halign =>
      refine ⟨b.page, s1, _, rfl, le_rfl, by omega, ?_, hshift, ?_, halign, by omega⟩
      · rw [Set.Ico_self, Nat.sub_self]
        exact hcarved
      · intro x hx _
        rw [hsub x hx]
        omega
    case isFalse halign =>
      obtain ⟨phys, k, hup, hdiv, hk1, hk2, hdvd⟩ := alignUp_block hs hb ho halign
      have htwo := two_mul_two_pow_le ho
      have hfront : Set.Ico b.page (b.page + k) ⊆ b.pages := Set.Ico_subset_Ico_right (by omega)
      obtain ⟨s2, hfree, hfreed⟩ := freeRangeOfPages_freed hcarved.sound
        (by rw [hrem.same.sectionCount]; exact hb.1) hk1
        (hcarved.inside hs hb hfront) (hcarved.disjoint hfront (disjoint_empty _))
      have hcarved2 := hcarved.freed hfreed
      rw [union_empty, zero_add] at hcarved2
      rw [hup]
      simp only [hdiv, Nat.add_sub_cancel_left, hfree]
      refine ⟨b.page + k, s2, _, rfl, by omega, by omega, ?_,
        hshift.trans (hrem.same.zone b.sec) (freeRangeOfPages_shift hfree), ?_, hdvd, by omega⟩
      · rw [Nat.add_sub_cancel_left]
        exact hcarved2
      · intro x hx hmax
        have := hsub x hx
        simp only [comp, add64]
        rw [Nat.mod_eq_of_lt (by omega)]
        omega
  obtain ⟨s3, g, htail, hcut, hsh, hg⟩ := carveTail_carved order page hs hb hpage hend hcarved
  refine ⟨page, s3, hfront.trans htail, ⟨hb, Set.Ico_subset_Ico hpage hend, hlt.le, hcut, _,
    hshift.trans (hcarved.same.zone b.sec) hsh, ?_⟩, hdvd, hfirst⟩
  intro x hx hmax
  have := hf x hx hmax
  have hpos := Nat.two_pow_pos order
  simp only [comp]
  rw [hg (f x) (by omega)]
  omega

theorem pickAligned_eq_find {align : Nat} : ∀ l : List Nat,
    s.pickAligned align l = l.find? fun page => hasAlign (s.pageToPhys page) align
  | [] => rfl
  | head :: rest => by
    rw [pickAligned, find?_cons, pickAligned_eq_find rest]
    cases hasAlign (s.pageToPhys head) align <;> rfl

/--
What `get_large_from_freelist_order` did to come back with `page`: it took a block of the wanted
order as it was, or carved the page out of a larger block.
-/
inductive Took (s : PageAlloc) (b : Block) (order page : Nat) (s' : PageAlloc) : Prop
  | whole (t : PageAlloc) (order_eq : b.order = order) (page_eq : b.page = page)
      (aligned : PAGE_SIZE * 2 ^ order ∣ s.pageToPhys page)
      (off : s.takeOffFreelistOrder b.sec b.order b.page b.order = .ok t)
      (setup : t.setupPagesOffFreelist page order .largeHead = .ok s')
  | carved (order_lt : order < b.order)
      (run : s.carveLarge b.sec b.order order b.page = .ok (some page, s'))

theorem Took.cut (hs : Sound s) (hb : b ∈ s.blocks) (h : Took s b order page s') :
    Cut s s' b order page ∧ PAGE_SIZE * 2 ^ order ∣ s.pageToPhys page ∧
      page < b.page + 2 ^ order := by
  cases h with
  | whole t ho hp haligned hoff hset =>
    subst ho
    subst hp
    obtain ⟨hrem, hshift⟩ := hs.takenOff hb hoff
    have hself : b.pages \ Set.Ico b.page (b.page + 2 ^ b.order) = ∅ := Set.sdiff_self
    have hcut : Cut s t b b.order b.page := by
      refine ⟨hb, Set.Subset.refl _, le_rfl, ?_, _, hshift, ?_⟩
      · rw [hself, Nat.sub_self]
        exact hrem.carved hs hb
      · intro x hx _
        simp only [sub64]
        rw [if_pos hx]
        omega
    exact ⟨hcut.pagesOnly (setupPagesOffFreelist_pagesOnly hset), haligned,
      Nat.lt_add_of_pos_right (Nat.two_pow_pos _)⟩
  | carved ho hrun =>
    obtain ⟨page', t, hrun', hplace⟩ := carveLarge_cut hs hb ho
    rw [hrun] at hrun'
    injection hrun' with he
    obtain ⟨rfl, rfl⟩ : page = page' ∧ s' = t := by simpa using he
    exact hplace

/-- The blocks a scan of a section's orders looks at, `n` orders from `start` on. -/
def blocksFrom (s : PageAlloc) (sec start n : Nat) : List Block :=
  (range' start n).flatMap fun o => (s.freelist sec o).map fun page => ⟨sec, o, page⟩

/-- The blocks `try_alloc_large_page_from_zone` looks at, section by section. -/
def sectionBlocks (s : PageAlloc) (lockFails : Nat → Bool) (order : Nat) (secs : List Nat) :
    List Block :=
  (secs.filter fun sec => !lockFails sec).flatMap fun sec =>
    s.blocksFrom sec (max order (s.sections sec).minOrder)
      ((s.sections sec).maxOrder - max order (s.sections sec).minOrder)

/-- The blocks `alloc_large_page` looks at, zone by zone. -/
def zoneBlocks (s : PageAlloc) (lockFails : Nat → Bool) (order : Nat) (zones : List Nat) :
    List Block :=
  (zones.filter fun zone => 2 ^ order ≤ (s.zones zone).totalFree).flatMap fun zone =>
    s.sectionBlocks lockFails order (s.zones zone).sectionList

/-- A block a large page is taken from: any larger one, or one of the order that is aligned. -/
def suits (s : PageAlloc) (order : Nat) (b : Block) : Bool :=
  order < b.order || hasAlign (s.pageToPhys b.page) (PAGE_SIZE * 2 ^ order)

/-- The first block of the list that suits was taken. -/
def TookFirst (s : PageAlloc) (order : Nat) (looked : List Block) (page : Nat) (s' : PageAlloc) :
    Prop :=
  ∃ b ∈ s.blocks, looked.find? (s.suits order) = some b ∧ Took s b order page s'

/-- A search of the blocks of a list for a large page. -/
def SearchedFirst (s : PageAlloc) (order : Nat) (looked : List Block) :
    Option Nat × PageAlloc → Prop :=
  Searched s (looked.find? (s.suits order) = none) (TookFirst s order looked)

theorem SearchedFirst.append {looked rest : List Block} {s' : PageAlloc}
    (h : SearchedFirst s order looked (some page, s')) :
    SearchedFirst s order (looked ++ rest) (some page, s') := by
  obtain ⟨b, hb, hfind, htook⟩ := h
  exact ⟨b, hb, by rw [find?_append, hfind, Option.some_or], htook⟩

theorem SearchedFirst.after {looked rest : List Block} {r : Option Nat × PageAlloc}
    (hnone : looked.find? (s.suits order) = none) (h : SearchedFirst s order rest r) :
    SearchedFirst s order (looked ++ rest) r := by
  unfold SearchedFirst TookFirst
  rw [find?_append, hnone, Option.none_or]
  exact h

theorem getLargeFromFreelistOrder_spec (hs : Sound s) (hsec : sec < s.sectionCount)
    (hle : order ≤ o) (ho : o < MAX_ORDER) :
    ∃ r, s.getLargeFromFreelistOrder sec o order = .ok r ∧
      SearchedFirst s order ((s.freelist sec o).map fun page => ⟨sec, o, page⟩) r := by
  have hcount : ((s.sections sec).freelistList o).count = (s.freelist sec o).length :=
    hs.count sec hsec o ho
  unfold getLargeFromFreelistOrder
  rw [if_neg (not_le.mpr ho)]
  simp only [hcount]
  cases hlist : s.freelist sec o with
  | nil => exact ⟨(none, s), by simp, rfl, rfl⟩
  | cons head rest =>
    have hlist' : ((s.sections sec).freelistList o).pageList = head :: rest := hlist
    have hmem : ∀ page ∈ head :: rest, (⟨sec, o, page⟩ : Block) ∈ s.blocks := by
      intro page hpage
      refine ⟨hsec, ho, ?_⟩
      rw [← hlist] at hpage
      exact hpage
    rw [if_neg (by simp), hlist']
    simp only
    split
    · -- a block above the wanted order
      have hb := hmem head mem_cons_self
      have hlt : order < (⟨sec, o, head⟩ : Block).order := by
        simp only
        omega
      obtain ⟨page, s', hrun, _⟩ := carveLarge_cut hs hb hlt
      refine ⟨_, hrun, _, hb, ?_, .carved hlt hrun⟩
      rw [map_cons, find?_cons_of_pos]
      simp [suits, hlt]
    · have heq : order = o := by omega
      subst heq
      have hfind : ((head :: rest).map fun page => (⟨sec, order, page⟩ : Block)).find?
          (s.suits order) = (s.pickAligned (PAGE_SIZE * 2 ^ order) (head :: rest)).map
            fun page => ⟨sec, order, page⟩ := by
        rw [find?_map, pickAligned_eq_find]
        simp [suits, Function.comp_def]
      cases hpick : s.pickAligned (PAGE_SIZE * 2 ^ order) (head :: rest) with
      | none => exact ⟨(none, s), rfl, rfl, by rw [hfind, hpick]; rfl⟩
      | some page =>
        have hfound := hpick
        rw [pickAligned_eq_find] at hfound
        have hin := mem_of_find?_eq_some hfound
        have halign := find?_some hfound
        rw [pageSize_mul_two_pow, hasAlign_two_pow, ← pageSize_mul_two_pow] at halign
        obtain ⟨t, hoff, _⟩ := takeOffFreelistOrder_removed hs (hmem page hin) order
        obtain ⟨s', hset⟩ : ∃ s', t.setupPagesOffFreelist page order .largeHead = .ok s' := ⟨_, rfl⟩
        have hoff' : s.takeOffFreelistOrder sec order page order = .ok t := hoff
        simp only [hoff', hset, ok_bind]
        exact ⟨_, rfl, _, hmem page hin, by rw [hfind, hpick]; rfl,
          .whole t rfl rfl halign hoff hset⟩

theorem scanSectionLarge_spec {s : PageAlloc} {sec : Nat} (order : Nat) (hs : Sound s)
    (hsec : sec < s.sectionCount) : ∀ (n start : Nat), order ≤ start → n ≤ MAX_ORDER - start →
    ∃ r, s.scanSectionLarge sec order start n = .ok r ∧
      SearchedFirst s order (s.blocksFrom sec start n) r
  | 0, start, _, _ => ⟨(none, s), rfl, rfl, rfl⟩
  | n + 1, start, hle, hn => by
    obtain ⟨⟨found, s'⟩, hget, hspec⟩ := getLargeFromFreelistOrder_spec hs hsec hle
      (o := start) (by omega)
    rw [scanSectionLarge, hget, blocksFrom, range'_succ, flatMap_cons]
    cases found with
    | none =>
      obtain ⟨rfl, hnone⟩ := hspec
      obtain ⟨r, hrun, hrest⟩ :=
        scanSectionLarge_spec order hs hsec n (start + 1) (by omega) (by omega)
      exact ⟨r, hrun, hrest.after hnone⟩
    | some page => exact ⟨_, rfl, hspec.append⟩

/-- **What `alloc_large_page` did to come back with `page`.** -/
def ServedLarge (s : PageAlloc) (lockFails : Nat → Bool) (info : LargepageLevelInfo) (page : Nat)
    (s' : PageAlloc) : Prop :=
  ∃ t, TookFirst s info.order (s.zoneBlocks lockFails info.order (s.zonesFrom 0)) page t ∧
    t.setupAllocedPage page .largeHead info.order (some info) = .ok s'

section LargeSearch

variable (hs : Sound s) (lockFails : Nat → Bool)
include hs

theorem tryAllocLargeFromSections_spec (order : Nat) :
    ∀ secs : List Nat, (∀ sec ∈ secs, sec < s.sectionCount) →
    ∃ r, s.tryAllocLargeFromSections lockFails order secs = .ok r ∧
      SearchedFirst s order (s.sectionBlocks lockFails order secs) r
  | [], _ => ⟨(none, s), rfl, rfl, rfl⟩
  | sec :: rest, hsecs => by
    obtain ⟨r, hrun, hrest⟩ := tryAllocLargeFromSections_spec order rest fun i hi =>
      hsecs i (.tail _ hi)
    have hsec := hsecs sec mem_cons_self
    have hmax := hs.maxOrder sec hsec
    rw [tryAllocLargeFromSections, sectionBlocks]
    split
    case isTrue hlock =>
      rw [filter_cons_of_neg (by simp [hlock])]
      exact ⟨r, hrun, hrest⟩
    case isFalse hlock =>
      rw [filter_cons_of_pos (by simp [hlock]), flatMap_cons]
      dsimp only
      obtain ⟨⟨found, s'⟩, hscan, hspec⟩ := scanSectionLarge_spec order hs hsec
        ((s.sections sec).maxOrder - max order (s.sections sec).minOrder)
        (max order (s.sections sec).minOrder) (by omega) (by omega)
      rw [hscan]
      cases found with
      | none =>
        obtain ⟨rfl, hnone⟩ := hspec
        exact ⟨r, hrun, hrest.after hnone⟩
      | some page => exact ⟨_, rfl, hspec.append⟩

theorem allocLargeFromZones_spec (info : LargepageLevelInfo) :
    ∀ zones : List Nat, (∀ zone ∈ zones, zone < s.zoneCount) →
    ∃ r, s.allocLargeFromZones lockFails info zones = .ok r ∧
      Searched s ((s.zoneBlocks lockFails info.order zones).find? (s.suits info.order) = none)
        (fun page s' => ∃ t,
          TookFirst s info.order (s.zoneBlocks lockFails info.order zones) page t ∧
            t.setupAllocedPage page .largeHead info.order (some info) = .ok s') r
  | [], _ => ⟨(none, s), rfl, rfl, rfl⟩
  | zone :: rest, hzones => by
    obtain ⟨r, hrun, hrest⟩ := allocLargeFromZones_spec info rest fun i hi =>
      hzones i (.tail _ hi)
    rw [allocLargeFromZones, zoneBlocks, tryAllocLargePageFromZone]
    split
    case isTrue hlow =>
      rw [filter_cons_of_neg (by simpa using hlow)]
      exact ⟨r, hrun, hrest⟩
    case isFalse hlow =>
      rw [filter_cons_of_pos (by simpa using hlow), flatMap_cons]
      obtain ⟨⟨found, t⟩, htry, hspec⟩ := tryAllocLargeFromSections_spec hs lockFails info.order _
        fun sec hsec => (hs.layout.listed zone (hzones zone mem_cons_self) sec hsec).1
      rw [htry]
      cases found with
      | none =>
        obtain ⟨rfl, hnone⟩ := hspec
        refine ⟨r, hrun, ?_⟩
        unfold TookFirst
        rw [find?_append, hnone, Option.none_or]
        exact hrest
      | some page =>
        obtain ⟨s', hset⟩ :
            ∃ s', t.setupAllocedPage page .largeHead info.order (some info) = .ok s' := ⟨_, rfl⟩
        simp only [ok_bind, hset]
        exact ⟨_, rfl, t, hspec.append, hset⟩

/-- `alloc_large_page` never faults, and changes nothing when it returns NULL. -/
theorem allocLargePage_searched (info : LargepageLevelInfo) :
    ∃ r, s.allocLargePage lockFails info = .ok r ∧
      Searched s True (ServedLarge s lockFails info) r := by
  unfold allocLargePage
  split
  · exact ⟨(none, s), rfl, rfl, trivial⟩
  · split
    · exact ⟨(none, s), rfl, rfl, trivial⟩
    · obtain ⟨r, hrun, hspec⟩ :=
        allocLargeFromZones_spec hs lockFails info _ fun _ hz => mem_zonesFrom hz
      exact ⟨r, hrun, hspec.mono (fun _ => trivial) fun _ _ h => h⟩

end LargeSearch

theorem allocLargePage_spec (hw : WellFormed s) (lockFails : Nat → Bool)
    (info : LargepageLevelInfo) :
    ∃ r, s.allocLargePage lockFails info = .ok r ∧ LargeSpec s info.order r := by
  obtain ⟨⟨found, s'⟩, hrun, hspec⟩ := allocLargePage_searched hw.toSound lockFails info
  refine ⟨_, hrun, ?_⟩
  cases found with
  | none => exact ⟨hspec.1, by rintro page ⟨⟩⟩
  | some page =>
    obtain ⟨t, ⟨b, hb, _, htook⟩, hset⟩ := hspec
    obtain ⟨hcut, haligned, _⟩ := htook.cut hw.toSound hb
    refine ⟨(hcut.pagesOnly (setupAllocedPage_pagesOnly hset)).allocated hw, ?_⟩
    rintro page' ⟨⟩
    exact haligned

/--
**Allocation.** From a well-formed state, whatever try-locks fail, `alloc_pages` and
`alloc_large_page` either change nothing and return NULL, or hand out pages of one free block
and leave exactly the others free. Neither stops short on a state it is meant for.
-/
theorem alloc_takes_one_run {s : PageAlloc} (hw : WellFormed s) (lockFails : Nat → Bool) :
    (∀ state order, Allocatable state → ∃ r, s.allocPages lockFails state order = .ok r) ∧
    (∀ state order r, s.allocPages lockFails state order = .ok r → AllocSpec s order r) ∧
    (∀ info, ∃ r, s.allocLargePage lockFails info = .ok r ∧ AllocSpec s info.order r ∧
      ∀ page ∈ r.1, PAGE_SIZE * 2 ^ info.order ∣ s.pageToPhys page) := by
  refine ⟨?_, ?_, ?_⟩
  · intro state order hstate
    have hout := allocPages_outcome hw lockFails state order
    cases h : s.allocPages lockFails state order with
    | ok r => exact ⟨r, rfl⟩
    | error e =>
      rw [h] at hout
      exact absurd hstate hout
  · intro state order r h
    have hout := allocPages_outcome hw lockFails state order
    rw [h] at hout
    exact hout
  · intro info
    exact allocLargePage_spec hw lockFails info

/-- Four pages, one block: a single page is split off the front. -/
theorem alloc_takes_one_run_boot : WellFormed (boot 4 4) ∧
    ∃ s', (boot 4 4).allocPages (fun _ => false) .used 0 = .ok (some 0, s') ∧
      Allocated (boot 4 4) s' 0 0 := by
  have hw := (boot_spec 4 4 (by decide) (by decide) (by decide)).1
  have hrun : ((boot 4 4).allocPages (fun _ => false) .used 0).map Prod.fst = .ok (some 0) := rfl
  obtain ⟨⟨_, s'⟩, halloc, rfl⟩ := map_eq_ok.mp hrun
  exact ⟨hw, s', halloc, (alloc_takes_one_run hw fun _ => false).2.1 .used 0 (some 0, s') halloc⟩

end OsKernel.Mm.PageAlloc
