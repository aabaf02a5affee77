import OsKernel.Mm.AllocProof

/-!
# What the pages handed out look like

A page that left the freelists should not look free any more: `free_amount_of_pages`
decides from the state of a neighbour whether to merge with it. The states are written
in two places, `setup_pages_off_freelist` and `setup_alloced_page`. For slabs and large
pages every page of the block is written. For `PAGE_STATE_USED` both loops run over
`iter` but write `page`, and for `PAGE_STATE_TABLE` there is no loop, so in blocks of
more than one page the tail pages keep the state `PAGE_STATE_FREE_LIST_TAIL`.
-/

namespace OsKernel.Mm.PageAlloc

open Function

variable {s s' : PageAlloc} {b : Block} {page order freelistOrder head q sec : Nat}

/-! ## Before the set-up -/

theorem splitDown_pages (sec page order : Nat) : ∀ (n : Nat) (s : PageAlloc) {q : Nat},
    q < page + 2 ^ order → (s.splitDown sec page order n).pages q = s.pages q
  | 0, _, _, _ => rfl
  | n + 1, s, q, hq => by
    have hle : 2 ^ order ≤ 2 ^ (order + n) := Nat.pow_le_pow_right (by decide) (by omega)
    rw [splitDown, splitDown_pages sec page order n _ hq, addToFreelistOrderFromHigher_eq]
    simp only
    rw [if_neg (by omega), if_neg (by omega)]

/-! ## The set-up -/

theorem headTail_state (s : PageAlloc) (page order : Nat) (head tail : PageState) (f : Page → Page)
    (hf : ∀ pg, (f pg).state = tail) (hq : q ∈ Set.Ico page (page + 2 ^ order)) :
    ((forPages (fun s iter => s.modifyPage iter f) (s.pageSetState page head) (page + 1)
      (2 ^ order - 1)).pages q).state = if q = page then head else tail := by
  rw [forPages_modify fun _ => f]
  simp only
  obtain ⟨h1, h2⟩ := hq
  by_cases he : q = page
  · subst he
    rw [if_neg (by omega), if_pos rfl]
    simp only [pageSetState, modifyPage, update_self]
  · rw [if_pos (by omega), if_neg he, hf]

theorem setupPagesOffFreelist_largeHead (h : s.setupPagesOffFreelist page order .largeHead = .ok s')
    (hq : q ∈ Set.Ico page (page + 2 ^ order)) :
    (s'.pages q).state = if q = page then .largeHead else .largeTail := by
  cases h
  exact headTail_state s page order .largeHead .largeTail
    (fun pg => { pg with state := .largeTail, data := .largeTail 1 page }) (fun _ => rfl) hq

theorem setupAllocedPage_state {state : PageState} {info : Option LargepageLevelInfo}
    (h : s.setupAllocedPage page state order info = .ok s') (q : Nat) :
    (s'.pages q).state = (s.pages q).state := by
  obtain ⟨data, rfl⟩ := setupAllocedPage_eq h
  simp only [setData, modifyPage, update_apply]
  split
  · rename_i he
    rw [he]
  · rfl

/-! ## Large pages: the set-up comes before the rest of the block is freed -/

theorem carveTail_state {page' : Nat}
    (h : carveLarge.carveTail sec freelistOrder order head s page = .ok (some page', s'))
    (hq : q ∈ Set.Ico page' (page' + 2 ^ order)) :
    (s'.pages q).state = if q = page' then .largeHead else .largeTail := by
  obtain ⟨t, hset, h⟩ := bind_eq_ok.mp h
  simp only at h
  split at h
  · obtain ⟨u, hfree, h⟩ := bind_eq_ok.mp h
    obtain ⟨rfl, rfl⟩ : page = page' ∧ u = s' := by simpa using h
    obtain ⟨_, _, hcut⟩ := freeRangeOfPages_cutUp hfree
    rw [hcut.pages fun hin => absurd hin.1 (not_le.mpr hq.2)]
    exact setupPagesOffFreelist_largeHead hset hq
  · obtain ⟨rfl, rfl⟩ : page = page' ∧ t = s' := by simpa using h
    exact setupPagesOffFreelist_largeHead hset hq

theorem Took.state (h : Took s b order page s') (hq : q ∈ Set.Ico page (page + 2 ^ order)) :
    (s'.pages q).state = if q = page then .largeHead else .largeTail := by
  cases h with
  | whole t _ _ _ _ hset => exact setupPagesOffFreelist_largeHead hset hq
  | carved _ hrun =>
    obtain ⟨t, _, hrun⟩ := bind_eq_ok.mp hrun
    split at hrun
    · exact carveTail_state hrun hq
    · split at hrun
      · simp at hrun
      · obtain ⟨u, _, hrun⟩ := bind_eq_ok.mp hrun
        exact carveTail_state hrun hq

/-! ## The block as the caller gets it -/

/--
No page of the block looks free, and where the block is meant to be used page by page, every
page has the state, its own refcount of one and its own delayed-free link.
-/
structure SetUp (s : PageAlloc) (state : PageState) (order page : Nat) : Prop where
  notFree : ∀ q ∈ Set.Ico page (page + 2 ^ order),
    (s.pages q).state ≠ .freeListHead ∧ (s.pages q).state ≠ .freeListTail
  used : state = .used → ∀ q ∈ Set.Ico page (page + 2 ^ order),
    (s.pages q).state = .used ∧ (s.pages q).data = .used 1

/-- A block of one state at its head and another in its tail, neither of them a free one. -/
theorem SetUp.of_headTail {state : PageState} (tail : PageState)
    (h : ∀ q ∈ Set.Ico page (page + 2 ^ order),
      (s.pages q).state = if q = page then state else tail)
    (hstate : state ≠ .freeListHead ∧ state ≠ .freeListTail ∧ state ≠ .used)
    (htail : tail ≠ .freeListHead ∧ tail ≠ .freeListTail) : SetUp s state order page where
  notFree q hq := by
    rw [h q hq]
    split
    · exact ⟨hstate.1, hstate.2.1⟩
    · exact htail
  used hused := absurd hused hstate.2.2

/-- A tail page that still looks free. -/
theorem SetUp.order_eq_zero {state : PageState} (h : SetUp s state order page)
    (htails : ∀ q, page < q → q < page + 2 ^ order → (s.pages q).state = .freeListTail) :
    order = 0 := by
  by_contra hne
  have htwo : 2 ≤ 2 ^ order := by
    calc 2 = 2 ^ 1 := rfl
      _ ≤ 2 ^ order := Nat.pow_le_pow_right (by decide) (by omega)
  exact (h.notFree (page + 1) ⟨by omega, by omega⟩).2 (htails (page + 1) (by omega) (by omega))

theorem Served.setUp_iff {state : PageState} (hs : Sound s) (h : Served s order state page s') :
    SetUp s' state order page ↔ order = 0 ∨ state = .slabHead := by
  obtain ⟨b, t, rfl, ⟨hb, hfits, u, hrun, hset⟩, hset'⟩ := h
  have htails : ∀ q, b.page < q → q < b.page + 2 ^ order →
      ((u.finishAlloc b.sec b.page order b.order).pages q).state = .freeListTail := by
    intro q hq hq'
    have hle : 2 ^ order ≤ 2 ^ b.order := Nat.pow_le_pow_right (by decide) hfits
    have hpages : (u.finishAlloc b.sec b.page order b.order).pages q = s.pages q := by
      rw [← (hs.takenOff hb hrun).1.pages]
      exact splitDown_pages b.sec b.page order _ u hq'
    rw [hpages]
    exact (hs.marked b hb).tailState q hq (by omega)
  have hself : ∀ q ∈ Set.Ico b.page (b.page + 2 ^ 0), q = b.page := by
    intro q hq
    have h1 := hq.1
    have h2 := hq.2
    omega
  cases state with
  | used =>
    rw [setupPagesOffFreelist_used] at hset
    rw [setupAllocedPage_used] at hset'
    injection hset with hset
    injection hset' with hset'
    subst hset
    subst hset'
    constructor
    · intro hup
      refine .inl (hup.order_eq_zero ?_)
      intro q hq hq'
      have hne : q ≠ b.page := by omega
      simp only [setData, pageSetState, modifyPage, update_of_ne hne]
      exact htails q hq hq'
    · rintro (rfl | hslab)
      · -- a single page gets all that is written
        refine ⟨?_, ?_⟩
        · intro q hq
          rw [hself q hq]
          simp [setData, pageSetState, modifyPage]
        · intro _ q hq
          rw [hself q hq]
          simp [setData, pageSetState, modifyPage]
      · cases hslab
  | slabHead =>
    refine iff_of_true (SetUp.of_headTail .slabTail ?_ (by decide) (by decide)) (.inr rfl)
    intro q hq
    rw [setupAllocedPage_state hset' q]
    cases hset
    exact headTail_state _ b.page order .slabHead .slabTail
      (fun pg => { pg with state := .slabTail, data := .slabTail b.page }) (fun _ => rfl) hq
  | table =>
    have hstate := setupAllocedPage_state hset'
    cases hset
    constructor
    · intro hup
      refine .inl (hup.order_eq_zero ?_)
      intro q hq hq'
      have hne : q ≠ b.page := by omega
      rw [hstate]
      simp only [pageSetState, modifyPage, update_of_ne hne]
      exact htails q hq hq'
    · rintro (rfl | hslab)
      · refine ⟨?_, fun hused => by cases hused⟩
        intro q hq
        rw [hself q hq, hstate]
        simp [pageSetState, modifyPage]
      · cases hslab
  | _ => cases hset'

/--
**Which blocks are set up.** A block of `alloc_pages` has all its pages set up exactly when it is
a single page or was asked for as a slab; a block of `alloc_large_page` always has.
-/
theorem alloc_setUp_iff {s : PageAlloc} (hw : WellFormed s) (lockFails : Nat → Bool) :
    (∀ state order page s', s.allocPages lockFails state order = .ok (some page, s') →
      (SetUp s' state order page ↔ order = 0 ∨ state = .slabHead)) ∧
    (∀ info page s', s.allocLargePage lockFails info = .ok (some page, s') →
      SetUp s' .largeHead info.order page) := by
  refine ⟨?_, ?_⟩
  · intro state order page s' h
    exact (allocPages_served hw.toSound h).setUp_iff hw.toSound
  · intro info page s' h
    obtain ⟨r, hrun, hspec⟩ := allocLargePage_searched hw.toSound lockFails info
    rw [h] at hrun
    cases hrun
    have hserved : ServedLarge s lockFails info page s' := hspec
    obtain ⟨t, ⟨b, _, _, htook⟩, hset⟩ := hserved
    refine SetUp.of_headTail .largeTail ?_ (by decide) (by decide)
    intro q hq
    rw [setupAllocedPage_state hset q]
    exact htook.state hq

/-- Two of four pages, as a slab. -/
theorem alloc_setUp_iff_boot : WellFormed (boot 4 4) ∧
    ∃ s', (boot 4 4).allocPages (fun _ => false) .slabHead 1 = .ok (some 0, s') ∧
      SetUp s' .slabHead 1 0 := by
  have hw := (boot_spec 4 4 (by decide) (by decide) (by decide)).1
  have hrun : ((boot 4 4).allocPages (fun _ => false) .slabHead 1).map Prod.fst = .ok (some 0) :=
    rfl
  obtain ⟨⟨_, s'⟩, halloc, rfl⟩ := map_eq_ok.mp hrun
  exact ⟨hw, s', halloc,
    ((alloc_setUp_iff hw fun _ => false).1 .slabHead 1 0 s' halloc).mpr (.inr rfl)⟩

/-- Two of four pages in use: the second is handed out as the tail page it was. -/
theorem alloc_leaves_tail : WellFormed (boot 4 4) ∧
    ((boot 4 4).allocPages (fun _ => false) .used 1).map
      (fun r => (r.1, (r.2.pages 0).state, (r.2.pages 1).state, (r.2.pages 1).data))
        = .ok (some 0, .used, .freeListTail, .freelistTail 0) :=
  ⟨(boot_spec 4 4 (by decide) (by decide) (by decide)).1, rfl⟩

end OsKernel.Mm.PageAlloc
