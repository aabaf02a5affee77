import OsKernel.Mm.OrderBounds

/-!
# Histories of allocations and frees

Does `alloc_pages` find a block whenever there is one? It looks at the orders between
`min_order` and `max_order` only, so the question is whether `max_order` stays above
every non-empty freelist over any history of calls.

It does not. `free_range_of_pages` raises `max_order` to the order of the last block of
the run, so when a section's bounds are low, the larger blocks of the run are out of
reach. A section's bounds are low when it has run out of free pages: then
`take_off_freelist_to_add_later` resets them, also in the middle of an
`alloc_large_page` that is about to put most of the block back.

The invariant here is `Roomy`: sound, every block in reach, and totals that may count
too much, as they do once `free_amount_of_pages` has merged, but never too little. It is
kept by every `alloc_pages`, and by the other calls under the conditions in
`Request.Safe`.
-/

namespace OsKernel.Mm.PageAlloc

open Set

variable {s s' t : PageAlloc} {b : Block} {page order n sec : Nat} {state : PageState}

/-- The invariant of a history. -/
structure Roomy (s : PageAlloc) : Prop extends Sound s where
  /-- A section counts at least its free pages. -/
  sectionTotal : ∀ sec < s.sectionCount, s.sectionFree sec ≤ (s.sections sec).totalFree
  /-- A zone counts at least the free pages of its sections. -/
  zoneTotal : ∀ zone < s.zoneCount, s.zoneFree zone ≤ (s.zones zone).totalFree
  /-- The totals are 64-bit numbers. -/
  sectionWidth : ∀ sec < s.sectionCount, (s.sections sec).totalFree < U64
  zoneWidth : ∀ zone < s.zoneCount, (s.zones zone).totalFree < U64
  /-- Every block is in reach. -/
  bounded : Bounded s

theorem WellFormed.roomy (hw : WellFormed s) (hb : Bounded s) : Roomy s where
  toSound := hw.toSound
  sectionTotal sec hsec := (hw.sectionTotal sec hsec).ge
  zoneTotal zone hzone := (hw.zoneTotal zone hzone).ge
  sectionWidth _ hsec := hw.sectionTotal_lt hsec
  zoneWidth _ hzone := hw.zoneTotal_lt hzone
  bounded := hb

theorem Roomy.block_le (hr : Roomy s) (hb : b ∈ s.blocks) :
    2 ^ b.order ≤ (s.sections b.sec).totalFree :=
  (two_pow_le_sectionFree hb).trans (hr.sectionTotal b.sec hb.1)

theorem Roomy.block_le_zone (hr : Roomy s) (hb : b ∈ s.blocks) :
    2 ^ b.order ≤ (s.zones (s.sections b.sec).zone).totalFree :=
  ((two_pow_le_sectionFree hb).trans (sectionFree_le_zoneFree hr.layout hb.1)).trans
    (hr.zoneTotal _ (hr.layout.zoned _ hb.1).1)

/-! ## Allocation -/

/--
The totals after a call that moved those of one section and its zone by `f`: what they may count
too much, they counted too much before.
-/
theorem Roomy.shift {f : Nat → Nat} {m : Nat} (hr : Roomy s) (hs' : Sound s')
    (hsame : SameLayout s s') (hsec : sec < s.sectionCount) (hshift : Shift s s' sec f)
    (hchange : s'.sectionFree sec + n = s.sectionFree sec + m)
    (hother : ∀ i < s.sectionCount, i ≠ sec → s'.sectionFree i = s.sectionFree i)
    (hf : ∀ x, x = (s.sections sec).totalFree ∨ x = (s.zones (s.sections sec).zone).totalFree →
      x + m ≤ f x + n ∧ f x < U64) (hb' : Bounded s') : Roomy s' := by
  obtain ⟨hfs, hws⟩ := hf _ (.inl rfl)
  obtain ⟨hfz, hwz⟩ := hf _ (.inr rfl)
  have hsum := zoneFree_change hr.layout hsame hsec hchange hother
  refine ⟨hs', ?_, ?_, ?_, ?_, hb'⟩
  · intro i hi
    rw [hsame.sectionCount] at hi
    have hle := hr.sectionTotal i hi
    by_cases hne : i = sec
    · subst hne
      rw [hshift.section_]
      omega
    · rw [hshift.sectionOther i hne, hother i hi hne]
      exact hle
  · intro zone hzone
    rw [hsame.zoneCount] at hzone
    have hle := hr.zoneTotal zone hzone
    by_cases hne : zone = (s.sections sec).zone
    · subst hne
      rw [hshift.zone]
      omega
    · rw [hshift.zoneOther zone hne, zoneFree_other hr.layout hsame hzone hne hother]
      exact hle
  · intro i hi
    rw [hsame.sectionCount] at hi
    by_cases hne : i = sec
    · subst hne
      rw [hshift.section_]
      exact hws
    · rw [hshift.sectionOther i hne]
      exact hr.sectionWidth i hi
  · intro zone hzone
    rw [hsame.zoneCount] at hzone
    by_cases hne : zone = (s.sections sec).zone
    · subst hne
      rw [hshift.zone]
      exact hwz
    · rw [hshift.zoneOther zone hne]
      exact hr.zoneWidth zone hzone

theorem Cut.roomy (hr : Roomy s) (h : Cut s s' b order page) (hb' : Bounded s') : Roomy s' := by
  obtain ⟨f, hshift, hf⟩ := h.charged
  have hpos := Nat.two_pow_pos order
  refine hr.shift (n := 2 ^ order) (m := 0) h.carved.sound h.carved.same h.block.1 hshift ?_
    h.carved.sectionFree_other ?_ hb'
  · rw [h.sectionFree, Nat.add_zero]
  · rintro x (rfl | rfl)
    · have hwide := hr.sectionWidth _ h.block.1
      have hpaid := hf _ (hr.block_le h.block) hwide
      omega
    · have hwide := hr.zoneWidth _ (hr.layout.zoned _ h.block.1).1
      have hpaid := hf _ (hr.block_le_zone h.block) hwide
      omega

/--
Taking a block off leaves the bounds in order. Either `max_order` stays, or the block was all the
section had and the bounds are reset.
-/
theorem Roomy.takeOff (hr : Roomy s) (hb : b ∈ s.blocks) {removeOrder : Nat}
    (hle : removeOrder ≤ b.order)
    (h : s.takeOffFreelistOrder b.sec b.order b.page removeOrder = .ok s') :
    Bounded s' ∧
      ((∀ sec, (s'.sections sec).maxOrder = (s.sections sec).maxOrder) ∨
        removeOrder = b.order ∧ (s.sections b.sec).totalFree = 2 ^ b.order) := by
  by_cases hfree : sub64 (s.sections b.sec).totalFree (2 ^ removeOrder) = 0
  · -- the section is empty now
    have hpow : 2 ^ removeOrder ≤ 2 ^ b.order := Nat.pow_le_pow_right (by decide) hle
    have htotal := hr.block_le hb
    rw [sub64, if_pos (hpow.trans htotal)] at hfree
    have heq : (2 : Nat) ^ removeOrder = 2 ^ b.order := by omega
    have hrem := (hr.toSound.takenOff hb h).1
    have hsize := hrem.sectionFree hb
    have hsum := hr.sectionTotal b.sec hb.1
    refine ⟨?_, .inr ⟨Nat.pow_right_injective (Nat.le_refl 2) heq, by omega⟩⟩
    intro c hc
    have hcs : c ∈ s.blocks := by
      rw [hrem.blocks hr.toSound hb] at hc
      exact hc.1
    by_cases hi : c.sec = b.sec
    · have hpos := two_pow_le_sectionFree hc
      have := Nat.two_pow_pos c.order
      rw [hi] at hpos
      omega
    · obtain ⟨hmin, hmax⟩ := takeOffFreelistOrder_other h hi
      rw [hmin, hmax]
      exact hr.bounded c hcs
  · obtain ⟨hbd, hmax⟩ := takeOffFreelistOrder_bounded hr.toSound hb h hr.bounded hfree
    exact ⟨hbd, .inl hmax⟩

theorem Served.roomy (hr : Roomy s) (h : Served s order state page s') :
    Roomy s' := by
  obtain ⟨_, hcut⟩ := h.cut hr.toSound
  refine hcut.roomy hr ?_
  obtain ⟨b, t, rfl, ⟨hb, hfits, u, hrun, hset⟩, hset'⟩ := h
  refine (setupAllocedPage_pagesOnly hset').bounded
    ((setupPagesOffFreelist_pagesOnly hset).bounded ?_)
  obtain ⟨hbd, hcase⟩ := hr.takeOff hb hfits hrun
  have hmax := (hr.bounded b hb).2
  refine (finishAlloc_widened u b.sec b.page b.order (lt_of_le_of_lt hfits hb.2.1)).bounded hbd ?_
  rcases hcase with hkeep | ⟨heq, _⟩
  · rw [hkeep]
    exact .inl (by omega)
  · exact .inr (by omega)

/-! ## Large pages -/

/-- Freeing a run that may be empty. -/
def FreesRun (s : PageAlloc) (page sec n : Nat) (s' : PageAlloc) : Prop :=
  n = 0 ∧ s' = s ∨ s.freeRangeOfPages page sec n = .ok s'

theorem FreesRun.bounded (h : FreesRun s page sec n s') (hbd : Bounded s)
    (hsec : sec < s.sectionCount) (hreach : n ≠ 0 → Reached s sec n) :
    Bounded s' ∧ (s.sections sec).maxOrder ≤ (s'.sections sec).maxOrder ∧
      s'.sectionCount = s.sectionCount := by
  rcases h with ⟨_, rfl⟩ | hrun
  · exact ⟨hbd, le_rfl, rfl⟩
  · refine freeRangeOfPages_bounded hbd hsec hrun (hreach ?_)
    rintro rfl
    cases hrun

/-- Carving, step by step: off the list, the front back, the set-up, the end back. -/
theorem carveLarge_steps {freelistOrder head : Nat}
    (h : s.carveLarge sec freelistOrder order head = .ok (some page, s')) :
    ∃ t u v, s.takeOffFreelistOrder sec freelistOrder head freelistOrder = .ok t ∧
      FreesRun t head sec (page - head) u ∧ u.setupPagesOffFreelist page order .largeHead = .ok v ∧
      FreesRun v (page + 2 ^ order) sec (head + 2 ^ freelistOrder - (page + 2 ^ order)) s' := by
  have htail : ∀ {u : PageAlloc} {page' : Nat},
      carveLarge.carveTail sec freelistOrder order head u page' = .ok (some page, s') →
      page' = page ∧ ∃ v, u.setupPagesOffFreelist page order .largeHead = .ok v ∧
        FreesRun v (page + 2 ^ order) sec (head + 2 ^ freelistOrder - (page + 2 ^ order)) s' := by
    intro u page' h
    obtain ⟨v, hset, h⟩ := bind_eq_ok.mp h
    simp only at h
    split at h
    · obtain ⟨w, hfree, h⟩ := bind_eq_ok.mp h
      obtain ⟨rfl, rfl⟩ : page' = page ∧ w = s' := by simpa using h
      exact ⟨rfl, v, hset, .inr hfree⟩
    · obtain ⟨rfl, rfl⟩ : page' = page ∧ v = s' := by simpa using h
      exact ⟨rfl, v, hset, .inl ⟨by omega, rfl⟩⟩
  obtain ⟨t, hoff, h⟩ := bind_eq_ok.mp h
  split at h
  · obtain ⟨rfl, v, hset, hrest⟩ := htail h
    exact ⟨t, t, v, hoff, .inl ⟨Nat.sub_self _, rfl⟩, hset, hrest⟩
  · split at h
    · simp at h
    · obtain ⟨u, hfree, h⟩ := bind_eq_ok.mp h
      obtain ⟨rfl, v, hset, hrest⟩ := htail h
      exact ⟨t, u, v, hoff, .inr hfree, hset, hrest⟩

/-- A number of pages that is put back as one block, if any. -/
def Whole (n : Nat) : Prop := n = 0 ∨ ∃ k, n = 2 ^ k

/--
A section that still counts free pages once `b` is off its list, or a large page at `page` that
leaves no more than one block in front of it and one behind it.
-/
def Spares (s : PageAlloc) (b : Block) (order page : Nat) : Prop :=
  (s.sections b.sec).totalFree ≠ 2 ^ b.order ∨
    Whole (page - b.page) ∧ Whole (b.page + 2 ^ b.order - (page + 2 ^ order))

theorem carveLarge_bounded (hr : Roomy s) (hb : b ∈ s.blocks) (hcut : Cut s s' b order page)
    (h : s.carveLarge b.sec b.order order b.page = .ok (some page, s'))
    (hspare : Spares s b order page) : Bounded s' := by
  obtain ⟨t, u, v, hoff, hfront, hset, hend⟩ := carveLarge_steps h
  obtain ⟨hbd, hcase⟩ := hr.takeOff hb le_rfl hoff
  have hrem := (hr.toSound.takenOff hb hoff).1
  have hsec : b.sec < t.sectionCount := by
    rw [hrem.same.sectionCount]
    exact hb.1
  have hpos := Nat.two_pow_pos order
  have hpage := hcut.sub ⟨le_rfl, by omega⟩
  rw [Block.mem_pages] at hpage
  have hlow : page - b.page ≤ 2 ^ b.order := by omega
  have hhigh : b.page + 2 ^ b.order - (page + 2 ^ order) ≤ 2 ^ b.order := by omega
  -- a piece is in reach: of a section whose bounds were kept, or as a block of its own
  have hreach : ∀ {x : PageAlloc} {n : Nat}, (t.sections b.sec).maxOrder ≤ (x.sections b.sec).maxOrder →
      n ≤ 2 ^ b.order → ((s.sections b.sec).totalFree = 2 ^ b.order → Whole n) → n ≠ 0 →
      Reached x b.sec n := by
    intro x n hmono hn hwhole hne
    rcases hcase with hkeep | ⟨_, htotal⟩
    · refine reached_of_le hn (lt_of_lt_of_le ?_ hmono)
      rw [hkeep]
      exact (hr.bounded b hb).2
    · obtain hzero | ⟨k, rfl⟩ := hwhole htotal
      · exact absurd hzero hne
      · have hk : k ≤ b.order := (Nat.pow_le_pow_iff_right (by decide)).mp hn
        exact reached_two_pow x b.sec (lt_of_le_of_lt hk hb.2.1)
  obtain ⟨hbd, hmono, hcount⟩ := hfront.bounded hbd hsec
    (hreach le_rfl hlow fun htotal => (hspare.resolve_left (not_not.mpr htotal)).1)
  have hpages := setupPagesOffFreelist_pagesOnly hset
  refine (hend.bounded (hpages.bounded hbd) ?_ (hreach ?_ hhigh ?_)).1
  · rw [hpages.quiet.same.sectionCount, hcount]
    exact hsec
  · rw [hpages.eq]
    exact hmono
  · intro htotal
    exact (hspare.resolve_left (not_not.mpr htotal)).2

/--
The block a large page of this order would be taken from spares its section, wherever the first
aligned page of it lies.
-/
def SparesLarge (s : PageAlloc) (order : Nat) : Prop :=
  ∀ b, (s.zoneBlocks (fun _ => false) order (s.zonesFrom 0)).find? (s.suits order) = some b →
    ∀ page ∈ Set.Ico b.page (b.page + 2 ^ order), PAGE_SIZE * 2 ^ order ∣ s.pageToPhys page →
      Spares s b order page

/-- `alloc_large_page` keeps every block in reach when it does not empty a section it cuts up. -/
theorem ServedLarge.roomy {info : LargepageLevelInfo} (hr : Roomy s)
    (h : ServedLarge s (fun _ => false) info page s') (hspare : SparesLarge s info.order) :
    Roomy s' := by
  obtain ⟨t, ⟨b, hb, hfirst, htook⟩, hset⟩ := h
  obtain ⟨hcut, haligned, hlt⟩ := htook.cut hr.toSound hb
  have hpages := setupAllocedPage_pagesOnly hset
  refine (hcut.pagesOnly hpages).roomy hr (hpages.bounded ?_)
  cases htook with
  | whole u _ _ _ hoff hset' =>
    exact (setupPagesOffFreelist_pagesOnly hset').bounded (hr.takeOff hb le_rfl hoff).1
  | carved _ hrun =>
    have hpos := Nat.two_pow_pos info.order
    have hge := (hcut.sub ⟨le_rfl, by omega⟩).1
    exact carveLarge_bounded hr hb hcut hrun (hspare b hfirst page ⟨hge, hlt⟩ haligned)

/-! ## The lower bound -/

theorem FreesRun.low (h : FreesRun s page sec n s') (hl : Low s) (hsec : sec < s.sectionCount) :
    Low s' ∧ s'.sectionCount = s.sectionCount := by
  rcases h with ⟨_, rfl⟩ | hrun
  · exact ⟨hl, rfl⟩
  · exact freeRangeOfPages_low hl hsec hrun

section

variable (hs : Sound s) (hl : Low s)
include hs hl

theorem carveLarge_low (hb : b ∈ s.blocks)
    (h : s.carveLarge b.sec b.order order b.page = .ok (some page, s')) : Low s' := by
  obtain ⟨t, u, v, hoff, hfront, hset, hend⟩ := carveLarge_steps h
  have hsec : b.sec < t.sectionCount := by
    rw [(hs.takenOff hb hoff).1.same.sectionCount]
    exact hb.1
  obtain ⟨hlow, hcount⟩ := hfront.low (takeOffFreelistOrder_low hs hb hoff hl) hsec
  have hpages := setupPagesOffFreelist_pagesOnly hset
  refine (hend.low (hpages.low hlow) ?_).1
  rw [hpages.quiet.same.sectionCount, hcount]
  exact hsec

theorem Served.low (h : Served s order state page s') : Low s' := by
  obtain ⟨b, t, rfl, ⟨hb, hfits, u, hrun, hset⟩, hset'⟩ := h
  refine (setupAllocedPage_pagesOnly hset').low ((setupPagesOffFreelist_pagesOnly hset).low ?_)
  exact (finishAlloc_widened u b.sec b.page b.order (lt_of_le_of_lt hfits hb.2.1)).low
    (takeOffFreelistOrder_low hs hb hrun hl)

theorem ServedLarge.low {lockFails : Nat → Bool} {info : LargepageLevelInfo}
    (h : ServedLarge s lockFails info page s') : Low s' := by
  obtain ⟨t, ⟨b, hb, _, htook⟩, hset⟩ := h
  refine (setupAllocedPage_pagesOnly hset).low ?_
  cases htook with
  | whole u _ _ _ hoff hset' =>
    exact (setupPagesOffFreelist_pagesOnly hset').low (takeOffFreelistOrder_low hs hb hoff hl)
  | carved _ hrun => exact carveLarge_low hs hl hb hrun

omit hs in
theorem Searched.low {nothing : Prop} {got : Nat → PageAlloc → Prop} {r : Option Nat × PageAlloc}
    (h : Searched s nothing got r) (hgot : ∀ page s', got page s' → Low s') : Low r.2 := by
  obtain ⟨_ | page, s'⟩ := r
  · rw [h.1]
    exact hl
  · exact hgot page s' h

end

/--
**No call leaves a block below `min_order`**: neither of the allocations, nor freeing a run, nor
taking a block off its list and freeing a run that contains it.
-/
theorem calls_keep_low (s : PageAlloc) (hw : WellFormed s) (hl : Low s) :
    (∀ lockFails state order,
      Outcome state (fun r => Low r.2) (s.allocPages lockFails state order)) ∧
    (∀ lockFails info, ∃ r, s.allocLargePage lockFails info = .ok r ∧ Low r.2) ∧
    (∀ page, ∀ sec < s.sectionCount, ∀ amount ≥ 1,
      ∃ s', s.freeRangeOfPages page sec amount = .ok s' ∧ Low s') ∧
    ∀ b ∈ s.blocks, ∀ page amount, b.pages ⊆ Set.Ico page (page + amount) →
      ∃ t s', s.takeOffFreelistToAddLater b.sec b.order b.page = .ok t ∧
        t.freeRangeOfPages page b.sec amount = .ok s' ∧ Low s' := by
  have hs := hw.toSound
  refine ⟨?_, ?_, ?_, ?_⟩
  · intro lockFails state order
    exact (allocPages_searched hs lockFails state order).mono fun _ h =>
      h.low hl fun _ _ => Served.low hs hl
  · intro lockFails info
    obtain ⟨r, hrun, h⟩ := allocLargePage_searched hs lockFails info
    exact ⟨r, hrun, h.low hl fun _ _ => ServedLarge.low hs hl⟩
  · intro page sec hsec amount hpos
    obtain ⟨s', hrun⟩ := freeRangeOfPages_total s page sec hpos
    exact ⟨s', hrun, (freeRangeOfPages_low hl hsec hrun).1⟩
  · intro b hb page amount hsub
    obtain ⟨t, hoff, hrem, _⟩ := takeOffFreelistToAddLater_removed hs hb
    have hin := hsub b.page_mem
    have hpos : 1 ≤ amount := by
      rw [mem_Ico] at hin
      omega
    have hsec : b.sec < t.sectionCount := by
      rw [hrem.same.sectionCount]
      exact hb.1
    obtain ⟨s', hrun⟩ := freeRangeOfPages_total t page b.sec hpos
    exact ⟨t, s', hoff, hrun, (freeRangeOfPages_low
      (takeOffFreelistToAddLater_low hs hl hb hoff).1 hsec hrun).1⟩

/-! ## Freeing, with the blocks on either side -/

/-- A run of pages of one section, none of them free. -/
structure Freeable (s : PageAlloc) (sec page n : Nat) : Prop where
  section_ : sec < s.sectionCount
  pos : 1 ≤ n
  inside : Set.Ico page (page + n) ⊆ s.sectionPages sec
  used : Disjoint (Set.Ico page (page + n)) s.freeSet

/--
What lies on either side of a run: pages that do not look free, or a free block of the section,
of `front` and `behind` pages. What is ruled out are pages that look free and are not, and a block
of another section right behind the run.
-/
structure Merges (s : PageAlloc) (sec page n front behind : Nat) : Prop where
  front : front = 0 ∧ PrevUsed s sec page ∨
    ∃ b ∈ s.blocks, b.sec = sec ∧ b.page + 2 ^ b.order = page ∧ front = 2 ^ b.order
  behind : behind = 0 ∧ NextUsed s (page + n) ∨
    ∃ b ∈ s.blocks, b.sec = sec ∧ b.page = page + n ∧ behind = 2 ^ b.order

/--
`t` is `s` with the `n` free pages of `gap`, in section `sec`, off the lists to be added again
later: the totals count them still.
-/
structure Opened (s t : PageAlloc) (sec : Nat) (gap : Set Nat) (n : Nat) : Prop where
  sound : Sound t
  same : SameLayout s t
  pages : t.pages = s.pages
  blocks : t.blocks ⊆ s.blocks
  kept : ∀ b ∈ s.blocks, b ∈ t.blocks ∨ b.pages ⊆ gap
  freeSet : t.freeSet = s.freeSet \ gap
  sectionFree : t.sectionFree sec + n = s.sectionFree sec
  sectionFree_other : ∀ i < s.sectionCount, i ≠ sec → t.sectionFree i = s.sectionFree i
  shift : Shift s t sec id
  bounded : Bounded t
  maxOrder : (t.sections sec).maxOrder = (s.sections sec).maxOrder

theorem Roomy.opened (hr : Roomy s) (sec : Nat) : Opened s s sec ∅ 0 where
  sound := hr.toSound
  same := .refl s
  pages := rfl
  blocks := Set.Subset.refl _
  kept _ hb := .inl hb
  freeSet := Set.sdiff_empty.symm
  sectionFree := add_zero _
  sectionFree_other _ _ _ := rfl
  shift := .refl s sec
  bounded := hr.bounded
  maxOrder := rfl

theorem Opened.takeOff {gap : Set Nat} (hr : Roomy s) (h : Opened s t b.sec gap n)
    (hb : b ∈ t.blocks) :
    ∃ u, t.takeOffFreelistToAddLater b.sec b.order b.page = .ok u ∧
      Opened s u b.sec (gap ∪ b.pages) (n + 2 ^ b.order) := by
  obtain ⟨u, hrun, hrem, hshift⟩ := takeOffFreelistToAddLater_removed h.sound hb
  have htotal : (t.sections b.sec).totalFree ≠ 0 := by
    have hle := hr.block_le (h.blocks hb)
    have hpos := Nat.two_pow_pos b.order
    rw [h.shift.section_, id]
    omega
  obtain ⟨hbd, hmax⟩ := takeOffFreelistToAddLater_bounded h.sound h.bounded hb hrun htotal
  have hblocks := hrem.blocks h.sound hb
  have hsize := hrem.sectionFree hb
  have hsize' := h.sectionFree
  refine ⟨u, hrun, hrem.sound h.sound hb, h.same.trans hrem.same, hrem.pages.trans h.pages, ?_, ?_,
    ?_, by omega, ?_, h.shift.trans (h.same.zone b.sec) hshift, hbd, (hmax b.sec).trans h.maxOrder⟩
  · rw [hblocks]
    exact sdiff_subset.trans h.blocks
  · intro c hc
    rcases h.kept c hc with hct | hgap
    · by_cases hcb : c = b
      · rw [hcb]
        exact .inr subset_union_right
      · rw [hblocks]
        exact .inl ⟨hct, hcb⟩
    · exact .inr (hgap.trans subset_union_left)
  · rw [hrem.freeSet h.sound hb, h.freeSet, sdiff_sdiff]
  · intro i hi hne
    rw [hrem.sectionFree_other (by rw [h.same.sectionCount]; exact hi) hne,
      h.sectionFree_other i hi hne]

section

variable (hs : Sound s) (hb : b ∈ s.blocks)
include hs hb

theorem Sound.headOrder :
    s.headOrder b.page = .ok b.order := by
  unfold PageAlloc.headOrder
  rw [(hs.marked b hb).headData]

theorem mergePrev_block (hend : b.page + 2 ^ b.order = page) (hn : page + n < 2 ^ 63) :
    s.mergePrev b.sec page n = (s.takeOffFreelistToAddLater b.sec b.order b.page).map
      fun t => (b.page, n + 2 ^ b.order, t) := by
  have hpos := Nat.two_pow_pos b.order
  have hpfn : (s.sections b.sec).pfn ≤ b.page := (hs.inside b hb b.page_mem).1
  have hmarked := hs.marked b hb
  have hgap : sub64 page b.page = 2 ^ b.order := by
    rw [sub64, if_pos (by omega)]
    omega
  have hmod : (n + 2 ^ b.order) % U64 = n + 2 ^ b.order :=
    Nat.mod_eq_of_lt (by simp only [U64]; omega)
  unfold mergePrev
  rw [if_neg (by rw [sub64, if_pos (by omega)]; omega)]
  by_cases hone : b.order = 0
  · -- a block of one page: the page in front is its head
    have hprev : page - 1 = b.page := by
      rw [hone] at hend
      omega
    rw [hprev, hmarked.headState]
    simp only [hs.headOrder hb, ok_bind]
    cases s.takeOffFreelistToAddLater b.sec b.order b.page with
    | error e => rfl
    | ok t =>
      rw [hone] at hmod
      simp only [ok_bind, pure_eq_ok, Except.map, hone]
      rw [show n + 1 = n + 2 ^ 0 from rfl, hmod]
  · -- the page in front is its last tail page
    have htwo : 2 ≤ 2 ^ b.order := by
      calc 2 = 2 ^ 1 := rfl
        _ ≤ 2 ^ b.order := Nat.pow_le_pow_right (by decide) (by omega)
    have htail : s.tailHead (page - 1) = .ok b.page := by
      unfold tailHead
      rw [hmarked.tailData (page - 1) (by omega) (by omega)]
    rw [hmarked.tailState (page - 1) (by omega) (by omega)]
    simp only [htail, hs.headOrder hb, ok_bind]
    cases s.takeOffFreelistToAddLater b.sec b.order b.page with
    | error e => rfl
    | ok t => simp only [ok_bind, pure_eq_ok, Except.map, hgap, hmod]

theorem mergeNext_block {amount : Nat} (hsum : amount + 2 ^ b.order < 2 ^ 64) :
    s.mergeNext sec b.page amount = (s.takeOffFreelistToAddLater sec b.order b.page).map
      fun t => (amount + 2 ^ b.order, t) := by
  have hlt : b.page < s.pageEnd := hs.layout.covered b.sec hb.1 _ (hs.inside b hb b.page_mem)
  have hmod : (amount + 2 ^ b.order) % U64 = amount + 2 ^ b.order :=
    Nat.mod_eq_of_lt (by simpa only [U64] using hsum)
  unfold mergeNext
  rw [if_pos ⟨hlt, (hs.marked b hb).headState⟩]
  simp only [hs.headOrder hb, ok_bind]
  cases s.takeOffFreelistToAddLater sec b.order b.page with
  | error e => rfl
  | ok t => simp only [ok_bind, pure_eq_ok, Except.map, hmod]

end

variable {front behind : Nat}

theorem Merges.mergePrev (hr : Roomy s) (hm : Merges s sec page n front behind)
    (hn : page + n < 2 ^ 63) :
    ∃ start t, s.mergePrev sec page n = .ok (start, n + front, t) ∧ start + front = page ∧
      Opened s t sec (Set.Ico start page) front := by
  rcases hm.front with ⟨rfl, hused⟩ | ⟨b, hb, rfl, hend, rfl⟩
  · refine ⟨page, s, mergePrev_of_prevUsed hused, rfl, ?_⟩
    rw [Set.Ico_self]
    exact hr.opened sec
  · obtain ⟨t, hrun, hopen⟩ := (hr.opened b.sec).takeOff hr hb
    refine ⟨b.page, t, ?_, hend, ?_⟩
    · rw [mergePrev_block hr.toSound hb hend hn, hrun]
      rfl
    · rw [empty_union, zero_add] at hopen
      rw [← hend]
      exact hopen

theorem Merges.mergeNext {start : Nat} (hr : Roomy s)
    (hm : Merges s sec page n front behind) (hf : Freeable s sec page n)
    (hstart : start + front = page) (hn : page + n < 2 ^ 63)
    (hopen : Opened s t sec (Set.Ico start page) front) :
    ∃ u, t.mergeNext sec (page + n) (n + front) = .ok (n + front + behind, u) ∧
      Opened s u sec (Set.Ico start page ∪ Set.Ico (page + n) (page + n + behind))
        (front + behind) := by
  rcases hm.behind with ⟨rfl, hused⟩ | ⟨b, hb, rfl, hpage, rfl⟩
  · refine ⟨t, ?_, ?_⟩
    · refine mergeNext_of_nextUsed ?_
      unfold NextUsed
      rw [hopen.pages, hopen.same.pageEnd]
      exact hused
    · rw [add_zero, Set.Ico_self, union_empty]
      exact hopen
  · -- the block behind the run is not the one in front of it
    have hbt : b ∈ t.blocks := by
      refine (hopen.kept b hb).resolve_right ?_
      intro hgap
      have hlt := (hgap b.page_mem).2
      omega
    obtain ⟨u, hrun, hopen'⟩ := hopen.takeOff hr hbt
    refine ⟨u, ?_, ?_⟩
    · have hlast : b.page + 2 ^ b.order - 1 < s.pageEnd := by
        have hpos := Nat.two_pow_pos b.order
        exact hr.layout.covered b.sec hb.1 _ (hr.inside b hb ⟨by omega, by omega⟩)
      have haddr := hr.layout.addressable
      rw [← hpage, mergeNext_block hopen.sound hbt (by omega), hrun]
      rfl
    · have hset : b.pages = Set.Ico (page + n) (page + n + 2 ^ b.order) := by
        rw [← hpage]
        rfl
      rw [← hset]
      exact hopen'

/-- Counting `n` pages more wraps neither the section's total around nor its zone's. -/
def Countable (s : PageAlloc) (sec n : Nat) : Prop :=
  (s.sections sec).totalFree + n < U64 ∧ (s.zones (s.sections sec).zone).totalFree + n < U64

/-- **`free_amount_of_pages` frees the run, whatever it merges with.** -/
theorem Merges.freeAmountOfPages (hr : Roomy s) (hf : Freeable s sec page n)
    (hm : Merges s sec page n front behind) (hreach : Reached s sec (n + front + behind))
    (hcount : Countable s sec (n + front + behind)) :
    ∃ s', s.freeAmountOfPages page n = .ok s' ∧ Roomy s' := by
  have hpos := hf.pos
  have hfirst : page ∈ s.sectionPages sec := hf.inside ⟨le_rfl, by omega⟩
  have hlast : page + n - 1 ∈ s.sectionPages sec := hf.inside ⟨by omega, by omega⟩
  have hend : page + n < 2 ^ 63 := by
    have h1 := hr.layout.covered sec hf.section_ _ hlast
    have h2 := hr.layout.addressable
    omega
  have hsect := hr.layout.pageSect sec hf.section_ page hfirst
  obtain ⟨start, t, hprev, hstart, hopen⟩ := hm.mergePrev hr hend
  obtain ⟨u, hnext, hopen'⟩ := hm.mergeNext hr hf hstart hend hopen
  have hmod : (start + (n + front)) % U64 = page + n := by
    rw [Nat.mod_eq_of_lt (by simp only [U64]; omega)]
    omega
  have hsec : sec < u.sectionCount := by
    rw [hopen'.same.sectionCount]
    exact hf.section_
  -- the merged run: the gap that was opened, with the pages freed in the middle
  have hrun : Set.Ico start (start + (n + front + behind))
      = Set.Ico start page ∪ Set.Ico (page + n) (page + n + behind) ∪ Set.Ico page (page + n) := by
    ext q
    simp only [mem_union, mem_Ico]
    omega
  have hin : Set.Ico start (start + (n + front + behind)) ⊆ u.sectionPages sec := by
    rw [hopen'.same.sectionPages, hrun]
    refine union_subset (union_subset ?_ ?_) hf.inside
    · rcases hm.front with ⟨hzero, _⟩ | ⟨b, hb, rfl, hbend, hsize⟩
      · rw [show start = page by omega, Set.Ico_self]
        exact empty_subset _
      · rw [show start = b.page by omega, ← hbend]
        exact hr.inside b hb
    · rcases hm.behind with ⟨hzero, _⟩ | ⟨b, hb, rfl, hbpage, hsize⟩
      · rw [hzero, add_zero, Set.Ico_self]
        exact empty_subset _
      · rw [hsize, ← hbpage]
        exact hr.inside b hb
  have hout : Disjoint (Set.Ico start (start + (n + front + behind))) u.freeSet := by
    rw [hopen'.freeSet, hrun]
    exact disjoint_sdiff_right.union_left (hf.used.mono_right sdiff_subset)
  obtain ⟨s', hfree, hfreed⟩ := freeRangeOfPages_freed hopen'.sound hsec (by omega) hin hout
  have hbd := (freeRangeOfPages_bounded hopen'.bounded hsec hfree (by
    intro order hfit
    rw [hopen'.maxOrder]
    exact hreach order hfit)).1
  refine ⟨s', ?_, ?_⟩
  · unfold PageAlloc.freeAmountOfPages
    simp only [hsect, hprev, ok_bind, hmod, hnext, hfree]
  · have hsame := hopen'.same.trans hfreed.same
    have hshift := hopen'.shift.trans (hopen'.same.zone sec) (freeRangeOfPages_shift hfree)
    have hgrow : s'.sectionFree sec + (front + behind)
        = s.sectionFree sec + (n + front + behind) := by
      have hsize := hopen'.sectionFree
      rw [hfreed.sectionFree]
      omega
    have hother : ∀ i < s.sectionCount, i ≠ sec → s'.sectionFree i = s.sectionFree i := by
      intro i hi hne
      rw [hfreed.sectionFree_other i hne, hopen'.sectionFree_other i hi hne]
    refine hr.shift hfreed.sound hsame hf.section_ hshift hgrow hother ?_ hbd
    -- the merged run is counted whole, the blocks merged with a second time
    intro x hx
    have hsum : x + (n + front + behind) < U64 := by
      rcases hx with rfl | rfl
      · exact hcount.1
      · exact hcount.2
    simp only [Function.comp, id, add64, Nat.mod_eq_of_lt hsum]
    omega

/-! ## Histories -/

/-- A call to the allocator. -/
inductive Request where
  | allocPages (state : PageState) (order : Nat)
  | allocLargePage (info : LargepageLevelInfo)
  | freeAmountOfPages (page amount : Nat)

/-- The call with every section lock available. -/
def Request.run (s : PageAlloc) : Request → Result (Option Nat × PageAlloc)
  | .allocPages state order => s.allocPages (fun _ => false) state order
  | .allocLargePage info => s.allocLargePage (fun _ => false) info
  | .freeAmountOfPages page amount =>
    (s.freeAmountOfPages page amount).map fun s' => (none, s')

/--
When a call keeps every block in reach. `alloc_pages` always does. `alloc_large_page` must not use
up the section's last free pages and put pieces of several orders back. `free_amount_of_pages`
must be given allocated pages whose neighbours are what they look like, the run it frees must not
have a block above `max_order` in front of a smaller one, and the totals must have room for it.
-/
def Request.Safe (s : PageAlloc) : Request → Prop
  | .allocPages _ _ => True
  | .allocLargePage info => SparesLarge s info.order
  | .freeAmountOfPages page amount => ∃ sec front behind, Freeable s sec page amount ∧
      Merges s sec page amount front behind ∧ Reached s sec (amount + front + behind) ∧
      Countable s sec (amount + front + behind)

/-- A history of calls that returned, each of them safe in the state it was made in. -/
inductive History : PageAlloc → PageAlloc → Prop
  | start (s : PageAlloc) : History s s
  | call {s t u : PageAlloc} {page : Option Nat} (request : Request) (before : History s t)
      (safe : request.Safe t) (run : request.run t = .ok (page, u)) : History s u

theorem Request.run_roomy {page : Option Nat} (request : Request) (hr : Roomy s)
    (hsafe : request.Safe s) (hrun : request.run s = .ok (page, s')) : Roomy s' := by
  cases request with
  | allocPages state order =>
    have hspec := allocPages_searched hr.toSound (fun _ => false) state order
    have hrun' : s.allocPages (fun _ => false) state order = .ok (page, s') := hrun
    rw [hrun'] at hspec
    cases page with
    | none =>
      obtain ⟨rfl, _⟩ := hspec
      exact hr
    | some page =>
      have hserved : Served s order state page s' := hspec
      exact hserved.roomy hr
  | allocLargePage info =>
    obtain ⟨r, hrun', hspec⟩ := allocLargePage_searched hr.toSound (fun _ => false) info
    have hrun : s.allocLargePage (fun _ => false) info = .ok (page, s') := hrun
    have he := hrun'
    rw [hrun] at he
    cases he
    cases page with
    | none =>
      obtain ⟨rfl, _⟩ := hspec
      exact hr
    | some page =>
      have hserved : ServedLarge s (fun _ => false) info page s' := hspec
      exact hserved.roomy hr hsafe
  | freeAmountOfPages page' amount =>
    obtain ⟨sec, front, behind, hf, hm, hreach, hcount⟩ := hsafe
    obtain ⟨t, hfree, hr'⟩ := hm.freeAmountOfPages hr hf hreach hcount
    obtain ⟨u, hu, he⟩ := map_eq_ok.mp hrun
    rw [hfree] at hu
    injection hu with hu
    obtain ⟨_, rfl⟩ := Prod.mk.inj he
    rw [← hu]
    exact hr'

theorem History.roomy (h : History s t) (hr : Roomy s) : Roomy t := by
  induction h with
  | start => exact hr
  | call request _ hsafe hrun ih => exact request.run_roomy ih hsafe hrun

theorem Roomy.allocPages (hr : Roomy s) (hstate : Allocatable state) {zone o : Nat}
    (hzone : zone ∈ s.zonesFrom s.zoneDefault) (hsec : sec ∈ (s.zones zone).sectionList)
    (ho : o < MAX_ORDER) (hle : order ≤ o) (hlist : s.freelist sec o ≠ []) :
    ∃ page s', s.allocPages (fun _ => false) state order = .ok (some page, s') := by
  obtain ⟨head, hhead⟩ := List.exists_mem_of_ne_nil _ hlist
  obtain ⟨hseclt, hseczone⟩ := hr.layout.listed zone (mem_zonesFrom hzone) sec hsec
  have hb : (⟨sec, o, head⟩ : Block) ∈ s.blocks := ⟨hseclt, ho, hhead⟩
  have hspec := allocPages_searched hr.toSound (fun _ => false) state order
  cases hrun : s.allocPages (fun _ => false) state order with
  | error e =>
    rw [hrun] at hspec
    exact absurd hstate hspec
  | ok r =>
    rw [hrun] at hspec
    obtain ⟨_ | page, s'⟩ := r
    · -- nothing was found: but this zone has the block, and the scan would meet it
      exfalso
      rcases hspec.2 (by omega) zone hzone with hlow | hnone
      · have htotal := hr.block_le_zone hb
        simp only [hseczone] at htotal
        have hpow : 2 ^ order ≤ 2 ^ o := Nat.pow_le_pow_right (by decide) hle
        omega
      · have hin := hr.bounded _ hb
        simp only at hin
        exact hlist (hnone sec (by simpa using hsec) o (by omega) hin.2)
    · exact ⟨page, s', rfl⟩

/--
**Over every safe history the bounds are adequate.** `max_order` stays above every non-empty
freelist, and `alloc_pages` returns a block whenever a section it can reach has one that is large
enough.
-/
theorem history_keeps_reach {s t : PageAlloc} (hw : WellFormed s) (hb : Bounded s)
    (h : History s t) :
    (∀ sec < t.sectionCount, ∀ order < MAX_ORDER, t.freelist sec order ≠ [] →
      order < (t.sections sec).maxOrder) ∧
    ∀ state order, Allocatable state →
      (∃ zone ∈ t.zonesFrom t.zoneDefault, ∃ sec ∈ (t.zones zone).sectionList,
        ∃ o < MAX_ORDER, order ≤ o ∧ t.freelist sec o ≠ []) →
      ∃ page t', t.allocPages (fun _ => false) state order = .ok (some page, t') := by
  have hr := h.roomy (hw.roomy hb)
  refine ⟨?_, ?_⟩
  · intro sec hsec order ho hlist
    obtain ⟨head, hhead⟩ := List.exists_mem_of_ne_nil _ hlist
    exact (hr.bounded ⟨sec, order, head⟩ ⟨hsec, ho, hhead⟩).2
  · rintro state order hstate ⟨zone, hzone, sec, hsec, o, ho, hle, hlist⟩
    exact hr.allocPages hstate hzone hsec ho hle hlist

/-! ## A machine of four pages -/

theorem boot_bounded {count k : Nat} (h : count ≤ 2 ^ 52) (hk : k < MAX_ORDER)
    (hle : 2 ^ k ≤ count) : Bounded (boot count (2 ^ k)) := by
  have hbare : Bounded (bare count) := by
    intro b hb
    rw [bare_blocks] at hb
    exact absurd hb (notMem_empty b)
  have hin : Set.Ico 0 (0 + 2 ^ k) ⊆ (bare count).sectionPages 0 := by
    rw [bare_sectionPages, zero_add]
    exact Set.Ico_subset_Ico_right hle
  obtain ⟨s, hrun, _⟩ := freeRangeOfPages_freed (bare_wellFormed h).toSound one_pos
    (Nat.two_pow_pos k) hin (by rw [bare_freeSet]; exact disjoint_empty _)
  unfold boot
  rw [hrun]
  exact (freeRangeOfPages_bounded hbare one_pos hrun (reached_two_pow _ _ hk)).1

/-- A page is allocated, and `min_order` goes down to the page that is split off. -/
theorem calls_keep_low_boot :
    ((boot 4 4).allocPages (fun _ => false) .used 0).map
      (fun r => ((r.2.sections 0).minOrder, r.2.freelist 0 0)) = .ok (0, [1]) ∧
      Outcome .used (fun r => Low r.2) ((boot 4 4).allocPages (fun _ => false) .used 0) :=
  ⟨rfl, (calls_keep_low (boot 4 4) (boot_spec 4 4 (by decide) (by decide) (by decide)).1
    fun c hc => (boot_bounded (k := 2) (by decide) (by decide) (by decide) c hc).1).1 _ _ _⟩

/-- One page is allocated; the page and the two pages left behind it are found. -/
theorem history_keeps_reach_boot :
    ∃ t, ((Request.allocPages .used 0).run (boot 4 4)).map Prod.snd = .ok t ∧
      t.freelist 0 1 = [2] ∧
      ∃ page t', t.allocPages (fun _ => false) .used 1 = .ok (some page, t') := by
  have hw := (boot_spec 4 4 (by decide) (by decide) (by decide)).1
  have hb : Bounded (boot 4 4) := boot_bounded (k := 2) (by decide) (by decide) (by decide)
  have hlist : ((Request.allocPages .used 0).run (boot 4 4)).map
      (fun r => (r.1, r.2.freelist 0 1)) = .ok (some 0, [2]) := rfl
  obtain ⟨⟨page, t⟩, hrun, he⟩ := map_eq_ok.mp hlist
  obtain ⟨rfl, hfree⟩ := Prod.mk.inj he
  have hlayout : ((Request.allocPages .used 0).run (boot 4 4)).map
      (fun r => (r.2.zonesFrom r.2.zoneDefault, (r.2.zones 0).sectionList)) = .ok ([0], [0]) := rfl
  rw [hrun] at hlayout
  obtain ⟨hzones, hsections⟩ : t.zonesFrom t.zoneDefault = [0] ∧ (t.zones 0).sectionList = [0] := by
    injection hlayout with hl
    exact Prod.mk.inj hl
  refine ⟨t, by rw [hrun]; rfl, hfree, ?_⟩
  refine (history_keeps_reach hw hb
    (.call (.allocPages .used 0) (.start _) trivial hrun)).2 .used 1 (.inl rfl) ?_
  refine ⟨0, by rw [hzones]; exact List.mem_singleton_self 0, 0,
    by rw [hsections]; exact List.mem_singleton_self 0, 1, by decide, le_rfl, ?_⟩
  rw [hfree]
  exact List.cons_ne_nil _ _

/-- Several calls in a row, for their effect. -/
def Request.runs (s : PageAlloc) : List Request → Result PageAlloc
  | [] => .ok s
  | request :: rest => do
    let (_, s') ← request.run s
    runs s' rest

/--
Four pages are allocated one by one, so that `max_order` ends at 1, and three of them are freed
again as blocks of two pages and one. The last block leaves `max_order` at 1, and the block of two
pages is not found.
-/
theorem free_hides_block : WellFormed (boot 4 4) ∧ Bounded (boot 4 4) ∧
    (Request.runs (boot 4 4) [.allocPages .used 0, .allocPages .used 0, .allocPages .used 0,
      .allocPages .used 0, .freeAmountOfPages 0 3]).map
        (fun s => ((s.sections 0).maxOrder, s.freelist 0 1,
          (s.allocPages (fun _ => false) .used 1).map Prod.fst))
      = .ok (1, [0], .ok none) :=
  ⟨(boot_spec 4 4 (by decide) (by decide) (by decide)).1,
    boot_bounded (k := 2) (by decide) (by decide) (by decide), by decide +kernel⟩

end OsKernel.Mm.PageAlloc
