import OsKernel.Mm.FreeProof

/-!
# The order bounds of a section

Each section keeps two bounds, `min_order` and `max_order`, and allocation scans only
the freelists between them. A free block outside the bounds is out of reach. The
bounds move in three places: taking the last block off a list moves `min_order` up,
a section whose `total_free` is zero goes back to `[0, 0)`, and freeing a run widens
the bounds, but only to the order of the *last* block of the run, which is its
smallest.

This file follows the bounds through each of these. What a run of blocks needs is
said by `Reached`: the largest block of the run is below `max_order` already, or all
its blocks are of one order.
-/

namespace OsKernel.Mm.PageAlloc

open Function

variable {s s' : PageAlloc} {b : Block} {page order amount avail hi k removeOrder sec : Nat}

/-- Every free block has an order that the scan of its section looks at. -/
def Bounded (s : PageAlloc) : Prop :=
  ∀ b ∈ s.blocks, (s.sections b.sec).minOrder ≤ b.order ∧ b.order < (s.sections b.sec).maxOrder

/-- No freelist below the `min_order` of its section has a block. -/
def Low (s : PageAlloc) : Prop := ∀ b ∈ s.blocks, (s.sections b.sec).minOrder ≤ b.order

/-- Two states whose sections have the same bounds. -/
def SameOrders (s s' : PageAlloc) (sec : Nat) : Prop :=
  (s'.sections sec).minOrder = (s.sections sec).minOrder ∧
    (s'.sections sec).maxOrder = (s.sections sec).maxOrder

theorem sameOrders_update {x : PageSection} (h : s'.sections = update s.sections sec x)
    (hmin : x.minOrder = (s.sections sec).minOrder) (hmax : x.maxOrder = (s.sections sec).maxOrder)
    (i : Nat) : SameOrders s s' i := by
  unfold SameOrders
  rw [h]
  exact ⟨update_field PageSection.minOrder hmin i, update_field PageSection.maxOrder hmax i⟩

theorem Bounded.of_subset (h : Bounded s) (hsub : s'.blocks ⊆ s.blocks)
    (hsame : ∀ sec, SameOrders s s' sec) : Bounded s' := by
  intro b hb
  rw [(hsame b.sec).1, (hsame b.sec).2]
  exact h b (hsub hb)

theorem Low.of_subset (h : Low s) (hsub : s'.blocks ⊆ s.blocks) (hsame : ∀ sec, SameOrders s s' sec) :
    Low s' := by
  intro b hb
  rw [(hsame b.sec).1]
  exact h b (hsub hb)

section

variable {t : Set Nat} (h : PagesOnly s s' t)
include h

theorem PagesOnly.sameOrders (sec : Nat) : SameOrders s s' sec := by
  rw [h.eq]
  exact ⟨rfl, rfl⟩

theorem PagesOnly.bounded (hb : Bounded s) : Bounded s' :=
  hb.of_subset h.quiet.blocks.subset h.sameOrders

theorem PagesOnly.low (hl : Low s) : Low s' := hl.of_subset h.quiet.blocks.subset h.sameOrders

end

/-! ## Taking a block off -/

theorem firstNonEmptyUp_le (x : PageSection) : ∀ (n start : Nat) {o : Nat}, start ≤ o →
    o < start + n → (x.freelistList o).count ≠ 0 → firstNonEmptyUp x start n ≤ o
  | 0, start, o, hle, hlt, _ => by omega
  | n + 1, start, o, hle, hlt, hne => by
    rw [firstNonEmptyUp]
    split
    · exact hle
    · rename_i hzero
      have hstart : start ≠ o := by
        rintro rfl
        exact hzero hne
      exact firstNonEmptyUp_le x n (start + 1) (by omega) (by omega) hne

/-- `min_order` passes no list in use. -/
theorem settleOrders_minOrder_le (x : PageSection) (order : Nat) {o : Nat} (ho : o < MAX_ORDER)
    (hne : (x.freelistList o).count ≠ 0) (hle : x.minOrder ≤ o) :
    (settleOrders x order).minOrder ≤ o := by
  have hreset : (resetOrders x).minOrder ≤ o ∧ (resetOrders x).freelistList = x.freelistList := by
    unfold resetOrders
    split
    · exact ⟨Nat.zero_le _, rfl⟩
    · exact ⟨hle, rfl⟩
  have hmax : ∀ y, (settleMaxOrder y order).minOrder = y.minOrder := by
    intro y
    unfold settleMaxOrder
    split <;> rfl
  simp only [settleOrders]
  split
  · rw [hmax, settleMinOrder]
    split
    · exact firstNonEmptyUp_le _ _ _ (by omega) (by omega) (by rw [hreset.2]; exact hne)
    · exact hreset.1
  · exact hreset.1

/-- A section with free pages left keeps its `max_order`. -/
theorem settleOrders_maxOrder (x : PageSection) (order : Nat) (hfree : x.totalFree ≠ 0)
    (hlt : order < x.maxOrder) : (settleOrders x order).maxOrder = x.maxOrder := by
  have hmin : (settleMinOrder x order).maxOrder = x.maxOrder := by
    unfold settleMinOrder
    split <;> rfl
  simp only [settleOrders, show resetOrders x = x from if_neg hfree]
  split
  · rw [settleMaxOrder, if_neg (by omega), hmin]
  · rfl

/-- Where the bounds of a section come from when a page leaves its lists. -/
theorem takeOffFreelistToAddLater_orders
    (h : s.takeOffFreelistToAddLater sec order page = .ok s') :
    (∃ x, s'.sections sec = settleOrders x order ∧
      x.minOrder = (s.sections sec).minOrder ∧ x.maxOrder = (s.sections sec).maxOrder ∧
      x.totalFree = (s.sections sec).totalFree) ∧
    ∀ i, i ≠ sec → SameOrders s s' i := by
  unfold takeOffFreelistToAddLater listDelete at h
  split at h
  · cases h
    refine ⟨⟨_, update_self _ _ _, rfl, rfl, rfl⟩, ?_⟩
    intro i hi
    simp only [SameOrders, setSection, update_of_ne hi, and_self]
  · simp [bind, Except.bind] at h

/-- When a block leaves, no list below `min_order` comes into use. -/
theorem takeOffFreelistToAddLater_low (hs : Sound s) (hl : Low s) (hb : b ∈ s.blocks)
    (h : s.takeOffFreelistToAddLater b.sec b.order b.page = .ok s') :
    Low s' ∧ s'.blocks ⊆ s.blocks := by
  obtain ⟨t, hrun, hrem, _⟩ := takeOffFreelistToAddLater_removed hs hb
  rw [h] at hrun
  cases hrun
  have hs' := hrem.sound hs hb
  have hsub : s'.blocks ⊆ s.blocks := by
    rw [hrem.blocks hs hb]
    exact Set.sdiff_subset
  obtain ⟨⟨x, hx, hmin, _⟩, hother⟩ := takeOffFreelistToAddLater_orders h
  refine ⟨?_, hsub⟩
  intro c hc
  have hcmin := hl c (hsub hc)
  by_cases hi : c.sec = b.sec
  · have hcount : (x.freelistList c.order).count = (s'.freelist b.sec c.order).length := by
      rw [← hs'.count b.sec (hi ▸ hc.1) c.order hc.2.1, freelistCount, hx,
        settleOrders_freelistList]
    rw [hi, hx]
    refine settleOrders_minOrder_le x _ hc.2.1 ?_ (by rw [hmin, ← hi]; exact hcmin)
    rw [hcount, ← hi]
    exact ne_of_gt (List.length_pos_of_mem hc.2.2)
  · rw [(hother c.sec hi).1]
    exact hcmin

/-- A block leaves a section that counts free pages still: the bounds fit the other blocks. -/
theorem takeOffFreelistToAddLater_bounded (hs : Sound s) (hbd : Bounded s) (hb : b ∈ s.blocks)
    (h : s.takeOffFreelistToAddLater b.sec b.order b.page = .ok s')
    (hfree : (s.sections b.sec).totalFree ≠ 0) :
    Bounded s' ∧ ∀ sec, (s'.sections sec).maxOrder = (s.sections sec).maxOrder := by
  obtain ⟨hlow, hsub⟩ := takeOffFreelistToAddLater_low hs (fun c hc => (hbd c hc).1) hb h
  obtain ⟨⟨x, hx, _, hmax, htotal⟩, hother⟩ := takeOffFreelistToAddLater_orders h
  have hkeep := settleOrders_maxOrder x b.order
    (by rw [htotal]; exact hfree) (by rw [hmax]; exact (hbd b hb).2)
  have hmaxes : ∀ sec, (s'.sections sec).maxOrder = (s.sections sec).maxOrder := by
    intro sec
    by_cases hi : sec = b.sec
    · subst hi
      rw [hx, hkeep, hmax]
    · exact (hother sec hi).2
  refine ⟨fun c hc => ⟨hlow c hc, ?_⟩, hmaxes⟩
  rw [hmaxes]
  exact (hbd c (hsub hc)).2

/-- `take_off_freelist_order` gets to the same function with the totals lowered. -/
theorem takeOffFreelistOrder_lowered (s : PageAlloc) (sec order page removeOrder : Nat) :
    ∃ t : PageAlloc, s.takeOffFreelistOrder sec order page removeOrder =
        t.takeOffFreelistToAddLater sec order page ∧
      Quiet s t ∅ ∧ (∀ i, SameOrders s t i) ∧
      (t.sections sec).totalFree = sub64 (s.sections sec).totalFree (2 ^ removeOrder) := by
  have hquiet := (quiet_setZoneFree s (s.sections sec).zone
      (sub64 (s.zones (s.sections sec).zone).totalFree (2 ^ removeOrder))).trans
    (quiet_setSection _ sec (x := { s.sections sec with
      totalFree := sub64 (s.sections sec).totalFree (2 ^ removeOrder) }) rfl rfl rfl rfl rfl id)
  rw [Set.union_empty] at hquiet
  exact ⟨_, rfl, hquiet, sameOrders_update rfl rfl rfl, by simp only [setSection, update_self]⟩

section

variable (hs : Sound s) (hb : b ∈ s.blocks)
  (h : s.takeOffFreelistOrder b.sec b.order b.page removeOrder = .ok s')
include hs hb h

theorem takeOffFreelistOrder_bounded (hbd : Bounded s)
    (hfree : sub64 (s.sections b.sec).totalFree (2 ^ removeOrder) ≠ 0) :
    Bounded s' ∧ ∀ sec, (s'.sections sec).maxOrder = (s.sections sec).maxOrder := by
  obtain ⟨t, he, hquiet, horders, htotal⟩ :=
    takeOffFreelistOrder_lowered s b.sec b.order b.page removeOrder
  rw [he] at h
  obtain ⟨hbd', hmax⟩ := takeOffFreelistToAddLater_bounded
    (hquiet.sound hs (Set.empty_disjoint _)) (hbd.of_subset hquiet.blocks.subset horders)
    (by rw [hquiet.blocks]; exact hb) h (by rw [htotal]; exact hfree)
  refine ⟨hbd', fun sec => ?_⟩
  rw [hmax, (horders sec).2]

theorem takeOffFreelistOrder_low (hl : Low s) : Low s' := by
  obtain ⟨t, he, hquiet, horders, _⟩ :=
    takeOffFreelistOrder_lowered s b.sec b.order b.page removeOrder
  rw [he] at h
  exact (takeOffFreelistToAddLater_low (hquiet.sound hs (Set.empty_disjoint _))
    (hl.of_subset hquiet.blocks.subset horders) (by rw [hquiet.blocks]; exact hb) h).1

end

theorem takeOffFreelistOrder_other (h : s.takeOffFreelistOrder sec order page removeOrder = .ok s')
    {i : Nat} (hi : i ≠ sec) :
    SameOrders s s' i := by
  have hother := (takeOffFreelistToAddLater_orders h).2 i hi
  simp only [SameOrders, setSection, update_of_ne hi, setZoneFree] at hother
  exact hother

/-! ## Widening -/

theorem widenOrders_orders (x : PageSection) (order : Nat) :
    (widenOrders x order).minOrder = min x.minOrder order ∧
      (widenOrders x order).maxOrder = max x.maxOrder (order + 1) := by
  unfold widenOrders
  by_cases h1 : x.minOrder > order <;> by_cases h2 : x.maxOrder ≤ order <;> simp [h1, h2] <;> omega

/--
What a loop did that put blocks of the orders `lo` to `hi` on the lists of a section and widened
its bounds to `lo` at the end.
-/
structure Widened (s s' : PageAlloc) (sec lo hi : Nat) : Prop where
  sectionCount : s'.sectionCount = s.sectionCount
  other : ∀ i, i ≠ sec → SameOrders s s' i
  minOrder : (s'.sections sec).minOrder = min (s.sections sec).minOrder lo
  maxOrder : (s'.sections sec).maxOrder = max (s.sections sec).maxOrder (lo + 1)
  blocks : ∀ b ∈ s'.blocks, b ∈ s.blocks ∨ b.sec = sec ∧ lo ≤ b.order ∧ b.order ≤ hi

theorem Widened.bounded {lo : Nat} (h : Widened s s' sec lo hi) (hb : Bounded s)
    (hhi : hi < (s.sections sec).maxOrder ∨ hi = lo) : Bounded s' := by
  intro b hmem
  rcases h.blocks b hmem with hold | ⟨hsec, hlo, hle⟩
  · obtain ⟨hmin, hmax⟩ := hb b hold
    by_cases hi' : b.sec = sec
    · rw [hi'] at hmin hmax ⊢
      rw [h.minOrder, h.maxOrder]
      omega
    · rw [(h.other b.sec hi').1, (h.other b.sec hi').2]
      exact ⟨hmin, hmax⟩
  · rw [hsec, h.minOrder, h.maxOrder]
    omega

theorem Widened.low {lo : Nat} (h : Widened s s' sec lo hi) (hl : Low s) : Low s' := by
  intro b hmem
  rcases h.blocks b hmem with hold | ⟨hsec, hlo, _⟩
  · have hmin := hl b hold
    by_cases hi' : b.sec = sec
    · rw [hi'] at hmin ⊢
      rw [h.minOrder]
      omega
    · rw [(h.other b.sec hi').1]
      exact hmin
  · rw [hsec, h.minOrder]
    omega

theorem widened_setSection (s : PageAlloc) (sec : Nat) (ho : order < MAX_ORDER)
    (hcount : s'.sectionCount = s.sectionCount) (horders : ∀ i, SameOrders s s' i)
    (hblocks : ∀ b ∈ s'.blocks, b ∈ s.blocks ∨ b.sec = sec ∧ order ≤ b.order ∧ b.order ≤ hi) :
    Widened s (s'.setSection sec (widenOrders (s'.sections sec) order)) sec order hi where
  sectionCount := hcount
  other i hi := by
    simp only [SameOrders, setSection, update_of_ne hi]
    exact horders i
  minOrder := by
    simp only [setSection, update_self]
    rw [(widenOrders_orders _ _).1, (horders sec).1]
  maxOrder := by
    simp only [setSection, update_self]
    rw [(widenOrders_orders _ _).2, (horders sec).2]
  blocks b hb := by
    rw [(quiet_widenOrders s' sec ho).blocks] at hb
    exact hblocks b hb

/-! ## Splitting a block -/

theorem addToFreelistOrderFromHigher_orders (s : PageAlloc) (sec order page i : Nat) :
    SameOrders s (s.addToFreelistOrderFromHigher sec order page) i := by
  rw [addToFreelistOrderFromHigher_eq]
  refine sameOrders_update (Eq.refl (update s.sections sec _)) ?_ ?_ i <;> rfl

theorem addToFreelistOrderFromHigher_blocks
    (h : b ∈ (s.addToFreelistOrderFromHigher sec order page).blocks) :
    b ∈ s.blocks ∨ b.sec = sec ∧ b.order = order := by
  rw [addToFreelistOrderFromHigher_eq] at h
  obtain ⟨hsec, ho, hmem⟩ := h
  by_cases hi : b.sec = sec
  · by_cases hbo : b.order = order
    · exact .inr ⟨hi, hbo⟩
    · refine .inl ⟨hsec, ho, ?_⟩
      unfold freelist at hmem ⊢
      simpa [hi, hbo, PageSection.setFreelist] using hmem
  · refine .inl ⟨hsec, ho, ?_⟩
    unfold freelist at hmem ⊢
    simpa [update_of_ne hi] using hmem

theorem splitDown_sectionCount (sec page order : Nat) : ∀ (n : Nat) (s : PageAlloc),
    (s.splitDown sec page order n).sectionCount = s.sectionCount
  | 0, _ => rfl
  | n + 1, s => by
    rw [splitDown, splitDown_sectionCount sec page order n, addToFreelistOrderFromHigher_eq]

theorem splitDown_orders (sec page order : Nat) : ∀ (n : Nat) (s : PageAlloc),
    (∀ i, SameOrders s (s.splitDown sec page order n) i) ∧
    ∀ b ∈ (s.splitDown sec page order n).blocks,
      b ∈ s.blocks ∨ b.sec = sec ∧ order ≤ b.order ∧ b.order < order + n
  | 0, s => ⟨fun _ => ⟨rfl, rfl⟩, fun _ hb => .inl hb⟩
  | n + 1, s => by
    obtain ⟨horders, hblocks⟩ := splitDown_orders sec page order n
      (s.addToFreelistOrderFromHigher sec (order + n) (page + 2 ^ (order + n)))
    have hadd := addToFreelistOrderFromHigher_orders s sec (order + n) (page + 2 ^ (order + n))
    refine ⟨fun i => ⟨(horders i).1.trans (hadd i).1, (horders i).2.trans (hadd i).2⟩, ?_⟩
    intro b hb
    rcases hblocks b hb with hnew | ⟨hsec, hle, hlt⟩
    · rcases addToFreelistOrderFromHigher_blocks hnew with hold | ⟨hsec, ho⟩
      · exact .inl hold
      · exact .inr ⟨hsec, by omega, by omega⟩
    · exact .inr ⟨hsec, hle, by omega⟩

theorem finishAlloc_widened (s : PageAlloc) (sec page allocedOrder : Nat) (ho : order < MAX_ORDER) :
    Widened s (s.finishAlloc sec page order allocedOrder) sec order
      (max order (allocedOrder - 1)) := by
  obtain ⟨horders, hblocks⟩ := splitDown_orders sec page order (allocedOrder - order) s
  refine widened_setSection s sec ho (splitDown_sectionCount sec page order _ s) horders ?_
  intro b hb
  rcases hblocks b hb with hold | ⟨hsec, hle, hlt⟩
  · exact .inl hold
  · exact .inr ⟨hsec, hle, by omega⟩

/-! ## Freeing a run -/

theorem addToFreelistOrder_orders (s : PageAlloc) (sec order page i : Nat) :
    SameOrders s (s.addToFreelistOrder sec order page) i := by
  rw [addToFreelistOrder_eq]
  refine sameOrders_update (Eq.refl (update s.sections sec _)) ?_ ?_ i <;> rfl

/-- The orders of the blocks of a run go down, and the last one closes the bounds. -/
theorem CutUp.widened (h : CutUp sec s page order avail s') (hsec : sec < s.sectionCount) :
    ∃ lo ≤ order, Widened s s' sec lo order ∧ (2 ^ order ∣ avail → lo = order) := by
  have hblocks : ∀ {s : PageAlloc} {page order : Nat}, sec < s.sectionCount → order < MAX_ORDER →
      ∀ b ∈ (s.addToFreelistOrder sec order page).blocks,
        b ∈ s.blocks ∨ b.sec = sec ∧ order ≤ b.order ∧ b.order ≤ order := by
    intro s page order hsec ho b hb
    rw [(addToFreelistOrder_added s sec order page).blocks hsec ho] at hb
    rcases Set.mem_insert_iff.mp hb with rfl | hb
    · exact .inr ⟨rfl, le_rfl, le_rfl⟩
    · exact .inl hb
  induction h with
  | @last s page order ho =>
    exact ⟨order, le_rfl, widened_setSection s sec ho
      (addToFreelistOrder_added s sec order page).same.sectionCount
      (addToFreelistOrder_orders s sec order page) (hblocks hsec ho), fun _ => rfl⟩
  | @next s _ page order _ left ho hfit _ ih =>
    have horders := addToFreelistOrder_orders s sec order page
    have hcount := (addToFreelistOrder_added s sec order page).same.sectionCount
    obtain ⟨hle, hfits⟩ := orderFitting_some hfit
    obtain ⟨lo, hlast, hw, hdvd⟩ := ih (by rw [hcount]; exact hsec)
    refine ⟨lo, by omega, ⟨hw.sectionCount.trans hcount, ?_, ?_, ?_, ?_⟩, ?_⟩
    · intro i hi
      exact ⟨(hw.other i hi).1.trans (horders i).1, (hw.other i hi).2.trans (horders i).2⟩
    · rw [hw.minOrder, (horders sec).1]
    · rw [hw.maxOrder, (horders sec).2]
    · intro b hb
      rcases hw.blocks b hb with hnew | ⟨hbsec, hlo, hhi⟩
      · rcases hblocks hsec ho b hnew with hold | ⟨hbsec, hlo, hhi⟩
        · exact .inl hold
        · -- the block just added: everything behind it is no larger
          exact .inr ⟨hbsec, by omega, hhi⟩
      · exact .inr ⟨hbsec, hlo, by omega⟩
    · intro hd
      have hd' : 2 ^ order ∣ left := (Nat.dvd_add_right dvd_rfl).mp hd
      have hpos := Nat.two_pow_pos
      have hge : 2 ^ order ≤ left := Nat.le_of_dvd (lt_of_lt_of_le (hpos _) hfits) hd'
      rw [show orderFitting left order = some order by cases order <;> exact if_pos hge] at hfit
      cases hfit
      exact hdvd hd'

theorem orderFitting_max : ∀ {order o : Nat}, orderFitting avail order = some o →
    o = order ∨ avail < 2 ^ (o + 1)
  | 0, o, h => by
    unfold orderFitting at h
    split at h
    · injection h with h
      exact .inl h.symm
    · simp at h
  | order + 1, o, h => by
    unfold orderFitting at h
    split at h
    · injection h with h
      exact .inl h.symm
    · rcases orderFitting_max h with rfl | hlt
      · exact .inr (by omega)
      · exact .inr hlt

/--
The blocks that a run of `amount` pages is cut into stay in reach of the scan: the largest is
below `max_order`, or all of them have the order of the last.
-/
def Reached (s : PageAlloc) (sec amount : Nat) : Prop :=
  ∀ order, orderFitting amount (MAX_ORDER - 1) = some order →
    order < (s.sections sec).maxOrder ∨ 2 ^ order ∣ amount

theorem reached_of_le (h : amount ≤ 2 ^ k) (hk : k < (s.sections sec).maxOrder) : Reached s sec amount := by
  intro order hfit
  have hle : 2 ^ order ≤ 2 ^ k := (orderFitting_some hfit).2.trans h
  have ho : order ≤ k := (Nat.pow_le_pow_iff_right (by decide)).mp hle
  exact .inl (by omega)

theorem reached_two_pow (s : PageAlloc) (sec : Nat) (hk : k < MAX_ORDER) :
    Reached s sec (2 ^ k) := by
  intro order hfit
  obtain ⟨hle, hfits⟩ := orderFitting_some hfit
  have ho : order ≤ k := (Nat.pow_le_pow_iff_right (by decide)).mp hfits
  have hge : k ≤ order := by
    rcases orderFitting_max hfit with rfl | hlt
    · omega
    · have hlt' : k < order + 1 := (Nat.pow_lt_pow_iff_right (by decide)).mp hlt
      omega
  exact .inr (by rw [le_antisymm ho hge])

/-- **Freeing a run keeps every block in reach if the run's own blocks are.** -/
theorem freeRangeOfPages_bounded (hbd : Bounded s) (hsec : sec < s.sectionCount)
    (h : s.freeRangeOfPages page sec amount = .ok s') (hreach : Reached s sec amount) :
    Bounded s' ∧ (s.sections sec).maxOrder ≤ (s'.sections sec).maxOrder ∧
      s'.sectionCount = s.sectionCount := by
  obtain ⟨order, hfit, hcut⟩ := freeRangeOfPages_cutUp h
  obtain ⟨lo, _, hw, hdvd⟩ := hcut.widened hsec
  refine ⟨hw.bounded hbd ?_, by rw [hw.maxOrder]; exact le_max_left _ _, hw.sectionCount⟩
  rcases hreach order hfit with hlt | hd
  · exact .inl hlt
  · exact .inr (hdvd hd).symm

theorem freeRangeOfPages_low (hl : Low s) (hsec : sec < s.sectionCount)
    (h : s.freeRangeOfPages page sec amount = .ok s') :
    Low s' ∧ s'.sectionCount = s.sectionCount := by
  obtain ⟨_, _, hcut⟩ := freeRangeOfPages_cutUp h
  obtain ⟨_, _, hw, _⟩ := hcut.widened hsec
  exact ⟨hw.low hl, hw.sectionCount⟩

end OsKernel.Mm.PageAlloc
