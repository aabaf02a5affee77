import OsKernel.Mm.FreeLists

/-!
# The freelist operations, one at a time

Every path through the allocator is a sequence of three moves: put a fresh block on
a list (`add_to_freelist_order`), put a piece of a split block on a list
(`add_to_freelist_order_from_higher`), and take a block off (`take_off_freelist_…`).
Here each move is shown to be the `Added` or `Removed` of `FreeLists.lean`, together
with what it does to the totals. Nothing above this file unfolds them again.
-/

namespace OsKernel.Mm.PageAlloc

open Function PageSection PageFreelist

variable {s s' : PageAlloc} {b : Block} {order page sec : Nat} {sections : Nat → PageSection}
  {x : PageSection}

/-! ## Loops over pages -/

theorem forPages_modify (f : Nat → Page → Page) :
    ∀ (n : Nat) (s : PageAlloc) (first : Nat),
      forPages (fun s iter => s.modifyPage iter (f iter)) s first n
        = { s with pages := fun q =>
              if first ≤ q ∧ q < first + n then f q (s.pages q) else s.pages q }
  | 0, s, first => by
    have hnone : ∀ q, ¬ (first ≤ q ∧ q < first + 0) := fun q h => by omega
    simp only [forPages, hnone, if_false]
  | n + 1, s, first => by
    rw [forPages, forPages_modify f n]
    simp only [modifyPage, PageAlloc.mk.injEq, and_true]
    funext q
    by_cases hq : q = first
    · subst hq
      rw [if_neg (by omega), if_pos (by omega), update_self]
    · rw [update_of_ne hq]
      by_cases hin : first + 1 ≤ q ∧ q < first + 1 + n
      · rw [if_pos hin, if_pos (by omega)]
      · rw [if_neg hin, if_neg (by omega)]

theorem forPages_const (f : Page → Page) (hf : ∀ pg, f (f pg) = f pg) (page : Nat) :
    ∀ (n : Nat) (s : PageAlloc) (first : Nat),
      forPages (fun s _ => s.modifyPage page f) s first (n + 1) = s.modifyPage page f
  | 0, s, first => rfl
  | n + 1, s, first => by
    rw [forPages, forPages_const f hf page n]
    simp only [modifyPage, update_self, update_idem, hf]

theorem update_field {β : Type} (proj : PageSection → β) (h : proj x = proj (sections sec))
    (i : Nat) :
    proj (update sections sec x i) = proj (sections i) := by
  by_cases hi : i = sec
  · rw [hi, update_self]
    exact h
  · rw [update_of_ne hi]

theorem update_freelistList {i o : Nat} {fl : PageFreelist}
    (hx : x.freelistList = update (sections sec).freelistList order fl)
    (hne : (i, o) ≠ (sec, order)) :
    (update sections sec x i).freelistList o = (sections i).freelistList o := by
  by_cases hi : i = sec
  · subst hi
    have ho : o ≠ order := fun e => hne (by rw [e])
    rw [update_self, hx, update_of_ne ho]
  · rw [update_of_ne hi]

/-! ## Adding -/

/-- What the two adding functions have in common. -/
private theorem added_of_eqs (hcount : s'.sectionCount = s.sectionCount)
    (hzc : s'.zoneCount = s.zoneCount) (hzd : s'.zoneDefault = s.zoneDefault)
    (hend : s'.pageEnd = s.pageEnd) (hsec : ∃ total, s'.sections = update s.sections sec
      { (s.sections sec).setFreelist order
          ⟨page :: s.freelist sec order, s.freelistCount sec order + 1⟩ with totalFree := total })
    (hzl : ∀ zone, (s'.zones zone).sectionList = (s.zones zone).sectionList) (hhead : s'.pages page
      = { s.pages page with state := .freeListHead, data := .freelistHead order })
    (htail : ∀ q, page < q → q < page + 2 ^ order → s'.pages q
      = { s.pages q with state := .freeListTail, data := .freelistTail page })
    (hother : ∀ q, q ∉ Block.pages ⟨sec, order, page⟩ → s'.pages q = s.pages q) :
    Added s s' ⟨sec, order, page⟩ := by
  obtain ⟨total, hsec⟩ := hsec
  have hself := congrFun hsec sec
  have hlist : ∀ i o, (i, o) ≠ (sec, order) →
      (s'.sections i).freelistList o = (s.sections i).freelistList o := by
    intro i o hne
    rw [hsec, update_freelistList rfl hne]
  refine ⟨⟨hcount, hzc, hzd, hend, ?_, ?_, ?_, ?_, hzl, ?_⟩, ⟨?_, ?_, ?_, ?_⟩, hother, ?_, ?_, ?_,
    ?_, ?_⟩
  · exact hsec ▸ update_field zone rfl
  · exact hsec ▸ update_field front rfl
  · exact hsec ▸ update_field size rfl
  · exact hsec ▸ update_field pfn rfl
  · intro q
    by_cases hq : q ∈ Block.pages ⟨sec, order, page⟩
    · rcases eq_or_lt_of_le hq.1 with he | hlt
      · have he' : page = q := he
        rw [← he', hhead]
      · rw [htail q hlt hq.2]
    · rw [hother q hq]
  · rw [hhead]
  · rw [hhead]
  · intro q hq hq'
    rw [htail q hq hq']
  · intro q hq hq'
    rw [htail q hq hq']
  · unfold freelist
    rw [hself]
    simp [setFreelist, freelist]
  · exact fun i o hne => congrArg pageList (hlist i o hne)
  · unfold freelistCount
    rw [hself]
    simp [setFreelist, freelistCount]
  · exact fun i o hne => congrArg count (hlist i o hne)
  · exact hsec ▸ update_field maxOrder rfl

/-- The head of a block linked in, its tails rewritten. -/
private theorem linkHead_tails (sec order page : Nat) (f : Page → Page) :
    forPages (fun s iter => s.modifyPage iter f) (s.linkHead sec order page) (page + 1) (2 ^ order - 1)
      = { s.linkHead sec order page with
          pages := fun q =>
            if page + 1 ≤ q ∧ q < page + 1 + (2 ^ order - 1) then f (s.pages q)
            else if q = page then
              { s.pages page with state := .freeListHead, data := .freelistHead order }
            else s.pages q } := by
  have hpages : (s.linkHead sec order page).pages = update _ _ _ := rfl
  rw [forPages_modify (fun _ => f), hpages]
  simp only [PageAlloc.mk.injEq, and_true]
  funext q
  by_cases hin : page + 1 ≤ q ∧ q < page + 1 + (2 ^ order - 1)
  · rw [if_pos hin, if_pos hin, update_of_ne (by omega)]
  · rw [if_neg hin, if_neg hin, update_apply]

theorem addToFreelistOrder_eq (s : PageAlloc) (sec order page : Nat) :
    s.addToFreelistOrder sec order page = { s with
      pages := fun q =>
        if page + 1 ≤ q ∧ q < page + 1 + (2 ^ order - 1) then
          { s.pages q with state := .freeListTail, data := .freelistTail page }
        else if q = page then
          { s.pages page with state := .freeListHead, data := .freelistHead order }
        else s.pages q
      sections := update s.sections sec
        { (s.sections sec).setFreelist order
            ⟨page :: s.freelist sec order, s.freelistCount sec order + 1⟩ with
          totalFree := add64 (s.sections sec).totalFree (2 ^ order) }
      zones := update s.zones (s.sections sec).zone
        { s.zones (s.sections sec).zone with
          totalFree := add64 (s.zones (s.sections sec).zone).totalFree (2 ^ order) } } := by
  simp only [addToFreelistOrder, setZoneFree, setSection]
  rw [linkHead_tails]
  have hsections : (s.linkHead sec order page).sections = update _ _ _ := rfl
  simp only [hsections, update_self, update_idem]
  rfl

/-- `add_to_freelist_order` adds the block … -/
theorem addToFreelistOrder_added (s : PageAlloc) (sec order page : Nat) :
    Added s (s.addToFreelistOrder sec order page) ⟨sec, order, page⟩ := by
  have hpos := Nat.two_pow_pos order
  rw [addToFreelistOrder_eq]
  refine added_of_eqs rfl rfl rfl rfl ⟨_, rfl⟩ ?_ ?_ ?_ ?_
  · intro zone
    by_cases hz : zone = (s.sections sec).zone
    · simp only [hz, update_self]
    · simp only [update_of_ne hz]
  · simp only [if_true]
    rw [if_neg (by omega)]
  · intro q hq hq'
    simp only
    rw [if_pos (by omega)]
  · intro q hq
    rw [Block.mem_pages] at hq
    simp only at hq ⊢
    rw [if_neg (by omega), if_neg (by omega)]

/-- … and counts its pages. -/
theorem addToFreelistOrder_shift (s : PageAlloc) (sec order page : Nat) :
    Shift s (s.addToFreelistOrder sec order page) sec (add64 · (2 ^ order)) := by
  rw [addToFreelistOrder_eq]
  refine ⟨?_, ?_, ?_, ?_⟩
  · simp only [update_self]
  · intro i hi
    simp only [update_of_ne hi]
  · simp only [update_self]
  · intro z hz
    simp only [update_of_ne hz]

theorem addToFreelistOrderFromHigher_eq (s : PageAlloc) (sec order page : Nat) :
    s.addToFreelistOrderFromHigher sec order page = { s with
      pages := fun q =>
        if page + 1 ≤ q ∧ q < page + 1 + (2 ^ order - 1) then
          { s.pages q with data := .freelistTail page }
        else if q = page then
          { s.pages page with state := .freeListHead, data := .freelistHead order }
        else s.pages q
      sections := update s.sections sec
        ((s.sections sec).setFreelist order
          ⟨page :: s.freelist sec order, s.freelistCount sec order + 1⟩) } := by
  simp only [addToFreelistOrderFromHigher, setData]
  rw [linkHead_tails]
  rfl

/-- The pages were tail pages before, so they need no new state. -/
theorem addToFreelistOrderFromHigher_added (s : PageAlloc) (sec : Nat)
    (htails : ∀ q, page < q → q < page + 2 ^ order → (s.pages q).state = .freeListTail) :
    Added s (s.addToFreelistOrderFromHigher sec order page) ⟨sec, order, page⟩ := by
  have hpos := Nat.two_pow_pos order
  rw [addToFreelistOrderFromHigher_eq]
  refine added_of_eqs rfl rfl rfl rfl ⟨(s.sections sec).totalFree, rfl⟩ ?_ ?_ ?_ ?_
  · intro zone
    rfl
  · simp only [if_true]
    rw [if_neg (by omega)]
  · intro q hq hq'
    simp only
    rw [if_pos (by omega), ← htails q hq hq']
  · intro q hq
    rw [Block.mem_pages] at hq
    simp only at hq ⊢
    rw [if_neg (by omega), if_neg (by omega)]

theorem addToFreelistOrderFromHigher_shift (s : PageAlloc) (sec order page : Nat) :
    Shift s (s.addToFreelistOrderFromHigher sec order page) sec id := by
  rw [addToFreelistOrderFromHigher_eq]
  refine ⟨?_, ?_, rfl, fun _ _ => rfl⟩
  · simp only [update_self]
    rfl
  · intro i hi
    simp only [update_of_ne hi]

/-! ## Taking off -/

theorem onFreelist_iff :
    s.onFreelist page = true ↔ ∃ b ∈ s.blocks, b.page = page := by
  simp only [onFreelist, List.any_eq_true, List.mem_range, List.contains_iff_mem]
  constructor
  · rintro ⟨sec, hsec, order, ho, hmem⟩
    exact ⟨⟨sec, order, page⟩, ⟨hsec, ho, hmem⟩, rfl⟩
  · rintro ⟨b, hb, rfl⟩
    exact ⟨b.sec, hb.1, b.order, hb.2.1, hb.2.2⟩

theorem aboveNonEmptyDown_le (x : PageSection) (order : Nat) : aboveNonEmptyDown x order ≤ order := by
  induction order with
  | zero => exact le_rfl
  | succ order ih =>
    rw [aboveNonEmptyDown]
    split
    · exact le_rfl
    · exact Nat.le_succ_of_le ih

/-- Two sections that differ in their order bounds only, `max_order` not raised past `limit`. -/
def OrdersMoved (limit : Nat) (x y : PageSection) : Prop :=
  ∃ lo hi, y = { x with minOrder := lo, maxOrder := hi } ∧ (hi = x.maxOrder ∨ hi ≤ limit)

theorem OrdersMoved.refl (limit : Nat) (x : PageSection) : OrdersMoved limit x x :=
  ⟨_, _, rfl, .inl rfl⟩

theorem OrdersMoved.trans {limit : Nat} {y z : PageSection} (h : OrdersMoved limit x y)
    (h' : OrdersMoved limit y z) : OrdersMoved limit x z := by
  obtain ⟨lo, hi, rfl, hhi⟩ := h
  obtain ⟨lo', hi', rfl, hhi'⟩ := h'
  refine ⟨lo', hi', rfl, ?_⟩
  rcases hhi' with rfl | hle
  · exact hhi
  · exact .inr hle

/-- Settling the bounds after a page left a list changes the bounds and nothing else. -/
theorem settleOrders_moved (x : PageSection) (order : Nat) :
    OrdersMoved order x (settleOrders x order) := by
  have hreset : OrdersMoved order x (resetOrders x) := by
    unfold resetOrders
    split
    · exact ⟨0, 0, rfl, .inr (Nat.zero_le _)⟩
    · exact .refl _ _
  have hmin : ∀ y, OrdersMoved order y (settleMinOrder y order) := by
    intro y
    unfold settleMinOrder
    split
    · exact ⟨_, y.maxOrder, rfl, .inl rfl⟩
    · exact .refl _ _
  have hmax : ∀ y, OrdersMoved order y (settleMaxOrder y order) := by
    intro y
    unfold settleMaxOrder
    split
    · exact ⟨y.minOrder, _, rfl, .inr (aboveNonEmptyDown_le y order)⟩
    · exact .refl _ _
  unfold settleOrders
  simp only
  split
  · exact hreset.trans ((hmin _).trans (hmax _))
  · exact hreset

theorem settleOrders_freelistList (x : PageSection) (order : Nat) :
    (settleOrders x order).freelistList = x.freelistList := by
  obtain ⟨lo, hi, he, _⟩ := settleOrders_moved x order
  rw [he]

theorem settleOrders_totalFree (x : PageSection) (order : Nat) :
    (settleOrders x order).totalFree = x.totalFree := by
  obtain ⟨lo, hi, he, _⟩ := settleOrders_moved x order
  rw [he]

theorem Sound.block_unique (hs : Sound s) {c : Block} (hb : b ∈ s.blocks) (hc : c ∈ s.blocks)
    (h : b.page = c.page) : b = c := by
  by_contra hne
  exact Set.disjoint_left.mp (hs.disjoint hb hc hne) b.page_mem (h ▸ c.page_mem)

theorem quiet_setSection (s : PageAlloc) (sec : Nat) (hzone : x.zone = (s.sections sec).zone)
    (hfront : x.front = (s.sections sec).front) (hsize : x.size = (s.sections sec).size)
    (hpfn : x.pfn = (s.sections sec).pfn) (hlist : x.freelistList = (s.sections sec).freelistList)
    (hmax : (s.sections sec).maxOrder ≤ MAX_ORDER → x.maxOrder ≤ MAX_ORDER) :
    Quiet s (s.setSection sec x) ∅ where
  same := ⟨rfl, rfl, rfl, rfl, update_field PageSection.zone hzone,
    update_field PageSection.front hfront, update_field PageSection.size hsize,
    update_field PageSection.pfn hpfn, fun _ => rfl, fun _ => rfl⟩
  pages _ _ := rfl
  list i o := update_field (fun x => (x.freelistList o).pageList) (by simp only [hlist]) i
  count i o := update_field (fun x => (x.freelistList o).count) (by simp only [hlist]) i
  maxOrder i _ hle := by
    simp only [setSection]
    by_cases hi : i = sec
    · rw [hi, update_self]
      exact hmax (hi ▸ hle)
    · rw [update_of_ne hi]
      exact hle

theorem quiet_setZoneFree (s : PageAlloc) (zone free : Nat) : Quiet s (s.setZoneFree zone free) ∅ where
  same := by
    refine ⟨rfl, rfl, rfl, rfl, fun _ => rfl, fun _ => rfl, fun _ => rfl, fun _ => rfl, ?_,
      fun _ => rfl⟩
    intro z
    simp only [setZoneFree]
    by_cases hz : z = zone
    · rw [hz, update_self]
    · rw [update_of_ne hz]
  pages _ _ := rfl
  list _ _ := rfl
  count _ _ := rfl
  maxOrder _ _ hle := hle

theorem shift_totals (s : PageAlloc) (sec : Nat) (f : Nat → Nat) :
    Shift s ((s.setZoneFree (s.sections sec).zone
      (f (s.zones (s.sections sec).zone).totalFree)).setSection sec
      { s.sections sec with totalFree := f (s.sections sec).totalFree }) sec f := by
  refine ⟨?_, ?_, ?_, ?_⟩
  · simp only [setSection, update_self]
  · intro i hi
    simp only [setSection, update_of_ne hi, setZoneFree]
  · simp only [setSection, setZoneFree, update_self]
  · intro z hz
    simp only [setSection, setZoneFree, update_of_ne hz]

/-- `take_off_freelist_to_add_later` takes a listed block off and leaves the totals alone. -/
theorem takeOffFreelistToAddLater_removed (hs : Sound s) (hb : b ∈ s.blocks) :
    ∃ s', s.takeOffFreelistToAddLater b.sec b.order b.page = .ok s' ∧ Removed s s' b ∧
      Shift s s' b.sec id := by
  have hon : s.onFreelist b.page = true := onFreelist_iff.mpr ⟨b, hb, rfl⟩
  have hcount := hs.count b.sec hb.1 b.order hb.2.1
  have hpos : 0 < (s.freelist b.sec b.order).length := List.length_pos_of_mem hb.2.2
  -- the lists of every section, with the page gone
  set erased : Nat → PageSection := fun sec => { s.sections sec with
    freelistList := fun order =>
      { (s.sections sec).freelistList order with
        pageList := ((s.sections sec).freelistList order).pageList.erase b.page } } with herased
  set counted : PageSection := (erased b.sec).setFreelist b.order
    { (erased b.sec).freelistList b.order with
      count := sub64 ((erased b.sec).freelistList b.order).count 1 } with hcounted
  obtain ⟨lo, hi, hsettle, hhi⟩ := settleOrders_moved counted b.order
  refine ⟨{ s with sections := update erased b.sec (settleOrders counted b.order) }, ?_, ?_, ?_⟩
  · unfold takeOffFreelistToAddLater listDelete
    rw [if_pos hon]
    rfl
  · have hself : update erased b.sec (settleOrders counted b.order) b.sec
        = { counted with minOrder := lo, maxOrder := hi } := by
      rw [update_self, hsettle]
    have hlist : ∀ sec order, (sec, order) ≠ (b.sec, b.order) →
        (update erased b.sec (settleOrders counted b.order) sec).freelistList order
          = (erased sec).freelistList order :=
      fun sec order => update_freelistList (settleOrders_freelistList counted b.order)
    refine ⟨⟨rfl, rfl, rfl, rfl, ?_, ?_, ?_, ?_, fun _ => rfl, fun _ => rfl⟩, rfl, ?_, ?_, ?_, ?_, ?_⟩
    · exact update_field zone (by rw [hsettle]; rfl)
    · exact update_field front (by rw [hsettle]; rfl)
    · exact update_field size (by rw [hsettle]; rfl)
    · exact update_field pfn (by rw [hsettle]; rfl)
    · unfold freelist
      simp only [hself]
      simp [hcounted, herased, setFreelist]
    · intro sec hsec order ho hne
      have hgone : b.page ∉ s.freelist sec order := by
        intro hmem
        have := hs.block_unique (b := ⟨sec, order, b.page⟩) ⟨hsec, ho, hmem⟩ hb rfl
        exact hne (by rw [← this])
      exact (congrArg pageList (hlist sec order hne)).trans (List.erase_of_not_mem hgone)
    · unfold freelistCount
      simp only [hself]
      have hle : 1 ≤ ((s.sections b.sec).freelistList b.order).count := by
        have : ((s.sections b.sec).freelistList b.order).count = _ := hcount
        omega
      simp [hcounted, herased, setFreelist, sub64, hle]
    · exact fun sec order hne => (congrArg count (hlist sec order hne)).trans rfl
    · intro sec hsec
      by_cases hib : sec = b.sec
      · subst hib
        simp only [hself]
        rcases hhi with he | hle
        · rw [he]
          exact hs.maxOrder b.sec hb.1
        · exact hle.trans hb.2.1.le
      · simp only [update_of_ne hib]
        exact hs.maxOrder sec hsec
  · refine ⟨?_, ?_, rfl, fun _ _ => rfl⟩
    · simp only [update_self, hsettle]
      rfl
    · intro i hi
      simp only [update_of_ne hi]
      rfl

theorem Quiet.removed {s'' : PageAlloc} (h : Quiet s s' ∅) (h' : Removed s' s'' b) :
    Removed s s'' b where
  same := h.same.trans h'.same
  pages := by
    rw [h'.pages]
    funext q
    exact h.pages q (Set.notMem_empty q)
  list := by rw [h'.list, h.list]
  listOther sec hsec order ho hne := by
    rw [h'.listOther sec (by rw [h.same.sectionCount]; exact hsec) order ho hne, h.list]
  count := by rw [h'.count, h.count]
  countOther sec order hne := by rw [h'.countOther sec order hne, h.count]
  maxOrder sec hsec := h'.maxOrder sec (by rw [h.same.sectionCount]; exact hsec)

/-- `take_off_freelist_order` takes a listed block off and lowers the totals. -/
theorem takeOffFreelistOrder_removed (hs : Sound s) (hb : b ∈ s.blocks) (removeOrder : Nat) :
    ∃ s', s.takeOffFreelistOrder b.sec b.order b.page removeOrder = .ok s' ∧ Removed s s' b ∧
      Shift s s' b.sec (sub64 · (2 ^ removeOrder)) := by
  have hquiet := (quiet_setZoneFree s (s.sections b.sec).zone
      (sub64 (s.zones (s.sections b.sec).zone).totalFree (2 ^ removeOrder))).trans
    (quiet_setSection _ b.sec (x := { s.sections b.sec with
      totalFree := sub64 (s.sections b.sec).totalFree (2 ^ removeOrder) }) rfl rfl rfl rfl rfl id)
  rw [Set.union_empty] at hquiet
  have hshift := shift_totals s b.sec (sub64 · (2 ^ removeOrder))
  obtain ⟨s', hrun, hrem, hsh⟩ := takeOffFreelistToAddLater_removed
    (hquiet.sound hs (Set.empty_disjoint _)) (by rw [hquiet.blocks]; exact hb)
  exact ⟨s', hrun, hquiet.removed hrem, hshift.trans (hquiet.same.zone _) hsh⟩

theorem Sound.takenOff (hs : Sound s) (hb : b ∈ s.blocks) {removeOrder : Nat}
    (h : s.takeOffFreelistOrder b.sec b.order b.page removeOrder = .ok s') :
    Removed s s' b ∧ Shift s s' b.sec (sub64 · (2 ^ removeOrder)) := by
  obtain ⟨t, hrun, hrem, hshift⟩ := takeOffFreelistOrder_removed hs hb removeOrder
  rw [h] at hrun
  cases hrun
  exact ⟨hrem, hshift⟩

end OsKernel.Mm.PageAlloc
