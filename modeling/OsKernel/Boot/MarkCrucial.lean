import OsKernel.Boot.Merge
import OsKernel.Mm.EarlyClaim

/-!
# Marking the pages that are in use (`mark_crucial_pages` in `kernel/mm/early.c`)

Before the sections are merged, every page of a section that the early allocator does not
have any more is marked. The function walks a page pointer and the list of free areas side
by side, and each of its loops ends when the page pointer is equal to a certain page. An
area is told to belong to a section by where it begins. If it ends in the section too, the
page pointer meets every page it is compared with. If it does not, which happens where the
areas of two neighbouring memory maps were merged, the pointer is past the end of the
section before it is compared with it, and runs out of the table of pages.
-/

namespace OsKernel.Boot

open List

open Adt (Range)
open LinkedRing
open Mm (PAGE_SIZE pageCount Early PageState)

variable {fault : Fault} {areas : List Nat} {a end_ iter n p q slot : Nat}

/-- The state of every `struct page`. -/
abbrev PageStates := Nat → PageState

/--
`for (; page != end; page++)`, writing a field of each page, with `room` pages left in the table of
pages, behind which there is a fault.
-/
def fillUntil {α : Type} (fault : Fault) (value : α) (end_ : Nat) :
    Nat → (Nat → α) → Nat → Result (Nat → α)
  | 0, fields, page => if page = end_ then .ok fields else .error fault
  | room + 1, fields, page =>
    if page = end_ then .ok fields
    else fillUntil fault value end_ room (Function.update fields page value) (page + 1)

section

variable (b : Sections) (e : Early) (pageEnd : Nat)

/-- Mark from a page up to another one, in a table of `pageEnd` pages. -/
def markPages (states : PageStates) (page end_ : Nat) : Result PageStates :=
  fillUntil .outOfBounds .systemCrucial end_ (pageEnd - page) states page

/-- The `while (true)` loop, with `page` at the beginning of the area `iter`. -/
def markAreas (memmap : Range) (start : Nat) : Nat → PageStates → Nat → Nat → Result PageStates
  | 0, _, _, _ => .error .outOfFuel
  | fuel + 1, states, iter, page => do
    let page := page + e.availPageCount iter
    -- `i` runs from the available pages to the total, as a 64-bit number
    let behind := page + (e.totalPageCount iter + U64 - e.availPageCount iter) % U64
    let states ← markPages pageEnd states page behind
    match (e.list (.node iter)).next with
    | none => .error .nullDeref
    | some .head => markPages pageEnd states behind (start + pageCount memmap.size)
    | some (.node next) =>
      if !memmap.hasLoc next then
        markPages pageEnd states behind (start + pageCount memmap.size)
      else do
        let end_ ← b.physToPfn next
        let states ← markPages pageEnd states behind end_
        markAreas memmap start fuel states next end_

/-- `mark_crucial_pages`. -/
def markCrucialPages (fuel : Nat) (states : PageStates) (memmap : Range) : Result PageStates := do
  match ← listForeachFind e.list
      (fun iter => .ok (if memmap.hasLoc iter then some () else none)) fuel .head with
  | none => do
    let page ← b.physToPfn memmap.front
    markPages pageEnd states page (page + pageCount memmap.size)
  | some (iter, _) => do
    let start ← b.physToPfn memmap.front
    let unusableEnd ← b.physToPfn iter
    let states ← markPages pageEnd states start unusableEnd
    markAreas b e pageEnd memmap start fuel states iter unusableEnd

end

/-! ## What should be marked -/

/-- Areas one behind the other, and what they take up. -/
structure Row (e : Early) (areas : List Nat) : Prop where
  aligned : ∀ p ∈ areas, PAGE_SIZE ∣ p
  /-- An area has pages, and has not got more than when it was claimed. -/
  counts : ∀ p ∈ areas, 0 < e.availPageCount p ∧ e.availPageCount p ≤ e.totalPageCount p ∧
    e.totalPageCount p < U64
  apart : areas.Pairwise fun p q => p + e.totalPageCount p * PAGE_SIZE ≤ q

/-- The free areas on their list. -/
structure FreeAreas (b : Sections) (e : Early) (L : List Nat) : Prop extends Row e L where
  list : IsRing e.list .head (L.map .node)
  /-- The available pages are usable memory. -/
  usable : ∀ p ∈ L, ∀ a, p ≤ a → a < p + e.availPageCount p * PAGE_SIZE → a ∈ b.covered

/-- An address in an available page. -/
def Available (e : Early) (L : List Nat) (a : Nat) : Prop :=
  ∃ p ∈ L, p ≤ a ∧ a < p + e.availPageCount p * PAGE_SIZE

/-- The pages of a range that are not available are marked, and no others. -/
structure Marks (b : Sections) (e : Early) (L : List Nat) (range : Range)
    (states states' : PageStates) : Prop where
  used : ∀ a ∈ range.locs, PAGE_SIZE ∣ a → ¬ Available e L a →
    ∀ page, b.physToPfn a = .ok page → states' page = .systemCrucial
  available : ∀ a ∈ range.locs, PAGE_SIZE ∣ a → Available e L a →
    ∀ page, b.physToPfn a = .ok page → states' page = states page
  outside : ∀ page, (∀ a ∈ range.locs, b.physToPfn a ≠ .ok page) → states' page = states page

/-! ## Loops that end on equality -/

section

variable {α : Type} {value : α} {P Q : Nat → Prop} {fields fields' : Nat → α}

/-- The pages with a property have a value in their field, and the others are left alone. -/
def FilledWhere (value : α) (P : Nat → Prop) (fields fields' : Nat → α) : Prop :=
  ∀ page, (P page → fields' page = value) ∧ (¬ P page → fields' page = fields page)

theorem fillUntil_eq : ∀ {room : Nat} (fields : Nat → α) (page : Nat),
    page ≤ end_ → end_ ≤ page + room →
    ∃ fields', fillUntil fault value end_ room fields page = .ok fields' ∧
      FilledWhere value (fun n => page ≤ n ∧ n < end_) fields fields' := by
  intro room
  induction room with
  | zero =>
    intro fields page hle hroom
    obtain rfl : page = end_ := by omega
    refine ⟨fields, by rw [fillUntil, if_pos rfl], fun n => ⟨fun h => by omega, fun _ => rfl⟩⟩
  | succ room ih =>
    intro fields page hle hroom
    rw [fillUntil]
    by_cases hdone : page = end_
    · rw [if_pos hdone]
      exact ⟨fields, rfl, fun n => ⟨fun h => by omega, fun _ => rfl⟩⟩
    · rw [if_neg hdone]
      obtain ⟨fields', hrun, hfilled⟩ :=
        ih (Function.update fields page value) (page + 1) (by omega) (by omega)
      refine ⟨fields', hrun, fun n => ⟨fun h => ?_, fun h => ?_⟩⟩
      · by_cases hn : n = page
        · rw [(hfilled n).2 (by omega), hn, Function.update_self]
        · exact (hfilled n).1 (by omega)
      · rw [(hfilled n).2 (by omega), Function.update_of_ne (by omega)]

theorem fillUntil_past : ∀ {room : Nat} {fields : Nat → α} {page : Nat},
    end_ < page → fillUntil fault value end_ room fields page = .error fault := by
  intro room
  induction room with
  | zero =>
    intro fields page hlt
    rw [fillUntil, if_neg (by omega)]
  | succ room ih =>
    intro fields page hlt
    rw [fillUntil, if_neg (by omega)]
    exact ih (by omega)

theorem FilledWhere.trans {fields'' : Nat → α} (h : FilledWhere value P fields fields')
    (h' : FilledWhere value Q fields' fields'') :
    FilledWhere value (fun n => P n ∨ Q n) fields fields'' := by
  intro n
  refine ⟨fun hn => ?_, fun hn => ?_⟩
  · by_cases hq : Q n
    · exact (h' n).1 hq
    · rw [(h' n).2 hq]
      exact (h n).1 (hn.resolve_right hq)
  · rw [(h' n).2 fun hq => hn (Or.inr hq), (h n).2 fun hp => hn (Or.inl hp)]

theorem FilledWhere.congr (h : FilledWhere value P fields fields') (hsame : ∀ n, Q n ↔ P n) :
    FilledWhere value Q fields fields' :=
  fun n => ⟨fun hn => (h n).1 ((hsame n).mp hn), fun hn => (h n).2 fun hp => hn ((hsame n).mpr hp)⟩

end

/-- The pages with a property are marked, and no others. -/
abbrev MarkedWhere := FilledWhere PageState.systemCrucial

theorem markPages_eq (pageEnd : Nat) (states : PageStates) (page end_ : Nat) (hle : page ≤ end_)
    (hend : end_ ≤ pageEnd) : ∃ states', markPages pageEnd states page end_ = .ok states' ∧
      MarkedWhere (fun n => page ≤ n ∧ n < end_) states states' :=
  fillUntil_eq states page hle (by omega)

/-! ## The areas of one section -/

/-- The page of an address by a certain section. -/
def Section.pageOf (x : Section) (a : Nat) : Nat := x.pfn + (a - x.range.front) / PAGE_SIZE

/-- A section of whole pages that has its addresses to itself. -/
structure Owns (b : Sections) (x : Section) : Prop where
  front : PAGE_SIZE ∣ x.range.front
  size : PAGE_SIZE ∣ x.range.size
  pos : 0 < x.range.size
  page : ∀ a ∈ x.range.locs, b.physToPfn a = .ok (x.pageOf a)

/-- A page of the section in none of the areas. -/
def Unused (x : Section) (e : Early) (areas : List Nat) (n : Nat) : Prop :=
  n < x.pageOf x.range.end_ ∧
    ∀ q ∈ areas, ¬ (x.pageOf q ≤ n ∧ n < x.pageOf q + e.availPageCount q)

section

variable {b : Sections} {e : Early} {x : Section} {pageEnd fuel : Nat}

theorem Sections.Laid.owns (h : b.Laid) (hslot : slot < b.count) :
    Owns b (b.list slot) :=
  ⟨(h.aligned slot hslot).1, (h.aligned slot hslot).2, (h.fits slot hslot).1,
    fun _ ha => h.physToPfn_eq ⟨slot, hslot, ha, rfl⟩⟩

theorem front_le_end (x : Section) : x.range.front ≤ x.range.end_ := le_self_add

theorem pageOf_end (x : Section) : x.pageOf x.range.end_ = x.pfn + pageCount x.range.size := by
  unfold Section.pageOf pageCount Range.end_
  rw [Nat.add_sub_cancel_left]

theorem Owns.pageOf_add_le (hx : Owns b x) {a' : Nat} (ha : PAGE_SIZE ∣ a) (hge : x.range.front ≤ a)
    (hge' : x.range.front ≤ a') :
    x.pageOf a + n ≤ x.pageOf a' ↔ a + n * PAGE_SIZE ≤ a' := by
  have hpage : PAGE_SIZE = 4096 := rfl
  have hfront := hx.front
  unfold Section.pageOf
  rw [hpage] at hfront ha ⊢
  omega

theorem Owns.pageOf_lt (hx : Owns b x) (ha : a ∈ x.range.locs) :
    x.pageOf a < x.pageOf x.range.end_ := by
  have hge := ha.1
  have hlt : a < x.range.front + x.range.size := ha.2
  rw [pageOf_end]
  exact Nat.add_lt_add_left (Nat.div_lt_div_of_lt_of_dvd hx.size (by omega)) _

theorem Owns.pageOf_onto (hx : Owns b x) (hge : x.pfn ≤ n) (hlt : n < x.pageOf x.range.end_) :
    ∃ a ∈ x.range.locs, x.pageOf a = n := by
  refine ⟨x.range.front + (n - x.pfn) * PAGE_SIZE, ⟨le_self_add, ?_⟩, ?_⟩
  · rw [pageOf_end, pageCount] at hlt
    have hmul := (Nat.lt_div_iff_mul_lt_of_dvd (by decide) hx.size).mp
      (show n - x.pfn < x.range.size / PAGE_SIZE by omega)
    exact Nat.add_lt_add_left hmul _
  · unfold Section.pageOf
    rw [Nat.add_sub_cancel_left, Nat.mul_div_cancel _ (by decide), Nat.add_sub_cancel' hge]

theorem Row.sublist {areas' : List Nat} (h : Row e areas) (hsub : areas'.Sublist areas) :
    Row e areas' :=
  ⟨fun q hq => h.aligned q (hsub.subset hq), fun q hq => h.counts q (hsub.subset hq),
    h.apart.sublist hsub⟩

theorem Row.tail (h : Row e (p :: areas)) : Row e areas :=
  h.sublist (sublist_cons_self _ _)

theorem Row.pageOf_le (h : Row e (p :: areas)) (hx : Owns b x) (hp : p ∈ x.range.locs)
    (hq : q ∈ areas) :
    x.pageOf p + e.totalPageCount p ≤ x.pageOf q := by
  have hle := (pairwise_cons.mp h.apart).1 q hq
  exact (hx.pageOf_add_le (h.aligned p mem_cons_self) hp.1
    (hp.1.trans (le_self_add.trans hle))).mpr hle

/-! ### The turns of the loop -/

/-- The number of turns of the loop over the pages that were taken from the end of an area. -/
theorem Row.taken (h : Row e areas) (hp : p ∈ areas) (page : Nat) :
    page + e.availPageCount p + (e.totalPageCount p + U64 - e.availPageCount p) % U64 =
      page + e.totalPageCount p := by
  obtain ⟨-, hle, hlt⟩ := h.counts p hp
  rw [show e.totalPageCount p + U64 - e.availPageCount p =
    e.totalPageCount p - e.availPageCount p + U64 by omega, Nat.add_mod_right,
    Nat.mod_eq_of_lt (by omega)]
  omega

/-- The last area of the section: what is behind it, up to the end. -/
theorem markAreas_last (hrow : Row e areas) (hiter : iter ∈ areas) {next : ListPtr}
    (hnext : (e.list (.node iter)).next = some next) (hout : ∀ q, next = .node q → q ∉ x.range.locs)
    (states : PageStates) (page : Nat) :
    markAreas b e pageEnd x.range x.pfn (fuel + 1) states iter page =
      markPages pageEnd states (page + e.availPageCount iter) (page + e.totalPageCount iter) >>=
        fun states => markPages pageEnd states (page + e.totalPageCount iter)
          (x.pageOf x.range.end_) := by
  rw [markAreas, hrow.taken hiter, hnext, pageOf_end]
  cases next with
  | head => rfl
  | node q =>
    have hno := Bool.eq_false_of_not_eq_true (mt Range.hasLoc_iff.mp (hout q rfl))
    simp only [hno, Bool.not_false, if_true]

/-- Another area of the section comes next. -/
theorem markAreas_next (hx : Owns b x) (hrow : Row e areas) (hiter : iter ∈ areas)
    (hnext : (e.list (.node iter)).next = some (.node q)) (hq : q ∈ x.range.locs)
    (states : PageStates) (page : Nat) :
    markAreas b e pageEnd x.range x.pfn (fuel + 1) states iter page =
      markPages pageEnd states (page + e.availPageCount iter) (page + e.totalPageCount iter) >>=
        fun states => markPages pageEnd states (page + e.totalPageCount iter) (x.pageOf q) >>=
          fun states => markAreas b e pageEnd x.range x.pfn fuel states q (x.pageOf q) := by
  rw [markAreas, hrow.taken hiter, hnext]
  simp only [Range.hasLoc_iff.mpr hq, Bool.not_true, Bool.false_eq_true, if_false, hx.page q hq,
    ok_bind]

/-! ### The areas in turn -/

variable {out : List Nat}

/-- The list goes on to an area of the section, or out of it. -/
theorem next_out (hway : Way e.list (.node iter) (out.map .node) .head)
    (hout : ∀ q ∈ out, q ∉ x.range.locs) : ∃ next, (e.list (.node iter)).next = some next ∧
      ∀ q, next = .node q → q ∉ x.range.locs := by
  cases out with
  | nil => exact ⟨.head, hway.1, fun q hq => by cases hq⟩
  | cons q out =>
    refine ⟨.node q, hway.1.1, fun q' hq' => ?_⟩
    cases hq'
    exact hout q mem_cons_self

/--
Where the areas that begin in the section end in it, the loop marks what lies between them. All but
the last end where another one begins, or before.
-/
theorem markAreas_eq (hx : Owns b x) (htable : x.pageOf x.range.end_ ≤ pageEnd)
    (hout : ∀ q ∈ out, q ∉ x.range.locs) : ∀ {mid : List Nat} {iter fuel : Nat}
    (states : PageStates), Way e.list (.node iter) ((mid ++ out).map .node) .head →
    Row e (iter :: mid) → (∀ q ∈ iter :: mid, q ∈ x.range.locs) →
    (∀ q ∈ iter :: mid, q + e.totalPageCount q * PAGE_SIZE ≤ x.range.end_) → mid.length < fuel →
    ∃ states', markAreas b e pageEnd x.range x.pfn fuel states iter (x.pageOf iter) = .ok states' ∧
      MarkedWhere (fun n => x.pageOf iter ≤ n ∧ Unused x e (iter :: mid) n) states states' := by
  intro mid
  induction mid with
  | nil =>
    intro iter fuel states hway hrow hin hends hfuel
    obtain ⟨fuel, rfl⟩ : ∃ k, fuel = k + 1 := ⟨fuel - 1, by omega⟩
    have hiter := mem_singleton_self iter
    have hcounts := hrow.counts iter hiter
    have hroom := (hx.pageOf_add_le (hrow.aligned iter hiter) (hin iter hiter).1
      (front_le_end x)).mpr (hends iter hiter)
    obtain ⟨s₁, hrun₁, h₁⟩ := markPages_eq pageEnd states (x.pageOf iter + e.availPageCount iter)
      (x.pageOf iter + e.totalPageCount iter) (by omega) (by omega)
    obtain ⟨s₂, hrun₂, h₂⟩ := markPages_eq pageEnd s₁ (x.pageOf iter + e.totalPageCount iter)
      (x.pageOf x.range.end_) hroom htable
    obtain ⟨next, hnext, hno⟩ := next_out hway hout
    rw [markAreas_last hrow hiter hnext hno, hrun₁, ok_bind]
    refine ⟨s₂, hrun₂, (h₁.trans h₂).congr fun n => ?_⟩
    rw [Unused, forall_mem_singleton]
    omega
  | cons q mid ih =>
    intro iter fuel states hway hrow hin hends hfuel
    obtain ⟨fuel, rfl⟩ : ∃ k, fuel = k + 1 := ⟨fuel - 1, by omega⟩
    have hiter : iter ∈ iter :: q :: mid := mem_cons_self
    have hq : q ∈ x.range.locs := hin q (by simp)
    have hcounts := hrow.counts iter hiter
    have hlater : ∀ q' ∈ q :: mid, x.pageOf q ≤ x.pageOf q' := by
      intro q' hq'
      rcases mem_cons.mp hq' with rfl | hq'
      · exact le_rfl
      · exact le_self_add.trans (hrow.tail.pageOf_le hx hq hq')
    have hupto := hrow.pageOf_le hx (hin iter hiter) (mem_cons_self (a := q) (l := mid))
    have hbelow := hx.pageOf_lt hq
    obtain ⟨s₁, hrun₁, h₁⟩ := markPages_eq pageEnd states (x.pageOf iter + e.availPageCount iter)
      (x.pageOf iter + e.totalPageCount iter) (by omega) (by omega)
    obtain ⟨s₂, hrun₂, h₂⟩ := markPages_eq pageEnd s₁ (x.pageOf iter + e.totalPageCount iter)
      (x.pageOf q) hupto (by omega)
    obtain ⟨s₃, hrun₃, h₃⟩ := ih s₂ hway.2 hrow.tail (fun q' hq' => hin q' (.tail _ hq'))
      (fun q' hq' => hends q' (.tail _ hq')) (by simpa using hfuel)
    rw [markAreas_next hx hrow hiter hway.1.1 hq, hrun₁, ok_bind, hrun₂, ok_bind]
    refine ⟨s₃, hrun₃, ((h₁.trans h₂).trans h₃).congr fun n => ?_⟩
    rw [Unused, Unused, forall_mem_cons]
    -- pages below the next area are in no later area
    have hfree : n < x.pageOf q →
        ∀ q' ∈ q :: mid, ¬ (x.pageOf q' ≤ n ∧ n < x.pageOf q' + e.availPageCount q') := by
      intro hlow q' hq'
      have := hlater q' hq'
      omega
    generalize (∀ q' ∈ q :: mid, ¬ (x.pageOf q' ≤ n ∧ n < x.pageOf q' + e.availPageCount q')) = U
      at hfree
    by_cases hU : U
    · simp only [hU, and_true]
      omega
    · simp only [hU, and_false, or_false, false_iff]
      have := mt hfree hU
      omega

/-- An area that crosses the end of the section leaves the page pointer past it. -/
theorem markAreas_crosses (hx : Owns b x) (hout : ∀ q ∈ out, q ∉ x.range.locs) :
    ∀ {mid : List Nat} {iter fuel : Nat} {states states' : PageStates},
    Way e.list (.node iter) ((mid ++ out).map .node) .head → Row e (iter :: mid) →
    (∀ q ∈ iter :: mid, q ∈ x.range.locs) →
    (∃ q ∈ iter :: mid, x.range.end_ < q + e.totalPageCount q * PAGE_SIZE) →
    markAreas b e pageEnd x.range x.pfn fuel states iter (x.pageOf iter) ≠ .ok states' := by
  intro mid
  induction mid with
  | nil =>
    intro iter fuel states states' hway hrow hin hcross hrun
    obtain ⟨q, hq, hcross⟩ := hcross
    obtain rfl := mem_singleton.mp hq
    cases fuel with
    | zero => cases hrun
    | succ fuel =>
      obtain ⟨next, hnext, hno⟩ := next_out hway hout
      rw [markAreas_last hrow hq hnext hno, bind_eq_ok] at hrun
      obtain ⟨s₁, -, hrun⟩ := hrun
      have hpast := mt (hx.pageOf_add_le (hrow.aligned q hq) (hin q hq).1
        (front_le_end x)).mp (not_le.mpr hcross)
      rw [markPages, fillUntil_past (not_le.mp hpast)] at hrun
      cases hrun
  | cons q mid ih =>
    intro iter fuel states states' hway hrow hin hcross hrun
    have hq : q ∈ x.range.locs := hin q (by simp)
    have hapart := (pairwise_cons.mp hrow.apart).1 q mem_cons_self
    cases fuel with
    | zero => cases hrun
    | succ fuel =>
      rw [markAreas_next hx hrow mem_cons_self hway.1.1 hq, bind_eq_ok] at hrun
      obtain ⟨s₁, -, hrun⟩ := hrun
      obtain ⟨s₂, -, hrun⟩ := bind_eq_ok.mp hrun
      refine ih hway.2 hrow.tail (fun q' hq' => hin q' (.tail _ hq')) ?_ hrun
      obtain ⟨q', hq', hcross⟩ := hcross
      rcases mem_cons.mp hq' with rfl | hq'
      · exact absurd (hapart.trans_lt hq.2) (not_lt.mpr hcross.le)
      · exact ⟨q', hq', hcross⟩

end

/-! ## The whole function -/

section

variable {b : Sections} {e : Early} {x : Section} {L : List Nat} {pageEnd fuel : Nat}

/-- The areas that begin in the section stand together. -/
theorem Row.split {B : List Nat} : ∀ {p : Nat}, Row e (p :: B) → p ∈ x.range.locs →
    ∃ mid out, B = mid ++ out ∧ (∀ q ∈ p :: mid, q ∈ x.range.locs) ∧
      ∀ q ∈ out, q ∉ x.range.locs := by
  induction B with
  | nil =>
    intro p _ hp
    exact ⟨[], [], rfl, by simpa using hp, by simp⟩
  | cons q B ih =>
    intro p hrow hp
    by_cases hq : q ∈ x.range.locs
    · obtain ⟨mid, out, rfl, hin, hout⟩ := ih hrow.tail hq
      exact ⟨q :: mid, out, rfl, forall_mem_cons.mpr ⟨hp, hin⟩, hout⟩
    · -- the area begins behind the section, and the later ones behind it
      have hle := (pairwise_cons.mp hrow.apart).1 q mem_cons_self
      have hbehind : x.range.end_ ≤ q := not_lt.mp fun hlt =>
        hq ⟨hp.1.trans (le_self_add.trans hle), hlt⟩
      refine ⟨[], q :: B, rfl, by simpa using hp, forall_mem_cons.mpr ⟨hq, ?_⟩⟩
      intro q' hq' hin
      have hle' := (pairwise_cons.mp hrow.tail.apart).1 q' hq'
      have hlt := hin.2
      omega

/--
The function on a section, by the areas that begin in it: it marks what lies between them if they
end in it, and fails if one does not.
-/
theorem markCrucialPages_eq (pageEnd : Nat) (hx : Owns b x) (h : FreeAreas b e L)
    (hfuel : L.length < fuel) :
    ∃ M : List Nat, (∀ q, q ∈ M ↔ q ∈ L ∧ q ∈ x.range.locs) ∧
      (x.pageOf x.range.end_ ≤ pageEnd →
        (∀ q ∈ M, q + e.totalPageCount q * PAGE_SIZE ≤ x.range.end_) → ∀ states, ∃ states',
          markCrucialPages b e pageEnd fuel states x.range = .ok states' ∧
          MarkedWhere (fun n => x.pfn ≤ n ∧ Unused x e M n) states states') ∧
      ((∃ q ∈ M, x.range.end_ < q + e.totalPageCount q * PAGE_SIZE) → ∀ states states',
        markCrucialPages b e pageEnd fuel states x.range ≠ .ok states') := by
  have hstart : b.physToPfn x.range.front = .ok x.pfn := by
    rw [hx.page _ ⟨le_rfl, Nat.lt_add_of_pos_right hx.pos⟩, Section.pageOf,
      Nat.sub_self, Nat.zero_div, add_zero]
  have hno : ∀ q, (Except.ok (if x.range.hasLoc q then some () else none) : Result (Option Unit)) =
      .ok none → q ∉ x.range.locs := by
    intro q hq hin
    rw [Range.hasLoc_iff.mpr hin] at hq
    cases hq
  rcases listForeachFind_spec (fun q => .ok (if x.range.hasLoc q then some () else none))
    h.list.way (fun q _ => ⟨_, rfl⟩) hfuel with ⟨hrun, hall⟩ | ⟨A, p, B, u, hL, hA, hp, hway, hrun⟩
  · refine ⟨[], fun q => ?_, fun htable _ states => ?_, fun hcross => ?_⟩
    · exact iff_of_false (by simp) fun hq => hno q (hall q hq.1) hq.2
    · obtain ⟨states', hmark, hmarked⟩ := markPages_eq pageEnd states x.pfn
        (x.pfn + pageCount x.range.size) le_self_add (pageOf_end x ▸ htable)
      refine ⟨states', ?_, hmarked.congr fun n => ?_⟩
      · rw [markCrucialPages, hrun, ok_bind]
        rw [hstart, ok_bind, hmark]
      · simp only [Unused, pageOf_end, not_mem_nil, false_implies, implies_true, and_true]
    · obtain ⟨q, hq, -⟩ := hcross
      cases hq
  · have hp' : p ∈ x.range.locs := by
      by_contra hnot
      rw [Bool.eq_false_of_not_eq_true (mt Range.hasLoc_iff.mp hnot)] at hp
      cases hp
    have hrow : Row e (p :: B) := h.toRow.sublist (hL ▸ sublist_append_right _ _)
    obtain ⟨mid, out, rfl, hin, hout⟩ := hrow.split hp'
    have hrow' : Row e (p :: mid) := hrow.sublist ((sublist_append_left _ _).cons_cons p)
    have hcall : ∀ states, markCrucialPages b e pageEnd fuel states x.range =
        markPages pageEnd states x.pfn (x.pageOf p) >>= fun states =>
          markAreas b e pageEnd x.range x.pfn fuel states p (x.pageOf p) := by
      intro states
      rw [markCrucialPages, hrun, ok_bind]
      dsimp only
      rw [hstart, ok_bind, hx.page p hp', ok_bind]
    refine ⟨p :: mid, fun q => ?_, fun htable hends states => ?_, fun hcross states states' => ?_⟩
    · rw [hL, mem_append, ← cons_append, mem_append]
      constructor
      · intro hq
        exact ⟨Or.inr (Or.inl hq), hin q hq⟩
      · rintro ⟨hq | hq | hq, hq'⟩
        · exact absurd hq' (hno q (hA q hq))
        · exact hq
        · exact absurd hq' (hout q hq)
    · have hlow : x.pfn ≤ x.pageOf p := le_self_add
      have hhigh := hx.pageOf_lt hp'
      obtain ⟨s₁, hrun₁, h₁⟩ := markPages_eq pageEnd states x.pfn (x.pageOf p) hlow (by omega)
      obtain ⟨s₂, hrun₂, h₂⟩ := markAreas_eq hx htable hout s₁ hway hrow' hin hends
        (show mid.length < fuel by
          rw [hL, length_append, length_cons, length_append] at hfuel
          omega)
      refine ⟨s₂, by rw [hcall, hrun₁, ok_bind, hrun₂], (h₁.trans h₂).congr fun n => ?_⟩
      -- the first area is the lowest
      have hfree : n < x.pageOf p → Unused x e (p :: mid) n := by
        intro hn
        refine ⟨by omega, forall_mem_cons.mpr ⟨by omega, fun q hq => ?_⟩⟩
        have := hrow'.pageOf_le hx hp' hq
        omega
      constructor
      · rintro ⟨hge, hunused⟩
        rcases lt_or_ge n (x.pageOf p) with hn | hn
        · exact Or.inl ⟨hge, hn⟩
        · exact Or.inr ⟨hn, hunused⟩
      · rintro (⟨hge, hn⟩ | ⟨hge, hunused⟩)
        · exact ⟨hge, hfree hn⟩
        · exact ⟨by omega, hunused⟩
    · rw [hcall]
      intro hbind
      obtain ⟨s₁, -, hareas⟩ := bind_eq_ok.mp hbind
      exact markAreas_crosses hx hout hway hrow' hin hcross hareas

/-- Page numbers are the addresses of the section, if no area reaches into it from outside. -/
theorem marks_of_markedWhere (hlaid : b.Laid) (hslot : slot < b.count) (h : FreeAreas b e L)
    (hx : b.list slot = x) {M : List Nat} (hM : ∀ q, q ∈ M ↔ q ∈ L ∧ q ∈ x.range.locs)
    (hends : ∀ slot < b.count, ∀ p ∈ L, p ∈ (b.list slot).range.locs →
      p + e.totalPageCount p * PAGE_SIZE ≤ (b.list slot).range.end_) {states states' : PageStates}
    (hmarked : MarkedWhere (fun n => x.pfn ≤ n ∧ Unused x e M n) states states') :
    Marks b e L x.range states states' := by
  have howns : Owns b x := hx ▸ hlaid.owns hslot
  -- an address is available in an area of the section as its page is
  have hiff : ∀ {q a : Nat}, q ∈ M → a ∈ x.range.locs →
      (x.pageOf q ≤ x.pageOf a ∧ x.pageOf a < x.pageOf q + e.availPageCount q ↔
        q ≤ a ∧ a < q + e.availPageCount q * PAGE_SIZE) := by
    intro q a hq ha
    obtain ⟨hq, hq'⟩ := (hM q).mp hq
    have hlow := howns.pageOf_add_le (n := 0) (h.aligned q hq) hq'.1 ha.1
    have hhigh := howns.pageOf_add_le (n := e.availPageCount q) (h.aligned q hq) hq'.1 ha.1
    omega
  refine ⟨?_, ?_, ?_⟩
  · intro a ha _ hno page hrun
    rw [howns.page a ha] at hrun
    cases hrun
    refine (hmarked _).1 ⟨le_self_add, howns.pageOf_lt ha, fun q hq hn => ?_⟩
    exact hno ⟨q, ((hM q).mp hq).1, (hiff hq ha).mp hn⟩
  · intro a ha _ havail page hrun
    rw [howns.page a ha] at hrun
    cases hrun
    obtain ⟨q, hq, hge, hlt⟩ := havail
    have hcounts := h.counts q hq
    -- the area begins in a section, ends in it, and so it is this one
    obtain ⟨other, hother, hq'⟩ := h.usable q hq q le_rfl
      (Nat.lt_add_of_pos_right (mul_pos hcounts.1 (by decide)))
    have hend := hends other hother q hq hq'
    have ha' : a ∈ (b.list other).range.locs := by
      refine ⟨hq'.1.trans hge, ?_⟩
      have := Nat.mul_le_mul_right PAGE_SIZE hcounts.2.1
      omega
    obtain rfl := hlaid.slot_unique hother hslot ha' (hx ▸ ha)
    have hqM := (hM q).mpr ⟨hq, hx ▸ hq'⟩
    exact (hmarked _).2 fun hn => hn.2.2 q hqM ((hiff hqM ha).mpr ⟨hge, hlt⟩)
  · intro page hout
    refine (hmarked page).2 fun hn => ?_
    obtain ⟨a, ha, rfl⟩ := howns.pageOf_onto hn.1 hn.2.1
    exact hout a ha (howns.page a ha)

/--
**`mark_crucial_pages`** returns for every section, having marked the pages of the section that are
not available and no others, exactly if every area that begins in a section ends in it.
-/
theorem markCrucialPages_exact_iff (hlaid : b.Laid) (h : FreeAreas b e L)
    (htable : ∀ slot < b.count,
      (b.list slot).pfn + pageCount (b.list slot).range.size ≤ pageEnd)
    (hfuel : L.length < fuel) :
    (∀ slot < b.count, ∀ states, ∃ states',
      markCrucialPages b e pageEnd fuel states (b.list slot).range = .ok states' ∧
        Marks b e L (b.list slot).range states states') ↔
    ∀ slot < b.count, ∀ p ∈ L, p ∈ (b.list slot).range.locs →
      p + e.totalPageCount p * PAGE_SIZE ≤ (b.list slot).range.end_ := by
  constructor
  · intro hexact slot hslot p hp hp'
    obtain ⟨states', hrun, -⟩ := hexact slot hslot fun _ => .systemCrucial
    obtain ⟨M, hM, -, hcrosses⟩ := markCrucialPages_eq pageEnd (hlaid.owns hslot) h hfuel
    by_contra hcross
    exact hcrosses ⟨p, (hM p).mpr ⟨hp, hp'⟩, not_le.mp hcross⟩ _ states' hrun
  · intro hends slot hslot states
    obtain ⟨M, hM, hmarks, -⟩ := markCrucialPages_eq pageEnd (hlaid.owns hslot) h hfuel
    obtain ⟨states', hrun, hmarked⟩ := hmarks (pageOf_end _ ▸ htable slot hslot)
      (fun q hq => hends slot hslot q ((hM q).mp hq).1 ((hM q).mp hq).2) states
    exact ⟨states', hrun, marks_of_markedWhere hlaid hslot h rfl hM hends hmarked⟩

end

/-- The two pages of the second section are an area, and the last of them has been allocated. -/
def secondTaken : Early where
  list x := if x = .head ∨ x = .node 0x2000 then
      let other := if x = .head then ListPtr.node 0x2000 else .head
      ⟨some other, some other⟩
    else ⟨none, none⟩
  ascList x := if x = .head ∨ x = .node 0x2000 then
      let other := if x = .head then ListPtr.node 0x2000 else .head
      ⟨some other, some other⟩
    else ⟨none, none⟩
  availPageCount _ := 1
  totalPageCount _ := 2
  totalFreePages := 2
  totalFreePagesRemaining := 1

theorem secondTaken_areas {b : Sections} (hcount : 1 < b.count)
    (hrange : (b.list 1).range = ⟨0x2000, 0x2000⟩) : FreeAreas b secondTaken [0x2000] where
  list := ⟨⟨⟨rfl, rfl⟩, rfl, rfl⟩, by simp⟩
  aligned := by decide
  counts := by decide +kernel
  apart := List.pairwise_singleton _ _
  usable p hp a hge hlt := by
    obtain rfl := mem_singleton.mp hp
    refine ⟨1, hcount, ?_⟩
    rw [hrange]
    exact ⟨hge, lt_of_lt_of_le hlt (by decide)⟩

theorem markCrucialPages_exact_iff_second : ∃ states',
    markCrucialPages Sections.threeSections secondTaken 4 2 (fun _ => .freeListTail)
      (Sections.threeSections.list 1).range = .ok states' ∧
    Marks Sections.threeSections secondTaken [0x2000] (Sections.threeSections.list 1).range
      (fun _ => .freeListTail) states' := by
  refine (markCrucialPages_exact_iff Sections.threeSections_laid (secondTaken_areas (by decide) rfl)
    (by decide) (by decide)).mpr ?_ 1 (by decide) _
  intro slot hslot p hp hp'
  obtain rfl := mem_singleton.mp hp
  obtain rfl := Sections.threeSections_laid.slot_unique hslot (show 1 < 3 by decide) hp'
    ⟨by decide, by decide⟩
  decide

/--
The memory maps of the first two sections touch and were claimed one after the other: the area that
begins in the first section ends in the second, and the loop in the first section runs out of the
table of pages.
-/
theorem merged_area_never_ends :
    ∃ e, Early.claimAll 2 Early.boot [⟨0x1000, 0x1000⟩, ⟨0x2000, 0x2000⟩] = .ok e ∧
      FreeAreas Sections.threeSections e [0x1000] ∧
        (markCrucialPages Sections.threeSections e 4 2 (fun _ => .freeListTail)
          (Sections.threeSections.list 0).range).map (fun _ => ()) = .error .outOfBounds := by
  refine ⟨_, rfl, ?_, by decide +kernel⟩
  refine
    { list := ⟨⟨⟨rfl, rfl⟩, rfl, rfl⟩, by simp⟩
      aligned := by decide
      counts := by decide +kernel
      apart := pairwise_singleton _ _
      usable := ?_ }
  intro p hp a hge hlt
  obtain rfl := mem_singleton.mp hp
  have hlt' : a < 0x4000 := lt_of_lt_of_le hlt (by decide +kernel)
  rcases lt_or_ge a 0x2000 with hlow | hhigh
  · exact ⟨0, by decide, hge, hlow⟩
  · exact ⟨1, by decide, hhigh, hlt'⟩

end OsKernel.Boot
