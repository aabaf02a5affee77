import OsKernel.Boot.Merge

/-!
# Splitting sections at the limit between the zones

The search halves its step and not the window, so each halving may lose one more byte.
There are at most 64 of them: the search ends less than a page below the limit, and
rounding up to a page gives the limit exactly.

The split itself goes wrong. It moves the section up by a slot, and with it the heads of its
freelists, which then link to the slot below. The section was also given the zone of
its first page before it lost that page. Nothing repairs either, so the array is as it
should be exactly when no section crosses the limit and nothing is split.
-/

namespace OsKernel.Boot

open Adt (Range)
open LinkedRing
open Mm (PAGE_SIZE pageCount MAX_ORDER)
open Function List Nat ListAddr

/-- The first address of the second zone. -/
def zoneLimit : Nat := 4 * 2 ^ 30

variable {p : Nat}

theorem physToZone_low : physToZone p = .low4g ↔ p < zoneLimit := by
  unfold physToZone zoneLimit
  split
  · exact iff_of_true rfl ‹_›
  · exact iff_of_false (by simp) ‹_›

theorem physToZone_default : physToZone p = .default_ ↔ zoneLimit ≤ p := by
  unfold physToZone zoneLimit
  split
  · exact iff_of_false (by simp) (by omega)
  · exact iff_of_true rfl (by omega)

namespace Sections

/-! ## The search -/

/-- The search stays below the limit, and every halving leaves it at most one further away. -/
theorem searchBoundary_near (k : Nat) : ∀ (mid front lost : Nat), mid < 2 ^ k →
    front < zoneLimit → zoneLimit ≤ front + 1 + 2 * mid + lost →
    searchBoundary .low4g front mid < zoneLimit ∧
      zoneLimit ≤ searchBoundary .low4g front mid + 1 + (lost + k) := by
  induction k with
  | zero =>
    intro mid front lost hmid hfront hnear
    obtain rfl : mid = 0 := by omega
    rw [searchBoundary, dif_pos rfl]
    exact ⟨hfront, by omega⟩
  | succ k ih =>
    intro mid front lost hmid hfront hnear
    rw [searchBoundary]
    by_cases hzero : mid = 0
    · rw [dif_pos hzero]
      exact ⟨hfront, by omega⟩
    · rw [dif_neg hzero]
      have hhalf : mid / 2 < 2 ^ k := by
        omega
      have hlost : lost + (k + 1) = lost + 1 + k := by omega
      rw [hlost]
      by_cases hlow : front + mid < zoneLimit
      · rw [if_pos (physToZone_low.mpr hlow)]
        exact ih (mid / 2) (front + mid) (lost + 1) hhalf hlow (by omega)
      · rw [if_neg (mt physToZone_low.mp hlow)]
        exact ih (mid / 2) front (lost + 1) hhalf hfront (by omega)

variable {range : Range}

theorem splitBoundary_of_cross (hend : range.end_ < U64)
    (hfront : range.front < zoneLimit) (hback : zoneLimit ≤ range.end_ - PAGE_SIZE) :
    splitBoundary range = some zoneLimit := by
  have hlimit : 2 ^ 12 ∣ zoneLimit := by decide
  have hsum : range.end_ = range.front + range.size := rfl
  obtain ⟨hbelow, hnear⟩ := searchBoundary_near 64 (range.size / 2) range.front 0
    (by simp only [U64] at hend; omega) hfront (by omega)
  have hzone : physToZone range.front = .low4g := physToZone_low.mpr hfront
  unfold splitBoundary
  rw [hzone]
  have hpage : PAGE_SIZE = 2 ^ 12 := rfl
  rw [hpage]
  obtain ⟨m, hm⟩ := exists_alignUp (k := 12) (by decide) hbelow.le hlimit (by decide)
  have hle := alignUp_le_of_dvd (by decide) hm hbelow.le hlimit
  obtain ⟨hdvd, hge, -, -⟩ := alignUp_two_pow (by decide) hm
  rw [hm, Option.some.injEq]
  -- two multiples of the page size are a page apart, and the search came closer than that
  omega

/--
**The search finds the limit.** For every section range whose first page lies in the low zone and
whose last page lies in the default zone, the boundary is the first address of the default zone.
-/
theorem splitBoundary_eq_limit (range : Range) (hend : range.end_ < U64)
    (hfront : physToZone range.front = .low4g)
    (hback : physToZone (range.end_ - PAGE_SIZE) = .default_) :
    ∃ boundary, splitBoundary range = some boundary ∧ physToZone boundary = .default_ ∧
      ∀ p < boundary, physToZone p = .low4g :=
  ⟨zoneLimit, splitBoundary_of_cross hend (physToZone_low.mp hfront) (physToZone_default.mp hback),
    physToZone_default.mpr (le_refl _), fun _ hp => physToZone_low.mpr hp⟩

/-- A section of three pages, one below the limit and two above it. -/
theorem splitBoundary_eq_limit_three :
    ∃ boundary, splitBoundary ⟨0xfffff000, 0x3000⟩ = some boundary ∧
      physToZone boundary = .default_ ∧ ∀ p < boundary, physToZone p = .low4g :=
  splitBoundary_eq_limit ⟨0xfffff000, 0x3000⟩ (by decide) (by decide) (by decide)

/-! ## What the array should be before and after -/

/-- The end of a range is a 64-bit number, and its first page is in the zone of its last page. -/
def Uncrossed (range : Range) : Prop :=
  range.end_ < U64 ∧
    physToZone range.front = physToZone ((range.end_ + U64 - PAGE_SIZE) % U64)

instance (range : Range) : Decidable (Uncrossed range) := inferInstanceAs (Decidable (_ ∧ _))

/-- Sections of whole pages, apart from each other, as `page_section_init` leaves them. -/
structure Fresh (s : Sections) : Prop where
  room : s.count ≤ SECTION_SLOTS
  aligned : ∀ slot < s.count,
    PAGE_SIZE ∣ (s.list slot).range.front ∧ PAGE_SIZE ∣ (s.list slot).range.size
  disjoint : ∀ slot < s.count, ∀ slot' < s.count, slot ≠ slot' →
    Disjoint (s.list slot).range.locs (s.list slot').range.locs
  zone : ∀ slot < s.count, (s.list slot).zone = none
  heads : ∀ slot < s.count, ∀ order < MAX_ORDER,
    s.links (.freelist slot order) = ⟨some (.freelist slot order), some (.freelist slot order)⟩
  zoneHeads : ∀ zone, s.links (.zoneHead zone) = ⟨some (.zoneHead zone), some (.zoneHead zone)⟩

/-- Every section is in one zone and on the list of that zone, and the pages are as in `s`. -/
structure Zoned (s s' : Sections) : Prop where
  /-- A section lies wholly inside the zone that its field names. -/
  zone : ∀ slot < s'.count, ∃ zone, (s'.list slot).zone = some zone ∧
    ∀ p ∈ (s'.list slot).range.locs, physToZone p = zone
  /-- The list of a zone has its sections and no others, each once. -/
  lists : ∀ zone, ∃ L : List Nat, IsRing s'.links (.zoneHead zone) (L.map .zoneList) ∧
    ∀ slot, slot ∈ L ↔ slot < s'.count ∧ (s'.list slot).zone = some zone
  heads : ∀ slot < s'.count, ∀ order < MAX_ORDER,
    s'.links (.freelist slot order) = ⟨some (.freelist slot order), some (.freelist slot order)⟩
  pfn : ∀ p ∈ s.covered, s'.physToPfn p = s.physToPfn p

/-! ## Nothing to split -/

section

variable {s s' : Sections} {slot : Nat}

theorem splitAt_uncrossed (h : Uncrossed (s.list slot).range) (hzone : (s.list slot).zone = none) :
    s.splitAt slot = .ok (s.setSection slot
      { s.list slot with zone := some (physToZone (s.list slot).range.front) }) := by
  unfold splitAt
  dsimp only
  rw [Range.getEndAssert_eq h.1, ok_bind, if_pos h.2, setZoneIfNull, hzone]
  rfl

/-- Where no section crosses the limit, the loop gives each of them its zone. -/
theorem splitFrom_uncrossed : ∀ {fuel : Nat} (s : Sections) (slot : Nat), slot ≤ s.count →
    s.count - slot < fuel →
    (∀ i, slot ≤ i → i < s.count → Uncrossed (s.list i).range ∧ (s.list i).zone = none) →
    ∃ s', splitFrom fuel s slot = .ok s' ∧ s'.count = s.count ∧ s'.links = s.links ∧
      (∀ i, (s'.list i).range = (s.list i).range ∧ (s'.list i).pfn = (s.list i).pfn) ∧
      (∀ i < slot, (s'.list i).zone = (s.list i).zone) ∧
      ∀ i, slot ≤ i → i < s.count →
        (s'.list i).zone = some (physToZone (s.list i).range.front) := by
  intro fuel
  induction fuel with
  | zero =>
    omega
  | succ fuel ih =>
    intro s slot hle hfuel hall
    rw [splitFrom]
    by_cases hdone : slot = s.count
    · rw [if_pos hdone]
      exact ⟨s, rfl, rfl, rfl, fun _ => ⟨rfl, rfl⟩, fun _ _ => rfl, fun i hi hi' => by omega⟩
    · obtain ⟨hun, hzone⟩ := hall slot (le_refl _) (by omega)
      rw [if_neg hdone, splitAt_uncrossed hun hzone, ok_bind]
      have hother : ∀ i, i ≠ slot → (s.setSection slot
          { s.list slot with zone := some (physToZone (s.list slot).range.front) }).list i =
            s.list i := fun i hi => update_of_ne hi _ _
      have hself : (s.setSection slot
          { s.list slot with zone := some (physToZone (s.list slot).range.front) }).list slot =
          { s.list slot with zone := some (physToZone (s.list slot).range.front) } :=
        update_self _ _ _
      obtain ⟨s', hrun, hcount, hlinks, hsame, hbelow, hzones⟩ :=
        ih (s.setSection slot
          { s.list slot with zone := some (physToZone (s.list slot).range.front) })
          (slot + 1) (show slot + 1 ≤ s.count by omega)
          (show s.count - (slot + 1) < fuel by omega) (by
            intro i hi hi'
            rw [hother i (by omega)]
            exact hall i (by omega) hi')
      refine ⟨s', hrun, hcount, hlinks, ?_, ?_, ?_⟩
      · intro i
        rw [(hsame i).1, (hsame i).2]
        by_cases hi : i = slot
        · rw [hi, hself]
          exact ⟨rfl, rfl⟩
        · rw [hother i hi]
          exact ⟨rfl, rfl⟩
      · intro i hi
        rw [hbelow i (by omega), hother i (by omega)]
      · intro i hi hi'
        rcases eq_or_lt_of_le hi with rfl | hlt
        · rw [hbelow slot (by omega), hself]
        · rw [hzones i (by omega) hi', hother i (by omega)]

/-- A range of whole pages that does not cross the limit is in the zone of its first page. -/
theorem Uncrossed.zone_eq (h : Uncrossed range)
    (haligned : PAGE_SIZE ∣ range.front ∧ PAGE_SIZE ∣ range.size) (hp : p ∈ range.locs) :
    physToZone p = physToZone range.front := by
  obtain ⟨hend, hzone⟩ := h
  have hsum : range.end_ = range.front + range.size := rfl
  have hsize : PAGE_SIZE ≤ range.size := by
    apply le_of_dvd _ haligned.2
    have := lt_of_le_of_lt hp.1 hp.2
    omega
  have hback : (range.end_ + U64 - PAGE_SIZE) % U64 = range.end_ - PAGE_SIZE := by
    have hsub : range.end_ + U64 - PAGE_SIZE = range.end_ - PAGE_SIZE + U64 := by omega
    rw [hsub, add_mod_right, mod_eq_of_lt (by omega)]
  rw [hback] at hzone
  cases hfront : physToZone range.front with
  | default_ =>
    exact physToZone_default.mpr (le_trans (physToZone_default.mp hfront) hp.1)
  | low4g =>
    rw [hfront] at hzone
    have hlow := physToZone_low.mp hzone.symm
    have hdvd : PAGE_SIZE ∣ range.end_ - PAGE_SIZE :=
      Nat.dvd_sub (hsum ▸ dvd_add haligned.1 haligned.2) dvd_rfl
    have hpage := add_le_of_dvd hdvd (show PAGE_SIZE ∣ zoneLimit by decide) hlow
    have hp' := hp.2
    exact physToZone_low.mpr (by omega)

/-! ## The lists of the zones -/

/-- The sections below a slot are on the lists of their zones. -/
def Listed (s : Sections) (slot : Nat) : Prop :=
  ∀ zone, ∃ L : List Nat, IsRing s.links (.zoneHead zone) (L.map .zoneList) ∧
    ∀ i, i ∈ L ↔ i < slot ∧ (s.list i).zone = some zone

theorem Listed.listAdd {links : ListAddr → RingLinks ListAddr} {zone : Zone}
    (h : s.Listed slot) (hzone : (s.list slot).zone = some zone)
    (hrun : OsKernel.listAdd s.links (.zoneHead zone) (.zoneList slot) = .ok links) :
    ({ s with links := links } : Sections).Listed (slot + 1) ∧
      ∀ i order, links (.freelist i order) = s.links (.freelist i order) := by
  obtain ⟨L, hring, hL⟩ := h zone
  have hnew : zoneList slot ∉ zoneHead zone :: L.map .zoneList := by
    simp only [mem_cons, reduceCtorEq, mem_map, zoneList.injEq, exists_eq_right, false_or]
    exact fun hmem => absurd ((hL slot).mp hmem).1 (lt_irrefl slot)
  obtain ⟨links', hadd, hring', hkeep⟩ := listAdd_ring (A := []) (B := L.map zoneList) hring hnew
  obtain rfl : links' = links := by
    rw [show (([zoneHead zone] : List ListAddr).getLast (by simp)) = .zoneHead zone from rfl,
      hrun] at hadd
    cases hadd
    rfl
  refine ⟨?_, ?_⟩
  · intro zone'
    by_cases hsame : zone' = zone
    · subst hsame
      refine ⟨slot :: L, hring', fun i => ?_⟩
      simp only [mem_cons, hL i]
      constructor
      · rintro (rfl | ⟨hi, hz⟩)
        · exact ⟨lt_succ_self _, hzone⟩
        · exact ⟨lt_succ_of_lt hi, hz⟩
      · rintro ⟨hi, hz⟩
        rcases Nat.lt_succ_iff_lt_or_eq.mp hi with hlt | heq
        · exact Or.inr ⟨hlt, hz⟩
        · exact Or.inl heq
    · -- the list of the other zone has none of the nodes that were written
      obtain ⟨L', hother, hL'⟩ := h zone'
      refine ⟨L', hother.congr ?_, fun i => ?_⟩
      · intro q hq
        refine hkeep q ?_ ?_
        · rintro rfl
          simp only [mem_cons, reduceCtorEq, mem_map, zoneList.injEq,
            exists_eq_right, false_or] at hq
          exact absurd ((hL' slot).mp hq).1 (lt_irrefl slot)
        · intro hmem
          rcases mem_cons.mp hq with rfl | hq
          · simp [hsame] at hmem
          · obtain ⟨i, hi, rfl⟩ := mem_map.mp hq
            simp only [nil_append, mem_cons, reduceCtorEq, mem_map,
              zoneList.injEq, exists_eq_right, false_or] at hmem
            have hz := ((hL i).mp hmem).2
            rw [((hL' i).mp hi).2, Option.some.injEq] at hz
            exact hsame hz
      · rw [hL' i]
        constructor
        · rintro ⟨hi, hz⟩
          exact ⟨lt_succ_of_lt hi, hz⟩
        · rintro ⟨hi, hz⟩
          refine ⟨lt_of_le_of_ne (Nat.lt_succ_iff.mp hi) ?_, hz⟩
          rintro rfl
          rw [hzone, Option.some.injEq] at hz
          exact hsame hz.symm
  · intro i order
    exact hkeep _ (by simp) (by simp)

/-- With every zone known, each section ends up on the list of its zone. -/
theorem setupFrom_eq : ∀ {n : Nat} {s : Sections} {slot : Nat}, s.Listed slot →
    (∀ i, slot ≤ i → i < slot + n → (s.list i).zone ≠ none) →
    ∃ s', s.setupFrom slot n = .ok s' ∧ s'.list = s.list ∧ s'.count = s.count ∧
      s'.Listed (slot + n) ∧
      ∀ i order, s'.links (.freelist i order) = s.links (.freelist i order) := by
  intro n
  induction n with
  | zero =>
    intro s slot h _
    exact ⟨s, rfl, rfl, rfl, h, fun _ _ => rfl⟩
  | succ n ih =>
    intro s slot h hzones
    obtain ⟨zone, hzone⟩ := Option.ne_none_iff_exists'.mp (hzones slot (le_refl _) (by omega))
    obtain ⟨L, hring, -⟩ := h zone
    obtain ⟨links, hadd⟩ : ∃ links,
        OsKernel.listAdd s.links (.zoneHead zone) (.zoneList slot) = .ok links := by
      unfold OsKernel.listAdd listAddCommon
      rw [hring.way.next_eq]
      exact ⟨_, rfl⟩
    obtain ⟨hlisted, hfree⟩ := h.listAdd hzone hadd
    obtain ⟨s', hrun, hlist, hcount, hall, hkeep⟩ := ih hlisted fun i hi hi' =>
      hzones i (by omega) (by omega)
    refine ⟨s', ?_, hlist, hcount, ?_, fun i order => (hkeep i order).trans (hfree i order)⟩
    · rw [setupFrom, hzone]
      dsimp only
      rw [hadd]
      exact hrun
    · rw [show slot + (n + 1) = slot + 1 + n by omega]
      exact hall

theorem Fresh.zoned (h : s.Fresh) (hall : ∀ slot < s.count, Uncrossed (s.list slot).range) :
    ∃ s₁ s₂, s.splitSectionsForZones = .ok s₁ ∧ s₁.setupZoneSectionList = .ok s₂ ∧ Zoned s s₂ := by
  have hfuel : s.count - 0 < SECTION_SLOTS + 1 := lt_succ_of_le h.room
  obtain ⟨s₁, hsplit, hcount₁, hlinks₁, hsame, -, hzones⟩ :=
    splitFrom_uncrossed s 0 (zero_le _) hfuel fun i _ hi => ⟨hall i hi, h.zone i hi⟩
  have hlisted : s₁.Listed 0 := by
    intro zone
    refine ⟨[], ⟨?_, by simp⟩, fun i => by simp⟩
    rw [hlinks₁]
    exact ⟨by rw [h.zoneHeads], by rw [h.zoneHeads]⟩
  obtain ⟨s₂, hsetup, hlist₂, hcount₂, hall₂, hfree⟩ := setupFrom_eq (n := s₁.count) hlisted
    fun i _ hi => by
      rw [hzones i (zero_le _) (by omega)]
      exact Option.some_ne_none _
  refine ⟨s₁, s₂, hsplit, hsetup, ?_, ?_, ?_, ?_⟩
  · intro slot hslot
    rw [hcount₂, hcount₁] at hslot
    rw [hlist₂, hzones slot (zero_le _) hslot, (hsame slot).1]
    exact ⟨_, rfl, fun p hp => (hall slot hslot).zone_eq (h.aligned slot hslot) hp⟩
  · rw [hcount₂]
    rw [zero_add] at hall₂
    exact hall₂
  · intro slot hslot order horder
    rw [hcount₂, hcount₁] at hslot
    rw [hfree, hlinks₁]
    exact h.heads slot hslot order horder
  · intro p _
    have hfrom : ∀ n slot, s₂.physToPfnFrom p slot n = s.physToPfnFrom p slot n := by
      intro n
      induction n with
      | zero => intro slot; rfl
      | succ n ih =>
        intro slot
        rw [physToPfnFrom, physToPfnFrom, hlist₂, (hsame slot).1, (hsame slot).2, ih]
    rw [physToPfn, physToPfn, hcount₂, hcount₁, hfrom]

/-! ## Something to split -/

/-- Some freelist head links to the slot below the one it is in. -/
def Strayed (s : Sections) : Prop :=
  ∃ slot < s.count, ∃ lower < slot,
    (s.links (.freelist slot 0)).next = some (.freelist lower 0)

theorem memmove_freelist (s : Sections) (dst src n i order : Nat) :
    (s.memmove dst src n).links (.freelist i order) =
      if dst ≤ i ∧ i < dst + n then s.links (.freelist (src + (i - dst)) order)
      else s.links (.freelist i order) := by
  unfold memmove
  dsimp only
  split
  · rfl
  · rfl

theorem pageSectionInit_freelist (s : Sections) (slot : Nat) (zone : Option Zone) (range : Range)
    (pfn i order : Nat) :
    (s.pageSectionInit slot zone range pfn).links (.freelist i order) =
      if i = slot ∧ order < MAX_ORDER then ⟨some (.freelist i order), some (.freelist i order)⟩
      else s.links (.freelist i order) := by
  simp only [pageSectionInit, reduceCtorEq, freelist.injEq, false_or]
  by_cases hself : i = slot ∧ order < MAX_ORDER
  · rw [if_pos ⟨order, hself.2, hself.1, rfl⟩, if_pos hself]
  · rw [if_neg (by rintro ⟨order', hlt, hi, rfl⟩; exact hself ⟨hi, hlt⟩), if_neg hself]

/-- A section was put in at a slot, and those from there on moved up with their list heads. -/
structure PutIn (s s' : Sections) (slot : Nat) : Prop where
  count : s'.count = s.count + 1
  heads : ∀ i order, s'.links (.freelist i order) = if i = slot ∧ order < MAX_ORDER then
      ⟨some (.freelist i order), some (.freelist i order)⟩
    else if slot + 1 ≤ i ∧ i < slot + 1 + (s.count - slot) then
      s.links (.freelist (slot + (i - (slot + 1))) order)
    else s.links (.freelist i order)
  zoneHeads : ∀ zone, s'.links (.zoneHead zone) = s.links (.zoneHead zone)

/-- `boot_add_section_at` and the setting up of the new section, on the nodes of the lists. -/
theorem splitSectionAtBoundary_links {zone : Zone} {boundary : Nat}
    (hrun : s.splitSectionAtBoundary slot zone boundary = .ok s') : PutIn s s' slot := by
  unfold splitSectionAtBoundary at hrun
  simp only [bind_eq_ok] at hrun
  obtain ⟨newRange, -, range, -, s₁, hadd, hinit⟩ := hrun
  unfold bootAddSectionAt at hadd
  split at hadd
  · cases hadd
    cases hinit
    refine ⟨rfl, fun i order => ?_, fun zone' => ?_⟩
    · rw [pageSectionInit_freelist]
      exact congrArg _ (memmove_freelist _ (slot + 1) slot (s.count - slot) i order)
    · rfl
  · cases hadd

/-- What a turn of the loop that returns did: it left the nodes alone, or it split the section. -/
theorem splitAt_cases (hrun : s.splitAt slot = .ok s') :
    (Uncrossed (s.list slot).range ∧ s'.count = s.count ∧ s'.links = s.links ∧
      ∀ i, (s'.list i).range = (s.list i).range) ∨ PutIn s s' slot := by
  have hzone : ∀ zone, (s.setZoneIfNull slot zone).count = s.count ∧
      (s.setZoneIfNull slot zone).links = s.links ∧
      ∀ i, ((s.setZoneIfNull slot zone).list i).range = (s.list i).range := by
    intro zone
    unfold setZoneIfNull
    split
    · exact ⟨rfl, rfl, fun _ => rfl⟩
    · refine ⟨rfl, rfl, fun i => ?_⟩
      unfold setSection
      dsimp only
      rcases eq_or_ne i slot with rfl | hi
      · rw [update_self]
      · rw [update_of_ne hi]
  unfold splitAt at hrun
  dsimp only at hrun
  obtain ⟨end_, hend, hrun⟩ := bind_eq_ok.mp hrun
  unfold Range.getEndAssert at hend
  split at hend
  · rename_i heq
    cases hend
    obtain ⟨rfl, hfits⟩ := Range.getEnd_eq_some.mp heq
    split at hrun
    · rename_i hsame
      cases hrun
      exact Or.inl ⟨⟨hfits, hsame⟩, hzone _⟩
    · split at hrun
      · cases hrun
      · obtain ⟨hcount, hheads, hzones⟩ := splitSectionAtBoundary_links hrun
        rw [(hzone _).1] at hcount hheads
        rw [(hzone _).2.1] at hheads hzones
        exact Or.inr ⟨hcount, hheads, hzones⟩
  · cases hend

theorem splitAt_crossed (hend : (s.list slot).range.end_ < U64)
    (hfront : (s.list slot).range.front < zoneLimit)
    (hback : zoneLimit ≤ (s.list slot).range.end_ - PAGE_SIZE) (hzone : (s.list slot).zone = none) :
    s.splitAt slot = (s.setSection slot { s.list slot with zone := some .low4g }).splitSectionAtBoundary
      slot .low4g zoneLimit := by
  have hlow : physToZone (s.list slot).range.front = .low4g := physToZone_low.mpr hfront
  have hpage : (s.list slot).range.end_ + U64 - PAGE_SIZE =
      (s.list slot).range.end_ - PAGE_SIZE + U64 := by
    omega
  have hhigh : physToZone (((s.list slot).range.end_ + U64 - PAGE_SIZE) % U64) = .default_ := by
    rw [hpage, add_mod_right, mod_eq_of_lt (by omega)]
    exact physToZone_default.mpr hback
  unfold splitAt
  dsimp only
  rw [Range.getEndAssert_eq hend, ok_bind, hlow, hhigh, if_neg (by decide),
    splitBoundary_of_cross hend hfront hback, setZoneIfNull, hzone]

theorem splitFrom_rule {P : Sections → Prop}
    (hstep : ∀ s s' slot, P s → s.splitAt slot = .ok s' → P s') :
    ∀ {fuel : Nat} {s s' : Sections} {slot : Nat}, P s →
    splitFrom fuel s slot = .ok s' → P s' := by
  intro fuel
  induction fuel with
  | zero =>
    intro s s' slot _ hrun
    cases hrun
  | succ fuel ih =>
    intro s s' slot h hrun
    rw [splitFrom] at hrun
    split at hrun
    · cases hrun
      exact h
    · obtain ⟨s₁, hat, hrun⟩ := bind_eq_ok.mp hrun
      exact ih (hstep s s₁ slot h hat) hrun

/-- Once a head has strayed, no later turn brings it back. -/
theorem Strayed.splitAt (hstray : s.Strayed) (hrun : s.splitAt slot = .ok s') : s'.Strayed := by
  obtain ⟨i, hi, lower, hlower, hnext⟩ := hstray
  rcases splitAt_cases hrun with ⟨-, hcount, hlinks, -⟩ | ⟨hcount, hfree, -⟩
  · exact ⟨i, by omega, lower, hlower, by rw [hlinks]; exact hnext⟩
  · rcases lt_or_ge i slot with hbelow | habove
    · refine ⟨i, by omega, lower, hlower, ?_⟩
      rw [hfree, if_neg (by omega), if_neg (by omega)]
      exact hnext
    · -- the section with the head moves up, and the head still names the same slot
      refine ⟨i + 1, by omega, lower, by omega, ?_⟩
      rw [hfree, if_neg (by omega), if_pos (by omega), show slot + (i + 1 - (slot + 1)) = i by omega]
      exact hnext

/-- The loop returns with a strayed head, unless there was nothing to split. -/
theorem splitFrom_strays : ∀ {fuel : Nat} {s s' : Sections} {slot : Nat}, slot ≤ s.count →
    (∀ i, slot ≤ i → i < s.count →
      (s.links (.freelist i 0)).next = some (.freelist i 0)) →
    splitFrom fuel s slot = .ok s' →
    s'.Strayed ∨ ∀ i, slot ≤ i → i < s.count → Uncrossed (s.list i).range := by
  intro fuel
  induction fuel with
  | zero =>
    intro s s' slot _ _ hrun
    cases hrun
  | succ fuel ih =>
    intro s s' slot hle hheads hrun
    rw [splitFrom] at hrun
    split at hrun
    · right
      omega
    · obtain ⟨s₁, hat, hrun⟩ := bind_eq_ok.mp hrun
      rcases splitAt_cases hat with ⟨hun, hcount, hlinks, hranges⟩ | ⟨hcount, hfree, -⟩
      · have hheads₁ : ∀ i, slot + 1 ≤ i → i < s₁.count →
            (s₁.links (.freelist i 0)).next = some (.freelist i 0) := by
          intro i hi hi'
          rw [hlinks]
          exact hheads i (by omega) (by omega)
        rcases ih (by omega) hheads₁ hrun with hstray | hrest
        · exact Or.inl hstray
        · right
          intro i hi hi'
          rcases eq_or_lt_of_le hi with rfl | hlt
          · exact hun
          · rw [← hranges i]
            exact hrest i hlt (by omega)
      · left
        refine splitFrom_rule (fun _ _ _ => Strayed.splitAt) ⟨slot + 1, by omega, slot, by omega, ?_⟩ hrun
        rw [hfree, if_neg (by omega), if_pos (by omega),
          show slot + (slot + 1 - (slot + 1)) = slot by omega]
        exact hheads slot (le_refl _) (by omega)

theorem splitFrom_zoneHeads {fuel : Nat} (hrun : splitFrom fuel s slot = .ok s') (zone : Zone) :
    s'.links (.zoneHead zone) = s.links (.zoneHead zone) := by
  refine splitFrom_rule (P := fun s' => s'.links (.zoneHead zone) = s.links (.zoneHead zone)) ?_ rfl
    hrun
  intro s₁ s₂ slot h hat
  rcases splitAt_cases hat with ⟨-, -, hlinks, -⟩ | ⟨-, -, hheads⟩
  · rw [hlinks]
    exact h
  · rw [hheads zone]
    exact h

/-- No list of a zone begins with the head of a freelist. -/
def HeadsApart (s : Sections) : Prop :=
  ∀ zone, ∃ q, (s.links (.zoneHead zone)).next = some q ∧ ∀ i order, q ≠ .freelist i order

/-- `list_add` writes three nodes, and of the third one only the link back. -/
theorem listAdd_elsewhere {H H' : ListAddr → RingLinks ListAddr} {head item q : ListAddr}
    (hq : (H head).next = some q) (hrun : OsKernel.listAdd H head item = .ok H') :
    (∀ p, p ≠ item → p ≠ head → p ≠ q → H' p = H p) ∧
      (∀ p, p ≠ item → p ≠ head → (H' p).next = (H p).next) ∧
      (H' head).next = some item := by
  unfold OsKernel.listAdd listAddCommon at hrun
  rw [hq] at hrun
  cases hrun
  refine ⟨?_, ?_, ?_⟩
  · intro p hitem hhead hp
    rw [update_of_ne hp, update_of_ne hhead, update_of_ne hitem]
  · intro p hitem hhead
    by_cases hp : p = q
    · subst hp
      rw [update_self, update_of_ne hhead, update_of_ne hitem]
    · rw [update_of_ne hp, update_of_ne hhead, update_of_ne hitem]
  · by_cases hp : head = q
    · rw [← hp, update_self, update_self]
    · rw [update_of_ne hp, update_self]

/-- Putting sections on the lists of their zones does not write to freelists. -/
theorem HeadsApart.setupFrom : ∀ {n : Nat} {s s' : Sections} {slot : Nat}, s.HeadsApart →
    s.setupFrom slot n = .ok s' →
    s'.count = s.count ∧ ∀ i order, s'.links (.freelist i order) = s.links (.freelist i order) := by
  intro n
  induction n with
  | zero =>
    intro s s' slot _ hrun
    cases hrun
    exact ⟨rfl, fun _ _ => rfl⟩
  | succ n ih =>
    intro s s' slot h hrun
    rw [Sections.setupFrom] at hrun
    split at hrun
    · cases hrun
    · rename_i zone hzone
      obtain ⟨links, hadd, hrun⟩ := bind_eq_ok.mp hrun
      obtain ⟨q, hq, hapart⟩ := h zone
      obtain ⟨hkept, hnext, hhead⟩ := listAdd_elsewhere hq hadd
      have happart : ({ s with links := links } : Sections).HeadsApart := by
        intro zone'
        by_cases hsame : zone' = zone
        · subst hsame
          exact ⟨_, hhead, fun i order => by simp⟩
        · obtain ⟨q', hq', hapart'⟩ := h zone'
          exact ⟨q', (hnext _ (by simp) (by simpa using hsame)).trans hq', hapart'⟩
      obtain ⟨hcount, hfree⟩ := ih happart hrun
      refine ⟨hcount, fun i order => (hfree i order).trans ?_⟩
      exact hkept _ (by simp) (by simp) (hapart i order).symm

end

/--
**The array is set up exactly when no section crosses the limit.** For every array of disjoint
sections of whole pages, `split_sections_for_zones` and `setup_zone_section_list` return and leave
every section in one zone, with that zone in its field, on the list of that zone only and with its
freelists empty, and every usable address with the page it had, iff the end of every section is a
64-bit number and its first and last page are in the same zone.
-/
theorem zones_set_up_iff (s : Sections) (h : s.Fresh) :
    (∃ s₁ s₂, s.splitSectionsForZones = .ok s₁ ∧ s₁.setupZoneSectionList = .ok s₂ ∧ Zoned s s₂) ↔
      ∀ slot < s.count, Uncrossed (s.list slot).range := by
  constructor
  · rintro ⟨s₁, s₂, hsplit, hsetup, hzoned⟩
    have hheads : ∀ i, 0 ≤ i → i < s.count →
        (s.links (.freelist i 0)).next = some (.freelist i 0) := fun i _ hi => by
      rw [h.heads i hi 0 (by decide)]
    rcases splitFrom_strays (zero_le _) hheads hsplit with hstray | hall
    · -- a head that has strayed is not linked to itself
      have happart : s₁.HeadsApart := fun zone =>
        ⟨.zoneHead zone, by rw [splitFrom_zoneHeads hsplit, h.zoneHeads], fun _ _ => by simp⟩
      obtain ⟨hcount, hfree⟩ := happart.setupFrom hsetup
      obtain ⟨slot, hslot, lower, hlower, hnext⟩ := hstray
      have hself := hzoned.heads slot (by omega) 0 (by decide)
      rw [hfree] at hself
      rw [hself, Option.some.injEq, freelist.injEq] at hnext
      omega
    · exact fun slot hslot => hall slot (zero_le _) hslot
  · exact h.zoned

/-- One section right after `page_section_init`, and two empty zones. -/
def oneSection (range : Range) : Sections where
  list _ :=
    { zone := none, range := range, pfn := 0, freelistCount := fun _ => 0
      minOrder := 0, maxOrder := 0, totalFree := 0 }
  links p := ⟨some p, some p⟩
  count := 1

theorem oneSection_fresh
    (haligned : PAGE_SIZE ∣ range.front ∧ PAGE_SIZE ∣ range.size) : (oneSection range).Fresh where
  room := Nat.le_of_ble_eq_true rfl
  aligned _ _ := haligned
  disjoint slot hslot slot' hslot' hne := by
    have h1 : slot < 1 := hslot
    have h2 : slot' < 1 := hslot'
    omega
  zone _ _ := rfl
  heads _ _ _ _ := rfl
  zoneHeads _ := rfl

/-- Two pages in the low zone. -/
theorem zones_set_up_iff_low :
    ∃ s₁ s₂, (oneSection ⟨0x1000, 0x2000⟩).splitSectionsForZones = .ok s₁ ∧
      s₁.setupZoneSectionList = .ok s₂ ∧ Zoned (oneSection ⟨0x1000, 0x2000⟩) s₂ :=
  (zones_set_up_iff _ (oneSection_fresh (by decide))).mpr (by
    intro slot _
    change Uncrossed ⟨0x1000, 0x2000⟩
    decide)

/--
A section with its first page in the low zone and its second page in the default zone. Both halves
are put in the low zone, and the freelist heads of the upper half link to the slot of the lower one.
-/
theorem split_section_strays :
    ∃ s', (oneSection ⟨0xfffff000, 0x2000⟩).splitSectionsForZones = .ok s' ∧ s'.count = 2 ∧
      (s'.list 1).range = ⟨0x100000000, 0x1000⟩ ∧ (s'.list 1).zone = some .low4g ∧
      physToZone 0x100000000 = .default_ ∧
      s'.links (.freelist 1 0) = ⟨some (.freelist 0 0), some (.freelist 0 0)⟩ := by
  unfold splitSectionsForZones
  rw [splitFrom, if_neg (by decide), splitAt_crossed (by decide) (by decide) (by decide) rfl]
  exact ⟨_, rfl, rfl, rfl, rfl, rfl, rfl⟩

end Sections

end OsKernel.Boot
