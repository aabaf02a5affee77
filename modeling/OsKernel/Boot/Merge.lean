import OsKernel.Boot.Sections

/-!
# Merging the sections that touch

A section array is laid out when its ranges ascend and the pfns follow one another. Then
every usable address has one page, and which one it is does not depend on where a stretch
of memory is cut into sections: a section's pfn is the pfn of the address where it begins.
That is what `Maps` says without naming a slot, and taking a section into its neighbour
keeps it. The loop goes on at the same slot as long as the next section touches, so that
no two neighbours below the slot touch.
-/

namespace OsKernel.Boot

open Adt (Range)
open Mm (PAGE_SIZE pageCount)

namespace Sections

/-- The addresses in the sections. -/
def covered (s : Sections) : Set Nat := { p | ∃ slot < s.count, p ∈ (s.list slot).range.locs }

/-- The page of an address, by any section it is in. -/
def Maps (s : Sections) (p n : Nat) : Prop :=
  ∃ slot < s.count, p ∈ (s.list slot).range.locs ∧
    n = (s.list slot).pfn + (p - (s.list slot).range.front) / PAGE_SIZE

/-- Ascending ranges of whole pages, with consecutive pfns. -/
structure Laid (s : Sections) : Prop where
  fits : ∀ slot < s.count, (s.list slot).range.Fits
  aligned : ∀ slot < s.count,
    PAGE_SIZE ∣ (s.list slot).range.front ∧ PAGE_SIZE ∣ (s.list slot).range.size
  apart : ∀ slot, slot + 1 < s.count →
    (s.list slot).range.end_ ≤ (s.list (slot + 1)).range.front
  consecutive : ∀ slot, slot + 1 < s.count →
    (s.list (slot + 1)).pfn = (s.list slot).pfn + pageCount (s.list slot).range.size

/-- The sections up to a slot do not touch each other. -/
def Settled (s : Sections) (index : Nat) : Prop :=
  ∀ slot, slot + 1 < index → (s.list slot).range.end_ ≠ (s.list (slot + 1)).range.front

section

variable {s : Sections} {p : Nat}

/-! ## Looking up a page -/

theorem Laid.ascending (h : s.Laid) {i : Nat} : ∀ {j : Nat}, i < j → j < s.count →
    (s.list i).range.end_ ≤ (s.list j).range.front := by
  intro j
  induction j with
  | zero => intro hij; omega
  | succ j ih =>
    intro hij hj
    rcases lt_or_ge i j with hlt | hge
    · calc (s.list i).range.end_ ≤ (s.list j).range.front := ih hlt (by omega)
        _ ≤ (s.list j).range.end_ := le_self_add
        _ ≤ (s.list (j + 1)).range.front := h.apart j hj
    · obtain rfl : i = j := by omega
      exact h.apart i hj

theorem Laid.slot_unique (h : s.Laid) {i j : Nat} (hi : i < s.count) (hj : j < s.count)
    (hip : p ∈ (s.list i).range.locs) (hjp : p ∈ (s.list j).range.locs) : i = j := by
  rcases lt_trichotomy i j with hlt | heq | hgt
  · exact absurd (h.ascending hlt hj) (not_le.mpr (lt_of_le_of_lt hjp.1 hip.2))
  · exact heq
  · exact absurd (h.ascending hgt hi) (not_le.mpr (lt_of_le_of_lt hip.1 hjp.2))

theorem physToPfnFrom_eq (p : Nat) : ∀ {n slot target : Nat}, slot ≤ target → target < slot + n →
    p ∈ (s.list target).range.locs → (∀ i, slot ≤ i → i < target → p ∉ (s.list i).range.locs) →
    s.physToPfnFrom p slot n =
      .ok ((s.list target).pfn + (p - (s.list target).range.front) / PAGE_SIZE) := by
  intro n
  induction n with
  | zero =>
    omega
  | succ n ih =>
    intro slot target hle hlt hin hfirst
    rw [physToPfnFrom]
    rcases lt_or_ge slot target with hbelow | hat
    · have hnot := mt Range.hasLoc_iff.mp (hfirst slot (le_refl _) hbelow)
      rw [if_neg hnot]
      exact ih hbelow (by omega) hin fun i hi hi' => hfirst i (by omega) hi'
    · obtain rfl : slot = target := by omega
      rw [if_pos (Range.hasLoc_iff.mpr hin)]

theorem Laid.physToPfn_eq (h : s.Laid) {n : Nat} (hmaps : s.Maps p n) : s.physToPfn p = .ok n := by
  obtain ⟨slot, hslot, hin, rfl⟩ := hmaps
  refine physToPfnFrom_eq p (Nat.zero_le slot) (by omega) hin fun i _ hi hip => ?_
  exact absurd (h.slot_unique (by omega) hslot hip hin) (by omega)

theorem mem_covered_iff : p ∈ s.covered ↔ ∃ n, s.Maps p n := by
  constructor
  · rintro ⟨slot, hslot, hin⟩
    exact ⟨_, slot, hslot, hin, rfl⟩
  · rintro ⟨n, slot, hslot, hin, -⟩
    exact ⟨slot, hslot, hin⟩

/-! ## One merge -/

variable {index : Nat}

theorem mergeInto_list (hpos : 0 < index) (hindex : index < s.count) (slot : Nat)
    (hslot : slot < s.count - 1) :
    (s.mergeInto index).list slot =
      if slot + 1 < index then s.list slot
      else if slot + 1 = index then
        { s.list slot with
          range := ⟨(s.list slot).range.front,
            ((s.list slot).range.size + (s.list index).range.size) % U64⟩ }
      else s.list (slot + 1) := by
  unfold mergeInto memmove setSection
  dsimp only
  by_cases hlow : slot + 1 < index
  · rw [if_pos hlow, if_neg (by omega), Function.update_of_ne (by omega)]
  · rw [if_neg hlow]
    by_cases hat : slot + 1 = index
    · obtain rfl : slot = index - 1 := by omega
      rw [if_pos hat, if_neg (by omega), Function.update_self]
    · rw [if_neg hat, if_pos (by omega), Function.update_of_ne (by omega)]
      congr 1
      omega

/-- What a merge makes of the sections, with the sum of the sizes as it is. -/
structure Merged (s s' : Sections) (index : Nat) : Prop where
  count : s'.count = s.count - 1
  below : ∀ slot, slot + 1 < index → s'.list slot = s.list slot
  pfn : (s'.list (index - 1)).pfn = (s.list (index - 1)).pfn
  front : (s'.list (index - 1)).range.front = (s.list (index - 1)).range.front
  size : (s'.list (index - 1)).range.size =
    (s.list (index - 1)).range.size + (s.list index).range.size
  above : ∀ slot, index ≤ slot → slot < s.count - 1 → s'.list slot = s.list (slot + 1)

theorem Laid.merged (h : s.Laid) (hpos : 0 < index) (hindex : index < s.count)
    (htouch : (s.list (index - 1)).range.end_ = (s.list index).range.front) :
    Merged s (s.mergeInto index) index := by
  have hend := (h.fits index hindex).2
  have hlist := fun slot hslot => mergeInto_list hpos hindex slot hslot
  have hprev := hlist (index - 1) (by omega)
  rw [if_neg (by omega), if_pos (by omega)] at hprev
  have hsum : (s.list (index - 1)).range.size + (s.list index).range.size < U64 := by
    unfold Range.end_ at hend htouch
    omega
  refine ⟨rfl, ?_, ?_, ?_, ?_, ?_⟩
  · intro slot hslot
    rw [hlist slot (by omega), if_pos hslot]
  · rw [hprev]
  · rw [hprev]
  · rw [hprev]
    exact Nat.mod_eq_of_lt hsum
  · intro slot hle hlt
    rw [hlist slot hlt, if_neg (by omega), if_neg (by omega)]

namespace Merged

variable {s' : Sections}

section

variable (hm : Merged s s' index)
include hm

theorem end_eq (htouch : (s.list (index - 1)).range.end_ = (s.list index).range.front) :
    (s'.list (index - 1)).range.end_ = (s.list index).range.end_ := by
  have hfront := hm.front
  have hsize := hm.size
  unfold Range.end_ at htouch ⊢
  omega

theorem front_eq {slot : Nat} (hslot : slot + 1 ≤ index) :
    (s'.list slot).range.front = (s.list slot).range.front := by
  rcases lt_or_ge (slot + 1) index with hlt | hge
  · rw [hm.below slot hlt]
  · obtain rfl : slot = index - 1 := by omega
    exact hm.front

theorem settled (hsettled : s.Settled index) : s'.Settled index := by
  intro slot hslot
  rw [hm.below slot hslot, hm.front_eq (by omega)]
  exact hsettled slot hslot

section

variable (h : s.Laid) (hpos : 0 < index) (hindex : index < s.count)
  (htouch : (s.list (index - 1)).range.end_ = (s.list index).range.front)
include h hpos hindex htouch

theorem laid : s'.Laid := by
  have hend := hm.end_eq htouch
  have hprev := h.fits (index - 1) (by omega)
  have hhere := h.fits index hindex
  refine ⟨?_, ?_, ?_, ?_⟩
  · intro slot hslot
    rw [hm.count] at hslot
    rcases lt_trichotomy (slot + 1) index with hlt | heq | hgt
    · rw [hm.below slot hlt]
      exact h.fits slot (by omega)
    · obtain rfl : slot = index - 1 := by omega
      refine ⟨?_, by rw [hend]; exact hhere.2⟩
      rw [hm.size]
      exact Nat.add_pos_left hprev.1 _
    · rw [hm.above slot (by omega) hslot]
      exact h.fits (slot + 1) (by omega)
  · intro slot hslot
    rw [hm.count] at hslot
    rcases lt_trichotomy (slot + 1) index with hlt | heq | hgt
    · rw [hm.below slot hlt]
      exact h.aligned slot (by omega)
    · obtain rfl : slot = index - 1 := by omega
      rw [hm.front, hm.size]
      exact ⟨(h.aligned _ (by omega)).1, dvd_add (h.aligned _ (by omega)).2 (h.aligned _ hindex).2⟩
    · rw [hm.above slot (by omega) hslot]
      exact h.aligned (slot + 1) (by omega)
  · intro slot hslot
    rw [hm.count] at hslot
    rcases lt_trichotomy (slot + 1) index with hlt | heq | hgt
    · rw [hm.below slot hlt, hm.front_eq (by omega)]
      exact h.apart slot (by omega)
    · -- the merged section and the one behind it
      obtain rfl : slot = index - 1 := by omega
      rw [hend, hm.above (index - 1 + 1) (by omega) (by omega), Nat.sub_add_cancel hpos]
      exact h.apart index (by omega)
    · rw [hm.above slot (by omega) (by omega), hm.above (slot + 1) (by omega) (by omega)]
      exact h.apart (slot + 1) (by omega)
  · intro slot hslot
    rw [hm.count] at hslot
    rcases lt_trichotomy (slot + 1) index with hlt | heq | hgt
    · have hpfn : (s'.list (slot + 1)).pfn = (s.list (slot + 1)).pfn := by
        rcases lt_or_ge (slot + 2) index with hlt' | hge'
        · rw [hm.below (slot + 1) hlt']
        · have hslot' : slot + 1 = index - 1 := by omega
          rw [hslot', hm.pfn]
      rw [hpfn, hm.below slot hlt]
      exact h.consecutive slot (by omega)
    · obtain rfl : slot = index - 1 := by omega
      have hbefore := h.consecutive (index - 1) (by omega)
      have hafter := h.consecutive index (by omega)
      obtain ⟨a, ha⟩ := (h.aligned (index - 1) (by omega)).2
      rw [hm.above (index - 1 + 1) (by omega) (by omega), hm.pfn, hm.size, ha]
      rw [Nat.sub_add_cancel hpos] at hbefore ⊢
      rw [ha] at hbefore
      rw [hafter, hbefore]
      unfold pageCount
      rw [Nat.mul_add_div (by decide), Nat.mul_div_cancel_left a (by decide)]
      omega
    · rw [hm.above slot (by omega) (by omega), hm.above (slot + 1) (by omega) (by omega)]
      exact h.consecutive (slot + 1) (by omega)

/-- The addresses of the section that was taken in get the same pages from the merged one. -/
theorem maps_iff (p n : Nat) :
    s'.Maps p n ↔ s.Maps p n := by
  have hend := hm.end_eq htouch
  have hbefore := h.consecutive (index - 1) (by omega)
  rw [Nat.sub_add_cancel hpos] at hbefore
  obtain ⟨a, ha⟩ := (h.aligned (index - 1) (by omega)).2
  have hhigh : ∀ q, (s.list index).range.front ≤ q →
      (s.list (index - 1)).pfn + (q - (s.list (index - 1)).range.front) / PAGE_SIZE =
        (s.list index).pfn + (q - (s.list index).range.front) / PAGE_SIZE := by
    intro q hq
    have hshift : q - (s.list (index - 1)).range.front =
        PAGE_SIZE * a + (q - (s.list index).range.front) := by
      unfold Range.end_ at htouch
      omega
    rw [hshift, hbefore, ha, pageCount, Nat.mul_add_div (by decide),
      Nat.mul_div_cancel_left a (by decide), add_assoc]
  constructor
  · rintro ⟨slot, hslot, hin, hn⟩
    rw [hm.count] at hslot
    rcases lt_trichotomy (slot + 1) index with hlt | heq | hgt
    · rw [hm.below slot hlt] at hin hn
      exact ⟨slot, by omega, hin, hn⟩
    · obtain rfl : slot = index - 1 := by omega
      rw [hm.pfn, hm.front] at hn
      rcases lt_or_ge p (s.list index).range.front with hlow | hge
      · refine ⟨index - 1, by omega, ⟨?_, ?_⟩, hn⟩
        · rw [← hm.front]
          exact hin.1
        · rw [htouch]
          exact hlow
      · refine ⟨index, hindex, ⟨hge, ?_⟩, hn.trans (hhigh p hge)⟩
        rw [← hend]
        exact hin.2
    · rw [hm.above slot (by omega) hslot] at hin hn
      exact ⟨slot + 1, by omega, hin, hn⟩
  · rintro ⟨slot, hslot, hin, hn⟩
    rcases lt_trichotomy (slot + 1) index with hlt | heq | hgt
    · refine ⟨slot, by rw [hm.count]; omega, ?_, ?_⟩
      · rw [hm.below slot hlt]
        exact hin
      · rw [hm.below slot hlt]
        exact hn
    · obtain rfl : slot = index - 1 := by omega
      have hle : (s.list index).range.front ≤ (s.list index).range.end_ := le_self_add
      refine ⟨index - 1, by rw [hm.count]; omega, ⟨?_, ?_⟩, ?_⟩
      · rw [hm.front]
        exact hin.1
      · rw [hend]
        exact lt_of_lt_of_le (htouch ▸ hin.2) hle
      · rw [hm.pfn, hm.front]
        exact hn
    · rcases eq_or_lt_of_le (show index ≤ slot by omega) with rfl | hlt
      · refine ⟨index - 1, by rw [hm.count]; omega, ⟨?_, ?_⟩, ?_⟩
        · rw [hm.front]
          have hle : (s.list (index - 1)).range.front ≤ (s.list (index - 1)).range.end_ :=
            le_self_add
          exact le_trans (htouch ▸ hle) hin.1
        · rw [hend]
          exact hin.2
        · rw [hm.pfn, hm.front, hhigh p hin.1]
          exact hn
      · have hslot' := hm.above (slot - 1) (by omega) (by omega)
        rw [Nat.sub_add_cancel (by omega)] at hslot'
        refine ⟨slot - 1, by rw [hm.count]; omega, ?_, ?_⟩
        · rw [hslot']
          exact hin
        · rw [hslot']
          exact hn

end

end

end Merged

/-! ## The loops -/

/--
From a slot on, with nothing touching below it, the loop settles all sections, and keeps what every
merge keeps.
-/
theorem Laid.mergeFrom_eq {P : Sections → Prop} (hstep : ∀ {s : Sections} {index : Nat}, s.Laid →
    0 < index → index < s.count → (s.list (index - 1)).range.end_ = (s.list index).range.front →
    P s → P (s.mergeInto index)) : ∀ {fuel : Nat} {s : Sections} {index : Nat}, s.Laid → P s →
    0 < index → index ≤ s.count → s.Settled index → s.count - index < fuel →
    ∃ s', mergeFrom fuel s index = .ok s' ∧ s'.Laid ∧ 0 < s'.count ∧ s'.Settled s'.count ∧ P s' := by
  intro fuel
  induction fuel with
  | zero =>
    omega
  | succ fuel ih =>
    intro s index h hP hpos hle hsettled hfuel
    rw [mergeFrom]
    by_cases hdone : index = s.count
    · rw [if_pos hdone]
      exact ⟨s, rfl, h, by omega, hdone ▸ hsettled, hP⟩
    · have hindex : index < s.count := by omega
      rw [if_neg hdone, Range.getEndAssert_eq (h.fits (index - 1) (by omega)).2, ok_bind]
      by_cases htouch : (s.list (index - 1)).range.end_ = (s.list index).range.front
      · rw [if_neg (not_not.mpr htouch)]
        have hm := h.merged hpos hindex htouch
        exact ih (hm.laid h hpos hindex htouch) (hstep h hpos hindex htouch hP) hpos
          (by rw [hm.count]; omega) (hm.settled hsettled) (by rw [hm.count]; omega)
      · rw [if_pos htouch]
        refine ih h hP (by omega) (by omega) ?_ (by omega)
        intro slot hslot
        rcases lt_or_ge (slot + 1) index with hlt | hge
        · exact hsettled slot hlt
        · obtain rfl : index = slot + 1 := by omega
          exact htouch

end

/--
**Merging keeps every page.** For every array of at least one section whose ranges are not empty,
page-aligned and ascending and whose pfns are consecutive, `boot_merge_usable_memmaps` returns after
at most as many turns as there are sections, no two neighbours touch then, the same addresses are
covered, and `phys_to_pfn` gives each of them the page it gave before.
-/
theorem bootMergeUsableMemmaps_settles (s : Sections) (fuel : Nat) (h : s.Laid) (hpos : 0 < s.count)
    (hfuel : s.count ≤ fuel) :
    ∃ s', s.bootMergeUsableMemmaps fuel = .ok s' ∧
      (∀ slot, slot + 1 < s'.count →
        (s'.list slot).range.end_ ≠ (s'.list (slot + 1)).range.front) ∧
      s'.covered = s.covered ∧ ∀ p ∈ s.covered, s'.physToPfn p = s.physToPfn p := by
  have hstart : s.Settled 1 := fun slot hslot => absurd hslot (by omega)
  obtain ⟨s', hrun, hlaid, -, hsettled, hmaps⟩ :=
    Laid.mergeFrom_eq (P := fun s' => ∀ p n, s'.Maps p n ↔ s.Maps p n)
      (fun h hpos hindex htouch hmaps p n =>
        ((h.merged hpos hindex htouch).maps_iff h hpos hindex htouch p n).trans (hmaps p n))
      h (fun _ _ => Iff.rfl) one_pos hpos hstart (show s.count - 1 < fuel by omega)
  refine ⟨s', hrun, hsettled, ?_, fun p hp => ?_⟩
  · ext p
    simp only [mem_covered_iff, hmaps]
  · obtain ⟨n, hn⟩ := mem_covered_iff.mp hp
    rw [h.physToPfn_eq hn, hlaid.physToPfn_eq ((hmaps p n).mpr hn)]

/-- A page, two pages right behind it, and a page further up. -/
def threeSections : Sections where
  list slot :=
    { zone := none
      range := if slot = 0 then ⟨0x1000, 0x1000⟩ else if slot = 1 then ⟨0x2000, 0x2000⟩
        else ⟨0x8000, 0x1000⟩
      pfn := if slot = 0 then 0 else if slot = 1 then 1 else 3
      freelistCount := fun _ => 0
      minOrder := 0
      maxOrder := 0
      totalFree := 0 }
  links _ := ⟨none, none⟩
  count := 3

theorem threeSections_laid : threeSections.Laid where
  fits := by decide
  aligned := by decide
  apart slot hslot := by
    have hslot' : slot < 2 := Nat.lt_of_succ_lt_succ hslot
    interval_cases slot <;> decide
  consecutive slot hslot := by
    have hslot' : slot < 2 := Nat.lt_of_succ_lt_succ hslot
    interval_cases slot <;> decide

theorem bootMergeUsableMemmaps_settles_three :
    ∃ s', threeSections.bootMergeUsableMemmaps 3 = .ok s' ∧
      (∀ slot, slot + 1 < s'.count →
        (s'.list slot).range.end_ ≠ (s'.list (slot + 1)).range.front) ∧
      s'.covered = threeSections.covered ∧
      ∀ p ∈ threeSections.covered, s'.physToPfn p = threeSections.physToPfn p :=
  bootMergeUsableMemmaps_settles threeSections 3 threeSections_laid (by decide) (by decide)

end Sections

end OsKernel.Boot
