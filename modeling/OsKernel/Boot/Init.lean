import OsKernel.Boot.Sections

/-!
# Recording the bootloader's memory map (`boot_init` in `kernel/boot.c`)

Every entry of the map is rounded outward to pages and compared with the range recorded
last. If the two overlap, the entry is dropped or loses what the recorded range has. The
comparison with one range is enough as long as the recorded ranges ascend, and they stop
ascending in one way only: an entry that was trimmed is recorded further up than it began,
and the next entry may begin below it and end before it does. That entry is then recorded
out of order, or trips an assertion.

The pages of an entry are covered by the ranges as they were rounded, which need not be all
the pages that the entry touches.
-/

namespace OsKernel.Boot

open List hiding Disjoint range

open Adt (Range)
open Mm (PAGE_SIZE pageCount)

/-- `LIMINE_MEMMAP_*`. The kinds of `enum mm_memmap_kind` are the same, each one higher. -/
inductive MemmapKind where
  | usable
  | reserved
  | acpiReclaimable
  | acpiNvs
  | badMemory
  | bootloaderReclaimable
  | kernelAndModules
  | framebuffer
  deriving DecidableEq, Repr

/-- `struct limine_memmap_entry`. -/
structure MemmapEntry where
  base : Nat
  length : Nat
  type : MemmapKind

/-- `struct mm_memmap`. -/
structure Memmap where
  range : Range
  kind : MemmapKind

/-- `mm_memmap_list`, the section array, and the pfn of the next section. -/
structure BootState where
  memmaps : List Memmap
  sections : Sections
  pfn : Nat

/-- The number of slots in `mm_memmap_list`. -/
def MEMMAP_SLOTS : Nat := 255

/-- The range of an entry, rounded to pages. -/
def MemmapEntry.rounded (entry : MemmapEntry) : Option Range :=
  (⟨entry.base, entry.length⟩ : Range).alignOut PAGE_SIZE

namespace BootState

/-- Before `boot_init` everything is zero. -/
def zero : BootState where
  memmaps := []
  sections :=
    { list := fun _ =>
        { zone := none, range := ⟨0, 0⟩, pfn := 0, freelistCount := fun _ => 0
          minOrder := 0, maxOrder := 0, totalFree := 0 }
      links := fun _ => ⟨none, none⟩
      count := 0 }
  pfn := 0

/-- What is left of a range next to the one recorded last: `none` if it is skipped. -/
def trim (s : BootState) (range : Range) : Result (Option Range) :=
  match s.memmaps.getLast? with
  | none => .ok (some range)
  | some prev =>
    if prev.range.overlaps range then
      if prev.range.has range then .ok none
      else do
        let prevEnd ← prev.range.getEndAssert
        let range ← range.fromLoc prevEnd
        pure (some range)
    else .ok (some range)

/-- The range is recorded, and is a section too if it is usable. -/
def record (s : BootState) (range : Range) (kind : MemmapKind) : BootState :=
  let memmaps := s.memmaps ++ [⟨range, kind⟩]
  if kind = .usable then
    { memmaps := memmaps
      sections :=
        { s.sections.pageSectionInit s.sections.count none range s.pfn with
          count := s.sections.count + 1 }
      pfn := s.pfn + pageCount range.size }
  else { s with memmaps := memmaps }

/-- The body of the loop over the entries. -/
def addEntry (s : BootState) (entry : MemmapEntry) : Result BootState :=
  if s.memmaps.length = MEMMAP_SLOTS then .error .panic
  else
    match entry.rounded with
    | none => .error .panic
    | some range => do
      match ← s.trim range with
      | none => pure s
      | some range => pure (s.record range entry.type)

/-- The loop over the entries. -/
def addEntries (s : BootState) : List MemmapEntry → Result BootState
  | [] => .ok s
  | entry :: entries => do
    let s ← s.addEntry entry
    s.addEntries entries

end BootState

/-- `boot_init`, as far as the memory map goes. -/
def bootInit (entries : List MemmapEntry) : Result BootState := BootState.zero.addEntries entries

/-! ## What should be recorded -/

/-- The entries are ordered by their base addresses, and none of them wraps. -/
structure Ordered (entries : List MemmapEntry) : Prop where
  sorted : entries.Pairwise fun a b => a.base ≤ b.base
  words : ∀ entry ∈ entries, entry.base < U64 ∧ entry.length < U64 ∧ entry.base + entry.length ≤ U64

/-- The page at `p` has an address of the entry. -/
def Touches (entry : MemmapEntry) (p : Nat) : Prop :=
  PAGE_SIZE ∣ p ∧
    (Set.Ico p (p + PAGE_SIZE) ∩ Set.Ico entry.base (entry.base + entry.length)).Nonempty

/-- The recorded ranges are of whole pages, ascend, are disjoint and cover the pages touched. -/
structure Records (entries : List MemmapEntry) (s : BootState) : Prop where
  aligned : ∀ m ∈ s.memmaps, PAGE_SIZE ∣ m.range.front ∧ PAGE_SIZE ∣ m.range.size
  ascending : s.memmaps.Pairwise fun a b => a.range.front ≤ b.range.front
  disjoint : s.memmaps.Pairwise fun a b => Disjoint a.range.locs b.range.locs
  covers : ∀ entry ∈ entries, ∀ p, Touches entry p →
    ∃ m ∈ s.memmaps, Set.Ico p (p + PAGE_SIZE) ⊆ m.range.locs

/--
Every entry in turn finds room, can be rounded, and begins no lower than the range recorded last
or reaches beyond it.
-/
def Orderly (entries : List MemmapEntry) : Prop :=
  ∀ before entry after, entries = before ++ entry :: after → ∀ s, bootInit before = .ok s →
    s.memmaps.length < MEMMAP_SLOTS ∧ ∃ range, entry.rounded = some range ∧
      ∀ prev, s.memmaps.getLast? = some prev →
        prev.range.front ≤ range.front ∨ prev.range.end_ < range.end_

/-- Every page that an entry touches is in the rounded range of that or another entry. -/
def Rounded (entries : List MemmapEntry) : Prop :=
  ∀ entry ∈ entries, ∀ p, Touches entry p →
    ∃ other ∈ entries, ∃ range, other.rounded = some range ∧ p ∈ range.locs

/-! ## One entry -/

section

variable {s s' : BootState} {entry : MemmapEntry} {range : Range}

theorem rounded_spec (hwords : entry.base < U64 ∧ entry.length < U64 ∧
    entry.base + entry.length ≤ U64) (h : entry.rounded = some range) :
    PAGE_SIZE ∣ range.front ∧ PAGE_SIZE ∣ range.size ∧
      range.front = entry.base - entry.base % PAGE_SIZE ∧ range.end_ ≤ U64 := by
  obtain ⟨hbase, hlength, hsum⟩ := hwords
  unfold MemmapEntry.rounded Range.alignOut at h
  have hpage : PAGE_SIZE = 2 ^ 12 := rfl
  rw [hpage] at h ⊢
  split at h
  · cases h
  · rename_i size hsize
    cases h
    have hfront := alignDown_two_pow (k := 12) (by decide) hbase
    obtain ⟨hdvd, hle, hlt, -⟩ := alignUp_two_pow (by decide) hsize
    dsimp only at hdvd hle hlt ⊢
    have hdown : 2 ^ 12 ∣ entry.base - entry.base % 2 ^ 12 := Nat.dvd_sub_mod _
    refine ⟨hfront ▸ hdown, hdvd, hfront, ?_⟩
    rw [hfront]
    -- the end is a multiple of the page size less than a page above a number that fits
    by_contra hover
    have hend := add_le_of_dvd (show 2 ^ 12 ∣ U64 by decide) (Nat.dvd_add hdown hdvd)
      (Nat.lt_of_not_le hover)
    omega

theorem record_memmaps (range : Range) (kind : MemmapKind) :
    (s.record range kind).memmaps = s.memmaps ++ [⟨range, kind⟩] := by
  unfold BootState.record
  split
  · rfl
  · rfl

/-- What is recorded for an entry is a part of its rounded range. -/
theorem addEntry_cases (hrun : s.addEntry entry = .ok s') :
    s.memmaps.length ≠ MEMMAP_SLOTS ∧ ∃ range, entry.rounded = some range ∧
      ((s'.memmaps = s.memmaps ∧ s.trim range = .ok none) ∨
      ∃ part, s'.memmaps = s.memmaps ++ [⟨part, entry.type⟩] ∧ s.trim range = .ok (some part)) := by
  unfold BootState.addEntry at hrun
  split at hrun
  · cases hrun
  · rename_i hroom
    refine ⟨hroom, ?_⟩
    split at hrun
    · cases hrun
    · rename_i range hround
      obtain ⟨part, htrim, hrun⟩ := bind_eq_ok.mp hrun
      refine ⟨range, hround, ?_⟩
      cases part with
      | none =>
        cases hrun
        exact Or.inl ⟨rfl, htrim⟩
      | some part =>
        cases hrun
        exact Or.inr ⟨part, record_memmaps part entry.type, htrim⟩

/-- A range that is not skipped keeps its end, and loses at most its front. -/
theorem trim_subset {part : Range} (h : s.trim range = .ok (some part)) :
    part.locs ⊆ range.locs := by
  unfold BootState.trim at h
  split at h
  · cases h
    exact subset_rfl
  · split at h
    · split at h
      · cases h
      · simp only [bind_eq_ok] at h
        obtain ⟨prevEnd, -, part', hloc, hpart⟩ := h
        cases hpart
        unfold Range.fromLoc at hloc
        split at hloc
        · rename_i hhas
          cases hloc
          have hmem := Range.hasLoc_iff.mp hhas
          intro p hp
          simp only [Range.locs, Range.end_, Set.mem_Ico] at hp hmem ⊢
          omega
        · cases hloc
    · cases h
      exact subset_rfl

/-- In turn, a range is skipped or recorded from the end of the range before it on. -/
theorem trim_in_turn {prev : Memmap} (hlast : s.memmaps.getLast? = some prev)
    (hturn : prev.range.front ≤ range.front ∨ prev.range.end_ < range.end_)
    (hend : range.end_ ≤ U64) :
    (s.trim range = .ok none ∧ prev.range.front ≤ range.front ∧ range.end_ ≤ prev.range.end_) ∨
    ∃ part, s.trim range = .ok (some part) ∧ part.front = max prev.range.end_ range.front ∧
      part.end_ = range.end_ := by
  have hprev : prev.range.end_ = prev.range.front + prev.range.size := rfl
  have hrange : range.end_ = range.front + range.size := rfl
  unfold BootState.trim
  rw [hlast]
  dsimp only
  by_cases hover : prev.range.overlaps range = true
  · rw [if_pos hover]
    simp only [Range.overlaps_eq, Bool.or_eq_true, Range.hasLoc_iff, Range.locs, Set.mem_Ico] at hover
    by_cases hhas : prev.range.has range = true
    · obtain ⟨hmem, hle⟩ := Range.has_iff_mem.mp hhas
      rw [if_pos hhas]
      exact Or.inl ⟨rfl, hmem.1, hle⟩
    · right
      have hmore := mt Range.has_iff_mem.mpr hhas
      simp only [Range.locs, Set.mem_Ico] at hmore
      have hbeyond : range.front ≤ prev.range.end_ ∧ prev.range.end_ < range.end_ := by omega
      rw [if_neg hhas]
      have hloc : range.hasLoc prev.range.end_ = true := Range.hasLoc_iff.mpr hbeyond
      rw [Range.getEndAssert_eq (by omega), ok_bind, Range.fromLoc, if_pos hloc, ok_bind]
      refine ⟨_, rfl, ?_, ?_⟩
      · dsimp only
        omega
      · change prev.range.end_ + (range.size - (prev.range.end_ - range.front)) = _
        omega
  · right
    rw [if_neg hover]
    simp only [Range.overlaps_eq, Bool.or_eq_true, Range.hasLoc_iff, Range.locs, Set.mem_Ico] at hover
    exact ⟨range, rfl, by omega, rfl⟩

/-- Out of turn, a range is recorded below the one before it, if the call returns. -/
theorem trim_out_of_turn {prev : Memmap} (hlast : s.memmaps.getLast? = some prev)
    (hturn : ¬ (prev.range.front ≤ range.front ∨ prev.range.end_ < range.end_))
    {result : Option Range} (hrun : s.trim range = .ok result) : result = some range := by
  unfold BootState.trim at hrun
  rw [hlast] at hrun
  dsimp only at hrun
  split at hrun
  · split at hrun
    · rename_i hhas
      exact absurd (Or.inl (Range.has_iff_mem.mp hhas).1.1) hturn
    · simp only [bind_eq_ok] at hrun
      obtain ⟨prevEnd, hassert, part, hloc, -⟩ := hrun
      unfold Range.getEndAssert at hassert
      split at hassert
      · rename_i heq
        cases hassert
        obtain ⟨rfl, -⟩ := Range.getEnd_eq_some.mp heq
        unfold Range.fromLoc at hloc
        split at hloc
        · rename_i hhas
          have hmem := Range.hasLoc_iff.mp hhas
          exact absurd (Or.inr hmem.2) hturn
        · cases hloc
      · cases hassert
  · cases hrun
    rfl

end

/-! ## All entries -/

variable {s s' : BootState} {entries : List MemmapEntry}

namespace BootState

theorem addEntries_append : ∀ {before after : List MemmapEntry},
    s.addEntries (before ++ after) = s.addEntries before >>= fun s => s.addEntries after := by
  intro before
  induction before generalizing s with
  | nil =>
    intro after
    rfl
  | cons entry before ih =>
    intro after
    simp only [cons_append, addEntries]
    cases hadd : s.addEntry entry with
    | error e => rfl
    | ok s₁ => exact ih

theorem addEntries_rule {P : BootState → Prop} : ∀ {entries : List MemmapEntry} {s s' : BootState},
    (∀ entry ∈ entries, ∀ s s', P s → s.addEntry entry = .ok s' → P s') → P s →
    s.addEntries entries = .ok s' → P s' := by
  intro entries
  induction entries with
  | nil =>
    intro s s' _ h hrun
    cases hrun
    exact h
  | cons entry entries ih =>
    intro s s' hstep h hrun
    rw [addEntries, bind_eq_ok] at hrun
    obtain ⟨s₁, hadd, hrun⟩ := hrun
    exact ih (fun e he => hstep e (.tail _ he)) (hstep entry mem_cons_self s s₁ h hadd) hrun

theorem addEntries_extends (hrun : s.addEntries entries = .ok s') : s.memmaps <+: s'.memmaps := by
  refine addEntries_rule (P := fun s' => s.memmaps <+: s'.memmaps) ?_ prefix_rfl hrun
  intro entry _ s₁ s₂ h hadd
  obtain ⟨-, range, -, ⟨hsame, -⟩ | ⟨part, hnew, -⟩⟩ := addEntry_cases hadd
  · rw [hsame]
    exact h
  · rw [hnew]
    exact h.trans (prefix_append _ _)

theorem addEntries_length
    (hrun : bootInit entries = .ok s') : s'.memmaps.length ≤ MEMMAP_SLOTS := by
  refine addEntries_rule (P := fun s => s.memmaps.length ≤ MEMMAP_SLOTS) ?_ (Nat.zero_le _) hrun
  intro entry _ s₁ s₂ h hadd
  obtain ⟨hroom, range, -, ⟨hsame, -⟩ | ⟨part, hnew, -⟩⟩ := addEntry_cases hadd
  · rw [hsame]
    exact h
  · rw [hnew, length_append, length_singleton]
    omega

/-- What is recorded lies in the rounded ranges of the entries. -/
def Inside (s : BootState) (entries : List MemmapEntry) : Prop :=
  ∀ m ∈ s.memmaps, ∀ p ∈ m.range.locs,
    ∃ entry ∈ entries, ∃ range, entry.rounded = some range ∧ p ∈ range.locs

theorem bootInit_inside (hrun : bootInit entries = .ok s') : s'.Inside entries := by
  refine addEntries_rule (P := fun s => s.Inside entries) ?_ (by intro m hm; cases hm) hrun
  intro entry hentry s₁ s₂ h hadd m hm p hp
  obtain ⟨-, range, hround, ⟨hsame, -⟩ | ⟨part, hnew, htrim⟩⟩ := addEntry_cases hadd
  · rw [hsame] at hm
    exact h m hm p hp
  · rw [hnew] at hm
    rcases mem_append.mp hm with hm | hm
    · exact h m hm p hp
    · obtain rfl := mem_singleton.mp hm
      exact ⟨entry, hentry, range, hround, trim_subset htrim hp⟩

/-- What holds while every entry comes in turn, with the entries done so far. -/
structure InTurn (s : BootState) (done : List MemmapEntry) : Prop where
  aligned : ∀ m ∈ s.memmaps, PAGE_SIZE ∣ m.range.front ∧ PAGE_SIZE ∣ m.range.size
  apart : s.memmaps.Pairwise fun a b => a.range.end_ ≤ b.range.front
  /-- The rounded ranges are covered. -/
  covers : ∀ entry ∈ done, ∀ range, entry.rounded = some range → ∀ p ∈ range.locs,
    ∃ m ∈ s.memmaps, p ∈ m.range.locs
  /-- From where the last entry begins there is no gap below the end of the last range. -/
  near : ∀ prev, s.memmaps.getLast? = some prev → ∃ entry ∈ done, ∀ p,
    entry.base - entry.base % PAGE_SIZE ≤ p → p < prev.range.end_ → ∃ m ∈ s.memmaps, p ∈ m.range.locs

variable {s : BootState} {done : List MemmapEntry} {entry : MemmapEntry} {range : Range}

theorem sub_mod_mono {a b : Nat} (h : a ≤ b) : a - a % PAGE_SIZE ≤ b - b % PAGE_SIZE := by
  have ha := Nat.div_add_mod a PAGE_SIZE
  have hb := Nat.div_add_mod b PAGE_SIZE
  have hle : PAGE_SIZE * (a / PAGE_SIZE) ≤ PAGE_SIZE * (b / PAGE_SIZE) :=
    Nat.mul_le_mul_left _ (Nat.div_le_div_right h)
  omega

theorem InTurn.extend {part : Range} (h : s.InTurn done)
    (hnew : s'.memmaps = s.memmaps ++ [⟨part, entry.type⟩])
    (haligned : PAGE_SIZE ∣ part.front ∧ PAGE_SIZE ∣ part.size)
    (hround : entry.rounded = some range)
    (hfront : range.front = entry.base - entry.base % PAGE_SIZE) (hend : part.end_ = range.end_)
    (habove : ∀ m ∈ s.memmaps, m.range.end_ ≤ part.front)
    (hgap : ∀ p, range.front ≤ p → p < part.front → ∃ m ∈ s.memmaps, p ∈ m.range.locs) :
    s'.InTurn (done ++ [entry]) := by
  have hall : ∀ p, range.front ≤ p → p < range.end_ → ∃ m ∈ s'.memmaps, p ∈ m.range.locs := by
    intro p hp hp'
    rw [hnew]
    rcases lt_or_ge p part.front with hlow | hhigh
    · obtain ⟨m, hm, hpm⟩ := hgap p hp hlow
      exact ⟨m, mem_append_left _ hm, hpm⟩
    · exact ⟨_, mem_append_right _ (mem_singleton_self _), hhigh, by rw [hend]; exact hp'⟩
  refine ⟨?_, ?_, ?_, ?_⟩
  · intro m hm
    rw [hnew] at hm
    rcases mem_append.mp hm with hm | hm
    · exact h.aligned m hm
    · obtain rfl := mem_singleton.mp hm
      exact haligned
  · rw [hnew, pairwise_append]
    refine ⟨h.apart, pairwise_singleton _ _, fun a ha b hb => ?_⟩
    obtain rfl := mem_singleton.mp hb
    exact habove a ha
  · intro e he range' hround' p hp
    rcases mem_append.mp he with he | he
    · obtain ⟨m, hm, hpm⟩ := h.covers e he range' hround' p hp
      exact ⟨m, by rw [hnew]; exact mem_append_left _ hm, hpm⟩
    · obtain rfl := mem_singleton.mp he
      rw [hround] at hround'
      cases hround'
      exact hall p hp.1 hp.2
  · intro prev hprev
    rw [hnew, getLast?_append_of_ne_nil _ (by simp)] at hprev
    cases hprev
    refine ⟨entry, by simp, fun p hp hp' => hall p ?_ ?_⟩
    · rw [hfront]
      exact hp
    · rw [← hend]
      exact hp'

theorem InTurn.addEntry (h : s.InTurn done)
    (hsorted : ∀ e ∈ done, e.base ≤ entry.base)
    (hwords : entry.base < U64 ∧ entry.length < U64 ∧ entry.base + entry.length ≤ U64)
    (hroom : s.memmaps.length < MEMMAP_SLOTS) (hround : entry.rounded = some range)
    (hturn : ∀ prev, s.memmaps.getLast? = some prev →
      prev.range.front ≤ range.front ∨ prev.range.end_ < range.end_) :
    ∃ s', s.addEntry entry = .ok s' ∧ s'.InTurn (done ++ [entry]) := by
  obtain ⟨hdvdf, hdvds, hfront, hend⟩ := rounded_spec hwords hround
  unfold BootState.addEntry
  rw [if_neg (by omega), hround]
  dsimp only
  cases hlast : s.memmaps.getLast? with
  | none =>
    have hnil : s.memmaps = [] := getLast?_eq_none_iff.mp hlast
    have htrim : s.trim range = .ok (some range) := by
      unfold trim
      rw [hlast]
    rw [htrim]
    refine ⟨_, rfl, h.extend (record_memmaps range entry.type) ⟨hdvdf, hdvds⟩ hround hfront rfl ?_ ?_⟩
    · rw [hnil]
      simp
    · intro p hp hp'
      omega
  | some prev =>
    have hprev : prev ∈ s.memmaps := mem_of_getLast? hlast
    have hprevEnd : prev.range.end_ = prev.range.front + prev.range.size := rfl
    obtain ⟨latest, hlatest, hnear⟩ := h.near prev hlast
    -- the entries ascend, so there is no gap from where this one begins either
    have hgap : ∀ p, range.front ≤ p → p < prev.range.end_ → ∃ m ∈ s.memmaps, p ∈ m.range.locs := by
      intro p hp hp'
      refine hnear p (le_trans ?_ hp) hp'
      rw [hfront]
      exact sub_mod_mono (hsorted latest hlatest)
    rcases trim_in_turn hlast (hturn prev hlast) hend with ⟨htrim, hlow, hhigh⟩ |
      ⟨part, htrim, hpart, hpartEnd⟩
    · rw [htrim]
      refine ⟨s, rfl, h.aligned, h.apart, ?_, ?_⟩
      · intro e he range' hround' p hp
        rcases mem_append.mp he with he | he
        · exact h.covers e he range' hround' p hp
        · obtain rfl := mem_singleton.mp he
          rw [hround] at hround'
          cases hround'
          exact ⟨prev, hprev, le_trans hlow hp.1, lt_of_lt_of_le hp.2 hhigh⟩
      · intro prev' hprev'
        rw [hlast] at hprev'
        cases hprev'
        refine ⟨entry, by simp, fun p hp hp' => hgap p ?_ hp'⟩
        rw [hfront]
        exact hp
    · rw [htrim]
      have hparts : part.end_ = part.front + part.size := rfl
      have hrange : range.end_ = range.front + range.size := rfl
      have halignPrev := h.aligned prev hprev
      refine ⟨_, rfl, h.extend (record_memmaps part entry.type) ?_ hround hfront hpartEnd ?_ ?_⟩
      · have hf : PAGE_SIZE ∣ part.front := by
          rw [hpart]
          rcases le_total prev.range.end_ range.front with hle | hle
          · rw [max_eq_right hle]
            exact hdvdf
          · rw [max_eq_left hle, hprevEnd]
            exact dvd_add halignPrev.1 halignPrev.2
        refine ⟨hf, (Nat.dvd_add_right hf).mp ?_⟩
        rw [← hparts, hpartEnd, hrange]
        exact dvd_add hdvdf hdvds
      · intro m hm
        rw [hpart]
        refine le_trans ?_ (le_max_left _ _)
        -- the last of the ranges has the highest end
        obtain ⟨init, hinit⟩ : ∃ init, s.memmaps = init ++ [prev] :=
          ⟨_, (dropLast_append_getLast? prev hlast).symm⟩
        rw [hinit] at hm
        rcases mem_append.mp hm with hm | hm
        · have hap := h.apart
          rw [hinit, pairwise_append] at hap
          have := hap.2.2 m hm prev (mem_singleton_self _)
          omega
        · obtain rfl := mem_singleton.mp hm
          exact le_refl _
      · intro p hp hp'
        rw [hpart] at hp'
        exact hgap p hp (by omega)

theorem InTurn.addEntries : ∀ {entries : List MemmapEntry} {s : BootState}
    {done : List MemmapEntry}, s.InTurn done → bootInit done = .ok s →
    Ordered (done ++ entries) → Orderly (done ++ entries) →
    ∃ s', s.addEntries entries = .ok s' ∧ s'.InTurn (done ++ entries) := by
  intro entries
  induction entries with
  | nil =>
    intro s done h _ _ _
    rw [append_nil]
    exact ⟨s, rfl, h⟩
  | cons entry entries ih =>
    intro s done h hdone hordered horderly
    obtain ⟨hroom, range, hround, hturn⟩ := horderly done entry entries rfl s hdone
    have hsorted : ∀ e ∈ done, e.base ≤ entry.base := fun e he =>
      (pairwise_append.mp hordered.sorted).2.2 e he entry mem_cons_self
    have hwords := hordered.words entry (by simp)
    obtain ⟨s₁, hadd, h₁⟩ := h.addEntry hsorted hwords hroom hround hturn
    have hassoc : done ++ entry :: entries = done ++ [entry] ++ entries := by simp
    rw [hassoc] at hordered horderly ⊢
    have hdone₁ : bootInit (done ++ [entry]) = .ok s₁ := by
      unfold bootInit at hdone ⊢
      rw [addEntries_append, hdone, ok_bind, BootState.addEntries, hadd]
      rfl
    obtain ⟨s', hrun, h'⟩ := ih h₁ hdone₁ hordered horderly
    refine ⟨s', ?_, h'⟩
    rw [BootState.addEntries, hadd]
    exact hrun

end BootState

open BootState

theorem inTurn_records (h : s.InTurn entries) (hround : Rounded entries) : Records entries s := by
  refine ⟨h.aligned, h.apart.imp fun hab => le_trans le_self_add hab,
    h.apart.imp fun hab => Range.disjoint_locs hab, ?_⟩
  intro entry hentry p hp
  obtain ⟨other, hother, range, hrange, hmem⟩ := hround entry hentry p hp
  obtain ⟨m, hm, hpm⟩ := h.covers other hother range hrange p hmem
  obtain ⟨hf, hs⟩ := h.aligned m hm
  have hpage := add_le_of_dvd hp.1 (dvd_add hf hs) hpm.2
  exact ⟨m, hm, Set.Ico_subset_Ico hpm.1 hpage⟩

/--
**What is recorded of the memory map.** For every memory map in ascending order of base addresses,
whose entries may be unaligned, overlapping or nested, `boot_init` returns with ranges of whole
pages that ascend, are disjoint and cover every page touched by an entry, iff every entry comes in
turn and the rounded ranges have every page touched.
-/
theorem bootInit_records_iff (entries : List MemmapEntry) (h : Ordered entries) :
    (∃ s, bootInit entries = .ok s ∧ Records entries s) ↔ Orderly entries ∧ Rounded entries := by
  constructor
  · rintro ⟨s', hrun, hrecords⟩
    refine ⟨?_, ?_⟩
    · rintro before entry after rfl s hbefore
      unfold bootInit at hrun hbefore
      rw [addEntries_append, hbefore, ok_bind, addEntries, bind_eq_ok] at hrun
      obtain ⟨s₁, hadd, hrun⟩ := hrun
      obtain ⟨more, hmore⟩ := addEntries_extends hrun
      have hfits := addEntries_length hbefore
      obtain ⟨hroom, range, hround, hcase⟩ := addEntry_cases hadd
      refine ⟨lt_of_le_of_ne hfits hroom, range, hround, fun prev hlast => ?_⟩
      by_contra hturn
      have hprev : prev ∈ s.memmaps := mem_of_getLast? hlast
      rcases hcase with ⟨-, htrim⟩ | ⟨part, hnew, htrim⟩
      · have := trim_out_of_turn hlast hturn htrim
        cases this
      · have hpart := trim_out_of_turn hlast hturn htrim
        cases hpart
        -- the range stands behind one that begins above it
        have hascending := hrecords.ascending
        rw [← hmore, hnew, append_assoc, pairwise_append] at hascending
        exact hturn (Or.inl (hascending.2.2 prev hprev _ mem_cons_self))
    · intro entry hentry p hp
      obtain ⟨m, hm, hsub⟩ := hrecords.covers entry hentry p hp
      exact bootInit_inside hrun m hm p (hsub ⟨le_refl _, Nat.lt_add_of_pos_right (by decide)⟩)
  · rintro ⟨horderly, hround⟩
    have hzero : BootState.zero.InTurn [] :=
      { aligned := fun m hm => by cases hm
        apart := List.Pairwise.nil
        covers := fun entry hentry => by cases hentry
        near := fun prev hprev => by cases hprev }
    obtain ⟨s', hrun, h'⟩ := hzero.addEntries rfl h horderly
    exact ⟨s', hrun, inTurn_records h' hround⟩

/-- Two usable pages and a reserved one inside the second of them. -/
def nestedMap : List MemmapEntry := [⟨0x1000, 0x2000, .usable⟩, ⟨0x2000, 0x1000, .reserved⟩]

/-- The second entry lies in the first and is skipped. -/
theorem bootInit_records_iff_nested :
    ∃ s, bootInit nestedMap = .ok s ∧ Records nestedMap s := by
  refine (bootInit_records_iff nestedMap ⟨by decide, by decide⟩).mpr ⟨?_, ?_⟩
  · intro before entry after hsplit s hrun
    rcases before with _ | ⟨first, _ | ⟨second, before⟩⟩
    · cases hsplit
      cases hrun
      exact ⟨by decide, _, rfl, fun prev hprev => by cases hprev⟩
    · cases hsplit
      cases hrun
      exact ⟨by decide, _, rfl, fun prev hprev => by cases hprev; decide⟩
    · have hlen := congrArg length hsplit
      simp [nestedMap] at hlen
  · intro entry hentry p hp
    refine ⟨⟨0x1000, 0x2000, .usable⟩, mem_cons_self, ⟨0x1000, 0x2000⟩, by decide, ?_⟩
    obtain ⟨⟨n, rfl⟩, q, hq, hq'⟩ := hp
    have hpage : PAGE_SIZE = 0x1000 := rfl
    rw [hpage] at hq ⊢
    simp only [nestedMap, mem_cons, not_mem_nil, or_false] at hentry
    simp only [Range.locs, Range.end_, Set.mem_Ico] at hq hq' ⊢
    rcases hentry with rfl | rfl
    · dsimp only at hq'
      omega
    · dsimp only at hq'
      omega

/--
An entry that begins in the middle of a page loses the last page it touches. Of three overlapping
entries the second is trimmed to begin above the third, and the third is recorded as it is, behind
the second and inside the first.
-/
theorem bootInit_records_wrong :
    (bootInit [⟨0x800, 0x1000, .usable⟩]).map (·.memmaps.map (·.range)) = .ok [⟨0, 0x1000⟩] ∧
      Touches ⟨0x800, 0x1000, .usable⟩ 0x1000 ∧
      (bootInit [⟨0, 0x3000, .usable⟩, ⟨0x1000, 0x4000, .usable⟩, ⟨0x2000, 0x1000, .usable⟩]).map
        (·.memmaps.map (·.range)) = .ok [⟨0, 0x3000⟩, ⟨0x3000, 0x2000⟩, ⟨0x2000, 0x1000⟩] := by
  refine ⟨by decide, ⟨by decide, 0x1000, ⟨by decide, by decide⟩, ⟨by decide, by decide⟩⟩, by decide⟩

end OsKernel.Boot
