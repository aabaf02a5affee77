import OsKernel.Mm.WalkerProof

/-!
# The address of a walker, and the step back

The indices of a walker from its level up are the digits of a number in base 512, and
`ptwalker_get_virt_addr` puts them together again. What it gets is the address modulo the
size of all that the root table covers. In the lower half that is the address itself; the
ones above the top index that make an address of the upper half canonical are lost.

`ptwalker_prev_with_options` undoes `ptwalker_next_with_options` as long as the walker
stays in one table. Where the step has gone over into the next table, the step back goes
down through `setup_levels_lower_than`, which sets up the lower levels with their first
entry, as for a step forward: the index comes out as 0 and not as 511.
-/

namespace OsKernel.Mm

open PtWalker Nat

variable {p : Paging} {s s₁ s₂ : PageTables} {root virt acc entry fuel level : Nat}
  {w w₁ w₂ : PtWalker} {r : Carried}

/-! ## The address of a walker -/

theorem or_index {index : Nat} (hacc : acc < pageSizeAtLevel level) :
    acc ||| (index <<< pageShift level) = acc + index * pageSizeAtLevel level := by
  rw [Nat.or_comm, ← Nat.shiftLeft_add_eq_or_of_lt hacc, Nat.shiftLeft_eq, add_comm]
  rfl

/-- The loop adds up the indices of an address, each times the size of a page of its level. -/
theorem virtAddr_fold {indices : Nat → Nat} (n : Nat) (hpos : 0 < level)
    (hacc : acc < pageSizeAtLevel level)
    (hindices : ∀ k, level ≤ k → k < level + n → indices k = virtToPtIndex virt k) :
    (List.range' level n).foldl
        (fun result level => result ||| ((indices level &&& 0x1ff) <<< pageShift level)) acc
      = acc + virt / pageSizeAtLevel level % PGT_PTE_COUNT ^ n * pageSizeAtLevel level := by
  induction n generalizing level acc with
  | zero => simp [mod_one]
  | succ n ih =>
    have hidx : indices level &&& 0x1ff = virtToPtIndex virt level := by
      rw [hindices level le_rfl (by omega), show (0x1ff : Nat) = 2 ^ 9 - 1 from rfl,
        and_two_pow_sub_one_eq_mod]
      exact mod_eq_of_lt (virtToPtIndex_lt _ _)
    have hlt : acc + virtToPtIndex virt level * pageSizeAtLevel level < pageSizeAtLevel (level + 1) := by
      have hmul := mul_le_mul_right (pageSizeAtLevel level) (virtToPtIndex_lt virt level)
      rw [pageSizeAtLevel_succ hpos, mul_comm _ PGT_PTE_COUNT]
      rw [succ_mul] at hmul
      omega
    rw [List.range'_succ, List.foldl_cons, hidx, or_index hacc,
      ih (succ_pos _) hlt fun k hk hle => hindices k (by omega) (by omega), pow_succ',
      Nat.mod_mul, virtToPtIndex_eq, pageSizeAtLevel_succ hpos, ← Nat.div_div_eq_div_mul]
    ring

/-- An address of the lower half is put together again, one of the upper half is not. -/
theorem Stands.getVirtAddr_eq_iff (h : Stands p s root w virt) (hvirt : Canonical p virt) :
    w.getVirtAddr = virt / pageSizeAtLevel w.level * pageSizeAtLevel w.level ↔
      virt < pageSizeAtLevel (p.pgtGetTopLevel + 1) / 2 := by
  have hsize := pageSizeAtLevel_pos w.level
  have hle := h.le
  have hcover : PGT_PTE_COUNT ^ (p.pgtGetTopLevel + 1 - w.level) * pageSizeAtLevel w.level
      = pageSizeAtLevel (p.pgtGetTopLevel + 1) := by
    rw [mul_comm, ← pageSizeAtLevel_add h.pos]
    congr 1
    omega
  rw [getVirtAddr, virtAddr_fold _ h.pos hsize
    (fun k hk hlt => h.indices k hk (by rw [h.top] at hlt; omega)), zero_add, h.top]
  constructor
  · intro heq
    rcases hvirt with hlow | ⟨hhigh, -⟩
    · exact hlow
    · -- what is left lies in the lower half, and far below the address
      have hmod := mod_lt (virt / pageSizeAtLevel w.level)
        (pow_pos (n := p.pgtGetTopLevel + 1 - w.level) (show 0 < PGT_PTE_COUNT by decide))
      have hlt := mul_lt_mul_of_pos_right hmod hsize
      have hround := lt_div_mul_add (a := virt) hsize
      have hpage : pageSizeAtLevel w.level ≤ pageSizeAtLevel p.pgtGetTopLevel :=
        le_of_dvd (pageSizeAtLevel_pos _) (pageSizeAtLevel_dvd hle)
      have hroom : pageSizeAtLevel (p.pgtGetTopLevel + 1) + pageSizeAtLevel (p.pgtGetTopLevel + 1) / 2 +
          pageSizeAtLevel p.pgtGetTopLevel < U64 := by
        unfold Paging.pgtGetTopLevel
        split <;> decide
      omega
  · intro hlow
    rw [mod_eq_of_lt]
    rw [div_lt_iff_lt_mul hsize, hcover]
    omega

/--
**The address of a created walker.** For a canonical, page-aligned address a walker is created and
`ptwalker_get_virt_addr` is the address rounded down to the page size of the walker's level exactly
for the addresses of the lower half; with five levels also the entry of the root table has to be
absent, since otherwise the walker cannot be created.
-/
theorem getVirtAddr_rounds_iff (p : Paging) (s : PageTables) (root virt : Nat)
    (hroot : hasAlign root PAGE_SIZE = true) (halign : hasAlign virt PAGE_SIZE = true)
    (hvirt : Canonical p virt) :
    (∃ w, createForPagemap p s root virt = .ok w ∧
        w.getVirtAddr = virt / pageSizeAtLevel w.level * pageSizeAtLevel w.level) ↔
      virt < pageSizeAtLevel (p.pgtGetTopLevel + 1) / 2 ∧
        (p.has5lvlPaging = false ∨
          pteIsPresent (s.entries root (virtToPtIndex virt p.pgtGetTopLevel)) = false) := by
  rw [← createForPagemap_returns_iff hroot halign, and_comm, ← exists_and_right]
  refine exists_congr fun w => and_congr_right fun hw => ?_
  exact (createForPagemap_stands hw).1.getVirtAddr_eq_iff hvirt

/-- The page at `0x40_0000`, which the walker meets at level 1. -/
theorem getVirtAddr_rounds_iff_onePage :
    ∃ w, createForPagemap ⟨false, true⟩ onePage 0x1000 0x400000 = .ok w ∧
      w.getVirtAddr = 0x400000 / pageSizeAtLevel w.level * pageSizeAtLevel w.level :=
  (getVirtAddr_rounds_iff ⟨false, true⟩ onePage 0x1000 0x400000 (by decide) (by decide)
    (by decide)).mpr ⟨by decide, .inl rfl⟩

/-- **An address of the kernel** loses its upper sixteen bits. -/
theorem getVirtAddr_of_kernel :
    Canonical ⟨false, true⟩ 0xffffc00000000000 ∧
      (createForPagemap ⟨false, true⟩ onePage 0x1000 0xffffc00000000000).map
        (fun w => (w.level, w.getVirtAddr)) = .ok (4, 0x0000c00000000000) ∧
      0xffffc00000000000 / pageSizeAtLevel 4 * pageSizeAtLevel 4 = 0xffffc00000000000 := by
  decide +kernel

/-! ## The step back -/

/-- If the walker has come down to level 1, it points to the first entry of the table there. -/
def AtFirst (w : PtWalker) : Prop := w.level ≤ 1 → w.indices 1 = 0

theorem AtFirst.of_lt (h : 1 < w.level) : AtFirst w := fun hle => absurd hle (not_le.mpr h)

/-- `setup_levels_lower_than` comes down along the first entries. -/
theorem setupLevels_atFirst (h : setupLevels p s level w entry = .ok w₁) :
    AtFirst w₁ := by
  induction level generalizing w entry with
  | zero => cases h
  | succ level ih =>
    rw [setupLevels, bind_eq_ok] at h
    obtain ⟨entry', -, h⟩ := h
    obtain ⟨stops, -, h⟩ := bind_eq_ok.mp h
    cases stops with
    | true =>
      cases h
      intro hle
      obtain rfl : level = 0 := le_zero.mp (le_of_succ_le_succ hle)
      simp [setIndex]
    | false =>
      by_cases hzero : level = 0
      · subst hzero
        cases h
        intro _
        simp [setIndex]
      · simp only [Bool.false_eq_true, ↓reduceIte, hzero] at h
        exact ih h

theorem enterEntry_atFirst (hone : 1 < level) (h : enterEntry p s w level entry = .ok w₁) : AtFirst w₁ := by
  rw [enterEntry, bind_eq_ok] at h
  obtain ⟨can, -, h⟩ := h
  split at h
  · exact setupLevels_atFirst h
  · split at h
    · cases h
      exact .of_lt hone
    · exact setupLevels_atFirst h

/-- What a loop over the levels leaves behind once the index of the lowest has run over. -/
def PtWalker.Carried.Leaves : Carried → Prop
  | .returned _ w => AtFirst w
  | .absent level _ => 1 < level

/-- Carrying into the next table leaves the walker at the first entry there. -/
theorem carry_leaves (hpos : 0 < level) (h : carry p s fuel w level = .ok r) : r.Leaves := by
  induction fuel generalizing w level with
  | zero => cases h
  | succ fuel ih =>
    rw [carry] at h
    split at h
    · split at h
      · cases h
      · cases h
        exact fun _ => if_pos (succ_lt_succ hpos)
    · dsimp only at h
      split at h
      · exact ih (succ_pos _) h
      · obtain ⟨entry, -, h⟩ := bind_eq_ok.mp h
        split at h
        · cases h
          exact succ_lt_succ hpos
        · obtain ⟨w', hw', h⟩ := bind_eq_ok.mp h
          cases h
          exact enterEntry_atFirst (succ_lt_succ hpos) hw'

/-- So does borrowing from the table before, where the last entry would be the right one. -/
theorem borrow_leaves (hpos : 0 < level) (h : borrow p s fuel w level = .ok r) : r.Leaves := by
  induction fuel generalizing w level with
  | zero => cases h
  | succ fuel ih =>
    rw [borrow] at h
    split at h
    · split at h
      · cases h
      · cases h
        exact fun _ => if_pos (succ_lt_succ hpos)
    · dsimp only at h
      split at h
      · exact ih (succ_pos _) h
      · obtain ⟨entry, -, h⟩ := bind_eq_ok.mp h
        obtain ⟨can, -, h⟩ := bind_eq_ok.mp h
        split at h
        · obtain ⟨w', hw', h⟩ := bind_eq_ok.mp h
          cases h
          exact setupLevels_atFirst hw'
        · split at h
          · cases h
            exact succ_lt_succ hpos
          · split at h
            · cases h
              exact .of_lt (succ_lt_succ hpos)
            · obtain ⟨w', hw', h⟩ := bind_eq_ok.mp h
              cases h
              exact setupLevels_atFirst hw'

variable {allocLevel shouldRef : Bool} {r : WalkerResult}

theorem levelOne_accepted (hlevel : w.level = 1) (htop : 1 ≤ w.topLevel) :
    ¬ (decide (1 < w.level) || decide (w.topLevel < 1)) = true := by
  simp only [Bool.or_eq_true, decide_eq_true_eq]
  omega

theorem prev_atFirst (hfirst : AtFirst w)
    (h : prevWithOptions p w s 1 false allocLevel shouldRef = .ok (.ok, w₁, s₁)) : AtFirst w₁ := by
  unfold prevWithOptions at h
  split at h
  · cases h
  case isFalse hstart =>
    simp only [Bool.or_eq_true, decide_eq_true_eq, not_or, not_lt] at hstart
    have hindex : (if w.level < 1 then w.resetLevelsLowerThan 1 else w).indices 1 = 0 := by
      split
      · exact hfirst hstart.1
      · exact hfirst hstart.1
    simp only [one_ne_zero, ↓reduceIte, hindex, ne_eq, not_true_eq_false, bind_eq_ok] at h
    obtain ⟨c, hc, h⟩ := h
    have hleaves := borrow_leaves one_pos hc
    cases c with
    | returned res w' =>
      cases h
      exact hleaves
    | absent landing w' =>
      cases h
      exact .of_lt hleaves

/-- Inside a table the two steps return, and the walker is as before. -/
theorem next_prev_inside {allocLevel' shouldRef' : Bool} (hlevel : w.level = 1)
    (htop : 1 ≤ w.topLevel) (hlt : w.indices 1 + 1 < PGT_PTE_COUNT) :
    nextWithOptions p w s 1 false allocLevel shouldRef =
        .ok (.ok, w.setIndex 1 (w.indices 1 + 1), s) ∧
      prevWithOptions p (w.setIndex 1 (w.indices 1 + 1)) s 1 false allocLevel' shouldRef' =
        .ok (.ok, w, s) := by
  constructor
  · rw [nextWithOptions, if_neg (levelOne_accepted hlevel htop), if_neg one_ne_zero]
    simp [hlt]
  · have haccepted := @levelOne_accepted (w.setIndex 1 (w.indices 1 + 1)) hlevel htop
    have hlow : ¬ (w.setIndex 1 (w.indices 1 + 1)).level < 1 :=
      not_lt.mpr (le_of_eq hlevel.symm)
    rw [prevWithOptions, if_neg haccepted, if_neg one_ne_zero]
    simp only [if_neg hlow]
    simp [setIndex]

/--
**The step back undoes the step exactly inside a table.** A walker at level 1 has a table at every
level. If it steps on at level 1 without making tables and then steps back with success, it has the
level, the tables and the indices it had before if and only if the step has not left the table.
-/
theorem prev_undoes_next_iff (p : Paging) (s s₁ s₂ : PageTables) (w w₁ w₂ : PtWalker)
    (r : WalkerResult) (allocLevel shouldRef allocLevel' shouldRef' : Bool)
    (hlevel : w.level = 1)
    (hnext : nextWithOptions p w s 1 false allocLevel shouldRef = .ok (r, w₁, s₁))
    (hprev : prevWithOptions p w₁ s₁ 1 false allocLevel' shouldRef' = .ok (.ok, w₂, s₂)) :
    (w₂.level = w.level ∧ w₂.tables = w.tables ∧ w₂.indices = w.indices) ↔
      w.indices 1 + 1 < PGT_PTE_COUNT := by
  have htop : 1 ≤ w.topLevel := by
    by_contra hbad
    -- both calls would refuse the level
    have hzero : w.topLevel = 0 := by omega
    rw [nextWithOptions, if_pos (by simp [hzero])] at hnext
    cases hnext
    rw [prevWithOptions, if_pos (by simp [hzero])] at hprev
    cases hprev
  constructor
  · rintro ⟨hlevel', -, hindices⟩
    by_contra hfull
    have hfirst : AtFirst w₁ := by
      rw [nextWithOptions, if_neg (levelOne_accepted hlevel htop), if_neg one_ne_zero] at hnext
      simp only [hfull, ↓reduceIte, bind_eq_ok] at hnext
      obtain ⟨c, hc, hnext⟩ := hnext
      have hleaves := carry_leaves one_pos hc
      cases c with
      | returned res w' =>
        cases hnext
        exact hleaves
      | absent landing w' =>
        cases hnext
        exact .of_lt hleaves
    have hzero := prev_atFirst hfirst hprev (by rw [hlevel', hlevel])
    rw [hindices] at hzero
    rw [hzero] at hfull
    exact hfull (by decide)
  · intro hlt
    obtain ⟨hstep, hback⟩ := next_prev_inside (p := p) (s := s) hlevel htop hlt
    rw [hstep] at hnext
    cases hnext
    rw [hback] at hprev
    cases hprev
    exact ⟨rfl, rfl, rfl⟩

/-- Two tables of level 1 next to each other, with the last page of one and the first of the other. -/
def twoTables : PageTables where
  entries t i :=
    if (t, i) = (0x1000, 0) then 0x2003
    else if (t, i) = (0x2000, 0) then 0x3003
    else if (t, i) = (0x3000, 0) then 0x4003
    else if (t, i) = (0x3000, 1) then 0x5003
    else if (t, i) = (0x4000, 511) then 0x9001
    else if (t, i) = (0x5000, 0) then 0xa001
    else 0
  refcount _ := 1
  isTable t := t ≤ 0x5000
  isLargeHead _ := false
  pool := []
  freed := []

/-- A walker in `twoTables` at the entry `index` of its first table of level 1. -/
def atPage (index : Nat) : PtWalker where
  tables := fun
    | 1 => some 0x4000
    | 2 => some 0x3000
    | 3 => some 0x2000
    | 4 => some 0x1000
    | _ => none
  indices := fun
    | 1 => index
    | _ => 0
  level := 1
  topLevel := 4

theorem prev_undoes_next_iff_inside :
    ∃ w₁ s₁ w₂ s₂,
      nextWithOptions ⟨false, true⟩ (atPage 7) twoTables 1 false false true = .ok (.ok, w₁, s₁) ∧
      prevWithOptions ⟨false, true⟩ w₁ s₁ 1 false false true = .ok (.ok, w₂, s₂) ∧
      w₂.level = (atPage 7).level ∧ w₂.tables = (atPage 7).tables ∧
        w₂.indices = (atPage 7).indices := by
  obtain ⟨hnext, hprev⟩ := @next_prev_inside ⟨false, true⟩ twoTables (atPage 7) false true
    false true rfl (by decide) (by decide)
  exact ⟨_, _, _, _, hnext, hprev,
    (prev_undoes_next_iff _ _ _ _ _ _ _ _ _ _ _ _ rfl hnext hprev).mpr (by decide)⟩

/-- **The step back over the end of a table** comes out at its first entry and not at its last. -/
theorem prev_over_table_end :
    (do
      let w ← createForPagemap ⟨false, true⟩ twoTables 0x1000 0x1ff000
      let (r₁, w₁, s₁) ← nextWithOptions ⟨false, true⟩ w twoTables 1 false false true
      let (r₂, w₂, _) ← prevWithOptions ⟨false, true⟩ w₁ s₁ 1 false false true
      pure [(WalkerResult.ok, w.level, w.tables 1, w.indices 1),
        (r₁, w₁.level, w₁.tables 1, w₁.indices 1),
        (r₂, w₂.level, w₂.tables 1, w₂.indices 1)] : Result _) =
      .ok [(.ok, 1, some 0x4000, 511), (.ok, 1, some 0x5000, 0), (.ok, 1, some 0x4000, 0)] := by
  decide

end OsKernel.Mm
