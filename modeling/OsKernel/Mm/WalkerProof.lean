import OsKernel.Mm.Walker

/-!
# Where a walker stands

A walker *follows* an address from a level up if it holds, at each of these levels, the
table that the address meets there and the address's index. It *stands* at the address if
it follows it from its own level up and the entry it points to names no further table, so
that there is nothing below for it to hold.

Creating a walker gives one that stands at the address, and two walkers that stand at the
same address agree from their level up. So what is said of a created walker can be said
of any walker that stands there, and the proofs about `ptwalker_next_with_options` only
have to show where the walker stands in the end.

The results are about calls that return. That the calls do return is shown for four
levels; with five, `pte_level_can_have_large` reads past the end of its list whenever it
is asked about the top level.
-/

namespace OsKernel.Mm

open PtWalker
open Function

variable {entry k : Nat} {prevTable table : Option Nat}

/-- The virtual address meets the table `t` at level `k`. -/
abbrev Meets (p : Paging) (s : PageTables) (root virt k t : Nat) : Prop :=
  (p.radix root).Path s.entries (virtToPtIndex virt) k t

/-- The walker holds the tables and the indices of an address from a level up. -/
structure Follows (p : Paging) (s : PageTables) (root : Nat) (w : PtWalker) (virt level : Nat) :
    Prop where
  top : w.topLevel = p.pgtGetTopLevel
  path : ∀ k, level ≤ k → k ≤ p.pgtGetTopLevel → ∃ t, w.tables k = some t ∧ Meets p s root virt k t
  indices : ∀ k, level ≤ k → k ≤ p.pgtGetTopLevel → w.indices k = virtToPtIndex virt k
  /-- Above the top level there is nothing. -/
  above : ∀ k, p.pgtGetTopLevel < k → w.tables k = none ∧ w.indices k = 0

/-- The walker stands at an address. -/
structure Stands (p : Paging) (s : PageTables) (root : Nat) (w : PtWalker) (virt : Nat) : Prop
    extends Follows p s root w virt w.level where
  pos : 0 < w.level
  le : w.level ≤ p.pgtGetTopLevel
  /-- The entry it points to names no table. -/
  ends : ∀ t, Meets p s root virt w.level t →
    (p.radix root).child w.level (s.entries t (virtToPtIndex virt w.level)) = none

variable {p : Paging} {s s' : PageTables} {root virt : Nat} {w w' f : PtWalker}
variable {level t index l : Nat}

theorem Follows.stands (h : Follows p s root w virt level) (hlevel : w.level = level)
    (hpos : 0 < level) (ht : Meets p s root virt level t)
    (hend : (p.radix root).child level (s.entries t (virtToPtIndex virt level)) = none) :
    Stands p s root w virt := by
  subst hlevel
  refine { h with pos := hpos, le := ht.le_top, ends := fun t' ht' => ?_ }
  rw [← ht.unique ht']
  exact hend

theorem Stands.agree (h : Stands p s root w virt) (h' : Stands p s root w' virt) :
    w.level = w'.level ∧
      ∀ k, w.level ≤ k → w.tables k = w'.tables k ∧ w.indices k = w'.indices k := by
  obtain ⟨t, -, ht⟩ := h.path w.level le_rfl h.le
  obtain ⟨t', -, ht'⟩ := h'.path w'.level le_rfl h'.le
  have hlevel : w.level = w'.level :=
    le_antisymm (ht.end_le (h.ends t ht) ht') (ht'.end_le (h'.ends t' ht') ht)
  refine ⟨hlevel, fun k hk => ?_⟩
  rcases lt_or_ge p.pgtGetTopLevel k with htop | htop
  · rw [(h.above k htop).1, (h.above k htop).2, (h'.above k htop).1, (h'.above k htop).2]
    exact ⟨rfl, rfl⟩
  · obtain ⟨u, hu, hpath⟩ := h.path k hk htop
    obtain ⟨u', hu', hpath'⟩ := h'.path k (hlevel ▸ hk) htop
    rw [hu, hu', hpath.unique hpath', h.indices k hk htop, h'.indices k (hlevel ▸ hk) htop]
    exact ⟨rfl, rfl⟩

/-! ## Reading entries -/

theorem pteRead_some (h : index < PGT_PTE_COUNT) :
    s.pteRead (some t) index = .ok (s.entries t index) := if_pos h

theorem canHaveLarge_ok {b : Bool} (h : p.pteLevelCanHaveLarge level = .ok b) :
    level < PGT_LEVEL_COUNT ∧ b = p.isSupported level := by
  unfold Paging.pteLevelCanHaveLarge at h
  split at h
  · exact ⟨‹_›, by cases h; rfl⟩
  · cases h

theorem canHaveLarge_of_lt (h : level < PGT_LEVEL_COUNT) :
    p.pteLevelCanHaveLarge level = .ok (p.isSupported level) := by
  unfold Paging.pteLevelCanHaveLarge
  rw [if_pos h]

/-! ## Creating a walker -/

/-- What the loop of `ptwalker_create_for_pagemap` has done when it has come down to a level. -/
structure Created (p : Paging) (s : PageTables) (root : Nat) (w : PtWalker) (virt level : Nat) :
    Prop where
  follows : Follows p s root w virt w.level
  le : w.level ≤ p.pgtGetTopLevel
  low : level ≤ w.level
  indices : ∀ k, level ≤ k → k ≤ p.pgtGetTopLevel → w.indices k = virtToPtIndex virt k
  missing : ∀ k, level ≤ k → k < w.level → w.tables k = none
  /-- Once a level has no table, the walker's level is where the walk has ended. -/
  ended : level < w.level → ∀ t, Meets p s root virt w.level t →
    (p.radix root).child w.level (s.entries t (virtToPtIndex virt w.level)) = none

/-- The walker at the next lower level: a table and an index written there, and the level set. -/
def PtWalker.lower (w : PtWalker) (level : Nat) (table : Option Nat) (index walkerLevel : Nat) :
    PtWalker :=
  { (w.setTable level table).setIndex level index with level := walkerLevel }

theorem lower_tables :
    (w.lower level table index l).tables k = if k = level then table else w.tables k := by
  simp [PtWalker.lower, setTable, setIndex, update_apply]

theorem lower_indices :
    (w.lower level table index l).indices k = if k = level then index else w.indices k := by
  simp [PtWalker.lower, setTable, setIndex, update_apply]

theorem Follows.congr (h : Follows p s root w virt level) (hle : level ≤ p.pgtGetTopLevel + 1)
    (htop : w'.topLevel = w.topLevel)
    (hsame : ∀ k, level ≤ k → w'.tables k = w.tables k ∧ w'.indices k = w.indices k) :
    Follows p s root w' virt level where
  top := htop.trans h.top
  path k hk hkt := by
    rw [(hsame k hk).1]
    exact h.path k hk hkt
  indices k hk hkt := by
    rw [(hsame k hk).2]
    exact h.indices k hk hkt
  above k hk := by
    rw [(hsame k (by omega)).1, (hsame k (by omega)).2]
    exact h.above k hk

theorem Follows.lower (h : Follows p s root w virt level) (hk : k < level)
    (hle : level ≤ p.pgtGetTopLevel + 1) :
    Follows p s root (w.lower k table index l) virt level := by
  refine h.congr hle rfl fun j hj => ?_
  rw [lower_tables, lower_indices, if_neg (by omega), if_neg (by omega)]
  exact ⟨rfl, rfl⟩

theorem Follows.descend (h : Follows p s root w virt (level + 1))
    (ht : Meets p s root virt level t) :
    Follows p s root (w.lower level (some t) (virtToPtIndex virt level) l) virt level where
  top := h.top
  path j hj hle := by
    rw [lower_tables]
    split
    · exact ⟨t, rfl, ‹j = level› ▸ ht⟩
    · exact h.path j (by omega) hle
  indices j hj hle := by
    rw [lower_indices]
    split
    · rw [‹j = level›]
    · exact h.indices j (by omega) hle
  above j hj := by
    have hle : level ≤ p.pgtGetTopLevel := ht.le_top
    rw [lower_tables, lower_indices, if_neg (by omega), if_neg (by omega)]
    exact h.above j hj

section

variable (h : Created p s root w virt (level + 1))
include h

theorem Created.lower_none (hlt : level < w.level) (hend : ∀ t, Meets p s root virt w.level t →
      (p.radix root).child w.level (s.entries t (virtToPtIndex virt w.level)) = none) :
    Created p s root (w.lower level none (virtToPtIndex virt level) w.level) virt level where
  follows := h.follows.lower hlt (Nat.le_succ_of_le h.le)
  le := h.le
  low := le_of_lt hlt
  indices k hk hle := by
    rw [lower_indices]
    split
    · rw [‹k = level›]
    · exact h.indices k (by omega) hle
  missing k hk hlt' := by
    rw [lower_tables]
    split
    · rfl
    · exact h.missing k (by omega) hlt'
  ended _ := hend

theorem Created.lower_some (heq : w.level = level + 1) (ht : Meets p s root virt level t) :
    Created p s root (w.lower level (some t) (virtToPtIndex virt level) level) virt level where
  follows := (heq ▸ h.follows).descend ht
  le := ht.le_top
  low := le_rfl
  indices k hk hle := by
    rw [lower_indices]
    split
    · rw [‹k = level›]
    · exact h.indices k (by omega) hle
  missing k hk hlt := absurd hlt (not_lt.mpr hk)
  ended hlt := absurd hlt (lt_irrefl _)

/-- The loop goes down level by level; what it returns has come down to level 1. -/
theorem createLoop_created (hret : createLoop p s virt level w (w.tables (level + 1)) = .ok w') :
    Created p s root w' virt 1 := by
  induction level generalizing w with
  | zero =>
    cases hret
    exact h
  | succ level ih =>
    have hlow := h.low
    have htop := h.le
    rw [createLoop, bind_eq_ok] at hret
    obtain ⟨⟨table, l⟩, hstep, hret⟩ := hret
    -- In every case the rest of the loop runs on the walker `w.lower`.
    suffices hnext : Created p s root (w.lower (level + 1) table (virtToPtIndex virt (level + 1)) l)
        virt (level + 1) by
      refine ih hnext ?_
      rw [lower_tables, if_pos rfl]
      exact hret
    cases hprev : w.tables (level + 1 + 1) with
    | none =>
      have hlt : level + 1 + 1 < w.level := by
        rcases lt_or_eq_of_le hlow with hlt | heq
        · exact hlt
        · obtain ⟨t, ht, -⟩ := h.follows.path _ (le_of_eq heq.symm) (by omega)
          rw [hprev] at ht
          cases ht
      rw [hprev] at hstep
      cases hstep
      exact h.lower_none (by omega) (h.ended hlt)
    | some t =>
      have heq : w.level = level + 1 + 1 := by
        rcases lt_or_eq_of_le hlow with hlt | heq
        · rw [h.missing _ le_rfl hlt] at hprev
          cases hprev
        · exact heq.symm
      obtain ⟨u, hu, hpath⟩ := h.follows.path (level + 1 + 1) (le_of_eq heq) (by omega)
      obtain rfl : t = u := Option.some.inj (hprev.symm.trans hu)
      have hidx := h.indices (level + 1 + 1) le_rfl (by omega)
      rw [hprev] at hstep
      simp only [createStep, hidx, pteRead_some (virtToPtIndex_lt _ _), ok_bind] at hstep
      cases hpr : pteIsPresent (s.entries t (virtToPtIndex virt (level + 1 + 1))) with
      | false =>
        simp only [hpr, Bool.false_eq_true, ↓reduceIte, pure_eq_ok] at hstep
        cases hstep
        refine h.lower_none (by omega) fun t' ht' => ?_
        rw [heq] at ht' ⊢
        rw [← hpath.unique ht']
        exact radix_child_absent hpr
      | true =>
        simp only [hpr, ↓reduceIte, bind_eq_ok] at hstep
        obtain ⟨can, hcan, hstep⟩ := hstep
        obtain ⟨-, rfl⟩ := canHaveLarge_ok hcan
        cases hlg : (p.isSupported (level + 1 + 1) &&
            pteIsLarge (s.entries t (virtToPtIndex virt (level + 1 + 1)))) with
        | false =>
          have hcond : (!p.isSupported (level + 1 + 1) ||
              !pteIsLarge (s.entries t (virtToPtIndex virt (level + 1 + 1)))) = true := by
            rw [← Bool.not_and, hlg]; rfl
          rw [if_pos hcond] at hstep
          cases hstep
          exact h.lower_some heq
            (hpath.down (virtToPtIndex_lt _ _) (radix_child_table hpr (by omega) hlg))
        | true =>
          have hcond : ¬ (!p.isSupported (level + 1 + 1) ||
              !pteIsLarge (s.entries t (virtToPtIndex virt (level + 1 + 1)))) = true := by
            rw [← Bool.not_and, hlg]; decide
          rw [if_neg hcond] at hstep
          obtain ⟨hsup, hlarge⟩ := Bool.and_eq_true_iff.mp hlg
          cases hstep
          rw [← heq]
          refine h.lower_none (by omega) fun t' ht' => ?_
          rw [heq] at ht' ⊢
          rw [← hpath.unique ht']
          exact radix_child_large hsup hlarge

end

/-- The walker that `ptwalker_create_for_pagemap` starts its loop with. -/
def PtWalker.atRoot (p : Paging) (root virt : Nat) : PtWalker where
  tables := Function.update (fun _ => none) p.pgtGetTopLevel (some root)
  indices := Function.update (fun _ => 0) p.pgtGetTopLevel (virtToPtIndex virt p.pgtGetTopLevel)
  level := p.pgtGetTopLevel
  topLevel := p.pgtGetTopLevel

theorem createForPagemap_eq (hroot : hasAlign root PAGE_SIZE = true)
    (hvirt : hasAlign virt PAGE_SIZE = true) :
    createForPagemap p s root virt =
      createLoop p s virt (p.pgtGetTopLevel - 1) (atRoot p root virt) (some root) := by
  simp [createForPagemap, hroot, hvirt, atRoot]

theorem createForPagemap_aligned (h : createForPagemap p s root virt = .ok w) :
    hasAlign root PAGE_SIZE = true ∧ hasAlign virt PAGE_SIZE = true := by
  unfold createForPagemap at h
  split at h
  case isTrue => cases h
  case isFalse hne => simpa only [Bool.or_eq_true, Bool.not_eq_true', not_or, Bool.not_eq_false] using hne

theorem atRoot_created : Created p s root (atRoot p root virt) virt p.pgtGetTopLevel where
  follows :=
    { top := rfl
      path := fun k hk hle => by
        obtain rfl : k = p.pgtGetTopLevel := le_antisymm hle hk
        exact ⟨root, by simp [atRoot], .root⟩
      indices := fun k hk hle => by
        obtain rfl : k = p.pgtGetTopLevel := le_antisymm hle hk
        simp [atRoot]
      above := fun k hk => by simp [atRoot, (ne_of_lt hk).symm] }
  le := le_rfl
  low := le_rfl
  indices k hk hle := by
    obtain rfl : k = p.pgtGetTopLevel := le_antisymm hle hk
    simp [atRoot]
  missing k hk hlt := absurd hlt (not_lt.mpr hk)
  ended hlt := absurd hlt (lt_irrefl _)

/-- **A created walker stands at its address.** It has the address's index at every level. -/
theorem createForPagemap_stands (h : createForPagemap p s root virt = .ok w) :
    Stands p s root w virt ∧
      ∀ k, 0 < k → k ≤ p.pgtGetTopLevel → w.indices k = virtToPtIndex virt k := by
  obtain ⟨hroot, hvirt⟩ := createForPagemap_aligned h
  rw [createForPagemap_eq hroot hvirt] at h
  have htop := @top_pos p
  obtain ⟨n, hn⟩ : ∃ n, p.pgtGetTopLevel = n + 1 := ⟨p.pgtGetTopLevel - 1, by omega⟩
  have hcreated : Created p s root w virt 1 := by
    refine createLoop_created (hn ▸ (atRoot_created : Created p s root _ virt _)) ?_
    simpa [atRoot, hn] using h
  refine ⟨{ hcreated.follows with pos := hcreated.low, le := hcreated.le, ends := fun t ht => ?_ },
    fun k hk hle => hcreated.indices k hk hle⟩
  rcases lt_or_eq_of_le hcreated.low with hlt | heq
  · exact hcreated.ended hlt t ht
  · rw [← heq]
    exact radix_child_one _

/-! ## When creating a walker returns -/

theorem createStep_returns {parentLevel : Nat} (hidx : w.indices parentLevel < PGT_PTE_COUNT)
    (h : prevTable = none ∨ parentLevel < PGT_LEVEL_COUNT) :
    ∃ r, createStep p s w parentLevel prevTable = .ok r ∧ (prevTable = none → r.1 = none) := by
  cases prevTable with
  | none => exact ⟨_, rfl, fun _ => rfl⟩
  | some t =>
    rcases h with h | h
    · cases h
    simp only [createStep, pteRead_some hidx, ok_bind, canHaveLarge_of_lt h, reduceCtorEq,
      false_implies, and_true]
    split
    · split
      · exact ⟨_, rfl⟩
      · exact ⟨_, rfl⟩
    · exact ⟨_, rfl⟩

/-- Below the fifth level, and below a missing table, the loop returns. -/
theorem createLoop_returns (hidx : ∀ k, w.indices k < PGT_PTE_COUNT)
    (h : prevTable = none ∨ level + 1 < PGT_LEVEL_COUNT) :
    ∃ w', createLoop p s virt level w prevTable = .ok w' := by
  induction level generalizing w prevTable with
  | zero => exact ⟨w, rfl⟩
  | succ level ih =>
    obtain ⟨⟨table, l⟩, hstep, hnone⟩ := createStep_returns (p := p) (s := s) (hidx (level + 2)) h
    rw [createLoop, hstep, ok_bind]
    refine ih (fun k => ?_) ?_
    · simp only [setIndex, setTable, update_apply]
      split
      · exact virtToPtIndex_lt _ _
      · exact hidx k
    · rcases h with h | h
      · exact .inl (hnone h)
      · exact .inr (by omega)

theorem atRoot_indices (k : Nat) : (atRoot p root virt).indices k < PGT_PTE_COUNT := by
  simp only [atRoot, update_apply]
  split
  · exact virtToPtIndex_lt _ _
  · decide

theorem top_lt (h : p.has5lvlPaging = false) : p.pgtGetTopLevel < PGT_LEVEL_COUNT := by
  simp [Paging.pgtGetTopLevel, h, PGT_LEVEL_COUNT]

theorem top_five (h : p.has5lvlPaging = true) : p.pgtGetTopLevel = PGT_LEVEL_COUNT := by
  simp [Paging.pgtGetTopLevel, h, PGT_LEVEL_COUNT]

/--
With five levels, a present entry in the root table makes the kernel ask whether level 5 has large
pages.
-/
theorem createForPagemap_returns_iff (hroot : hasAlign root PAGE_SIZE = true)
    (hvirt : hasAlign virt PAGE_SIZE = true) :
    (∃ w, createForPagemap p s root virt = .ok w) ↔
      p.has5lvlPaging = false ∨
        pteIsPresent (s.entries root (virtToPtIndex virt p.pgtGetTopLevel)) = false := by
  rw [createForPagemap_eq hroot hvirt]
  obtain ⟨n, hn⟩ : ∃ n, p.pgtGetTopLevel = n + 2 :=
    ⟨p.pgtGetTopLevel - 2, by have := @three_lt_top p; omega⟩
  cases hfive : p.has5lvlPaging with
  | false =>
    simp only [true_or, iff_true]
    have := top_lt hfive
    exact createLoop_returns atRoot_indices (.inr (by omega))
  | true =>
    have htop := top_five hfive
    have hidx : (atRoot p root virt).indices (n + 2) = virtToPtIndex virt (n + 2) := by
      simp [atRoot, hn]
    simp only [Bool.true_eq_false, false_or]
    rw [hn, show n + 2 - 1 = n + 1 from rfl, createLoop]
    simp only [createStep, hidx, pteRead_some (virtToPtIndex_lt _ _), ok_bind]
    cases hpr : pteIsPresent (s.entries root (virtToPtIndex virt (n + 2))) with
    | false =>
      simp only [Bool.false_eq_true, ↓reduceIte, pure_eq_ok, ok_bind, iff_true]
      refine createLoop_returns (fun k => ?_) (.inl rfl)
      simp only [setIndex, setTable, update_apply]
      split
      · exact virtToPtIndex_lt _ _
      · exact atRoot_indices k
    | true =>
      have hlarge : p.pteLevelCanHaveLarge (n + 2) = .error .outOfBounds := by
        rw [← hn, htop]
        rfl
      simp only [↓reduceIte, hlarge, Bool.true_eq_false, iff_false]
      rintro ⟨w, hw⟩
      cases hw

/-! ## Looking an address up -/

theorem Meets.walkEnd_eq (h : Meets p s root virt level t) (hpos : 0 < level)
    (hend : (p.radix root).child level (s.entries t (virtToPtIndex virt level)) = none) :
    walkEnd p s root virt = (level, s.entries t (virtToPtIndex virt level)) := by
  obtain ⟨n, rfl⟩ : ∃ n, level = n + 1 := ⟨level - 1, by omega⟩
  exact h.lookup_end hend

theorem exists_meets_end (p : Paging) (s : PageTables) (root virt : Nat) :
    ∃ level t, 0 < level ∧ Meets p s root virt level t ∧
      (p.radix root).child level (s.entries t (virtToPtIndex virt level)) = none := by
  obtain ⟨n, hn⟩ : ∃ n, p.pgtGetTopLevel = n + 1 :=
    ⟨p.pgtGetTopLevel - 1, by have := @top_pos p; omega⟩
  have hroot : Meets p s root virt (n + 1) root := hn ▸ (.root : Meets p s root virt _ root)
  obtain ⟨j, t, -, ht, hend⟩ := Radix.exists_end radix_child_one (virtToPtIndex_lt virt) hroot
  exact ⟨j + 1, t, Nat.succ_pos _, ht, hend⟩

/-- An entry where a walk ends is absent, an entry of level 1, or a large page. -/
theorem child_none (h : (p.radix root).child level entry = none)
    (hpr : pteIsPresent entry = true) :
    level = 1 ∨ (p.isSupported level = true ∧ pteIsLarge entry = true) := by
  by_contra hne
  push Not at hne
  have hn : (p.isSupported level && pteIsLarge entry) = false := by
    cases hsup : p.isSupported level with
    | false => rfl
    | true => simpa using hne.2 hsup
  rw [radix_child_table hpr hne.1 hn] at h
  cases h

/-- With four levels `ptwalker_virt_get_phys` reads the translation off the entry it stands at. -/
theorem Stands.virtGetPhys_eq (hw : createForPagemap p s root virt = .ok w)
    (h : Stands p s root w virt) (hlt : w.level < PGT_LEVEL_COUNT) :
    virtGetPhys p s root virt = .ok ((s.translate p root virt).getD INVALID_PHYS) := by
  obtain ⟨t, ht, hmeets⟩ := h.path w.level le_rfl h.le
  have hidx := h.indices w.level le_rfl h.le
  have hend := h.ends t hmeets
  rw [translate_eq, hmeets.walkEnd_eq h.pos hend, virtGetPhys, hw, ok_bind]
  simp only [ht, hidx, pteRead_some (virtToPtIndex_lt _ _), canHaveLarge_of_lt hlt, leafPhys]
  generalize s.entries t (virtToPtIndex virt w.level) = entry at hend ⊢
  cases hpr : pteIsPresent entry with
  | false =>
    -- Whether or not the level allows large pages, the result is `INVALID_PHYS`.
    by_cases hone : 1 < w.level
    · cases hsup : p.isSupported w.level <;> simp [hone, hpr]
    · simp [hone, hpr]
  | true =>
    rcases child_none hend hpr with hone | ⟨hsup, hlarge⟩
    · simp [hone, hpr]
    · by_cases hone : 1 < w.level
      · simp [hone, hsup, hpr, hlarge]
      · simp [hone, hpr, hlarge]

/-- If the address's entry of the root table is absent, the walker is at the top level. -/
theorem Stands.level_eq_top (h : Stands p s root w virt)
    (habsent : pteIsPresent (s.entries root (virtToPtIndex virt p.pgtGetTopLevel)) = false) :
    w.level = p.pgtGetTopLevel := by
  obtain ⟨t, -, ht⟩ := h.path w.level le_rfl h.le
  have hmeets : Meets p s root virt p.pgtGetTopLevel root := .root
  exact le_antisymm h.le (hmeets.end_le (radix_child_absent habsent) ht)

/-- With five levels it always asks whether level 5 has large pages. -/
theorem virtGetPhys_five (hfive : p.has5lvlPaging = true) (phys : Nat) :
    virtGetPhys p s root virt ≠ .ok phys := by
  intro hret
  rw [virtGetPhys, bind_eq_ok] at hret
  obtain ⟨w, hw, hret⟩ := hret
  obtain ⟨hroot, hvirt⟩ := createForPagemap_aligned hw
  have hstands := (createForPagemap_stands hw).1
  have habsent : pteIsPresent (s.entries root (virtToPtIndex virt p.pgtGetTopLevel)) = false := by
    rcases (createForPagemap_returns_iff hroot hvirt).mp ⟨w, hw⟩ with h | h
    · rw [hfive] at h
      cases h
    · exact h
  have hlevel := hstands.level_eq_top habsent
  have htop := top_five hfive
  have hlarge : p.pteLevelCanHaveLarge w.level = .error .outOfBounds := by
    unfold Paging.pteLevelCanHaveLarge
    rw [if_neg (by omega)]
  have hone : 1 < w.level := by
    unfold PGT_LEVEL_COUNT at htop
    omega
  rw [if_pos hone, hlarge] at hret
  cases hret

theorem leafPhys_ne_invalid (h : level ≤ PGT_LEVEL_COUNT) :
    leafPhys virt (level, entry) ≠ some INVALID_PHYS := by
  have hphys : pteToPhys entry ≤ 0x0000fffffffff000 := Nat.and_le_right
  have hoffset : virt % pageSizeAtLevel level < pageSizeAtLevel level :=
    Nat.mod_lt _ (pageSizeAtLevel_pos _)
  have hsize : pageSizeAtLevel level ≤ 2 ^ 48 := by
    refine Nat.pow_le_pow_right (by decide) ?_
    unfold PGT_LEVEL_COUNT at h
    unfold pageShift PAGE_SHIFT
    omega
  unfold leafPhys
  split
  · intro heq
    rw [Option.some.injEq] at heq
    simp only [INVALID_PHYS, U64] at heq
    omega
  · exact fun heq => nomatch heq

theorem translate_ne_invalid : s.translate p root virt ≠ some INVALID_PHYS := by
  obtain ⟨level, t, hpos, ht, hend⟩ := exists_meets_end p s root virt
  rw [translate_eq, ht.walkEnd_eq hpos hend]
  exact leafPhys_ne_invalid (le_trans ht.le_top top_le)

/--
**`ptwalker_virt_get_phys` is the textbook walk**, with `INVALID_PHYS` exactly where that walk meets
an entry that is not present, on a machine with four levels; with five it never returns.
-/
theorem virtGetPhys_is_translate_iff (p : Paging) (s : PageTables) (root virt : Nat)
    (hroot : hasAlign root PAGE_SIZE = true) (hvirt : hasAlign virt PAGE_SIZE = true) :
    (virtGetPhys p s root virt = .ok ((s.translate p root virt).getD INVALID_PHYS) ∧
      (virtGetPhys p s root virt = .ok INVALID_PHYS ↔ s.translate p root virt = none)) ↔
      p.has5lvlPaging = false := by
  constructor
  · intro h
    cases hfive : p.has5lvlPaging with
    | false => rfl
    | true => exact absurd h.1 (virtGetPhys_five hfive _)
  · intro hfour
    obtain ⟨w, hw⟩ := (createForPagemap_returns_iff (s := s) hroot hvirt).mpr (.inl hfour)
    have hstands := (createForPagemap_stands hw).1
    have heq := hstands.virtGetPhys_eq hw (lt_of_le_of_lt hstands.le (top_lt hfour))
    rw [heq]
    cases htr : s.translate p root virt with
    | none => simp
    | some phys =>
      have hne : phys ≠ INVALID_PHYS := fun heq => translate_ne_invalid (heq ▸ htr)
      simp [hne]

/-- Tables that give the page at `0x40_0000` the physical page `0x9000`. -/
def onePage : PageTables where
  entries t i :=
    if (t, i) = (0x1000, 0) then 0x2003
    else if (t, i) = (0x2000, 0) then 0x3003
    else if (t, i) = (0x3000, 2) then 0x4003
    else if (t, i) = (0x4000, 0) then 0x9001
    else 0
  refcount _ := 1
  isTable t := t ≤ 0x4000
  isLargeHead _ := false
  pool := []
  freed := []

theorem virtGetPhys_is_translate_iff_onePage :
    virtGetPhys ⟨false, true⟩ onePage 0x1000 0x400000 = .ok 0x9000 ∧
      virtGetPhys ⟨false, true⟩ onePage 0x1000 0x401000 = .ok INVALID_PHYS := by
  constructor
  · exact ((virtGetPhys_is_translate_iff ⟨false, true⟩ onePage 0x1000 0x400000 (by decide)
      (by decide)).mpr rfl).1.trans (by decide)
  · exact ((virtGetPhys_is_translate_iff ⟨false, true⟩ onePage 0x1000 0x401000 (by decide)
      (by decide)).mpr rfl).2.mpr (by decide)

/-- With five levels an address without a translation makes the kernel read past its list. -/
theorem virtGetPhys_reads_past_list :
    virtGetPhys ⟨true, true⟩ { onePage with entries := fun _ _ => 0 } 0x1000 0x400000 =
        .error .outOfBounds ∧
      PageTables.translate ⟨true, true⟩ { onePage with entries := fun _ _ => 0 } 0x1000 0x400000 =
        none := by
  decide

end OsKernel.Mm
