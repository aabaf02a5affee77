import OsKernel.Mm.WalkerProof

/-!
# Moving a walker on

`ptwalker_next_with_options` adds one to the index of a level. If that runs over, it
carries into the levels above until an index has room: the walker *lands* at that level,
and what it holds from there up belongs to the first address after the page of the level
it was asked for (`pageAfter`). Below the entry it has landed at it goes down again, along
the first entries of the tables.

`nextWithOptions_cases` says all that a call can do. The other results are read off it.
-/

namespace OsKernel.Mm

open PtWalker Nat

variable {p : Paging} {s s' : PageTables} {root virt level : Nat} {w w' w₁ : PtWalker}
variable {t c entry : Nat} {allocLevel shouldRef : Bool} {allocParents : Bool}

/-! ## The walker at the next address -/

theorem Meets.pageAfter {k : Nat} (h : Meets p s root virt k t) (hpos : 0 < level)
    (hidx : virtToPtIndex virt level + 1 < PGT_PTE_COUNT) (hk : level ≤ k) :
    Meets p s root (pageAfter level virt) k t :=
  h.congr fun _ hj _ => virtToPtIndex_pageAfter_above hidx hpos (lt_of_le_of_lt hk hj)

theorem setIndex_of_ne {k index : Nat} (h : k ≠ level) :
    (w.setIndex level index).indices k = w.indices k := Function.update_of_ne h _ _

theorem Follows.setIndex (h : Follows p s root w virt level) (hpos : 0 < level)
    (hle : level ≤ p.pgtGetTopLevel) (hidx : virtToPtIndex virt level + 1 < PGT_PTE_COUNT) :
    Follows p s root (w.setIndex level (virtToPtIndex virt level + 1)) (pageAfter level virt) level
    where
  top := h.top
  path k hk htop := by
    obtain ⟨t, ht, hmeets⟩ := h.path k hk htop
    exact ⟨t, ht, hmeets.pageAfter hpos hidx hk⟩
  indices k hk htop := by
    simp only [PtWalker.setIndex, Function.update_apply]
    split
    · rw [‹k = level›, virtToPtIndex_pageAfter_self hidx]
    · rw [virtToPtIndex_pageAfter_above hidx hpos (by omega)]
      exact h.indices k hk htop
  above k hk := by
    rw [setIndex_of_ne (by omega)]
    exact h.above k hk

theorem Follows.setIndex_lowest {index : Nat} (h : Follows p s root w virt level)
    (hle : level ≤ p.pgtGetTopLevel) :
    Follows p s root (w.setIndex level index) virt (level + 1) where
  top := h.top
  path k hk := h.path k (by omega)
  indices k hk htop := by
    rw [setIndex_of_ne (by omega)]
    exact h.indices k (by omega) htop
  above k hk := by
    rw [setIndex_of_ne (by omega)]
    exact h.above k hk

theorem Follows.reset (h : Follows p s root w virt level) (hle : level ≤ p.pgtGetTopLevel)
    {l : Nat} : Follows p s root { w.resetLevelsLowerThan level with level := l } virt level := by
  refine h.congr (le_succ_of_le hle) rfl fun k hk => ?_
  simp [resetLevelsLowerThan, not_lt.mpr hk]

/-! ## Going down along the first entries -/

/--
`setup_levels_lower_than` goes down to where the address stands, if its lower indices are zero.
Below that it leaves the indices as they were.
-/
theorem setupLevels_stands (h : Follows p s root w virt (level + 1))
    (hzero : ∀ k, 0 < k → k ≤ level → virtToPtIndex virt k = 0)
    (ht : Meets p s root virt level (pteToPhys entry))
    (hret : setupLevels p s level w entry = .ok w') :
    Stands p s root w' virt ∧ w'.level ≤ level ∧ ∀ k, k < w'.level → w'.indices k = w.indices k := by
  induction level generalizing w entry with
  | zero => cases hret
  | succ level ih =>
    have hidx : virtToPtIndex virt (level + 1) = 0 := hzero _ (succ_pos _) le_rfl
    have hdescend : ∀ l, Follows p s root (w.lower (level + 1) (some (pteToPhys entry)) 0 l) virt
        (level + 1) := fun l => hidx ▸ h.descend ht
    have hkept : ∀ l k, k < level + 1 →
        (w.lower (level + 1) (some (pteToPhys entry)) 0 l).indices k = w.indices k := by
      intro l k hk
      rw [lower_indices, if_neg (by omega)]
    -- The walker stands here if the entry read names no table.
    have hhere : (p.radix root).child (level + 1) (s.entries (pteToPhys entry) 0) = none →
        Stands p s root (w.lower (level + 1) (some (pteToPhys entry)) 0 (level + 1)) virt := by
      exact fun hend => (hdescend _).stands rfl (succ_pos _) ht (hidx ▸ hend)
    rw [setupLevels, pteRead_some (by decide), ok_bind, bind_eq_ok] at hret
    obtain ⟨stop, hstop, hret⟩ := hret
    unfold stopsAt at hstop
    cases hpr : pteIsPresent (s.entries (pteToPhys entry) 0) with
    | false =>
      simp only [hpr, Bool.not_false, ↓reduceIte, Except.ok.injEq] at hstop
      subst hstop
      cases hret
      exact ⟨hhere (radix_child_absent hpr), le_rfl, hkept _⟩
    | true =>
      simp only [hpr, Bool.not_true, Bool.false_eq_true, ↓reduceIte, bind_eq_ok] at hstop
      obtain ⟨can, hcan, hstop⟩ := hstop
      obtain ⟨-, rfl⟩ := canHaveLarge_ok hcan
      cases hstop
      cases hlg : (p.isSupported (level + 1) && pteIsLarge (s.entries (pteToPhys entry) 0)) with
      | true =>
        rw [if_pos hlg] at hret
        cases hret
        obtain ⟨hsup, hlarge⟩ := Bool.and_eq_true_iff.mp hlg
        exact ⟨hhere (radix_child_large hsup hlarge), le_rfl, hkept _⟩
      | false =>
        rw [if_neg (by rw [hlg]; decide)] at hret
        split at hret
        case isTrue hlevel =>
          subst hlevel
          cases hret
          exact ⟨hhere (radix_child_one _), le_rfl, hkept _⟩
        case isFalse hlevel =>
          have hdown : Meets p s root virt level (pteToPhys (s.entries (pteToPhys entry) 0)) := by
            refine Radix.Path.down ht (virtToPtIndex_lt _ _) ?_
            rw [hidx]
            exact radix_child_table hpr (by omega) hlg
          obtain ⟨hstands, hle, hkeep⟩ := ih (hdescend w.level)
            (fun k hk hkl => hzero k hk (by omega)) hdown hret
          refine ⟨hstands, by omega, fun k hk => ?_⟩
          rw [hkeep k hk]
          exact hkept _ k (by omega)

theorem enterEntry_stands (h : Follows p s root w virt level) (hone : 1 < level)
    (hzero : ∀ k, 0 < k → k < level → virtToPtIndex virt k = 0) (ht : Meets p s root virt level t)
    (hpr : pteIsPresent (s.entries t (virtToPtIndex virt level)) = true)
    (hret : enterEntry p s w level (s.entries t (virtToPtIndex virt level)) = .ok w') :
    Stands p s root w' virt ∧
      ((w'.level = level ∧ ∀ k, k < level → w'.indices k = 0) ∨
        (w'.level < level ∧ ∀ k, k < w'.level → w'.indices k = w.indices k)) := by
  rw [enterEntry, bind_eq_ok] at hret
  obtain ⟨can, hcan, hret⟩ := hret
  obtain ⟨-, rfl⟩ := canHaveLarge_ok hcan
  obtain ⟨n, rfl⟩ : ∃ n, level = n + 1 := ⟨level - 1, by omega⟩
  -- The entry names a table unless it is a large page.
  have htable : (p.isSupported (n + 1) && pteIsLarge (s.entries t (virtToPtIndex virt (n + 1)))) =
        false →
      setupLevels p s n w (s.entries t (virtToPtIndex virt (n + 1))) = .ok w' →
      Stands p s root w' virt ∧ w'.level < n + 1 ∧ ∀ k, k < w'.level → w'.indices k = w.indices k := by
    intro hlg hsetup
    have hdown := Radix.Path.down ht (virtToPtIndex_lt _ _) (radix_child_table hpr (by omega) hlg)
    obtain ⟨hstands, hle, hkeep⟩ :=
      setupLevels_stands h (fun k hk hkn => hzero k hk (by omega)) hdown hsetup
    exact ⟨hstands, by omega, hkeep⟩
  cases hsup : p.isSupported (n + 1) with
  | false =>
    simp only [hsup, Bool.not_false, ↓reduceIte] at hret
    obtain ⟨hstands, hlt, hkeep⟩ := htable (by rw [hsup]; rfl) hret
    exact ⟨hstands, .inr ⟨hlt, hkeep⟩⟩
  | true =>
    simp only [hsup, Bool.not_true, Bool.false_eq_true, ↓reduceIte] at hret
    cases hlarge : pteIsLarge (s.entries t (virtToPtIndex virt (n + 1))) with
    | false =>
      rw [if_neg (by rw [hlarge]; decide)] at hret
      obtain ⟨hstands, hlt, hkeep⟩ := htable (by rw [hlarge, Bool.and_false]) hret
      exact ⟨hstands, .inr ⟨hlt, hkeep⟩⟩
    | true =>
      rw [if_pos hlarge] at hret
      cases hret
      exact ⟨(h.reset ht.le_top).stands rfl (succ_pos _) ht (radix_child_large hsup hlarge),
        .inl ⟨rfl, fun k hk => if_pos hk⟩⟩

/-! ## Carrying an index into the levels above -/

/--
The indices of `virt` from `level` up to `c` are the last ones of their tables, and `w₁` has moved
on at level `c`, in the table `t`.
-/
structure Lands (p : Paging) (s : PageTables) (root : Nat) (w : PtWalker) (virt level c : Nat)
    (w₁ : PtWalker) (t : Nat) : Prop where
  low : level ≤ c
  full : ∀ k, level ≤ k → k < c → virtToPtIndex virt k + 1 = PGT_PTE_COUNT
  room : virtToPtIndex virt c + 1 < PGT_PTE_COUNT
  follows : Follows p s root w₁ (pageAfter c virt) c
  meets : Meets p s root (pageAfter c virt) c t
  /-- The indices below and the walker's own level are not touched. -/
  kept : ∀ k, k < level → w₁.indices k = w.indices k
  level_eq : w₁.level = w.level

/-- Running over at every level up to `c` is moving on at level `c`. -/
theorem pageAfter_of_full (hpos : 0 < level) (hle : level ≤ c)
    (hfull : ∀ k, level ≤ k → k < c → virtToPtIndex virt k + 1 = PGT_PTE_COUNT) :
    pageAfter level virt = pageAfter c virt := by
  induction c, hle using le_induction with
  | base => rfl
  | succ c hc ih =>
    rw [ih fun k hk hkc => hfull k hk (by omega)]
    exact pageAfter_carry (by omega) (hfull c hc (lt_succ_self c))

theorem Lands.pageAfter_eq (h : Lands p s root w virt level c w₁ t) (hpos : 0 < level) :
    pageAfter level virt = pageAfter c virt := pageAfter_of_full hpos h.low h.full

theorem Lands.le (h : Lands p s root w virt level c w₁ t) : c ≤ p.pgtGetTopLevel :=
  h.meets.le_top

theorem Lands.zero (_ : Lands p s root w virt level c w₁ t) :
    ∀ k, 0 < k → k < c → virtToPtIndex (pageAfter c virt) k = 0 :=
  fun _ hk hlt => virtToPtIndex_pageAfter_below hk hlt

theorem Lands.read (h : Lands p s root w virt level c w₁ t) :
    s.pteRead (w₁.tables c) (virtToPtIndex virt c + 1) =
      .ok (s.entries t (virtToPtIndex (pageAfter c virt) c)) := by
  obtain ⟨u, hu, hmeets⟩ := h.follows.path c le_rfl h.le
  rw [hu, h.meets.unique hmeets, pteRead_some h.room, virtToPtIndex_pageAfter_self h.room]

theorem Follows.lands (h : Follows p s root w virt c) (hpos : 0 < c) (hle : c ≤ p.pgtGetTopLevel)
    (hlow : level ≤ c) (hfull : ∀ k, level ≤ k → k < c → virtToPtIndex virt k + 1 = PGT_PTE_COUNT)
    (hroom : virtToPtIndex virt c + 1 < PGT_PTE_COUNT) :
    ∃ t, Lands p s root w virt level c (w.setIndex c (virtToPtIndex virt c + 1)) t := by
  have hnew := h.setIndex hpos hle hroom
  obtain ⟨t, -, ht⟩ := hnew.path c le_rfl hle
  exact ⟨t, hlow, hfull, hroom, hnew, ht, fun k hk => setIndex_of_ne (by omega), rfl⟩

/-- What the loop returns once the walker has landed at level `c`, by the entry there. -/
inductive Carries (p : Paging) (s : PageTables) (w₁ : PtWalker) (c entry : Nat) : Carried → Prop
  | absent : pteIsPresent entry = false →
      Carries p s w₁ c entry (.absent c (w₁.resetLevelsLowerThan c))
  | enter {w' : PtWalker} : pteIsPresent entry = true → enterEntry p s w₁ c entry = .ok w' →
      Carries p s w₁ c entry (.returned .ok w')

theorem carry_cases {fuel start : Nat} {r : Carried} (hpos : 0 < level)
    (hle : level ≤ p.pgtGetTopLevel) (hstart : start ≤ level)
    (hfull : ∀ k, start ≤ k → k ≤ level → virtToPtIndex virt k + 1 = PGT_PTE_COUNT)
    (h : Follows p s root w virt (level + 1)) (hret : carry p s fuel w level = .ok r) :
    (∃ w', r = .returned .reachedEnd w' ∧ p.pgtGetTopLevel < PGT_LEVEL_COUNT ∧
        ∀ k, start ≤ k → k ≤ p.pgtGetTopLevel → virtToPtIndex virt k + 1 = PGT_PTE_COUNT) ∨
      ∃ c w₁ t, level < c ∧ Lands p s root w virt start c w₁ t ∧
        Carries p s w₁ c (s.entries t (virtToPtIndex (pageAfter c virt) c)) r := by
  induction fuel generalizing w level with
  | zero => cases hret
  | succ fuel ih =>
    rw [carry] at hret
    by_cases htop : w.topLevel < level + 1
    · left
      rw [if_pos htop] at hret
      split at hret
      · cases hret
      · cases hret
        rw [h.top] at htop
        exact ⟨_, rfl, by omega, fun k hk hkt => hfull k hk (by omega)⟩
    · rw [if_neg htop] at hret
      rw [h.top] at htop
      have hidx := h.indices (level + 1) le_rfl (by omega)
      simp only [hidx] at hret
      by_cases hrun : virtToPtIndex virt (level + 1) + 1 = PGT_PTE_COUNT
      · rw [if_pos hrun] at hret
        have hfull' : ∀ k, start ≤ k → k ≤ level + 1 → virtToPtIndex virt k + 1 = PGT_PTE_COUNT := by
          intro k hk hkl
          rcases lt_or_eq_of_le hkl with hlt | heq
          · exact hfull k hk (by omega)
          · exact heq ▸ hrun
        rcases ih (succ_pos _) (by omega) (by omega) hfull' (h.setIndex_lowest (by omega)) hret
          with hend | hland
        · exact .inl hend
        · obtain ⟨c, w₁, t, hlt, hland, hcarries⟩ := hland
          refine .inr ⟨c, w₁, t, by omega, { hland with kept := fun k hk => ?_ }, hcarries⟩
          rw [hland.kept k hk, setIndex_of_ne (by omega)]
      · rw [if_neg hrun] at hret
        have hroom : virtToPtIndex virt (level + 1) + 1 < PGT_PTE_COUNT := by
          have := virtToPtIndex_lt virt (level + 1)
          omega
        obtain ⟨t, hland⟩ := h.lands (succ_pos _) (by omega) (le_succ_of_le hstart)
          (fun k hk hkl => hfull k hk (by omega)) hroom
        refine .inr ⟨level + 1, _, t, lt_succ_self _, hland, ?_⟩
        rw [hland.read, ok_bind] at hret
        cases hpr : pteIsPresent (s.entries t (virtToPtIndex (pageAfter (level + 1) virt) (level + 1))) with
        | false =>
          rw [hpr] at hret
          cases hret
          exact .absent hpr
        | true =>
          simp only [hpr, Bool.not_true, Bool.false_eq_true, ↓reduceIte, bind_eq_ok] at hret
          obtain ⟨w', hw', hret⟩ := hret
          cases hret
          exact .enter hpr hw'

/-! ## What a call can do -/

/-- What `ptwalker_next_with_options` returns once the walker has landed at level `c`. -/
inductive Moves (p : Paging) (s : PageTables) (w₁ : PtWalker) (level c entry : Nat)
    (allocParents allocLevel shouldRef : Bool) : WalkerResult → PtWalker → PageTables → Prop
  /-- Moving on in a table of level 1 reads no entry. -/
  | lowest : level = 1 → c = 1 → Moves p s w₁ level c entry allocParents allocLevel shouldRef .ok w₁ s
  /-- The next entry of the level asked for is absent; the walker's level is not written. -/
  | here : c = level → 1 < level → pteIsPresent entry = false →
      Moves p s w₁ level c entry allocParents allocLevel shouldRef .ok (w₁.resetLevelsLowerThan c) s
  /-- The entry carried to is absent, and nothing is allocated. -/
  | above : level < c → pteIsPresent entry = false → allocParents = false →
      Moves p s w₁ level c entry allocParents allocLevel shouldRef .ok
        { w₁.resetLevelsLowerThan c with level := c } s
  /-- The entry carried to is absent, and the tables below it are allocated. -/
  | alloc {r : WalkerResult} {w' : PtWalker} {s' : PageTables} :
      level < c → pteIsPresent entry = false → allocParents = true →
      allocLevelsDownTo (w₁.resetLevelsLowerThan c) s c level allocLevel shouldRef = .ok (r, w', s') →
      Moves p s w₁ level c entry allocParents allocLevel shouldRef r w' s'
  /-- The entry is present. -/
  | enter {w' : PtWalker} : 1 < c → pteIsPresent entry = true → enterEntry p s w₁ c entry = .ok w' →
      Moves p s w₁ level c entry allocParents allocLevel shouldRef .ok w' s

/-- **What a call of `ptwalker_next_with_options` can do.** -/
theorem nextWithOptions_cases {r : WalkerResult}
    (h : Follows p s root w virt level) (hpos : 0 < level) (hle : level ≤ p.pgtGetTopLevel)
    (hlow : w.level ≤ level)
    (hret : nextWithOptions p w s level allocParents allocLevel shouldRef = .ok (r, w', s')) :
    (r = .reachedEnd ∧ p.pgtGetTopLevel < PGT_LEVEL_COUNT ∧ s' = s ∧
        ∀ k, level ≤ k → k ≤ p.pgtGetTopLevel → virtToPtIndex virt k + 1 = PGT_PTE_COUNT) ∨
      ∃ c w₁ t, Lands p s root w virt level c w₁ t ∧
        Moves p s w₁ level c (s.entries t (virtToPtIndex (pageAfter c virt) c))
          allocParents allocLevel shouldRef r w' s' := by
  have hguard : ¬ (level < w.level || w.topLevel < level) = true := by
    rw [h.top]
    simp only [Bool.or_eq_true, decide_eq_true_eq]
    omega
  have hidx := h.indices level le_rfl hle
  rw [nextWithOptions, if_neg hguard, if_neg (by omega)] at hret
  simp only [hidx] at hret
  by_cases hroom : virtToPtIndex virt level + 1 < PGT_PTE_COUNT
  · obtain ⟨t, hland⟩ := h.lands hpos hle (le_refl level)
      (fun k hk hkl => absurd hk (by omega)) hroom
    refine .inr ⟨level, _, t, hland, ?_⟩
    rw [if_pos hroom] at hret
    by_cases hone : level = 1
    · rw [if_pos hone] at hret
      cases hret
      exact .lowest hone hone
    · rw [if_neg hone, hland.read, ok_bind] at hret
      cases hpr : pteIsPresent (s.entries t (virtToPtIndex (pageAfter level virt) level)) with
      | false =>
        rw [hpr] at hret
        cases hret
        exact .here rfl (by omega) hpr
      | true =>
        simp only [hpr, Bool.not_true, Bool.false_eq_true, ↓reduceIte, bind_eq_ok] at hret
        obtain ⟨w', hw', hret⟩ := hret
        cases hret
        exact .enter (by omega) hpr hw'
  · rw [if_neg hroom, bind_eq_ok] at hret
    obtain ⟨carried, hcarry, hret⟩ := hret
    have hfull : ∀ k, level ≤ k → k ≤ level → virtToPtIndex virt k + 1 = PGT_PTE_COUNT := by
      intro k hk hkl
      obtain rfl : k = level := le_antisymm hkl hk
      have := virtToPtIndex_lt virt k
      omega
    rcases carry_cases hpos hle (le_refl level) hfull (h.setIndex_lowest hle) hcarry with
      ⟨w₂, rfl, htop, hend⟩ | ⟨c, w₁, t, hlt, hland, hcarries⟩
    · cases hret
      exact .inl ⟨rfl, htop, rfl, hend⟩
    · refine .inr ⟨c, w₁, t, { hland with kept := fun k hk => ?_ }, ?_⟩
      · rw [hland.kept k hk, setIndex_of_ne (by omega)]
      · cases hcarries with
        | enter hpr hw' =>
          cases hret
          exact .enter (by omega) hpr hw'
        | absent hpr =>
          cases allocParents with
          | false =>
            cases hret
            exact .above hlt hpr rfl
          | true => exact .alloc hlt hpr rfl hret

/-! ## When a call returns -/

theorem setupLevels_returns (hpos : 0 < level) (hlt : level < PGT_LEVEL_COUNT) :
    ∃ w', setupLevels p s level w entry = .ok w' := by
  induction level generalizing w entry with
  | zero => exact absurd hpos (lt_irrefl _)
  | succ level ih =>
    have hstop : ∃ stop, stopsAt p (level + 1) (s.entries (pteToPhys entry) 0) = .ok stop := by
      unfold stopsAt
      rw [canHaveLarge_of_lt hlt]
      split
      · exact ⟨_, rfl⟩
      · exact ⟨_, rfl⟩
    obtain ⟨stop, hstop⟩ := hstop
    rw [setupLevels, pteRead_some (by decide), ok_bind, hstop, ok_bind]
    split
    · exact ⟨_, rfl⟩
    · split
      · exact ⟨_, rfl⟩
      · exact ih (by omega) (by omega)

theorem enterEntry_returns (hone : 1 < level) (hlt : level < PGT_LEVEL_COUNT) :
    ∃ w', enterEntry p s w level entry = .ok w' := by
  have hsetup : ∃ w', setupLevelsLowerThan p s w level entry = .ok w' :=
    setupLevels_returns (by omega) (by omega)
  rw [enterEntry, canHaveLarge_of_lt hlt, ok_bind]
  split
  · exact hsetup
  · split
    · exact ⟨_, rfl⟩
    · exact hsetup

theorem carry_returns {fuel : Nat} (hlt : p.pgtGetTopLevel < PGT_LEVEL_COUNT)
    (hle : level ≤ p.pgtGetTopLevel) (hpos : 0 < level) (hfuel : p.pgtGetTopLevel < level + fuel)
    (h : Follows p s root w virt (level + 1)) : ∃ r, carry p s fuel w level = .ok r := by
  induction fuel generalizing w level with
  | zero => omega
  | succ fuel ih =>
    rw [carry, h.top]
    by_cases htop : p.pgtGetTopLevel < level + 1
    · rw [if_pos htop, if_neg (by omega)]
      exact ⟨_, rfl⟩
    · have hidx := h.indices (level + 1) le_rfl (by omega)
      rw [if_neg htop]
      simp only [hidx]
      by_cases hrun : virtToPtIndex virt (level + 1) + 1 = PGT_PTE_COUNT
      · rw [if_pos hrun]
        exact ih (by omega) (succ_pos _) (by omega) (h.setIndex_lowest (by omega))
      · have hroom : virtToPtIndex virt (level + 1) + 1 < PGT_PTE_COUNT := by
          have := virtToPtIndex_lt virt (level + 1)
          omega
        obtain ⟨t, hland⟩ := h.lands (succ_pos _) (by omega) le_rfl
          (fun k hk hkl => absurd hk (by omega)) hroom
        rw [if_neg hrun, hland.read, ok_bind]
        split
        · exact ⟨_, rfl⟩
        · obtain ⟨w', hw'⟩ := enterEntry_returns (p := p) (s := s)
            (show 1 < level + 1 by omega) (by omega)
          rw [hw']
          exact ⟨_, rfl⟩

/-- With four levels, a call that allocates nothing returns, and leaves the tables alone. -/
theorem nextWithOptions_returns (hfour : p.has5lvlPaging = false)
    (h : Follows p s root w virt level) (hpos : 0 < level) (hle : level ≤ p.pgtGetTopLevel)
    (hlow : w.level ≤ level) :
    ∃ r w', nextWithOptions p w s level false allocLevel shouldRef = .ok (r, w', s) := by
  have hlt := top_lt hfour
  have hguard : ¬ (level < w.level || w.topLevel < level) = true := by
    rw [h.top]
    simp only [Bool.or_eq_true, decide_eq_true_eq]
    omega
  rw [nextWithOptions, if_neg hguard, if_neg (by omega)]
  simp only [h.indices level le_rfl hle]
  by_cases hroom : virtToPtIndex virt level + 1 < PGT_PTE_COUNT
  · rw [if_pos hroom]
    by_cases hone : level = 1
    · rw [if_pos hone]
      exact ⟨_, _, rfl⟩
    · obtain ⟨t, hland⟩ := h.lands hpos hle (le_refl level)
        (fun k hk hkl => absurd hk (by omega)) hroom
      rw [if_neg hone, hland.read, ok_bind]
      split
      · exact ⟨_, _, rfl⟩
      · obtain ⟨w', hw'⟩ := enterEntry_returns (p := p) (s := s)
          (w := w.setIndex level (virtToPtIndex virt level + 1)) (show 1 < level by omega) (by omega)
        rw [hw']
        exact ⟨_, _, rfl⟩
  · obtain ⟨r, hr⟩ := carry_returns (s := s) hlt hle hpos
      (show p.pgtGetTopLevel < level + PGT_LEVEL_COUNT by omega) (h.setIndex_lowest hle)
    rw [if_neg hroom, hr, ok_bind]
    cases r with
    | returned r w' => exact ⟨_, _, rfl⟩
    | absent c w' => exact ⟨_, _, rfl⟩

/-! ## Moving on is creating a walker at the next address -/

/-- Without allocation the walker stands at the next address, if it does not reach the end. -/
theorem Stands.next {r : WalkerResult} (h : Stands p s root w virt)
    (hret : nextWithOptions p w s w.level false allocLevel shouldRef = .ok (r, w', s')) :
    (r = .reachedEnd ∧ pageAfter w.level virt = pageAfter (p.pgtGetTopLevel + 1) virt) ∨
      (r = .ok ∧ pageAfter w.level virt < pageAfter (p.pgtGetTopLevel + 1) virt ∧
        Stands p s root w' (pageAfter w.level virt)) := by
  rcases nextWithOptions_cases h.toFollows h.pos h.le le_rfl hret with
    ⟨hr, -, -, hfull⟩ | ⟨c, w₁, t, hland, hmoves⟩
  · exact .inl ⟨hr, pageAfter_of_full h.pos (le_succ_of_le h.le)
      fun k hk hkt => hfull k hk (by omega)⟩
  · have hlow := hland.low
    have hcpos : 0 < c := lt_of_lt_of_le h.pos hlow
    have hbefore : pageAfter c virt < pageAfter (p.pgtGetTopLevel + 1) virt := by
      have hdiv := pageAfter_div hland.room hcpos (lt_succ_of_le hland.le)
      have hlt := lt_mul_div_succ (pageAfter c virt) (pageSizeAtLevel_pos (p.pgtGetTopLevel + 1))
      rw [hdiv, mul_comm] at hlt
      exact hlt
    rw [hland.pageAfter_eq h.pos]
    refine .inr ?_
    cases hmoves with
    | lowest hone hc =>
      subst hc
      exact ⟨rfl, hbefore, hland.follows.stands (hland.level_eq.trans hone) hcpos hland.meets
        (radix_child_one _)⟩
    | here hc _ habsent =>
      have hlevel : (w₁.resetLevelsLowerThan c).level = c := hland.level_eq.trans hc.symm
      exact ⟨rfl, hbefore, (hland.follows.reset hland.le (l := w₁.level)).stands hlevel hcpos
        hland.meets (radix_child_absent habsent)⟩
    | above _ habsent _ =>
      exact ⟨rfl, hbefore, (hland.follows.reset hland.le).stands rfl hcpos hland.meets
        (radix_child_absent habsent)⟩
    | alloc _ _ hparents _ => cases hparents
    | enter hone hpr hw' =>
      exact ⟨rfl, hbefore, (enterEntry_stands hland.follows hone hland.zero hland.meets hpr hw').1⟩

theorem hasAlign_pageAfter : hasAlign (pageAfter level virt) PAGE_SIZE = true := by
  rw [PAGE_SIZE, hasAlign_two_pow]
  exact Dvd.dvd.mul_left (pow_dvd_pow 2 le_self_add) _

/-- Level 5 is never asked about by a call that returns. -/
theorem enterEntry_lt (h : enterEntry p s w level entry = .ok w') :
    level < PGT_LEVEL_COUNT := by
  rw [enterEntry, bind_eq_ok] at h
  obtain ⟨can, hcan, -⟩ := h
  exact (canHaveLarge_ok hcan).1

/--
With five levels, a walker at the top level moves on if the index has room and the next entry of
the root table is absent, and then its level stays.
-/
theorem nextWithOptions_top (hfive : p.has5lvlPaging = true)
    (h : Stands p s root w virt) (htop : w.level = p.pgtGetTopLevel) :
    (∃ r w', nextWithOptions p w s w.level allocParents allocLevel shouldRef = .ok (r, w', s')) →
      virtToPtIndex virt p.pgtGetTopLevel + 1 < PGT_PTE_COUNT ∧
        pteIsPresent (s.entries root (virtToPtIndex virt p.pgtGetTopLevel + 1)) = false := by
  rintro ⟨r, w', hret⟩
  have hcount := top_five hfive
  rcases nextWithOptions_cases h.toFollows h.pos h.le le_rfl hret with
    ⟨-, hlt, -⟩ | ⟨c, w₁, t, hland, hmoves⟩
  · omega
  · have hlow := hland.low
    have hle := hland.le
    obtain rfl : c = p.pgtGetTopLevel := by omega
    refine ⟨hland.room, ?_⟩
    have hroot : Meets p s root (pageAfter p.pgtGetTopLevel virt) p.pgtGetTopLevel root := .root
    rw [hland.meets.unique hroot, virtToPtIndex_pageAfter_self hland.room] at hmoves
    unfold PGT_LEVEL_COUNT at hcount
    cases hmoves with
    | lowest hone _ => omega
    | here _ _ habsent => exact habsent
    | above hlt _ _ => omega
    | alloc hlt _ _ _ => omega
    | enter _ _ hw' =>
      have := enterEntry_lt hw'
      unfold PGT_LEVEL_COUNT at this
      omega

/-- The other direction: such a walker does move on. -/
theorem nextWithOptions_top_returns (h : Stands p s root w virt) (htop : w.level = p.pgtGetTopLevel)
    (hroom : virtToPtIndex virt p.pgtGetTopLevel + 1 < PGT_PTE_COUNT)
    (habsent : pteIsPresent (s.entries root (virtToPtIndex virt p.pgtGetTopLevel + 1)) = false) :
    ∃ w', nextWithOptions p w s w.level allocParents allocLevel shouldRef = .ok (.ok, w', s) := by
  have hone : w.level ≠ 1 := by
    have := @three_lt_top p
    omega
  have hguard : ¬ (w.level < w.level || w.topLevel < w.level) = true := by
    rw [h.top, htop]
    simp
  obtain ⟨t, ht, hmeets⟩ := h.path w.level le_rfl h.le
  rw [htop] at hmeets
  obtain rfl := hmeets.unique (Radix.Path.root : Meets p s root virt p.pgtGetTopLevel root)
  have hpos := h.pos
  rw [nextWithOptions, if_neg hguard, if_neg (by omega)]
  simp only [h.indices w.level le_rfl h.le]
  rw [htop] at ht hone ⊢
  rw [if_pos hroom, if_neg hone]
  simp only [PtWalker.setIndex, ht, pteRead_some hroom, ok_bind, habsent, Bool.not_false,
    ↓reduceIte, pure_eq_ok]
  exact ⟨_, rfl⟩

/--
**Moving on is creating a walker at the next address.** Let `w` be created at `virt`. Moving it on
at its own level without allocation gives, from the resulting level up, what a walker created at the
first address after `w`'s page holds, and the end is reported exactly when that address is past the
last one of the root table. With five levels this is so only for an address whose entry of the root
table and the entry after it are there and absent: otherwise the kernel reads or writes past the end
of an array.
-/
theorem next_is_create_iff (p : Paging) (s : PageTables) (root virt : Nat)
    (allocLevel shouldRef : Bool) (hroot : hasAlign root PAGE_SIZE = true)
    (hvirt : hasAlign virt PAGE_SIZE = true) :
    (∃ w r w', createForPagemap p s root virt = .ok w ∧
        nextWithOptions p w s w.level false allocLevel shouldRef = .ok (r, w', s) ∧
        (r = .reachedEnd ↔
          pageAfter (p.pgtGetTopLevel + 1) virt ≤ pageAfter w.level virt) ∧
        (r ≠ .reachedEnd → r = .ok ∧
          ∃ f, createForPagemap p s root (pageAfter w.level virt) = .ok f ∧ w'.level = f.level ∧
            ∀ k, w'.level ≤ k → w'.tables k = f.tables k ∧ w'.indices k = f.indices k)) ↔
      (p.has5lvlPaging = false ∨
        (pteIsPresent (s.entries root (virtToPtIndex virt p.pgtGetTopLevel)) = false ∧
          virtToPtIndex virt p.pgtGetTopLevel + 1 < PGT_PTE_COUNT ∧
          pteIsPresent (s.entries root (virtToPtIndex virt p.pgtGetTopLevel + 1)) = false)) := by
  constructor
  · rintro ⟨w, r, w', hw, hret, -⟩
    cases hfive : p.has5lvlPaging with
    | false => exact .inl rfl
    | true =>
      have habsent : pteIsPresent (s.entries root (virtToPtIndex virt p.pgtGetTopLevel)) = false := by
        rcases (createForPagemap_returns_iff hroot hvirt).mp ⟨w, hw⟩ with h | h
        · rw [hfive] at h
          cases h
        · exact h
      have hstands := (createForPagemap_stands hw).1
      exact .inr ⟨habsent, nextWithOptions_top hfive hstands (hstands.level_eq_top habsent)
        ⟨r, w', hret⟩⟩
  · intro hcond
    have hcreate : p.has5lvlPaging = false ∨
        pteIsPresent (s.entries root (virtToPtIndex virt p.pgtGetTopLevel)) = false :=
      hcond.imp id And.left
    obtain ⟨w, hw⟩ := (createForPagemap_returns_iff hroot hvirt).mpr hcreate
    have hstands := (createForPagemap_stands hw).1
    have hnext : ∃ r w', nextWithOptions p w s w.level false allocLevel shouldRef = .ok (r, w', s) := by
      rcases hcond with hfour | ⟨habsent, hroom, hnext⟩
      · exact nextWithOptions_returns hfour hstands.toFollows hstands.pos hstands.le le_rfl
      · obtain ⟨w', hw'⟩ :=
          nextWithOptions_top_returns hstands (hstands.level_eq_top habsent) hroom hnext
        exact ⟨_, w', hw'⟩
    obtain ⟨r, w', hret⟩ := hnext
    refine ⟨w, r, w', hw, hret, ?_⟩
    rcases hstands.next hret with ⟨rfl, hend⟩ | ⟨rfl, hbefore, hnew⟩
    · exact ⟨iff_of_true rfl (le_of_eq hend.symm), fun hne => absurd rfl hne⟩
    · refine ⟨iff_of_false (by decide) (not_le.mpr hbefore), fun _ => ⟨rfl, ?_⟩⟩
      -- The walker at the next address can be created, too.
      have hfresh : p.has5lvlPaging = false ∨ pteIsPresent (s.entries root
          (virtToPtIndex (pageAfter w.level virt) p.pgtGetTopLevel)) = false := by
        refine hcond.imp id fun h => ?_
        rw [hstands.level_eq_top h.1, virtToPtIndex_pageAfter_self h.2.1]
        exact h.2.2
      obtain ⟨f, hf⟩ := (createForPagemap_returns_iff hroot hasAlign_pageAfter).mpr hfresh
      exact ⟨f, hf, hnew.agree (createForPagemap_stands hf).1⟩

theorem next_is_create_iff_onePage :
    ∃ w w' f, createForPagemap ⟨false, true⟩ onePage 0x1000 0x400000 = .ok w ∧
      nextWithOptions ⟨false, true⟩ w onePage w.level false true true = .ok (.ok, w', onePage) ∧
      createForPagemap ⟨false, true⟩ onePage 0x1000 (pageAfter w.level 0x400000) = .ok f ∧
      w'.level = f.level := by
  obtain ⟨w, r, w', hw, hret, hend, hok⟩ := (next_is_create_iff ⟨false, true⟩ onePage 0x1000 0x400000
    true true (by decide) (by decide)).mpr (.inl rfl)
  have hlevel : (createForPagemap ⟨false, true⟩ onePage 0x1000 0x400000).map PtWalker.level = .ok 1 := by
    decide
  rw [hw] at hlevel
  have hone : w.level = 1 := Except.ok.inj hlevel
  have hne : r ≠ .reachedEnd := by
    rw [Ne, hend, hone]
    decide
  obtain ⟨rfl, f, hf, hagree, -⟩ := hok hne
  exact ⟨w, w', f, hw, hret, hf, hagree⟩

/--
With five levels, moving on from the last entry of the root table writes an index past the end of
`indices`.
-/
theorem next_writes_past_indices :
    (do
      let s := { onePage with entries := fun _ _ => 0 }
      let w ← createForPagemap ⟨true, true⟩ s 0x1000 (511 * 2 ^ 48)
      let (r, _, _) ← nextWithOptions ⟨true, true⟩ w s w.level false true true
      pure r) = (.error .outOfBounds : Result WalkerResult) := by
  decide

end OsKernel.Mm
