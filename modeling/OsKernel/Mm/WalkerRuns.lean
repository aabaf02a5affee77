import OsKernel.Mm.WalkerFill
import OsKernel.Mm.WalkerNext

/-!
# Runs of a walker

A client creates a walker, moves it on, and fills in tables, in any order. The address
it stands for is part of the state here: a created walker is at its address, and moving
on takes it to the first address after the page of the level asked for.

The invariant is `Placed`: the walker follows its address from its level up, and below
that it has the address's indices, so that tables that are filled in later hang in the
right places. Creating and filling in keep it. Moving on does not always: going down
again below the entry it has landed at, the walker stops where a first entry is absent,
and leaves the indices below as they were. `Clean` says when that does no harm.
-/

namespace OsKernel.Mm

open PtWalker

/-- A walker in use: the tables, the walker, and the address it has advanced to. -/
structure WalkState where
  s : PageTables
  w : PtWalker
  addr : Nat

/-- The calls of a client. -/
inductive WalkCall where
  | create (virt : Nat)
  | next (level : Nat) (allocParents allocLevel shouldRef : Bool)
  | fillInTo (level : Nat) (shouldRef : Bool)

/-- A call, `none` unless it succeeds. -/
def WalkCall.exec (p : Paging) (root : Nat) (st : WalkState) : WalkCall → Option WalkState
  | .create virt =>
    match createForPagemap p st.s root virt with
    | .ok w => some ⟨st.s, w, virt⟩
    | .error _ => none
  | .next level allocParents allocLevel shouldRef =>
    match nextWithOptions p st.w st.s level allocParents allocLevel shouldRef with
    | .ok (.ok, w, s) => some ⟨s, w, pageAfter level st.addr⟩
    | _ => none
  | .fillInTo level shouldRef =>
    match PtWalker.fillInTo st.w st.s level shouldRef with
    | .ok (.ok, w, s) => some ⟨s, w, st.addr⟩
    | _ => none

/-- A sequence of calls. -/
def WalkCall.run (p : Paging) (root : Nat) : WalkState → List WalkCall → Option WalkState
  | st, [] => some st
  | st, call :: calls =>
    match call.exec p root st with
    | some st' => run p root st' calls
    | none => none

/-- A sequence of calls on a walker created at `virt`. -/
def walkFrom (p : Paging) (s : PageTables) (root virt : Nat) (calls : List WalkCall) :
    Option WalkState :=
  match createForPagemap p s root virt with
  | .ok w => WalkCall.run p root ⟨s, w, virt⟩ calls
  | .error _ => none

/-! ## Moves that do no harm -/

/-- From `level` up to `c` the indices of `virt` are the last ones of their tables, at `c` not. -/
def CarriesTo (virt level c : Nat) : Prop :=
  level ≤ c ∧ (∀ k, k < c → level ≤ k → virtToPtIndex virt k + 1 = PGT_PTE_COUNT) ∧
    virtToPtIndex virt c + 1 < PGT_PTE_COUNT

instance (virt level c : Nat) : Decidable (CarriesTo virt level c) := by
  unfold CarriesTo
  infer_instance

/-- A walker that was at `addr` may stop at the level `stop`, having moved on at `level`. -/
def MayStop (addr level stop : Nat) : Prop :=
  stop ≤ level ∧ ∀ k, k < stop → 0 < k → virtToPtIndex addr k = 0

instance (addr level stop : Nat) : Decidable (MayStop addr level stop) := by
  unfold MayStop
  infer_instance

/--
Moving on at `level` does no harm. If the walk of the new address goes on below the entry carried
to, it must come down to `level`, and the old address must have had zero indices below where it
ends. If the next entry of `level` itself is absent, the walker must have been at that level.
-/
def CleanNext (p : Paging) (root : Nat) (st : WalkState) (level : Nat) : Prop :=
  (∀ c, c < p.pgtGetTopLevel + 1 → CarriesTo st.addr level c →
      (walkEnd p st.s root (pageAfter level st.addr)).1 < c →
      MayStop st.addr level (walkEnd p st.s root (pageAfter level st.addr)).1) ∧
    (CarriesTo st.addr level level → 1 < level →
      (walkEnd p st.s root (pageAfter level st.addr)).1 = level →
      pteIsPresent (walkEnd p st.s root (pageAfter level st.addr)).2 = false → st.w.level = level)

instance (p : Paging) (root : Nat) (st : WalkState) (level : Nat) :
    Decidable (CleanNext p root st level) := by
  unfold CleanNext
  infer_instance

/-- Only moving on can do harm. -/
def WalkCall.Clean (p : Paging) (root : Nat) (st : WalkState) : WalkCall → Prop
  | .next level _ _ _ => CleanNext p root st level
  | _ => True

instance (p : Paging) (root : Nat) (st : WalkState) : (call : WalkCall) →
    Decidable (call.Clean p root st)
  | .create _ => .isTrue trivial
  | .next level _ _ _ => inferInstanceAs (Decidable (CleanNext p root st level))
  | .fillInTo _ _ => .isTrue trivial

/-- Every call of a run is clean in the state it is made in. -/
def CleanRun (p : Paging) (root : Nat) : WalkState → List WalkCall → Prop
  | _, [] => True
  | st, call :: calls =>
    call.Clean p root st ∧ ∀ st' ∈ call.exec p root st, CleanRun p root st' calls

instance instDecidableCleanRun (p : Paging) (root : Nat) : (st : WalkState) →
    (calls : List WalkCall) → Decidable (CleanRun p root st calls)
  | _, [] => .isTrue trivial
  | st, call :: calls =>
    have (st' : WalkState) : Decidable (CleanRun p root st' calls) :=
      instDecidableCleanRun p root st' calls
    inferInstanceAs (Decidable (call.Clean p root st ∧
      ∀ st' ∈ call.exec p root st, CleanRun p root st' calls))

variable {p : Paging} {s s' : PageTables} {root virt level : Nat} {w w' w₁ : PtWalker}

/-! ## The step -/

theorem Placed.index (h : Placed p s root w virt) {k : Nat} (hk : 0 < k)
    (hle : k ≤ p.pgtGetTopLevel) : w.indices k = virtToPtIndex virt k := by
  rcases lt_or_ge k w.level with hlt | hge
  · exact h.lower k hk hlt
  · exact h.indices k hge hle

theorem Follows.raise {k : Nat} (h : Follows p s root w virt level) (hk : level ≤ k) :
    Follows p s root w virt k where
  top := h.top
  path j hj := h.path j (le_trans hk hj)
  indices j hj := h.indices j (le_trans hk hj)
  above := h.above

theorem Lands.carriesTo {c t : Nat} (h : Lands p s root w virt level c w₁ t) :
    CarriesTo virt level c := ⟨h.low, fun k hk hlow => h.full k hlow hk, h.room⟩

/-- A walker reset below the level it has landed at is placed there, if the entry is absent. -/
theorem Lands.placed_reset {c t l : Nat} (h : Lands p s root w virt level c w₁ t)
    (hwf : WellFormed p s root) (hpos : 0 < level) (hl : l = c)
    (habsent : pteIsPresent (s.entries t (virtToPtIndex (pageAfter c virt) c)) = false) :
    Placed p s root { w₁.resetLevelsLowerThan c with level := l } (pageAfter c virt) := by
  subst hl
  have hstands := (h.follows.reset h.le).stands rfl (lt_of_lt_of_le hpos h.low) h.meets
    (radix_child_absent habsent)
  refine ⟨hstands, hwf, fun k hk hlt => ?_⟩
  rw [h.zero k hk hlt]
  exact if_pos hlt

/-- A call of `ptwalker_next_with_options` that is not refused is made at a level the walker has. -/
theorem nextWithOptions_level {allocParents allocLevel shouldRef : Bool} {r : WalkerResult}
    (hret : nextWithOptions p w s level allocParents allocLevel shouldRef = .ok (r, w', s'))
    (hr : r ≠ .badIncr) : w.level ≤ level ∧ level ≤ w.topLevel := by
  rw [nextWithOptions] at hret
  split at hret
  case isTrue =>
    cases hret
    exact absurd rfl hr
  case isFalse hguard =>
    simp only [Bool.or_eq_true, decide_eq_true_eq] at hguard
    omega

/-- **A clean move** places the walker at the next address. -/
theorem Placed.next {addr : Nat} {allocParents allocLevel shouldRef : Bool}
    (h : Placed p s root w addr) (hclean : CleanNext p root ⟨s, w, addr⟩ level)
    (hret : nextWithOptions p w s level allocParents allocLevel shouldRef = .ok (.ok, w', s')) :
    Placed p s' root w' (pageAfter level addr) := by
  obtain ⟨hlow, hle⟩ := nextWithOptions_level hret (by decide)
  rw [h.top] at hle
  have hpos : 0 < level := lt_of_lt_of_le h.pos hlow
  rcases nextWithOptions_cases (h.toFollows.raise hlow) hpos hle hlow hret with
    ⟨hend, -⟩ | ⟨c, w₁, t, hland, hmoves⟩
  · cases hend
  have hcpos : 0 < c := lt_of_lt_of_le hpos hland.low
  have hwalk : ∀ {w₂ : PtWalker}, Stands p s root w₂ (pageAfter c addr) →
      (walkEnd p s root (pageAfter level addr)).1 = w₂.level := by
    intro w₂ hw₂
    obtain ⟨u, -, hu⟩ := hw₂.path w₂.level le_rfl hw₂.le
    rw [hland.pageAfter_eq hpos, hu.walkEnd_eq hw₂.pos (hw₂.ends u hu)]
  obtain ⟨hdown, hhere⟩ := hclean
  rw [hland.pageAfter_eq hpos]
  cases hmoves with
  | lowest hone hc =>
    have hlevel : w'.level = c := by
      rw [hland.level_eq]
      have := h.pos
      omega
    have hstands : Stands p s root w' (pageAfter c addr) :=
      hland.follows.stands hlevel hcpos hland.meets (by rw [hc]; exact radix_child_one _)
    exact ⟨hstands, h.wellFormed, fun k hk hlt => by omega⟩
  | here hc hone habsent =>
    -- The walker's level is not written, so it must have been `level`.
    have hplaced := hland.placed_reset h.wellFormed hpos rfl habsent
    have hcarries : CarriesTo addr level level := hc ▸ hland.carriesTo
    have hentry : (walkEnd p s root (pageAfter level addr)).2 =
        s.entries t (virtToPtIndex (pageAfter c addr) c) := by
      rw [hland.pageAfter_eq hpos, hland.meets.walkEnd_eq hcpos (hplaced.ends t hland.meets)]
    have hlevel : w.level = level :=
      hhere hcarries hone ((hwalk hplaced.toStands).trans hc) (by rw [hentry]; exact habsent)
    have hw₁ : w₁.level = c := hland.level_eq.trans (hlevel.trans hc.symm)
    exact hland.placed_reset h.wellFormed hpos hw₁ habsent
  | above _ habsent _ => exact hland.placed_reset h.wellFormed hpos rfl habsent
  | alloc hlt habsent _ halloc =>
    have hplaced := hland.placed_reset h.wellFormed hpos rfl habsent
    obtain ⟨n, rfl⟩ : ∃ n, c = n + 1 := ⟨c - 1, by omega⟩
    rw [allocLevelsDownTo] at halloc
    split at halloc
    case isTrue =>
      cases halloc
      exact hplaced
    case isFalse hguard =>
      have hready : Ready p s root (w₁.resetLevelsLowerThan (n + 1)) (pageAfter (n + 1) addr)
          (n + 1) t :=
        ⟨hland.follows.reset hland.le (l := w₁.level), hland.meets, radix_child_absent habsent,
          hplaced.lower⟩
      have hlast : if allocLevel then level ≤ n else level < n := by
        cases allocLevel with
        | true => simp; omega
        | false =>
          simp at hguard ⊢
          omega
      exact (allocLoop_filled h.wellFormed hready hlast halloc).placed
  | enter hone hpr henter =>
    obtain ⟨hstands, hlower⟩ := enterEntry_stands hland.follows hone hland.zero hland.meets hpr henter
    refine ⟨hstands, h.wellFormed, fun k hk hlt => ?_⟩
    rcases hlower with ⟨hc, hzero⟩ | ⟨hc, hkept⟩
    · rw [hzero k (hc ▸ hlt), hland.zero k hk (hc ▸ hlt)]
    · -- The walker has gone down; the indices below are those of the old address.
      rw [← hwalk hstands] at hc hlt
      have hcle := hland.le
      obtain ⟨hstop, hold⟩ := hdown c (by omega) hland.carriesTo hc
      have hklevel : k < level := lt_of_lt_of_le hlt hstop
      rw [hkept k ((hwalk hstands) ▸ hlt), hland.kept k hklevel, h.index hk (by omega), hold k hlt hk,
        hland.zero k hk (by omega)]

/-- Every clean call keeps the walker placed at its address. -/
theorem Placed.exec {st st' : WalkState} {call : WalkCall} (h : Placed p st.s root st.w st.addr)
    (hclean : call.Clean p root st) (hexec : call.exec p root st = some st') :
    Placed p st'.s root st'.w st'.addr := by
  cases call with
  | create virt =>
    rw [WalkCall.exec] at hexec
    split at hexec
    · cases hexec
      exact createForPagemap_placed h.wellFormed ‹_›
    · cases hexec
  | next level allocParents allocLevel shouldRef =>
    rw [WalkCall.exec] at hexec
    split at hexec
    · cases hexec
      exact h.next hclean ‹_›
    · cases hexec
  | fillInTo level shouldRef =>
    rw [WalkCall.exec] at hexec
    split at hexec
    · cases hexec
      exact (h.fillInTo ‹_›).placed
    · cases hexec

/-! ## Whole runs -/

/-- A clean run keeps the walker placed; if it ends with filling in, the tables are there. -/
theorem Placed.run {calls : List WalkCall} {st st' : WalkState}
    (h : Placed p st.s root st.w st.addr) (hclean : CleanRun p root st calls)
    (hrun : WalkCall.run p root st calls = some st') :
    Placed p st'.s root st'.w st'.addr ∧
      ∀ level shouldRef, calls.getLast? = some (.fillInTo level shouldRef) → st'.w.level ≤ level := by
  induction calls generalizing st with
  | nil =>
    cases hrun
    exact ⟨h, fun _ _ hlast => nomatch hlast⟩
  | cons call calls ih =>
    rw [WalkCall.run] at hrun
    split at hrun
    case h_2 => cases hrun
    case h_1 st₁ hexec =>
      have hplaced := h.exec hclean.1 hexec
      obtain ⟨hend, hlast⟩ := ih hplaced (hclean.2 st₁ hexec) hrun
      refine ⟨hend, fun level shouldRef heq => ?_⟩
      cases calls with
      | nil =>
        cases hrun
        cases heq
        rw [WalkCall.exec] at hexec
        split at hexec
        · cases hexec
          rw [(h.fillInTo ‹_›).level_eq]
          exact min_le_right _ _
        · cases hexec
      | cons call' calls => exact hlast level shouldRef (by simpa using heq)

/--
**A walker whose moves are clean is safe.** In every run of calls that succeed, every index it holds
is an index of a table, and after filling in to a level it points to the entry of the address it has
advanced to: an address that meets this entry has the same indices from there up, so it lies in the
same page.
-/
theorem walker_clean_run_safe (p : Paging) (s : PageTables) (root virt : Nat)
    (calls : List WalkCall) (st : WalkState) (hwf : WellFormed p s root)
    (hclean : ∀ w, createForPagemap p s root virt = .ok w → CleanRun p root ⟨s, w, virt⟩ calls)
    (hrun : walkFrom p s root virt calls = some st) :
    (∀ k, 0 < k → k ≤ p.pgtGetTopLevel → st.w.indices k < PGT_PTE_COUNT) ∧
      ∀ level shouldRef, calls.getLast? = some (.fillInTo level shouldRef) → 0 < level →
        level ≤ p.pgtGetTopLevel →
        ∃ t, st.w.tables level = some t ∧ Meets p st.s root st.addr level t ∧
          st.w.indices level = virtToPtIndex st.addr level ∧
          ∀ v, Meets p st.s root v level t → virtToPtIndex v level = st.w.indices level →
            ∀ k, level ≤ k → k ≤ p.pgtGetTopLevel → virtToPtIndex v k = virtToPtIndex st.addr k := by
  rw [walkFrom] at hrun
  split at hrun
  case h_2 => cases hrun
  case h_1 w hcreate =>
    have hplaced : Placed p s root w virt := createForPagemap_placed hwf hcreate
    obtain ⟨hend, hlast⟩ := Placed.run hplaced (hclean w hcreate) hrun
    refine ⟨fun k hk hle => ?_, fun level shouldRef heq hpos hle => ?_⟩
    · rw [hend.index hk hle]
      exact virtToPtIndex_lt _ _
    · obtain ⟨t, ht, hmeets⟩ := hend.path level (hlast level shouldRef heq) hle
      refine ⟨t, ht, hmeets, hend.index hpos hle, fun v hv hidx k hk hktop => ?_⟩
      rcases lt_or_eq_of_le hk with hlt | heq
      · exact hend.wellFormed.tree.indices hv hmeets k hlt hktop
      · rw [← heq, hidx, hend.index hpos hle]

/-- Fill in, move on in the same table, and fill in again. -/
def fillTwoPages : List WalkCall := [.fillInTo 1 true, .next 1 true true true, .fillInTo 1 true]

theorem walker_clean_run_safe_fillTwoPages :
    ∃ st, walkFrom ⟨false, true⟩ emptyRoot 0x1000 0x400000 fillTwoPages = some st ∧
      st.addr = 0x401000 ∧ ∀ k, 0 < k → k ≤ 4 → st.w.indices k < PGT_PTE_COUNT := by
  have hclean : (createForPagemap ⟨false, true⟩ emptyRoot 0x1000 0x400000).All fun w =>
      CleanRun ⟨false, true⟩ 0x1000 ⟨emptyRoot, w, 0x400000⟩ fillTwoPages := by decide +kernel
  have haddr : (walkFrom ⟨false, true⟩ emptyRoot 0x1000 0x400000 fillTwoPages).map WalkState.addr =
      some 0x401000 := by decide +kernel
  obtain ⟨st, hst, haddr⟩ := Option.map_eq_some_iff.mp haddr
  refine ⟨st, hst, haddr, (walker_clean_run_safe _ _ _ _ _ st (emptyRoot_wellFormed _) ?_ hst).1⟩
  intro w hw
  rw [hw] at hclean
  exact hclean

/--
From an empty root table, make the second 1 GiB's table of level 2 and all tables of the last page
of the first 1 GiB, and move on from that page. The carry lands at the present entry of level 3 and
the walker stops at level 2, with the overflowed index of level 1 still in place. After filling in,
it points past the end of the new table.
-/
theorem carry_leaves_index_512 :
    (walkFrom ⟨false, true⟩ { emptyRoot with pool := [0x2000, 0x3000, 0x4000, 0x5000, 0x6000] } 0x1000
      0x40000000 [.fillInTo 2 true, .create 0x3ffff000, .fillInTo 1 true, .next 1 true true true,
        .fillInTo 1 true]).map (fun st => (st.addr, virtToPtIndex st.addr 1, st.w.level,
          st.w.indices 1)) = some (0x40000000, 0, 1, 512) := by
  decide +kernel

end OsKernel.Mm
