import OsKernel.Mm.Pgmap
import OsKernel.Mm.WalkerRuns

/-!
# Writing entries into the tables

`pgmap_at` and `pgunmap_at` replace entries, by pages or by nothing. In a tree of tables the
addresses that see the new entry are those of its page, and if the old entry named a table,
this table is cut off.
-/

namespace OsKernel.Mm

open PtWalker PageTables

variable {p : Paging} {s s' : PageTables} {root level e k t u v value : Nat} {w : PtWalker}
  {leaf : Nat × Nat}

/-! ## Replacing an entry -/

section put

variable {t value : Nat}

theorem setEntry_at (t i value : Nat) : (s.setEntry t i value).entries t i = value := by
  simp [setEntry]

theorem setEntry_other {i j : Nat} (h : ¬ (u = t ∧ j = i)) :
    (s.setEntry t i value).entries u j = s.entries u j := by
  by_cases hu : u = t
  · subst hu
    have hj : j ≠ i := fun hj => h ⟨rfl, hj⟩
    simp [setEntry, hj]
  · simp [setEntry, hu]

variable (hwf : WellFormed p s root) (ht : Meets p s root e level t)
  (hnew : (p.radix root).child level value = none)
include hwf ht hnew

omit hwf ht in
theorem setEntry_puts : (p.radix root).Puts s.entries
    (s.setEntry t (virtToPtIndex e level) value).entries level t (virtToPtIndex e level) where
  same _ _ hne := setEntry_other hne
  after := by
    rw [setEntry_at]
    exact hnew

theorem Meets.of_put (h : Meets p (s.setEntry t (virtToPtIndex e level) value) root v k u) :
    Meets p s root v k u :=
  Radix.Path.of_put (setEntry_puts hnew) (fun hp => hwf.tree.level hp ht) h

/-- Down to the level of the entry all walks are kept. -/
theorem Meets.put (h : Meets p s root v k u) (hle : level ≤ k) :
    Meets p (s.setEntry t (virtToPtIndex e level) value) root v k u :=
  Radix.Path.put (setEntry_puts hnew) (fun hp => hwf.tree.level hp ht) h (.inl hle)

theorem WellFormed.put : WellFormed p (s.setEntry t (virtToPtIndex e level) value) root where
  tree := hwf.tree.put (setEntry_puts hnew) fun hp => hwf.tree.level hp ht
  unused f hf ix k hp := hwf.unused f hf ix k
    (hp.of_put (setEntry_puts hnew) fun hp => hwf.tree.level hp ht)
  nodup := hwf.nodup
  page := hwf.page

variable (halign : pageSizeAtLevel level ∣ e) (hpos : 0 < level)
include halign hpos

theorem leafAt_put_in (hv : e ≤ v ∧ v < e + pageSizeAtLevel level) :
    (s.setEntry t (virtToPtIndex e level) value).leafAt p root v =
      if pteIsPresent value then some (level, value) else none := by
  have hindices : ∀ k, level ≤ k → virtToPtIndex v k = virtToPtIndex e k :=
    fun k hk => virtToPtIndex_of_div hpos ((div_eq_iff_of_dvd halign).mpr hv) hk
  have hmeets : Meets p (s.setEntry t (virtToPtIndex e level) value) root v level t :=
    Meets.put hwf ht hnew (ht.congr fun j hj _ => hindices j (le_of_lt hj)) le_rfl
  have hentry : (s.setEntry t (virtToPtIndex e level) value).entries t (virtToPtIndex v level) =
      value := by
    rw [hindices level le_rfl, setEntry_at]
  rw [leafAt, hmeets.walkEnd_eq hpos (by rw [hentry]; exact hnew), hentry]

theorem leafAt_put_out (hv : Canonical p v) (he : Canonical p e)
    (hout : v < e ∨ e + pageSizeAtLevel level ≤ v) :
    (s.setEntry t (virtToPtIndex e level) value).leafAt p root v = s.leafAt p root v := by
  rcases Radix.lookup_put (setEntry_puts hnew) (fun hp => hwf.tree.level hp ht) radix_child_one
    (virtToPtIndex_lt v) top_pos hpos with ⟨hpath, hidx, -⟩ | ⟨-, hsame⟩
  · -- An address that meets the entry has the indices of the page.
    have htop : level ≤ p.pgtGetTopLevel := ht.le_top
    have hindices : ∀ k, level ≤ k → k ≤ p.pgtGetTopLevel → virtToPtIndex v k = virtToPtIndex e k := by
      intro k hk hle
      rcases lt_or_eq_of_le hk with hlt | heq
      · exact hwf.tree.indices hpath ht k hlt hle
      · exact heq ▸ hidx
    have hpage := div_eq_of_indices hpos (by omega) (hv.region he (hindices _ htop le_rfl)) hindices
    have hin := (div_eq_iff_of_dvd halign).mp hpage
    omega
  · rw [radix_top, radix_root] at hsame
    rw [leafAt, leafAt, walkEnd, hsame]
    rfl

end put

/-! ## Where a walk stops -/

theorem Stands.level_eq_stop (h : Stands p s root w v) :
    w.level = (walkEnd p s root v).1 := by
  obtain ⟨t, -, ht⟩ := h.path w.level le_rfl h.le
  rw [ht.walkEnd_eq h.pos (h.ends t ht)]

theorem walkEnd_of_leafAt (h : s.leafAt p root e = some leaf) :
    walkEnd p s root e = leaf ∧ pteIsPresent leaf.2 = true := by
  rw [PageTables.leafAt] at h
  split at h
  case isTrue hpr =>
    obtain rfl := Option.some.inj h
    exact ⟨rfl, hpr⟩
  case isFalse => cases h

/-! ## What the steps return -/

section steps

open MapState PgmapOptions Nat

variable {opts : PgmapOptions} {m m' : MapState} {fuel : Nat}

theorem fillInTo_eq_ok (h : m.fillInTo opts level = .ok m') :
    ∃ w s, PtWalker.fillInTo m.w m.s level (!opts.isInEarly) = .ok (.ok, w, s) ∧
      m' = { m with w := w, s := s } := by
  rw [MapState.fillInTo, bind_eq_ok] at h
  obtain ⟨⟨r, w, s⟩, hr, h⟩ := h
  cases r with
  | ok =>
    cases h
    exact ⟨w, s, hr, rfl⟩
  | reachedEnd => cases h
  | allocFail => cases h
  | badIncr => cases h

theorem next_eq_ok (h : m.next p opts level = .ok m') :
    ∃ w s, nextWithOptions p m.w m.s level false false (!opts.isInEarly) = .ok (.ok, w, s) ∧
      m' = { m with w := w, s := s } := by
  rw [MapState.next, bind_eq_ok] at h
  obtain ⟨⟨r, w, s⟩, hr, h⟩ := h
  cases r with
  | ok =>
    cases h
    exact ⟨w, s, hr, rfl⟩
  | reachedEnd => cases h
  | allocFail => cases h
  | badIncr => cases h

theorem pteIsPresent_leafPte (f : Nat) : pteIsPresent (opts.leafPte f) = true := by
  rw [pteIsPresent, leafPte, testBit_or, testBit_or, show PTE_LEAF_FLAGS.testBit 0 = true by decide]
  simp

theorem pteIsPresent_largePte (f : Nat) : pteIsPresent (opts.largePte f) = true := by
  rw [pteIsPresent, largePte, testBit_or, testBit_or,
    show PTE_LARGE_FLAGS.testBit 0 = true by decide]
  simp

theorem finishSplitInfo_init (hsplit : m.split = some .init)
    (hret : finishSplitInfo p opts fuel m v = .ok m') : m' = m := by
  cases fuel with
  | zero => cases hret
  | succ fuel =>
    rw [finishSplitInfo, hsplit] at hret
    cases hret
    rfl

end steps

end OsKernel.Mm
