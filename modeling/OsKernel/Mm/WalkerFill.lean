import OsKernel.Mm.WalkerProof

/-!
# Filling in missing tables

`alloc_levels_down_to` makes the tables that are missing below the entry a walker stands
at. Each round takes an empty page, writes its address into the entry, and goes down into
the new table. The entry named no table before, so this is `Radix.Links`: every table
keeps its place, the address gains one level, and since an empty table translates
nothing, no translation changes if the entry was absent.

The pages that tables are made of must not be tables already. `WellFormed` says so, and
that the tables form a tree; both stay true.
-/

namespace OsKernel.Mm

open PtWalker
open Function List Nat PageTables

variable {p : Paging} {s s' : PageTables} {root virt f i k lastLevel level t u v : Nat}
  {w w' : PtWalker} {shouldRef : Bool} {entries : Nat → Nat → Nat}

/-! ## Entries that name a table -/

theorem pteIsPresent_table (f : Nat) : pteIsPresent (f ||| PGT_FLAGS) = true := by
  rw [pteIsPresent, testBit_or, Bool.or_eq_true]
  exact .inr (by decide)

theorem testBit_page (h : PAGE_SIZE ∣ f) (hi : i < PAGE_SHIFT) : f.testBit i = false := by
  obtain ⟨q, rfl⟩ := h
  rw [PAGE_SIZE, testBit_two_pow_mul]
  simp [not_le.mpr hi]

theorem pteIsLarge_table (h : PAGE_SIZE ∣ f) : pteIsLarge (f ||| PGT_FLAGS) = false := by
  rw [pteIsLarge, testBit_or, testBit_page h (by decide)]
  decide

theorem testBit_physMask (i : Nat) :
    (0x0000fffffffff000 : Nat).testBit i = decide (12 ≤ i ∧ i < 48) := by
  rw [show (0x0000fffffffff000 : Nat) = 2 ^ 12 * (2 ^ 36 - 1) by norm_num, testBit_two_pow_mul,
    testBit_two_pow_sub_one, ← Bool.decide_and]
  congr 1
  rw [eq_iff_iff]
  omega

/-- The address of a page and flags outside the address bits stay apart in an entry. -/
theorem pteToPhys_or {flags : Nat} (h : PAGE_SIZE ∣ f) (hlt : f < 2 ^ 48)
    (hflags : flags &&& 0x0000fffffffff000 = 0) : pteToPhys (f ||| flags) = f := by
  rw [pteToPhys, and_or_distrib_right, hflags, or_zero]
  apply eq_of_testBit_eq
  intro i
  rw [testBit_and, testBit_physMask]
  rcases lt_or_ge i 12 with hlow | hge
  · rw [testBit_page h hlow, Bool.false_and]
  · rcases lt_or_ge i 48 with hhigh | hhigh
    · simp [hge, hhigh]
    · have hbit : f.testBit i = false :=
        Nat.testBit_lt_two_pow (lt_of_lt_of_le hlt (Nat.pow_le_pow_right (by decide) hhigh))
      rw [hbit, Bool.false_and]

/-! ## Well-formed tables -/

/-- The tables form a tree, and the pages for new tables are pages that are no tables yet. -/
structure WellFormed (p : Paging) (s : PageTables) (root : Nat) : Prop where
  tree : (p.radix root).IsTree s.entries
  unused : ∀ f ∈ s.pool, (p.radix root).Unused s.entries f
  nodup : s.pool.Nodup
  page : ∀ f ∈ s.pool, PAGE_SIZE ∣ f ∧ f < 2 ^ 48

/-- The entries after the empty table `f` is linked into the entry `i` of the table `t`. -/
def linkEntries (entries : Nat → Nat → Nat) (t i f : Nat) : Nat → Nat → Nat :=
  Function.update (Function.update entries f fun _ => 0) t
    (Function.update (Function.update entries f (fun _ => 0) t) i (f ||| PGT_FLAGS))

theorem linkEntries_at (entries : Nat → Nat → Nat) (t i f : Nat) :
    linkEntries entries t i f t i = f ||| PGT_FLAGS := by
  simp [linkEntries]

theorem linkEntries_new (h : f ≠ t) (i j : Nat) :
    linkEntries entries t i f f j = 0 := by
  simp [linkEntries, h]

theorem linkEntries_other {j : Nat} (hu : u ≠ f) (hne : ¬ (u = t ∧ j = i)) :
    linkEntries entries t i f u j = entries u j := by
  by_cases hut : u = t
  · subst hut
    have hj : j ≠ i := fun hj => hne ⟨rfl, hj⟩
    simp [linkEntries, hj, hu]
  · simp [linkEntries, hut, hu]

section link

variable {level t f : Nat} {rest : List Nat} (hwf : WellFormed p s root) (hpool : s.pool = f :: rest)
  (ht : Meets p s root virt level t) (hlevel : 1 < level)
  (hend : (p.radix root).child level (s.entries t (virtToPtIndex virt level)) = none)
include hwf hpool ht

theorem WellFormed.ne_table : f ≠ t := by
  intro heq
  exact hwf.unused f (by rw [hpool]; exact mem_cons_self) _ _ (heq ▸ ht)

include hlevel hend

theorem WellFormed.links :
    (p.radix root).Links s.entries (linkEntries s.entries t (virtToPtIndex virt level) f) level t
      (virtToPtIndex virt level) f where
  level := hlevel
  unused := hwf.unused f (by rw [hpool]; exact List.mem_cons_self)
  same u j hu hne := linkEntries_other hu hne
  before := hend
  after := by
    obtain ⟨hpage, hlt⟩ := hwf.page f (by rw [hpool]; exact mem_cons_self)
    rw [linkEntries_at, radix_child_table (pteIsPresent_table f) (by omega)
      (by rw [pteIsLarge_table hpage, Bool.and_false]), pteToPhys_or hpage hlt (by decide)]
  empty j := by
    rw [linkEntries_new (hwf.ne_table hpool ht)]
    exact radix_child_absent (by decide)

variable (hentries : s'.entries = linkEntries s.entries t (virtToPtIndex virt level) f)
  (hrest : s'.pool = rest)
include hentries hrest

theorem WellFormed.link : WellFormed p s' root := by
  have hlinks := hwf.links hpool ht hlevel hend
  have hplace : ∀ {ix k}, (p.radix root).Path s.entries ix k t → k = level :=
    fun h => hwf.tree.level h ht
  have hnodup : (f :: rest).Nodup := hpool ▸ hwf.nodup
  have hmem : ∀ g ∈ s'.pool, g ∈ s.pool ∧ g ≠ f := by
    intro g hg
    rw [hrest] at hg
    rw [hpool]
    exact ⟨mem_cons_of_mem _ hg, fun heq => (nodup_cons.mp hnodup).1 (heq ▸ hg)⟩
  exact
    { tree := hentries ▸ hwf.tree.link hlinks hplace
      unused := fun g hg => hentries ▸ (hwf.unused g (hmem g hg).1).link hlinks hplace (hmem g hg).2
      nodup := hrest ▸ (nodup_cons.mp hnodup).2
      page := fun g hg => hwf.page g (hmem g hg).1 }

omit hrest in
theorem Meets.link (h : Meets p s root v k u) : Meets p s' root v k u := by
  have hlinked := Radix.Path.link (hwf.links hpool ht hlevel hend)
    (fun hp => hwf.tree.level hp ht) h
  rw [← hentries] at hlinked
  exact hlinked

omit hrest in
theorem Meets.link_new : Meets p s' root virt (level - 1) f := by
  have hold := Meets.link hwf hpool ht hlevel hend hentries ht
  obtain ⟨n, rfl⟩ : ∃ n, level = n + 1 := ⟨level - 1, by omega⟩
  refine Radix.Path.down hold (virtToPtIndex_lt _ _) ?_
  rw [hentries]
  exact (hwf.links hpool ht hlevel hend).after

omit hrest in
/-- The new table is the only one gained, and only addresses in the linked entry gain it. -/
theorem Meets.of_link (h : Meets p s' root v k u) :
    Meets p s root v k u ∨
      ∀ j, k < j → j ≤ p.pgtGetTopLevel → virtToPtIndex v j = virtToPtIndex virt j := by
  rw [Meets, hentries] at h
  rcases Radix.Path.of_link (hwf.links hpool ht hlevel hend) (fun hp => hwf.tree.level hp ht) h with
    hold | ⟨hk, -, hpath, hidx, -⟩
  · exact .inl hold
  · refine .inr fun j hj hle => ?_
    rcases lt_or_ge level j with hlt | hge
    · exact hwf.tree.indices hpath ht j hlt hle
    · obtain rfl : j = level := by omega
      exact hidx

omit hrest in
/-- The new table is empty, so the pages of the linked entry are gone, and no others. -/
theorem leafAt_link (v : Nat) :
    s'.leafAt p root v = s.leafAt p root v ∨
      (s'.leafAt p root v = none ∧
        ∀ j, level ≤ j → j ≤ p.pgtGetTopLevel → virtToPtIndex v j = virtToPtIndex virt j) := by
  have hlinks := hwf.links hpool ht hlevel hend
  rw [leafAt, leafAt, walkEnd, walkEnd, hentries]
  rcases Radix.lookup_link hlinks (fun hp => hwf.tree.level hp ht) radix_child_one
    (virtToPtIndex_lt v) top_pos with hsame | ⟨hpath, hidx, hnew⟩
  · rw [radix_top, radix_root] at hsame
    rw [hsame]
    exact .inl rfl
  · rw [radix_top, radix_root] at hnew
    rw [hnew, linkEntries_new (hwf.ne_table hpool ht),
      if_neg (show ¬ pteIsPresent 0 = true by decide)]
    refine .inr ⟨rfl, fun j hj hle => ?_⟩
    rcases lt_or_eq_of_le hj with hlt | heq
    · exact hwf.tree.indices hpath ht j hlt hle
    · exact heq ▸ hidx

end link

/-! ## One round of the loop -/

/-- The tables after the new table `f` is linked and, if asked for, counted in its parent. -/
def PageTables.linkTable (s : PageTables) (t i f : Nat) (rest : List Nat) (shouldRef : Bool) :
    PageTables where
  entries := linkEntries s.entries t i f
  refcount :=
    if shouldRef then
      Function.update (Function.update s.refcount f 0) t (Function.update s.refcount f 0 t + 1)
    else Function.update s.refcount f 0
  isTable := Function.update s.isTable f true
  isLargeHead := Function.update s.isLargeHead f false
  pool := rest
  freed := s.freed

theorem linkTable_new (h : f ≠ t) (i j : Nat) (rest : List Nat) (shouldRef : Bool) :
    (s.linkTable t i f rest shouldRef).entries f j = 0 := linkEntries_new h i j

theorem linkTable_refcount_new (h : f ≠ t) (i : Nat) (rest : List Nat) (shouldRef : Bool) :
    (s.linkTable t i f rest shouldRef).refcount f = 0 := by
  cases shouldRef with
  | false => simp [linkTable]
  | true => simp [linkTable, update_of_ne h]

/-- A count that `ref_up` accepts. -/
def RefOk (count : Int) : Prop := ¬ (count < 0 ∨ count = REFCOUNT_MAX)

theorem refUp_ok (h : RefOk (s.refcount t)) :
    s.refUp (some t) =
      .ok { s with refcount := update s.refcount t (s.refcount t + 1) } := if_neg h

theorem refUp_eq_ok (h : s.refUp (some t) = .ok s') : RefOk (s.refcount t) := by
  intro hbad
  rw [show s.refUp (some t) = .error .panic from if_pos hbad] at h
  cases h

theorem refDown_eq_ok {last : Bool} (h : s.refDown (some t) = .ok (last, s')) :
    last = (s.refcount t == 1) ∧
      s' = { s with refcount := update s.refcount t (s.refcount t - 1) } := by
  rw [refDown] at h
  split at h
  · cases h
  · cases h
    exact ⟨rfl, rfl⟩

section round

variable {level lastLevel t f : Nat} {rest : List Nat} {allocLastLevel shouldRef : Bool}

theorem allocLoop_succ (hpool : s.pool = f :: rest) (htable : w.tables (level + 2) = some t)
    (hidx : w.indices (level + 2) < PGT_PTE_COUNT)
    (href : shouldRef = true → RefOk (update s.refcount f 0 t)) :
    allocLoop lastLevel allocLastLevel shouldRef (level + 1) w s =
      if (level = lastLevel && !allocLastLevel) || level < lastLevel then
        .ok (.ok, { w.setTable (level + 1) (some f) with level := level + 1 },
          s.linkTable t (w.indices (level + 2)) f rest shouldRef)
      else
        allocLoop lastLevel allocLastLevel shouldRef level (w.setTable (level + 1) (some f))
          (s.linkTable t (w.indices (level + 2)) f rest shouldRef) := by
  rw [allocLoop]
  simp only [allocPgtable, hpool, htable, pteWrite,
    show (w.setTable (level + 1) (some f)).indices (level + 2) = w.indices (level + 2) from rfl,
    if_pos hidx, ok_bind]
  cases shouldRef with
  | false => rfl
  | true =>
    rw [if_pos rfl, refUp_ok (href rfl)]
    rfl

/-- A round that succeeds had a page, linked it into an entry of the table, and counted it. -/
theorem allocLoop_pool (htable : w.tables (level + 2) = some t)
    (hret : allocLoop lastLevel allocLastLevel shouldRef (level + 1) w s = .ok (.ok, w', s')) :
    ∃ f rest, s.pool = f :: rest ∧ w.indices (level + 2) < PGT_PTE_COUNT ∧
      (shouldRef = true → RefOk (update s.refcount f 0 t)) := by
  cases hpool : s.pool with
  | nil =>
    rw [allocLoop, allocPgtable, hpool, bind_eq_ok] at hret
    obtain ⟨r, -, hret⟩ := hret
    cases hret
  | cons f rest =>
    rw [allocLoop] at hret
    simp only [allocPgtable, hpool, htable, pteWrite] at hret
    obtain ⟨s₁, hwrite, hret⟩ := bind_eq_ok.mp hret
    split at hwrite
    case isFalse => cases hwrite
    case isTrue hidx =>
      cases hwrite
      refine ⟨f, rest, rfl, hidx, fun href => ?_⟩
      subst href
      rw [if_pos rfl, bind_eq_ok] at hret
      obtain ⟨s₂, hup, -⟩ := hret
      exact refUp_eq_ok hup

end round

/-! ## The loop -/

theorem Follows.mono (h : Follows p s root w virt level)
    (hmeets : ∀ k t, Meets p s root virt k t → Meets p s' root virt k t) :
    Follows p s' root w virt level where
  top := h.top
  path k hk htop := by
    obtain ⟨t, ht, hpath⟩ := h.path k hk htop
    exact ⟨t, ht, hmeets k t hpath⟩
  indices := h.indices
  above := h.above

/-- Where a walker is ready for a table to be linked: it follows an address to an entry that names none. -/
structure Ready (p : Paging) (s : PageTables) (root : Nat) (w : PtWalker) (virt level t : Nat) :
    Prop where
  follows : Follows p s root w virt level
  meets : Meets p s root virt level t
  ends : (p.radix root).child level (s.entries t (virtToPtIndex virt level)) = none
  /-- The indices below are those of the address already. -/
  lower : ∀ k, 0 < k → k < level → w.indices k = virtToPtIndex virt k

theorem Ready.table (h : Ready p s root w virt level t) :
    w.tables level = some t ∧ w.indices level = virtToPtIndex virt level := by
  obtain ⟨u, hu, hmeets⟩ := h.follows.path level le_rfl h.meets.le_top
  rw [h.meets.unique hmeets]
  exact ⟨hu, h.follows.indices level le_rfl h.meets.le_top⟩

theorem Ready.link {rest : List Nat} (h : Ready p s root w virt (level + 2) t) (shouldRef : Bool)
    (l : Nat) (hwf : WellFormed p s root) (hpool : s.pool = f :: rest) :
    Ready p (s.linkTable t (virtToPtIndex virt (level + 2)) f rest shouldRef) root
      { w.setTable (level + 1) (some f) with level := l } virt (level + 1) f := by
  have hmeets : ∀ k u, Meets p s root virt k u →
      Meets p (s.linkTable t (virtToPtIndex virt (level + 2)) f rest shouldRef) root virt k u :=
    fun k u hu => Meets.link hwf hpool h.meets (by omega) h.ends rfl hu
  have hnew : Meets p (s.linkTable t (virtToPtIndex virt (level + 2)) f rest shouldRef) root virt
      (level + 1) f := Meets.link_new hwf hpool h.meets (by omega) h.ends rfl
  have hle : level + 1 ≤ p.pgtGetTopLevel := hnew.le_top
  refine ⟨?_, hnew, ?_, fun k hk hlt => h.lower k hk (by omega)⟩
  · refine Follows.congr ((h.follows.mono hmeets).descend (l := l) hnew) (by omega) rfl fun k hk => ?_
    rw [lower_tables, lower_indices]
    refine ⟨by simp [setTable, update_apply], ?_⟩
    split
    · rw [‹k = level + 1›]
      exact h.lower _ (succ_pos _) (by omega)
    · rfl
  · rw [linkTable_new (hwf.ne_table hpool h.meets)]
    exact radix_child_absent (by decide)

/-- The walker stands at an address in well-formed tables, with the address's index at every level. -/
structure Placed (p : Paging) (s : PageTables) (root : Nat) (w : PtWalker) (virt : Nat) : Prop
    extends Stands p s root w virt where
  wellFormed : WellFormed p s root
  lower : ∀ k, 0 < k → k < w.level → w.indices k = virtToPtIndex virt k

/-- The tables of `s'` are those of `s` and new ones on the way of `virt`. -/
structure Grows (p : Paging) (s s' : PageTables) (root virt : Nat) : Prop where
  kept : ∀ {v k t}, Meets p s root v k t → Meets p s' root v k t
  gained : ∀ {v k t}, Meets p s' root v k t → Meets p s root v k t ∨
    ∀ j, k < j → j ≤ p.pgtGetTopLevel → virtToPtIndex v j = virtToPtIndex virt j

theorem Grows.refl (p : Paging) (s : PageTables) (root virt : Nat) : Grows p s s root virt :=
  ⟨fun h => h, fun h => .inl h⟩

theorem Grows.trans {s₁ s₂ s₃ : PageTables} (h : Grows p s₁ s₂ root virt)
    (h' : Grows p s₂ s₃ root virt) : Grows p s₁ s₃ root virt where
  kept hm := h'.kept (h.kept hm)
  gained hm := by
    rcases h'.gained hm with hm | hsame
    · exact h.gained hm
    · exact .inr hsame

/-- What filling in leaves: a walker placed at the address, and new tables. -/
structure FilledIn (p : Paging) (s s' : PageTables) (root : Nat) (w' : PtWalker) (virt level : Nat) :
    Prop where
  placed : Placed p s' root w' virt
  level_eq : w'.level = level
  grows : Grows p s s' root virt
  /-- If there was a large page at the address it is gone; all other pages are as before. -/
  leafAt : ∀ v, s'.leafAt p root v = s.leafAt p root v ∨
    (s'.leafAt p root v = none ∧ ∀ j, (walkEnd p s root virt).1 ≤ j → j ≤ p.pgtGetTopLevel →
      virtToPtIndex v j = virtToPtIndex virt j)

theorem leafAt_congr (h : ∀ j, (walkEnd p s root virt).1 ≤ j → j ≤ p.pgtGetTopLevel →
      virtToPtIndex v j = virtToPtIndex virt j) :
    s.leafAt p root v = s.leafAt p root virt := by
  obtain ⟨level, t, hpos, ht, hend⟩ := exists_meets_end p s root virt
  have hwalk := ht.walkEnd_eq hpos hend
  rw [hwalk] at h
  have hv : Meets p s root v level t := ht.congr fun j hj hle => h j (le_of_lt hj) hle
  have hidx : virtToPtIndex v level = virtToPtIndex virt level := h level le_rfl ht.le_top
  rw [leafAt, leafAt, hwalk, hv.walkEnd_eq hpos (by rw [hidx]; exact hend), hidx]

theorem FilledIn.leafAt_eq (h : FilledIn p s s' root w' virt level)
    (hnone : s.leafAt p root virt = none) (v : Nat) : s'.leafAt p root v = s.leafAt p root v := by
  rcases h.leafAt v with hsame | ⟨hgone, hidx⟩
  · exact hsame
  · rw [hgone, leafAt_congr hidx, hnone]

theorem Ready.walkEnd_eq (h : Ready p s root w virt level t) (hpos : 0 < level) :
    (walkEnd p s root virt).1 = level := by
  rw [h.meets.walkEnd_eq hpos h.ends]

/-- **The loop fills in the tables of the address**, down to the level asked for. -/
theorem allocLoop_filled {allocLastLevel : Bool} (hwf : WellFormed p s root)
    (h : Ready p s root w virt (level + 1) t)
    (hlast : if allocLastLevel then lastLevel ≤ level else lastLevel < level)
    (hret : allocLoop lastLevel allocLastLevel shouldRef level w s = .ok (.ok, w', s')) :
    FilledIn p s s' root w' virt (if allocLastLevel then lastLevel else lastLevel + 1) := by
  induction level generalizing w s t with
  | zero => cases hret
  | succ level ih =>
    obtain ⟨htable, hidx⟩ := h.table
    obtain ⟨f, rest, hpool, hidx', href⟩ := allocLoop_pool htable hret
    rw [allocLoop_succ hpool htable hidx' href, hidx] at hret
    have hwf' : WellFormed p (s.linkTable t (virtToPtIndex virt (level + 2)) f rest shouldRef) root :=
      hwf.link hpool h.meets (by omega) h.ends rfl rfl
    have hgrows : Grows p s (s.linkTable t (virtToPtIndex virt (level + 2)) f rest shouldRef) root
        virt :=
      ⟨fun hm => Meets.link hwf hpool h.meets (by omega) h.ends rfl hm,
        fun hm => Meets.of_link hwf hpool h.meets (by omega) h.ends rfl hm⟩
    have hwalk : (walkEnd p s root virt).1 = level + 1 + 1 := h.walkEnd_eq (succ_pos _)
    have hleaf := leafAt_link hwf hpool h.meets (by omega) h.ends
      (show (s.linkTable t (virtToPtIndex virt (level + 2)) f rest shouldRef).entries = _ from rfl)
    split at hret
    case isTrue hbreak =>
      cases hret
      have hready := h.link shouldRef (level + 1) hwf hpool
      have hlevel : level + 1 = if allocLastLevel then lastLevel else lastLevel + 1 := by
        cases allocLastLevel with
        | true => simp at hbreak hlast ⊢; omega
        | false => simp at hbreak hlast ⊢; omega
      exact ⟨⟨hready.follows.stands rfl (succ_pos _) hready.meets hready.ends, hwf', hready.lower⟩,
        hlevel, hgrows, fun v => hwalk ▸ hleaf v⟩
    case isFalse hbreak =>
      have hready := h.link shouldRef w.level hwf hpool
      have hlast' : if allocLastLevel then lastLevel ≤ level else lastLevel < level := by
        cases allocLastLevel with
        | true => simp at hbreak ⊢; omega
        | false => simp at hbreak ⊢; omega
      have hfilled := ih hwf' hready hlast' hret
      refine ⟨hfilled.placed, hfilled.level_eq, hgrows.trans hfilled.grows, fun v => ?_⟩
      rcases hfilled.leafAt v with hsame | ⟨hgone, hidx⟩
      · rw [hsame, hwalk]
        exact hleaf v
      · rw [hready.walkEnd_eq (succ_pos _)] at hidx
        exact .inr ⟨hgone, fun j hj hle => hidx j (by omega) hle⟩

/-- With enough pages and sane counts the loop succeeds. -/
theorem allocLoop_returns (hwf : WellFormed p s root) (h : Ready p s root w virt (level + 1) t)
    (hpos : 0 < lastLevel) (hlast : lastLevel ≤ level)
    (hpool : level + 1 - lastLevel ≤ s.pool.length) (href : RefOk (s.refcount t)) :
    ∃ w' s', allocLoop lastLevel true shouldRef level w s = .ok (.ok, w', s') := by
  induction level generalizing w s t with
  | zero => omega
  | succ level ih =>
    obtain ⟨htable, hidx⟩ := h.table
    obtain ⟨f, rest, hcons⟩ : ∃ f rest, s.pool = f :: rest := by
      cases hp : s.pool with
      | nil =>
        rw [hp, length_nil] at hpool
        omega
      | cons f rest => exact ⟨f, rest, rfl⟩
    have hne := hwf.ne_table hcons h.meets
    have hcount : RefOk (update s.refcount f 0 t) := by
      rw [update_of_ne hne.symm]
      exact href
    rw [allocLoop_succ hcons htable (hidx ▸ virtToPtIndex_lt _ _) fun _ => hcount, hidx]
    split
    · exact ⟨_, _, rfl⟩
    · rename_i hbreak
      have hlt : lastLevel ≤ level := by
        simp at hbreak
        omega
      refine ih (hwf.link hcons h.meets (by omega) h.ends rfl rfl)
        (h.link shouldRef w.level hwf hcons) hlt ?_ ?_
      · rw [hcons, length_cons] at hpool
        show level + 1 - lastLevel ≤ rest.length
        omega
      · -- The new table has an empty count; only its parent was counted up.
        rw [linkTable_refcount_new hne]
        unfold RefOk REFCOUNT_MAX
        omega

/-! ## `ptwalker_fill_in_to` -/

theorem Placed.ready (h : Placed p s root w virt) (ht : Meets p s root virt w.level t) :
    Ready p s root w virt w.level t :=
  ⟨h.toFollows, ht, h.ends t ht, h.lower⟩

theorem createForPagemap_placed (hwf : WellFormed p s root)
    (hret : createForPagemap p s root virt = .ok w) : Placed p s root w virt := by
  obtain ⟨hstands, hindices⟩ := createForPagemap_stands hret
  have hle := hstands.le
  exact ⟨hstands, hwf, fun k hk hlt => hindices k hk (by omega)⟩

theorem fillInTo_eq (hlt : level < w.level) :
    fillInTo w s level shouldRef = allocLoop level true shouldRef (w.level - 1) w s := by
  rw [fillInTo, if_neg (not_le.mpr hlt), allocLevelsDownTo, Bool.not_true, Bool.and_false]
  rfl

/-- **Filling in** leaves the walker at its address, with the tables down to the level asked for. -/
theorem Placed.fillInTo (h : Placed p s root w virt)
    (hret : fillInTo w s level shouldRef = .ok (.ok, w', s')) :
    FilledIn p s s' root w' virt (min w.level level) := by
  rcases lt_or_ge level w.level with hlt | hge
  · obtain ⟨t, -, ht⟩ := h.path w.level le_rfl h.le
    obtain ⟨n, hn⟩ : ∃ n, w.level = n + 1 := ⟨w.level - 1, by omega⟩
    rw [fillInTo_eq hlt, hn, Nat.add_sub_cancel] at hret
    have hready := h.ready ht
    rw [hn] at hready
    have hlast : if true then level ≤ n else level < n := by
      rw [if_pos rfl]
      omega
    rw [min_eq_right (le_of_lt hlt)]
    exact allocLoop_filled h.wellFormed hready hlast hret
  · rw [PtWalker.fillInTo, if_pos hge] at hret
    cases hret
    exact ⟨h, (min_eq_left hge).symm, .refl _ _ _ _, fun _ => .inl rfl⟩

theorem Placed.fillInTo_returns (shouldRef : Bool) (h : Placed p s root w virt) (hpos : 0 < level)
    (hpool : w.level - level ≤ s.pool.length)
    (href : ∀ k t, Meets p s root virt k t → RefOk (s.refcount t)) :
    ∃ w' s', PtWalker.fillInTo w s level shouldRef = .ok (.ok, w', s') := by
  rcases lt_or_ge level w.level with hlt | hge
  · obtain ⟨t, -, ht⟩ := h.path w.level le_rfl h.le
    obtain ⟨n, hn⟩ : ∃ n, w.level = n + 1 := ⟨w.level - 1, by omega⟩
    have hready := h.ready ht
    rw [hn] at hready
    rw [fillInTo_eq hlt, hn, Nat.add_sub_cancel]
    exact allocLoop_returns h.wellFormed hready hpos (by omega) (by omega) (href _ _ ht)
  · rw [PtWalker.fillInTo, if_pos hge]
    exact ⟨_, _, rfl⟩

/-- The entry that a walker holds at a level names the table it holds one level further down. -/
theorem Stands.parent (h : Stands p s root w virt) (hk : w.level ≤ k)
    (hlt : k < p.pgtGetTopLevel) :
    ∃ t u, w.tables (k + 1) = some t ∧ w.tables k = some u ∧
      pteIsPresent (s.entries t (w.indices (k + 1))) = true ∧
      pteToPhys (s.entries t (w.indices (k + 1))) = u := by
  obtain ⟨t, ht, hmeets⟩ := h.path (k + 1) (by omega) hlt
  obtain ⟨u, hu, hdown⟩ := h.path k hk (le_of_lt hlt)
  refine ⟨t, u, ht, hu, ?_⟩
  rw [h.indices (k + 1) (by omega) hlt]
  cases hdown with
  | root => exact absurd hlt (lt_irrefl _)
  | down hparent _ hchild =>
    rw [hmeets.unique hparent]
    rw [radix_child] at hchild
    split at hchild
    case isTrue hcond =>
      simp only [Bool.and_eq_true] at hcond
      exact ⟨hcond.1.1, Option.some.inj hchild⟩
    case isFalse => cases hchild

/--
**Filling in is invisible.** Let `virt` have no translation, and let a walker be created there and
filled in to `level`. It ends up at the lower of its old level and `level`, with a table and the
index of `virt` at each level from there up, each parent entry naming the next table, and no address
has another translation than before. With five levels this needs an absent entry in the root table,
since otherwise the walker cannot be created.
-/
theorem fillInTo_invisible_iff (p : Paging) (s : PageTables) (root virt level : Nat)
    (shouldRef : Bool) (hroot : hasAlign root PAGE_SIZE = true)
    (hvirt : hasAlign virt PAGE_SIZE = true) (hwf : WellFormed p s root) (hpos : 0 < level)
    (href : ∀ k t, Meets p s root virt k t → RefOk (s.refcount t))
    (hnone : s.translate p root virt = none) :
    (∃ w, createForPagemap p s root virt = .ok w ∧
        (w.level - level ≤ s.pool.length →
          ∃ w' s', fillInTo w s level shouldRef = .ok (.ok, w', s') ∧
            w'.level = min w.level level ∧
            (∀ k, w'.level ≤ k → k ≤ p.pgtGetTopLevel →
              w'.tables k ≠ none ∧ w'.indices k = virtToPtIndex virt k) ∧
            (∀ k, w'.level ≤ k → k < p.pgtGetTopLevel →
              ∃ t u, w'.tables (k + 1) = some t ∧ w'.tables k = some u ∧
                pteIsPresent (s'.entries t (w'.indices (k + 1))) = true ∧
                pteToPhys (s'.entries t (w'.indices (k + 1))) = u) ∧
            ∀ v, s'.translate p root v = s.translate p root v)) ↔
      (p.has5lvlPaging = false ∨
        pteIsPresent (s.entries root (virtToPtIndex virt p.pgtGetTopLevel)) = false) := by
  rw [← createForPagemap_returns_iff hroot hvirt]
  refine exists_congr fun w => and_iff_left_of_imp fun hw hpool => ?_
  have hplaced := createForPagemap_placed hwf hw
  obtain ⟨w', s', hret⟩ := hplaced.fillInTo_returns shouldRef hpos hpool href
  have hfilled := hplaced.fillInTo hret
  refine ⟨w', s', hret, hfilled.level_eq, fun k hk htop => ?_,
    fun k hk hlt => hfilled.placed.toStands.parent hk hlt, fun v => ?_⟩
  · obtain ⟨t, ht, -⟩ := hfilled.placed.path k hk htop
    exact ⟨by simp [ht], hfilled.placed.indices k hk htop⟩
  · rw [translate_eq_leafAt, translate_eq_leafAt, hfilled.leafAt_eq (leafAt_eq_none.mpr hnone) v]

/-! ## Empty tables -/

theorem path_of_empty (h : ∀ i, pteIsPresent (s.entries root i) = false) {ix : Nat → Nat}
    (hp : (p.radix root).Path s.entries ix k t) : k = p.pgtGetTopLevel ∧ t = root := by
  induction hp with
  | root => exact ⟨rfl, rfl⟩
  | down _ _ hc ih =>
    rw [ih.2, radix_child_absent (h _)] at hc
    cases hc

theorem WellFormed.of_empty (h : ∀ i, pteIsPresent (s.entries root i) = false)
    (hroot : root ∉ s.pool) (hnodup : s.pool.Nodup)
    (hpage : ∀ f ∈ s.pool, PAGE_SIZE ∣ f ∧ f < 2 ^ 48) : WellFormed p s root where
  tree :=
    { level := fun hp hp' => (path_of_empty h hp).1.trans (path_of_empty h hp').1.symm
      indices := fun {_ _ k _} hp _ j hj hle => by
        have hk : k = p.pgtGetTopLevel := (path_of_empty h hp).1
        rw [radix_top] at hle
        omega }
  unused f hf _ _ hp := hroot ((path_of_empty h hp).2 ▸ hf)
  nodup := hnodup
  page := hpage

/-- An empty root table and three pages. -/
def emptyRoot : PageTables where
  entries _ _ := 0
  refcount _ := 0
  isTable t := t = 0x1000
  isLargeHead _ := false
  pool := [0x2000, 0x3000, 0x4000]
  freed := []

theorem emptyRoot_wellFormed (p : Paging) : WellFormed p emptyRoot 0x1000 :=
  .of_empty (fun _ => show pteIsPresent 0 = false by decide) (by decide) (by decide) (by decide)

theorem fillInTo_invisible_iff_emptyRoot :
    ∃ w w' s', createForPagemap ⟨false, true⟩ emptyRoot 0x1000 0x400000 = .ok w ∧
      fillInTo w emptyRoot 1 true = .ok (.ok, w', s') ∧ w'.level = min w.level 1 ∧
      ∀ v, s'.translate ⟨false, true⟩ 0x1000 v = emptyRoot.translate ⟨false, true⟩ 0x1000 v := by
  obtain ⟨w, hw, hfill⟩ := (fillInTo_invisible_iff ⟨false, true⟩ emptyRoot 0x1000 0x400000 1 true
    (by decide) (by decide) (emptyRoot_wellFormed _) (by decide)
    (fun _ _ _ => show RefOk 0 by unfold RefOk; decide) (by decide)).mpr (.inl rfl)
  have hle : w.level ≤ 4 := (createForPagemap_stands hw).1.le
  obtain ⟨w', s', hret, hlevel, -, -, hsame⟩ := hfill (show w.level - 1 ≤ 3 by omega)
  exact ⟨w, w', s', hw, hret, hlevel, hsame⟩

/--
With five levels, a walker cannot even be created at an address without a translation once the root
table has an entry there.
-/
theorem create_reads_past_list :
    (createForPagemap ⟨true, true⟩
        { emptyRoot with entries := fun t i => if (t, i) = (0x1000, 0) then 0x2003 else 0 }
        0x1000 0x400000).map PtWalker.level = .error .outOfBounds ∧
      PageTables.translate ⟨true, true⟩
        { emptyRoot with entries := fun t i => if (t, i) = (0x1000, 0) then 0x2003 else 0 }
        0x1000 0x400000 = none := by
  decide

end OsKernel.Mm
