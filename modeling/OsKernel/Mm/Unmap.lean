import OsKernel.Mm.MapLeaf

/-!
# Unmapping a range

A round of `pgunmap_at` clears one entry, drops a reference of the table that holds the page
at its address, and moves the walker on. The level of the entry is chosen by the size that is
left of the range, not by the page that is there, and a table is given back when its count
comes to zero, though the pages that it maps are never counted.

`Round` follows the rounds through the range: the level, the address, and what is left of
the counts. A round is clean if the entry lies in the range and no table is given back.
`pgunmap_at` takes the range out if all its rounds are clean.
-/

namespace OsKernel.Mm

open Adt (Range)
open PtWalker MapState
open Function Nat

variable {p : Paging} {opts : PgmapOptions} {unmap : PgunmapOptions} {range : Range}
  {s s' s₀ : PageTables} {root level e off fuel k size t : Nat} {w w' : PtWalker} {m m' : MapState}
  {leaf : Nat × Nat} {v : Nat} {count : Nat → Int}

/-- The rounds that `pgunmap_at` makes, with the counts of the tables that it has left so far. -/
inductive Round (p : Paging) (s : PageTables) (root : Nat) (range : Range) :
    (level e : Nat) → (count : Nat → Int) → Prop
  | first {w : PtWalker} : createForPagemap p s root range.front = .ok w →
      Round p s root range (unmapLevel w range.size) range.front s.refcount
  | next {level e t : Nat} {count : Nat → Int} : Round p s root range level e count →
      e + pageSizeAtLevel level < range.front + range.size →
      Meets p s root e (walkEnd p s root e).1 t →
      Round p s root range
        (lowerLevel (range.front + range.size - (e + pageSizeAtLevel level)) level)
        (e + pageSizeAtLevel level) (update count t (count t - 1))

/-- A round that clears an entry of the range, and gives no table back. -/
structure CleanRound (p : Paging) (s : PageTables) (root : Nat) (range : Range) (level e : Nat)
    (count : Nat → Int) : Prop where
  /-- The page at the address is not larger than the entry. -/
  low : (walkEnd p s root e).1 ≤ level
  align : pageSizeAtLevel level ∣ e
  room : e + pageSizeAtLevel level ≤ range.front + range.size
  counted : ∀ t, Meets p s root e (walkEnd p s root e).1 t → count t ≠ 1

/-- What unmapping needs of the tables at the start. -/
structure Unmappable (p : Paging) (s : PageTables) (root : Nat) (range : Range) : Prop where
  nonempty : 0 < range.size
  canonical : ∀ v, range.front ≤ v → v < range.front + range.size → Canonical p v
  /-- Every address of the range has a page. -/
  mapped : ∀ v, range.front ≤ v → v < range.front + range.size → s.translate p root v ≠ none
  /-- The pages of tables are known as such. -/
  marked : ∀ {v k t}, Meets p s root v k t → s.isTable t = true
  clean : ∀ {level e count}, Round p s root range level e count →
    CleanRound p s root range level e count

/-! ## Clearing an entry -/

theorem radix_child_zero (p : Paging) (root level : Nat) : (p.radix root).child level 0 = none :=
  radix_child_absent (by decide : pteIsPresent 0 = false)

theorem writeAt_eq_ok {value : Nat} (h : m.writeAt level value = .ok m') :
    ∃ s', m.s.pteWrite (m.w.tables level) (m.w.indices level) value = .ok s' ∧
      m' = { m with s := s' } := by
  rw [MapState.writeAt, bind_eq_ok] at h
  obtain ⟨s', hs, h⟩ := h
  cases h
  exact ⟨s', hs, rfl⟩

theorem clearEntry_tables {freePages : Bool} (h : m.clearEntry level freePages = .ok m') :
    m'.w = m.w ∧ m'.hasFree = m.hasFree ∧ ∃ s',
      m.s.pteWrite (m.w.tables level) (m.w.indices level) 0 = .ok s' ∧
      m'.s.entries = s'.entries ∧ m'.s.pool = s'.pool ∧ m'.s.isTable = s'.isTable ∧
      ∀ u, s'.isTable u = true → m'.s.refcount u = s'.refcount u := by
  rw [MapState.clearEntry] at h
  split at h
  · obtain ⟨entry, -, h⟩ := bind_eq_ok.mp h
    obtain ⟨m₁, hwrite, hflush⟩ := bind_eq_ok.mp h
    obtain ⟨s', hs, rfl⟩ := writeAt_eq_ok hwrite
    rw [MapState.flushPte] at hflush
    split at hflush
    · cases hflush
    case isFalse hno =>
      rw [MapState.derefPage] at hflush
      split at hflush
      · cases hflush
      · obtain ⟨⟨last, s₁⟩, hdown, hflush⟩ := bind_eq_ok.mp hflush
        obtain ⟨-, rfl⟩ := refDown_eq_ok hdown
        cases hflush
        refine ⟨rfl, rfl, s', hs, rfl, rfl, rfl, fun u hu => ?_⟩
        have hne : u ≠ pteToPhys entry := fun heq => hno (heq ▸ hu)
        exact update_of_ne hne _ _
  · obtain ⟨s', hs, rfl⟩ := writeAt_eq_ok h
    exact ⟨rfl, rfl, s', hs, rfl, rfl, rfl, fun _ _ => rfl⟩

theorem derefFromLevel_tables (htable : m.w.tables m.w.level = some t)
    (hle : m.w.level ≤ m.w.topLevel) (hcount : m.s.refcount t ≠ 1)
    (h : m.derefFromLevel m.w.level = .ok m') :
    m'.w = m.w ∧ m'.hasFree = m.hasFree ∧
      m'.s = { m.s with refcount := update m.s.refcount t (m.s.refcount t - 1) } := by
  have hguard : ¬ (m.w.level < m.w.level || m.w.topLevel < m.w.level) = true := by
    simp only [Bool.or_eq_true, decide_eq_true_eq]
    omega
  rw [MapState.derefFromLevel, if_neg hguard] at h
  split at h
  · cases h
  · rw [PtWalker.derefFromLevel, if_neg hguard, derefLoop, if_neg (not_lt.mpr hle), htable,
      bind_eq_ok] at h
    obtain ⟨⟨w', s'⟩, hloop, h⟩ := h
    obtain ⟨⟨last, s₁⟩, hdown, hloop⟩ := bind_eq_ok.mp hloop
    obtain ⟨rfl, rfl⟩ := refDown_eq_ok hdown
    rw [beq_eq_false_iff_ne.mpr hcount] at hloop
    cases hloop
    cases h
    exact ⟨rfl, rfl, rfl⟩

/-! ## A range that is unmapped in part -/

/-- The tables `s` are those of `s₀` without the pages from the start of the range up to `e`. -/
structure Unmapped (p : Paging) (s₀ s : PageTables) (root : Nat) (range : Range) (e : Nat)
    (count : Nat → Int) : Prop where
  le : range.front ≤ e
  /-- Tables may have been cut off. -/
  meets : ∀ {v k t}, Meets p s root v k t → Meets p s₀ root v k t
  gone : ∀ v, range.front ≤ v → v < e → s.leafAt p root v = none
  others : ∀ v, Canonical p v → (v < range.front ∨ e ≤ v) → s.leafAt p root v = s₀.leafAt p root v
  isTable : s.isTable = s₀.isTable
  refcount : ∀ t, s₀.isTable t = true → s.refcount t = count t

theorem Unmapped.start (p : Paging) (s : PageTables) (root : Nat) (range : Range) :
    Unmapped p s s root range range.front s.refcount where
  le := le_rfl
  meets h := h
  gone _ hle hlt := absurd hlt (not_lt.mpr hle)
  others _ _ _ := rfl
  isTable := rfl
  refcount _ _ := rfl

theorem Placed.of_entries (h : Placed p s root w e) (hentries : s'.entries = s.entries)
    (hpool : s'.pool = s.pool) : Placed p s' root w e := by
  obtain ⟨entries', _, _, _, pool', _⟩ := s'
  obtain rfl : entries' = s.entries := hentries
  obtain rfl : pool' = s.pool := hpool
  exact
    { top := h.top, path := h.path, indices := h.indices, above := h.above, pos := h.pos, le := h.le
      ends := h.ends, lower := h.lower
      wellFormed := ⟨h.wellFormed.tree, h.wellFormed.unused, h.wellFormed.nodup, h.wellFormed.page⟩ }

/-- Clearing the entry of `level` leaves the walker placed, if it is taken to stand at `level`. -/
theorem Placed.clear (h : Placed p s root w e) (hlow : w.level ≤ level)
    (ht : Meets p s root e level t) :
    Placed p (s.setEntry t (virtToPtIndex e level) 0) root { w with level := level } e := by
  have hnew := radix_child_zero p root level
  have hwf := h.wellFormed
  have hpos : 0 < level := lt_of_lt_of_le h.pos hlow
  have hfollows : Follows p (s.setEntry t (virtToPtIndex e level) 0) root { w with level := level }
      e level :=
    { top := h.top
      path := fun k hk hle => by
        obtain ⟨u, hu, hmeets⟩ := h.path k (le_trans hlow hk) hle
        exact ⟨u, hu, Meets.put hwf ht hnew hmeets hk⟩
      indices := fun k hk => h.indices k (le_trans hlow hk)
      above := h.above }
  refine ⟨hfollows.stands rfl hpos (Meets.put hwf ht hnew ht le_rfl) ?_, WellFormed.put hwf ht hnew,
    fun k hk hlt => h.index hk (le_trans (le_of_lt hlt) ht.le_top)⟩
  rw [setEntry_at]
  exact hnew

/-- Moving on to an address that has a page makes no tables. -/
theorem Placed.next_present {allocParents allocLevel shouldRef : Bool} (h : Placed p s root w e)
    (hleaf : s.leafAt p root (pageAfter level e) = some leaf)
    (hret : nextWithOptions p w s level allocParents allocLevel shouldRef = .ok (.ok, w', s')) :
    s' = s := by
  obtain ⟨hlow, hle⟩ := nextWithOptions_level hret (by decide)
  rw [h.top] at hle
  have hpos : 0 < level := lt_of_lt_of_le h.pos hlow
  rcases nextWithOptions_cases (h.toFollows.raise hlow) hpos hle hlow hret
    with ⟨hend, -⟩ | ⟨c, w₁, t, hland, hmoves⟩
  · cases hend
  · cases hmoves with
    | lowest => rfl
    | here => rfl
    | above => rfl
    | enter => rfl
    | alloc _ habsent _ _ =>
      -- The walk of the new address would end at the absent entry.
      rw [hland.pageAfter_eq hpos, PageTables.leafAt,
        hland.meets.walkEnd_eq (lt_of_lt_of_le hpos hland.low) (radix_child_absent habsent),
        if_neg (by simp [habsent])] at hleaf
      cases hleaf

theorem lowerLevel_le (size level : Nat) : lowerLevel size level ≤ level := by
  induction level with
  | zero => exact le_rfl
  | succ level ih =>
    rw [lowerLevel]
    split
    · exact le_succ_of_le ih
    · exact le_rfl

section rounds

variable (hun : Unmappable p s₀ root range)
include hun

theorem Unmapped.ahead (h : Unmapped p s₀ s root range e count) (hle : e ≤ v)
    (hlt : v < range.front + range.size) : walkEnd p s root v = walkEnd p s₀ root v ∧
      ∃ leaf, s.leafAt p root v = some leaf := by
  have hfront := h.le
  have hmapped := hun.mapped v (by omega) hlt
  rw [ne_eq, ← leafAt_eq_none] at hmapped
  obtain ⟨leaf, hleaf⟩ := Option.ne_none_iff_exists'.mp hmapped
  have hsame := h.others v (hun.canonical v (by omega) hlt) (.inr hle)
  rw [hleaf] at hsame
  exact ⟨(walkEnd_of_leafAt hsame).1.trans (walkEnd_of_leafAt hleaf).1.symm, leaf, hsame⟩

/-- An entry of the range is cleared, and a table has lost a reference. -/
theorem Unmapped.clear {s₁ : PageTables} {u : Nat} (h : Unmapped p s₀ s root range e count)
    (hwf : WellFormed p s root) (hu : Meets p s root e level u)
    (hclean : CleanRound p s₀ root range level e count) (hpos : 0 < level)
    (hlt : e < range.front + range.size) (ht : s₀.isTable t = true) (hold : s₁.refcount t = count t)
    (hentries : s₁.entries = (s.setEntry u (virtToPtIndex e level) 0).entries)
    (htables : s₁.isTable = s.isTable)
    (hcounts : ∀ u, s.isTable u = true → s₁.refcount u = s.refcount u) :
    Unmapped p s₀ { s₁ with refcount := update s₁.refcount t (s₁.refcount t - 1) } root range
      (e + pageSizeAtLevel level) (update count t (count t - 1)) := by
  have hnew := radix_child_zero p root level
  have hle := h.le
  have hroom := hclean.room
  have hleaf : ∀ v,
      ({ s₁ with refcount := update s₁.refcount t (s₁.refcount t - 1) } : PageTables).leafAt p root v =
        (s.setEntry u (virtToPtIndex e level) 0).leafAt p root v := by
    intro v
    rw [PageTables.leafAt, PageTables.leafAt, walkEnd, walkEnd, hentries]
  have hout : ∀ v, Canonical p v → (v < e ∨ e + pageSizeAtLevel level ≤ v) →
      (s.setEntry u (virtToPtIndex e level) 0).leafAt p root v = s.leafAt p root v := by
    intro v hv
    exact leafAt_put_out hwf hu hnew hclean.align hpos hv (hun.canonical e hle hlt)
  refine ⟨by omega, fun hm => h.meets ?_, fun v hv hve => ?_, fun v hv hve => ?_, htables.trans h.isTable,
    fun x hx => ?_⟩
  · rw [Meets, hentries] at hm
    exact Meets.of_put hwf hu hnew hm
  · rw [hleaf]
    rcases lt_or_ge v e with hbefore | hafter
    · rw [hout v (hun.canonical v hv (by omega)) (.inl hbefore)]
      exact h.gone v hv hbefore
    · exact leafAt_put_in hwf hu hnew hclean.align hpos ⟨hafter, hve⟩
  · rw [hleaf, hout v hv (by omega)]
    exact h.others v hv (by omega)
  · show update s₁.refcount t (s₁.refcount t - 1) x = update count t (count t - 1) x
    rw [hold]
    rcases eq_or_ne x t with rfl | hne
    · rw [update_self, update_self]
    · rw [update_of_ne hne, update_of_ne hne, hcounts x (h.isTable ▸ hx), h.refcount x hx]

/-- Where the loop is: the range is unmapped up to `e`, and the walker is placed there. -/
structure UnmapAt (p : Paging) (s₀ : PageTables) (root : Nat) (range : Range) (m : MapState)
    (level e : Nat) (count : Nat → Int) : Prop where
  round : Round p s₀ root range level e count
  placed : Placed p m.s root m.w e
  unmapped : Unmapped p s₀ m.s root range e count
  hasFree : m.hasFree = true

section

variable (h : UnmapAt p s₀ root range m level e count) (hlt : e < range.front + range.size)
include h hlt

theorem UnmapAt.level_eq : m.w.level = (walkEnd p s₀ root e).1 := by
  rw [h.placed.toStands.level_eq_stop, (h.unmapped.ahead hun le_rfl hlt).1]

/-- **A clean round takes its part of the range out.** -/
theorem UnmapAt.clear {goesOn : Bool} {virt mapSize : Nat}
    (hret : m.unmapEntry p opts unmap fuel level virt mapSize = .ok (goesOn, m')) :
    m'.hasFree = true ∧ Placed p m'.s root { m'.w with level := level } e ∧
      ∃ t, Meets p s₀ root e (walkEnd p s₀ root e).1 t ∧
        Unmapped p s₀ m'.s root range (e + pageSizeAtLevel level) (update count t (count t - 1)) := by
  have hclean := hun.clean h.round
  have hlevel := h.level_eq hun hlt
  have hlow : m.w.level ≤ level := hlevel ▸ hclean.low
  have hpos : 0 < level := lt_of_lt_of_le h.placed.pos hlow
  have hwf := h.placed.wellFormed
  rw [unmapEntry, if_neg (not_lt.mpr hlow), bind_eq_ok] at hret
  obtain ⟨m₁, hclear, hret⟩ := hret
  obtain ⟨_, hderef, hret⟩ := bind_eq_ok.mp hret
  cases hret
  obtain ⟨hw₁, hfree₁, s₁, hwrite, hentries, hpool, htables, hcounts⟩ := clearEntry_tables hclear
  -- The entry is one of a table that the walker holds.
  have hle : level ≤ p.pgtGetTopLevel := by
    by_contra hhigh
    rw [(h.placed.above level (by omega)).1] at hwrite
    cases hwrite
  obtain ⟨u, hu, hmeets⟩ := h.placed.path level hlow hle
  rw [hu, h.placed.indices level hlow hle, PageTables.pteWrite, if_pos (virtToPtIndex_lt e level)]
    at hwrite
  cases hwrite
  -- The table at the walker's level loses a reference, which is not its last one.
  obtain ⟨t, ht, hmeets'⟩ := h.placed.path m.w.level le_rfl h.placed.le
  have hmeets₀ := h.unmapped.meets hmeets'
  rw [hlevel] at hmeets₀
  have hmarked := hun.marked hmeets₀
  have hold : m₁.s.refcount t = count t :=
    (hcounts t (h.unmapped.isTable ▸ hmarked)).trans (h.unmapped.refcount t hmarked)
  have hcount : m₁.s.refcount t ≠ 1 := hold ▸ hclean.counted t hmeets₀
  have htop : m₁.w.level ≤ m₁.w.topLevel := by
    rw [hw₁, h.placed.top]
    exact h.placed.le
  obtain ⟨hw₂, hfree₂, hs₂⟩ := derefFromLevel_tables (by rw [hw₁, ht]) htop hcount hderef
  have hplaced : Placed p m'.s root { m'.w with level := level } e := by
    rw [hs₂, hw₂, hw₁]
    exact (h.placed.clear hlow hmeets).of_entries hentries hpool
  refine ⟨hfree₂.trans (hfree₁.trans h.hasFree), hplaced, t, hmeets₀, ?_⟩
  rw [hs₂]
  exact h.unmapped.clear hun hwf hmeets hclean hpos hlt hmarked hold hentries htables hcounts

end

/-- The walker moves on to the next round. -/
theorem Round.moves {s₁ s₂ : PageTables} {count' : Nat → Int}
    (hround : Round p s₀ root range level e count)
    (hnext : Round p s₀ root range
      (lowerLevel (range.front + range.size - (e + pageSizeAtLevel level)) level)
      (e + pageSizeAtLevel level) count')
    (hlt : e + pageSizeAtLevel level < range.front + range.size)
    (hplaced : Placed p s₁ root { w with level := level } e)
    (hunmapped : Unmapped p s₀ s₁ root range (e + pageSizeAtLevel level) count')
    (hret : ({ w with level := level } : PtWalker).next p s₁ = .ok (.ok, w', s₂)) :
    s₂ = s₁ ∧ Placed p s₁ root w' (e + pageSizeAtLevel level) := by
  have halign := (hun.clean hround).align
  obtain ⟨hwalk, leaf, hleaf⟩ := hunmapped.ahead hun le_rfl hlt
  have hafter := pageAfter_of_dvd halign
  have hpos : level ≠ PTWALKER_DONE := ne_of_gt hplaced.pos
  rw [PtWalker.next, if_neg hpos] at hret
  -- The page at the next address is not larger than the next entry, which is not larger than this one.
  have hlow := le_trans (hun.clean hnext).low (lowerLevel_le _ level)
  have hclean : CleanNext p root ⟨s₁, { w with level := level }, e⟩ level := by
    refine ⟨fun c _ _ hstop => ?_, fun _ _ _ _ => rfl⟩
    rw [hafter, hwalk]
    exact ⟨hlow, fun k hk hk' => virtToPtIndex_of_dvd halign hk' (by omega)⟩
  obtain rfl := hplaced.next_present (hafter ▸ hleaf) hret
  have hnew := hplaced.next hclean hret
  rw [hafter] at hnew
  exact ⟨rfl, hnew⟩

/-- **The loop takes out the rest of the range.** -/
theorem unmapLoop_ends (hat : UnmapAt p s₀ root range m level (range.front + off) count)
    (hoff : off < range.size)
    (hret : unmapLoop p opts unmap range fuel m level off = .ok (true, m')) :
    ∃ count', Unmapped p s₀ m'.s root range (range.front + range.size) count' := by
  induction fuel generalizing m level off count with
  | zero => cases hret
  | succ fuel ih =>
    have hlt : range.front + off < range.front + range.size := by omega
    have hroom := (hun.clean hat.round).room
    rw [unmapLoop, bind_eq_ok] at hret
    obtain ⟨noLarge, -, hret⟩ := hret
    split at hret
    · cases hret
    obtain ⟨⟨goesOn, m₁⟩, hentry, hret⟩ := bind_eq_ok.mp hret
    obtain ⟨hfree, hplaced, t, ht, hunmapped⟩ := hat.clear hun hlt hentry
    cases goesOn with
    | false => cases hret
    | true =>
      simp only at hret
      split at hret
      case isTrue hend =>
        cases hret
        rw [add_assoc, hend] at hunmapped
        exact ⟨_, hunmapped⟩
      case isFalse hmore =>
        obtain ⟨⟨r, w', s₂⟩, hnext, hret⟩ := bind_eq_ok.mp hret
        cases r with
        | reachedEnd => cases hret
        | allocFail => cases hret
        | badIncr => cases hret
        | ok =>
          have hlt' : range.front + off + pageSizeAtLevel level < range.front + range.size := by omega
          have hround := Round.next hat.round hlt' ht
          obtain ⟨rfl, hplaced'⟩ := hat.round.moves hun hround hlt' hplaced hunmapped hnext
          have hlast := (hun.canonical (range.front + range.size - 1) (by omega) (by omega)).lt
          have hsize := pageSizeAtLevel_pos level
          have hmod : (range.size + U64 - (off + pageSizeAtLevel level)) % U64 =
              range.front + range.size - (range.front + (off + pageSizeAtLevel level)) := by
            rw [show range.size + U64 - (off + pageSizeAtLevel level) =
              range.front + range.size - (range.front + (off + pageSizeAtLevel level)) + U64 by omega,
              add_mod_right]
            exact mod_eq_of_lt (by omega)
          rw [hmod] at hret
          have hat' : UnmapAt p s₀ root range { m₁ with w := w', s := m₁.s } _ _ _ :=
            ⟨hround, hplaced', hunmapped, hfree⟩
          exact ih (add_assoc range.front off _ ▸ hat') (by omega) hret

end rounds

/--
Two pages of 2 MiB, each in a table of its own, and one of 1 GiB beside these tables: what three
calls of `pgmap_at` make of an empty root.
-/
@[irreducible]
def gigabyte : PageTables :=
  let opts : PgmapOptions := ⟨3, 12, false, false, false⟩
  let calls : Result (Bool × PageTables) := do
    let (_, s) ← pgmapAt ⟨false, true⟩ opts 10 emptyRoot 0x1000 ⟨0x200000, 0x200000⟩ 0x80000000
    let (_, s) ← pgmapAt ⟨false, true⟩ opts 10 s 0x1000 ⟨0x400000, 0x200000⟩ 0xc0000000
    pgmapAt ⟨false, true⟩ opts 10 s 0x1000 ⟨0x40000000, 0x40000000⟩ 0x40000000
  (calls.toOption.getD (false, emptyRoot)).2

/-- The tables that the entries name. -/
theorem gigabyte_child :
    (∀ i < 512, (Paging.radix ⟨false, true⟩ 0x1000).child 4 (gigabyte.entries 0x1000 i) =
      if i = 0 then some 0x2000 else none) ∧
    (∀ i < 512, (Paging.radix ⟨false, true⟩ 0x1000).child 3 (gigabyte.entries 0x2000 i) =
      if i = 2 then some 0x3000 else if i = 3 then some 0x4000 else none) ∧
    ∀ t ∈ [0x3000, 0x4000], ∀ i < 512,
      (Paging.radix ⟨false, true⟩ 0x1000).child 2 (gigabyte.entries t i) = none := by
  decide +kernel

theorem gigabyte_path {ix : Nat → Nat}
    (hp : (Paging.radix ⟨false, true⟩ 0x1000).Path gigabyte.entries ix k t) :
    (k = 4 ∧ t = 0x1000) ∨ (k = 3 ∧ t = 0x2000 ∧ ix 4 = 0) ∨
      (k = 2 ∧ ix 4 = 0 ∧ (t = 0x3000 ∧ ix 3 = 2 ∨ t = 0x4000 ∧ ix 3 = 3)) := by
  obtain ⟨hroot, hmid, hlow⟩ := gigabyte_child
  induction hp with
  | root => exact .inl ⟨rfl, rfl⟩
  | @down k t t' _ hix hc ih =>
    rcases ih with ⟨hk, rfl⟩ | ⟨hk, rfl, hzero⟩ | ⟨hk, -, ht⟩
    · obtain rfl : k = 3 := by omega
      rw [hroot _ hix] at hc
      split at hc
      case isTrue hzero =>
        cases hc
        exact .inr (.inl ⟨rfl, rfl, hzero⟩)
      case isFalse => cases hc
    · obtain rfl : k = 2 := by omega
      rw [hmid _ hix] at hc
      split_ifs at hc with htwo hthree
      · cases hc
        exact .inr (.inr ⟨rfl, hzero, .inl ⟨rfl, htwo⟩⟩)
      · cases hc
        exact .inr (.inr ⟨rfl, hzero, .inr ⟨rfl, hthree⟩⟩)
    · obtain rfl : k = 1 := by omega
      rw [hlow t (by simp only [List.mem_cons]; omega) _ hix] at hc
      cases hc

theorem gigabyte_wellFormed : WellFormed ⟨false, true⟩ gigabyte 0x1000 := by
  have hpool : gigabyte.pool = [] := by decide +kernel
  refine ⟨⟨fun hp hp' => ?_, fun hp hp' j hj hle => ?_⟩, ?_, ?_, ?_⟩
  · have := gigabyte_path hp
    have := gigabyte_path hp'
    omega
  · change j ≤ 4 at hle
    have := gigabyte_path hp
    have := gigabyte_path hp'
    obtain rfl | rfl : j = 3 ∨ j = 4 := by omega
    · omega
    · omega
  · simp [hpool]
  · simp [hpool]
  · simp [hpool]

theorem gigabyte_walkEnd (hle : 0x40000000 ≤ v) (hlt : v < 0x80000000) :
    Meets ⟨false, true⟩ gigabyte 0x1000 v 3 0x2000 ∧
      walkEnd ⟨false, true⟩ gigabyte 0x1000 v = (3, 0x40000083) := by
  have hfour : virtToPtIndex v 4 = 0 := by
    rw [virtToPtIndex_eq, show pageSizeAtLevel 4 = 0x8000000000 from rfl, div_eq_of_lt (by omega), zero_mod]
  have hthree : virtToPtIndex v 3 = 1 := by
    rw [virtToPtIndex_eq, show pageSizeAtLevel 3 = 0x40000000 from rfl,
      show v / 0x40000000 = 1 by omega]
    rfl
  have hmeets : Meets ⟨false, true⟩ gigabyte 0x1000 v 3 0x2000 := by
    refine .down .root (virtToPtIndex_lt v 4) ?_
    exact (gigabyte_child.1 _ (virtToPtIndex_lt v 4)).trans (if_pos hfour)
  have hend := gigabyte_child.2.1 1 (by decide)
  refine ⟨hmeets, ?_⟩
  rw [hmeets.walkEnd_eq (by decide) (by rw [hthree]; exact hend), hthree]
  decide +kernel

/-- There is one round. -/
theorem gigabyte_round
    (h : Round ⟨false, true⟩ gigabyte 0x1000 ⟨0x40000000, 0x40000000⟩ level e count) :
    level = 3 ∧ e = 0x40000000 ∧ count = gigabyte.refcount := by
  induction h with
  | @first w hw =>
    have hplaced := createForPagemap_placed gigabyte_wellFormed hw
    have hlevel := hplaced.toStands.level_eq_stop
    rw [(gigabyte_walkEnd le_rfl (by decide)).2] at hlevel
    rw [unmapLevel, hlevel, hplaced.top]
    exact ⟨by decide, rfl, rfl⟩
  | next _ hlt _ ih =>
    obtain ⟨rfl, rfl, -⟩ := ih
    cases (by decide : ¬ 0x40000000 + pageSizeAtLevel 3 < 0x40000000 + 0x40000000) hlt

theorem gigabyte_unmappable :
    Unmappable ⟨false, true⟩ gigabyte 0x1000 ⟨0x40000000, 0x40000000⟩ where
  nonempty := by decide
  canonical v _ hlt := .inl (lt_trans hlt (by decide))
  mapped v hle hlt := by
    rw [ne_eq, ← leafAt_eq_none, PageTables.leafAt, (gigabyte_walkEnd hle hlt).2]
    decide
  marked hmeets := by
    have htables : ∀ t ∈ [0x1000, 0x2000, 0x3000, 0x4000], gigabyte.isTable t = true := by
      decide +kernel
    have := gigabyte_path hmeets
    exact htables _ (by simp only [List.mem_cons]; omega)
  clean hround := by
    obtain ⟨rfl, rfl, rfl⟩ := gigabyte_round hround
    obtain ⟨hmeets, hwalk⟩ := gigabyte_walkEnd le_rfl (by decide)
    refine ⟨by rw [hwalk], by decide, by decide, fun t ht => ?_⟩
    rw [hwalk] at ht
    rw [ht.unique hmeets]
    decide +kernel

end OsKernel.Mm
