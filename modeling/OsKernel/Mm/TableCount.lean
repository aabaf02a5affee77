import OsKernel.Mm.MapLeaf
import OsKernel.Mm.WalkerFail

/-!
# The counts of page tables

`table.refcount` of a page table is meant to count its entries, so that the table can be
given back when the last of them is cleared. Linking a table counts it in its parent.
Writing a page does not: nothing in `pgmap_at` counts the entries that map memory, and so
the count of a table stays below the number of its entries from the first page on.

To see this for every call on empty tables one has to know that the walker only ever comes
to entries that are still empty. `Ahead` says so: of each table that the walker holds, the
entries behind its index are zero. Filling in tables keeps this, writing the entry at the
index moves it on by one, and moving on finds an empty entry and goes no further down.
-/

namespace OsKernel.Mm

open PtWalker
open Function PageTables

variable {p : Paging} {s s' : PageTables} {root t level index : Nat} {w w' : PtWalker}

/-! ## Present entries -/

/-- The number of present entries of a table. -/
def PageTables.presentCount (s : PageTables) (t : Nat) : Nat :=
  ((Finset.range PGT_PTE_COUNT).filter fun i => pteIsPresent (s.entries t i) = true).card

theorem presentCount_congr (h : ∀ i, s'.entries t i = s.entries t i) :
    s'.presentCount t = s.presentCount t := by
  simp only [presentCount, h]

theorem presentCount_succ {i : Nat} (hi : i < PGT_PTE_COUNT)
    (hold : pteIsPresent (s.entries t i) = false) (hnew : pteIsPresent (s'.entries t i) = true)
    (hother : ∀ j, j ≠ i → s'.entries t j = s.entries t j) :
    s'.presentCount t = s.presentCount t + 1 := by
  have hinsert : ((Finset.range PGT_PTE_COUNT).filter fun j => pteIsPresent (s'.entries t j) = true) =
      insert i ((Finset.range PGT_PTE_COUNT).filter fun j => pteIsPresent (s.entries t j) = true) := by
    ext j
    by_cases hj : j = i
    · subst hj
      simp [hi, hnew]
    · simp [hj, hother j hj]
  rw [presentCount, presentCount, hinsert, Finset.card_insert_of_notMem]
  simp [hold]

/-! ## Counts against entries -/

/-- No count of a table but the root is higher than its entries, and new tables are no tables yet. -/
structure CountsLow (s : PageTables) (root : Nat) : Prop where
  nodup : s.pool.Nodup
  unmarked : ∀ f ∈ s.pool, s.isTable f = false
  low : ∀ t, t ≠ root → s.isTable t = true → s.refcount t ≤ s.presentCount t

/-- Some table other than the root has more entries than its count says. -/
def Undercounted (s : PageTables) (root : Nat) : Prop :=
  ∃ t, t ≠ root ∧ s.isTable t = true ∧ s.refcount t < s.presentCount t

section link

variable {i f : Nat} {rest : List Nat} (hpool : s.pool = f :: rest) (hlow : CountsLow s root)
  (ht : s.isTable t = true)
include hpool hlow ht

theorem CountsLow.ne_table : f ≠ t := by
  intro heq
  have hf := hlow.unmarked f (by rw [hpool]; exact List.mem_cons_self)
  rw [heq, ht] at hf
  cases hf

variable (hi : i < PGT_PTE_COUNT) (hzero : s.entries t i = 0)
include hi hzero

omit hpool hlow in
/-- Linking a table into an empty entry counts it in the table it is linked into. -/
theorem linkTable_balance (rest : List Nat) {u : Nat} (hu : u ≠ f) :
    (s.linkTable t i f rest true).refcount u + s.presentCount u =
      s.refcount u + (s.linkTable t i f rest true).presentCount u := by
  by_cases hut : u = t
  · subst hut
    have hsucc : (s.linkTable u i f rest true).presentCount u = s.presentCount u + 1 := by
      refine presentCount_succ hi (by rw [hzero]; decide) ?_ fun j hj => ?_
      · rw [show (s.linkTable u i f rest true).entries u i = f ||| PGT_FLAGS from
          linkEntries_at s.entries u i f]
        exact pteIsPresent_table f
      · exact linkEntries_other hu fun hat => hj hat.2
    have hcount : (s.linkTable u i f rest true).refcount u = s.refcount u + 1 := by
      simp [linkTable, update_of_ne hu]
    rw [hsucc, hcount]
    push_cast
    ring
  · have hsame : (s.linkTable t i f rest true).presentCount u = s.presentCount u :=
      presentCount_congr fun j => linkEntries_other hu fun hat => hut hat.1
    have hcount : (s.linkTable t i f rest true).refcount u = s.refcount u := by
      simp [linkTable, update_of_ne hu, update_of_ne hut]
    rw [hsame, hcount]

theorem CountsLow.link : CountsLow (s.linkTable t i f rest true) root where
  nodup := (List.nodup_cons.mp (hpool ▸ hlow.nodup)).2
  unmarked g hg := by
    have hgf : g ≠ f := fun heq => (List.nodup_cons.mp (hpool ▸ hlow.nodup)).1 (heq ▸ hg)
    rw [show (s.linkTable t i f rest true).isTable g = s.isTable g from update_of_ne hgf _ _]
    exact hlow.unmarked g (by rw [hpool]; exact List.mem_cons_of_mem _ hg)
  low u hroot hu := by
    have hne := hlow.ne_table hpool ht
    by_cases huf : u = f
    · -- the new table is empty and has an empty count
      subst huf
      rw [linkTable_refcount_new hne]
      exact Int.natCast_nonneg _
    · have hbalance := linkTable_balance ht hi hzero rest huf
      rw [show (s.linkTable t i f rest true).isTable u = s.isTable u from
        update_of_ne huf _ _] at hu
      have := hlow.low u hroot hu
      omega

theorem Undercounted.link (h : Undercounted s root) :
    Undercounted (s.linkTable t i f rest true) root := by
  obtain ⟨u, hroot, hu, hlt⟩ := h
  have huf : u ≠ f := (hlow.ne_table hpool hu).symm
  have hbalance := linkTable_balance ht hi hzero rest huf
  refine ⟨u, hroot, (update_of_ne huf _ _).trans hu, ?_⟩
  omega

end link

theorem setEntry_refcount (i value u : Nat) :
    (s.setEntry t i value).refcount u = s.refcount u := rfl

section write

variable {i value : Nat} (hi : i < PGT_PTE_COUNT) (hzero : s.entries t i = 0)
  (hvalue : pteIsPresent value = true)
include hi hzero hvalue

theorem presentCount_setEntry (u : Nat) :
    (s.setEntry t i value).presentCount u = s.presentCount u + if u = t then 1 else 0 := by
  by_cases hut : u = t
  · subst hut
    rw [if_pos rfl]
    refine presentCount_succ hi (by rw [hzero]; decide) ?_ fun j hj => ?_
    · rw [setEntry_at]
      exact hvalue
    · exact setEntry_other fun hat => hj hat.2
  · rw [if_neg hut, add_zero]
    exact presentCount_congr fun j => setEntry_other fun hat => hut hat.1

theorem CountsLow.write (hlow : CountsLow s root) : CountsLow (s.setEntry t i value) root where
  nodup := hlow.nodup
  unmarked := hlow.unmarked
  low u hroot hu := by
    have hle : s.refcount u ≤ s.presentCount u := hlow.low u hroot hu
    rw [presentCount_setEntry hi hzero hvalue, setEntry_refcount]
    split
    · omega
    · omega

theorem CountsLow.undercounted (hlow : CountsLow s root) (hroot : t ≠ root) (ht : s.isTable t = true) :
    Undercounted (s.setEntry t i value) root := by
  refine ⟨t, hroot, ht, ?_⟩
  have hle := hlow.low t hroot ht
  rw [presentCount_setEntry hi hzero hvalue, if_pos rfl, setEntry_refcount]
  omega

end write

/-! ## The entries ahead of a walker -/

/--
The walker holds the root's tables from `level` up. In the table of `level` the entries from `index`
on are empty, and in those above the entries behind the walker's.
-/
structure Ahead (s : PageTables) (root : Nat) (w : PtWalker) (level index : Nat) : Prop where
  counts : CountsLow s root
  pos : 0 < level
  le : level ≤ w.topLevel
  /-- There are levels without pages above the large ones. -/
  top : 3 < w.topLevel
  held : Holds w s level
  marked : ∀ k t, level ≤ k → k ≤ w.topLevel → w.tables k = some t → s.isTable t = true
  root : w.tables w.topLevel = some root
  here : ∀ t i, w.tables level = some t → index ≤ i → i < PGT_PTE_COUNT → s.entries t i = 0
  above : ∀ k t i, level < k → k ≤ w.topLevel → w.tables k = some t → w.indices k < i →
    i < PGT_PTE_COUNT → s.entries t i = 0

section

variable (h : Ahead s root w level index)
include h

theorem Ahead.table :
    ∃ t, w.tables level = some t ∧ s.isTable t = true := by
  obtain ⟨t, ht, -⟩ := h.held.table level le_rfl h.le
  exact ⟨t, ht, h.marked level t le_rfl h.le ht⟩

theorem Ahead.ne_root (hlt : level < w.topLevel) (ht : w.tables level = some t) : t ≠ root := by
  intro heq
  have := h.held.inj level w.topLevel root le_rfl h.le h.le le_rfl (heq ▸ ht) h.root
  omega

theorem Ahead.congr (htop : w'.topLevel = w.topLevel)
    (htables : ∀ k, level ≤ k → w'.tables k = w.tables k)
    (hindices : ∀ k, level < k → w'.indices k = w.indices k) : Ahead s root w' level index where
  counts := h.counts
  pos := h.pos
  le := htop ▸ h.le
  top := htop ▸ h.top
  held :=
    { table := fun k hk hle => htables k hk ▸ h.held.table k hk (htop ▸ hle)
      inj := fun k k' t hk hk' hle hle' ht ht' => h.held.inj k k' t hk hk' (htop ▸ hle) (htop ▸ hle')
        (htables k hk ▸ ht) (htables k' hk' ▸ ht') }
  marked k t hk hle ht := h.marked k t hk (htop ▸ hle) (htables k hk ▸ ht)
  root := by
    rw [htop, htables _ h.le]
    exact h.root
  here t i ht := h.here t i (htables level le_rfl ▸ ht)
  above k t i hk hle ht hi := h.above k t i hk (htop ▸ hle) (htables k (le_of_lt hk) ▸ ht)
    (hindices k hk ▸ hi)

theorem Ahead.raise {c : Nat} (hlt : level < c) (hle : c ≤ w.topLevel) :
    Ahead s root w c (w.indices c + 1) where
  counts := h.counts
  pos := by omega
  le := hle
  top := h.top
  held :=
    { table := fun k hk => h.held.table k (by omega)
      inj := fun k k' t hk hk' => h.held.inj k k' t (by omega) (by omega) }
  marked k t hk := h.marked k t (by omega)
  root := h.root
  here t i ht hi := h.above c t i hlt hle ht hi
  above k t i hk := h.above k t i (by omega)

end

/-! ## What the steps of a mapping keep -/

theorem Ahead.link {n f : Nat} {rest : List Nat} (h : Ahead s root w (n + 2) (w.indices (n + 2)))
    (hn : 0 < n + 1) (hpool : s.pool = f :: rest) (ht : w.tables (n + 2) = some t)
    (hidx : w.indices (n + 2) < PGT_PTE_COUNT) :
    Ahead (s.linkTable t (w.indices (n + 2)) f rest true) root (w.setTable (n + 1) (some f)) (n + 1)
        (w.indices (n + 1)) ∧
      (Undercounted s root → Undercounted (s.linkTable t (w.indices (n + 2)) f rest true) root) := by
  have hmark := h.marked (n + 2) t le_rfl h.le ht
  have hzero := h.here t _ ht le_rfl hidx
  have hne := h.counts.ne_table hpool hmark
  have hle := h.le
  have hold : ∀ k u, n + 2 ≤ k → k ≤ w.topLevel → w.tables k = some u → u ≠ f :=
    fun k u hk hkle hu => (h.counts.ne_table hpool (h.marked k u hk hkle hu)).symm
  have htables : ∀ k, n + 2 ≤ k → (w.setTable (n + 1) (some f)).tables k = w.tables k :=
    fun k hk => update_of_ne (by omega) _ _
  have hself : (w.setTable (n + 1) (some f)).tables (n + 1) = some f := update_self _ _ _
  refine ⟨?_, fun hunder => hunder.link hpool h.counts hmark hidx hzero⟩
  exact
    { counts := h.counts.link hpool hmark hidx hzero
      pos := hn
      le := by
        change n + 1 ≤ w.topLevel
        omega
      top := h.top
      held := h.held.link hpool h.counts.nodup rfl
      marked := fun k u hk hkle hu => by
        rcases lt_or_eq_of_le hk with hlt | rfl
        · rw [htables k hlt] at hu
          exact (update_of_ne (hold k u hlt hkle hu) _ _).trans (h.marked k u hlt hkle hu)
        · rw [← Option.some.inj (hself.symm.trans hu)]
          exact update_self _ _ _
      root := by
        change (w.setTable (n + 1) (some f)).tables w.topLevel = some root
        rw [htables _ hle]
        exact h.root
      here := fun u i hu _ _ => by
        rw [← Option.some.inj (hself.symm.trans hu)]
        exact linkTable_new hne _ _ _ _
      above := fun k u i hk hkle hu hi hlt => by
        rw [htables k hk] at hu
        have hother : ¬ (u = t ∧ i = w.indices (n + 2)) := by
          intro hat
          obtain ⟨rfl, rfl⟩ := hat
          obtain rfl := h.held.inj k (n + 2) u hk le_rfl hkle hle hu ht
          exact lt_irrefl _ hi
        rw [show (s.linkTable t (w.indices (n + 2)) f rest true).entries u i = s.entries u i from
          linkEntries_other (hold k u hk hkle hu) hother]
        rcases Nat.lt_or_eq_of_le hk with hlt' | rfl
        · exact h.above k u i hlt' hkle hu hi hlt
        · exact h.here u i hu (Nat.le_of_lt hi) hlt }

theorem Ahead.allocLoop {n lastLevel : Nat} (h : Ahead s root w (n + 1) (w.indices (n + 1)))
    (hlast : 0 < lastLevel) (hle : lastLevel ≤ n)
    (hret : PtWalker.allocLoop lastLevel true true n w s = .ok (.ok, w', s')) :
    w'.level = lastLevel ∧ Ahead s' root w' lastLevel (w'.indices lastLevel) ∧
      (Undercounted s root → Undercounted s' root) := by
  induction n generalizing w s with
  | zero => cases hret
  | succ n ih =>
    obtain ⟨t, ht, -⟩ := h.table
    obtain ⟨f, rest, hpool, hidx, href⟩ := allocLoop_pool ht hret
    rw [allocLoop_succ hpool ht hidx href] at hret
    obtain ⟨hahead, hunder⟩ := h.link (Nat.succ_pos n) hpool ht hidx
    simp only [Bool.not_true, Bool.and_false, Bool.false_or, decide_eq_true_eq] at hret
    split at hret
    · cases hret
      obtain rfl : lastLevel = n + 1 := by omega
      exact ⟨rfl, hahead.congr rfl (fun _ _ => rfl) (fun _ _ => rfl), hunder⟩
    · obtain ⟨hlevel, hahead', hunder'⟩ := ih hahead (by omega) hret
      exact ⟨hlevel, hahead', fun hu => hunder' (hunder hu)⟩

theorem Ahead.write {value : Nat} (h : Ahead s root w level index) (hlt : level < w.topLevel)
    (hvalue : pteIsPresent value = true)
    (hret : s.pteWrite (w.tables level) index value = .ok s') :
    Ahead s' root w level (index + 1) ∧ Undercounted s' root := by
  obtain ⟨t, ht, hmark⟩ := h.table
  rw [ht, pteWrite] at hret
  split at hret
  case isFalse => cases hret
  case isTrue hidx =>
    cases hret
    have hzero := h.here t index ht le_rfl hidx
    refine ⟨?_, h.counts.undercounted hidx hzero hvalue (h.ne_root hlt ht) hmark⟩
    refine { h with counts := h.counts.write hidx hzero hvalue, held := ⟨h.held.table, h.held.inj⟩,
                    here := fun u i hu hi hilt => ?_, above := fun k u i hk hkle hu hi hilt => ?_ }
    · rw [setEntry_other fun hat => by omega]
      exact h.here u i hu (by omega) hilt
    · rw [setEntry_other fun hat => ?_]
      · exact h.above k u i hk hkle hu hi hilt
      · have := h.held.inj k level t (by omega) le_rfl hkle h.le (hat.1 ▸ hu) ht
        omega

theorem pteRead_eq_ok {table : Option Nat} {entry : Nat} (h : s.pteRead table index = .ok entry) :
    ∃ t, table = some t ∧ index < PGT_PTE_COUNT ∧ entry = s.entries t index := by
  cases table with
  | none => cases h
  | some t =>
    rw [pteRead] at h
    split at h
    case isTrue hidx =>
      cases h
      exact ⟨t, rfl, hidx, rfl⟩
    case isFalse => cases h

/-- Where a walker lands that has carried its index: at an empty entry, with nothing below. -/
structure LandsEmpty (w : PtWalker) (level c : Nat) (w' : PtWalker) : Prop where
  lt : level < c
  le : c ≤ w.topLevel
  top : w'.topLevel = w.topLevel
  tables : ∀ k, c ≤ k → w'.tables k = w.tables k
  index : w'.indices c = w.indices c + 1
  indices : ∀ k, c < k → w'.indices k = w.indices k
  zero : ∀ k, k < c → w'.indices k = 0

theorem carry_lands {fuel : Nat} {r : Carried} (hpos : 0 < level)
    (habove : ∀ k t i, level < k → k ≤ w.topLevel → w.tables k = some t → w.indices k < i →
      i < PGT_PTE_COUNT → s.entries t i = 0)
    (hret : carry p s fuel w level = .ok r) :
    (∃ w', r = .returned .reachedEnd w') ∨ ∃ c w', r = .absent c w' ∧ LandsEmpty w level c w' := by
  induction fuel generalizing w level with
  | zero => cases hret
  | succ fuel ih =>
    rw [carry] at hret
    split at hret
    · split at hret
      · cases hret
      · cases hret
        exact .inl ⟨_, rfl⟩
    case isFalse htop =>
      have hother : ∀ k, k ≠ level + 1 →
          (w.setIndex (level + 1) (w.indices (level + 1) + 1)).indices k = w.indices k :=
        fun k hk => setIndex_of_ne hk
      dsimp only at hret
      split at hret
      · -- this index runs over as well
        have habove' : ∀ k t i, level + 1 < k → k ≤ w.topLevel → w.tables k = some t →
            (w.setIndex (level + 1) (w.indices (level + 1) + 1)).indices k < i →
            i < PGT_PTE_COUNT → s.entries t i = 0 := by
          intro k t i hk hle ht hi
          rw [hother k (by omega)] at hi
          exact habove k t i (by omega) hle ht hi
        rcases ih (Nat.succ_pos level) habove' hret with hend | ⟨c, w', rfl, hlands⟩
        · exact .inl hend
        · have hlt := hlands.lt
          refine .inr ⟨c, w', rfl, { hlands with lt := by omega, index := ?_, indices := ?_ }⟩
          · rw [hlands.index, hother c (by omega)]
          · intro k hk
            rw [hlands.indices k hk, hother k (by omega)]
      · obtain ⟨entry, hread, hret⟩ := bind_eq_ok.mp hret
        obtain ⟨t, ht, hlt, rfl⟩ := pteRead_eq_ok hread
        rw [habove (level + 1) t _ (Nat.lt_succ_self _) (by omega) ht (Nat.lt_succ_self _) hlt] at hret
        cases hret
        refine .inr ⟨level + 1, _, rfl, ?_⟩
        exact
          { lt := Nat.lt_succ_self _
            le := by omega
            top := rfl
            tables := fun k hk => if_neg (not_lt.mpr hk)
            index := (if_neg (lt_irrefl _)).trans (update_self _ _ _)
            indices := fun k hk => (if_neg (by omega)).trans (hother k (by omega))
            zero := fun k hk => if_pos hk }

/-- The walker stands at an empty entry, and all behind it is empty. -/
structure FreshAt (root : Nat) (m : MapState) : Prop where
  ahead : Ahead m.s root m.w m.w.level (m.w.indices m.w.level)
  split : m.split = some .init

/-- The entry of a level has just been written. -/
structure WrittenAt (root level : Nat) (m : MapState) : Prop where
  ahead : Ahead m.s root m.w level (m.w.indices level + 1)
  level_eq : m.w.level = level
  split : m.split = some .init
  under : Undercounted m.s root

variable {opts : PgmapOptions} {m m' : MapState}

theorem FreshAt.fillInTo (h : FreshAt root m) (hearly : opts.isInEarly = false) (hpos : 0 < level)
    (hle : level ≤ m.w.level) (hret : m.fillInTo opts level = .ok m') :
    FreshAt root m' ∧ m'.w.level = level ∧ (Undercounted m.s root → Undercounted m'.s root) := by
  obtain ⟨w, s, hfill, rfl⟩ := fillInTo_eq_ok hret
  rcases lt_or_eq_of_le hle with hlt | heq
  · obtain ⟨n, hn⟩ : ∃ n, m.w.level = n + 1 := ⟨m.w.level - 1, by omega⟩
    rw [fillInTo_eq hlt, hearly, hn, Nat.add_sub_cancel] at hfill
    obtain ⟨hlevel, hahead, hunder⟩ := (hn ▸ h.ahead).allocLoop hpos (by omega) hfill
    exact ⟨⟨hlevel.symm ▸ hahead, h.split⟩, hlevel, hunder⟩
  · rw [PtWalker.fillInTo, if_pos (le_of_eq heq.symm)] at hfill
    cases hfill
    exact ⟨h, heq.symm, fun hu => hu⟩

theorem WrittenAt.next (h : WrittenAt root level m) (hret : m.next p opts level = .ok m') :
    FreshAt root m' ∧ Undercounted m'.s root ∧
      ((m.w.indices level + 1 < PGT_PTE_COUNT ∧ m'.w.level = level ∧
          m'.w.indices level = m.w.indices level + 1) ∨
        (level < m'.w.level ∧ m'.w.indices m'.w.level ≠ 0 ∧
          ∀ k, k < m'.w.level → m'.w.indices k = 0)) := by
  obtain ⟨w, s, hnext, rfl⟩ := next_eq_ok hret
  obtain ⟨hlow, hle⟩ := nextWithOptions_level hnext (by decide)
  have hpos := h.ahead.pos
  rw [nextWithOptions, if_neg (by simp [hlow, hle]), if_neg (by omega)] at hnext
  dsimp only at hnext
  have hother : ∀ k, level < k →
      (m.w.setIndex level (m.w.indices level + 1)).indices k = m.w.indices k :=
    fun k hk => setIndex_of_ne (by omega)
  split at hnext
  case isTrue hroom =>
    -- in the same table
    have hself : (m.w.setIndex level (m.w.indices level + 1)).indices level = m.w.indices level + 1 :=
      update_self _ _ _
    have hahead : Ahead m.s root (m.w.setIndex level (m.w.indices level + 1)) level
        (m.w.indices level + 1) := h.ahead.congr rfl (fun _ _ => rfl) hother
    split at hnext
    · cases hnext
      refine ⟨⟨?_, h.split⟩, h.under, .inl ⟨hroom, h.level_eq, hself⟩⟩
      rw [show (m.w.setIndex level (m.w.indices level + 1)).level = level from h.level_eq, hself]
      exact hahead
    · obtain ⟨entry, hread, hnext⟩ := bind_eq_ok.mp hnext
      obtain ⟨t, ht, hlt, rfl⟩ := pteRead_eq_ok hread
      rw [hahead.here t _ ht le_rfl hlt] at hnext
      cases hnext
      have hself' : ((m.w.setIndex level (m.w.indices level + 1)).resetLevelsLowerThan level).indices
          level = m.w.indices level + 1 := (if_neg (lt_irrefl _)).trans hself
      refine ⟨⟨?_, h.split⟩, h.under, .inl ⟨hroom, h.level_eq, hself'⟩⟩
      rw [show ((m.w.setIndex level (m.w.indices level + 1)).resetLevelsLowerThan level).level = level
        from h.level_eq, hself']
      exact hahead.congr rfl (fun k hk => if_neg (by omega)) fun k hk => if_neg (by omega)
  case isFalse =>
    obtain ⟨r, hcarry, hnext⟩ := bind_eq_ok.mp hnext
    have habove : ∀ k t i, level < k → k ≤ m.w.topLevel → m.w.tables k = some t →
        (m.w.setIndex level (m.w.indices level + 1)).indices k < i → i < PGT_PTE_COUNT →
        m.s.entries t i = 0 := by
      intro k t i hk hkle ht hi
      rw [hother k hk] at hi
      exact h.ahead.above k t i hk hkle ht hi
    rcases carry_lands hpos habove hcarry with ⟨w', rfl⟩ | ⟨c, w', rfl, hlands⟩
    · cases hnext
    · cases hnext
      have hindex : w'.indices c = m.w.indices c + 1 := hlands.index.trans (by rw [hother c hlands.lt])
      have hahead : Ahead m.s root w' c (w'.indices c) := by
        rw [hindex]
        refine (h.ahead.raise hlands.lt hlands.le).congr hlands.top hlands.tables fun k hk => ?_
        rw [hlands.indices k hk, hother k (lt_trans hlands.lt hk)]
      exact ⟨⟨hahead.congr rfl (fun _ _ => rfl) (fun _ _ => rfl), h.split⟩, h.under,
        .inr ⟨hlands.lt, (by rw [hindex]; exact Nat.succ_ne_zero _), hlands.zero⟩⟩

end OsKernel.Mm
