import OsKernel.Mm.WalkerRuns

/-!
# When a table cannot be allocated

If `alloc_levels_down_to` gets no page, it sets the walker's level to that of the table it
wanted to link into, and `ptwalker_drop_lowest` forgets *this* table and takes a reference
off each table above it, as long as that was the last one.

So the table that was made last is never given back: it is the one that is forgotten. And
if none was made, a table that was there before loses a reference that nobody took, unless
there is no table above. What is left is the case where the table is missing right below
the root and the first allocation fails; there nothing happens at all.
-/

namespace OsKernel.Mm

open PtWalker
open Function List

/-- The operations of a walker that allocate tables. -/
inductive AllocOp where
  | fillInTo (level : Nat) (shouldRef : Bool)
  | next (level : Nat) (allocLevel shouldRef : Bool)

/-- The call. -/
def AllocOp.exec (p : Paging) (w : PtWalker) (s : PageTables) :
    AllocOp → Result (WalkerResult × PtWalker × PageTables)
  | .fillInTo level shouldRef => PtWalker.fillInTo w s level shouldRef
  | .next level allocLevel shouldRef => nextWithOptions p w s level true allocLevel shouldRef

/--
The operation links its first table into the root table: the walker is there, or its step carries
into the root table since the indices up to there are the last ones.
-/
def AllocOp.AtRoot (w : PtWalker) : AllocOp → Prop
  | .fillInTo _ _ => w.level = w.topLevel
  | .next level _ _ => ∀ k, level ≤ k → k < w.topLevel → w.indices k + 1 = PGT_PTE_COUNT

/-- The tables of `s'` are those of `s`, and what was allocated between them has been released. -/
structure Restored (p : Paging) (s s' : PageTables) (root : Nat) : Prop where
  reachable : ∀ v k t, Meets p s' root v k t ↔ Meets p s root v k t
  entries : ∀ v k t, Meets p s root v k t → s'.entries t = s.entries t
  refcount : ∀ v k t, Meets p s root v k t → s'.refcount t = s.refcount t
  /-- Each page taken from the pool is among those given back. -/
  released : ∃ taken back, s.pool = taken ++ s'.pool ∧ s'.freed = back ++ s.freed ∧
    ∀ f ∈ taken, f ∈ back

theorem Restored.refl (p : Paging) (s : PageTables) (root : Nat) : Restored p s s root where
  reachable _ _ _ := Iff.rfl
  entries _ _ _ _ := rfl
  refcount _ _ _ _ := rfl
  released := ⟨[], [], rfl, rfl, fun _ hf => hf⟩

variable {p : Paging} {s s' s₁ : PageTables} {root virt level : Nat} {w w' : PtWalker}
  {table : Option Nat}

/-! ## The tables a walker holds -/

/-- From a level up the walker holds tables, each one once, and no page of the pool. -/
structure Holds (w : PtWalker) (s : PageTables) (level : Nat) : Prop where
  table : ∀ k, level ≤ k → k ≤ w.topLevel → ∃ t, w.tables k = some t ∧ t ∉ s.pool
  inj : ∀ k k' t, level ≤ k → level ≤ k' → k ≤ w.topLevel → k' ≤ w.topLevel →
    w.tables k = some t → w.tables k' = some t → k = k'

theorem Follows.holds (h : Follows p s root w virt level) (hwf : WellFormed p s root) :
    Holds w s level where
  table k hk hle := by
    obtain ⟨t, ht, hmeets⟩ := h.path k hk (h.top ▸ hle)
    exact ⟨t, ht, fun hpool => hwf.unused t hpool _ _ hmeets⟩
  inj k k' t hk hk' hle hle' ht ht' := by
    obtain ⟨u, hu, hmeets⟩ := h.path k hk (h.top ▸ hle)
    obtain ⟨u', hu', hmeets'⟩ := h.path k' hk' (h.top ▸ hle')
    obtain rfl : t = u := Option.some.inj (ht.symm.trans hu)
    obtain rfl : t = u' := Option.some.inj (ht'.symm.trans hu')
    exact hwf.tree.level hmeets hmeets'

theorem Holds.link {f : Nat} {rest : List Nat} (h : Holds w s (level + 1))
    (hpool : s.pool = f :: rest) (hnodup : s.pool.Nodup) (hrest : s₁.pool = rest) :
    Holds (w.setTable level (some f)) s₁ level where
  table k hk hle := by
    rw [hpool] at hnodup
    rcases lt_or_eq_of_le hk with hlt | heq
    · obtain ⟨t, ht, hmem⟩ := h.table k hlt hle
      refine ⟨t, (update_of_ne (by omega) _ _).trans ht, fun hin => hmem ?_⟩
      rw [hpool]
      exact mem_cons_of_mem _ (hrest ▸ hin)
    · exact ⟨f, by simp [setTable, heq], hrest ▸ (nodup_cons.mp hnodup).1⟩
  inj k k' t hk hk' hle hle' ht ht' := by
    -- the new table comes from the pool, and the others do not
    have hnew : ∀ j, level + 1 ≤ j → j ≤ w.topLevel → w.tables j ≠ some f := by
      intro j hj hjle heq
      obtain ⟨u, hu, hmem⟩ := h.table j hj hjle
      rw [hpool] at hmem
      exact hmem (Option.some.inj (hu.symm.trans heq) ▸ mem_cons_self)
    simp only [setTable, update_apply] at ht ht'
    split at ht
    · split at ht'
      · omega
      · exact absurd (ht'.trans ht.symm) (hnew k' (by omega) hle')
    · split at ht'
      · exact absurd (ht.trans ht'.symm) (hnew k (by omega) hle)
      · exact h.inj k k' t (by omega) (by omega) hle hle' ht ht'

/-! ## Taking references off -/

/-- Only tables that the walker holds from `level` up have lost references or were given back. -/
structure Undone (w : PtWalker) (level : Nat) (s s' : PageTables) : Prop where
  pool : s'.pool = s.pool
  freed : ∃ back, s'.freed = back ++ s.freed ∧
    ∀ f ∈ back, ∃ k, level ≤ k ∧ k ≤ w.topLevel ∧ w.tables k = some f
  refcount : ∀ t, (∀ k, level ≤ k → k ≤ w.topLevel → w.tables k ≠ some t) →
    s'.refcount t = s.refcount t

theorem Undone.refl (w : PtWalker) (level : Nat) (s : PageTables) : Undone w level s s :=
  ⟨rfl, ⟨[], rfl, fun _ hf => absurd hf not_mem_nil⟩, fun _ _ => rfl⟩

/-- The table of the lowest level is given back, and then those above may be. -/
theorem Undone.cons {u : Nat} (hle : level ≤ w.topLevel) (hu : w.tables level = some u)
    (hpool : s₁.pool = s.pool) (hfreed : s₁.freed = u :: s.freed)
    (hrefs : ∀ t, t ≠ u → s₁.refcount t = s.refcount t) (h : Undone w (level + 1) s₁ s') :
    Undone w level s s' where
  pool := h.pool.trans hpool
  freed := by
    obtain ⟨back, hback, hheld⟩ := h.freed
    refine ⟨back ++ [u], by simp [hback, hfreed], fun f hf => ?_⟩
    rcases mem_append.mp hf with hf | hf
    · obtain ⟨k, hk, hkle, hkf⟩ := hheld f hf
      exact ⟨k, by omega, hkle, hkf⟩
    · exact ⟨level, le_rfl, hle, mem_singleton.mp hf ▸ hu⟩
  refcount t ht := by
    rw [h.refcount t fun k hk hkle => ht k (by omega) hkle]
    exact hrefs t fun heq => ht level le_rfl hle (heq ▸ hu)

theorem refUp_keeps (h : s.refUp table = .ok s₁) : s₁.pool = s.pool ∧ s₁.freed = s.freed := by
  cases table with
  | none => cases h
  | some t =>
    rw [refUp_ok (refUp_eq_ok h)] at h
    cases h
    exact ⟨rfl, rfl⟩

theorem pteWrite_eq_ok {index value : Nat} (h : s.pteWrite table index value = .ok s₁) :
    s₁.pool = s.pool ∧ s₁.freed = s.freed ∧ s₁.refcount = s.refcount := by
  cases table with
  | none => cases h
  | some t =>
    rw [PageTables.pteWrite] at h
    split at h
    · cases h
      exact ⟨rfl, rfl, rfl⟩
    · cases h

theorem Undone.congr {w₁ : PtWalker} (h : Undone w level s s') (htop : w₁.topLevel = w.topLevel)
    (hsame : ∀ k, level ≤ k → w₁.tables k = w.tables k) : Undone w₁ level s s' where
  pool := h.pool
  freed := by
    obtain ⟨back, hback, hheld⟩ := h.freed
    refine ⟨back, hback, fun f hf => ?_⟩
    obtain ⟨k, hk, hle, hkf⟩ := hheld f hf
    exact ⟨k, hk, htop ▸ hle, (hsame k hk).trans hkf⟩
  refcount t ht := h.refcount t fun k hk hle => hsame k hk ▸ ht k hk (htop ▸ hle)

/-- The tables from a level up are held, whatever has happened to their entries and counts. -/
theorem Holds.above (h : Holds w s level) (hpool : s₁.pool = s.pool) : Holds w s₁ (level + 1) where
  table k hk hle := by
    rw [hpool]
    exact h.table k (by omega) hle
  inj k k' t hk hk' := h.inj k k' t (by omega) (by omega)

/--
The loop of `ptwalker_deref_from_level` takes one reference off the table it starts at, and goes up
from there as long as it took the last one.
-/
theorem derefLoop_undone {fuel : Nat} (hholds : Holds w s level)
    (htable : level ≤ w.topLevel → table = w.tables level)
    (hret : derefLoop fuel w s level table = .ok (w', s')) :
    Undone w level s s' ∧ ∀ u, level ≤ w.topLevel → w.tables level = some u →
      s'.refcount u = s.refcount u - 1 := by
  induction fuel generalizing s level table with
  | zero => cases hret
  | succ fuel ih =>
    rw [derefLoop] at hret
    by_cases htop : w.topLevel < level
    · rw [if_pos htop] at hret
      cases hret
      exact ⟨.refl _ _ _, fun u hle => absurd hle (not_le.mpr htop)⟩
    · rw [if_neg htop, bind_eq_ok] at hret
      have hle := not_lt.mp htop
      obtain ⟨u, hu, -⟩ := hholds.table level le_rfl hle
      obtain rfl := (htable hle).trans hu
      obtain ⟨⟨last, s₁⟩, hdown, hret⟩ := hret
      have hs₁ := (refDown_eq_ok hdown).2
      have hother : ∀ t, t ≠ u → s₁.refcount t = s.refcount t := by
        intro t ht
        rw [hs₁]
        exact update_of_ne ht _ _
      have hself : s₁.refcount u = s.refcount u - 1 := by
        rw [hs₁]
        exact update_self _ _ _
      -- the rest of the loop does not come back to this table
      have hrest : ∀ s₂, s₂.pool = s.pool → s₂.freed = u :: s.freed → s₂.refcount = s₁.refcount →
          Undone w (level + 1) s₂ s' → Undone w level s s' ∧ ∀ v, level ≤ w.topLevel →
            w.tables level = some v → s'.refcount v = s.refcount v - 1 := by
        intro s₂ hpool hfreed hrefs hundone
        refine ⟨hundone.cons hle hu hpool hfreed (fun t ht => hrefs ▸ hother t ht), fun v _ hv => ?_⟩
        obtain rfl : u = v := Option.some.inj (hu.symm.trans hv)
        rw [hundone.refcount u fun k hk hkle hku => ?_, hrefs, hself]
        have := hholds.inj level k u le_rfl (by omega) hle hkle hu hku
        omega
      cases last with
      | false =>
        cases hret
        refine ⟨⟨by rw [hs₁], ⟨[], by rw [hs₁]; rfl, fun _ hf => absurd hf not_mem_nil⟩,
          fun t ht => hother t fun heq => ht level le_rfl hle (heq ▸ hu)⟩, fun v _ hv => ?_⟩
        rw [← Option.some.inj (hu.symm.trans hv)]
        exact hself
      | true =>
        simp only [Bool.not_true, Bool.false_eq_true, ↓reduceIte, Option.getD_some] at hret
        have hpool₁ : s₁.pool = s.pool := by rw [hs₁]
        have hfreed₁ : s₁.freed = s.freed := by rw [hs₁]
        by_cases hroot : level = w.topLevel
        · rw [if_neg (not_not.mpr hroot)] at hret
          have hpool : (s₁.freePgtable u).pool = s.pool := hpool₁
          have hup := ih (hholds.above hpool) (fun hbad => absurd hbad (by omega)) hret
          exact hrest _ hpool (congrArg (u :: ·) hfreed₁) rfl hup.1
        · rw [if_pos hroot, bind_eq_ok] at hret
          obtain ⟨s₂, hwrite, hret⟩ := hret
          obtain ⟨hpool₂, hfreed₂, hrefs₂⟩ := pteWrite_eq_ok hwrite
          have hpool : (s₂.freePgtable u).pool = s.pool := hpool₂.trans hpool₁
          have hup := ih (hholds.above hpool) (fun _ => rfl) hret
          exact hrest _ hpool (congrArg (u :: ·) (hfreed₂.trans hfreed₁)) hrefs₂ hup.1

/-- **`ptwalker_drop_lowest`** leaves the table of the walker's level, and goes on above it. -/
theorem dropLowest_undone (hholds : Holds w s w.level) (hret : dropLowest w s = .ok (w', s')) :
    Undone w (w.level + 1) s s' ∧ (w.level = w.topLevel → s' = s) ∧
      ∀ u, w.level + 1 ≤ w.topLevel → w.tables (w.level + 1) = some u →
        s'.refcount u = s.refcount u - 1 := by
  have hsame : ∀ k, w.level + 1 ≤ k →
      ((w.setTable w.level none).setIndex w.level 0).tables k = w.tables k :=
    fun k hk => update_of_ne (by omega) _ _
  rw [dropLowest, derefFromLevel] at hret
  split at hret
  case isTrue hskip =>
    simp only [Bool.or_eq_true, decide_eq_true_eq] at hskip
    change w.level + 1 < w.level ∨ w.topLevel < w.level + 1 at hskip
    cases hret
    exact ⟨.refl _ _ _, fun _ => rfl, fun u hle => absurd hle (by omega)⟩
  case isFalse hskip =>
    simp only [Bool.or_eq_true, decide_eq_true_eq] at hskip
    change ¬ (w.level + 1 < w.level ∨ w.topLevel < w.level + 1) at hskip
    have hlower : Holds ((w.setTable w.level none).setIndex w.level 0) s (w.level + 1) :=
      { table := fun k hk hle => by
          rw [hsame k hk]
          exact hholds.table k (by omega) hle
        inj := fun k k' t hk hk' hle hle' ht ht' =>
          hholds.inj k k' t (by omega) (by omega) hle hle' (hsame k hk ▸ ht) (hsame k' hk' ▸ ht') }
    obtain ⟨hundone, hcount⟩ := derefLoop_undone hlower (fun _ => rfl) hret
    exact ⟨hundone.congr rfl fun k hk => (hsame k hk).symm, fun htop => absurd htop (by omega),
      fun u hle hu => hcount u hle ((hsame _ le_rfl).trans hu)⟩

/-! ## The loop -/

variable {lastLevel : Nat} {allocLastLevel shouldRef : Bool}

theorem allocLoop_fails (hholds : Holds w s (level + 1)) (hpool : s.pool = [])
    (hret : allocLoop lastLevel allocLastLevel shouldRef level w s = .ok (.allocFail, w', s')) :
    Undone w (level + 2) s s' ∧ (level + 1 = w.topLevel → s' = s) ∧
      ∀ u, level + 2 ≤ w.topLevel → w.tables (level + 2) = some u →
        s'.refcount u = s.refcount u - 1 := by
  cases level with
  | zero => cases hret
  | succ level =>
    rw [allocLoop, PageTables.allocPgtable, hpool, bind_eq_ok] at hret
    obtain ⟨⟨w₁, s₁⟩, hdrop, hret⟩ := hret
    cases hret
    have hheld : Holds { w with level := level + 2 } s (level + 2) := ⟨hholds.table, hholds.inj⟩
    obtain ⟨hundone, hsame, hcount⟩ := dropLowest_undone hheld hdrop
    exact ⟨hundone.congr rfl fun _ _ => rfl, hsame, hcount⟩

theorem allocLoop_takes {f : Nat} {rest : List Nat} {r : WalkerResult} (hpool : s.pool = f :: rest)
    (hret : allocLoop lastLevel allocLastLevel shouldRef (level + 1) w s = .ok (r, w', s')) :
    ∃ s₁, s₁.pool = rest ∧ s₁.freed = s.freed ∧
      (r = .ok ∨ allocLoop lastLevel allocLastLevel shouldRef level (w.setTable (level + 1) (some f))
        s₁ = .ok (r, w', s')) := by
  rw [allocLoop] at hret
  simp only [PageTables.allocPgtable, hpool, bind_eq_ok] at hret
  obtain ⟨s₁, hwrite, hret⟩ := hret
  obtain ⟨hpool₁, hfreed₁, -⟩ := pteWrite_eq_ok hwrite
  obtain ⟨s₂, hpool₂, hfreed₂, hret⟩ : ∃ s₂, s₂.pool = s₁.pool ∧ s₂.freed = s₁.freed ∧
      (if (level = lastLevel && !allocLastLevel) || level < lastLevel then
        .ok (.ok, { w.setTable (level + 1) (some f) with level := level + 1 }, s₂)
      else allocLoop lastLevel allocLastLevel shouldRef level (w.setTable (level + 1) (some f)) s₂) =
        Except.ok (r, w', s') := by
    cases shouldRef with
    | false => exact ⟨s₁, rfl, rfl, hret⟩
    | true =>
      rw [if_pos rfl, bind_eq_ok] at hret
      obtain ⟨s₂, hup, hret⟩ := hret
      exact ⟨s₂, (refUp_keeps hup).1, (refUp_keeps hup).2, hret⟩
  refine ⟨s₂, hpool₂.trans hpool₁, hfreed₂.trans hfreed₁, ?_⟩
  split at hret
  · cases hret
    exact .inl rfl
  · exact .inr hret

/-- If a page was taken before the failure, the last one taken is never given back. -/
theorem allocLoop_loses (hholds : Holds w s (level + 1)) (hnodup : s.pool.Nodup)
    (hpool : s.pool ≠ [])
    (hret : allocLoop lastLevel allocLastLevel shouldRef level w s = .ok (.allocFail, w', s')) :
    ∃ f ∈ s.pool, f ∉ s'.pool ∧ ∃ back, s'.freed = back ++ s.freed ∧ f ∉ back := by
  induction level generalizing w s with
  | zero => cases hret
  | succ level ih =>
    cases hcons : s.pool with
    | nil => exact absurd hcons hpool
    | cons f rest =>
      obtain ⟨s₁, hrest, hfreed, hok | hnext⟩ := allocLoop_takes hcons hret
      · cases hok
      have hlinked : Holds (w.setTable (level + 1) (some f)) s₁ (level + 1) :=
        hholds.link hcons hnodup hrest
      cases rest with
      | nil =>
        -- The next round fails; it gives back tables of higher levels only.
        obtain ⟨hundone, -, -⟩ := allocLoop_fails hlinked hrest hnext
        obtain ⟨back, hback, hheld⟩ := hundone.freed
        refine ⟨f, mem_cons_self, by simp [hundone.pool, hrest], back, hfreed ▸ hback, fun hf => ?_⟩
        obtain ⟨k, hk, hle, hkf⟩ := hheld f hf
        have hself : (w.setTable (level + 1) (some f)).tables (level + 1) = some f :=
          update_self _ _ _
        have := hlinked.inj k (level + 1) f (by omega) le_rfl hle (by omega) hkf hself
        omega
      | cons g rest =>
        have hnodup₁ : s₁.pool.Nodup := by
          rw [hrest]
          exact (nodup_cons.mp (hcons ▸ hnodup)).2
        obtain ⟨g', hmem, hgone, back, hback, hnot⟩ := ih hlinked hnodup₁ (by simp [hrest]) hnext
        exact ⟨g', mem_cons_of_mem _ (hrest ▸ hmem), hgone, back, hfreed ▸ hback, hnot⟩

/-- The whole loop: nothing has changed exactly if the root's table failed to get its first page. -/
theorem allocLoop_restored_iff (h : Follows p s root w virt (level + 1))
    (hle : level + 1 ≤ p.pgtGetTopLevel) (hwf : WellFormed p s root)
    (hret : allocLoop lastLevel allocLastLevel shouldRef level w s = .ok (.allocFail, w', s')) :
    Restored p s s' root ↔ s.pool = [] ∧ level + 1 = p.pgtGetTopLevel := by
  have hholds := h.holds hwf
  by_cases hpool : s.pool = []
  · obtain ⟨-, hsame, hcount⟩ := allocLoop_fails hholds hpool hret
    rw [h.top] at hsame hcount
    refine ⟨fun hrestored => ⟨hpool, ?_⟩, fun htop => hsame htop.2 ▸ .refl p s root⟩
    by_contra hne
    obtain ⟨u, hu, hmeets⟩ := h.path (level + 2) (by omega) (by omega)
    have hdown := hcount u (by omega) hu
    rw [hrestored.refcount _ _ _ hmeets] at hdown
    omega
  · obtain ⟨f, hf, hgone, back, hback, hnot⟩ := allocLoop_loses hholds hwf.nodup hpool hret
    refine ⟨fun hrestored => ?_, fun hno => absurd hno.1 hpool⟩
    obtain ⟨taken, back', htaken, hback', hall⟩ := hrestored.released
    obtain rfl : back' = back := append_cancel_right (hback'.symm.trans hback)
    rw [htaken] at hf
    rcases mem_append.mp hf with hf | hf
    · exact absurd (hall f hf) hnot
    · exact absurd hf hgone

/-! ## The operations -/

/--
**A failed operation and the tables it leaves.** Let a walker stand at an address in well-formed
tables, and let filling in or moving on fail for want of a page. Then the reachable tables and their
counts are as before and every page taken has been released if and only if no page was taken and
the table was missing right below the root.
-/
theorem failed_op_restores_iff (p : Paging) (s s' : PageTables) (root virt : Nat) (w w' : PtWalker)
    (op : AllocOp) (hwf : WellFormed p s root) (hstands : Stands p s root w virt)
    (hret : op.exec p w s = .ok (.allocFail, w', s')) :
    Restored p s s' root ↔ s.pool = [] ∧ op.AtRoot w := by
  cases op with
  | fillInTo level shouldRef =>
    have hlt : level < w.level := by
      by_contra hge
      rw [AllocOp.exec, PtWalker.fillInTo, if_pos (not_lt.mp hge)] at hret
      cases hret
    obtain ⟨n, hn⟩ : ∃ n, w.level = n + 1 := ⟨w.level - 1, by omega⟩
    rw [AllocOp.exec, fillInTo_eq hlt, hn, Nat.add_sub_cancel] at hret
    rw [allocLoop_restored_iff (hn ▸ hstands.toFollows) (hn ▸ hstands.le) hwf hret, AllocOp.AtRoot,
      hstands.top, hn]
  | next level allocLevel shouldRef =>
    obtain ⟨hlow, hle⟩ := nextWithOptions_level hret (by decide)
    rw [hstands.top] at hle
    have hpos := hstands.pos
    rcases nextWithOptions_cases (hstands.toFollows.raise hlow) (by omega) hle hlow hret
      with ⟨hr, -⟩ | ⟨c, w₁, t, hland, hmoves⟩
    · cases hr
    cases hmoves with
    | alloc hlt _ _ halloc =>
      obtain ⟨n, rfl⟩ : ∃ n, c = n + 1 := ⟨c - 1, by omega⟩
      have hloop : allocLoop level allocLevel shouldRef n (w₁.resetLevelsLowerThan (n + 1)) s =
          .ok (.allocFail, w', s') := by
        rw [allocLevelsDownTo, Nat.add_sub_cancel] at halloc
        split at halloc
        · cases halloc
        · exact halloc
      have hfollows : Follows p s root (w₁.resetLevelsLowerThan (n + 1)) (pageAfter (n + 1) virt)
          (n + 1) := hland.follows.reset hland.le
      rw [allocLoop_restored_iff hfollows hland.le hwf hloop, AllocOp.AtRoot, hstands.top]
      refine and_congr_right fun _ => ⟨fun htop k hk hkt => ?_, fun hfull => ?_⟩
      · rw [hstands.indices k (by omega) (by omega)]
        exact hland.full k hk (by omega)
      · -- The level where the walker has landed is the first one with room.
        by_contra hne
        have hc := hland.le
        have hroom := hland.room
        have hat := hfull (n + 1) (by omega) (by omega)
        rw [hstands.indices (n + 1) (by omega) hc] at hat
        omega

/-- An empty root table and no page. -/
theorem failed_op_restores_iff_emptyRoot :
    ∃ w w' s', createForPagemap ⟨false, true⟩ { emptyRoot with pool := [] } 0x1000 0x400000 = .ok w ∧
      AllocOp.exec ⟨false, true⟩ w { emptyRoot with pool := [] } (.fillInTo 1 true) =
        .ok (.allocFail, w', s') ∧
      Restored ⟨false, true⟩ { emptyRoot with pool := [] } s' 0x1000 := by
  obtain ⟨w, w', s', hw, hret, htop⟩ : ∃ w w' s',
      createForPagemap ⟨false, true⟩ { emptyRoot with pool := [] } 0x1000 0x400000 = .ok w ∧
      AllocOp.exec ⟨false, true⟩ w { emptyRoot with pool := [] } (.fillInTo 1 true) =
        .ok (.allocFail, w', s') ∧ w.level = w.topLevel := ⟨_, _, _, rfl, rfl, rfl⟩
  have hwf : WellFormed ⟨false, true⟩ { emptyRoot with pool := [] } 0x1000 :=
    .of_empty (fun _ => show pteIsPresent 0 = false by decide) (by decide) (by decide) (by decide)
  exact ⟨w, w', s', hw, hret, (failed_op_restores_iff _ _ _ _ _ _ _ (.fillInTo 1 true) hwf
    (createForPagemap_stands hw).1 hret).mpr ⟨rfl, htop⟩⟩

/--
**The second table cannot be allocated.** The first one stays linked in the root table and is not
released; instead the root table, which is still in use, loses its reference and is released.
-/
theorem failed_op_frees_root :
    (do
      let w ← createForPagemap ⟨false, true⟩ { emptyRoot with pool := [0x2000] } 0x1000 0x400000
      let (r, _, s') ← AllocOp.exec ⟨false, true⟩ w { emptyRoot with pool := [0x2000] }
        (.fillInTo 1 true)
      pure (r, s'.entries 0x1000 0, s'.refcount 0x1000, s'.pool, s'.freed) : Result _) =
      .ok (.allocFail, 0x2003, 0, [], [0x1000]) := by
  decide

end OsKernel.Mm
