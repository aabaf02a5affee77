import OsKernel.Mm.TableCount
import OsKernel.Mm.Unmap

/-!
# Runs of `pgmap_at` and `pgunmap_at`

On empty tables `pgunmap_at` never succeeds: its walker stays at the root, where there are
no pages. So a run of successful calls starts with one of `pgmap_at`, and this one writes at
least one page. Whatever its options, the loops only come to empty entries (`FreshAt`), so
that no entry is overwritten and no table given back, and in the end some table has more
entries than its count says.
-/

namespace OsKernel.Mm

open PtWalker MapState
open Adt (Range)

variable {offsetIn physAddr physEnd value : Nat} {s : PageTables} {w : PtWalker} {range : Range}

/-! ## Runs of calls -/

/-- A call on a pagemap, with the pages that its allocator is going to return. -/
inductive MapCall where
  | map (opts : PgmapOptions) (fuel : Nat) (pool : List Nat) (physRange : Range) (virtAddr : Nat)
  | unmap (opts : PgmapOptions) (unmapOpts : PgunmapOptions) (fuel : Nat) (pool : List Nat)
      (virtRange : Range)

namespace MapCall

def pool : MapCall → List Nat
  | .map _ _ pool _ _ => pool
  | .unmap _ _ _ pool _ => pool

def opts : MapCall → PgmapOptions
  | .map opts _ _ _ _ => opts
  | .unmap opts _ _ _ _ => opts

def exec (p : Paging) (root : Nat) (s : PageTables) : MapCall → Result (Bool × PageTables)
  | .map opts fuel pool physRange virtAddr =>
    pgmapAt p opts fuel { s with pool := pool } root physRange virtAddr
  | .unmap opts unmapOpts fuel pool virtRange =>
    pgunmapAt p opts unmapOpts fuel { s with pool := pool } root virtRange

/-- The call is made after boot, and the allocator returns pages that are no tables, each one once. -/
structure Admissible (call : MapCall) (s : PageTables) : Prop where
  notEarly : call.opts.isInEarly = false
  nodup : call.pool.Nodup
  unmarked : ∀ f ∈ call.pool, s.isTable f = false

end MapCall

/-- Calls that all succeed, and the tables after each of them. -/
inductive SuccessfulRun (p : Paging) (root : Nat) :
    PageTables → List MapCall → List PageTables → Prop
  | nil {s : PageTables} : SuccessfulRun p root s [] []
  | cons {s s' : PageTables} {call : MapCall} {calls : List MapCall} {states : List PageTables} :
      call.Admissible s → call.exec p root s = .ok (true, s') →
      SuccessfulRun p root s' calls states → SuccessfulRun p root s (call :: calls) (s' :: states)

/-- The count of every page table but the root is the number of its present entries. -/
def Counted (s : PageTables) (root : Nat) : Prop :=
  ∀ t, t ≠ root → s.isTable t = true → s.refcount t = s.presentCount t

/-- Between `s` and `s'` exactly the tables whose last entry was cleared have been released. -/
def ReleasedWhenEmpty (s s' : PageTables) (root : Nat) : Prop :=
  ∀ t, t ≠ root → s.isTable t = true → (s'.isTable t = false ↔ s'.presentCount t = 0)

/-- The counts are right in every state of a run, and tables are released when they should be. -/
def CountsAlong (root : Nat) : PageTables → List PageTables → Prop
  | s, [] => Counted s root
  | s, s' :: states => Counted s root ∧ ReleasedWhenEmpty s s' root ∧ CountsAlong root s' states

/-- A pagemap with an empty root table. Tables of other pagemaps may be there, with right counts. -/
structure EmptyPagemap (s : PageTables) (root : Nat) : Prop where
  isTable : s.isTable root = true
  empty : ∀ i, i < PGT_PTE_COUNT → s.entries root i = 0
  counted : Counted s root

variable {p : Paging} {opts : PgmapOptions} {m m' : MapState}
  {root level fuel physBegin size index off off' : Nat} {fill : Bool} {r : MapResult}

/-! ## Writing a page -/

section

variable (h : FreshAt root m)
include h

theorem FreshAt.writeAt (hlevel : m.w.level = level) (h3 : level ≤ 3)
    (hvalue : pteIsPresent value = true) (hret : m.writeAt level value = .ok m') :
    WrittenAt root level m' := by
  obtain ⟨s', hwrite, rfl⟩ := writeAt_eq_ok hret
  have htop := h.ahead.top
  obtain ⟨hahead, hunder⟩ := (hlevel ▸ h.ahead).write (by omega) hvalue hwrite
  exact ⟨hahead, hlevel, h.split, hunder⟩

theorem FreshAt.readAt_eq {entry : Nat} (hread : m.readAt m.w.level = .ok entry) :
    entry = 0 := by
  obtain ⟨t, ht, hlt, rfl⟩ := pteRead_eq_ok hread
  exact h.ahead.here t _ ht le_rfl hlt

theorem FreshAt.pointsToLargepage {large : Bool} (hret : m.w.pointsToLargepage p m.s = .ok large) :
    large = false := by
  rw [PtWalker.pointsToLargepage] at hret
  split at hret
  · cases hret
    rfl
  · obtain ⟨can, -, hret⟩ := bind_eq_ok.mp hret
    split at hret
    · cases hret
      rfl
    · obtain ⟨entry, hread, hret⟩ := bind_eq_ok.mp hret
      obtain rfl := h.readAt_eq hread
      cases hret
      decide

theorem FreshAt.overridePte {offset : Nat} {r : OverrideResult} (hearly : opts.isInEarly = false)
    (hpos : 0 < level) (h3 : level ≤ 3) (hle : level ≤ m.w.level)
    (hvalue : pteIsPresent value = true)
    (hret : MapState.overridePte p opts m physBegin offset size level value = .ok (r, m', off')) :
    r = .ok ∧ WrittenAt root level m' := by
  rw [MapState.overridePte, if_neg (not_lt.mpr hle)] at hret
  split at hret
  · obtain ⟨large, hlarge, hret⟩ := bind_eq_ok.mp hret
    obtain rfl := h.pointsToLargepage hlarge
    rw [Bool.not_false, if_pos rfl, bind_eq_ok] at hret
    obtain ⟨m₁, hfill, hret⟩ := hret
    obtain ⟨hfresh, hlevel, -⟩ := h.fillInTo hearly hpos hle hfill
    obtain ⟨m₂, hwrite, hret⟩ := bind_eq_ok.mp hret
    cases hret
    exact ⟨rfl, hfresh.writeAt hlevel h3 hvalue hwrite⟩
  case isFalse hge =>
    have hlevel : m.w.level = level := le_antisymm (not_lt.mp hge) hle
    obtain ⟨entry, hread, hret⟩ := bind_eq_ok.mp hret
    obtain rfl := h.readAt_eq (hlevel.symm ▸ hread)
    rw [if_pos (by decide), bind_eq_ok] at hret
    obtain ⟨m₁, hwrite, hret⟩ := hret
    cases hret
    exact ⟨rfl, h.writeAt hlevel h3 hvalue hwrite⟩

/-! ## Stretches of pages -/

/--
What a stretch of pages leaves. Where the next stretch starts, the walker stands at an empty entry,
of a level high enough for the pages that may come next.
-/
def AfterStretch (root level : Nat) : MapResult → MapState → Prop
  | .done, m => m.split = some .init ∧ Undercounted m.s root
  | .restart, m => FreshAt root m ∧ 3 ≤ m.w.level ∧ Undercounted m.s root
  | .continue_, m => FreshAt root m ∧ level ≤ m.w.level ∧ Undercounted m.s root

theorem FreshAt.fillWhen (hearly : opts.isInEarly = false) (hpos : 0 < level)
    (hle : level ≤ m.w.level) (hret : m.fillWhen opts fill level = .ok m') :
    FreshAt root m' ∧ level ≤ m'.w.level := by
  cases fill with
  | false =>
    cases hret
    exact ⟨h, hle⟩
  | true =>
    obtain ⟨hfresh, hlevel, -⟩ := h.fillInTo hearly hpos hle hret
    exact ⟨hfresh, le_of_eq hlevel.symm⟩

theorem FreshAt.mapNormalOverwrite (hearly : opts.isInEarly = false)
    (hret : MapState.mapNormalOverwrite p opts physBegin offsetIn size fuel fill m off =
      .ok (r, m', off')) : AfterStretch root 3 r m' := by
  induction fuel generalizing m fill off with
  | zero => cases hret
  | succ fuel ih =>
    rw [MapState.mapNormalOverwrite, bind_eq_ok] at hret
    obtain ⟨m₁, hfill, hret⟩ := hret
    obtain ⟨hfresh, hle⟩ := h.fillWhen hearly one_pos h.ahead.pos hfill
    obtain ⟨⟨o, m₂, off₂⟩, hover, hret⟩ := bind_eq_ok.mp hret
    obtain ⟨rfl, hwritten⟩ :=
      hfresh.overridePte hearly one_pos (by decide) hle (pteIsPresent_leafPte _) hover
    simp only [bind_eq_ok] at hret
    obtain ⟨m₃, hnext, hret⟩ := hret
    obtain ⟨hfresh₃, hunder, hmoved⟩ := hwritten.next hnext
    split at hret
    · cases hret
      exact ⟨hfresh₃.split, hunder⟩
    · split at hret
      case isTrue hzero =>
        split at hret
        case isTrue htwo =>
          cases hret
          refine ⟨hfresh₃, ?_, hunder⟩
          rcases hmoved with ⟨-, -, hindex⟩ | ⟨hlt, hne, -⟩
          · rw [hindex] at hzero
            cases hzero
          · by_contra hlow
            rw [show m'.w.level = 2 by omega] at hne
            exact hne htwo
        case isFalse => exact ih hfresh₃ hret
      case isFalse => exact ih hfresh₃ hret

end

/--
The head of a round without `is_overwrite`: tables are to be made first, or the next entry is that
of `index`.
-/
def EmptyHead (root level : Nat) (fill : Bool) (m : MapState) (index : Nat) : Prop :=
  if fill then FreshAt root m ∧ level ≤ m.w.level
  else m.split = some .init ∧ m.w.level = level ∧ Ahead m.s root m.w level index

theorem EmptyHead.write {s' : PageTables} (h : EmptyHead root level fill m index)
    (hearly : opts.isInEarly = false) (hpos : 0 < level) (h3 : level ≤ 3)
    (hvalue : pteIsPresent value = true) (hfill : m.fillWhen opts fill level = .ok m')
    (hret : m'.s.pteWrite (m'.w.tables level) (if fill then m'.w.indices level else index) value =
      .ok s') :
    m'.split = some .init ∧ m'.w.level = level ∧ Undercounted s' root ∧
      Ahead s' root m'.w level ((if fill then m'.w.indices level else index) + 1) := by
  have hhead : m'.split = some .init ∧ m'.w.level = level ∧
      Ahead m'.s root m'.w level (if fill then m'.w.indices level else index) := by
    cases fill with
    | false =>
      cases hfill
      exact h
    | true =>
      obtain ⟨hfresh, hlevel, -⟩ := h.1.fillInTo hearly hpos h.2 hfill
      exact ⟨hfresh.split, hlevel, hlevel ▸ hfresh.ahead⟩
  obtain ⟨hsplit, hlevel, hahead⟩ := hhead
  have htop := hahead.top
  obtain ⟨hahead', hunder⟩ := hahead.write (by omega) hvalue hret
  exact ⟨hsplit, hlevel, hunder, hahead'⟩

/-- Writing the walker's index, which the loops without `is_overwrite` do only in the end. -/
theorem Ahead.setIndex (h : Ahead s root w level index) (i : Nat) :
    Ahead s root (w.setIndex level i) level index :=
  h.congr rfl (fun _ _ => rfl) fun _ hk => setIndex_of_ne (by omega)

/-- At the end of a table the walker moves on from its last entry, and carries. -/
theorem Ahead.next_table (h : Ahead m.s root m.w level (index + 1)) (hsplit : m.split = some .init)
    (hlevel : m.w.level = level) (hunder : Undercounted m.s root) (hend : index + 1 = PGT_PTE_COUNT)
    (hret : ({ m with w := m.w.setIndex level (PGT_PTE_COUNT - 1) } : MapState).next p opts level =
      .ok m') :
    FreshAt root m' ∧ Undercounted m'.s root ∧ level < m'.w.level ∧
      m'.w.indices m'.w.level ≠ 0 := by
  have hindex : (m.w.setIndex level (PGT_PTE_COUNT - 1)).indices level + 1 = PGT_PTE_COUNT := by
    simp [PtWalker.setIndex, PGT_PTE_COUNT]
  have hwritten : WrittenAt root level { m with w := m.w.setIndex level (PGT_PTE_COUNT - 1) } :=
    ⟨by rw [hindex, ← hend]; exact h.setIndex _, hlevel, hsplit, hunder⟩
  obtain ⟨hfresh, hunder', hmoved⟩ := hwritten.next hret
  rcases hmoved with ⟨hroom, -⟩ | ⟨hlt, hne, -⟩
  · rw [hindex] at hroom
    exact absurd hroom (lt_irrefl _)
  · exact ⟨hfresh, hunder', hlt, hne⟩

theorem EmptyHead.mapNormalNoOverwrite (h : EmptyHead root 1 fill m index)
    (hearly : opts.isInEarly = false)
    (hret : MapState.mapNormalNoOverwrite p opts physBegin physEnd fuel fill m index physAddr =
      .ok (r, m', off')) : AfterStretch root 3 r m' := by
  induction fuel generalizing m fill index physAddr with
  | zero => cases hret
  | succ fuel ih =>
    rw [MapState.mapNormalNoOverwrite, bind_eq_ok] at hret
    obtain ⟨m₁, hfill, hret⟩ := hret
    obtain ⟨s₁, hwrite, hret⟩ := bind_eq_ok.mp hret
    obtain ⟨hsplit, hlevel, hunder, hahead⟩ :=
      h.write hearly one_pos (by decide) (pteIsPresent_leafPte _) hfill hwrite
    generalize (if fill then m₁.w.indices 1 else index) = i at hahead hret
    split at hret
    case isTrue hend =>
      obtain ⟨m₂, hnext, hret⟩ := bind_eq_ok.mp hret
      obtain ⟨hfresh, hunder₂, hlt, hne⟩ :=
        Ahead.next_table (m := { m₁ with s := s₁ }) hahead hsplit hlevel hunder hend hnext
      split at hret
      case isTrue htwo =>
        cases hret
        refine ⟨hfresh, ?_, hunder₂⟩
        by_contra hlow
        rw [show m'.w.level = 2 by omega] at hne
        exact hne htwo
      case isFalse =>
        have hhead : EmptyHead root 1 true m₂ 0 := ⟨hfresh, le_of_lt hlt⟩
        exact ih hhead hret
    case isFalse hin =>
      split at hret
      · cases hret
        exact ⟨hsplit, hunder⟩
      · have hhead : EmptyHead root 1 false { m₁ with s := s₁ } (i + 1) := ⟨hsplit, hlevel, hahead⟩
        exact ih hhead hret

theorem FreshAt.mapNormal (h : FreshAt root m) (hearly : opts.isInEarly = false)
    (hgood : Undercounted m.s root ∨ off < size)
    (hret : MapState.mapNormal p opts fuel m physBegin off size = .ok (r, m', off')) :
    AfterStretch root 3 r m' := by
  rw [MapState.mapNormal] at hret
  split at hret
  case isTrue hdone =>
    cases hret
    exact ⟨h.split, hgood.resolve_right (not_lt.mpr hdone)⟩
  case isFalse =>
    split at hret
    · exact h.mapNormalOverwrite hearly hret
    · have hhead : EmptyHead root 1 true m 0 := ⟨h, h.ahead.pos⟩
      exact hhead.mapNormalNoOverwrite hearly hret

theorem FreshAt.mapLargeOverwriteLoop (h : FreshAt root m) (hearly : opts.isInEarly = false)
    (hpos : 0 < level) (h3 : level ≤ 3) (hle : level ≤ m.w.level)
    (hret : MapState.mapLargeOverwriteLoop p opts physBegin size level fuel m offsetIn off =
      .ok (r, m', off')) : AfterStretch root level r m' := by
  induction fuel generalizing m offsetIn off with
  | zero => cases hret
  | succ fuel ih =>
    rw [MapState.mapLargeOverwriteLoop, bind_eq_ok] at hret
    obtain ⟨⟨o, m₁, off₁⟩, hover, hret⟩ := hret
    obtain ⟨rfl, hwritten⟩ := h.overridePte hearly hpos h3 hle (pteIsPresent_largePte _) hover
    simp only [bind_eq_ok] at hret
    obtain ⟨m₂, hnext, hret⟩ := hret
    obtain ⟨hfresh, hunder, hmoved⟩ := hwritten.next hnext
    obtain ⟨hle₂, hne⟩ : level ≤ m₂.w.level ∧ m₂.w.indices m₂.w.level ≠ 0 := by
      rcases hmoved with ⟨-, hlevel, hindex⟩ | ⟨hlt, hne, -⟩
      · exact ⟨le_of_eq hlevel.symm, by rw [hlevel, hindex]; exact Nat.succ_ne_zero _⟩
      · exact ⟨le_of_lt hlt, hne⟩
    split at hret
    · cases hret
      exact ⟨hfresh.split, hunder⟩
    · split at hret
      · exact ih hfresh hle₂ hret
      · cases hret
        exact ⟨hfresh, hle₂, hunder⟩

theorem EmptyHead.mapLargeNoOverwriteLoop (h : EmptyHead root level fill m index)
    (hearly : opts.isInEarly = false) (htwo : 2 ≤ level) (h3 : level ≤ 3)
    (hret : MapState.mapLargeNoOverwriteLoop p opts physBegin physEnd level fuel fill m index
      physAddr = .ok (r, m', off')) : AfterStretch root level r m' := by
  induction fuel generalizing m fill index physAddr with
  | zero => cases hret
  | succ fuel ih =>
    rw [MapState.mapLargeNoOverwriteLoop, bind_eq_ok] at hret
    obtain ⟨m₁, hfill, hret⟩ := hret
    obtain ⟨s₁, hwrite, hret⟩ := bind_eq_ok.mp hret
    obtain ⟨hsplit, hlevel, hunder, hahead⟩ :=
      h.write hearly (by omega) h3 (pteIsPresent_largePte _) hfill hwrite
    generalize (if fill then m₁.w.indices level else index) = i at hahead hret
    dsimp only at hret
    split at hret
    · cases hret
      exact ⟨hsplit, hunder⟩
    split at hret
    case isTrue hend =>
      obtain ⟨m₂, hnext, hret⟩ := bind_eq_ok.mp hret
      obtain ⟨hfresh, hunder₂, hlt, -⟩ :=
        Ahead.next_table (m := { m₁ with s := s₁ }) hahead hsplit hlevel hunder hend hnext
      obtain ⟨above, -, hret⟩ := bind_eq_ok.mp hret
      split at hret
      · cases hret
        exact ⟨hfresh, by omega, hunder₂⟩
      · have hhead : EmptyHead root level true m₂ 0 := ⟨hfresh, le_of_lt hlt⟩
        exact ih hhead hret
    case isFalse =>
      split at hret
      · cases hret
        refine ⟨⟨?_, hsplit⟩, le_of_eq hlevel.symm, hunder⟩
        have hself : (m₁.w.setIndex level (i + 1)).indices level = i + 1 := Function.update_self _ _ _
        rw [show (m₁.w.setIndex level (i + 1)).level = level from hlevel, hself]
        exact hahead.setIndex _
      · have hhead : EmptyHead root level false { m₁ with s := s₁ } (i + 1) :=
          ⟨hsplit, hlevel, hahead⟩
        exact ih hhead hret

section

variable (h : FreshAt root m) (hearly : opts.isInEarly = false)
include h hearly

theorem FreshAt.mapLargeAtLevel (htwo : 2 ≤ level) (h3 : level ≤ 3) (hle : level ≤ m.w.level)
    (hret : MapState.mapLargeAtLevel p opts fuel m physBegin off size level = .ok (r, m', off')) :
    AfterStretch root level r m' := by
  rw [MapState.mapLargeAtLevel] at hret
  split at hret
  · rw [mapLargeAtLevelOverwrite, bind_eq_ok] at hret
    obtain ⟨m₁, hfill, hret⟩ := hret
    obtain ⟨hfresh, hlevel, -⟩ := h.fillInTo hearly (by omega) hle hfill
    exact hfresh.mapLargeOverwriteLoop hearly (by omega) h3 (le_of_eq hlevel.symm) hret
  · have hhead : EmptyHead root level true m 0 := ⟨h, hle⟩
    exact hhead.mapLargeNoOverwriteLoop hearly htwo h3 hret

/-! ## A range -/

theorem FreshAt.mapLarge {highest : Nat} {levels : List Nat}
    (hgood : Undercounted m.s root ∨ off < range.size)
    (hlevels : ∀ l ∈ levels, 2 ≤ l ∧ l ≤ 3 ∧ l ≤ m.w.level) (hsorted : levels.Pairwise (· ≥ ·))
    (hret : MapState.mapLarge p opts fuel range highest levels m off = .ok (r, m', off')) :
    (r = .continue_ ∧ FreshAt root m' ∧ (Undercounted m'.s root ∨ off' < range.size)) ∨
      (r ≠ .continue_ ∧ AfterStretch root 3 r m') := by
  induction levels generalizing m off with
  | nil =>
    cases hret
    exact .inl ⟨rfl, h, hgood⟩
  | cons level levels ih =>
    obtain ⟨hrest, hsorted⟩ := List.pairwise_cons.mp hsorted
    obtain ⟨htwo, h3, hle⟩ := hlevels level List.mem_cons_self
    rw [MapState.mapLarge] at hret
    split at hret
    · obtain ⟨⟨r₁, m₁, off₁⟩, hstretch, hret⟩ := bind_eq_ok.mp hret
      have hafter := h.mapLargeAtLevel hearly htwo h3 hle hstretch
      cases r₁ with
      | done =>
        cases hret
        exact .inr ⟨by decide, hafter⟩
      | restart =>
        cases hret
        exact .inr ⟨by decide, hafter⟩
      | continue_ =>
        obtain ⟨hfresh, hle₁, hunder⟩ := hafter
        refine ih hfresh (.inl hunder) (fun l hl => ?_) hsorted hret
        obtain ⟨htwo', h3', -⟩ := hlevels l (.tail _ hl)
        exact ⟨htwo', h3', le_trans (hrest l hl) hle₁⟩
    · exact ih h hgood (fun l hl => hlevels l (.tail _ hl)) hsorted hret

/-- **`pgmap_with_ptwalker` on empty entries** leaves a table with fewer references than entries. -/
theorem FreshAt.pgmapWithPtwalker {virt : Nat} (h3 : 3 ≤ m.w.level)
    (hgood : Undercounted m.s root ∨ off < range.size)
    (hret : MapState.pgmapWithPtwalker p opts fuel m range virt off = .ok m') :
    Undercounted m'.s root := by
  induction fuel generalizing m off with
  | zero => cases hret
  | succ fuel ih =>
    have hfinish : ∀ {m₁ : MapState} {v : Nat}, AfterStretch root 3 .done m₁ →
        finishSplitInfo p opts fuel m₁ v = .ok m' → Undercounted m'.s root := by
      intro m₁ v hdone hfinish
      rw [finishSplitInfo_init hdone.1 hfinish]
      exact hdone.2
    rw [MapState.pgmapWithPtwalker, bind_eq_ok] at hret
    obtain ⟨⟨r₁, m₁, off₁⟩, hlarge, hret⟩ := hret
    have hlevels : ∀ l ∈ (if 1 < highestLargepageLevel m.w then [3, 2] else []),
        2 ≤ l ∧ l ≤ 3 ∧ l ≤ m.w.level := by
      intro l hl
      split at hl
      · simp only [List.mem_cons, List.not_mem_nil, or_false] at hl
        omega
      · cases hl
    have hsorted : (if 1 < highestLargepageLevel m.w then [3, 2] else []).Pairwise (· ≥ ·) := by
      split
      · decide
      · decide
    rcases h.mapLarge hearly hgood hlevels hsorted hlarge with
      ⟨rfl, hfresh, hgood₁⟩ | ⟨hne, hafter⟩
    · simp only [bind_eq_ok] at hret
      obtain ⟨⟨r₂, m₂, off₂⟩, hnormal, hret⟩ := hret
      have hafter := hfresh.mapNormal hearly hgood₁ hnormal
      cases r₂ with
      | done => exact hfinish hafter hret
      | restart =>
        obtain ⟨hfresh₂, h3₂, hunder⟩ := hafter
        dsimp only at hret
        split at hret
        · exact ih hfresh₂ h3₂ (.inl hunder) hret
        · exact hfinish ⟨hfresh₂.split, hunder⟩ hret
      | continue_ =>
        obtain ⟨hfresh₂, h3₂, hunder⟩ := hafter
        dsimp only at hret
        split at hret
        · exact ih hfresh₂ h3₂ (.inl hunder) hret
        · exact hfinish ⟨hfresh₂.split, hunder⟩ hret
    · cases r₁ with
      | done => exact hfinish hafter hret
      | restart =>
        obtain ⟨hfresh₁, h3₁, hunder⟩ := hafter
        exact ih hfresh₁ h3₁ (.inl hunder) hret
      | continue_ => exact absurd rfl hne

end

/-! ## The run -/

theorem CountsAlong.counted {states : List PageTables} (h : CountsAlong root s states) : Counted s root := by
  cases states with
  | nil => exact h
  | cons s' states => exact h.1

theorem noLargeHere_top {noLarge : Bool} (hlevel : w.level = p.pgtGetTopLevel)
    (hret : noLargeHere p w = .ok noLarge) : noLarge = true := by
  have htop := @three_lt_top p
  rw [noLargeHere, if_pos (by omega), bind_eq_ok] at hret
  obtain ⟨can, hcan, hret⟩ := hret
  obtain ⟨-, rfl⟩ := canHaveLarge_ok hcan
  cases hret
  have hsupported : p.isSupported w.level = false := by
    simp only [Paging.isSupported, Bool.or_eq_false_iff, Bool.and_eq_false_iff, beq_eq_false_iff_ne]
    omega
  rw [hsupported]
  rfl

section empty

variable {s s' : PageTables} {w : PtWalker} {virt : Nat} {pool : List Nat} (h : EmptyPagemap s root)
include h

theorem EmptyPagemap.created
    (hw : createForPagemap p { s with pool := pool } root virt = .ok w) :
    w.level = p.pgtGetTopLevel ∧ w.topLevel = p.pgtGetTopLevel ∧
      w.tables p.pgtGetTopLevel = some root := by
  obtain ⟨hstands, -⟩ := createForPagemap_stands hw
  have habsent : pteIsPresent (s.entries root (virtToPtIndex virt p.pgtGetTopLevel)) = false := by
    rw [h.empty _ (virtToPtIndex_lt _ _)]
    decide
  obtain ⟨t, ht, hmeets⟩ := hstands.path p.pgtGetTopLevel hstands.le le_rfl
  have hroot : Meets p { s with pool := pool } root virt p.pgtGetTopLevel root := .root
  exact ⟨hstands.level_eq_top habsent, hstands.top, hroot.unique hmeets ▸ ht⟩

theorem EmptyPagemap.freshAt (hasFree : Bool) (hnodup : pool.Nodup)
    (hpool : ∀ f ∈ pool, s.isTable f = false)
    (hw : createForPagemap p { s with pool := pool } root virt = .ok w) :
    FreshAt root
      { w := w, s := { s with pool := pool }, split := some .init, delayedFree := [],
        hasFree := hasFree } := by
  obtain ⟨hlevel, htop, htable⟩ := h.created hw
  have hlevels : ∀ k, w.level ≤ k → k ≤ w.topLevel → k = p.pgtGetTopLevel := by
    omega
  refine ⟨?_, rfl⟩
  exact
    { counts := ⟨hnodup, hpool, fun t hroot ht => Int.le_of_eq (h.counted t hroot ht)⟩
      pos := hlevel ▸ top_pos
      le := by
        change w.level ≤ w.topLevel
        omega
      top := by
        rw [htop]
        exact three_lt_top
      held :=
        { table := fun k hk hle => by
            refine ⟨root, (hlevels k hk hle).symm ▸ htable, fun hroot => ?_⟩
            have hmark := hpool root hroot
            rw [h.isTable] at hmark
            cases hmark
          inj := fun k k' t hk hk' hle hle' _ _ =>
            (hlevels k hk hle).trans (hlevels k' hk' hle').symm }
      marked := fun k t hk hle ht => by
        rw [hlevels k hk hle] at ht
        rw [← Option.some.inj (htable.symm.trans ht)]
        exact h.isTable
      root := by
        rw [htop]
        exact htable
      here := fun t i ht _ hi => by
        rw [hlevel] at ht
        rw [← Option.some.inj (htable.symm.trans ht)]
        exact h.empty i hi
      above := fun k t i hk hle => by
        change w.level < k at hk
        change k ≤ w.topLevel at hle
        omega }

/-- **The first mapping** leaves a table with more entries than its count says. -/
theorem EmptyPagemap.pgmapAt (hearly : opts.isInEarly = false) (hnodup : pool.Nodup)
    (hpool : ∀ f ∈ pool, s.isTable f = false)
    (hret : Mm.pgmapAt p opts fuel { s with pool := pool } root range virt = .ok (true, s')) :
    Undercounted s' root := by
  rw [Mm.pgmapAt] at hret
  split at hret
  · cases hret
  case isFalse hchecks =>
    obtain ⟨w, hw, hret⟩ := bind_eq_ok.mp hret
    have hfresh := h.freshAt (!opts.isInEarly) hnodup hpool hw
    have hfinish : pgmapFinish p opts fuel
        { w := w, s := { s with pool := pool }, split := some .init, delayedFree := [],
          hasFree := !opts.isInEarly } range virt = .ok (true, s') := by
      split at hret
      · obtain ⟨large, hlarge, hret⟩ := bind_eq_ok.mp hret
        obtain rfl := hfresh.pointsToLargepage hlarge
        exact hret
      · exact hret
    rw [pgmapFinish, bind_eq_ok] at hfinish
    obtain ⟨m, hmap, hfinish⟩ := hfinish
    cases hfinish
    refine hfresh.pgmapWithPtwalker hearly ?_ (.inr ?_) hmap
    · have htop := hfresh.ahead.top
      have hcreated := h.created hw
      change 3 ≤ w.level
      change 3 < w.topLevel at htop
      omega
    · -- the checks have refused an empty range
      refine pos_of_ne_zero fun hzero => hchecks ?_
      simp [pgmapChecks, hzero]

theorem EmptyPagemap.pgunmapAt {unmap : PgunmapOptions} :
    Mm.pgunmapAt p opts unmap fuel { s with pool := pool } root range ≠ .ok (true, s') := by
  intro hret
  rw [Mm.pgunmapAt] at hret
  split at hret
  · cases hret
  obtain ⟨w, hw, hret⟩ := bind_eq_ok.mp hret
  obtain ⟨⟨result, m⟩, hloop, hret⟩ := bind_eq_ok.mp hret
  cases hret
  cases fuel with
  | zero => cases hloop
  | succ fuel =>
    rw [unmapLoop, bind_eq_ok] at hloop
    obtain ⟨noLarge, hno, hloop⟩ := hloop
    obtain ⟨hlevel, -, -⟩ := h.created hw
    obtain rfl : noLarge = true := noLargeHere_top hlevel hno
    cases hloop

end empty

/--
**The counts of page tables over runs.** On a pagemap that starts empty, let calls of `pgmap_at` and
`pgunmap_at` be made after boot and all succeed. The count of every table but the root is the number
of its present entries throughout, and tables are released when their last entry is cleared, if and
only if there is no call at all: the first one already leaves a table with too low a count.
-/
theorem counts_along_run_iff (p : Paging) (root : Nat) (s : PageTables) (calls : List MapCall)
    (states : List PageTables) (hstart : EmptyPagemap s root)
    (hrun : SuccessfulRun p root s calls states) :
    CountsAlong root s states ↔ calls = [] := by
  cases hrun with
  | nil => exact ⟨fun _ => rfl, fun _ => hstart.counted⟩
  | @cons _ s' call calls states hadm hexec hrest =>
    refine ⟨fun hcounts => ?_, fun hnil => nomatch hnil⟩
    have hcounted := hcounts.2.2.counted
    cases call with
    | map opts fuel pool range virt =>
      obtain ⟨t, hroot, ht, hlt⟩ := hstart.pgmapAt hadm.notEarly hadm.nodup hadm.unmarked hexec
      rw [hcounted t hroot ht] at hlt
      exact absurd hlt (lt_irrefl _)
    | unmap opts unmap fuel pool range => exact absurd hexec hstart.pgunmapAt

/-- Mapping the page `0x9000` at `0x40_0000`, with three pages for tables. -/
def mapOnePage : MapCall :=
  .map ⟨0, 0, false, false, false⟩ 10 [0x2000, 0x3000, 0x4000] ⟨0x9000, 0x1000⟩ 0x400000

/-- Unmapping it again. -/
def unmapOnePage : MapCall :=
  .unmap ⟨0, 0, false, false, false⟩ ⟨false, false⟩ 10 [] ⟨0x400000, 0x1000⟩

theorem emptyRoot_emptyPagemap : EmptyPagemap emptyRoot 0x1000 where
  isTable := rfl
  empty _ _ := rfl
  counted _ hroot ht := absurd (of_decide_eq_true ht) hroot

theorem counts_along_run_iff_mapOnePage :
    ∃ s', SuccessfulRun ⟨false, true⟩ 0x1000 emptyRoot [mapOnePage] [s'] ∧
      ¬ CountsAlong 0x1000 emptyRoot [s'] := by
  have hrun : (mapOnePage.exec ⟨false, true⟩ 0x1000 emptyRoot).map Prod.fst = .ok true := by
    decide +kernel
  obtain ⟨⟨_, s'⟩, hexec, rfl⟩ := map_eq_ok.mp hrun
  have hadm : mapOnePage.Admissible emptyRoot := ⟨rfl, by decide, by decide⟩
  refine ⟨s', .cons hadm hexec .nil, fun hcounts => ?_⟩
  exact nomatch (counts_along_run_iff _ _ _ _ _ emptyRoot_emptyPagemap
    (.cons hadm hexec .nil)).mp hcounts

/--
**One page.** After the call the table of level 1 has a present entry and the count 0, and unmapping
the page makes the kernel panic when it takes off a reference that was never counted.
-/
theorem one_page_not_counted :
    (do
      let (success, s) ← mapOnePage.exec ⟨false, true⟩ 0x1000 emptyRoot
      pure (success, s.isTable 0x4000, s.refcount 0x4000, pteIsPresent (s.entries 0x4000 0)) :
        Result _) = .ok (true, true, 0, true) ∧
      (do
        let (_, s) ← mapOnePage.exec ⟨false, true⟩ 0x1000 emptyRoot
        let (success, _) ← unmapOnePage.exec ⟨false, true⟩ 0x1000 s
        pure success : Result Bool) = .error .panic := by
  decide +kernel

end OsKernel.Mm
