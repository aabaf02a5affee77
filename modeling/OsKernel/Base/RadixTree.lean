import Mathlib

/-!
# Radix trees of tables

A table is a row of entries, and an entry may name a table one level further down. An
address is a function from levels to indices, so looking an address up is a walk from
the root table, one index a level, until an entry names no further table.

`Path` is that walk as a relation: which table an address meets at which level. Two
facts carry everything else. A walk down to a level reads only the indices above it, and
in a *tree*, where a table hangs in one place only, a write into a table is seen only by
the addresses that meet this table with this index. Two writes are treated: linking an
empty table below an entry that named none, and replacing an entry by one that names no
table, which may cut a table off.
-/

namespace OsKernel

/-- The shape of a radix tree: where it starts, and which table an entry names. -/
structure Radix (T E : Type) where
  root : T
  /-- The level of the root table. The lowest level is 1. -/
  top : Nat
  /-- The number of entries of a table. -/
  width : Nat
  /-- The table that an entry of a level names, if it names one. -/
  child : Nat → E → Option T

namespace Radix

variable {T E : Type} (R : Radix T E)

/-- The address with indices `ix` meets the table `t` at level `k`. -/
inductive Path (mem : T → Nat → E) (ix : Nat → Nat) : Nat → T → Prop
  | root : Path mem ix R.top R.root
  | down {k : Nat} {t t' : T} : Path mem ix (k + 1) t → ix (k + 1) < R.width →
      R.child (k + 1) (mem t (ix (k + 1))) = some t' → Path mem ix k t'

/-- The level and the entry where the walk of an address ends. -/
def lookup (mem : T → Nat → E) (ix : Nat → Nat) : Nat → T → Nat × E
  | 0, t => (0, mem t (ix 0))
  | k + 1, t =>
    match R.child (k + 1) (mem t (ix (k + 1))) with
    | none => (k + 1, mem t (ix (k + 1)))
    | some t' => lookup mem ix k t'

variable {R} {mem mem' : T → Nat → E} {ix ix' : Nat → Nat} {k k' : Nat} {t t' : T}

/-! ## Walks -/

theorem Path.le_top (h : R.Path mem ix k t) : k ≤ R.top := by
  induction h with
  | root => exact le_rfl
  | down _ _ _ ih => omega

theorem Path.unique (h : R.Path mem ix k t) (h' : R.Path mem ix k t') : t = t' := by
  induction h generalizing t' with
  | root =>
    cases h' with
    | root => rfl
    | down h' _ _ => exact absurd h'.le_top (by omega)
  | down h _ hc ih =>
    cases h' with
    | root => exact absurd h.le_top (by omega)
    | down h' _ hc' =>
      rw [← ih h'] at hc'
      exact Option.some.inj (hc.symm.trans hc')

/-- A walk reads the indices above the level it ends at, and no others. -/
theorem Path.congr (h : R.Path mem ix k t) (hix : ∀ j, k < j → j ≤ R.top → ix' j = ix j) :
    R.Path mem ix' k t := by
  induction h with
  | root => exact .root
  | @down k t t' h hw hc ih =>
    have hsame : ix' (k + 1) = ix (k + 1) := hix _ (Nat.lt_succ_self _) h.le_top
    refine .down (ih fun j hj hle => hix j (by omega) hle) (hsame ▸ hw) ?_
    rw [hsame]
    exact hc

/-- The walk of an address may be resumed at any table it meets. -/
theorem Path.lookup_eq (h : R.Path mem ix k t) :
    R.lookup mem ix R.top R.root = R.lookup mem ix k t := by
  induction h with
  | root => rfl
  | down _ _ hc ih => rw [ih, lookup, hc]

theorem Path.lookup_end (h : R.Path mem ix (k + 1) t)
    (hc : R.child (k + 1) (mem t (ix (k + 1))) = none) :
    R.lookup mem ix R.top R.root = (k + 1, mem t (ix (k + 1))) := by
  rw [h.lookup_eq, lookup, hc]

theorem exists_end (hlow : ∀ e, R.child 1 e = none) (hix : ∀ j, ix j < R.width) :
    ∀ {k t}, R.Path mem ix (k + 1) t → ∃ j s, j ≤ k ∧ R.Path mem ix (j + 1) s ∧
      R.child (j + 1) (mem s (ix (j + 1))) = none := by
  intro k
  induction k with
  | zero => exact fun {t} h => ⟨0, t, le_rfl, h, hlow _⟩
  | succ k ih =>
    intro t h
    cases hc : R.child (k + 1 + 1) (mem t (ix (k + 1 + 1))) with
    | none => exact ⟨k + 1, t, le_rfl, h, hc⟩
    | some t' =>
      obtain ⟨j, s, hj, hs, hend⟩ := ih (Path.down h (hix _) hc)
      exact ⟨j, s, by omega, hs, hend⟩

theorem Path.end_le (h : R.Path mem ix k t) (hc : R.child k (mem t (ix k)) = none)
    (h' : R.Path mem ix k' t') : k ≤ k' := by
  induction h' with
  | root => exact h.le_top
  | @down j s s' hs _ hcs ih =>
    rcases lt_or_ge j k with hlt | hge
    · obtain rfl : k = j + 1 := by omega
      rw [h.unique hs, hcs] at hc
      cases hc
    · exact hge

/-! ## Trees -/

variable (R) in
/-- Every table hangs in one place: its level and the indices above it say where. -/
structure IsTree (mem : T → Nat → E) : Prop where
  level : ∀ {ix ix' k k' t}, R.Path mem ix k t → R.Path mem ix' k' t → k = k'
  indices : ∀ {ix ix' k t}, R.Path mem ix k t → R.Path mem ix' k t →
    ∀ j, k < j → j ≤ R.top → ix j = ix' j

variable (R) in
/-- No address meets the table. -/
def Unused (mem : T → Nat → E) (t : T) : Prop := ∀ ix k, ¬ R.Path mem ix k t

/-! ## Linking an empty table -/

/--
The memory `mem'` is `mem` with the empty table `f` linked below the entry `i` of the table `t₀` of
level `k₀`, which named no table before.
-/
structure Links (R : Radix T E) (mem mem' : T → Nat → E) (k₀ : Nat) (t₀ : T) (i₀ : Nat) (f : T) :
    Prop where
  /-- The entry lies above the lowest level. -/
  level : 1 < k₀
  unused : R.Unused mem f
  /-- Another place of a table that addresses meet is as it was. -/
  same : ∀ t i, t ≠ f → ¬ (t = t₀ ∧ i = i₀) → mem' t i = mem t i
  before : R.child k₀ (mem t₀ i₀) = none
  after : R.child k₀ (mem' t₀ i₀) = some f
  empty : ∀ i, R.child (k₀ - 1) (mem' f i) = none

variable {k₀ i₀ : Nat} {t₀ f : T}

section links

variable (hl : Links R mem mem' k₀ t₀ i₀ f) (hlevel : ∀ {ix k}, R.Path mem ix k t₀ → k = k₀)
include hl hlevel

/-- No walk is lost. -/
theorem Path.link (h : R.Path mem ix k t) : R.Path mem' ix k t := by
  induction h with
  | root => exact .root
  | @down k t t' h hw hc ih =>
    refine .down ih hw ?_
    rw [hl.same t _ ?_ ?_]
    · exact hc
    · intro heq
      exact hl.unused _ _ (heq ▸ h)
    · -- A walk through the entry would have found it naming a table.
      intro heq
      obtain ⟨rfl, rfl⟩ := heq
      obtain rfl := hlevel h
      rw [hl.before] at hc
      cases hc

/-- The only walk gained is the one into the new table. -/
theorem Path.of_link (h : R.Path mem' ix k t) :
    R.Path mem ix k t ∨
      (k + 1 = k₀ ∧ t = f ∧ R.Path mem ix k₀ t₀ ∧ ix k₀ = i₀ ∧ i₀ < R.width) := by
  induction h with
  | root => exact .inl .root
  | @down k t t' h hw hc ih =>
    rcases ih with ih | ⟨hk, rfl, -, -, -⟩
    · by_cases hat : t = t₀ ∧ ix (k + 1) = i₀
      · obtain ⟨rfl, rfl⟩ := hat
        have hk : k + 1 = k₀ := hlevel ih
        subst hk
        rw [hl.after] at hc
        exact .inr ⟨rfl, (Option.some.inj hc).symm, ih, rfl, hw⟩
      · have hne : t ≠ f := fun heq => hl.unused _ _ (heq ▸ ih)
        rw [hl.same t _ hne hat] at hc
        exact .inl (.down ih hw hc)
    · rw [show k + 1 = k₀ - 1 by omega, hl.empty] at hc
      cases hc

theorem IsTree.link (htree : R.IsTree mem) : R.IsTree mem' where
  level := by
    intro ix ix' k k' t h h'
    rcases h.of_link hl hlevel with h | ⟨hk, rfl, -⟩
    · rcases h'.of_link hl hlevel with h' | ⟨-, rfl, -⟩
      · exact htree.level h h'
      · exact absurd h (hl.unused _ _)
    · rcases h'.of_link hl hlevel with h' | ⟨hk', -⟩
      · exact absurd h' (hl.unused _ _)
      · omega
  indices := by
    intro ix ix' k t h h' j hj hle
    rcases h.of_link hl hlevel with h | ⟨hk, rfl, h₀, hi, -⟩
    · rcases h'.of_link hl hlevel with h' | ⟨-, rfl, -⟩
      · exact htree.indices h h' j hj hle
      · exact absurd h (hl.unused _ _)
    · rcases h'.of_link hl hlevel with h' | ⟨-, -, h₀', hi', -⟩
      · exact absurd h' (hl.unused _ _)
      · rcases lt_or_ge k₀ j with hlt | hge
        · exact htree.indices h₀ h₀' j hlt hle
        · obtain rfl : j = k₀ := by omega
          rw [hi, hi']

theorem Unused.link (h : R.Unused mem t) (hne : t ≠ f) : R.Unused mem' t :=
  fun ix k hp => (hp.of_link hl hlevel).elim (h ix k) fun hlast => hne hlast.2.1

/--
An address that met the entry now ends in the new table, and no other address sees a difference.
-/
theorem lookup_link (hlow : ∀ e, R.child 1 e = none) (hix : ∀ j, ix j < R.width)
    (htop : 0 < R.top) :
    R.lookup mem' ix R.top R.root = R.lookup mem ix R.top R.root ∨
      (R.Path mem ix k₀ t₀ ∧ ix k₀ = i₀ ∧
        R.lookup mem' ix R.top R.root = (k₀ - 1, mem' f (ix (k₀ - 1)))) := by
  obtain ⟨n, hn⟩ : ∃ n, R.top = n + 1 := ⟨R.top - 1, by omega⟩
  obtain ⟨j, s, -, hs, hend⟩ :=
    exists_end (k := n) hlow hix (hn ▸ (Path.root : R.Path mem ix R.top R.root))
  have hs' := hs.link hl hlevel
  by_cases hat : s = t₀ ∧ ix (j + 1) = i₀
  · obtain ⟨rfl, rfl⟩ := hat
    have hk : j + 1 = k₀ := hlevel hs
    subst hk
    right
    obtain ⟨i, rfl⟩ : ∃ i, j = i + 1 := ⟨j - 1, by have := hl.level; omega⟩
    exact ⟨hs, rfl, (hs'.down (hix _) hl.after).lookup_end (hl.empty _)⟩
  · left
    have hne : s ≠ f := fun heq => hl.unused _ _ (heq ▸ hs)
    have hsame := hl.same s (ix (j + 1)) hne hat
    rw [hs.lookup_end hend, hs'.lookup_end (by rw [hsame]; exact hend), hsame]

end links

/-! ## Replacing an entry -/

/--
The memory `mem'` is `mem` with the entry `i₀` of the table `t₀` of level `k₀` replaced by one that
names no table. If the old entry named one, that table is cut off.
-/
structure Puts (R : Radix T E) (mem mem' : T → Nat → E) (k₀ : Nat) (t₀ : T) (i₀ : Nat) : Prop where
  same : ∀ t i, ¬ (t = t₀ ∧ i = i₀) → mem' t i = mem t i
  after : R.child k₀ (mem' t₀ i₀) = none

section puts

variable (hp : Puts R mem mem' k₀ t₀ i₀) (hlevel : ∀ {ix k}, R.Path mem ix k t₀ → k = k₀)
include hp hlevel

/-- No walk is gained. -/
theorem Path.of_put (h : R.Path mem' ix k t) : R.Path mem ix k t := by
  induction h with
  | root => exact .root
  | @down k t t' h hw hc ih =>
    refine .down ih hw ?_
    rw [← hp.same t _ ?_]
    · exact hc
    · intro heq
      obtain ⟨rfl, rfl⟩ := heq
      obtain rfl := hlevel ih
      rw [hp.after] at hc
      cases hc

/-- The walks that are lost are those through the entry. -/
theorem Path.put (h : R.Path mem ix k t) (hout : k₀ ≤ k ∨ ¬ (R.Path mem ix k₀ t₀ ∧ ix k₀ = i₀)) :
    R.Path mem' ix k t := by
  induction h with
  | root => exact .root
  | @down k t t' h hw hc ih =>
    refine .down (ih (hout.imp_left Nat.le_succ_of_le)) hw ?_
    rw [hp.same t _ ?_]
    · exact hc
    · intro heq
      obtain ⟨rfl, rfl⟩ := heq
      obtain rfl := hlevel h
      rcases hout with hle | hno
      · omega
      · exact hno ⟨h, rfl⟩

theorem IsTree.put (htree : R.IsTree mem) : R.IsTree mem' where
  level h h' := htree.level (h.of_put hp hlevel) (h'.of_put hp hlevel)
  indices h h' := htree.indices (h.of_put hp hlevel) (h'.of_put hp hlevel)

/-- The new entry is found by the addresses that met the old one, and by no others. -/
theorem lookup_put (hlow : ∀ e, R.child 1 e = none) (hix : ∀ j, ix j < R.width) (htop : 0 < R.top)
    (hk₀ : 0 < k₀) :
    (R.Path mem ix k₀ t₀ ∧ ix k₀ = i₀ ∧ R.lookup mem' ix R.top R.root = (k₀, mem' t₀ i₀)) ∨
      (¬ (R.Path mem ix k₀ t₀ ∧ ix k₀ = i₀) ∧
        R.lookup mem' ix R.top R.root = R.lookup mem ix R.top R.root) := by
  by_cases hat : R.Path mem ix k₀ t₀ ∧ ix k₀ = i₀
  · left
    obtain ⟨hpath, rfl⟩ := hat
    obtain ⟨n, rfl⟩ : ∃ n, k₀ = n + 1 := ⟨k₀ - 1, by omega⟩
    exact ⟨hpath, rfl, (hpath.put hp hlevel (.inl le_rfl)).lookup_end hp.after⟩
  · right
    obtain ⟨n, hn⟩ : ∃ n, R.top = n + 1 := ⟨R.top - 1, by omega⟩
    obtain ⟨j, s, -, hs, hend⟩ :=
      exists_end (k := n) hlow hix (hn ▸ (Path.root : R.Path mem ix R.top R.root))
    have hne : ¬ (s = t₀ ∧ ix (j + 1) = i₀) := by
      intro heq
      obtain ⟨rfl, rfl⟩ := heq
      obtain rfl := hlevel hs
      exact hat ⟨hs, rfl⟩
    have hsame := hp.same s (ix (j + 1)) hne
    refine ⟨hat, ?_⟩
    rw [hs.lookup_end hend, (hs.put hp hlevel (.inr hat)).lookup_end (by rw [hsame]; exact hend), hsame]

end puts

end Radix

end OsKernel
