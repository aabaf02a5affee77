import OsKernel.Adt.Range

/-!
# Aligning a range (`lib/adt/range.c`)

`range_align_out` rounds the front down and the size up, `range_align_in` rounds the
front up and the size down. The two are rounded apart from each other: what the front
moves by is never added to the size or taken off it. So the end of the result is not the
end of the range rounded in the same direction, and whether the result covers the range,
or lies inside it, depends on how far the front and the size are from the boundary. Both
conditions are sums of two remainders.
-/

namespace OsKernel.Adt

namespace Range

/-- `range_from_loc`, which asserts that the location is in the range. -/
def fromLoc (range : Range) (loc : Nat) : Result Range :=
  if range.hasLoc loc then .ok ⟨loc, range.size - (loc - range.front)⟩ else .error .panic

/-- `range_align_in`, with `RANGE_EMPTY` where nothing is left. -/
def alignIn (range : Range) (boundary : Nat) : Range :=
  match alignUp range.front boundary with
  | none => ⟨0, 0⟩
  | some front =>
    if range.size ≤ front - range.front then ⟨0, 0⟩
    else ⟨front, alignDown range.size boundary⟩

/-- `range_align_out`: `none` where the source returns false. -/
def alignOut (range : Range) (boundary : Nat) : Option Range :=
  match alignUp range.size boundary with
  | none => none
  | some size => some ⟨alignDown range.front boundary, size⟩

/-! ## What they promise -/

/-- `range_align_out` gives an aligned range that covers the old one, if it gives one. -/
def AlignsOutward (range : Range) (boundary : Nat) : Prop :=
  ∀ out, range.alignOut boundary = some out →
    boundary ∣ out.front ∧ boundary ∣ out.size ∧ range.locs ⊆ out.locs

/-- `range_align_in` gives an aligned range inside the old one. -/
def AlignsInward (range : Range) (boundary : Nat) : Prop :=
  boundary ∣ (range.alignIn boundary).front ∧ boundary ∣ (range.alignIn boundary).size ∧
    (range.alignIn boundary).locs ⊆ range.locs

/--
When rounding outward covers: there is nothing to round or to cover, or what the front moves
down by fits into what the size moves up by.
-/
def RoundsOut (range : Range) (boundary : Nat) : Prop :=
  U64 ≤ range.size + (boundary - 1) ∨ range.size = 0 ∨ range.front % boundary = 0 ∨
    (range.size % boundary ≠ 0 ∧ range.front % boundary + range.size % boundary ≤ boundary)

/--
When rounding inward stays inside: the front cannot be rounded, or is aligned, or there is no
whole multiple in the size, or what the front moves up by fits into what the size moves down by.
-/
def RoundsIn (range : Range) (boundary : Nat) : Prop :=
  U64 ≤ range.front + (boundary - 1) ∨ range.front % boundary = 0 ∨ range.size < boundary ∨
    boundary ≤ range.front % boundary + range.size % boundary

instance (range : Range) (boundary : Nat) : Decidable (range.RoundsOut boundary) :=
  inferInstanceAs (Decidable (_ ∨ _))

instance (range : Range) (boundary : Nat) : Decidable (range.RoundsIn boundary) :=
  inferInstanceAs (Decidable (_ ∨ _))

/-! ## When they keep it -/

/-- One range covers another that is not empty if it does so at both ends. -/
theorem locs_subset_iff {r other : Range} (h : 0 < r.size) :
    r.locs ⊆ other.locs ↔ other.front ≤ r.front ∧ r.end_ ≤ other.end_ :=
  Set.Ico_subset_Ico_iff (Nat.lt_add_of_pos_right h)

theorem locs_empty {r : Range} (h : r.size = 0) : r.locs = ∅ := by
  unfold locs end_
  rw [h, add_zero]
  exact Set.Ico_self _

section

variable {r : Range} {k : Nat}

theorem alignsOutward_iff (hk : k < 64) (hfront : r.front < U64) :
    r.AlignsOutward (2 ^ k) ↔ r.RoundsOut (2 ^ k) := by
  unfold AlignsOutward RoundsOut alignOut
  cases hup : alignUp r.size (2 ^ k) with
  | none =>
    have hover := alignUp_eq_none.mp hup
    exact iff_of_true (fun out h => by cases h) (Or.inl hover)
  | some size =>
    have hroom : ¬ U64 ≤ r.size + (2 ^ k - 1) := fun hover => by
      rw [alignUp_eq_none.mpr hover] at hup
      cases hup
    have hsize := alignUp_eq_some hk.le hup
    have hdvd := (alignUp_two_pow hk.le hup).1
    have hdown := alignDown_two_pow hk.le hfront
    have hmods : r.size % 2 ^ k ≤ r.size := Nat.mod_le _ _
    have hfle : r.front % 2 ^ k ≤ r.front := Nat.mod_le _ _
    simp only [Option.some.injEq, forall_eq', hdown, hdvd, Nat.dvd_sub_mod, true_and, hroom,
      false_or]
    rcases Nat.eq_zero_or_pos r.size with hzero | hpos
    · simp only [locs_empty hzero, Set.empty_subset, hzero, true_or]
    · rw [locs_subset_iff hpos]
      simp only [end_, hsize]
      split
      · omega
      · omega

theorem alignsInward_iff (hk : k < 64) (hsize : r.size < U64) :
    r.AlignsInward (2 ^ k) ↔ r.RoundsIn (2 ^ k) := by
  have hempty : (⟨0, 0⟩ : Range).locs = ∅ := locs_empty rfl
  unfold AlignsInward RoundsIn alignIn
  cases hup : alignUp r.front (2 ^ k) with
  | none =>
    have hover := alignUp_eq_none.mp hup
    simp only [dvd_zero, hempty, Set.empty_subset, and_self, true_iff]
    exact Or.inl hover
  | some front =>
    have hroom : ¬ U64 ≤ r.front + (2 ^ k - 1) := fun hover => by
      rw [alignUp_eq_none.mpr hover] at hup
      cases hup
    have hfront := alignUp_eq_some hk.le hup
    have hdvd := (alignUp_two_pow hk.le hup).1
    have hdown := alignDown_two_pow hk.le hsize
    have hfle : r.front % 2 ^ k ≤ r.front := Nat.mod_le _ _
    by_cases hleft : r.size ≤ front - r.front
    · simp only [if_pos hleft, dvd_zero, hempty, Set.empty_subset, and_self, true_iff]
      split at hfront <;> omega
    · simp only [if_neg hleft, hdvd, hdown, Nat.dvd_sub_mod, true_and]
      by_cases hsmall : r.size < 2 ^ k
      · have hnone : (⟨front, r.size - r.size % 2 ^ k⟩ : Range).size = 0 := by
          rw [Nat.mod_eq_of_lt hsmall, Nat.sub_self]
        simp only [locs_empty hnone, Set.empty_subset, hsmall, true_or, or_true]
      · have hle : 2 ^ k ≤ r.size - r.size % 2 ^ k :=
          Nat.le_of_dvd (by omega) (Nat.dvd_sub_mod r.size)
        have hpos : 0 < r.size - r.size % 2 ^ k := lt_of_lt_of_le (Nat.two_pow_pos k) hle
        rw [locs_subset_iff hpos]
        simp only [end_, hsmall, false_or]
        split at hfront <;> omega

end

/--
**Aligning keeps its promises exactly when the remainders allow it.** For every range of 64-bit
words and every power of two, `range_align_out` covers the range iff what the front is rounded
down by fits into what the size is rounded up by, and `range_align_in` stays inside it iff what the
front is rounded up by fits into what the size is rounded down by.
-/
theorem align_contains_iff (r : Range) (k : Nat) (hk : k < 64) (hfront : r.front < U64)
    (hsize : r.size < U64) :
    (r.AlignsOutward (2 ^ k) ↔ r.RoundsOut (2 ^ k)) ∧
      (r.AlignsInward (2 ^ k) ↔ r.RoundsIn (2 ^ k)) :=
  ⟨alignsOutward_iff hk hfront, alignsInward_iff hk hsize⟩

/-- An eighth of a page, in the middle of one: both functions keep their promises. -/
theorem align_contains_iff_eighth :
    (⟨0x1200, 0x200⟩ : Range).AlignsOutward (2 ^ 12) ∧
      (⟨0x1200, 0x200⟩ : Range).AlignsInward (2 ^ 12) :=
  ⟨(align_contains_iff ⟨0x1200, 0x200⟩ 12 (by decide) (by decide) (by decide)).1.mpr (by decide),
    (align_contains_iff ⟨0x1200, 0x200⟩ 12 (by decide) (by decide) (by decide)).2.mpr (by decide)⟩

/--
Two pages that begin in the middle of one. Rounding outward gives the first two of the three pages
touched, and rounding inward gives two pages of which only one lies in the range.
-/
theorem align_misses_page :
    (⟨0x800, 0x2000⟩ : Range).alignOut (2 ^ 12) = some ⟨0, 0x2000⟩ ∧
      ¬ (⟨0x800, 0x2000⟩ : Range).AlignsOutward (2 ^ 12) ∧
      (⟨0x800, 0x2000⟩ : Range).alignIn (2 ^ 12) = ⟨0x1000, 0x2000⟩ ∧
      ¬ (⟨0x800, 0x2000⟩ : Range).AlignsInward (2 ^ 12) := by
  refine ⟨by decide, ?_, by decide, ?_⟩
  · rw [alignsOutward_iff (by decide) (by decide)]
    decide
  · rw [alignsInward_iff (by decide) (by decide)]
    decide

end Range

end OsKernel.Adt
