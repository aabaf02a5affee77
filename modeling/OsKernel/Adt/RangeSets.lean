import OsKernel.Adt.RangeAlign

/-!
# Ranges as sets (`lib/adt/range.c`)

What the predicates on ranges say about the numbers in them, also for a range that ends above the
last word. Where it goes wrong is an empty range: `range_overlaps` takes its front for an element.
-/

namespace OsKernel.Adt.Range

variable {a b : Range}

theorem hasIndexRange_iff (h : 0 < b.size) : a.hasIndexRange b = true ↔ b.locs ⊆ Set.Ico 0 a.size := by
  have hset : Set.Ico 0 a.size = locs ⟨0, a.size⟩ := by simp [locs, end_]
  rw [hset, locs_subset_iff h]
  by_cases hin : b.front < a.size
  · simp only [hasIndexRange_eq, hasIndexRangeBy, hasIndex, end_, hin, decide_true, Bool.not_true,
      Bool.false_eq_true, if_false, decide_eq_true_eq, Nat.sub_eq]
    omega
  · simp only [hasIndexRange_eq, hasIndexRangeBy, hasIndex, end_, hin, decide_false, Bool.not_false,
      if_true, Bool.false_eq_true, false_iff]
    omega

theorem overlaps_trichotomy (ha : 0 < a.size) (hb : 0 < b.size) :
    [a.overlaps b, a.above b, b.above a].count true = 1 := by
  have ho := overlaps_iff ha hb
  have hab : a.above b = true ↔ a.end_ ≤ b.front := isLocAbove_iff
  have hba : b.above a = true ↔ b.end_ ≤ a.front := isLocAbove_iff
  simp only [end_] at ho hab hba
  cases h₁ : a.overlaps b <;> cases h₂ : a.above b <;> cases h₃ : b.above a <;>
    simp only [h₁, h₂, h₃, true_iff, Bool.false_eq_true, false_iff] at ho hab hba <;>
    first | rfl | omega

theorem overlaps_iff_inter (hb : 0 < b.size) :
    (a.overlaps b = true ↔ (a.locs ∩ b.locs).Nonempty) ↔ (a.size = 0 → a.front ∉ b.locs) := by
  rcases Nat.eq_zero_or_pos a.size with h0 | hpos
  · -- nothing is in the empty range, so only its front can be found
    have hloc : a.hasLoc b.front = false := by
      rw [Bool.eq_false_iff, Ne, hasLoc_iff, locs_empty h0]
      exact Set.notMem_empty _
    simp [overlaps_eq, hloc, hasLoc_iff, locs_empty h0, h0]
  · have hset : (a.locs ∩ b.locs).Nonempty ↔ a.front < b.end_ ∧ b.front < a.end_ := by
      rw [locs, locs, Set.Ico_inter_Ico, Set.nonempty_Ico]
      simp only [end_, max_lt_iff, lt_min_iff]
      omega
    simp only [overlaps_iff hpos hb, hset, hpos.ne', false_imp_iff]

/--
**The predicates speak of sets exactly if no empty range is asked for inside the other**: for
all fronts and sizes and a second range that is not empty. No word that wraps around changes an
answer: they are those of the subtraction of natural numbers.
-/
theorem predicates_sets_iff (a b : Range) (hpos : 0 < b.size) :
    ((a.has b = true ↔ b.locs ⊆ a.locs) ∧ (a.overlaps b = true ↔ (a.locs ∩ b.locs).Nonempty) ∧
      (a.hasIndexRange b = true ↔ b.locs ⊆ Set.Ico 0 a.size) ∧
      (0 < a.size → [a.overlaps b, a.above b, b.above a].count true = 1) ∧
      a.hasBy Nat.sub b = a.has b ∧ a.overlapsBy Nat.sub b = a.overlaps b ∧
      a.hasIndexRangeBy Nat.sub b = a.hasIndexRange b ∧
      a.isLocAboveBy Nat.sub b.front = a.above b ∧ b.isLocAboveBy Nat.sub a.front = b.above a) ↔
      (a.size = 0 → a.front ∉ b.locs) := by
  have hover : a.overlapsBy Nat.sub b = a.overlaps b := by
    rw [overlapsBy, ← hasLoc_eq, ← hasLoc_eq, overlaps_eq]
  have hhas : a.has b = true ↔ b.locs ⊆ a.locs := by rw [has_iff hpos, locs_subset_iff hpos]
  rw [← overlaps_iff_inter hpos]
  exact ⟨fun h => h.2.1, fun h => ⟨hhas, h, hasIndexRange_iff hpos,
    fun h0 => overlaps_trichotomy h0 hpos, has_eq.symm, hover, hasIndexRange_eq.symm,
    isLocAbove_eq.symm, isLocAbove_eq.symm⟩⟩

/-- A range whose end is above the last word. -/
theorem predicates_sets_iff_top :
    (overlaps ⟨U64 - 1, 9⟩ ⟨U64 - 2, 2⟩ = true ↔
      ((locs ⟨U64 - 1, 9⟩) ∩ locs ⟨U64 - 2, 2⟩).Nonempty) :=
  ((predicates_sets_iff ⟨U64 - 1, 9⟩ ⟨U64 - 2, 2⟩ (by decide)).mpr
    (fun h => absurd h (by decide))).2.1

/-- An empty range inside another is said to overlap it. -/
theorem overlaps_empty :
    overlaps ⟨5, 0⟩ ⟨0, 10⟩ = true ∧ ¬ (locs ⟨5, 0⟩ ∩ locs ⟨0, 10⟩).Nonempty :=
  ⟨rfl, by simp [locs_empty]⟩

end OsKernel.Adt.Range
