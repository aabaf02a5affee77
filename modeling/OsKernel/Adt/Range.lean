import OsKernel.Base.Fault
import OsKernel.Lib.Align

/-!
# Ranges (`lib/adt/range.c`)

A range is a front and a size, both 64-bit. The predicates take the subtraction as a
parameter: the source subtracts words, and does so only where a comparison before it has shown
that the difference is not negative. The end of a range is the one sum, and it is checked.
-/

namespace OsKernel.Adt

/-- `struct range`. -/
structure Range where
  front : Nat
  size : Nat
  deriving DecidableEq, Repr

namespace Range

variable {r other : Range} {loc : Nat}

/-- `range_create_end`, which asserts that the end is not below the front. -/
def createEnd (front end_ : Nat) : Result Range :=
  if front ≤ end_ then .ok ⟨front, end_ - front⟩ else .error .panic

/-- `range_has_index`. -/
def hasIndex (range : Range) (index : Nat) : Bool := index < range.size

section code

-- how the words are subtracted
variable (sub : Nat → Nat → Nat) (range other : Range)

def hasLocBy (loc : Nat) : Bool := range.front ≤ loc && sub loc range.front < range.size

def isLocAboveBy (loc : Nat) : Bool := range.front ≤ loc && range.size ≤ sub loc range.front

-- the assertion in `range_index_for_loc` repeats the first check
def hasBy : Bool :=
  if !range.hasLocBy sub other.front then false
  else
    let index := sub other.front range.front
    if !range.hasIndex index then false else other.size ≤ sub range.size index

def hasIndexRangeBy : Bool :=
  if !range.hasIndex other.front then false else other.size ≤ sub range.size other.front

def overlapsBy : Bool := range.hasLocBy sub other.front || other.hasLocBy sub range.front

end code

/-- `range_has_loc`. -/
def hasLoc (range : Range) (loc : Nat) : Bool := range.hasLocBy sub64 loc

/-- `range_get_end`: `none` where the source returns false. -/
def getEnd (range : Range) : Option Nat :=
  if range.front + range.size < U64 then some (range.front + range.size) else none

/-- `range_get_end_assert`. -/
def getEndAssert (range : Range) : Result Nat :=
  match range.getEnd with
  | some end_ => .ok end_
  | none => .error .panic

/-- `range_is_loc_above`: the location is at the end of the range, or above it. -/
def isLocAbove (range : Range) (loc : Nat) : Bool := range.isLocAboveBy sub64 loc

/-- `range_above`: the range `above` is above this one. -/
def above (range above : Range) : Bool := range.isLocAbove above.front

/-- `range_has`. -/
def has (range other : Range) : Bool := range.hasBy sub64 other

/-- `range_has_index_range`. -/
def hasIndexRange (range other : Range) : Bool := range.hasIndexRangeBy sub64 other

/-- `range_overlaps`. -/
def overlaps (range other : Range) : Bool := range.overlapsBy sub64 other

theorem overlaps_eq : r.overlaps other = (r.hasLoc other.front || other.hasLoc r.front) := rfl

/-- `range_empty`. -/
def empty (range : Range) : Bool := range.size == 0

/-- `range_has_align`. -/
def hasAlign (range : Range) (align : Nat) : Bool :=
  OsKernel.hasAlign range.front align && OsKernel.hasAlign range.size align

/-! ## What they decide -/

/-- The end of a range. -/
def end_ (range : Range) : Nat := range.front + range.size

/-- The locations in a range. -/
def locs (range : Range) : Set Nat := Set.Ico range.front range.end_

/-- Not empty, and the end is a 64-bit number. -/
def Fits (range : Range) : Prop := 0 < range.size ∧ range.end_ < U64

instance (range : Range) : Decidable range.Fits := inferInstanceAs (Decidable (_ ∧ _))

/-! Every subtraction is guarded, so it is one of natural numbers. -/

theorem hasLoc_eq : r.hasLoc loc = r.hasLocBy Nat.sub loc := by
  by_cases hle : r.front ≤ loc
  · rw [hasLoc, hasLocBy, hasLocBy, sub64_of_le hle, Nat.sub_eq]
  · simp [hasLoc, hasLocBy, hle]

theorem isLocAbove_eq : r.isLocAbove loc = r.isLocAboveBy Nat.sub loc := by
  by_cases hle : r.front ≤ loc
  · rw [isLocAbove, isLocAboveBy, isLocAboveBy, sub64_of_le hle, Nat.sub_eq]
  · simp [isLocAbove, isLocAboveBy, hle]

theorem hasIndexRange_eq : r.hasIndexRange other = r.hasIndexRangeBy Nat.sub other := by
  by_cases hin : other.front < r.size
  · rw [hasIndexRange, hasIndexRangeBy, hasIndexRangeBy, sub64_of_le hin.le, Nat.sub_eq]
  · simp [hasIndexRange, hasIndexRangeBy, hasIndex, hin]

theorem hasLoc_iff : r.hasLoc loc = true ↔ loc ∈ r.locs := by
  simp only [hasLoc_eq, hasLocBy, locs, end_, Bool.and_eq_true, decide_eq_true_eq, Set.mem_Ico,
    Nat.sub_eq]
  omega

theorem has_eq : r.has other = r.hasBy Nat.sub other := by
  have hloc : r.hasLocBy sub64 other.front = r.hasLocBy Nat.sub other.front := hasLoc_eq
  rw [has, hasBy, hasBy, hloc]
  by_cases hin : r.hasLocBy Nat.sub other.front = true
  · rw [← hloc] at hin
    obtain ⟨hle, hlt⟩ := hasLoc_iff.mp hin
    have hsize : other.front - r.front ≤ r.size := by
      rw [end_] at hlt
      omega
    simp only [sub64_of_le hle, sub64_of_le hsize, Nat.sub_eq]
  · simp [hin]

theorem getEnd_eq_some : r.getEnd = some loc ↔ r.end_ = loc ∧ r.end_ < U64 := by
  unfold getEnd end_
  split
  · rename_i hfits
    rw [Option.some.injEq, and_iff_left hfits]
  · rename_i hfits
    simp only [reduceCtorEq, false_iff]
    exact fun h => hfits h.2

theorem isLocAbove_iff : r.isLocAbove loc = true ↔ r.end_ ≤ loc := by
  simp only [isLocAbove_eq, isLocAboveBy, end_, Bool.and_eq_true, decide_eq_true_eq, Nat.sub_eq]
  omega

theorem has_iff_mem :
    r.has other = true ↔ other.front ∈ r.locs ∧ other.end_ ≤ r.end_ := by
  rw [has_eq, hasBy, ← hasLoc_eq]
  by_cases hloc : r.hasLoc other.front = true
  · have hmem := hasLoc_iff.mp hloc
    simp only [locs, end_, Set.mem_Ico] at hmem
    have hindex : r.hasIndex (other.front - r.front) = true := by
      simp only [hasIndex, decide_eq_true_eq]
      omega
    simp only [hloc, hindex, Bool.not_true, Bool.false_eq_true, if_false, decide_eq_true_eq, locs,
      end_, Set.mem_Ico, Nat.sub_eq]
    omega
  · have hmem := mt hasLoc_iff.mpr hloc
    simp only [hloc, Bool.not_false, if_true, Bool.false_eq_true, hmem, false_and]

theorem has_iff (h : 0 < other.size) :
    r.has other = true ↔ r.front ≤ other.front ∧ other.end_ ≤ r.end_ := by
  rw [has_iff_mem]
  simp only [locs, end_, Set.mem_Ico]
  omega

theorem overlaps_iff (h : 0 < r.size) (h' : 0 < other.size) :
    r.overlaps other = true ↔ r.front < other.end_ ∧ other.front < r.end_ := by
  simp only [overlaps_eq, Bool.or_eq_true, hasLoc_iff, locs, end_, Set.mem_Ico]
  omega

theorem getEndAssert_eq (h : r.end_ < U64) : r.getEndAssert = .ok r.end_ := by
  simp only [getEndAssert, getEnd, end_] at h ⊢
  rw [if_pos h]

theorem getEndAssert_panic (h : ¬ r.end_ < U64) : r.getEndAssert = .error .panic := by
  simp only [getEndAssert, getEnd, end_] at h ⊢
  rw [if_neg h]

theorem disjoint_locs (h : r.end_ ≤ other.front) : Disjoint r.locs other.locs := by
  rw [Set.disjoint_left]
  intro x hx hx'
  exact absurd hx.2 (not_lt.mpr (h.trans hx'.1))

end Range

end OsKernel.Adt
