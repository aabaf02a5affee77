import OsKernel.Adt.Range
import OsKernel.Base.Runs

/-!
# Runs of bits (`lib/bits.h`, `lib/bits.c`)

`for_every_lsb_one_bit_rng` goes through a word run by run: it counts the zeros up to the next
one, then the ones from there, and cuts the run off at the end index. The loop for zeros is the
same loop over the complement.
-/

namespace OsKernel.Lib

open BitVec

open Adt (Range)

/-- `count_lsb_zero_bits`. -/
def countLsbZeroBits (number : BitVec 64) (startIndex : Nat) : Nat :=
  let number := number >>> startIndex
  (if number = 0 then 64 - startIndex else number.ctz.toNat) % 2 ^ 8

/-- `count_lsb_one_bits`. -/
def countLsbOneBits (number : BitVec 64) (startIndex : Nat) : Nat :=
  countLsbZeroBits (~~~number) startIndex

/-- `find_lsb_one_bit`. -/
def findLsbOneBit (number : BitVec 64) (startIndex : Nat) : Nat :=
  (countLsbZeroBits number startIndex + startIndex) % 2 ^ 8

/-- `FIND_BIT_INVALID`. -/
def FIND_BIT_INVALID : Nat := U64 - 1

/-- `get_range_of_lsb_one_bits`. -/
def getRangeOfLsbOneBits (number : BitVec 64) (startIndex endIndex : Nat) : Range :=
  let first := findLsbOneBit number startIndex
  if first = FIND_BIT_INVALID ∨ ¬ first < endIndex then ⟨0, 0⟩
  else
    let result : Range := ⟨first, countLsbOneBits number first⟩
    match result.getEnd with
    | some resultEnd => if resultEnd > endIndex then ⟨first, endIndex - first⟩ else result
    | none => ⟨first, endIndex - first⟩

/-- `get_range_of_lsb_zero_bits`. -/
def getRangeOfLsbZeroBits (number : BitVec 64) (startIndex endIndex : Nat) : Range :=
  getRangeOfLsbOneBits (~~~number) startIndex endIndex

/-- `get_next_range_of_lsb_one_bits` and `get_next_range_of_lsb_zero_bits`. -/
def getNextRangeOfLsbBits (getRange : Nat → Nat → Range) (prev : Range) (endIndex : Nat) :
    Result Range := do
  let prevEnd ← prev.getEndAssert
  if prevEnd = 64 then pure ⟨0, 0⟩ else pure (getRange prevEnd endIndex)

/-- The ranges that a loop over `get_next_range_of_lsb_*_bits` has from `iter` on. -/
def rangesFrom (getRange : Nat → Nat → Range) (endIndex : Nat) : Nat → Range → Result (List Range)
  | 0, _ => .error .outOfFuel
  | fuel + 1, iter =>
    if iter.empty then pure []
    else do
      let next ← getNextRangeOfLsbBits getRange iter endIndex
      let rest ← rangesFrom getRange endIndex fuel next
      pure (iter :: rest)

/-- `for_every_lsb_one_bit_rng`. -/
def forEveryLsbOneBitRng (fuel : Nat) (number : BitVec 64) (startIndex endIndex : Nat) :
    Result (List Range) :=
  rangesFrom (getRangeOfLsbOneBits number) endIndex fuel
    (getRangeOfLsbOneBits number startIndex endIndex)

/-- `for_every_lsb_zero_bit_rng`. -/
def forEveryLsbZeroBitRng (fuel : Nat) (number : BitVec 64) (startIndex endIndex : Nat) :
    Result (List Range) :=
  rangesFrom (getRangeOfLsbZeroBits number) endIndex fuel
    (getRangeOfLsbZeroBits number startIndex endIndex)

/-! ## One range -/

variable {number : BitVec 64} {start end_ : Nat} {P : Nat → Prop}

/-- The zeros from `start` on, up to a one or the end of the word. -/
theorem countLsbZeroBits_spec (number : BitVec 64) (hstart : start < 64) :
    ∃ first, countLsbZeroBits number start = first - start ∧ start ≤ first ∧ first ≤ 64 ∧
      (∀ q, start ≤ q → q < first → ¬ number.getLsbD q = true) ∧
      (first = 64 ∨ number.getLsbD first = true) := by
  have hshift : ∀ q, start ≤ q → number.getLsbD q = (number >>> start).getLsbD (q - start) := by
    intro q hq
    rw [getLsbD_ushiftRight, Nat.add_sub_cancel' hq]
  by_cases hzero : number >>> start = 0
  · refine ⟨64, ?_, hstart.le, le_rfl, ?_, .inl rfl⟩
    · simp only [countLsbZeroBits, hzero, if_true]
      omega
    · intro q hq _
      rw [hshift q hq, hzero]
      simp
  · have hone := getLsbD_true_ctz_of_ne_zero hzero
    rw [getLsbD_ushiftRight] at hone
    have hlt := lt_of_getLsbD hone
    refine ⟨start + (number >>> start).ctz.toNat, ?_, le_self_add, hlt.le, ?_, .inr hone⟩
    · simp only [countLsbZeroBits, hzero, if_false]
      omega
    · intro q hq hqlt
      rw [hshift q hq, getLsbD_false_of_lt_ctz (by omega)]
      exact Bool.false_ne_true

/-- There is no one, or the range is the first run of ones. -/
theorem getRangeOfLsbOneBits_cases (hP : ∀ q < 64, number.getLsbD q = true ↔ P q)
    (hstart : start < 64) (hend : end_ ≤ 64) :
    getRangeOfLsbOneBits number start end_ = ⟨0, 0⟩ ∧ (∀ q, start ≤ q → q < end_ → ¬ P q) ∨
      ∃ first stop, getRangeOfLsbOneBits number start end_ = ⟨first, stop - first⟩ ∧
        start ≤ first ∧ first < stop ∧ stop ≤ end_ ∧ (∀ q, start ≤ q → q < first → ¬ P q) ∧
        (∀ q, first ≤ q → q < stop → P q) ∧ (stop = end_ ∨ stop < end_ ∧ ¬ P stop) := by
  obtain ⟨first, hcount, hle, hfirst, hzeros, hone⟩ := countLsbZeroBits_spec number hstart
  have hbefore : ∀ q, start ≤ q → q < first → ¬ P q := by
    intro q hq hlt
    exact (hP q (by omega)).not.mp (hzeros q hq hlt)
  have hfind : findLsbOneBit number start = first := by
    rw [findLsbOneBit, hcount]
    omega
  have hvalid : first ≠ FIND_BIT_INVALID := by
    simp only [FIND_BIT_INVALID, U64]
    omega
  simp only [getRangeOfLsbOneBits, hfind, hvalid, false_or]
  by_cases hin : first < end_
  · right
    -- the zeros of the complement are the ones that follow
    obtain ⟨stop, hones, hle', hstop, hall, hzero⟩ :=
      countLsbZeroBits_spec (~~~number) (by omega : first < 64)
    have hcompl : ∀ q < 64, (~~~number).getLsbD q = true ↔ ¬ P q := by
      intro q hq
      simp [hq, ← hP q hq]
    have hrun : ∀ q, first ≤ q → q < stop → P q := by
      intro q hq hlt
      exact not_not.mp ((hcompl q (by omega)).not.mp (hall q hq hlt))
    have hlt : first < stop := by
      refine lt_of_le_of_ne hle' ?_
      rintro rfl
      have hfirst : P first := (hP first (by omega)).mp (hone.resolve_left (by omega))
      exact (hcompl first (by omega)).mp (hzero.resolve_left (by omega)) hfirst
    have hgetEnd : Range.getEnd ⟨first, countLsbOneBits number first⟩ = some stop := by
      rw [countLsbOneBits, hones, Range.getEnd_eq_some]
      simp only [Range.end_, U64]
      omega
    simp only [hin, not_true_eq_false, if_false, hgetEnd]
    by_cases hcut : stop > end_
    · exact ⟨first, end_, if_pos hcut, hle, hin, le_rfl, hbefore,
        fun q hq hqlt => hrun q hq (by omega), .inl rfl⟩
    · refine ⟨first, stop, ?_, hle, hlt, by omega, hbefore, hrun, ?_⟩
      · rw [if_neg hcut, countLsbOneBits, hones]
      · rcases eq_or_lt_of_le (not_lt.mp hcut) with heq | hless
        · exact .inl heq
        · exact .inr ⟨hless, (hcompl stop (by omega)).mp (hzero.resolve_left (by omega))⟩
  · exact .inl ⟨if_pos hin, fun q hq hlt => hbefore q hq (by omega)⟩

/-! ## The loop -/

/-- From any index on, the loop has the runs of ones behind it. -/
theorem rangesFrom_runs (hP : ∀ q < 64, number.getLsbD q = true ↔ P q) (hend : end_ ≤ 64) :
    ∀ fuel start, start ≤ 64 → 64 < fuel + start →
    ∃ runs, rangesFrom (getRangeOfLsbOneBits number) end_ fuel
        (if start = 64 then ⟨0, 0⟩ else getRangeOfLsbOneBits number start end_) = .ok runs ∧
      RunsOf P start end_ (runs.map fun r => (r.front, r.size))
  | 0, start, hstart, hfuel => by omega
  | fuel + 1, start, hstart, hfuel => by
    by_cases hlast : start = 64
    · rw [if_pos hlast]
      exact ⟨[], rfl, runsOf_nil (by omega)⟩
    rw [if_neg hlast]
    rcases getRangeOfLsbOneBits_cases hP (by omega : start < 64) hend with
      ⟨he, hnone⟩ | ⟨first, stop, he, hle, hlt, hstop, hzeros, hrun, hends⟩
    · rw [he]
      exact ⟨[], rfl, (runsOf_nil (le_max_right start end_)).skip (le_max_left _ _)
        fun q hq hlt => hnone q hq (by omega)⟩
    · have hget : Range.getEndAssert ⟨first, stop - first⟩ = .ok stop := by
        rw [Range.getEndAssert_eq] <;> simp only [Range.end_, U64]
        · congr 1
          omega
        · omega
      have hempty : Range.empty ⟨first, stop - first⟩ = false := by
        simp only [Range.empty, beq_eq_false_iff_ne]
        omega
      obtain ⟨rest, hrest, hruns⟩ := rangesFrom_runs hP hend fuel stop (by omega) (by omega)
      refine ⟨⟨first, stop - first⟩ :: rest, ?_, ?_⟩
      · simp only [he, rangesFrom, hempty, Bool.false_eq_true, if_false, getNextRangeOfLsbBits,
          hget, ok_bind, ← apply_ite, pure_eq_ok, hrest]
      · have hmore := (runsOf_succ_iff (hends.imp (fun h => h.ge) And.right)).mpr hruns
        exact (hmore.cons hlt hrun hends).skip hle hzeros

/--
**The loops visit the maximal runs**: of ones or of zeros among the bits from `start` up to
`end_`, each once and from the lowest to the highest.
-/
theorem forEveryLsbBitRng_runs (number : BitVec 64) (start end_ : Nat) (hlt : start < end_)
    (hend : end_ ≤ 64) (fuel : Nat) (hfuel : 64 < fuel) :
    (∃ runs, forEveryLsbOneBitRng fuel number start end_ = .ok runs ∧
      RunsOf (number.getLsbD · = true) start end_ (runs.map fun r => (r.front, r.size))) ∧
    ∃ runs, forEveryLsbZeroBitRng fuel number start end_ = .ok runs ∧
      RunsOf (number.getLsbD · = false) start end_ (runs.map fun r => (r.front, r.size)) := by
  have hcompl : ∀ q < 64, (~~~number).getLsbD q = true ↔ number.getLsbD q = false := by
    intro q hq
    simp [hq]
  have hself : ∀ q < 64, number.getLsbD q = true ↔ number.getLsbD q = true := fun _ _ => .rfl
  have hones := rangesFrom_runs hself hend fuel start (by omega) (by omega)
  have hzeros := rangesFrom_runs hcompl hend fuel start (by omega) (by omega)
  rw [if_neg (by omega)] at hones hzeros
  exact ⟨hones, hzeros⟩

/-- Bits 1 and 2 of the word 6 are a run. -/
theorem forEveryLsbBitRng_runs_six :
    forEveryLsbOneBitRng 65 6 0 4 = .ok [⟨1, 2⟩] ∧
      ∃ runs, forEveryLsbOneBitRng 65 6 0 4 = .ok runs ∧
        RunsOf ((6 : BitVec 64).getLsbD · = true) 0 4 (runs.map fun r => (r.front, r.size)) :=
  ⟨by decide +kernel, (forEveryLsbBitRng_runs 6 0 4 (by decide) (by decide) 65 (by decide)).1⟩

end OsKernel.Lib
