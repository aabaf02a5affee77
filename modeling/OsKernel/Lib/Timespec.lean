import Mathlib

/-!
# Times in seconds and nanoseconds (`lib/time.h`)

`timespec_add` carries a full second over and `timespec_sub` borrows one. The borrow is a
nanosecond short: it adds `NANO_IN_SECONDS - 1` where a second has `NANO_IN_SECONDS`.
-/

namespace OsKernel.Lib

abbrev NANO_IN_SECONDS : Nat := 10 ^ 9

/-- `struct timespec`. -/
structure Timespec where
  tvSec : Nat
  tvNsec : Nat
  deriving DecidableEq

/-- `timespec_add`. -/
def timespecAdd (left right : Timespec) : Timespec :=
  let nsec := (left.tvNsec + right.tvNsec) % 2 ^ 64
  if nsec / NANO_IN_SECONDS ≠ 0 then
    ⟨(left.tvSec + 1 + right.tvSec) % 2 ^ 64, nsec % NANO_IN_SECONDS⟩
  else ⟨(left.tvSec + right.tvSec) % 2 ^ 64, nsec⟩

/-- `timespec_sub` after the nanoseconds: zero where there are too few seconds. -/
def subSeconds (left right : Timespec) : Timespec :=
  if left.tvSec < right.tvSec then ⟨0, 0⟩ else ⟨left.tvSec - right.tvSec, left.tvNsec⟩

/-- `timespec_sub`. -/
def timespecSub (left right : Timespec) : Timespec :=
  if left.tvNsec < right.tvNsec then
    let nsec := (NANO_IN_SECONDS - 1 + (2 ^ 64 - (right.tvNsec - left.tvNsec))) % 2 ^ 64
    if left.tvSec = 0 then ⟨0, 0⟩ else subSeconds ⟨left.tvSec - 1, nsec⟩ right
  else subSeconds ⟨left.tvSec, left.tvNsec - right.tvNsec⟩ right

namespace Timespec

/-- The nanoseconds are less than a second. -/
abbrev Normalised (t : Timespec) : Prop := t.tvNsec < NANO_IN_SECONDS

/-- The time in nanoseconds. -/
def total (t : Timespec) : Nat := t.tvSec * NANO_IN_SECONDS + t.tvNsec

variable {a b : Timespec}

theorem Normalised.eq_iff (ha : a.Normalised) (hb : b.Normalised) : a = b ↔ a.total = b.total := by
  refine ⟨fun h => h ▸ rfl, fun h => ?_⟩
  simp only [Normalised, total, NANO_IN_SECONDS] at ha hb h
  obtain ⟨hsec, hnsec⟩ : a.tvSec = b.tvSec ∧ a.tvNsec = b.tvNsec := by omega
  cases a
  simp only at hsec hnsec
  rw [hsec, hnsec]

section

variable (ha : a.Normalised) (hb : b.Normalised)
include ha hb

theorem Normalised.add (hroom : a.total + b.total < 2 ^ 64 * NANO_IN_SECONDS) :
    (timespecAdd a b).Normalised ∧ (timespecAdd a b).total = a.total + b.total := by
  simp only [Normalised, total, timespecAdd, NANO_IN_SECONDS] at *
  split <;> simp only <;> omega

/-- A difference for which a second is borrowed is a nanosecond short. -/
theorem Normalised.sub (hle : b.total ≤ a.total) :
    (timespecSub a b).Normalised ∧ (timespecSub a b).tvSec ≤ a.tvSec ∧
      (timespecSub a b).total + b.total + (if a.tvNsec < b.tvNsec then 1 else 0) = a.total := by
  simp only [Normalised, total, timespecSub, subSeconds, NANO_IN_SECONDS] at *
  by_cases hborrow : a.tvNsec < b.tvNsec
  · rw [if_pos hborrow, if_pos hborrow, if_neg (by omega), if_neg (by omega)]
    simp only
    omega
  · rw [if_neg hborrow, if_neg hborrow, if_neg (by omega)]
    simp only
    omega

end

end Timespec

/--
**Sums and differences are normalised, and adding back gives the time again exactly when nothing was
borrowed.**
-/
theorem timespecSub_add_iff (a b : Timespec) (ha : a.Normalised) (hb : b.Normalised)
    (hle : b.total ≤ a.total) (hroom : a.total + b.total < 2 ^ 64 * NANO_IN_SECONDS) :
    (timespecSub a b).Normalised ∧ (timespecAdd a b).Normalised ∧
      (timespecAdd (timespecSub a b) b = a ↔ b.tvNsec ≤ a.tvNsec) := by
  obtain ⟨hsub, hsec, htotal⟩ := ha.sub hb hle
  obtain ⟨hback, hsum⟩ := hsub.add hb (by omega)
  refine ⟨hsub, (ha.add hb hroom).1, ?_⟩
  rw [hback.eq_iff ha, hsum, ← htotal, ← Nat.not_lt]
  split <;> omega

theorem timespecSub_add_iff_second :
    (timespecSub ⟨2, 5⟩ ⟨1, 3⟩).Normalised ∧ (timespecAdd ⟨2, 5⟩ ⟨1, 3⟩).Normalised ∧
      (timespecAdd (timespecSub ⟨2, 5⟩ ⟨1, 3⟩) ⟨1, 3⟩ = ⟨2, 5⟩ ↔ 3 ≤ 5) :=
  timespecSub_add_iff ⟨2, 5⟩ ⟨1, 3⟩ (by decide) (by decide) (by decide) (by decide)

/-- One nanosecond less than a second comes back another nanosecond short. -/
theorem timespecSub_borrows_short : timespecSub ⟨1, 0⟩ ⟨0, 1⟩ = ⟨0, 999999998⟩ ∧
    timespecAdd (timespecSub ⟨1, 0⟩ ⟨0, 1⟩) ⟨0, 1⟩ = ⟨0, 999999999⟩ := by
  decide

end OsKernel.Lib
