import OsKernel.Lib.Time

/-!
# The ISO 8601 week number

Weeks start on Mondays, and a week belongs to the year of its Thursday. The code counts
the Mondays of the year up to the day. The count is taken in 32 bits, and on the days
before the first Sunday of a year the difference in it is negative.
-/

namespace OsKernel.Lib

variable {weekday month year day yday : Nat}

/-- The number of the week of a day, counted in the year of the Thursday of that week. -/
def isoWeek (weekday year yday : Nat) : Nat :=
  let sinceMonday := (weekday + 6) % 7
  if yday + 3 < sinceMonday then (yday + 3 + yearGetDayCount (year - 1) - sinceMonday) / 7 + 1
  else if yearGetDayCount year ≤ yday + 3 - sinceMonday then
    (yday + 3 - sinceMonday - yearGetDayCount year) / 7 + 1
  else (yday + 3 - sinceMonday) / 7 + 1

theorem yearGetDayCount_cases (year : Nat) :
    yearGetDayCount year = 365 ∨ yearGetDayCount year = 366 := by
  unfold yearGetDayCount
  split
  · exact .inr rfl
  · exact .inl rfl

/-- The Mondays up to a day. With a difference below zero the number has no meaning. -/
theorem getWeekCountAtDay_eq (hday : weekday ≤ 6) (hyday : yday < 366) :
    getWeekCountAtDay weekday yday true =
      if weekday = 0 then (yday + 1) / 7
      else if weekday ≤ yday then (yday + 8 - weekday) / 7 else 36 + (yday + 12 - weekday) / 7 := by
  unfold getWeekCountAtDay toUnsigned WEEKDAY_COUNT
  by_cases hzero : weekday = 0
  · subst hzero
    simp only [Nat.cast_zero, ne_eq, not_true_eq_false, if_true, if_false]
    omega
  · simp only [hzero, if_true, if_false, ne_eq, Int.natCast_eq_zero, not_false_eq_true]
    split <;> omega

/--
What the code counts before it looks at December. It is the number of the week if the day's last Sunday
is in the year; for a Sunday before the first Thursday the code turns to the year before.
-/
theorem iso8601GetWeekNumber_eq (fuel day : Nat) (hday : weekday ≤ 6) (hmonth : 1 ≤ month ∧ month ≤ 12)
    (hyear : 1 ≤ year ∧ year < 2 ^ 64) (hyday : yday < 366) :
    ∃ count, iso8601GetWeekNumber (fuel + 2) weekday month year day yday =
        .ok (decemberWeek weekday month day count) ∧
      (yday < weekday ∧ 36 ≤ count ∧ count ≤ 38 ∨ weekday = 0 ∧ yday < 3 ∧ count = 52 ∨
        weekday ≤ yday ∧ (weekday = 0 → 3 ≤ yday) ∧
          count = (yday + 3 - (weekday + 6) % 7) / 7 + 1) := by
  have hvalid : (!weekdayIsValid weekday || !monthIsValid month) = false := by
    simp only [weekdayIsValid, monthIsValid, Bool.or_eq_false_iff, Bool.not_eq_false',
      Bool.and_eq_true, decide_eq_true_eq]
    omega
  rw [iso8601GetWeekNumber, hvalid, getWeekCountAtDay_eq hday hyday]
  generalize hcount : (if weekday = 0 then (yday + 1) / 7 else if weekday ≤ yday then
    (yday + 8 - weekday) / 7 else 36 + (yday + 12 - weekday) / 7) = count
  have hcases : yday < weekday ∧ 36 ≤ count ∧ count ≤ 37 ∨
      weekday ≤ yday ∧ count = (yday + 7 - (weekday + 6) % 7) / 7 := by
    split at hcount
    · exact .inr (by omega)
    · split at hcount
      · exact .inr (by omega)
      · exact .inl (by omega)
  have hsmall : count + 1 < 2 ^ 8 := by omega
  simp only [Bool.false_eq_true, if_false, Nat.mod_eq_of_lt hsmall]
  rcases hcases with ⟨hlt, hlow, hhigh⟩ | ⟨hle, heq⟩
  · split
    · exact ⟨count, rfl, .inl ⟨hlt, hlow, by omega⟩⟩
    · split
      · exact ⟨count + 1, rfl, .inl ⟨hlt, by omega, by omega⟩⟩
      · rw [if_pos (by omega)]
        exact ⟨count, rfl, .inl ⟨hlt, hlow, by omega⟩⟩
  · split
    · exact ⟨count, rfl, .inr (.inr ⟨hle, by omega, by omega⟩)⟩
    · split
      · exact ⟨count + 1, rfl, .inr (.inr ⟨hle, by omega, by omega⟩)⟩
      · split
        · exact ⟨count, rfl, .inr (.inr ⟨hle, by omega, by omega⟩)⟩
        · -- No Monday yet: the year before ended on a Saturday.
          have hprev : (year + (2 ^ 64 - 1)) % 2 ^ 64 = year - 1 := by omega
          obtain rfl : weekday = 0 := by omega
          refine ⟨52, ?_, .inr (.inl ⟨rfl, by omega, rfl⟩)⟩
          simp only [hprev, show weekdayPrev (0 : Nat) = 6 from rfl]
          rcases yearGetDayCount_cases (year - 1) with h | h <;> rw [h] <;> rfl

/--
**The week number is right** exactly when the days since the last Sunday are all in the year, except
on 3 January and, after a leap year, on 2 January if they are Sundays.
-/
theorem iso8601GetWeekNumber_iso_iff (fuel weekday month year day yday : Nat) (hday : weekday ≤ 6)
    (hmonth : 1 ≤ month ∧ month ≤ 12) (hyear : 2 ≤ year ∧ year < 2 ^ 64)
    (hyday : yday < yearGetDayCount year)
    (hdate : if month = MONTH_DECEMBER then yday + 32 = yearGetDayCount year + day
      else yday + 31 < yearGetDayCount year) :
    iso8601GetWeekNumber (fuel + 2) weekday month year day yday = .ok (isoWeek weekday year yday) ↔
      weekday ≤ yday ∧ ¬ (weekday = 0 ∧ yday = 2) ∧
        ¬ (weekday = 0 ∧ yday = 1 ∧ yearGetDayCount (year - 1) = 366) := by
  have hlength := yearGetDayCount_cases year
  have hprev := yearGetDayCount_cases (year - 1)
  obtain ⟨count, hrun, hcount⟩ := iso8601GetWeekNumber_eq fuel day hday hmonth
    (show 1 ≤ year ∧ year < 2 ^ 64 by omega) (show yday < 366 by omega)
  have hlast : decemberWeek weekday month day count =
      if yearGetDayCount year ≤ yday + 3 - (weekday + 6) % 7 then 1 else count := by
    unfold decemberWeek
    congr 1
    rw [eq_iff_iff]
    split at hdate <;> omega
  rw [hrun, Except.ok.injEq, hlast, isoWeek]
  split
  · rw [if_neg (by omega)]
    omega
  · split
    · omega
    · omega

/-- 30 December 2024, a Monday. -/
theorem iso8601GetWeekNumber_iso_december : iso8601GetWeekNumber 2 1 12 2024 30 364 = .ok 1 :=
  (iso8601GetWeekNumber_iso_iff 0 1 12 2024 30 364 (by decide) (by decide) (by decide) (by decide)
    (by decide)).mpr (by decide)

/-- 1 January 2024, a Monday, is in the first week. -/
theorem iso8601GetWeekNumber_new_year :
    iso8601GetWeekNumber 2 1 1 2024 1 0 = .ok 37 ∧ isoWeek 1 2024 0 = 1 := by
  decide

end OsKernel.Lib
