import OsKernel.Base.Fault

/-!
# Calendar functions (`lib/time.c`)

`enum weekday` has a negative member and is an `int`; `enum month` has none and is an
`unsigned int`. The fields of `struct tm` are arbitrary 32-bit numbers.
-/

namespace OsKernel.Lib

def WEEKDAY_COUNT : Nat := 7

def MONTH_JANUARY : Nat := 1

def MONTH_DECEMBER : Nat := 12

/-- `struct tm`, without `tm_isdst`. -/
structure Tm where
  tmSec : Int
  tmMin : Int
  tmHour : Int
  tmMday : Int
  tmMon : Int
  tmYear : Int
  tmWday : Int
  tmYday : Int

/-- Conversion of an `int` to an unsigned type. -/
def toUnsigned (bits : Nat) (n : Int) : Nat := (n % (2 ^ bits : Nat)).toNat

/-- `weekday_is_valid`. -/
def weekdayIsValid (day : Int) : Bool := 0 ≤ day && day ≤ 6

/-- `month_is_valid`. -/
def monthIsValid (month : Nat) : Bool := 1 ≤ month && month ≤ 12

/-- `hour_24_to_12hour`, of a `uint8_t`. -/
def hour24To12hour (hour : Nat) : Nat := if hour % 12 ≠ 0 then hour % 12 else 12

/-- `hour_24_is_pm`. -/
def hour24IsPm (hour : Nat) : Bool := 12 ≤ hour

/-- `weekday_to_decimal_monday_one`. -/
def weekdayToDecimalMondayOne (weekday : Int) : Nat := if weekday ≠ 0 then toUnsigned 8 weekday else 7

/-- `get_week_count_at_day`. The difference is taken in 32 bits, the sum in 64. -/
def getWeekCountAtDay (weekday : Int) (daysSinceJan1 : Nat) (isMondayFirst : Bool) : Nat :=
  let delta :=
    if isMondayFirst then if weekday ≠ 0 then WEEKDAY_COUNT + 1 else 1 else WEEKDAY_COUNT
  (toUnsigned 32 (daysSinceJan1 - weekday) + delta) / 7 % 2 ^ 8

/-- `tm_mon_to_month`. -/
def tmMonToMonth (tmMon : Int) : Nat := toUnsigned 32 (tmMon + 1)

/-- `year_is_leap_year`. -/
def yearIsLeapYear (year : Nat) : Bool :=
  year % 4 = 0 && (year % 100 ≠ 0 || year % 400 = 0)

/-- `year_get_day_count`. -/
def yearGetDayCount (year : Nat) : Nat := 365 + if yearIsLeapYear year then 1 else 0

/-- `tm_year_to_year`, which refuses the years before 1900 whose number is not negative. -/
def tmYearToYear (tmYear : Int) : Result Nat :=
  if toUnsigned 64 tmYear + 1900 < 2 ^ 64 then .ok (toUnsigned 64 tmYear + 1900) else .error .panic

/-- `weekday_prev`. -/
def weekdayPrev (weekday : Int) : Int := if weekday ≠ 0 then weekday - 1 else 6

/-! ## Names -/

def weekdayNames : List String :=
  ["Sunday", "Monday", "Tuesday", "Wednesday", "Thursday", "Friday", "Saturday"]

def monthNames : List String :=
  ["January", "February", "March", "April", "May", "June", "July", "August", "September",
    "October", "November", "December"]

/-- A name in the case that was asked for. -/
def nameSv (upper : Bool) (name : String) : List Char :=
  if upper then name.toList.map Char.toUpper else name.toList

/-- The abbreviations are the first three letters. -/
def nameSvAbbrev (upper : Bool) (name : String) : List Char := (nameSv upper name).take 3

/-- `weekday_to_sv` and `weekday_to_sv_upper`, for a valid day. -/
def weekdayToSv (upper : Bool) (day : Int) : List Char := nameSv upper (weekdayNames.getD day.toNat "")

/-- `weekday_to_sv_abbrev` and `weekday_to_sv_abbrev_upper`. -/
def weekdayToSvAbbrev (upper : Bool) (day : Int) : List Char :=
  nameSvAbbrev upper (weekdayNames.getD day.toNat "")

/-- `month_to_sv` and `month_to_sv_upper`, for a valid month. -/
def monthToSv (upper : Bool) (month : Nat) : List Char := nameSv upper (monthNames.getD (month - 1) "")

/-- `month_to_sv_abbrev` and `month_to_sv_abbrev_upper`. -/
def monthToSvAbbrev (upper : Bool) (month : Nat) : List Char :=
  nameSvAbbrev upper (monthNames.getD (month - 1) "")

/-! ## Weeks -/

/-- The end of `iso_8601_get_week_number`: late December may be in the first week of the next year. -/
def decemberWeek (weekday : Int) (month dayInMonth weekNumber : Nat) : Nat :=
  if month = MONTH_DECEMBER ∧
      ((weekday = 1 ∧ 29 ≤ dayInMonth ∧ dayInMonth ≤ 31) ∨
        (weekday = 2 ∧ 30 ≤ dayInMonth ∧ dayInMonth ≤ 31) ∨
        (weekday = 3 ∧ dayInMonth = 31)) then
    1
  else weekNumber

/--
`iso_8601_get_week_number`. It calls itself once at most, for the last day of the previous year,
so the fuel is the depth of the calls.
-/
def iso8601GetWeekNumber : Nat → Int → Nat → Nat → Nat → Nat → Result Nat
  | 0, _, _, _, _, _ => .error .outOfFuel
  | fuel + 1, weekday, month, year, dayInMonth, daysSinceJan1 =>
    if !weekdayIsValid weekday || !monthIsValid month then .error .panic
    else
      let jan1Weekday := (weekday - (daysSinceJan1 % 7 : Nat)) % 7
      let weekNumber := getWeekCountAtDay weekday daysSinceJan1 true
      if jan1Weekday = 1 then .ok (decemberWeek weekday month dayInMonth weekNumber)
      else if jan1Weekday = 2 ∨ jan1Weekday = 3 ∨ jan1Weekday = 4 then
        .ok (decemberWeek weekday month dayInMonth ((weekNumber + 1) % 2 ^ 8))
      else if weekNumber ≠ 0 then .ok (decemberWeek weekday month dayInMonth weekNumber)
      else do
        let prevYear := (year + (2 ^ 64 - 1)) % 2 ^ 64
        let weekNumber ← iso8601GetWeekNumber fuel (weekdayPrev weekday) MONTH_DECEMBER prevYear 31
          (yearGetDayCount prevYear - 1)
        pure (decemberWeek weekday month dayInMonth weekNumber)

end OsKernel.Lib
