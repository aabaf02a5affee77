import OsKernel.Lib.ParsePrintf
import OsKernel.Lib.Time

/-!
# The strftime engine (`lib/parse_strftime.c`)

Each specifier writes a few pieces, some of which are other specifiers, and stops as soon
as the callback says so. A year before 1900 and an invalid date panic in the middle of it.
-/

namespace OsKernel.Lib

/-- `struct strftime_modifiers`, with the values of `STRFTIME_MODIFIERS_INIT`. -/
structure StrftimeModifiers where
  localeAltRepr : Bool := false
  localeAltNumeric : Bool := false
  padSpacesToNumber : Bool := false
  dontPadNumber : Bool := false
  padZeros : Bool := false
  capitalizeLetters : Bool := false
  swapLetterCase : Bool := false

/-- `struct strftime_spec_info`. -/
structure StrftimeSpecInfo where
  spec : Char
  mods : StrftimeModifiers

/-- `parse_strftime_mods`. -/
def parseStrftimeMods : List Char → StrftimeModifiers × List Char
  | 'E' :: iter => ({ localeAltRepr := true }, iter)
  | 'O' :: iter => ({ localeAltNumeric := true }, iter)
  | '-' :: iter => ({ padSpacesToNumber := true }, iter)
  | '_' :: iter => ({ dontPadNumber := true }, iter)
  | '0' :: iter => ({ padZeros := true }, iter)
  | '^' :: iter => ({ capitalizeLetters := true }, iter)
  | '#' :: iter => ({ swapLetterCase := true }, iter)
  | iter => ({}, iter)

/-- `PAD_WITH_CHAR_IF_NECESSARY`. -/
def padWithCharIfNecessary (mods : StrftimeModifiers) (sv : List Char) (ch : Char) (expectedLen : Nat) :
    List Char :=
  if !mods.dontPadNumber then
    let padCh := if mods.padSpacesToNumber then ' ' else if mods.padZeros then '0' else ch
    List.replicate (expectedLen - sv.length) padCh ++ sv
  else sv

/-- A number in decimal, in a buffer of its own. -/
def decimalSv (number : Nat) : Result (List Char) :=
  (unsignedToStringView number .base10 ⟨MAX_CONVERT_CAP, fun _ => '\x00'⟩ {}).map Prod.fst

/-- A padded number in decimal. -/
def paddedSv (mods : StrftimeModifiers) (number : Nat) (ch : Char) (expectedLen : Nat) :
    Result (List Char) :=
  (decimalSv number).map fun sv => padWithCharIfNecessary mods sv ch expectedLen

/-- The week of `%V`. -/
def isoWeekOf (tm : Tm) : Result Nat := do
  let year ← tmYearToYear tm.tmYear
  iso8601GetWeekNumber 2 tm.tmWday (tmMonToMonth tm.tmMon) year (toUnsigned 8 tm.tmMday)
    (toUnsigned 16 tm.tmYday)

/-- The year of `%g` and `%G`. -/
def isoYearOf (tm : Tm) : Result Nat := do
  let month := tmMonToMonth tm.tmMon
  let year ← tmYearToYear tm.tmYear
  let weekNumber ← isoWeekOf tm
  if month = MONTH_DECEMBER ∧ weekNumber = 1 then pure ((year + 1) % 2 ^ 64)
  else if month = MONTH_JANUARY ∧ 52 ≤ weekNumber then pure ((year + (2 ^ 64 - 1)) % 2 ^ 64)
  else pure year

/-- What a specifier writes next. -/
inductive StrftimePiece where
  /-- `CALL_CALLBACK`. -/
  | sv (text : Result (List Char))
  /-- `RECURSIVE_CALL_FOR_SPEC`. -/
  | spec (spec : Char)

open StrftimePiece in
/-- The cases of `handle_strftime_spec`; `none` for the default. -/
def strftimePieces (specInfo : StrftimeSpecInfo) (tm : Tm) : Option (List StrftimePiece) :=
  let mods := specInfo.mods
  let upper := mods.capitalizeLetters
  let weekday := tm.tmWday
  let month := tmMonToMonth tm.tmMon
  let text := fun (s : String) => sv (.ok s.toList)
  let number := fun (n : Nat) (ch : Char) (expectedLen : Nat) => sv (paddedSv mods n ch expectedLen)
  match specInfo.spec with
  | 'a' => some [if weekdayIsValid weekday then sv (.ok (weekdayToSvAbbrev upper weekday)) else text "?"]
  | 'A' => some [if weekdayIsValid weekday then sv (.ok (weekdayToSv upper weekday)) else text "?"]
  | 'b' => some [if monthIsValid month then sv (.ok (monthToSvAbbrev upper month)) else text "?"]
  | 'h' => some [if monthIsValid month then sv (.ok (monthToSvAbbrev upper month)) else text "?"]
  | 'B' => some [if monthIsValid month then sv (.ok (monthToSv upper month)) else text "?"]
  | 'c' => some [spec 'a', text " ", spec 'b', text " ", spec 'd', text " ", spec 'T', text " ", spec 'Y']
  | 'C' => some [sv (tmYearToYear tm.tmYear >>= fun year => decimalSv (year / 100))]
  | 'd' => some [number (toUnsigned 64 tm.tmMday) '0' 2]
  | 'D' => some [spec 'm', text "/", spec 'd', text "/", spec 'y']
  | 'e' => some [number (toUnsigned 64 tm.tmMday) ' ' 2]
  | 'F' => some [spec 'Y', text "-", spec 'm', text "-", spec 'd']
  | 'g' => some [sv (isoYearOf tm >>= fun year => paddedSv mods (year % 100) '0' 2)]
  | 'G' => some [sv (isoYearOf tm >>= decimalSv)]
  | 'H' => some [number (toUnsigned 8 tm.tmHour) '0' 2]
  | 'I' => some [number (hour24To12hour (toUnsigned 8 tm.tmHour)) '0' 2]
  | 'j' => some [number (toUnsigned 16 tm.tmYday + 1) '0' 3]
  | 'm' => some [number month '0' 2]
  | 'M' => some [number (toUnsigned 16 tm.tmMin) '0' 2]
  | 'n' => some [text "\n"]
  | 'p' => some [if hour24IsPm (toUnsigned 8 tm.tmHour) then text "PM" else text "AM"]
  | 'r' => some [spec 'I', text ":", spec 'M', text ":", spec 'S', text " ", spec 'p']
  | 'R' => some [spec 'H', text ":", spec 'M']
  | 'S' => some [number (toUnsigned 64 tm.tmSec) '0' 2]
  | 't' => some [text "\t"]
  | 'T' => some [spec 'H', text ":", spec 'M', text ":", spec 'S']
  | 'X' => some [spec 'H', text ":", spec 'M', text ":", spec 'S']
  | 'u' => some [number (weekdayToDecimalMondayOne weekday) '0' 1]
  | 'U' => some [number (getWeekCountAtDay weekday (toUnsigned 16 tm.tmYday) false) '0' 2]
  | 'V' => some [sv (isoWeekOf tm >>= fun weekNumber => paddedSv mods weekNumber '0' 2)]
  | 'w' => some [number (toUnsigned 8 weekday) '0' 1]
  | 'W' => some [number (getWeekCountAtDay weekday (toUnsigned 16 tm.tmYday) true) '0' 2]
  | 'x' => some [spec 'm', text "/", spec 'd', text "/", spec 'y']
  | 'y' => some [sv (tmYearToYear tm.tmYear >>= fun year => paddedSv mods (year % 100) '0' 2)]
  | 'Y' => some [sv (tmYearToYear tm.tmYear >>= decimalSv)]
  | 'k' => some [number (toUnsigned 64 tm.tmHour) ' ' 2]
  | 'l' => some [number (hour24To12hour (toUnsigned 8 tm.tmHour)) ' ' 2]
  | 'v' => some [spec 'd', text "-", number month ' ' 3, spec 'Y']
  | '%' => some [text "%"]
  | _ => none

/-- `parse_strftime_sv_callback`. -/
abbrev StrftimeCallback (σ : Type) :=
  Option StrftimeSpecInfo → List Char → Bool → Effect σ (Nat × Bool)

section Engine

variable {σ : Type} (svCb : StrftimeCallback σ)

/-- One piece after the other, until the callback clears the flag. -/
def runPieces (call : StrftimePiece → Nat → Bool → Effect σ (Nat × Bool)) :
    List StrftimePiece → Nat → Bool → Effect σ (Nat × Bool)
  | [], writtenOut, cont => pure (writtenOut, cont)
  | piece :: pieces, writtenOut, cont => do
    let (writtenOut, cont) ← call piece writtenOut cont
    if !cont then pure (writtenOut, cont) else runPieces call pieces writtenOut cont

/-- `CALL_CALLBACK` and `RECURSIVE_CALL_FOR_SPEC`, where `handle` is the function that uses them. -/
def callPiece (handle : StrftimeSpecInfo → Nat → Bool → Effect σ (Bool × Nat × Bool))
    (specInfo : StrftimeSpecInfo) : StrftimePiece → Nat → Bool → Effect σ (Nat × Bool)
  | .sv text, writtenOut, cont => do
    let text ← Effect.lift text
    let (n, cont) ← svCb (some specInfo) text cont
    pure ((writtenOut + n) % 2 ^ 64, cont)
  | .spec other, writtenOut, cont => do
    let (valid, writtenOut, cont) ←
      handle { spec := other, mods := specInfo.mods } writtenOut cont
    if valid then pure (writtenOut, cont) else Effect.lift (.error .panic)

/-- `handle_strftime_spec`; the fuel is the depth of the calls, of which there are three at most. -/
def handleStrftimeSpec (tm : Tm) : Nat → StrftimeSpecInfo → Nat → Bool →
    Effect σ (Bool × Nat × Bool)
  | 0, _, _, _ => Effect.lift (.error .outOfFuel)
  | fuel + 1, specInfo, writtenOut, cont =>
    match strftimePieces specInfo tm with
    | none => pure (false, writtenOut, cont)
    | some pieces => do
      let (writtenOut, cont) ←
        runPieces (callPiece svCb (handleStrftimeSpec tm fuel) specInfo) pieces writtenOut cont
      pure (true, writtenOut, cont)

/-- The text behind the last specifier. -/
def strftimeTail (unformat : List Char) (writtenOut : Nat) (cont : Bool) : Effect σ Nat :=
  if unformat ≠ [] then do
    let (n, _) ← svCb none unformat cont
    pure ((writtenOut + n) % 2 ^ 64)
  else pure writtenOut

/-- The text in front of a specifier. -/
def strftimeText (text : List Char) (writtenOut : Nat) (cont : Bool) : Effect σ (Nat × Bool) :=
  if text.length ≠ 0 then do
    let (n, cont) ← svCb none text cont
    pure ((writtenOut + n) % 2 ^ 64, cont)
  else pure (writtenOut, cont)

/--
The loop of `parse_strftime_format`. Behind an incomplete specifier it steps over the terminator and
reads on, which is a fault.
-/
def strftimeLoop (tm : Tm) : Nat → List Char → List Char → Nat → Bool → Effect σ Nat
  | 0, _, _, _, _ => Effect.lift (.error .outOfFuel)
  | fuel + 1, unformat, iter, writtenOut, cont =>
    match strchr iter '%' with
    | none => strftimeTail svCb unformat writtenOut cont
    | some orig => do
      let (writtenOut, cont) ← strftimeText svCb (svCreateEnd unformat orig) writtenOut cont
      if !cont then strftimeTail svCb unformat writtenOut cont
      else do
        let (mods, iter) := parseStrftimeMods orig.tail
        let (valid, writtenOut, vContinue) ←
          handleStrftimeSpec svCb tm 3 { spec := charAt iter, mods := mods } writtenOut true
        if !vContinue then strftimeTail svCb unformat writtenOut cont
        else
          match iter with
          | [] => Effect.lift (.error .outOfBounds)
          | _ :: iter => strftimeLoop tm fuel (if valid then iter else orig) iter writtenOut cont

/-- `parse_strftime_format`, which returns 0 whatever it wrote. -/
def parseStrftimeFormat (format : List Char) (tm : Tm) : Effect σ Nat := do
  let _ ← strftimeLoop svCb tm (format.length + 1) format format 0 true
  pure 0

end Engine

end OsKernel.Lib
