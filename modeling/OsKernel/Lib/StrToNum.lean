import OsKernel.Base.Numerals
import OsKernel.Lib.Convert

/-!
# Text to numbers (`lib/convert.c`)

`convert_sv_to_64int` takes a sign and a prefix off the front of a view, and reads digits
in the base that the prefix names, or in the default base. The two out parameters are
`none` where the function returns without storing them.

`dont_allow_base_10`, `dont_allow_0_prefix` and `allow_leading_zeros` are options that
nothing reads.
-/

namespace OsKernel.Lib

/-! ## The source -/

/-- `isspace`. -/
def isspace (ch : Char) : Bool := (9 ≤ ch.toNat && ch.toNat ≤ 13) || ch.toNat = 32

/-- `isdigit`. -/
def isdigit (ch : Char) : Bool := '0' ≤ ch && ch ≤ '9'

/-- `isupper`. -/
def isupper (ch : Char) : Bool := 'A' ≤ ch && ch ≤ 'Z'

/-- `islower`. -/
def islower (ch : Char) : Bool := 'a' ≤ ch && ch ≤ 'z'

/-- `struct str_to_num_options`. -/
structure StrToNumOptions where
  defaultBase : NumericBase
  dontAllowBase2 : Bool := false
  dontAllowBase8 : Bool := false
  dontAllowBase16 : Bool := false
  dontAllowBase36 : Bool := false
  dontAllow0aPrefix : Bool := false
  dontAllow0APrefix : Bool := false
  dontAllow0bPrefix : Bool := false
  dontAllow0BPrefix : Bool := false
  dontAllow0oPrefix : Bool := false
  dontAllow0OPrefix : Bool := false
  dontAllow0xPrefix : Bool := false
  dontAllow0XPrefix : Bool := false
  dontAllowPosSign : Bool := false
  skipLeadingWhitespace : Bool := false
  dontParseToEnd : Bool := false

/-- `enum str_to_num_result`. -/
inductive StrToNumResult where
  | ok
  | noDigits
  | invalidChar
  | negUnsigned
  | unallowedPrefix
  | unallowedBase
  | unallowedPosSign
  | underflow
  | overflow
  deriving DecidableEq

/-- What a conversion returns, and what it stores through `end_out` and `result_out`. -/
structure ToNum where
  result : StrToNumResult
  endOut : Option (List Char) := none
  /-- The 64 bits of the number. -/
  resultOut : Option Nat := none
  deriving DecidableEq

/-- The value of a digit. -/
def digitOf (ch : Char) : Nat :=
  if isdigit ch then ch.toNat - '0'.toNat
  else if isupper ch then 10 + (ch.toNat - 'A'.toNat)
  else if islower ch then 10 + (ch.toNat - 'a'.toNat)
  else 255

/-- The checks after the digits. -/
def finishNum (isSigned isNegative foundDigit : Bool) (sv : List Char) (number : Nat) : ToNum :=
  if !foundDigit then ⟨.noDigits, some sv, some number⟩
  else if isSigned && 2 ^ 63 - 1 < number then ⟨.overflow, some sv, some number⟩
  else if isNegative then
    -- `check_sub` is true where the difference fits.
    if number ≤ 2 ^ 63 then ⟨.underflow, some sv, some ((2 ^ 64 - number) % 2 ^ 64)⟩
    else ⟨.ok, some sv, some ((2 ^ 64 - number) % 2 ^ 64)⟩
  else ⟨.ok, some sv, some number⟩

/-- The loop over the digits. -/
def convertDigits (options : StrToNumOptions) (isSigned isNegative : Bool) (base : Nat) :
    (sv : List Char) → (foundDigit : Bool) → (number : Nat) → ToNum
  | [], foundDigit, number => finishNum isSigned isNegative foundDigit [] number
  | ch :: sv, foundDigit, number =>
    if base ≤ digitOf ch then
      if !options.dontParseToEnd then ⟨.invalidChar, none, some number⟩
      else finishNum isSigned isNegative foundDigit (ch :: sv) number
    -- `check_mul` and `check_add` store the low bits also where they fail.
    else if 2 ^ 64 ≤ number * base then ⟨.overflow, none, some (number * base % 2 ^ 64)⟩
    else if 2 ^ 64 ≤ number * base + digitOf ch then
      ⟨.overflow, none, some ((number * base + digitOf ch) % 2 ^ 64)⟩
    else convertDigits options isSigned isNegative base sv true (number * base + digitOf ch)

/-- The prefix a character makes with the zero before it: what forbids it, and its base. -/
def StrToNumOptions.prefixOf (options : StrToNumOptions) : Char → Option (Bool × Bool × Nat)
  | 'a' => some (options.dontAllow0aPrefix, options.dontAllowBase36, 36)
  | 'A' => some (options.dontAllow0APrefix, options.dontAllowBase36, 36)
  | 'b' => some (options.dontAllow0bPrefix, options.dontAllowBase2, 2)
  | 'B' => some (options.dontAllow0BPrefix, options.dontAllowBase2, 2)
  | 'o' => some (options.dontAllow0oPrefix, options.dontAllowBase8, 8)
  | 'O' => some (options.dontAllow0OPrefix, options.dontAllowBase8, 8)
  | 'x' => some (options.dontAllow0xPrefix, options.dontAllowBase16, 16)
  | 'X' => some (options.dontAllow0XPrefix, options.dontAllowBase16, 16)
  | _ => none

/-- After the sign. -/
def convertMagnitude (options : StrToNumOptions) (isSigned isNegative : Bool) : List Char → ToNum
  | ['0'] => ⟨.ok, some [], some 0⟩
  | '0' :: ch :: sv =>
    match options.prefixOf ch with
    | some (dontAllowPrefix, dontAllowBase, base) =>
      if dontAllowPrefix then { result := .unallowedPrefix }
      else if dontAllowBase then { result := .unallowedBase }
      else convertDigits options isSigned isNegative base sv false 0
    | none => convertDigits options isSigned isNegative 8 (ch :: sv) true 0
  | sv => convertDigits options isSigned isNegative options.defaultBase.toNat sv false 0

/-- `convert_sv_to_64int`. -/
def convertSvTo64int (sv : List Char) (options : StrToNumOptions) (isSigned : Bool) : ToNum :=
  match if options.skipLeadingWhitespace then sv.dropWhile isspace else sv with
  | [] => { result := .noDigits }
  | ch :: rest =>
    if ch = '-' then
      if !isSigned then { result := .negUnsigned }
      else if rest = [] then { result := .noDigits }
      else convertMagnitude options isSigned true rest
    else if ch = '+' then
      if options.dontAllowPosSign then { result := .unallowedPosSign }
      else if rest = [] then { result := .noDigits }
      else convertMagnitude options isSigned false rest
    else convertMagnitude options isSigned false (ch :: rest)

/-- `sv_to_unsigned`. -/
def svToUnsigned (sv : List Char) (options : StrToNumOptions) : ToNum := convertSvTo64int sv options false

/-- `sv_to_signed`. -/
def svToSigned (sv : List Char) (options : StrToNumOptions) : ToNum := convertSvTo64int sv options true

end OsKernel.Lib
