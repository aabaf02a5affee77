import OsKernel.Base.Fault

/-!
# Numbers to text (`lib/convert.c`)

The digits are stored into a buffer from the back; the result is the part of the buffer
from the last character stored up to the terminator. The index is a `uint8_t`, and a
store outside the buffer is a fault.
-/

namespace OsKernel.Lib

def MAX_BINARY_CONVERT_CAP : Nat := 68

def MAX_OCTAL_CONVERT_CAP : Nat := 26

def MAX_DECIMAL_CONVERT_CAP : Nat := 22

def MAX_HEXADECIMAL_CONVERT_CAP : Nat := 20

def MAX_ALPHABETIC_CONVERT_CAP : Nat := 20

def MAX_CONVERT_CAP : Nat := MAX_BINARY_CONVERT_CAP

/-- `enum numeric_base`. -/
inductive NumericBase where
  | base2
  | base8
  | base10
  | base16
  | base36
  deriving DecidableEq, Repr

def NumericBase.toNat : NumericBase → Nat
  | .base2 => 2
  | .base8 => 8
  | .base10 => 10
  | .base16 => 16
  | .base36 => 36

/-- `struct num_to_str_options`, with the values of `NUM_TO_STR_OPTIONS_INIT`. -/
structure NumToStrOptions where
  includePrefix : Bool := false
  includePosSign : Bool := false
  capitalize : Bool := false
  capitalizePrefix : Bool := false
  use0OctalPrefix : Bool := false

/-- `get_alphanumeric_lower_string`. -/
def alphanumericLower : List Char := "0123456789abcdefghijklmnopqrstuvwxyz".toList

/-- `get_alphanumeric_upper_string`. -/
def alphanumericUpper : List Char := "0123456789ABCDEFGHIJKLMNOPQRSTUVWXYZ".toList

/-- The characters digits are taken from. -/
def NumToStrOptions.chars (options : NumToStrOptions) : List Char :=
  if options.capitalize then alphanumericUpper else alphanumericLower

/-- A `char` array. -/
structure CharBuffer where
  cap : Nat
  at_ : Nat → Char

/-- Store a character; the index is one that may have wrapped. -/
def CharBuffer.store (b : CharBuffer) (i : Nat) (c : Char) : Result CharBuffer :=
  if i < b.cap then .ok { b with at_ := Function.update b.at_ i c } else .error .outOfBounds

/-- The characters of a part of the buffer. -/
def CharBuffer.text (b : CharBuffer) (start stop : Nat) : List Char :=
  (List.range' start (stop - start)).map b.at_

/-- The `do` loop of `LOOP_OVER_POSITIVE_INT`, from the index `i` on down. -/
def storeDigits (chars : List Char) (base : Nat) : Nat → Nat → CharBuffer → Result (Nat × CharBuffer)
  | 0, number, buffer => do
    let buffer ← buffer.store 0 (chars.getD (number % base) '\x00')
    if number < base then pure (0, buffer) else .error .panic
  | i + 1, number, buffer => do
    let buffer ← buffer.store (i + 1) (chars.getD (number % base) '\x00')
    if number < base then pure (i + 1, buffer) else storeDigits chars base i (number / base) buffer

/-- The block both conversions run between the digits and the sign. -/
def storePrefix (base : NumericBase) (options : NumToStrOptions) (i : Nat) (buffer : CharBuffer) :
    Result (Nat × CharBuffer) :=
  if options.includePrefix then
    if i < 2 then .error .outOfBounds
    else do
      let buffer ← buffer.store (i - 2) '0'
      match base with
      | .base2 =>
        let buffer ← buffer.store (i - 1) (if options.capitalizePrefix then 'B' else 'b')
        pure (i - 2, buffer)
      | .base8 =>
        if options.use0OctalPrefix then pure (i + 1 - 2, buffer)
        else do
          let buffer ← buffer.store (i - 1) (if options.capitalizePrefix then 'O' else 'o')
          pure (i - 2, buffer)
      | .base10 => pure (i - 2, buffer)
      | .base16 =>
        let buffer ← buffer.store (i - 1) (if options.capitalizePrefix then 'X' else 'x')
        pure (i - 2, buffer)
      | .base36 =>
        let buffer ← buffer.store (i - 1) (if options.capitalizePrefix then 'A' else 'a')
        pure (i - 2, buffer)
  else .ok (i, buffer)

/-- `LOOP_OVER_POSITIVE_INT`. -/
def loopOverPositiveInt (number : Nat) (base : NumericBase) (options : NumToStrOptions) (i : Nat)
    (buffer : CharBuffer) : Result (Nat × CharBuffer) := do
  let buffer ← buffer.store (i + 1) '\x00'
  let (i, buffer) ← storeDigits options.chars base.toNat i number buffer
  let (i, buffer) ← storePrefix base options i buffer
  if options.includePosSign then
    if i = 0 then .error .outOfBounds
    else do
      let buffer ← buffer.store (i - 1) '+'
      pure (i - 1, buffer)
  else pure (i, buffer)

/-- Where `unsigned_to_string_view` puts the terminator. -/
def unsignedFinalIndex : NumericBase → Nat
  | .base2 => MAX_BINARY_CONVERT_CAP - 1
  | .base8 => MAX_OCTAL_CONVERT_CAP - 1
  | .base10 => MAX_DECIMAL_CONVERT_CAP - 1
  | .base16 => MAX_HEXADECIMAL_CONVERT_CAP - 1
  | .base36 => MAX_CONVERT_CAP

/-- `unsigned_to_string_view`: the text, and the buffer it is in. -/
def unsignedToStringView (number : Nat) (base : NumericBase) (buffer : CharBuffer)
    (options : NumToStrOptions) : Result (List Char × CharBuffer) := do
  let finalIndex := unsignedFinalIndex base
  let (i, buffer) ← loopOverPositiveInt number base options (finalIndex - 1) buffer
  pure (buffer.text i finalIndex, buffer)

/-- Where `signed_to_string_view` puts the terminator. -/
def signedFinalIndex : NumericBase → Nat
  | .base36 => MAX_ALPHABETIC_CONVERT_CAP - 1
  | base => unsignedFinalIndex base

/-- The `do` loop of `LOOP_OVER_SIGNED_INT`, which steps past each digit. -/
def storeNegDigits (chars : List Char) (base : Nat) : Nat → Int → CharBuffer →
    Result (Nat × CharBuffer)
  | 0, number, buffer => do
    let _ ← buffer.store 0 (chars.getD (number.tmod base).natAbs '\x00')
    .error .panic
  | i + 1, number, buffer => do
    let buffer ← buffer.store (i + 1) (chars.getD (number.tmod base).natAbs '\x00')
    if number > -base then pure (i, buffer)
    else if number.tdiv base = 0 then pure (i, buffer)
    else storeNegDigits chars base i (number.tdiv base) buffer

/-- `signed_to_string_view`. -/
def signedToStringView (number : Int) (base : NumericBase) (buffer : CharBuffer)
    (options : NumToStrOptions) : Result (List Char × CharBuffer) := do
  let finalIndex := signedFinalIndex base
  if number < 0 then do
    let buffer ← buffer.store finalIndex '\x00'
    let (i, buffer) ← storeNegDigits options.chars base.toNat (finalIndex - 1) number buffer
    let (i, buffer) ← storePrefix base options i buffer
    let buffer ← buffer.store i '-'
    pure (buffer.text i finalIndex, buffer)
  else do
    let (i, buffer) ← loopOverPositiveInt number.toNat base options (finalIndex - 1) buffer
    pure (buffer.text i finalIndex, buffer)

end OsKernel.Lib
