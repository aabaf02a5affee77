import OsKernel.Base.Effect
import OsKernel.Lib.Convert

/-!
# The printf engine (`lib/parse_printf.c`)

`parse_printf` walks over the format and hands text to two callbacks. A pointer into the
format is the text from there on, so the terminator is the empty list. The argument list
is endless: what lies behind the last argument is whatever `va_arg` would find there.
-/

namespace OsKernel.Lib

/-! ## Text -/

/-- The character at a pointer. -/
def charAt (iter : List Char) : Char := iter.headD '\x00'

/-- `strchr`. -/
def strchr : List Char → Char → Option (List Char)
  | [], _ => none
  | c :: rest, ch => if c = ch then some (c :: rest) else strchr rest ch

/-- `sv_create_end`, for a pointer and one behind it. -/
def svCreateEnd (start stop : List Char) : List Char := start.take (start.length - stop.length)

/-- `sv_create_length(iter - back, length)`, in the format `fmt`. -/
def svBefore (fmt iter : List Char) (back length : Nat) : List Char :=
  (fmt.drop (fmt.length - iter.length - back)).take length

/-! ## Arguments -/

/-- An argument: the word that was passed and, if it is the address of a string, its text. -/
structure VaArg where
  word : Nat
  text : List Char

/-- `va_list`. -/
structure VaList where
  arg : Nat → VaArg
  next : Nat

/-- `va_arg`. -/
def VaList.pop (list : VaList) : VaArg × VaList := (list.arg list.next, { list with next := list.next + 1 })

/-- The low bits of a word as a signed number. -/
def toSigned (bits word : Nat) : Int :=
  if word % 2 ^ bits < 2 ^ (bits - 1) then (word % 2 ^ bits : Nat)
  else (word % 2 ^ bits : Nat) - (2 ^ bits : Nat)

/-- A signed number of `bits` bits converted to `uint64_t`. -/
def signExtend (bits word : Nat) : Nat := (toSigned bits word % (2 ^ 64 : Nat)).toNat

/-! ## Conversion specifications -/

/-- `struct printf_spec_info`, with the values of `PRINTF_SPEC_INFO_INIT`. -/
structure PrintfSpecInfo where
  addOneSpaceForSign : Bool := false
  leftJustify : Bool := false
  addPosSign : Bool := false
  addBasePrefix : Bool := false
  leftpadZeros : Bool := false
  spec : Char := '\x00'
  width : Nat := 0
  precision : Int := 0
  lengthSv : List Char := []

/-- The flag a character stands for. -/
def setFlag (currSpec : PrintfSpecInfo) : Char → Option PrintfSpecInfo
  | ' ' => some { currSpec with addOneSpaceForSign := true }
  | '-' => some { currSpec with leftJustify := true }
  | '+' => some { currSpec with addPosSign := true }
  | '#' => some { currSpec with addBasePrefix := true }
  | '0' => some { currSpec with leftpadZeros := true }
  | _ => none

/-- `parse_flags`; `none` where it returns false. -/
def parseFlags (currSpec : PrintfSpecInfo) : List Char → Option (PrintfSpecInfo × List Char)
  | [] => some (currSpec, [])
  | c :: rest =>
    match setFlag currSpec c with
    | none => some (currSpec, c :: rest)
    | some currSpec => if rest = [] then none else parseFlags currSpec rest

/-- `read_int_from_fmt_string`. The pointer is only stored at a character that ends the number. -/
def readIntFromFmtString (result : Nat) : List Char → Int × Option (List Char)
  | [] => (result, none)
  | c :: rest =>
    let digit := (c.toNat + 256 - '0'.toNat) % 256
    if 10 ≤ digit then (result, some (c :: rest))
    else if 2 ^ 31 ≤ result * 10 + digit then (-1, some (c :: rest))
    else readIntFromFmtString (result * 10 + digit) rest

/-- `parse_width`. -/
def parseWidth (currSpec : PrintfSpecInfo) (list : VaList) (iter : List Char) :
    Option (PrintfSpecInfo × VaList × List Char) :=
  if charAt iter ≠ '*' then
    let (width, out) := readIntFromFmtString 0 iter
    let iter := out.getD iter
    if width = -1 then none
    else if iter = [] then none
    else some ({ currSpec with width := width.toNat }, list, iter)
  else
    let (arg, list) := list.pop
    let iter := iter.tail
    if iter = [] then none
    else some ({ currSpec with width := (toSigned 32 arg.word).toNat }, list, iter)

/-- `parse_precision`. -/
def parsePrecision (currSpec : PrintfSpecInfo) (list : VaList) (iter : List Char) :
    Option (PrintfSpecInfo × VaList × List Char) :=
  if charAt iter ≠ '.' then some ({ currSpec with precision := -1 }, list, iter)
  else
    match iter.tail with
    | [] => none
    | '*' :: iter =>
      if iter = [] then none
      else
        let (arg, list) := list.pop
        some ({ currSpec with precision := toSigned 32 arg.word }, list, iter)
    | iter =>
      let (precision, out) := readIntFromFmtString 0 iter
      let iter := out.getD iter
      if precision = -1 then none
      else if iter = [] then none
      else some ({ currSpec with precision := precision }, list, iter)

/-- What `parse_length` finds. -/
structure ParsedLength where
  currSpec : PrintfSpecInfo
  iter : List Char
  list : VaList
  number : Nat := 0
  isZero : Bool := false

/-- The argument of a length that was given. -/
def ParsedLength.take (currSpec : PrintfSpecInfo) (lengthSv iter : List Char) (list : VaList)
    (convert : Nat → Nat) : ParsedLength :=
  let (arg, list) := list.pop
  { currSpec := { currSpec with lengthSv := lengthSv }
    iter := iter
    list := list
    number := convert arg.word
    isZero := convert arg.word = 0 }

/-- `parse_length`. For `hh` and `ll` the view starts one character too early. -/
def parseLength (fmt : List Char) (currSpec : PrintfSpecInfo) (iter : List Char) (list : VaList) :
    Option ParsedLength :=
  match iter with
  | [] => none
  | 'h' :: [] => none
  | 'h' :: 'h' :: rest =>
    some (.take currSpec (svBefore fmt ('h' :: rest) 2 2) rest list (signExtend 8))
  | 'h' :: rest => some (.take currSpec (svBefore fmt rest 1 1) rest list (signExtend 16))
  | 'l' :: [] => none
  | 'l' :: 'l' :: rest =>
    some (.take currSpec (svBefore fmt ('l' :: rest) 2 2) rest list (· % 2 ^ 64))
  | 'l' :: rest => some (.take currSpec (svBefore fmt rest 1 1) rest list (· % 2 ^ 64))
  | 'j' :: rest => some (.take currSpec ['j'] rest list (· % 2 ^ 64))
  | 'z' :: rest => some (.take currSpec ['z'] rest list (· % 2 ^ 64))
  | 't' :: rest => some (.take currSpec ['t'] rest list (· % 2 ^ 64))
  | iter => some { currSpec := { currSpec with lengthSv := [] }, iter := iter, list := list }

/-- `enum handle_spec_result`. -/
inductive HandleSpecResult where
  | ok
  | reachedEnd
  | continue_
  deriving DecidableEq

/-- What `handle_spec` returns and stores. -/
structure HandledSpec where
  result : HandleSpecResult
  buffer : CharBuffer
  list : VaList
  parsed : List Char := []
  isZero : Bool
  isNull : Bool := false
  /-- The value stored through the pointer of `%n`. -/
  count : Option Nat := none

/-- The common part of the integer conversions. -/
def handleInt (currSpec : PrintfSpecInfo) (buffer : CharBuffer) (number : Nat) (isZero : Bool)
    (list : VaList) (convert : Nat → Nat)
    (print : Nat → CharBuffer → Result (List Char × CharBuffer)) : Result HandledSpec :=
  if currSpec.lengthSv.length = 0 then do
    let (arg, list) := list.pop
    let (parsed, buffer) ← print (convert arg.word) buffer
    pure { result := .ok, buffer, list, parsed, isZero := convert arg.word = 0 }
  else do
    let (parsed, buffer) ← print number buffer
    pure { result := .ok, buffer, list, parsed, isZero }

/-- Whether `%n` finds the length it was given, and stores the count. -/
def storesCount (lengthSv : List Char) : Bool :=
  match lengthSv with
  | [] => true
  | ['h'] | ['h', 'h'] | ['l'] | ['l', 'l'] => true
  | 'j' :: _ | 'z' :: _ | 't' :: _ => true
  | _ => false

/-- `handle_spec`. -/
def handleSpec (currSpec : PrintfSpecInfo) (buffer : CharBuffer) (number : Nat) (list : VaList)
    (writtenOut : Nat) (isZero : Bool) : Result HandledSpec :=
  let unsigned := fun base (options : NumToStrOptions) =>
    handleInt currSpec buffer number isZero list (· % 2 ^ 32) fun number buffer =>
      unsignedToStringView number base buffer options
  let signed :=
    handleInt currSpec buffer number isZero list (signExtend 32) fun number buffer =>
      signedToStringView (toSigned 64 number) .base10 buffer { includePosSign := currSpec.addPosSign }
  match currSpec.spec with
  | '\x00' => .ok { result := .reachedEnd, buffer, list, isZero }
  | 'b' => unsigned .base2 {}
  | 'B' => unsigned .base2 { capitalize := true }
  | 'd' => signed
  | 'i' => signed
  | 'u' => unsigned .base10 {}
  | 'o' => unsigned .base8 {}
  | 'x' => unsigned .base16 {}
  | 'X' => unsigned .base16 { capitalize := true }
  | 'c' => do
    let (arg, list) := list.pop
    let c := Char.ofNat (arg.word % 2 ^ 8)
    let buffer ← buffer.store 0 c
    pure { result := .ok, buffer, list, parsed := [c], isZero }
  | 's' =>
    let (arg, list) := list.pop
    if arg.word % 2 ^ 64 ≠ 0 then
      -- a negative precision is a huge `size_t`
      let parsed := if 0 ≤ currSpec.precision then arg.text.take currSpec.precision.toNat else arg.text
      .ok { result := .ok, buffer, list, parsed, isZero }
    else .ok { result := .ok, buffer, list, parsed := "(null)".toList, isZero, isNull := true }
  | 'p' => do
    let (arg, list) := list.pop
    if arg.word % 2 ^ 64 ≠ 0 then do
      let (parsed, buffer) ← unsignedToStringView (arg.word % 2 ^ 64) .base16 buffer
        { capitalize := true, includePrefix := true }
      pure { result := .ok, buffer, list, parsed, isZero }
    else pure { result := .ok, buffer, list, parsed := "(nil)".toList, isZero, isNull := true }
  | 'n' =>
    if storesCount currSpec.lengthSv then
      .ok { result := .continue_, buffer, list := list.pop.2, isZero, count := some writtenOut }
    else .ok { result := .ok, buffer, list, isZero }
  | '%' => do
    let buffer ← buffer.store 0 '%'
    pure { result := .ok, buffer, list, parsed := ['%'], isZero }
  | _ => .ok { result := .continue_, buffer, list, isZero }

/-- `is_int_specifier`. -/
def isIntSpecifier (spec : Char) : Bool := spec ∈ ['b', 'B', 'd', 'i', 'o', 'u', 'x', 'X']

/-! ## Widths -/

/-- What is written for a specification, next to the text itself. -/
structure Padding where
  shouldWriteParsed : Bool
  paddedZeroCount : Nat
  spacePadCount : Nat

/-- The lengths that `parse_printf` works out; `parsed_length` and the digit count are `uint8_t`. -/
def padding (currSpec : PrintfSpecInfo) (parsed : List Char) (isZero : Bool) : Padding :=
  let shouldWriteParsed := !(isZero && currSpec.precision = 0)
  let parsedLength : Nat :=
    if !shouldWriteParsed then 0
    else if currSpec.addBasePrefix then
      match currSpec.spec with
      | 'o' => (parsed.length + 1) % 2 ^ 8
      | 'x' => (parsed.length + 2) % 2 ^ 8
      | 'X' => (parsed.length + 2) % 2 ^ 8
      | _ => parsed.length % 2 ^ 8
    else parsed.length % 2 ^ 8
  let hasSign := charAt parsed = '-' ∨ charAt parsed = '+'
  let isInt := isIntSpecifier currSpec.spec
  let totalDigitCount : Nat := (parsed.length + 2 ^ 8 - if hasSign then 1 else 0) % 2 ^ 8
  let paddedZeroCount : Nat :=
    if isInt ∧ currSpec.precision ≠ -1 ∧ (totalDigitCount : Int) < currSpec.precision then
      currSpec.precision.toNat - totalDigitCount
    else 0
  let parsedLength : Nat := (parsedLength + paddedZeroCount) % 2 ^ 8
  let spacePadCount : Nat :=
    if isInt ∧ parsedLength ≠ 0 ∧ currSpec.addOneSpaceForSign ∧ ¬ hasSign then 1 else 0
  if parsedLength < currSpec.width then
    if currSpec.leftpadZeros ∧ isInt ∧ currSpec.precision = -1 ∧ !currSpec.leftJustify then
      { shouldWriteParsed, paddedZeroCount := currSpec.width - parsedLength, spacePadCount }
    else
      { shouldWriteParsed, paddedZeroCount
        spacePadCount := (spacePadCount + (currSpec.width - parsedLength)) % 2 ^ 32 }
  else { shouldWriteParsed, paddedZeroCount, spacePadCount }

/-! ## Writing -/

/--
`printf_write_char_callback_t` and `printf_write_sv_callback_t`. A callback gets the continue flag
and returns the characters it wrote and the flag as it left it.
-/
structure PrintfCallbacks (σ : Type) where
  writeChar : Option PrintfSpecInfo → Char → Nat → Bool → Effect σ (Nat × Bool)
  writeSv : Option PrintfSpecInfo → List Char → Bool → Effect σ (Nat × Bool)

section Engine

variable {σ : Type} (cb : PrintfCallbacks σ)

/-- `write_prefix_for_spec`. -/
def writePrefixForSpec (info : PrintfSpecInfo) (cont : Bool) : Effect σ (Nat × Bool) :=
  if !info.addBasePrefix then pure (0, cont)
  else
    match info.spec with
    | 'b' => cb.writeSv (some info) ['0', 'b'] cont
    | 'B' => cb.writeSv (some info) ['0', 'B'] cont
    | 'o' => cb.writeChar (some info) '0' 1 cont
    | 'x' => cb.writeSv (some info) ['0', 'x'] cont
    | 'X' => cb.writeSv (some info) ['0', 'X'] cont
    | _ => pure (0, cont)

/-- The beginning of `pad_with_lead_zeros`. -/
def writePrefixUnlessNull (info : PrintfSpecInfo) (isNull cont : Bool) : Effect σ (Nat × Bool) :=
  if !isNull then writePrefixForSpec cb info cont else pure (0, cont)

/--
`pad_with_lead_zeros`, with the text that is left to write. It tests the pointer to the continue
flag, which is never NULL, so it goes on whatever the callbacks say.
-/
def padWithLeadZeros (info : PrintfSpecInfo) (parsed : List Char) (zeroCount : Nat) (isNull : Bool)
    (cont : Bool) : Effect σ (Nat × List Char × Bool) := do
  let (out, cont) ← writePrefixUnlessNull cb info isNull cont
  if zeroCount = 0 then pure (out, parsed, cont)
  else
    let front := charAt parsed
    if front = '+' ∨ front = '-' then do
      let (sign, cont) ← cb.writeChar (some info) front 1 cont
      let (zeros, cont) ← cb.writeChar (some info) '0' zeroCount cont
      pure (out + sign + zeros, parsed.tail, cont)
    else do
      let (zeros, cont) ← cb.writeChar (some info) '0' zeroCount cont
      pure (out + zeros, parsed, cont)

/-- `call_cb`. -/
def callCb (info : Option PrintfSpecInfo) (sv : List Char) (cont : Bool) : Effect σ (Nat × Bool) :=
  match sv with
  | [] => pure (0, cont)
  | [ch] => cb.writeChar info ch 1 cont
  | sv => cb.writeSv info sv cont

/-- The locals of `parse_printf` at the head of its loop. -/
structure PrintfState where
  unformattedStart : List Char
  iter : List Char
  list : VaList
  buffer : CharBuffer
  currSpec : PrintfSpecInfo
  writtenOut : Nat
  shouldContinue : Bool
  /-- The values that `%n` has stored, the latest first. -/
  counts : List Nat

/-- `written_out += n`. -/
def PrintfState.wrote (st : PrintfState) (r : Nat × Bool) : PrintfState :=
  { st with writtenOut := (st.writtenOut + r.1) % 2 ^ 64, shouldContinue := r.2 }

/-- How an iteration ends. -/
inductive PrintfStep where
  /-- `return written_out`. -/
  | done (st : PrintfState)
  /-- `break`. -/
  | break_ (st : PrintfState)
  | next (st : PrintfState)

/-- Spaces, if there are any. -/
def writeSpaces (info : PrintfSpecInfo) (count : Nat) (st : PrintfState) : Effect σ PrintfState :=
  if count ≠ 0 then do
    let r ← cb.writeChar (some info) ' ' count st.shouldContinue
    pure (st.wrote r)
  else pure st

/-- The zeros and, if `parse_printf` still goes on, the text. -/
def writeParsed (info : PrintfSpecInfo) (pad : Padding) (parsed : List Char) (isNull : Bool)
    (st : PrintfState) : Effect σ PrintfState := do
  let (out, parsed, cont) ← padWithLeadZeros cb info parsed pad.paddedZeroCount isNull st.shouldContinue
  let st := st.wrote (out, cont)
  if !st.shouldContinue then pure st
  else if pad.shouldWriteParsed then do
    let r ← callCb cb (some info) parsed st.shouldContinue
    pure (st.wrote r)
  else pure st

/-- `curr_spec = PRINTF_SPEC_INFO_INIT()`. -/
def PrintfState.resetSpec (st : PrintfState) : PrintfState := { st with currSpec := {} }

/-- The end of an iteration: the text of one specification. -/
def writeSpec (info : PrintfSpecInfo) (pad : Padding) (parsed : List Char) (isNull : Bool)
    (st : PrintfState) : Effect σ PrintfStep := do
  if info.leftJustify then
    let st ← writeParsed cb info pad parsed isNull st
    if !st.shouldContinue then pure (.done st)
    else do
      let st ← writeSpaces cb info pad.spacePadCount st
      if !st.shouldContinue then pure (.done st) else pure (.next st.resetSpec)
  else
    let st ← writeSpaces cb info pad.spacePadCount st
    if !st.shouldContinue then pure (.done st)
    else do
      let st ← writeParsed cb info pad parsed isNull st
      if !st.shouldContinue then pure (.done st) else pure (.next st.resetSpec)

/-- The middle of an iteration: `%[flags][width][.precision][length]`, up to the specifier. -/
def parseSpec (fmt : List Char) (currSpec : PrintfSpecInfo) (list : VaList) (iter : List Char) :
    Option ParsedLength := do
  let (currSpec, iter) ← parseFlags currSpec iter
  let (currSpec, list, iter) ← parseWidth currSpec list iter
  let (currSpec, list, iter) ← parsePrecision currSpec list iter
  parseLength fmt currSpec iter list

/-- One iteration, from the percent sign at `iter` on. -/
def printfStep (fmt : List Char) (st : PrintfState) (iter : List Char) : Effect σ PrintfStep := do
  let r ← callCb cb none (svCreateEnd st.unformattedStart iter) st.shouldContinue
  let st := st.wrote r
  if !st.shouldContinue then pure (.break_ st)
  else if iter.tail = [] then pure (.done st)
  else
    match parseSpec fmt st.currSpec st.list iter.tail with
    | none => pure (.done st)
    | some parsed => do
      let currSpec := { parsed.currSpec with spec := charAt parsed.iter }
      let handled ← Effect.lift (handleSpec currSpec st.buffer parsed.number parsed.list st.writtenOut
        parsed.isZero)
      let st := { st with
        unformattedStart := parsed.iter.tail
        iter := parsed.iter
        list := handled.list
        buffer := handled.buffer
        currSpec := currSpec
        counts := handled.count.toList ++ st.counts }
      match handled.result with
      | .reachedEnd => pure (.done st)
      | .continue_ => pure (.next st.resetSpec)
      | .ok =>
        writeSpec cb currSpec (padding currSpec handled.parsed handled.isZero) handled.parsed
          handled.isNull { st with iter := parsed.iter.tail }

/-- The text behind the last specification. -/
def printfTail (st : PrintfState) : Effect σ PrintfState :=
  if st.unformattedStart ≠ [] then do
    let r ← callCb cb none st.unformattedStart st.shouldContinue
    pure (st.wrote r)
  else pure st

/-- The loop of `parse_printf`, which passes one percent sign or more in each iteration. -/
def printfLoop (fmt : List Char) : Nat → PrintfState → Effect σ PrintfState
  | 0, _ => Effect.lift (.error .outOfFuel)
  | fuel + 1, st =>
    match strchr st.iter '%' with
    | none => printfTail cb st
    | some iter => do
      match ← printfStep cb fmt st iter with
      | .done st => pure st
      | .break_ st => printfTail cb st
      | .next st => printfLoop fmt fuel st

/-- `parse_printf`: the count it returns, and the values stored by `%n`, the first one first. -/
def parsePrintf (fmt : List Char) (list : VaList) : Effect σ (Nat × List Nat) := do
  let st ← printfLoop cb fmt (fmt.length + 1) {
    unformattedStart := fmt
    iter := fmt
    list := list
    buffer := ⟨MAX_CONVERT_CAP + 3, fun _ => '\x00'⟩
    currSpec := {}
    writtenOut := 0
    shouldContinue := true
    counts := [] }
  pure (st.writtenOut, st.counts.reverse)

end Engine

end OsKernel.Lib
