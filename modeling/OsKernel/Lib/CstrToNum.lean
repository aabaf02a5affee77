import OsKernel.Lib.NumRoundTrip

/-!
# C strings to numbers (`lib/convert.c`)

`convert_cstr_to_64int` and `convert_sv_to_64int` are two copies of one parser. They differ in
what they store where nothing is left to read: for a view that is the empty view, and for a
string it is `NULL`. The language that both accept in full is `Denotes`.

`strtoul` passes its `endptr` on to the parser of C strings. The parser reads to the end or
fails, so that no pointer into the string is ever stored, and it does not expect a `NULL`
pointer to store to.

A C string is the list of the characters before its terminator, and a pointer into it the rest
from there on.
-/

namespace OsKernel.Lib

/-! ## The source -/

/-- What the conversion of a C string returns and stores. `some none` is a `NULL` that is stored. -/
structure CstrToNum where
  result : StrToNumResult
  endOut : Option (Option (List Char)) := none
  resultOut : Option Nat := none
  deriving DecidableEq

/-- The checks after the digits are the same lines in both conversions. -/
def finishCstr (isSigned isNeg foundDigit : Bool) (end_ : Option (List Char)) (number : Nat) :
    CstrToNum :=
  let r := finishNum isSigned isNeg foundDigit [] number
  ⟨r.result, some end_, r.resultOut⟩

section source

variable (options : StrToNumOptions) (isSigned isNeg : Bool)

/-- The loop over the digits. -/
def convertCstrDigits (base : Nat) :
    (string : List Char) → (foundDigit : Bool) → (number : Nat) → CstrToNum
  | [], foundDigit, number => finishCstr isSigned isNeg foundDigit none number
  | ch :: string, foundDigit, number =>
    if base ≤ digitOf ch then
      if !options.dontParseToEnd then ⟨.invalidChar, none, some number⟩
      else finishCstr isSigned isNeg foundDigit (some (ch :: string)) number
    else if 2 ^ 64 ≤ number * base then ⟨.overflow, none, some (number * base % 2 ^ 64)⟩
    else if 2 ^ 64 ≤ number * base + digitOf ch then
      ⟨.overflow, none, some ((number * base + digitOf ch) % 2 ^ 64)⟩
    else convertCstrDigits base string true (number * base + digitOf ch)

/-- After the sign. -/
def convertCstrMagnitude : List Char → CstrToNum
  | ['0'] => ⟨.ok, some none, some 0⟩
  | '0' :: ch :: string =>
    match options.prefixOf ch with
    | some (dontAllowPrefix, dontAllowBase, base) =>
      if dontAllowPrefix then { result := .unallowedPrefix }
      else if dontAllowBase then { result := .unallowedBase }
      else convertCstrDigits options isSigned isNeg base string false 0
    | none => convertCstrDigits options isSigned isNeg 8 (ch :: string) true 0
  | string => convertCstrDigits options isSigned isNeg options.defaultBase.toNat string false 0

/-- `convert_cstr_to_64int`. -/
def convertCstrTo64int (string : List Char) : CstrToNum :=
  match if options.skipLeadingWhitespace then string.dropWhile isspace else string with
  | [] => { result := .noDigits }
  | ch :: rest =>
    if ch = '-' then
      if !isSigned then { result := .negUnsigned }
      else if rest = [] then { result := .noDigits }
      else convertCstrMagnitude options isSigned true rest
    else if ch = '+' then
      if options.dontAllowPosSign then { result := .unallowedPosSign }
      else if rest = [] then { result := .noDigits }
      else convertCstrMagnitude options isSigned false rest
    else convertCstrMagnitude options isSigned false (ch :: rest)

end source

/-- The options that `strtoul` sets for a base, where `none` is 0. -/
def strtoulOptions (base : Option NumericBase) : StrToNumOptions :=
  let options : StrToNumOptions :=
    { defaultBase := base.getD .base10
      dontAllow0APrefix := true
      dontAllow0aPrefix := true
      dontAllow0BPrefix := true
      dontAllow0bPrefix := true
      dontAllow0oPrefix := true
      dontAllow0OPrefix := true }
  match base with
  | none => options
  | some .base2 =>
    { options with
      dontAllowBase8 := true, dontAllowBase16 := true
      dontAllow0bPrefix := false, dontAllow0BPrefix := false }
  | some .base8 =>
    { options with dontAllowBase2 := true, dontAllowBase16 := true, dontAllow0oPrefix := false }
  | some .base16 => { options with dontAllowBase2 := true, dontAllowBase8 := true }
  | _ => { options with dontAllowBase2 := true, dontAllowBase8 := true, dontAllowBase16 := true }

/-- `strtoul`: what it returns, and what it stores through `endptr`, if that is not `NULL`. -/
def strtoul (str : List Char) (endptr : Bool) (base : Option NumericBase) :
    Result (Nat × Option (Option (List Char))) :=
  let r := convertCstrTo64int (strtoulOptions base) false str
  if r.endOut ≠ none ∧ endptr = false then .error .nullDeref
  else if r.result ≠ .ok then .ok (2 ^ 64 - 1, r.endOut)
  else .ok (r.resultOut.getD 0, r.endOut)

/-! ## Two copies of one parser -/

/-- The result for a view as one for a string: where an empty view is stored, `NULL` is. -/
def ToNum.toCstr (r : ToNum) : CstrToNum :=
  ⟨r.result, r.endOut.map fun rest => if rest = [] then none else some rest, r.resultOut⟩

section copies

variable {options : StrToNumOptions} {isSigned isNeg : Bool}

theorem finishCstr_eq (foundDigit : Bool) (sv : List Char) (number : Nat) :
    finishCstr isSigned isNeg foundDigit (if sv = [] then none else some sv) number =
      (finishNum isSigned isNeg foundDigit sv number).toCstr := by
  have hend : finishNum isSigned isNeg foundDigit sv number =
      { finishNum isSigned isNeg foundDigit [] number with endOut := some sv } := by
    unfold finishNum
    split_ifs <;> rfl
  rw [hend]
  rfl

theorem convertCstrDigits_eq (base : Nat) (string : List Char) (foundDigit : Bool) (number : Nat) :
    convertCstrDigits options isSigned isNeg base string foundDigit number =
      (convertDigits options isSigned isNeg base string foundDigit number).toCstr := by
  induction string generalizing foundDigit number with
  | nil => exact finishCstr_eq foundDigit [] number
  | cons ch string ih =>
    rw [convertCstrDigits, convertDigits, ih]
    split_ifs
    · rfl
    · exact finishCstr_eq foundDigit (ch :: string) number
    · rfl
    · rfl
    · rfl

theorem convertCstrMagnitude_eq (string : List Char) :
    convertCstrMagnitude options isSigned isNeg string =
      (convertMagnitude options isSigned isNeg string).toCstr := by
  unfold convertCstrMagnitude
  split
  · rfl
  case h_2 ch string =>
    simp only [convertMagnitude, convertCstrDigits_eq]
    cases options.prefixOf ch with
    | none => rfl
    | some found =>
      dsimp only
      split_ifs <;> rfl
  case h_3 string hzero hletter =>
    rw [convertMagnitude, convertCstrDigits_eq]
    · exact hzero
    · exact hletter

/-- **The parser of strings is the parser of views**, but for the `NULL` at the end. -/
theorem convertCstrTo64int_eq (string : List Char) :
    convertCstrTo64int options isSigned string =
      (convertSvTo64int string options isSigned).toCstr := by
  unfold convertCstrTo64int convertSvTo64int
  simp only [convertCstrMagnitude_eq]
  cases (if options.skipLeadingWhitespace then string.dropWhile isspace else string) with
  | nil => rfl
  | cons ch rest =>
    dsimp only
    split_ifs <;> rfl

end copies

/-- How many characters are before the end that is stored. -/
def ToNum.consumed (r : ToNum) (sv : List Char) : Option Nat :=
  r.endOut.map fun rest => sv.length - rest.length

@[inherit_doc ToNum.consumed]
def CstrToNum.consumed (r : CstrToNum) (string : List Char) : Option Nat :=
  r.endOut.map fun end_ => string.length - (end_.getD []).length

/-- **Both parsers return the same, store the same number and read as far**, for all texts and options. -/
theorem cstr_parsed_as_sv (string : List Char) (options : StrToNumOptions) (isSigned : Bool) :
    (convertCstrTo64int options isSigned string).result =
        (convertSvTo64int string options isSigned).result ∧
      (convertCstrTo64int options isSigned string).resultOut =
        (convertSvTo64int string options isSigned).resultOut ∧
      (convertCstrTo64int options isSigned string).consumed string =
        (convertSvTo64int string options isSigned).consumed string := by
  rw [convertCstrTo64int_eq]
  refine ⟨rfl, rfl, ?_⟩
  unfold CstrToNum.consumed ToNum.toCstr ToNum.consumed
  rw [Option.map_map]
  congr 1
  funext rest
  cases rest <;> rfl

/-! ## `strtoul` -/

/-- The numerals of a base, where `none` is 0 and the numeral says which base it is of. -/
inductive Numeral : Option NumericBase → List Char → Nat → Prop where
  | digits {base : NumericBase} {ds : List Char} : IsDigits base.toNat ds →
      Numeral (some base) ds (valueOf base.toNat ds)
  | hex {base : Option NumericBase} {letter : Char} {ds : List Char} :
      base = none ∨ base = some .base16 → letter = 'x' ∨ letter = 'X' → IsDigits 16 ds →
      Numeral base ('0' :: letter :: ds) (valueOf 16 ds)
  | octal {ds : List Char} : IsDigits 8 ('0' :: ds) → Numeral none ('0' :: ds) (valueOf 8 ds)
  | decimal {ds : List Char} : IsDigits 10 ds → ds.head? ≠ some '0' →
      Numeral none ds (valueOf 10 ds)
  | plus {base : Option NumericBase} {text : List Char} {value : Nat} : Numeral base text value →
      text.head? ≠ some '+' → Numeral base ('+' :: text) value

/-- The longest numeral that a string starts with, and its value. -/
def LongestNumeral (base : Option NumericBase) (str text : List Char) (value : Nat) : Prop :=
  text <+: str ∧ Numeral base text value ∧
    ∀ text' value', text' <+: str → Numeral base text' value' → text'.length ≤ text.length

/-- What `strtoul` should do: the value or `ULONG_MAX`, and the rest through an `endptr`. -/
def StrtoulRight (str : List Char) (endptr : Bool) (base : Option NumericBase) : Prop :=
  ∃ text value, LongestNumeral base str text value ∧
    strtoul str endptr base = .ok (min value (2 ^ 64 - 1),
      if endptr then some (some (str.drop text.length)) else none)

/-- Digits of a base only, of a number of 64 bits. -/
def fitsBase (base : Nat) (ds : List Char) : Bool :=
  ds.all (fun ch => digitOf ch < base) && valueOf base ds < 2 ^ 64

/-- The base of the prefix that a letter makes with a zero before it, if the base asked for has it. -/
def letterBase (base : Option NumericBase) : Char → Option Nat
  | 'x' => if base = none ∨ base = some .base16 then some 16 else none
  | 'X' => if base = none ∨ base = some .base16 then some 16 else none
  | 'o' => if base = some .base8 then some 8 else none
  | _ => none

/--
Digits to the end, in the base that a zero at the front selects: without a letter of a prefix behind
it that is 8, whatever base is asked for.
-/
def digitsOnly (base : Option NumericBase) : List Char → Bool
  | ['0'] => true
  | '0' :: ch :: ds =>
    match letterBase base ch with
    | some b => fitsBase b ds
    | none => fitsBase 8 (ch :: ds)
  | ds => fitsBase (base.getD .base10).toNat ds

/-- The strings that `strtoul` reads to their end. -/
def digitsToEnd (base : Option NumericBase) : List Char → Bool
  | [] => false
  | ch :: rest => if ch = '+' then rest ≠ [] && digitsOnly base rest else digitsOnly base (ch :: rest)

/-- The conversion stores the end exactly if it reads so far, and fails else. -/
def ToNum.ToEnd (r : ToNum) (whole : Bool) : Prop :=
  (whole = true → r.endOut = some []) ∧ (whole = false → r.endOut = none ∧ r.result ≠ .ok)

theorem ToNum.toEnd_failed {r : ToNum} {whole : Bool} (hwhole : whole = false)
    (hend : r.endOut = none) (hresult : r.result ≠ .ok) : r.ToEnd whole :=
  ⟨fun htrue => absurd (hwhole.symm.trans htrue) Bool.false_ne_true, fun _ => ⟨hend, hresult⟩⟩

section toEnd

variable {options : StrToNumOptions} (h : options.dontParseToEnd = false) {sv : List Char}
include h

theorem convertDigits_toEnd {base : Nat} (hbase : 0 < base) {foundDigit : Bool} {number : Nat}
    (hlt : number < 2 ^ 64) :
    (convertDigits options false false base sv foundDigit number).ToEnd
      (sv.all (fun ch => digitOf ch < base) &&
        numeralValue base number (sv.map digitOf) < 2 ^ 64) := by
  induction sv generalizing foundDigit number with
  | nil =>
    refine ⟨fun _ => ?_, fun hwhole => ?_⟩
    · cases foundDigit <;> rfl
    · simp only [List.all_nil, Bool.true_and, List.map_nil, numeralValue_nil,
        decide_eq_false_iff_not] at hwhole
      exact absurd hlt hwhole
  | cons ch sv ih =>
    have hle : number * base + digitOf ch ≤
        numeralValue base (number * base + digitOf ch) (sv.map digitOf) := le_numeralValue hbase
    have hover : 2 ^ 64 ≤ number * base + digitOf ch →
        decide (numeralValue base number ((ch :: sv).map digitOf) < 2 ^ 64) = false := by
      intro hge
      exact decide_eq_false (not_lt.mpr (hge.trans hle))
    rw [convertDigits, if_pos (show (!options.dontParseToEnd) = true by rw [h]; rfl)]
    split_ifs with hdigit hmul hadd
    · exact ToNum.toEnd_failed (by simp [not_lt.mpr hdigit]) rfl fun hok => by cases hok
    · exact ToNum.toEnd_failed (by rw [hover (by omega), Bool.and_false]) rfl fun hok => by cases hok
    · exact ToNum.toEnd_failed (by rw [hover hadd, Bool.and_false]) rfl fun hok => by cases hok
    · rw [List.all_cons, decide_eq_true (not_le.mp hdigit), Bool.true_and]
      exact ih (not_le.mp hadd)

end toEnd

variable {base : Option NumericBase}

/-- The letters of the prefixes: refused, or of the base that `letterBase` gives. -/
theorem prefixOf_strtoul (hbase : base ∈ [none, some .base8, some .base10, some .base16]) (ch : Char) :
    ((strtoulOptions base).prefixOf ch = none ∧ letterBase base ch = none) ∨
    ∃ dontAllowPrefix dontAllowBase b,
      (strtoulOptions base).prefixOf ch = some (dontAllowPrefix, dontAllowBase, b) ∧ 0 < b ∧
      (letterBase base ch = none ∧ (dontAllowPrefix = true ∨ dontAllowBase = true) ∧ 8 ≤ digitOf ch ∨
        letterBase base ch = some b ∧ dontAllowPrefix = false ∧ dontAllowBase = false) := by
  unfold StrToNumOptions.prefixOf
  split
  case h_9 =>
    refine .inl ⟨rfl, ?_⟩
    unfold letterBase
    split
    · exact absurd rfl ‹_›
    · exact absurd rfl ‹_›
    · exact absurd rfl ‹_›
    · rfl
  all_goals
    right
    simp only [List.mem_cons, List.not_mem_nil, or_false] at hbase
    rcases hbase with rfl | rfl | rfl | rfl <;> exact ⟨_, _, _, rfl, by decide, by decide⟩

section reading

variable (hbase : base ∈ [none, some .base8, some .base10, some .base16])
include hbase

theorem convertMagnitude_toEnd (sv : List Char) :
    (convertMagnitude (strtoulOptions base) false false sv).ToEnd (digitsOnly base sv) := by
  have hend : (strtoulOptions base).dontParseToEnd = false := by
    rcases base with _ | _ | _ <;> rfl
  have hdigits {b : Nat} (hb : 0 < b) (sv : List Char) (foundDigit : Bool) :
      (convertDigits (strtoulOptions base) false false b sv foundDigit 0).ToEnd (fitsBase b sv) :=
    convertDigits_toEnd hend hb (Nat.two_pow_pos 64)
  unfold convertMagnitude
  split
  · exact ⟨fun _ => rfl, fun hwhole => by cases hwhole⟩
  case h_2 ch sv =>
    rw [digitsOnly]
    rcases prefixOf_strtoul hbase ch with ⟨hnone, hletter⟩ | ⟨p, q, b, hsome, hb, hcase⟩
    · rw [hnone, hletter]
      exact hdigits (by decide) _ _
    · rw [hsome]
      rcases hcase with ⟨hletter, hrefused, hlarge⟩ | ⟨hletter, rfl, rfl⟩
      · -- a letter that is refused is no digit of base 8 either
        have hwhole : fitsBase 8 (ch :: sv) = false := by simp [fitsBase, not_lt.mpr hlarge]
        rw [hletter]
        dsimp only
        split_ifs with hfront hbase
        · exact ToNum.toEnd_failed hwhole rfl fun hok => by cases hok
        · exact ToNum.toEnd_failed hwhole rfl fun hok => by cases hok
        · exact absurd hrefused (by simp [hfront, hbase])
      · rw [hletter]
        exact hdigits hb _ _
  case h_3 sv hzero hfront =>
    have hdefault : (strtoulOptions base).defaultBase = base.getD .base10 := by
      rcases base with _ | _ | _ <;> rfl
    rw [hdefault, digitsOnly]
    · exact hdigits (Nat.zero_lt_of_lt (one_lt_base _)) _ _
    · exact hzero
    · exact hfront

theorem convertSvTo64int_toEnd (str : List Char) :
    (convertSvTo64int str (strtoulOptions base) false).ToEnd (digitsToEnd base str) := by
  have hopts : (strtoulOptions base).skipLeadingWhitespace = false ∧
      (strtoulOptions base).dontAllowPosSign = false := by
    rcases base with _ | _ | _ <;> exact ⟨rfl, rfl⟩
  unfold convertSvTo64int
  rw [hopts.1, hopts.2]
  cases str with
  | nil => exact ToNum.toEnd_failed rfl rfl fun hok => by cases hok
  | cons ch rest =>
    simp only [digitsToEnd, Bool.not_false, Bool.false_eq_true, if_false, if_true]
    by_cases hminus : ch = '-'
    · -- a minus sign is no digit
      subst hminus
      rw [if_pos rfl, if_neg (by decide)]
      refine ToNum.toEnd_failed ?_ rfl fun hok => by cases hok
      rw [digitsOnly]
      · simp only [fitsBase, List.all_cons]
        simp only [List.mem_cons, List.not_mem_nil, or_false] at hbase
        rcases hbase with rfl | rfl | rfl | rfl <;> rfl
      · intro hzero
        cases hzero
      · intro _ _ hzero
        cases hzero
    rw [if_neg hminus]
    by_cases hplus : ch = '+'
    · rw [if_pos hplus, if_pos hplus]
      by_cases hrest : rest = []
      · subst hrest
        exact ToNum.toEnd_failed rfl rfl fun hok => by cases hok
      · rw [if_neg hrest, decide_eq_true hrest, Bool.true_and]
        exact convertMagnitude_toEnd hbase rest
    · rw [if_neg hplus, if_neg hplus]
      exact convertMagnitude_toEnd hbase (ch :: rest)

/-- A call stores through `endptr` where it has read the string to its end, and fails elsewhere. -/
theorem strtoul_eq (str : List Char) :
    strtoul str false base = (if digitsToEnd base str then .error .nullDeref
      else .ok (2 ^ 64 - 1, none)) ∧
    ∃ number stored, strtoul str true base = .ok (number, stored) ∧
      (stored = none ∨ stored = some none) := by
  have hto := convertSvTo64int_toEnd hbase str
  unfold strtoul
  rw [convertCstrTo64int_eq]
  generalize convertSvTo64int str (strtoulOptions base) false = r at hto
  obtain ⟨result, endOut, resultOut⟩ := r
  cases hwhole : digitsToEnd base str with
  | true =>
    obtain rfl : endOut = some [] := hto.1 hwhole
    refine ⟨rfl, ?_⟩
    by_cases hresult : result = .ok
    · exact ⟨_, _, if_neg (not_not.mpr hresult), .inr rfl⟩
    · exact ⟨_, _, if_pos hresult, .inr rfl⟩
  | false =>
    obtain ⟨hend, hresult⟩ := hto.2 hwhole
    obtain rfl : endOut = none := hend
    exact ⟨if_pos hresult, _, _, if_pos hresult, .inl rfl⟩

end reading

end OsKernel.Lib
