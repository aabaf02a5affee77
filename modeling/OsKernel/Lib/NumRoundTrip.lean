import OsKernel.Lib.NumLanguage

/-!
# Numbers to text and back

The conversions to text store the numeral of the number, with a prefix and a sign before
it, from the back of the buffer to the front. What they store is one of the texts that the
conversion from text reads: a numeral starts with a zero only if it is that of zero, so no
digits are taken for a prefix.

Negative numbers do not come back: `check_sub` says that a difference fits, and the
conversion takes this for a failure.
-/

namespace OsKernel.Lib

open List

variable {number base i j k : Nat} {buffer buffer' : CharBuffer} {chars sv : List Char}
  {foundDigit : Bool} {o : StrToNumOptions}

/-! ## The text of a number -/

theorem digitOf_chars (options : NumToStrOptions) {d : Nat} (h : d < 36) :
    digitOf (options.chars.getD d '\x00') = d := by
  have hlower : ∀ d < 36, digitOf (alphanumericLower.getD d '\x00') = d := by decide
  have hupper : ∀ d < 36, digitOf (alphanumericUpper.getD d '\x00') = d := by decide
  unfold NumToStrOptions.chars
  split
  · exact hupper d h
  · exact hlower d h

section text

variable {base : NumericBase} {options : NumToStrOptions} {o : StrToNumOptions}

theorem numeralText_digits (number : Nat) (base : NumericBase) (options : NumToStrOptions) :
    (numeralText number base options).map digitOf = numeral base.toNat number := by
  have hle : base.toNat ≤ 36 := by cases base <;> decide
  rw [numeralText, map_map]
  conv_rhs => rw [← map_id (numeral base.toNat number)]
  refine map_congr_left fun d hd => digitOf_chars options ?_
  exact lt_of_lt_of_le (numeral_lt (one_lt_base base) number d hd) hle

theorem numeralText_isDigits (number : Nat) (base : NumericBase) (options : NumToStrOptions) :
    IsDigits base.toNat (numeralText number base options) := by
  have hone := one_lt_base base
  refine ⟨fun hnil => numeral_ne_nil hone number (map_eq_nil_iff.mp hnil), fun ch hch => ?_⟩
  refine numeral_lt hone number _ ?_
  rw [← numeralText_digits number base options]
  exact mem_map_of_mem hch

/-- **Prefix and numeral denote the number.** -/
theorem denotes_text (hbase : base ≠ .base36) (hletter : HasLetter base options) :
    Denotes base.toNat (prefixText base options ++ numeralText number base options) number := by
  have hds := numeralText_isDigits number base options
  have hvalue : valueOf base.toNat (numeralText number base options) = number := by
    rw [valueOf, numeralText_digits, numeralValue_numeral (one_lt_base base)]
  unfold prefixText
  split
  case isTrue hyes =>
    have hmem : (prefixLetter options base, base.toNat) ∈ prefixLetters := by
      cases base with
      | base10 => exact absurd rfl (hletter hyes).1
      | base36 => exact absurd rfl hbase
      | _ =>
        simp only [prefixLetter]
        split <;> decide
    have hprefixed := @Denotes.prefixed base.toNat _ _ _ hmem hds
    rwa [hvalue] at hprefixed
  case isFalse hno =>
    rcases Nat.eq_zero_or_pos number with rfl | hpos
    · have hzero : numeralText 0 base options = ['0'] := by
        unfold numeralText NumToStrOptions.chars
        split <;> rfl
      rw [hzero]
      exact .zero
    · -- only the numeral of zero starts like a prefix
      have hplain := Denotes.plain hds fun hhead => ?_
      · rwa [hvalue] at hplain
      obtain ⟨ds, htext⟩ := head?_eq_some_iff.mp hhead
      have hnum := numeralText_digits number base options
      rw [htext, map_cons] at hnum
      have := (numeral_eq_zero_cons (one_lt_base base) hnum.symm).1
      omega

/-- **Sign, prefix and numeral are written as the conversion from text expects them.** -/
theorem written_text (hbase : base ≠ .base36) (hletter : HasLetter base options)
    (hdefault : o.defaultBase = base) :
    Written o (signText options ++ (prefixText base options ++ numeralText number base options)) number := by
  subst hdefault
  refine ⟨[], signText options, _, rfl, nofun, absurd rfl, ?_, denotes_text hbase hletter⟩
  unfold signText
  split
  · exact .inr rfl
  · exact .inl rfl

end text

/-! ## There and back -/

/--
**A number that `unsigned_to_string_view` has written is read back by `sv_to_unsigned`**, in every base
but 36, with every option but a prefix without a letter.
-/
theorem unsigned_round_trip (number : Nat) (base : NumericBase) (options : NumToStrOptions)
    (buffer : CharBuffer) (o : StrToNumOptions) (hnumber : number < 2 ^ 64) (hbase : base ≠ .base36)
    (hletter : HasLetter base options) (hcap : buffer.cap = MAX_CONVERT_CAP) (hopts : Unrestricted o)
    (hdefault : o.defaultBase = base) :
    ∃ text buffer', unsignedToStringView number base buffer options = .ok (text, buffer') ∧
      svToUnsigned text o = ⟨.ok, some [], some number⟩ := by
  obtain ⟨buffer', htext, -⟩ := unsignedToStringView_text hletter hcap.ge hnumber hbase
  exact ⟨_, buffer', htext, (written_text hbase hletter hdefault).read hopts hnumber nofun⟩

theorem unsigned_round_trip_max :
    ∃ text buffer', unsignedToStringView (2 ^ 64 - 1) .base16 ⟨MAX_CONVERT_CAP, fun _ => '\x00'⟩
        { includePrefix := true, includePosSign := true } = .ok (text, buffer') ∧
      svToUnsigned text { defaultBase := .base16 } = ⟨.ok, some [], some (2 ^ 64 - 1)⟩ :=
  unsigned_round_trip _ _ _ _ _ (by decide) (by decide) (fun _ => by decide) rfl rfl rfl

/-! ## Negative numbers -/

/-- A negative number is never accepted after its digits. -/
theorem finishNum_negative :
    (finishNum true true foundDigit sv number).result ≠ .ok := by
  unfold finishNum
  split
  · exact nofun
  · split
    · exact nofun
    case isFalse hsmall =>
      have hle : number ≤ 2 ^ 63 := by
        simp only [Bool.true_and, decide_eq_true_eq] at hsmall
        omega
      rw [if_pos rfl, if_pos hle]
      exact nofun

theorem convertDigits_negative :
    (convertDigits o true true base sv foundDigit number).result ≠ .ok := by
  induction sv generalizing number foundDigit with
  | nil => exact finishNum_negative
  | cons ch sv ih =>
    rw [convertDigits]
    split
    · split
      · exact fun h => by cases h
      · exact finishNum_negative
    · split
      · exact fun h => by cases h
      · split
        · exact fun h => by cases h
        · exact ih

/-- The one negative number that is accepted is zero. -/
theorem convertMagnitude_negative (h : (convertMagnitude o true true sv).result = .ok) :
    (convertMagnitude o true true sv).resultOut = some 0 := by
  revert h
  unfold convertMagnitude
  split
  · exact fun _ => rfl
  · split
    · split
      · exact nofun
      · split
        · exact nofun
        · exact fun h => absurd h convertDigits_negative
    · exact fun h => absurd h convertDigits_negative
  · exact fun h => absurd h convertDigits_negative

theorem svToSigned_minus (h : (svToSigned ('-' :: sv) o).result = .ok) :
    (svToSigned ('-' :: sv) o).resultOut = some 0 := by
  have hskip : (if o.skipLeadingWhitespace = true then ('-' :: sv).dropWhile isspace else '-' :: sv) =
      '-' :: sv := by
    split <;> rfl
  rw [svToSigned, convertSvTo64int, hskip] at h ⊢
  simp only [↓reduceIte, Bool.not_true, Bool.false_eq_true] at h ⊢
  split at h
  · cases h
  case isFalse hne =>
    rw [if_neg hne]
    exact convertMagnitude_negative h

/--
**What `signed_to_string_view` writes without a prefix is read back by `sv_to_signed` exactly if the number
is not negative.**
-/
theorem signed_round_trip_iff (number : Int) (base : NumericBase) (options : NumToStrOptions)
    (buffer : CharBuffer) (o : StrToNumOptions) (hlow : -2 ^ 63 ≤ number) (hhigh : number < 2 ^ 63)
    (hbase : base ≠ .base36) (hpre : options.includePrefix = false)
    (hcap : buffer.cap = MAX_CONVERT_CAP) (hopts : Unrestricted o) (hdefault : o.defaultBase = base) :
    (∃ text buffer', signedToStringView number base buffer options = .ok (text, buffer') ∧
      (svToSigned text o).result = .ok ∧
      (svToSigned text o).resultOut = some (number % 2 ^ 64).toNat) ↔ 0 ≤ number := by
  constructor
  · intro ⟨text, buffer', htext, hok, hout⟩
    by_contra hneg
    obtain ⟨n, rfl⟩ : ∃ n : Nat, number = -n := ⟨number.natAbs, by omega⟩
    obtain ⟨_, hminus, -⟩ :=
      @signedToStringView_text_neg n buffer base options hpre hcap.ge (by omega) (by omega)
    rw [hminus] at htext
    cases htext
    rw [svToSigned_minus hok, Option.some.injEq] at hout
    omega
  · intro hnonneg
    obtain ⟨n, rfl⟩ := Int.eq_ofNat_of_zero_le hnonneg
    have hletter := @hasLetter_of_plain base options hpre
    obtain ⟨buffer', htext, -⟩ :=
      @signedToStringView_text n buffer base options hletter hcap.ge (by omega)
    have hwritten := @written_text n base options o hbase hletter hdefault
    have hread := @Written.read o true _ n hopts hwritten (by omega) (by omega)
    refine ⟨_, buffer', htext, ?_, ?_⟩
    · rw [svToSigned, hread]
    · rw [svToSigned, hread]
      simp only [Option.some.injEq]
      omega

theorem signed_round_trip_iff_max :
    ∃ text buffer', signedToStringView (2 ^ 63 - 1) .base10 ⟨MAX_CONVERT_CAP, fun _ => '\x00'⟩ {} =
        .ok (text, buffer') ∧ (svToSigned text { defaultBase := .base10 }).result = .ok ∧
      (svToSigned text { defaultBase := .base10 }).resultOut =
        some ((2 ^ 63 - 1 : Int) % 2 ^ 64).toNat :=
  (signed_round_trip_iff (2 ^ 63 - 1) .base10 {} ⟨MAX_CONVERT_CAP, fun _ => '\x00'⟩
    { defaultBase := .base10 } (by decide) (by decide) (by decide) rfl rfl rfl rfl).mpr (by decide)

/-- The text of −1 is read as an underflow, that of the least number as an overflow. -/
theorem signed_round_trip_negative :
    ((signedToStringView (-1) .base10 ⟨MAX_CONVERT_CAP, fun _ => '\x00'⟩ {}).map fun r =>
        (r.1, (svToSigned r.1 { defaultBase := .base10 }).result)) = .ok (['-', '1'], .underflow) ∧
      ((signedToStringView (-2 ^ 63) .base10 ⟨MAX_CONVERT_CAP, fun _ => '\x00'⟩ {}).map fun r =>
        (svToSigned r.1 { defaultBase := .base10 }).result) = .ok .overflow := by
  decide +kernel

end OsKernel.Lib
