import OsKernel.Lib.NumText
import OsKernel.Lib.StrToNum

/-!
# The numerals that are read

`convert_sv_to_64int` decides what a text is from its first characters: spaces, a sign, and
a zero with what follows it. `Written` says which texts denote a number, and which one,
without a word about the parser. Such a text is read as its number, if that fits; and with
`sv_to_unsigned` reading to the end, no other text is accepted.
-/

namespace OsKernel.Lib

open List

/-- One or more digits of a base. -/
def IsDigits (base : Nat) (ds : List Char) : Prop := ds ≠ [] ∧ ∀ ch ∈ ds, digitOf ch < base

/-- The number that digits stand for. -/
def valueOf (base : Nat) (ds : List Char) : Nat := numeralValue base 0 (ds.map digitOf)

/-- The letters that make a prefix with a zero before them, and their bases. -/
def prefixLetters : List (Char × Nat) :=
  [('b', 2), ('B', 2), ('o', 8), ('O', 8), ('x', 16), ('X', 16), ('a', 36), ('A', 36)]

/-- The numerals without a sign, and the numbers they denote. -/
inductive Denotes (defaultBase : Nat) : List Char → Nat → Prop where
  | zero : Denotes defaultBase ['0'] 0
  | octal {ds : List Char} : IsDigits 8 ds → Denotes defaultBase ('0' :: ds) (valueOf 8 ds)
  | prefixed {letter : Char} {base : Nat} {ds : List Char} : (letter, base) ∈ prefixLetters →
      IsDigits base ds → Denotes defaultBase ('0' :: letter :: ds) (valueOf base ds)
  | plain {ds : List Char} : IsDigits defaultBase ds → ds.head? ≠ some '0' →
      Denotes defaultBase ds (valueOf defaultBase ds)

/-- A numeral, with a plus sign, and with spaces before it where they are skipped. -/
def Written (o : StrToNumOptions) (sv : List Char) (value : Nat) : Prop :=
  ∃ spaces sign numeral, sv = spaces ++ (sign ++ numeral) ∧ (∀ ch ∈ spaces, isspace ch = true) ∧
    (spaces ≠ [] → o.skipLeadingWhitespace = true) ∧ (sign = [] ∨ sign = ['+']) ∧
    Denotes o.defaultBase.toNat numeral value

/-- No option that forbids something is set. -/
def Unrestricted (o : StrToNumOptions) : Prop :=
  o = { defaultBase := o.defaultBase
        skipLeadingWhitespace := o.skipLeadingWhitespace
        dontParseToEnd := o.dontParseToEnd }

section digits

variable {o : StrToNumOptions} {isSigned isNegative found : Bool} {base n : Nat} {sv : List Char}

/-- **Digits are read in their order.** -/
theorem convertDigits_eq (hbase : 0 < base) (hds : ∀ ch ∈ sv, digitOf ch < base)
    (hlt : numeralValue base n (sv.map digitOf) < 2 ^ 64) :
    convertDigits o isSigned isNegative base sv found n =
      finishNum isSigned isNegative (found || !sv.isEmpty) [] (numeralValue base n (sv.map digitOf)) := by
  induction sv generalizing n found with
  | nil => simp [convertDigits]
  | cons ch sv ih =>
    rw [forall_mem_cons] at hds
    -- what fits in the end has fitted before every digit
    have hvalue : n * base + digitOf ch ≤ numeralValue base n ((ch :: sv).map digitOf) :=
      le_numeralValue hbase
    rw [convertDigits, if_neg (by omega), if_neg (by omega), if_neg (by omega), ih hds.2 hlt]
    simp

theorem convertDigits_ok (hbase : 0 < base) (hds : ∀ ch ∈ sv, digitOf ch < base)
    (hfound : found = true ∨ sv ≠ []) (hlt : valueOf base sv < 2 ^ 64)
    (hsigned : isSigned = true → valueOf base sv < 2 ^ 63) :
    convertDigits o isSigned false base sv found 0 = ⟨.ok, some [], some (valueOf base sv)⟩ := by
  have hsome : (found || !sv.isEmpty) = true := by
    simpa [List.isEmpty_iff] using hfound
  have hsmall : (isSigned && 2 ^ 63 - 1 < valueOf base sv) = false := by
    cases isSigned with
    | false => rfl
    | true =>
      have := hsigned rfl
      simp only [Bool.true_and, decide_eq_false_iff_not]
      omega
  rw [convertDigits_eq hbase hds hlt, hsome, finishNum, ← valueOf, hsmall]
  rfl

theorem convertDigits_accepts (hend : o.dontParseToEnd = false) (hn : n < 2 ^ 64)
    (h : (convertDigits o false false base sv found n).result = .ok) :
    (∀ ch ∈ sv, digitOf ch < base) ∧ (found = true ∨ sv ≠ []) ∧
      numeralValue base n (sv.map digitOf) < 2 ^ 64 := by
  induction sv generalizing found n with
  | nil =>
    cases found with
    | false => cases h
    | true => exact ⟨nofun, .inl rfl, hn⟩
  | cons ch sv ih =>
    simp only [convertDigits, hend, Bool.not_false, ↓reduceIte] at h
    split_ifs at h with hdigit hmul hadd
    obtain ⟨hds, -, hlt⟩ := ih (by omega) h
    exact ⟨forall_mem_cons.mpr ⟨not_le.mp hdigit, hds⟩, .inr (cons_ne_nil _ _), hlt⟩

end digits

section numerals

variable {o : StrToNumOptions} {isSigned : Bool} {sv : List Char} {value : Nat}

theorem plain_of_digitOf_lt {ch : Char} (h : digitOf ch < 36) :
    isspace ch = false ∧ ch ≠ '-' ∧ ch ≠ '+' := by
  refine ⟨?_, ?_, ?_⟩
  · by_contra hspace
    have hlow : ch.toNat < 48 := by
      simp only [isspace, Bool.not_eq_false, Bool.or_eq_true, Bool.and_eq_true,
        decide_eq_true_eq] at hspace
      omega
    have hnone : ∀ lo : Char, 48 ≤ lo.toNat → ¬ lo ≤ ch := fun lo hlo hle =>
      absurd (show lo.toNat ≤ ch.toNat from hle) (by omega)
    simp [digitOf, isdigit, isupper, islower, hnone '0' (by decide), hnone 'A' (by decide),
      hnone 'a' (by decide)] at h
  · rintro rfl
    exact absurd h (by decide)
  · rintro rfl
    exact absurd h (by decide)

theorem Denotes.head (h : Denotes o.defaultBase.toNat sv value) :
    ∃ ch rest, sv = ch :: rest ∧ digitOf ch < 36 := by
  have hle : o.defaultBase.toNat ≤ 36 := by cases o.defaultBase <;> decide
  cases h with
  | plain hds =>
    obtain ⟨ch, rest, rfl⟩ := exists_cons_of_ne_nil hds.1
    exact ⟨ch, rest, rfl, lt_of_lt_of_le (hds.2 ch (mem_cons_self ..)) hle⟩
  | _ => exact ⟨_, _, rfl, by decide⟩

variable (hopts : Unrestricted o)
include hopts

theorem prefixOf_cases (ch : Char) : (o.prefixOf ch = none ∧ ∀ base, (ch, base) ∉ prefixLetters) ∨
    ∃ base, o.prefixOf ch = some (false, false, base) ∧ 0 < base ∧ 8 ≤ digitOf ch ∧
      ∀ base', (ch, base') ∈ prefixLetters ↔ base' = base := by
  rw [hopts]
  unfold StrToNumOptions.prefixOf
  split
  case h_9 => left; simp_all [prefixLetters]
  all_goals exact .inr ⟨_, rfl, by decide, by decide, fun base' => by simp [prefixLetters]⟩

/-- **A numeral is read as its number.** -/
theorem Denotes.read (h : Denotes o.defaultBase.toNat sv value) (hlt : value < 2 ^ 64)
    (hsigned : isSigned = true → value < 2 ^ 63) :
    convertMagnitude o isSigned false sv = ⟨.ok, some [], some value⟩ := by
  cases h with
  | zero => rfl
  | octal hds =>
    obtain ⟨ch, ds, rfl⟩ := exists_cons_of_ne_nil hds.1
    rcases prefixOf_cases hopts ch with ⟨hnone, -⟩ | ⟨_, -, -, hdigit, -⟩
    · rw [convertMagnitude, hnone]
      exact convertDigits_ok (by decide) hds.2 (.inl rfl) hlt hsigned
    · exact absurd (hds.2 ch (mem_cons_self ..)) (not_lt.mpr hdigit)
  | prefixed hmem hds =>
    rcases prefixOf_cases hopts _ with ⟨-, hletter⟩ | ⟨base, hsome, hbase, -, hletter⟩
    · exact absurd hmem (hletter _)
    · obtain rfl := (hletter _).mp hmem
      rw [convertMagnitude, hsome]
      exact convertDigits_ok hbase hds.2 (.inr hds.1) hlt hsigned
  | plain hds hhead =>
    have hpos : 0 < o.defaultBase.toNat := Nat.zero_lt_of_lt (one_lt_base _)
    rw [convertMagnitude]
    · exact convertDigits_ok hpos hds.2 (.inr hds.1) hlt hsigned
    · rintro rfl
      exact hhead rfl
    · rintro ch sv rfl
      exact hhead rfl

/-- **Sign and numeral are read as the number**, behind spaces if they are skipped. -/
theorem Written.read (h : Written o sv value) (hlt : value < 2 ^ 64)
    (hsigned : isSigned = true → value < 2 ^ 63) :
    convertSvTo64int sv o isSigned = ⟨.ok, some [], some value⟩ := by
  obtain ⟨spaces, sign, numeral, rfl, hspaces, hskip, hsign, hnumeral⟩ := h
  have hread := hnumeral.read hopts hlt hsigned
  obtain ⟨ch, rest, rfl, hdigit⟩ := hnumeral.head
  obtain ⟨hspace, hminus, hplus⟩ := plain_of_digitOf_lt hdigit
  have hfirst : (sign ++ ch :: rest).dropWhile isspace = sign ++ ch :: rest := by
    rcases hsign with rfl | rfl
    · exact dropWhile_cons_of_neg (by simp [hspace])
    · rfl
  have hrest : (if o.skipLeadingWhitespace then (spaces ++ (sign ++ ch :: rest)).dropWhile isspace
      else spaces ++ (sign ++ ch :: rest)) = sign ++ ch :: rest := by
    split
    · rw [dropWhile_append_of_pos hspaces, hfirst]
    case isFalse hno =>
      rw [show spaces = [] from by_contra fun hne => hno (hskip hne), nil_append]
  have hpos : o.dontAllowPosSign = false := by rw [hopts]
  rw [convertSvTo64int, hrest]
  rcases hsign with rfl | rfl
  · simp [hminus, hplus, hread]
  · simp [hpos, hread]

variable (hend : o.dontParseToEnd = false)
include hend

theorem convertMagnitude_accepts (h : (convertMagnitude o false false sv).result = .ok) :
    ∃ value < 2 ^ 64, Denotes o.defaultBase.toNat sv value := by
  unfold convertMagnitude at h
  split at h
  · exact ⟨0, by decide, .zero⟩
  case h_2 ch sv =>
    rcases prefixOf_cases hopts ch with ⟨hnone, -⟩ | ⟨base, hsome, -, -, hletter⟩
    · rw [hnone] at h
      obtain ⟨hds, -, hlt⟩ := convertDigits_accepts hend (by decide) h
      exact ⟨_, hlt, .octal ⟨cons_ne_nil _ _, hds⟩⟩
    · rw [hsome] at h
      obtain ⟨hds, hne, hlt⟩ := convertDigits_accepts hend (by decide) h
      exact ⟨_, hlt, .prefixed ((hletter base).mpr rfl) ⟨hne.resolve_left nofun, hds⟩⟩
  case h_3 sv hzero hletter =>
    obtain ⟨hds, hne, hlt⟩ := convertDigits_accepts hend (by decide) h
    refine ⟨_, hlt, .plain ⟨hne.resolve_left nofun, hds⟩ fun hhead => ?_⟩
    obtain ⟨ds, rfl⟩ := head?_eq_some_iff.mp hhead
    cases ds with
    | nil => exact hzero rfl
    | cons ch ds => exact hletter ch ds rfl

/-- **Nothing else is accepted.** -/
theorem svToUnsigned_accepts (h : (svToUnsigned sv o).result = .ok) :
    ∃ value < 2 ^ 64, Written o sv value := by
  obtain ⟨spaces, rest, hsv, hspaces, hskip, hrest⟩ : ∃ spaces rest, sv = spaces ++ rest ∧
      (∀ ch ∈ spaces, isspace ch = true) ∧ (spaces ≠ [] → o.skipLeadingWhitespace = true) ∧
      (if o.skipLeadingWhitespace then sv.dropWhile isspace else sv) = rest := by
    by_cases hskip : o.skipLeadingWhitespace = true
    · rw [if_pos hskip]
      exact ⟨sv.takeWhile isspace, _, takeWhile_append_dropWhile.symm,
        fun ch hch => mem_takeWhile_imp hch, fun _ => hskip, rfl⟩
    · rw [if_neg hskip]
      exact ⟨[], sv, rfl, nofun, absurd rfl, rfl⟩
  rw [svToUnsigned, convertSvTo64int, hrest] at h
  have hwritten : ∀ sign numeral, rest = sign ++ numeral → (sign = [] ∨ sign = ['+']) →
      (convertMagnitude o false false numeral).result = .ok → ∃ value < 2 ^ 64, Written o sv value := by
    intro sign numeral hsign hplus hok
    obtain ⟨value, hlt, hnumeral⟩ := convertMagnitude_accepts hopts hend hok
    exact ⟨value, hlt, spaces, sign, numeral, hsign ▸ hsv, hspaces, hskip, hplus, hnumeral⟩
  cases rest with
  | nil => cases h
  | cons ch rest =>
    simp only [Bool.not_false, ↓reduceIte] at h
    split_ifs at h with hminus hplus
    · exact hwritten ['+'] rest (by rw [hplus]; rfl) (.inr rfl) h
    · exact hwritten [] (ch :: rest) rfl (.inl rfl) h

end numerals

/--
**What `sv_to_unsigned` accepts.** Where nothing is forbidden and the text is read to its end, a text is
accepted exactly if it is a numeral of a number of 64 bits, and that number is stored.
-/
theorem svToUnsigned_accepts_iff (sv : List Char) (o : StrToNumOptions) (hopts : Unrestricted o)
    (hend : o.dontParseToEnd = false) :
    ((svToUnsigned sv o).result = .ok ↔ ∃ value < 2 ^ 64, Written o sv value) ∧
      ∀ value < 2 ^ 64, Written o sv value → (svToUnsigned sv o).resultOut = some value := by
  have hread : ∀ value < 2 ^ 64, Written o sv value →
      svToUnsigned sv o = ⟨.ok, some [], some value⟩ :=
    fun value hlt h => h.read hopts hlt nofun
  refine ⟨⟨svToUnsigned_accepts hopts hend, ?_⟩, ?_⟩
  · rintro ⟨value, hlt, h⟩
    rw [hread value hlt h]
  · intro value hlt h
    rw [hread value hlt h]

theorem svToUnsigned_accepts_iff_hex : ∃ value < 2 ^ 64,
    Written { defaultBase := .base10, skipLeadingWhitespace := true }
      [' ', '+', '0', 'x', '1', 'F'] value :=
  (svToUnsigned_accepts_iff _ { defaultBase := .base10, skipLeadingWhitespace := true } rfl rfl).1.mp
    (by decide)

end OsKernel.Lib
