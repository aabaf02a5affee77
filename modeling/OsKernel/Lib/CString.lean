import OsKernel.Lib.Time

/-!
# Comparing strings (`kernel/stdlib.c`, `lib/adt/string_view.c`)

The loops of `strcmp` and `strncmp` look for the end of the strings and not for a
difference. What they return is the difference of the characters where they stop: at the
first terminator of either string, or after `length` characters. So `strcmp` tells
whether two strings have the same length, and `strncmp` looks at one character, which is
one that should not be compared at all if it is the one after the first `length`.

String views are compared with `strncmp`, and names of weekdays and months are looked up
with views. A name is found by its length.
-/

namespace OsKernel.Lib

open List

variable {ch jch : UInt8} {s t a b name : List UInt8} {n k : Nat}

/-! ## The source -/

/-- `ch - jch`, of characters that are unsigned. -/
def charDiff (ch jch : UInt8) : Int := ch.toNat - jch.toNat

/-- `strlen`. A pointer is the list of the characters that can be read from it on. -/
def strlen : List UInt8 → Result Nat
  | [] => .error .outOfBounds
  | ch :: iter => if ch ≠ 0 then do return (← strlen iter) + 1 else .ok 0

/-- `strcmp`. -/
def strcmp : List UInt8 → List UInt8 → Result Int
  | ch :: iter, jch :: jter =>
    if ch ≠ 0 ∧ jch ≠ 0 then strcmp iter jter else .ok (charDiff ch jch)
  | _, _ => .error .outOfBounds

/-- `strncmp`. After `length` characters it has read the next one. -/
def strncmp : List UInt8 → List UInt8 → (length : Nat) → Result Int
  | ch :: _, jch :: _, 0 => .ok (charDiff ch jch)
  | ch :: iter, jch :: jter, length + 1 =>
    if ch = 0 ∨ jch = 0 then .ok (charDiff ch jch) else strncmp iter jter length
  | _, _, _ => .error .outOfBounds

/-- `struct string_view`. What can be read at `begin` may be longer than the view. -/
structure StringView where
  begin : List UInt8
  length : Nat

/-- `sv_create`. -/
def svCreate (str : List UInt8) : Result StringView := do
  return { begin := str, length := ← strlen str }

/-- `*ptr`. -/
def readChar : List UInt8 → Result Int
  | [] => .error .outOfBounds
  | ch :: _ => .ok ch.toNat

/-- `sv_compare`. -/
def svCompare (sv sv2 : StringView) : Result Int :=
  if sv2.length < sv.length then
    if sv2.length = 0 then readChar sv.begin
    else strncmp sv.begin sv2.begin sv2.length
  else if sv.length < sv2.length then
    if sv.length = 0 then do return -(← readChar sv2.begin)
    else strncmp sv.begin sv2.begin sv.length
  else if sv.length = 0 then .ok 0
  else strncmp sv.begin sv2.begin sv.length

/-- `sv_equals`. -/
def svEquals (sv sv2 : StringView) : Result Bool := do return (← svCompare sv sv2) = 0

/-- `SV_STATIC` of a literal, which has its terminator after it. -/
def svStatic (literal : List UInt8) : StringView := { begin := literal ++ [0], length := literal.length }

/-- The index of the first name that the view equals, `none` for the `INVALID` value. -/
def svLookup (sv : StringView) : (names : List (List UInt8)) → Result (Option Nat)
  | [] => .ok none
  | name :: names => do
    if ← svEquals sv (svStatic name) then return some 0
    else return (← svLookup sv names).map (· + 1)

/-- The characters of a literal. -/
def literal (chars : List Char) : List UInt8 := chars.map fun c => .ofNat c.toNat

/-- `sv_to_weekday`. -/
def svToWeekday (sv : StringView) : Result (Option Nat) :=
  svLookup sv (weekdayNames.map fun name => literal (nameSv false name))

/-- `sv_to_month`. The first month is 1. -/
def svToMonth (sv : StringView) : Result (Option Nat) := do
  return (← svLookup sv (monthNames.map fun name => literal (nameSv false name))).map (· + 1)

/-- `sv_abbrev_to_weekday`. -/
def svAbbrevToWeekday (sv : StringView) : Result (Option Nat) :=
  svLookup sv (weekdayNames.map fun name => literal (nameSvAbbrev false name))

/-- `sv_abbrev_to_month`. -/
def svAbbrevToMonth (sv : StringView) : Result (Option Nat) := do
  return (← svLookup sv (monthNames.map fun name => literal (nameSvAbbrev false name))).map (· + 1)

/-! ## What the loops find -/

/-- The string at a pointer, without its terminator. -/
def cStr (s : List UInt8) : List UInt8 := s.takeWhile (· ≠ 0)

/-- Both pointers have the same character at a position. -/
def SameAt (s t : List UInt8) (k : Nat) : Prop := ∃ ch, s[k]? = some ch ∧ t[k]? = some ch

theorem ok_charDiff : (.ok (charDiff ch jch) : Result Int) = .ok 0 ↔ ch = jch := by
  rw [Except.ok.injEq, charDiff, Int.sub_eq_zero, Int.natCast_inj, UInt8.toNat_inj]

theorem sameAt_zero : SameAt (ch :: s) (jch :: t) 0 ↔ ch = jch := by
  simp [SameAt, eq_comm]

theorem cStr_cons_of_ne (h : ch ≠ 0) : cStr (ch :: s) = ch :: cStr s :=
  takeWhile_cons_of_pos (by simpa using h)

theorem cStr_cons_zero : cStr (0 :: s) = [] := takeWhile_cons_of_neg (by simp)

/-- **`strncmp` compares the characters where it stops**, and no others. -/
theorem strncmp_eq_zero :
    strncmp s t n = .ok 0 ↔ SameAt s t (min n (min (cStr s).length (cStr t).length)) := by
  induction n generalizing s t with
  | zero =>
    cases s with
    | nil => simp [strncmp, SameAt]
    | cons ch s =>
      cases t with
      | nil => simp [strncmp, SameAt]
      | cons jch t => rw [strncmp, ok_charDiff, Nat.zero_min, sameAt_zero]
  | succ n ih =>
    cases s with
    | nil => simp [strncmp, SameAt, cStr]
    | cons ch s =>
      cases t with
      | nil => simp [strncmp, SameAt, cStr]
      | cons jch t =>
        rw [strncmp]
        split
        case isTrue hend =>
          have hstop : min (cStr (ch :: s)).length (cStr (jch :: t)).length = 0 := by
            rcases hend with rfl | rfl
            · simp [cStr_cons_zero]
            · simp [cStr_cons_zero]
          rw [hstop, Nat.min_zero, ok_charDiff, sameAt_zero]
        case isFalse hmore =>
          rw [not_or] at hmore
          rw [ih, cStr_cons_of_ne hmore.1, cStr_cons_of_ne hmore.2, length_cons, length_cons,
            Nat.add_min_add_right, Nat.add_min_add_right]
          simp [SameAt]

/-- **`strcmp` compares the lengths.** -/
theorem strcmp_eq_zero (hs : 0 ∈ s) (ht : 0 ∈ t) :
    strcmp s t = .ok 0 ↔ (cStr s).length = (cStr t).length := by
  induction s generalizing t with
  | nil => cases hs
  | cons ch s ih =>
    cases t with
    | nil => cases ht
    | cons jch t =>
      rw [strcmp]
      split
      case isTrue hmore =>
        rw [ih (by simpa [hmore.1.symm] using hs) (by simpa [hmore.2.symm] using ht),
          cStr_cons_of_ne hmore.1, cStr_cons_of_ne hmore.2, length_cons, length_cons,
          Nat.add_right_cancel_iff]
      case isFalse hend =>
        rw [not_and_or, not_not, not_not] at hend
        rw [ok_charDiff]
        rcases hend with rfl | rfl
        · by_cases hjch : jch = 0
          · simp [hjch, cStr_cons_zero]
          · simp [cStr_cons_zero, cStr_cons_of_ne hjch, Ne.symm hjch]
        · by_cases hch : ch = 0
          · simp [hch, cStr_cons_zero]
          · simp [cStr_cons_zero, cStr_cons_of_ne hch, hch]

theorem strlen_eq (hs : 0 ∈ s) : strlen s = .ok (cStr s).length := by
  induction s with
  | nil => cases hs
  | cons ch s ih =>
    rw [strlen]
    split
    case isTrue hne =>
      rw [ih (by simpa [hne.symm] using hs), cStr_cons_of_ne hne]
      rfl
    case isFalse heq =>
      rw [not_not.mp heq, cStr_cons_zero]
      rfl

/-! ## Terminated strings -/

theorem zero_notMem_cStr : 0 ∉ cStr s := by
  intro h
  have hne := mem_takeWhile_imp (show 0 ∈ s.takeWhile (· ≠ 0) from h)
  simp at hne

/-- A terminated string has a zero where it ends. -/
theorem getElem?_eq_cStr (hs : 0 ∈ s) (hk : k ≤ (cStr s).length) :
    s[k]? = some ((cStr s)[k]?.getD 0) := by
  induction s generalizing k with
  | nil => cases hs
  | cons ch s ih =>
    by_cases hch : ch = 0
    · subst hch
      rw [cStr_cons_zero] at hk ⊢
      obtain rfl : k = 0 := Nat.le_zero.mp hk
      rfl
    · rw [cStr_cons_of_ne hch] at hk ⊢
      cases k with
      | zero => rfl
      | succ k => exact ih (by simpa [Ne.symm hch] using hs) (Nat.le_of_succ_le_succ hk)

theorem sameAt_iff (hs : 0 ∈ s) (ht : 0 ∈ t) (hk : k ≤ (cStr s).length) (hk' : k ≤ (cStr t).length) :
    SameAt s t k ↔ (cStr s)[k]? = (cStr t)[k]? := by
  have hne {s : List UInt8} {ch : UInt8} (h : (cStr s)[k]? = some ch) : ch ≠ 0 :=
    fun heq => zero_notMem_cStr (heq ▸ mem_of_getElem? h)
  rw [SameAt, getElem?_eq_cStr hs hk, getElem?_eq_cStr ht hk']
  cases hx : (cStr s)[k]? with
  | none =>
    cases hy : (cStr t)[k]? with
    | none => simp
    | some y => simp [hne hy]
  | some x =>
    cases hy : (cStr t)[k]? with
    | none => simp [(hne hx).symm]
    | some y => simp [eq_comm]

/-- Where the shorter one of two strings ends, the other one goes on. -/
theorem getElem?_min_eq_iff :
    a[min a.length b.length]? = b[min a.length b.length]? ↔ a.length = b.length := by
  rcases lt_trichotomy a.length b.length with hlt | heq | hgt
  · rw [min_eq_left (le_of_lt hlt), getElem?_eq_none le_rfl, getElem?_eq_getElem hlt]
    simp only [reduceCtorEq, false_iff]
    omega
  · rw [heq, Nat.min_self, getElem?_eq_none (le_of_eq heq), getElem?_eq_none le_rfl]
    exact iff_of_true rfl rfl
  · rw [min_eq_right (le_of_lt hgt), getElem?_eq_none le_rfl, getElem?_eq_getElem hgt]
    simp only [reduceCtorEq, false_iff]
    omega

/--
Where `strncmp` tells whether two strings agree on their first `n` characters: if they do, they agree
on the next one too; if they do not, they differ there, or in length if one of them ends before.
-/
def TellsFirst (a b : List UInt8) (n : Nat) : Prop :=
  if a.take n = b.take n then a[n]? = b[n]?
  else if n < min a.length b.length then a[n]? ≠ b[n]?
  else a.length ≠ b.length

theorem strncmp_right_iff (hs : 0 ∈ s) (ht : 0 ∈ t) :
    (strncmp s t n = .ok 0 ↔ (cStr s).take n = (cStr t).take n) ↔ TellsFirst (cStr s) (cStr t) n := by
  rw [strncmp_eq_zero, sameAt_iff hs ht (by omega) (by omega), TellsFirst]
  rcases lt_or_ge n (min (cStr s).length (cStr t).length) with hlt | hge
  · rw [Nat.min_eq_left (le_of_lt hlt), if_pos hlt]
    split
    case isTrue hsame => simp [hsame]
    case isFalse hsame => simp [hsame]
  · rw [Nat.min_eq_right hge, getElem?_min_eq_iff, if_neg (not_lt.mpr hge)]
    split
    case isTrue hsame =>
      have hlength := congrArg length hsame
      rw [length_take, length_take] at hlength
      by_cases heq : (cStr s).length = (cStr t).length
      · rw [getElem?_eq_none (by omega), getElem?_eq_none (by omega)]
        simp [heq, hsame]
      · obtain rfl : n = min (cStr s).length (cStr t).length := by omega
        rw [getElem?_min_eq_iff]
        simp [heq, hsame]
    case isFalse hsame => simp [hsame]

/-! ## Views -/

/-- The characters of a view. -/
def StringView.content (sv : StringView) : List UInt8 := sv.begin.take sv.length

/-- What `sv_equals` looks at: one character of each view, if neither is empty. -/
def Alike (sv sv2 : StringView) : Prop :=
  if sv.length = 0 then sv2.length = 0 ∨ sv2.begin[0]? = some 0
  else if sv2.length = 0 then sv.begin[0]? = some 0
  else SameAt sv.begin sv2.begin
    (min (min sv.length sv2.length) (min (cStr sv.begin).length (cStr sv2.begin).length))

theorem readChar_eq_zero : readChar s = .ok 0 ↔ s[0]? = some 0 := by
  cases s with
  | nil => simp [readChar]
  | cons ch s =>
    rw [readChar, Except.ok.injEq, getElem?_cons_zero, Option.some.injEq, ← UInt8.toNat_inj]
    exact Int.natCast_eq_zero

theorem neg_readChar_eq_zero : (do return -(← readChar s)) = .ok 0 ↔ s[0]? = some 0 := by
  rw [← readChar_eq_zero]
  cases s with
  | nil => exact Iff.rfl
  | cons ch s =>
    change (.ok (-_) : Result Int) = .ok 0 ↔ (.ok _ : Result Int) = .ok 0
    rw [Except.ok.injEq, Except.ok.injEq, Int.neg_eq_zero]

/-- **`sv_equals` looks at one character.** -/
theorem svEquals_eq_true (sv sv2 : StringView) : svEquals sv sv2 = .ok true ↔ Alike sv sv2 := by
  have hzero : svEquals sv sv2 = .ok true ↔ svCompare sv sv2 = .ok 0 := by
    rw [svEquals]
    cases svCompare sv sv2 with
    | error e => exact iff_of_false (fun h => by cases h) fun h => by cases h
    | ok d =>
      change (.ok (decide (d = 0)) : Result Bool) = .ok true ↔ _
      simp
  rw [hzero, svCompare, Alike]
  by_cases hempty : sv.length = 0
  · by_cases hempty2 : sv2.length = 0
    · simp [hempty, hempty2]
    · simp only [hempty, hempty2, Nat.not_lt_zero, Nat.pos_of_ne_zero hempty2, ↓reduceIte, false_or]
      exact neg_readChar_eq_zero
  · by_cases hempty2 : sv2.length = 0
    · simp only [hempty, hempty2, Nat.pos_of_ne_zero hempty, ↓reduceIte]
      exact readChar_eq_zero
    · simp only [hempty, hempty2, ↓reduceIte]
      rcases lt_trichotomy sv2.length sv.length with hlt | heq | hgt
      · rw [if_pos hlt, strncmp_eq_zero, min_eq_right (le_of_lt hlt)]
      · rw [if_neg (by omega), if_neg (by omega), strncmp_eq_zero, heq, Nat.min_self]
      · rw [if_neg (by omega), if_pos hgt, strncmp_eq_zero, min_eq_left (le_of_lt hgt)]

/--
Where `sv_equals` tells whether two views are equal. Equal ones must have a terminator inside or the
same character behind them; others must differ where the first of them has a terminator or ends, and
one must not start with a terminator if the other is empty.
-/
def TellsEqual (sv sv2 : StringView) : Prop :=
  if sv.length = sv2.length ∧ sv.content = sv2.content then
    sv.length = 0 ∨ 0 ∈ sv.content ∨ SameAt sv.begin sv2.begin sv.length
  else if sv.length = 0 then sv2.begin[0]? ≠ some 0
  else if sv2.length = 0 then sv.begin[0]? ≠ some 0
  else ¬ SameAt sv.begin sv2.begin
    (min (min sv.length sv2.length) (min (cStr sv.begin).length (cStr sv2.begin).length))

theorem getElem?_length_cStr (h : (cStr s).length < s.length) : s[(cStr s).length]? = some 0 := by
  induction s with
  | nil => cases h
  | cons ch s ih =>
    by_cases hch : ch = 0
    · subst hch
      rw [cStr_cons_zero]
      rfl
    · rw [cStr_cons_of_ne hch] at h ⊢
      exact ih (Nat.lt_of_succ_lt_succ h)

/-- Strings with the same first `n` characters end at the same place, if they end there. -/
theorem cStr_take (s : List UInt8) (n : Nat) : (cStr s).take n = cStr (s.take n) := by
  induction n generalizing s with
  | zero => simp [cStr]
  | succ n ih =>
    cases s with
    | nil => simp [cStr]
    | cons ch s =>
      by_cases hch : ch = 0
      · subst hch
        rw [cStr_cons_zero, take_succ_cons, cStr_cons_zero, take_nil]
      · rw [cStr_cons_of_ne hch, take_succ_cons, take_succ_cons, cStr_cons_of_ne hch, ih]

theorem svEquals_right_iff (sv sv2 : StringView) (hsv : sv.length ≤ sv.begin.length)
    (hsv2 : sv2.length ≤ sv2.begin.length) :
    (svEquals sv sv2 = .ok true ↔ sv.length = sv2.length ∧ sv.content = sv2.content) ↔
      TellsEqual sv sv2 := by
  rw [svEquals_eq_true]
  by_cases hsame : sv.length = sv2.length ∧ sv.content = sv2.content
  · rw [iff_true_right hsame, Alike, TellsEqual, if_pos hsame]
    obtain ⟨hlength, hcontent⟩ := hsame
    by_cases hempty : sv.length = 0
    · simp [hempty, ← hlength]
    · simp only [hempty, ← hlength, ↓reduceIte, Nat.min_self, false_or]
      have hstop := congrArg (fun c => (cStr c).length) hcontent
      simp only [StringView.content, ← cStr_take, ← hlength, length_take] at hstop
      rcases lt_or_ge (cStr sv.begin).length sv.length with hlt | hge
      · -- Both have their first terminator inside, and at the same place.
        have hend := getElem?_length_cStr (hlt.trans_le hsv)
        have hend2 := getElem?_length_cStr (s := sv2.begin) (by omega)
        rw [show (cStr sv2.begin).length = (cStr sv.begin).length by omega] at hend2 ⊢
        rw [Nat.min_self, Nat.min_eq_right (le_of_lt hlt)]
        refine iff_of_true ⟨0, hend, hend2⟩ (.inl ?_)
        exact mem_of_getElem? ((getElem?_take_of_lt hlt).trans hend)
      · rw [Nat.min_eq_left (by omega)]
        have hno : 0 ∉ sv.content := by
          have hself : cStr sv.content = sv.content := by
            refine IsPrefix.eq_of_length ( takeWhile_prefix _) ?_
            rw [StringView.content, ← cStr_take, length_take, length_take]
            omega
          rw [← hself]
          exact zero_notMem_cStr
        simp [hno]
  · rw [iff_false_right hsame, Alike, TellsEqual, if_neg hsame]
    by_cases hempty : sv.length = 0
    · have hempty2 : sv2.length ≠ 0 := by
        intro hempty2
        refine hsame ⟨hempty.trans hempty2.symm, ?_⟩
        rw [StringView.content, StringView.content, hempty, hempty2, take_zero, take_zero]
      rw [if_pos hempty, if_pos hempty]
      simp [hempty2]
    · rw [if_neg hempty, if_neg hempty]
      split
      · rfl
      · rfl

/-! ## Looking names up -/

theorem strncmp_returns (hs : 0 ∈ s) (ht : 0 ∈ t) : ∃ d, strncmp s t n = .ok d := by
  induction n generalizing s t with
  | zero =>
    cases s with
    | nil => cases hs
    | cons ch s =>
      cases t with
      | nil => cases ht
      | cons jch t => exact ⟨_, rfl⟩
  | succ n ih =>
    cases s with
    | nil => cases hs
    | cons ch s =>
      cases t with
      | nil => cases ht
      | cons jch t =>
        rw [strncmp]
        split
        case isTrue => exact ⟨_, rfl⟩
        case isFalse hmore =>
          rw [not_or] at hmore
          exact ih (by simpa [Ne.symm hmore.1] using hs) (by simpa [Ne.symm hmore.2] using ht)

theorem svEquals_returns (sv sv2 : StringView) (hsv : 0 ∈ sv.begin) (hsv2 : 0 ∈ sv2.begin) :
    ∃ equal, svEquals sv sv2 = .ok equal := by
  have hread : ∀ {s : List UInt8}, 0 ∈ s → ∃ d, readChar s = .ok d := by
    intro s hs
    cases s with
    | nil => cases hs
    | cons ch s => exact ⟨_, rfl⟩
  have hcompare : ∃ d, svCompare sv sv2 = .ok d := by
    rw [svCompare]
    split
    · split
      · exact hread hsv
      · exact strncmp_returns hsv hsv2
    · split
      · split
        · obtain ⟨d, hd⟩ := hread hsv2
          exact ⟨-d, by rw [hd]; rfl⟩
        · exact strncmp_returns hsv hsv2
      · split
        · exact ⟨0, rfl⟩
        · exact strncmp_returns hsv hsv2
  obtain ⟨d, hd⟩ := hcompare
  exact ⟨d = 0, by rw [svEquals, hd]; rfl⟩

theorem cStr_static (hname : 0 ∉ name) : cStr (name ++ [0]) = name := by
  induction name with
  | nil => exact cStr_cons_zero
  | cons ch name ih =>
    rw [mem_cons, not_or] at hname
    rw [cons_append, cStr_cons_of_ne (Ne.symm hname.1), ih hname.2]

theorem alike_static (hs : 0 ∈ s) (hname : 0 ∉ name) :
    Alike ⟨s, (cStr s).length⟩ (svStatic name) ↔ name.length = (cStr s).length := by
  rw [Alike, svStatic, cStr_static hname, Nat.min_self]
  dsimp only
  split
  case isTrue hempty =>
    rw [hempty]
    cases name with
    | nil => simp
    | cons ch name =>
      rw [mem_cons, not_or] at hname
      simp [Ne.symm hname.1]
  case isFalse hne =>
    split
    case isTrue hempty =>
      rw [getElem?_eq_cStr hs (Nat.zero_le _), hempty]
      refine iff_of_false ?_ (Ne.symm hne)
      rw [getElem?_eq_getElem (Nat.pos_of_ne_zero hne)]
      intro h
      exact zero_notMem_cStr ((Option.some.inj h : (cStr s)[0] = 0) ▸ getElem_mem _)
    case isFalse =>
      rw [sameAt_iff hs (by simp) (by omega) (by rw [cStr_static hname]; omega), cStr_static hname,
        getElem?_min_eq_iff, eq_comm]

theorem svEquals_static (hs : 0 ∈ s) (hname : 0 ∉ name) :
    svEquals ⟨s, (cStr s).length⟩ (svStatic name) = .ok (name.length = (cStr s).length) := by
  obtain ⟨equal, hequal⟩ := svEquals_returns ⟨s, (cStr s).length⟩ (svStatic name) hs (by simp [svStatic])
  have hiff := svEquals_eq_true ⟨s, (cStr s).length⟩ (svStatic name)
  rw [alike_static hs hname, hequal] at hiff
  rw [hequal]
  cases equal with
  | true => simpa using hiff
  | false => simpa using hiff

theorem find?_eq_bind_findIdx? {names : List (List UInt8)} {f : List UInt8 → Bool} :
    names.find? f = (names.findIdx? f).bind fun i => names[i]? := by
  induction names with
  | nil => rfl
  | cons name names ih =>
    rw [find?_cons, findIdx?_cons]
    cases hname : f name with
    | true => rfl
    | false => simp [ih, Option.bind_map]

/-- **A name is found by its length.** -/
theorem svLookup_eq {names : List (List UInt8)} (hs : 0 ∈ s) (hnames : ∀ name ∈ names, 0 ∉ name) :
    svLookup ⟨s, (cStr s).length⟩ names =
      .ok (names.findIdx? fun name => name.length = (cStr s).length) := by
  induction names with
  | nil => rfl
  | cons name names ih =>
    rw [svLookup, svEquals_static hs (hnames name mem_cons_self),
      ih fun name' hname' => hnames name' (.tail _ hname'), findIdx?_cons]
    by_cases hlen : name.length = (cStr s).length
    · simp [hlen]
    · simp [hlen]

/-! ## What the comparisons decide -/

/--
**What the comparisons decide.** `strcmp` decides whether two strings are equal exactly where strings
of the same length are equal, `strncmp` and `sv_equals` decide what they should exactly where
`TellsFirst` and `TellsEqual` say so, and looking a string up gives only the exact name exactly if the
first name of its length, should there be one, is the string.
-/
theorem comparisons_decide (s t : List UInt8) (n : Nat) (sv sv2 : StringView)
    (names : List (List UInt8)) (hs : 0 ∈ s) (ht : 0 ∈ t) (hsv : sv.length ≤ sv.begin.length)
    (hsv2 : sv2.length ≤ sv2.begin.length) (hnames : ∀ name ∈ names, 0 ∉ name) :
    ((strcmp s t = .ok 0 ↔ cStr s = cStr t) ↔
        ((cStr s).length = (cStr t).length → cStr s = cStr t)) ∧
      ((strncmp s t n = .ok 0 ↔ (cStr s).take n = (cStr t).take n) ↔
        TellsFirst (cStr s) (cStr t) n) ∧
      ((svEquals sv sv2 = .ok true ↔ sv.length = sv2.length ∧ sv.content = sv2.content) ↔
        TellsEqual sv sv2) ∧
      ((∀ i, (do svLookup (← svCreate s) names) = .ok (some i) → names[i]? = some (cStr s)) ↔
        ∀ name, (names.find? fun name => name.length = (cStr s).length) = some name →
          name = cStr s) := by
  refine ⟨?_, strncmp_right_iff hs ht, svEquals_right_iff sv sv2 hsv hsv2, ?_⟩
  · rw [strcmp_eq_zero hs ht]
    exact ⟨fun h => h.mp, fun h => ⟨h, fun heq => by rw [heq]⟩⟩
  · have hlookup : (do svLookup (← svCreate s) names) =
        .ok (names.findIdx? fun name => name.length = (cStr s).length) := by
      rw [svCreate, strlen_eq hs, ← svLookup_eq hs hnames]
      rfl
    rw [hlookup]
    simp only [Except.ok.injEq, find?_eq_bind_findIdx?]
    constructor
    · intro h name hfound
      obtain ⟨i, hi, hname⟩ := Option.bind_eq_some_iff.mp hfound
      exact Option.some.inj (hname.symm.trans (h i hi))
    · intro h i hi
      obtain ⟨hlt, -⟩ := findIdx?_eq_some_iff_getElem.mp hi
      rw [getElem?_eq_getElem hlt, h names[i] (Option.bind_eq_some_iff.mpr
        ⟨i, hi, getElem?_eq_getElem hlt⟩)]

/-- Strings that are told apart, equal views, and a name that no earlier name has the length of. -/
theorem comparisons_decide_june :
    strncmp (literal "june".toList ++ [0]) (literal "may".toList ++ [0]) 1 ≠ .ok 0 ∧
      svEquals (svStatic (literal "may".toList)) (svStatic (literal "may".toList)) = .ok true ∧
      ∀ i, (svCreate (literal "june".toList ++ [0]) >>= fun sv =>
          svLookup sv [literal "may".toList, literal "june".toList]) = .ok (some i) →
        [literal "may".toList, literal "june".toList][i]? = some (literal "june".toList) := by
  obtain ⟨-, hfirst, hviews, hlookup⟩ := comparisons_decide (literal "june".toList ++ [0])
    (literal "may".toList ++ [0]) 1 (svStatic (literal "may".toList)) (svStatic (literal "may".toList))
    [literal "may".toList, literal "june".toList] (by decide) (by decide) (by decide) (by decide)
    (by decide)
  refine ⟨?_, ?_, hlookup.mpr ?_⟩
  · intro hzero
    exact absurd ((hfirst.mpr (by unfold TellsFirst; decide)).mp hzero) (by decide)
  · refine (hviews.mpr ?_).mpr ⟨rfl, rfl⟩
    rw [TellsEqual, if_pos ⟨rfl, rfl⟩]
    exact .inr (.inr ⟨0, rfl, rfl⟩)
  · intro name hname
    exact (Option.some.inj hname).symm

/--
Two strings of three letters are equal, strings that agree in their first letter are not equal in
their first letter, Monday is Sunday, and July is June.
-/
theorem comparisons_wrong :
    strcmp (literal ['a', 'b', 'c'] ++ [0]) (literal ['x', 'y', 'z'] ++ [0]) = .ok 0 ∧
      strncmp (literal ['a', 'b'] ++ [0]) (literal ['a', 'c'] ++ [0]) 1 = .ok (-1) ∧
      svEquals (svStatic (literal "Monday".toList)) (svStatic (literal "Sunday".toList)) = .ok true ∧
      svToWeekday (svStatic (literal "Monday".toList)) = .ok (some 0) ∧
      svToMonth (svStatic (literal "July".toList)) = .ok (some 6) := by
  decide

end OsKernel.Lib
