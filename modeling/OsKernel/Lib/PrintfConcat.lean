import OsKernel.Lib.PrintfText

/-!
# Formats one after the other

A format that is made of text and complete specifications can be put in front of any other
format: the engine writes what the first one says with its arguments, then what the second
one says with its own. Nothing is carried over but the text before the next percent sign and
the place in the argument list.

Two things break this. A width or a precision that is no `int` ends the call, and the rest of
the format is lost. And `parse_length` takes an argument for every length, also for one before
`c`, `s`, `p` and `%`; those then take theirs from the arguments of whatever follows.
-/

namespace OsKernel.Lib

open Effect List Option VaList

/-! ## Complete specifications -/

/-- A flag character. -/
inductive Flag where
  | space
  | minus
  | plus
  | hash
  | zero

def Flag.char : Flag → Char
  | .space => ' '
  | .minus => '-'
  | .plus => '+'
  | .hash => '#'
  | .zero => '0'

/-- What a flag sets. -/
def Flag.set (info : PrintfSpecInfo) : Flag → PrintfSpecInfo
  | .space => { info with addOneSpaceForSign := true }
  | .minus => { info with leftJustify := true }
  | .plus => { info with addPosSign := true }
  | .hash => { info with addBasePrefix := true }
  | .zero => { info with leftpadZeros := true }

def digitChar (d : Fin 10) : Char := Char.ofNat ('0'.toNat + d)

/-- A width or a precision: digits, of which there may be none, or an argument. -/
inductive Amount where
  | digits (ds : List (Fin 10))
  | star

def Amount.text : Amount → List Char
  | .digits ds => ds.map digitChar
  | .star => ['*']

/-- The number that digits stand for. -/
def digitsValue (ds : List (Fin 10)) : Nat := numeralValue 10 0 (ds.map Fin.val)

/-- The number that is written, if one is, is an `int`. -/
def Amount.Fits : Amount → Prop
  | .digits ds => digitsValue ds < 2 ^ 31
  | .star => True

/-- The arguments that a width or a precision takes. -/
def Amount.args : Amount → Nat
  | .digits _ => 0
  | .star => 1

/-- A length. -/
inductive LengthMod where
  | none
  | hh
  | h
  | l
  | ll
  | j
  | z
  | t
  deriving DecidableEq

def LengthMod.text : LengthMod → List Char
  | .none => []
  | .hh => ['h', 'h']
  | .h => ['h']
  | .l => ['l']
  | .ll => ['l', 'l']
  | .j => ['j']
  | .z => ['z']
  | .t => ['t']

/-- A specifier other than `n`. -/
inductive Specifier where
  | b
  | B
  | d
  | i
  | u
  | o
  | x
  | X
  | c
  | s
  | p
  | percent
  deriving DecidableEq

def Specifier.char : Specifier → Char
  | .b => 'b'
  | .B => 'B'
  | .d => 'd'
  | .i => 'i'
  | .u => 'u'
  | .o => 'o'
  | .x => 'x'
  | .X => 'X'
  | .c => 'c'
  | .s => 's'
  | .p => 'p'
  | .percent => '%'

/-- `%[flags][width][.precision][length]specifier`. -/
structure FormatSpec where
  flags : List Flag
  width : Amount
  precision : Option Amount
  length : LengthMod
  specifier : Specifier
  /-- A zero in front of the width is a flag. -/
  width_zero : ∀ ds, width ≠ .digits (0 :: ds)

namespace FormatSpec

/-- The precision with its point. -/
def precisionText (spec : FormatSpec) : List Char :=
  match spec.precision with
  | none => []
  | some amount => '.' :: amount.text

/-- The specification behind the percent sign, up to the length. -/
def front (spec : FormatSpec) : List Char :=
  spec.flags.map Flag.char ++ (spec.width.text ++ spec.precisionText)

def body (spec : FormatSpec) : List Char := spec.front ++ (spec.length.text ++ [spec.specifier.char])

def render (spec : FormatSpec) : List Char := '%' :: spec.body

def precisionArgs (spec : FormatSpec) : Nat := (spec.precision.map Amount.args).getD 0

/-- The arguments for the stars. -/
def starArgs (spec : FormatSpec) : Nat := spec.width.args + spec.precisionArgs

/-- The arguments that a caller passes: one for each star, and one to convert. -/
def args (spec : FormatSpec) : Nat := spec.starArgs + if spec.specifier = .percent then 0 else 1

/-- Width and precision are numbers that the engine can read. -/
def Fits (spec : FormatSpec) : Prop := spec.width.Fits ∧ ∀ amount ∈ spec.precision, amount.Fits

/-- A length stands before an integer conversion only. -/
def LengthApplies (spec : FormatSpec) : Prop :=
  spec.length = .none ∨ isIntSpecifier spec.specifier.char = true

end FormatSpec

/-- A piece of a format. -/
inductive Piece where
  /-- Text without a percent sign. -/
  | text (s : List Char) (plain : '%' ∉ s)
  | spec (spec : FormatSpec)

def Piece.render : Piece → List Char
  | .text s _ => s
  | .spec s => s.render

/-- The specifications of a format. -/
def specs (f : List Piece) : List FormatSpec :=
  f.filterMap fun
    | .text _ _ => none
    | .spec spec => some spec

/-- The format as a string. -/
def render (f : List Piece) : List Char := f.flatMap Piece.render

/-- The arguments that a caller passes for a format. -/
def args (f : List Piece) : Nat := ((specs f).map FormatSpec.args).sum

/-- A list of arguments, and what lies behind them. -/
def vaList (a : List VaArg) (behind : Nat → VaArg) : VaList :=
  ⟨fun i => (a[i]?).getD (behind (i - a.length)), 0⟩

/--
**A format can be put in front of any other**: with the arguments of the one before those of the
other, the texts are written one after the other. What the first one writes does not depend on what
lies behind its arguments, and the count is that of all characters.
-/
def Splits (f : List Piece) : Prop :=
  ∀ (g : List Char) (a : List VaArg) (b : Nat → VaArg), a.length = args f →
    ∃ textF textG, (∀ behind, Prints (render f) (vaList a behind) textF) ∧
      Prints g (vaList [] b) textG ∧ Prints (render f ++ g) (vaList a b) (textF ++ textG)

/-! ## Reading a complete specification -/

theorem parseFlags_render (info : PrintfSpecInfo) (flags : List Flag) {c : Char} (rest : List Char)
    (hc : c ∉ [' ', '-', '+', '#', '0']) :
    parseFlags info (flags.map Flag.char ++ c :: rest) = some (flags.foldl Flag.set info, c :: rest) := by
  induction flags generalizing info with
  | nil =>
    have hnone : setFlag info c = none := by
      unfold setFlag
      split <;> first | rfl | simp at hc
    simp [parseFlags, hnone]
  | cons flag flags ih =>
    rw [map_cons, cons_append, parseFlags,
      show setFlag info flag.char = some (flag.set info) by cases flag <;> rfl]
    exact (if_neg (by simp)).trans (ih _)

/-- A character that ends a number. -/
def EndsNumber (c : Char) : Prop := 10 ≤ (c.toNat + 256 - '0'.toNat) % 256

theorem digitChar_value (d : Fin 10) : ((digitChar d).toNat + 256 - '0'.toNat) % 256 = d := by
  revert d
  decide

theorem readIntFromFmtString_digits {v : Nat} {ds : List (Fin 10)} {c : Char} (rest : List Char)
    (hc : EndsNumber c) (hfits : numeralValue 10 v (ds.map Fin.val) < 2 ^ 31) :
    readIntFromFmtString v (ds.map digitChar ++ c :: rest) =
      ((numeralValue 10 v (ds.map Fin.val) : Int), some (c :: rest)) := by
  induction ds generalizing v with
  | nil => exact if_pos hc
  | cons d ds ih =>
    have hstep : v * 10 + d < 2 ^ 31 := lt_of_le_of_lt (le_numeralValue (by decide)) hfits
    rw [map_cons, cons_append, readIntFromFmtString]
    simp only [digitChar_value]
    rw [if_neg (by omega), if_neg (by omega), ih hfits]
    rfl

/-- A number that is no `int` is an error, wherever it stops being one. -/
theorem readIntFromFmtString_overflow {v : Nat} {ds : List (Fin 10)} {c : Char} (rest : List Char)
    (hv : v < 2 ^ 31) (hover : 2 ^ 31 ≤ numeralValue 10 v (ds.map Fin.val)) :
    (readIntFromFmtString v (ds.map digitChar ++ c :: rest)).1 = -1 := by
  induction ds generalizing v with
  | nil => exact absurd hv (not_lt.mpr hover)
  | cons d ds ih =>
    rw [map_cons, cons_append, readIntFromFmtString]
    simp only [digitChar_value]
    rw [if_neg (by omega)]
    split
    · rfl
    · exact ih (by omega) hover

/-- The number that a width or a precision stands for. -/
def Amount.value (list : VaList) : Amount → Int
  | .digits ds => digitsValue ds
  | .star => toSigned 32 list.pop.1.word

section Amounts

variable (info : PrintfSpecInfo) (list : VaList) {c : Char} (rest : List Char)

theorem digits_head (ds : List (Fin 10)) (hc : c ≠ '*') : charAt (ds.map digitChar ++ c :: rest) ≠ '*' := by
  cases ds with
  | nil => exact hc
  | cons d ds =>
    have hdigit : ∀ d : Fin 10, digitChar d ≠ '*' := by decide
    exact hdigit d

theorem parseWidth_overflow {amount : Amount} (hstar : c ≠ '*') (hover : ¬ amount.Fits) :
    parseWidth info list (amount.text ++ c :: rest) = none := by
  cases amount with
  | digits ds =>
    have hread := @readIntFromFmtString_overflow 0 ds c rest (by decide) (not_lt.mp hover)
    rw [parseWidth, Amount.text, if_pos (digits_head rest ds hstar)]
    simp only [hread, ↓reduceIte]
  | star => exact absurd trivial hover

theorem parsePrecision_number {iter : List Char} (hiter : iter ≠ []) (hstar : charAt iter ≠ '*') :
    parsePrecision info list ('.' :: iter) =
      (let (precision, out) := readIntFromFmtString 0 iter
       let iter := out.getD iter
       if precision = -1 then none
       else if iter = [] then none
       else some ({ info with precision := precision }, list, iter)) := by
  rw [parsePrecision, if_neg (by simp [charAt])]
  cases iter with
  | nil => exact absurd rfl hiter
  | cons c iter =>
    split
    · rename_i heq
      cases heq
    · rename_i heq
      cases heq
      exact absurd rfl hstar
    · rfl

theorem parsePrecision_overflow {amount : Amount} (hstar : c ≠ '*') (hover : ¬ amount.Fits) :
    parsePrecision info list ('.' :: (amount.text ++ c :: rest)) = none := by
  cases amount with
  | digits ds =>
    have hread := @readIntFromFmtString_overflow 0 ds c rest (by decide) (not_lt.mp hover)
    rw [Amount.text, parsePrecision_number info list (by simp) (digits_head rest ds hstar)]
    simp only [hread, ↓reduceIte]
  | star => exact absurd trivial hover

end Amounts

/-- The arguments that `parse_length` takes. -/
def LengthMod.args : LengthMod → Nat
  | .none => 0
  | _ => 1

/-- A length is read in the same way whatever comes behind the specifier. -/
theorem parseLength_render (info : PrintfSpecInfo) (list : VaList) (length : LengthMod)
    (specifier : Specifier) {u : List Char} (hu : u ≠ []) :
    ∃ parsed : ParsedLength, parsed.list = list.skip length.args ∧
      (parsed.currSpec.lengthSv.length = 0 ↔ length = .none) ∧
      ∀ rest, parseLength (u ++ (length.text ++ specifier.char :: rest)) info
        (length.text ++ specifier.char :: rest) list =
          some { parsed with iter := specifier.char :: rest } := by
  -- the view of a length; that of a doubled letter starts one too early
  let view (c : Char) (n : Nat) : List Char := ((u ++ [c]).drop ((u ++ [c]).length - n)).take n
  have hview : ∀ (c : Char) (rest : List Char) (n : Nat), n ≤ 2 →
      svBefore (u ++ (c :: rest)) rest n n = view c n := by
    intro c rest n hn
    have hpos := length_pos_iff.mpr hu
    have hlen : n ≤ (u ++ [c]).length := by
      rw [length_append, length_singleton]
      omega
    rw [show u ++ c :: rest = u ++ [c] ++ rest by simp, svBefore, length_append, Nat.add_sub_cancel,
      drop_append_of_le_length (by omega),
      take_append_of_le_length (by rw [length_drop]; omega)]
  by_cases hnone : length = .none
  · subst hnone
    exact ⟨⟨{ info with lengthSv := [] }, [], list, 0, false⟩, rfl, by simp,
      fun rest => by cases specifier <;> rfl⟩
  · obtain ⟨sv, convert, hsv, hparse⟩ : ∃ (sv : List Char) (convert : Nat → Nat), sv.length ≠ 0 ∧
        ∀ rest, parseLength (u ++ (length.text ++ specifier.char :: rest)) info
          (length.text ++ specifier.char :: rest) list =
            some (.take info sv (specifier.char :: rest) list convert) := by
      cases length with
      | none => exact absurd rfl hnone
      | hh =>
        refine ⟨view 'h' 2, signExtend 8, by simp [view]; omega, fun rest => ?_⟩
        rw [← hview 'h' ('h' :: specifier.char :: rest) 2 le_rfl]
        rfl
      | h =>
        refine ⟨view 'h' 1, signExtend 16, by simp [view], fun rest => ?_⟩
        rw [← hview 'h' (specifier.char :: rest) 1 (by decide)]
        cases specifier <;> rfl
      | l =>
        refine ⟨view 'l' 1, (· % 2 ^ 64), by simp [view], fun rest => ?_⟩
        rw [← hview 'l' (specifier.char :: rest) 1 (by decide)]
        cases specifier <;> rfl
      | ll =>
        refine ⟨view 'l' 2, (· % 2 ^ 64), by simp [view]; omega, fun rest => ?_⟩
        rw [← hview 'l' ('l' :: specifier.char :: rest) 2 le_rfl]
        rfl
      | j => exact ⟨['j'], (· % 2 ^ 64), nofun, fun _ => rfl⟩
      | z => exact ⟨['z'], (· % 2 ^ 64), nofun, fun _ => rfl⟩
      | t => exact ⟨['t'], (· % 2 ^ 64), nofun, fun _ => rfl⟩
    refine ⟨.take info sv [] list convert, ?_, iff_of_false hsv hnone, hparse⟩
    cases length <;> first | rfl | exact absurd rfl hnone

/-! ## The turn of a complete specification -/

/-- A character that is no flag, digit, star or point. -/
def IsLetter (c : Char) : Prop :=
  c ∈ ['h', 'l', 'j', 'z', 't', 'b', 'B', 'd', 'i', 'u', 'o', 'x', 'X', 'c', 's', 'p', '%']

/-- A character that ends the width. -/
structure EndsWidth (c : Char) : Prop where
  number : EndsNumber c
  star : c ≠ '*'
  flag : c ∉ [' ', '-', '+', '#', '0']

theorem IsLetter.endsWidth {c : Char} (h : IsLetter c) : EndsWidth c ∧ c ≠ '.' := by
  unfold IsLetter at h
  simp only [mem_cons, not_mem_nil, or_false] at h
  rcases h with rfl | rfl | rfl | rfl | rfl | rfl | rfl | rfl | rfl | rfl | rfl | rfl | rfl | rfl | rfl |
    rfl | rfl
  all_goals exact ⟨⟨by unfold EndsNumber; decide, by decide, by decide⟩, by decide⟩

namespace FormatSpec

variable (spec : FormatSpec) (rest : List Char)

/-- The specification from the length on. -/
def back : List Char := spec.length.text ++ spec.specifier.char :: rest

theorem back_cons : ∃ c r, spec.back rest = c :: r ∧ IsLetter c := by
  have hspecifier : IsLetter spec.specifier.char := by
    unfold IsLetter
    cases spec.specifier <;> decide
  unfold back
  cases spec.length with
  | none => exact ⟨_, _, rfl, hspecifier⟩
  | _ => exact ⟨_, _, rfl, by unfold IsLetter; decide⟩

theorem precision_cons : ∃ c r, spec.precisionText ++ spec.back rest = c :: r ∧ EndsWidth c := by
  unfold precisionText
  cases spec.precision with
  | none =>
    obtain ⟨c, r, hback, hletter⟩ := spec.back_cons rest
    exact ⟨c, r, hback, hletter.endsWidth.1⟩
  | some amount => exact ⟨_, _, rfl, by unfold EndsNumber; decide, by decide, by decide⟩

theorem width_cons : ∃ c r, spec.width.text ++ (spec.precisionText ++ spec.back rest) = c :: r ∧
    c ∉ [' ', '-', '+', '#', '0'] := by
  have hdigit : ∀ d : Fin 10, d ≠ 0 → digitChar d ∉ [' ', '-', '+', '#', '0'] := by decide
  cases hwidth : spec.width with
  | digits ds =>
    cases ds with
    | nil =>
      obtain ⟨c, r, hcons, hc⟩ := spec.precision_cons rest
      exact ⟨c, r, hcons, hc.flag⟩
    | cons d ds => exact ⟨_, _, rfl, hdigit d fun hd => spec.width_zero ds (hd ▸ hwidth)⟩
  | star => exact ⟨_, _, rfl, by decide⟩

/-- What the flags, the width and the precision set. -/
def info (list : VaList) : PrintfSpecInfo :=
  { spec.flags.foldl Flag.set {} with
    width := (spec.width.value list).toNat
    precision := (spec.precision.map (Amount.value (list.skip spec.width.args))).getD (-1) }

theorem parsePrecision_eq (info : PrintfSpecInfo) (list : VaList)
    (hfits : ∀ amount ∈ spec.precision, amount.Fits) :
    parsePrecision info list (spec.precisionText ++ spec.back rest) =
      some ({ info with precision := (spec.precision.map (Amount.value list)).getD (-1) },
        list.skip spec.precisionArgs, spec.back rest) := by
  obtain ⟨c, r, hback, hletter⟩ := spec.back_cons rest
  obtain ⟨hends, hpoint⟩ := hletter.endsWidth
  unfold precisionText precisionArgs
  cases hprecision : spec.precision with
  | none => exact if_pos (by rw [hback]; exact hpoint)
  | some amount =>
    have hfits := hfits amount hprecision
    rw [hback]
    cases amount with
    | digits ds =>
      exact (parsePrecision_number info list (by simp) (digits_head r ds hends.star)).trans
        (by rw [readIntFromFmtString_digits r hends.number hfits]; rfl)
    | star => rfl

theorem parseFlags_eq : parseFlags {} (spec.body ++ rest) =
    some (spec.flags.foldl Flag.set {}, spec.width.text ++ (spec.precisionText ++ spec.back rest)) := by
  obtain ⟨c, r, hcons, hflag⟩ := spec.width_cons rest
  rw [show spec.body ++ rest = spec.flags.map Flag.char ++ c :: r by simp [← hcons, body, front, back],
    hcons]
  exact parseFlags_render {} spec.flags r hflag

theorem parseWidth_eq (info : PrintfSpecInfo) (list : VaList) (hfits : spec.width.Fits) :
    parseWidth info list (spec.width.text ++ (spec.precisionText ++ spec.back rest)) =
      some ({ info with width := (spec.width.value list).toNat }, list.skip spec.width.args,
        spec.precisionText ++ spec.back rest) := by
  obtain ⟨c, r, hcons, hends⟩ := spec.precision_cons rest
  rw [hcons]
  generalize spec.width = amount at hfits ⊢
  cases amount with
  | digits ds =>
    rw [parseWidth, Amount.text, if_pos (digits_head r ds hends.star),
      readIntFromFmtString_digits r hends.number hfits]
    rfl
  | star => rfl

theorem parseSpec_overflow (fmt : List Char) (list : VaList) (hover : ¬ spec.Fits) :
    parseSpec fmt {} list (spec.body ++ rest) = none := by
  rw [parseSpec, parseFlags_eq]
  by_cases hwidth : spec.width.Fits
  · have hread := spec.parseWidth_eq rest (spec.flags.foldl Flag.set {}) list hwidth
    have hprecision : ¬ ∀ amount ∈ spec.precision, amount.Fits := fun h => hover ⟨hwidth, h⟩
    push Not at hprecision
    obtain ⟨amount, hsome, hamount⟩ := hprecision
    obtain ⟨c, r, hback, hletter⟩ := spec.back_cons rest
    have hnone : ∀ info list', parsePrecision info list' (spec.precisionText ++ spec.back rest) = none := by
      intro info list'
      rw [precisionText, mem_def.mp hsome, hback]
      exact parsePrecision_overflow info list' r hletter.endsWidth.1.star hamount
    simp only [bind_eq_bind, bind_some, hread, hnone, bind_none]
  · obtain ⟨c, r, hcons, hends⟩ := spec.precision_cons rest
    simp only [bind_eq_bind, bind_some, hcons, bind_none,
      parseWidth_overflow _ list r hends.star hwidth]

end FormatSpec

/-- The arguments that `handle_spec` takes. -/
def Specifier.takes (noLength : Bool) : Specifier → Nat
  | .c => 1
  | .s => 1
  | .p => 1
  | .percent => 0
  | _ => if noLength then 1 else 0

theorem handleSpec_takes {info : PrintfSpecInfo} {specifier : Specifier} {buffer : CharBuffer}
    {number writtenOut : Nat} {isZero : Bool} {list : VaList} {handled : HandledSpec}
    (hspec : info.spec = specifier.char)
    (h : handleSpec info buffer number list writtenOut isZero = .ok handled) :
    handled.result = .ok ∧ handled.list = list.skip (specifier.takes (info.lengthSv.length = 0)) := by
  have hint : ∀ {convert print}, handleInt info buffer number isZero list convert print = .ok handled →
      handled.result = .ok ∧
        handled.list = list.skip (if decide (info.lengthSv.length = 0) then 1 else 0) := by
    intro convert print hhandle
    unfold handleInt at hhandle
    simp only [decide_eq_true_eq]
    split_ifs at hhandle ⊢ <;>
    · obtain ⟨_, -, hhandle⟩ := bind_eq_ok.mp hhandle
      cases hhandle
      exact ⟨rfl, rfl⟩
  cases specifier <;> simp only [handleSpec, hspec, Specifier.char] at h
  case c | percent =>
    obtain ⟨_, -, h⟩ := bind_eq_ok.mp h
    cases h
    exact ⟨rfl, rfl⟩
  case s =>
    split at h <;> cases h <;> exact ⟨rfl, rfl⟩
  case p =>
    split at h
    · obtain ⟨_, -, h⟩ := bind_eq_ok.mp h
      cases h
      exact ⟨rfl, rfl⟩
    · cases h
      exact ⟨rfl, rfl⟩
  all_goals exact hint h

/-- The arguments that the engine takes for a specification. -/
def FormatSpec.taken (spec : FormatSpec) : Nat :=
  spec.starArgs + spec.length.args + spec.specifier.takes (spec.length = .none)

/-! ## Formats around a specification -/

section Around

variable {f g start iter text : List Char} {list : VaList}

theorem svBefore_behind {back length : Nat} (h : iter.length + back ≤ g.length) :
    svBefore (f ++ g) iter back length = svBefore g iter back length := by
  rw [svBefore, svBefore, length_append,
    show f.length + g.length - iter.length - back = f.length + (g.length - iter.length - back) by omega,
    drop_length_add_append]

theorem parseLength_behind (info : PrintfSpecInfo) (h : iter.length < g.length) :
    parseLength (f ++ g) info iter list = parseLength g info iter list := by
  unfold parseLength
  split <;> first
    | rfl
    | rw [svBefore_behind (by grind)]

/-- The format in front of a specification does not matter. -/
theorem parseSpec_behind (h : iter.length < g.length) :
    parseSpec (f ++ g) {} list iter = parseSpec g {} list iter := by
  unfold parseSpec
  cases hflags : parseFlags {} iter with
  | none => rfl
  | some flags =>
    obtain ⟨info, iter₁⟩ := flags
    have hlen := (parseFlags_suffix hflags).length_le
    obtain ⟨k₁, r₁, hgood₁, hread₁⟩ := parseWidth_reads info list iter₁
    have hread₁ := hread₁ list (.refl k₁ list)
    simp only [bind_eq_bind, bind_some, hread₁]
    cases r₁ with
    | none => rfl
    | some width =>
      have hlen₁ := (hgood₁ width rfl).length_le
      obtain ⟨k₂, r₂, hgood₂, hread₂⟩ := parsePrecision_reads width.1 (list.skip k₁) width.2
      have hread₂ := hread₂ (list.skip k₁) (.refl k₂ _)
      simp only [map_some, bind_some, withList, hread₂]
      cases r₂ with
      | none => rfl
      | some precision =>
        have hlen₂ := (hgood₂ precision rfl).length_le
        exact parseLength_behind precision.1 (show precision.2.length < g.length by omega)

theorem turn_behind (h : iter.tail.length < g.length) : turn (f ++ g) iter list = turn g iter list := by
  rw [turn, turn, parseSpec_behind h]

/-- **What is written for the rest of a format** does not depend on what stood before it. -/
theorem Emits.behind (f : List Char) (h : Emits g start iter list text) (hlen : iter.length ≤ g.length) :
    Emits (f ++ g) start iter list text := by
  induction h with
  | last hnone => exact .last hnone
  | @stop start iter iter' list hsome hturn =>
    obtain ⟨rest, rfl, hsuffix⟩ := strchr_eq_some hsome
    have hle := hsuffix.length_le
    rw [length_cons] at hle
    exact .stop hsome ((turn_behind (by rw [tail_cons]; omega)).trans hturn)
  | @go start iter iter' list text start' next list' rest hsome hturn hrest ih =>
    obtain ⟨htail, hshorter⟩ := turn_shorter hsome hturn
    exact .go hsome ((turn_behind (by omega)).trans hturn) (ih (by omega))

theorem Emits.pend (pending : List Char) (h : Emits g start iter list text)
    (hlen : iter.length ≤ start.length) : Emits g (pending ++ start) iter list (pending ++ text) := by
  have hcut : ∀ iter', iter' <:+ iter →
      svCreateEnd (pending ++ start) iter' = pending ++ svCreateEnd start iter' := by
    intro iter' hsuffix
    have hle := hsuffix.length_le
    rw [svCreateEnd, svCreateEnd, length_append,
      show pending.length + start.length - iter'.length = pending.length + (start.length - iter'.length)
        by omega, take_length_add_append]
  cases h with
  | last hnone => exact .last hnone
  | stop hsome hturn =>
    obtain ⟨-, -, hsuffix⟩ := strchr_eq_some hsome
    rw [← hcut _ hsuffix]
    exact .stop hsome hturn
  | go hsome hturn hrest =>
    obtain ⟨-, -, hsuffix⟩ := strchr_eq_some hsome
    rw [← append_assoc, ← hcut _ hsuffix]
    exact .go hsome hturn hrest

theorem Emits.skip {s : List Char} (hplain : '%' ∉ s) (h : Emits g start iter list text) :
    Emits g start (s ++ iter) list text := by
  have hfind : strchr (s ++ iter) '%' = strchr iter '%' := by
    induction s with
    | nil => rfl
    | cons c s ih =>
      rw [mem_cons, not_or] at hplain
      rw [cons_append, strchr, if_neg (Ne.symm hplain.1)]
      exact ih hplain.2
  cases h with
  | last hnone => exact .last (hfind.trans hnone)
  | stop hsome hturn => exact .stop (hfind.trans hsome) hturn
  | go hsome hturn hrest => exact .go (hfind.trans hsome) hturn hrest

/-- **A text depends on the arguments it is made from**, not on where in the list they are. -/
theorem Emits.agree (h : Emits g start iter list text) :
    ∃ k, ∀ list', VaList.Agree k list list' → Emits g start iter list' text := by
  induction h with
  | last hnone => exact ⟨0, fun _ _ => .last hnone⟩
  | @stop start iter iter' list hsome hturn =>
    obtain ⟨k, hlocal⟩ := turn_local g iter' list
    rw [hturn] at hlocal
    exact ⟨k, fun list' hagree => .stop hsome (hlocal list' hagree)⟩
  | @go start iter iter' list text start' next list₁ rest hsome hturn hrest ih =>
    obtain ⟨k, hlocal⟩ := turn_local g iter' list
    rw [hturn] at hlocal
    obtain ⟨k', ih⟩ := ih
    have hlist : list₁ = list.skip k := by
      have hself := hlocal list (.refl k list)
      rw [hturn] at hself
      injection hself
    refine ⟨k + k', fun list' hagree => ?_⟩
    exact .go hsome (hlocal list' (hagree.mono (Nat.le_add_right k k')))
      (ih _ (hlist ▸ hagree.skip))

end Around

/-! ## Formats of pieces -/

namespace FormatSpec

variable (spec : FormatSpec)

/-- A complete specification is read in the same way whatever comes behind it. -/
theorem parseSpec_render (hfits : spec.Fits) (list : VaList) :
    ∃ parsed : ParsedLength, parsed.list = list.skip (spec.starArgs + spec.length.args) ∧
      (parsed.currSpec.lengthSv.length = 0 ↔ spec.length = .none) ∧
      ∀ rest, parseSpec (spec.render ++ rest) {} list (spec.render ++ rest).tail =
        some { parsed with iter := spec.specifier.char :: rest } := by
  obtain ⟨parsed, hlist, hlength, hparse⟩ := parseLength_render (spec.info list) (list.skip spec.starArgs)
    spec.length spec.specifier (cons_ne_nil '%' spec.front)
  rw [skip_skip] at hlist
  refine ⟨parsed, hlist, hlength, fun rest => ?_⟩
  rw [show (spec.render ++ rest).tail = spec.body ++ rest from rfl, parseSpec, parseFlags_eq]
  simp only [bind_eq_bind, bind_some, spec.parseWidth_eq rest _ _ hfits.1,
    spec.parsePrecision_eq rest _ _ hfits.2, skip_skip]
  rw [← hparse rest]
  simp [render, body, back, info, starArgs]

/-- **A complete specification writes a text of its own** and hands on the rest of the format. -/
theorem turn_render (hfits : spec.Fits) (list : VaList) :
    ∃ text, ∀ rest, turn (spec.render ++ rest) (spec.render ++ rest) list =
      .go text rest rest (list.skip spec.taken) := by
  obtain ⟨parsed, hlist, hlength, hparse⟩ := spec.parseSpec_render hfits list
  rcases turn_cases (spec.render ++ []) (spec.render ++ []) list with
    ⟨k, hnone⟩ | ⟨j, k, parsed', outcome, -, hread⟩
  · have hnone := hnone list (.refl k list)
    rw [hparse []] at hnone
    cases hnone
  · obtain ⟨hsome, hsettled⟩ := hread list (.refl _ list)
    rw [hparse []] at hsome
    rw [← some.inj hsome] at hsettled
    -- the specifier is in the format, so the rest of it does not matter to `handle_spec`
    have hsettled : ∀ rest, ({ parsed with iter := spec.specifier.char :: rest } : ParsedLength).SettlesTo
        k outcome := fun _ => hsettled
    obtain ⟨buffer', count, -, hhandled⟩ :=
      hsettled [] ⟨MAX_CONVERT_CAP + 3, fun _ => '\x00'⟩ 0 (Nat.le_add_right _ 3)
    let info := { parsed.currSpec with spec := spec.specifier.char }
    obtain ⟨hresult, hskip⟩ := @handleSpec_takes info spec.specifier _ _ _ _ _ _ rfl hhandled
    have hresult : outcome.result = .ok := hresult
    have hskip : parsed.list.skip k = list.skip spec.taken := by
      have htakes : decide (parsed.currSpec.lengthSv.length = 0) = decide (spec.length = .none) :=
        decide_eq_decide.mpr hlength
      have hskip : parsed.list.skip k = parsed.list.skip (spec.specifier.takes
        (parsed.currSpec.lengthSv.length = 0)) := hskip
      rw [hskip, htakes, hlist, skip_skip]
      rfl
    refine ⟨specText info (padding info outcome.parsed outcome.isZero) outcome.parsed outcome.isNull,
      fun rest => ?_⟩
    rw [turn, hparse rest]
    refine (hsettled rest).handle_eq.trans ?_
    rw [ParsedLength.turn, hresult, ← hskip]
    rfl

/-- The same text is written wherever the specification stands and its arguments are found. -/
theorem turn_go (hfits : spec.Fits) (list : VaList) :
    ∃ text, ∀ list', VaList.Agree spec.taken list list' → ∀ before rest,
      turn (before ++ (spec.render ++ rest)) (spec.render ++ rest) list' =
        .go text rest rest (list'.skip spec.taken) := by
  obtain ⟨text, hturn⟩ := spec.turn_render hfits list
  refine ⟨text, fun list' hagree before rest => ?_⟩
  rw [turn_behind (by simp [render])]
  obtain ⟨k, hlocal⟩ := turn_local (spec.render ++ rest) (spec.render ++ rest) list
  rw [hturn rest] at hlocal
  have hk : list.skip spec.taken = list.skip k := by
    have hself := hlocal list (.refl k list)
    rw [hturn rest] at hself
    injection hself
  have hk : spec.taken = k := by
    injection hk with _ hnext
    omega
  exact hk ▸ hlocal list' (hk ▸ hagree)

end FormatSpec

/-- The arguments that the engine takes for a format. -/
def taken (f : List Piece) : Nat := ((specs f).map FormatSpec.taken).sum

section Pieces

variable {f : List Piece} {spec : FormatSpec} {s : List Char} {plain : '%' ∉ s}

@[simp] theorem specs_spec : specs (.spec spec :: f) = spec :: specs f := rfl

@[simp] theorem render_text : render (.text s plain :: f) = s ++ render f := rfl

@[simp] theorem render_spec : render (.spec spec :: f) = spec.render ++ render f := rfl

@[simp] theorem taken_spec : taken (.spec spec :: f) = spec.taken + taken f := rfl

theorem svCreateEnd_append (pending iter : List Char) : svCreateEnd (pending ++ iter) iter = pending := by
  rw [svCreateEnd, length_append, Nat.add_sub_cancel, take_left]

theorem strchr_render (spec : FormatSpec) (rest : List Char) :
    strchr (spec.render ++ rest) '%' = some (spec.render ++ rest) := rfl

/--
**A format of pieces writes a text of its own**, and then the rest of the format is written with the
arguments behind its own. The induction is over the pieces: a text waits for the next percent sign, a
specification is a turn.
-/
theorem emits_render (hfits : ∀ spec ∈ specs f, spec.Fits) (list : VaList) :
    ∃ textF, ∀ list', VaList.Agree (taken f) list list' → ∀ before pending rest text,
      Emits rest rest rest (list'.skip (taken f)) text →
      Emits (before ++ (render f ++ rest)) (pending ++ (render f ++ rest)) (render f ++ rest) list'
        (pending ++ (textF ++ text)) := by
  induction f generalizing list with
  | nil =>
    refine ⟨[], fun list' _ before pending rest text hrest => ?_⟩
    exact (hrest.behind before le_rfl).pend pending le_rfl
  | cons piece f ih =>
    cases piece with
    | text s plain =>
      obtain ⟨textF, ih⟩ := ih hfits list
      refine ⟨s ++ textF, fun list' hagree before pending rest text hrest => ?_⟩
      have hrun := ih list' hagree (before ++ s) (pending ++ s) rest text hrest
      simpa only [render_text, append_assoc] using hrun.skip plain
    | spec spec =>
      rw [specs_spec, forall_mem_cons] at hfits
      obtain ⟨text, hturn⟩ := spec.turn_go hfits.1 list
      obtain ⟨textF, ih⟩ := ih hfits.2 (list.skip spec.taken)
      refine ⟨text ++ textF, fun list' hagree before pending rest textG hrest => ?_⟩
      have hgo := hturn list' (hagree.mono le_self_add) before (render f ++ rest)
      have hrun := ih (list'.skip spec.taken) hagree.skip (before ++ spec.render) [] rest textG
        (by rwa [skip_skip])
      rw [append_assoc, nil_append, nil_append] at hrun
      have hemits : Emits _ (pending ++ (spec.render ++ (render f ++ rest))) _ _ _ :=
        .go (strchr_render spec _) hgo hrun
      rw [svCreateEnd_append] at hemits
      simpa only [render_spec, append_assoc] using hemits

theorem exists_overflow (hover : ∃ spec ∈ specs f, ¬ spec.Fits) :
    ∃ f₁ spec f₂, f = f₁ ++ .spec spec :: f₂ ∧ ¬ spec.Fits ∧ ∀ spec ∈ specs f₁, spec.Fits := by
  induction f with
  | nil =>
    obtain ⟨_, hmem, -⟩ := hover
    cases hmem
  | cons piece f ih =>
    cases piece with
    | text s plain =>
      obtain ⟨f₁, spec, f₂, rfl, hspec, hfits⟩ := ih hover
      exact ⟨.text s plain :: f₁, spec, f₂, rfl, hspec, hfits⟩
    | spec spec =>
      by_cases hspec : spec.Fits
      · rw [specs_spec, exists_mem_cons_iff] at hover
        obtain ⟨f₁, spec', f₂, rfl, hspec', hfits⟩ := ih (hover.resolve_left (not_not_intro hspec))
        exact ⟨.spec spec :: f₁, spec', f₂, rfl, hspec', forall_mem_cons.mpr ⟨hspec, hfits⟩⟩
      · exact ⟨[], spec, f, rfl, hspec, nofun⟩

/-- Behind a number that does not fit nothing is written. -/
theorem emits_overflow (hover : ∃ spec ∈ specs f, ¬ spec.Fits) (list : VaList) :
    ∃ textF, ∀ rest, Emits (render f ++ rest) (render f ++ rest) (render f ++ rest) list textF := by
  obtain ⟨f₁, spec, f₂, rfl, hspec, hfits⟩ := exists_overflow hover
  obtain ⟨textF, hf⟩ := emits_render hfits list
  refine ⟨textF, fun rest => ?_⟩
  have hstop : turn (spec.render ++ (render f₂ ++ rest)) (spec.render ++ (render f₂ ++ rest))
      (list.skip (taken f₁)) = .stop := by
    rw [turn, FormatSpec.render, cons_append, tail_cons, spec.parseSpec_overflow _ _ _ hspec]
  have hemits := @Emits.stop _ ([] ++ (spec.render ++ (render f₂ ++ rest))) _ _ _ (strchr_render spec _) hstop
  rw [svCreateEnd_append] at hemits
  simpa [render, Piece.render] using hf list (.refl _ _) [] [] _ _ hemits

end Pieces

/-! ## The arguments of a format -/

namespace FormatSpec

variable (spec : FormatSpec)

theorem taken_of_applies (h : spec.LengthApplies) : spec.taken = spec.args := by
  unfold LengthApplies at h
  unfold taken args
  cases hlength : spec.length with
  | none =>
    cases spec.specifier <;> rfl
  | _ =>
    have hint : isIntSpecifier spec.specifier.char = true := by simpa [hlength] using h
    revert hint
    cases spec.specifier <;> first | exact fun _ => rfl | exact nofun

/-- One argument too many is taken for a length that does not apply. -/
theorem taken_of_not_applies (h : ¬ spec.LengthApplies) : spec.taken = spec.args + 1 := by
  unfold LengthApplies at h
  rw [not_or] at h
  obtain ⟨hlength, hint⟩ := h
  have hone : spec.length.args = 1 := by
    revert hlength
    cases spec.length <;> first | exact fun _ => rfl | exact fun h => absurd rfl h
  unfold taken args
  rw [hone, add_assoc, add_assoc, add_comm 1]
  revert hint
  cases spec.specifier <;> first | exact fun _ => rfl | exact fun h => absurd rfl h

end FormatSpec

section Totals

variable {f : List Piece}

theorem args_lt_taken (h : ∃ spec ∈ specs f, ¬ spec.LengthApplies) : args f < taken f := by
  obtain ⟨spec, hmem, hlength⟩ := h
  refine sum_lt_sum _ _ (fun spec' _ => ?_) ⟨spec, hmem, ?_⟩
  · by_cases happlies : spec'.LengthApplies
    · exact (spec'.taken_of_applies happlies).ge
    · have := spec'.taken_of_not_applies happlies
      omega
  · have := spec.taken_of_not_applies hlength
    omega

end Totals

/-! ## Formats one after the other -/

section Splits

variable {f : List Piece}

theorem splits_of_fits (hfits : ∀ spec ∈ specs f, spec.Fits)
    (happlies : ∀ spec ∈ specs f, spec.LengthApplies) : Splits f := by
  intro g a b hlen
  have htaken : a.length = taken f := by
    rw [hlen, taken, args, map_congr_left fun spec hmem => (spec.taken_of_applies (happlies spec hmem)).symm]
  obtain ⟨textF, hf⟩ := emits_render hfits (vaList a b)
  obtain ⟨textG, hg⟩ := exists_emits g g g (vaList [] b)
  obtain ⟨k, hagree⟩ := hg.agree
  refine ⟨textF, textG, fun behind => ?_, hg.prints, ?_⟩
  · have hsame : VaList.Agree a.length (vaList a b) (vaList a behind) := fun i hi => by
      simp only [vaList, zero_add, getElem?_eq_getElem hi, getD_some]
    have hown := hf (vaList a behind) (htaken ▸ hsame) [] [] [] [] (.last rfl)
    rw [append_nil, append_nil] at hown
    exact hown.prints
  · have hrest : Emits g g g ((vaList a b).skip (taken f)) textG :=
      htaken ▸ hagree _ fun i _ => by simp [vaList, skip]
    exact (hf (vaList a b) (.refl _ _) [] [] g textG hrest).prints

/-- With a number that does not fit, the text behind the format is lost. -/
theorem Splits.fits (h : Splits f) : ∀ spec ∈ specs f, spec.Fits := by
  by_contra hover
  push Not at hover
  have b : Nat → VaArg := fun _ => ⟨0, []⟩
  let a : List VaArg := replicate (args f) ⟨0, []⟩
  obtain ⟨textF, textG, hf, hg, hboth⟩ := h ['x'] a b length_replicate
  obtain ⟨text, hlost⟩ := emits_overflow hover (vaList a b)
  have halone := hlost []
  rw [append_nil] at halone
  have hx : Emits ['x'] ['x'] ['x'] (vaList [] b) ['x'] := .last rfl
  have htext := (hf b).unique halone.prints
  have hthen := hboth.unique (hlost ['x']).prints
  rw [hg.unique hx.prints, htext] at hthen
  simp at hthen

theorem emits_char (list : VaList) :
    Emits ['%', 'c'] ['%', 'c'] ['%', 'c'] list [Char.ofNat (list.pop.1.word % 2 ^ 8)] := by
  have hturn : turn ['%', 'c'] ['%', 'c'] list =
      .go [Char.ofNat (list.pop.1.word % 2 ^ 8)] [] [] (list.skip 1) := rfl
  have hlast : Emits ['%', 'c'] [] [] (list.skip 1) [] := .last rfl
  have hgo : Emits ['%', 'c'] ['%', 'c'] ['%', 'c'] list _ := .go rfl hturn hlast
  exact hgo

/-- With a length that does not apply, the next format finds its arguments one place too late. -/
theorem Splits.lengthApplies (h : Splits f) : ∀ spec ∈ specs f, spec.LengthApplies := by
  by_contra hlength
  push Not at hlength
  have hlt := args_lt_taken hlength
  let a : List VaArg := replicate (args f) ⟨0, []⟩
  let b : Nat → VaArg := fun i => ⟨if i = 0 then '0'.toNat else '1'.toNat, []⟩
  obtain ⟨textF, textG, hf, hg, hboth⟩ := h ['%', 'c'] a b length_replicate
  obtain ⟨text, hrun⟩ := emits_render h.fits (vaList a b)
  have halone := hrun (vaList a b) (.refl _ _) [] [] [] [] (.last rfl)
  rw [append_nil, append_nil] at halone
  have hthen := hboth.unique (hrun (vaList a b) (.refl _ _) [] [] _ _ (emits_char _)).prints
  rw [hg.unique (emits_char _).prints, (hf b).unique halone.prints] at hthen
  have hchar := append_cancel_left hthen
  -- `%c` finds what lies `taken f - args f` places behind its own argument
  have hfirst : (vaList [] b).pop.1.word = '0'.toNat := rfl
  have hlater : ((vaList a b).skip (taken f)).pop.1.word = '1'.toNat := by
    have hnone : a[taken f]? = none := getElem?_eq_none (by simpa [a] using hlt.le)
    simp only [pop, skip, vaList, zero_add, hnone, getD_none, b]
    rw [if_neg (by simp only [a, length_replicate]; omega)]
  rw [hfirst, hlater] at hchar
  revert hchar
  decide

/--
**A format of text and complete specifications can be put in front of any other exactly if** its widths
and precisions are numbers that an `int` holds, and no length stands before `c`, `s`, `p` or `%`.
-/
theorem printf_splits_iff (f : List Piece) :
    Splits f ↔ ∀ spec ∈ specs f, spec.Fits ∧ spec.LengthApplies :=
  ⟨fun h spec hmem => ⟨h.fits spec hmem, h.lengthApplies spec hmem⟩,
    fun h => splits_of_fits (fun spec hmem => (h spec hmem).1) fun spec hmem => (h spec hmem).2⟩

end Splits

/-- The text that a call gives to callbacks that take everything, and the count that it returns. -/
def printed (fmt : String) (list : VaList) : List Char × Option Nat :=
  match parsePrintf collect fmt.toList list [] with
  | (.ok (count, _), text) => (text, some count)
  | (.error _, text) => (text, none)

/--
With the letters `A`, `B`, `C` as arguments, `%lc` writes the second one and `%c` behind it the third,
though `%c` on its own, with `B` and `C`, writes `B`. A width of 2³¹ drops the text behind it.
-/
theorem printf_leaks :
    printed "%lc" (vaList [⟨65, []⟩] fun i => ⟨66 + i, []⟩) = (['B'], some 1) ∧
      printed "%c" (vaList [] fun i => ⟨66 + i, []⟩) = (['B'], some 1) ∧
      printed "%lc%c" (vaList [⟨65, []⟩] fun i => ⟨66 + i, []⟩) = (['B', 'C'], some 2) ∧
      printed "%2147483648d" (vaList [⟨65, []⟩] fun i => ⟨66 + i, []⟩) = ([], some 0) ∧
      printed "%2147483648d%c" (vaList [⟨65, []⟩] fun i => ⟨66 + i, []⟩) = ([], some 0) := by
  decide +kernel

end OsKernel.Lib
