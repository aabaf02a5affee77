import OsKernel.Lib.Format

/-!
# The length of a formatted time (`lib/strftime.c`)

One callback counts what the other one writes, and both functions return what
`parse_strftime_format` returns. That is 0, while every format but the empty one writes
something.
-/

namespace OsKernel.Lib

open Effect

/-- `time_format_get_length_sv_callback`. -/
def timeFormatGetLengthSvCallback : StrftimeCallback Unit := fun _ sv cont => pure (sv.length, cont)

/-- `get_length_of_time_format`. -/
def getLengthOfTimeFormat (format : List Char) (tm : Tm) : Result Nat :=
  (parseStrftimeFormat timeFormatGetLengthSvCallback format tm ()).1

theorem parseStrftimeFormat_zero {σ : Type} {svCb : StrftimeCallback σ} {format : List Char} {tm : Tm}
    {s : σ} {n : Nat} (h : (parseStrftimeFormat svCb format tm s).1 = .ok n) : n = 0 := by
  rw [parseStrftimeFormat, Effect.bind_run] at h
  split at h
  · cases h
    rfl
  · cases h

/-! ## What a specifier writes first -/

theorem storeDigits_le {chars : List Char} {base : Nat} :
    ∀ {i number : Nat} {buffer : CharBuffer} {r : Nat × CharBuffer},
      storeDigits chars base i number buffer = .ok r → r.1 ≤ i := by
  intro i
  induction i with
  | zero =>
    intro number buffer r h
    obtain ⟨buffer', -, h⟩ := bind_eq_ok.mp h
    split at h
    · cases h
      exact le_rfl
    · cases h
  | succ i ih =>
    intro number buffer r h
    obtain ⟨buffer', -, h⟩ := bind_eq_ok.mp h
    split at h
    · cases h
      exact le_rfl
    · exact (ih h).trans (Nat.le_succ i)

theorem decimalSv_ne_nil {number : Nat} {sv : List Char} (h : decimalSv number = .ok sv) :
    sv ≠ [] := by
  obtain ⟨⟨sv', buffer⟩, hview, rfl⟩ := map_eq_ok.mp h
  obtain ⟨⟨i, buffer'⟩, hloop, hview⟩ := bind_eq_ok.mp hview
  cases hview
  obtain ⟨stored, -, hloop⟩ := bind_eq_ok.mp hloop
  obtain ⟨⟨last, stored'⟩, hdigits, hloop⟩ := bind_eq_ok.mp hloop
  cases hloop
  have hle : i ≤ 20 := storeDigits_le hdigits
  refine List.ne_nil_of_length_pos ?_
  rw [CharBuffer.text, List.length_map, List.length_range']
  change 0 < 21 - i
  omega

theorem paddedSv_ne_nil {mods : StrftimeModifiers} {number expectedLen : Nat} {ch : Char}
    {sv : List Char} (h : paddedSv mods number ch expectedLen = .ok sv) : sv ≠ [] := by
  obtain ⟨digits, hdigits, rfl⟩ := map_eq_ok.mp h
  have hne := decimalSv_ne_nil hdigits
  unfold padWithCharIfNecessary
  split
  · simp [hne]
  · exact hne

theorem weekdayNames_ne_nil {upper : Bool} {day : Int} (h : weekdayIsValid day = true) :
    weekdayToSv upper day ≠ [] ∧ weekdayToSvAbbrev upper day ≠ [] := by
  have hvalid : 0 ≤ day ∧ day ≤ 6 := by simpa [weekdayIsValid] using h
  obtain ⟨n, rfl⟩ := Int.eq_ofNat_of_zero_le hvalid.1
  have hn : n ≤ 6 := by omega
  unfold weekdayToSv weekdayToSvAbbrev nameSvAbbrev nameSv
  rw [Int.toNat_natCast]
  interval_cases n <;> cases upper <;> decide

theorem monthNames_ne_nil {upper : Bool} {month : Nat} (h : monthIsValid month = true) :
    monthToSv upper month ≠ [] ∧ monthToSvAbbrev upper month ≠ [] := by
  have hvalid : 1 ≤ month ∧ month ≤ 12 := by simpa [monthIsValid] using h
  unfold monthToSv monthToSvAbbrev nameSvAbbrev nameSv
  obtain ⟨hlo, hhi⟩ := hvalid
  interval_cases month <;> cases upper <;> decide

/-- A piece whose text, if it has one, is not empty. -/
def StrftimePiece.Written : StrftimePiece → Prop
  | .sv text => ∀ sv, text = .ok sv → sv ≠ []
  | .spec _ => True

/-- The first piece is written. -/
def Starts : Option (List StrftimePiece) → Prop
  | some (piece :: _) => piece.Written
  | some [] => False
  | none => True

theorem strftimePieces_starts (specInfo : StrftimeSpecInfo) (tm : Tm) :
    Starts (strftimePieces specInfo tm) := by
  have htext {s : String} (hs : s.toList ≠ []) : (StrftimePiece.sv (.ok s.toList)).Written := by
    intro sv hsv
    cases hsv
    exact hs
  have hname {valid : Bool} {name : List Char} (hn : valid = true → name ≠ []) :
      (if valid then StrftimePiece.sv (.ok name) else .sv (.ok "?".toList)).Written := by
    split
    · intro sv hsv
      cases hsv
      exact hn ‹_›
    · exact htext (by decide)
  have hpadded {x : Result Nat} {f : Nat → Nat} {ch : Char} {k : Nat} :
      (StrftimePiece.sv (x >>= fun n => paddedSv specInfo.mods (f n) ch k)).Written := by
    intro sv hsv
    obtain ⟨n, -, hn⟩ := bind_eq_ok.mp hsv
    exact paddedSv_ne_nil hn
  have hdecimal {x : Result Nat} {f : Nat → Nat} :
      (StrftimePiece.sv (x >>= fun n => decimalSv (f n))).Written := by
    intro sv hsv
    obtain ⟨n, -, hn⟩ := bind_eq_ok.mp hsv
    exact decimalSv_ne_nil hn
  have hnumber {n k : Nat} {ch : Char} :
      (StrftimePiece.sv (paddedSv specInfo.mods n ch k)).Written :=
    fun sv hsv => paddedSv_ne_nil hsv
  have hspec {other : Char} : (StrftimePiece.spec other).Written := trivial
  unfold strftimePieces
  split
  all_goals simp only [Starts]
  all_goals with_reducible first
    | exact hnumber
    | exact hpadded
    | exact hdecimal
    | exact htext (by decide)
    | exact hname fun hvalid => (weekdayNames_ne_nil hvalid).1
    | exact hname fun hvalid => (weekdayNames_ne_nil hvalid).2
    | exact hname fun hvalid => (monthNames_ne_nil hvalid).1
    | exact hname fun hvalid => (monthNames_ne_nil hvalid).2
    | exact hspec
    | (split <;> exact htext (by decide))

/-! ## What a format writes -/

section Text

/-- The recorded text is not empty. -/
def Wrote (pieces : List (List Char)) : Prop := pieces.flatten ≠ []

variable {tm : Tm} {pieces : List (List Char)}

theorem Wrote.record (h : Wrote pieces) (sv : List Char) : Wrote (pieces ++ [sv]) := by
  simp only [Wrote, List.flatten_append]
  exact List.append_ne_nil_of_left_ne_nil h _

theorem wrote_record {sv : List Char} (h : sv ≠ []) (pieces : List (List Char)) :
    Wrote (pieces ++ [sv]) := by
  simp [Wrote, h]

/-- A text stays. -/
theorem recordSvCallback_wrote (info : Option StrftimeSpecInfo) (sv : List Char) (cont : Bool) :
    InStep (fun _ _ => False) (fun pieces (_ : Unit) => Wrote pieces)
      (recordSvCallback info sv cont) (timeFormatGetLengthSvCallback info sv cont) :=
  ⟨fun _ _ h => h.elim, fun _ _ h => h.record sv, fun _ _ h => h⟩

/-- A result, and what holds of the state however the run ends. -/
theorem ends_of_state {σ α : Type} {P : σ → Prop} {r : Result α × σ} (h : P r.2) :
    Ends (fun _ => P) (fun _ _ => True) r := by
  rcases r with ⟨e | a, s⟩
  · exact .error trivial
  · exact .ok h

/-- A valid specifier writes something. -/
theorem handleStrftimeSpec_wrote (tm : Tm) (fuel : Nat) (specInfo : StrftimeSpecInfo)
    (writtenOut : Nat) (cont : Bool) (pieces : List (List Char)) :
    Ends (fun r pieces' => r.1 = true → Wrote pieces') (fun _ _ => True)
      (handleStrftimeSpec recordSvCallback tm fuel specInfo writtenOut cont pieces) := by
  induction fuel generalizing specInfo writtenOut cont pieces with
  | zero => exact .error trivial
  | succ fuel ih =>
    have hstarts := strftimePieces_starts specInfo tm
    rw [handleStrftimeSpec]
    generalize strftimePieces specInfo tm = texts at hstarts ⊢
    rcases texts with _ | _ | ⟨piece, rest⟩
    · exact .ok fun h => by cases h
    · exact hstarts.elim
    · refine Ends.bind (Q := fun _ => Wrote) ?_ fun a s h => .ok fun _ => h
      refine Ends.bind (Q := fun _ => Wrote) ?_ ?_
      · -- the first piece
        cases piece with
        | sv text =>
          refine Ends.bind (Q := fun sv _ => sv ≠ []) ?_ ?_
          · rcases text with e | sv
            · exact .error trivial
            · exact .ok (hstarts sv rfl)
          · intro sv pieces hsv
            exact Ends.bind (Q := fun _ => Wrote) (.ok (wrote_record hsv pieces)) fun _ _ h => .ok h
        | spec other =>
          refine Ends.bind (ih _ _ _ _) ?_
          rintro ⟨valid, writtenOut, cont⟩ pieces h
          dsimp only
          split
          · exact .ok (h ‹_›)
          · exact .error trivial
      · rintro ⟨writtenOut, cont⟩ pieces h
        refine ends_of_state (InStep.left (InStep.ite (inStep_pure _) (runPieces_inStep
          (callPiece_inStep recordSvCallback_wrote (handleStrftimeSpec_inStep recordSvCallback_wrote
            tm fuel) specInfo) rest _ _)) pieces () h)

theorem strftimeTail_wrote {unformat : List Char} (h : unformat ≠ []) (writtenOut : Nat) (cont : Bool)
    (pieces : List (List Char)) :
    Ends (fun _ => Wrote) (fun _ _ => True)
      (strftimeTail recordSvCallback unformat writtenOut cont pieces) := by
  rw [strftimeTail, if_pos h]
  exact .ok (wrote_record h pieces)

theorem strchr_ne_nil {ch : Char} : ∀ {iter orig : List Char}, strchr iter ch = some orig → orig ≠ []
  | c :: rest, orig, h => by
    rw [strchr] at h
    split at h
    · cases h
      exact List.cons_ne_nil _ _
    · exact strchr_ne_nil h

/-- Text that is still to be written is written, also that of an invalid specifier. -/
theorem strftimeLoop_wrote (tm : Tm) (fuel : Nat) {unformat : List Char} (hne : unformat ≠ [])
    (iter : List Char) (writtenOut : Nat) (cont : Bool) (pieces : List (List Char)) :
    Ends (fun _ => Wrote) (fun _ _ => True)
      (strftimeLoop recordSvCallback tm fuel unformat iter writtenOut cont pieces) := by
  induction fuel generalizing unformat iter writtenOut cont pieces with
  | zero => exact .error trivial
  | succ fuel ih =>
    rw [strftimeLoop]
    rcases horig : strchr iter '%' with _ | orig
    · exact strftimeTail_wrote hne _ _ _
    · refine Ends.bind (Ends.of_forall (Q := fun _ _ => True) _ (fun _ _ => trivial)
        fun _ _ => trivial) ?_
      rintro ⟨writtenOut, cont⟩ pieces -
      dsimp only
      split
      · exact strftimeTail_wrote hne _ _ _
      refine Ends.bind (handleStrftimeSpec_wrote tm _ _ _ _ _) ?_
      rintro ⟨valid, writtenOut, vContinue⟩ pieces hvalid
      dsimp only
      split
      · exact strftimeTail_wrote hne _ _ _
      generalize (parseStrftimeMods orig.tail).2 = iter
      rcases iter with _ | ⟨c, iter⟩
      · exact .error trivial
      · cases valid with
        | true =>
          have hloop := strftimeLoop_inStep recordSvCallback_wrote tm fuel iter iter writtenOut cont
          exact ends_of_state (hloop.left pieces () (hvalid rfl))
        | false => exact ih (strchr_ne_nil horig) _ _ _ _

/-- **Every format but the empty one writes something**, if the engine returns. -/
theorem timePieces_eq_zero_iff {format : List Char} {n : Nat}
    (h : (parseStrftimeFormat recordSvCallback format tm []).1 = .ok n) :
    (timePieces format tm).flatten.length = 0 ↔ format = [] := by
  constructor
  · intro hzero
    by_contra hne
    have hends : Ends (fun _ => Wrote) (fun _ _ => True)
        (parseStrftimeFormat recordSvCallback format tm []) :=
      (strftimeLoop_wrote tm _ hne format 0 true []).bind fun _ _ hwrote => .ok hwrote
    obtain ⟨pieces, hrun⟩ : ∃ pieces,
        parseStrftimeFormat recordSvCallback format tm [] = (.ok n, pieces) := ⟨_, Prod.ext h rfl⟩
    rw [hrun, ends_ok] at hends
    have hpieces : timePieces format tm = pieces := congrArg Prod.snd hrun
    rw [hpieces] at hzero
    exact hends (List.length_eq_zero_iff.mp hzero)
  · rintro rfl
    rfl

end Text

/-! ## The lengths -/

section Lengths

variable {base length counted : Nat} {format : List Char} {tm : Tm}

/-- Counting goes on like recording. -/
theorem getLengthOfTimeFormat_eq (format : List Char) (tm : Tm) :
    getLengthOfTimeFormat format tm = (parseStrftimeFormat recordSvCallback format tm []).1 := by
  have hstep (info : Option StrftimeSpecInfo) (sv : List Char) (cont : Bool) :
      InStep (fun _ _ => True) (fun _ _ => False) (recordSvCallback info sv cont)
        (timeFormatGetLengthSvCallback info sv cont) :=
    ⟨fun _ _ _ => .inl ⟨rfl, trivial⟩, fun _ _ h => h, fun _ _ h => h⟩
  rcases (parseStrftimeFormat_inStep hstep format tm).run [] () trivial with ⟨hsame, -⟩ | hfalse
  · exact hsame
  · exact hfalse.elim

/-- A buffer that is large enough takes the whole text. -/
theorem timeFormatToStringBuffer_whole (hbase : base < U64)
    (hlarge : (timePieces format tm).flatten.length < length)
    (hroom : (timePieces format tm).flatten.length + length < 2 ^ 32)
    {n : Nat} (h : (parseStrftimeFormat recordSvCallback format tm []).1 = .ok n) :
    ∃ t, timeFormatToStringBuffer base length format tm = .ok t ∧ t.result = .ok n ∧
      t.mbuffer.mbuffer.index = (timePieces format tm).flatten.length := by
  have hcap : length < 2 ^ 32 := by omega
  obtain ⟨mbuffer, hopen, hs⟩ := open_filledTo hbase length
  have hstep := parseStrftimeFormat_inStep (@timeFormatToStringSvCallback_inStep base _ hcap) format
    tm
  rw [timeFormatToStringBuffer, if_neg (by omega), Nat.mod_eq_of_lt hcap, hopen, ok_bind]
  rcases hstep.run [] _ hs with ⟨hsame, hin⟩ | ⟨hover, -⟩ | ⟨hfull, -⟩ | hcut | hstall
  · rcases hrun : parseStrftimeFormat timeFormatToStringSvCallback format tm ⟨mbuffer, []⟩ with
      ⟨r, s⟩
    rw [hrun, h] at hsame
    rw [hrun] at hin
    cases hsame
    exact ⟨_, rfl, rfl, hin.index_eq⟩
  · exact absurd hover.lt hlarge.not_gt
  · exact absurd hfull.le hlarge.not_ge
  · exact absurd hcut.lt hroom.not_gt
  · exact absurd hstall.le hroom.not_ge

/--
**The length, what is written and the value returned are the same number exactly for the empty
format**: for every format and time for which the engine returns, and a buffer with room for the
text and its terminator.
-/
theorem timeFormat_lengths_agree_iff (hbase : base < U64)
    (hcounted : getLengthOfTimeFormat format tm = .ok counted)
    (hlarge : (timePieces format tm).flatten.length < length)
    (hroom : (timePieces format tm).flatten.length + length < 2 ^ 32) :
    ∃ t result, timeFormatToStringBuffer base length format tm = .ok t ∧ t.result = .ok result ∧
      ((counted = t.mbuffer.mbuffer.index ∧ result = t.mbuffer.mbuffer.index) ↔ format = []) := by
  obtain rfl : counted = 0 := parseStrftimeFormat_zero hcounted
  rw [getLengthOfTimeFormat_eq] at hcounted
  obtain ⟨t, hrun, hresult, hindex⟩ := timeFormatToStringBuffer_whole hbase hlarge hroom hcounted
  refine ⟨t, 0, hrun, hresult, ?_⟩
  rw [hindex, and_self, eq_comm, timePieces_eq_zero_iff hcounted]

/-- Nine characters for a day and a comma, against two zeros. -/
theorem timeFormat_lengths_agree_iff_day : ∃ t result,
    timeFormatToStringBuffer 4096 16 "%A,".toList ⟨0, 0, 0, 1, 0, 70, 4, 0⟩ = .ok t ∧
      t.result = .ok result ∧
      ¬ (0 = t.mbuffer.mbuffer.index ∧ result = t.mbuffer.mbuffer.index) := by
  have htext : (timePieces "%A,".toList ⟨0, 0, 0, 1, 0, 70, 4, 0⟩).flatten.length = 9 := by rfl
  obtain ⟨t, result, hrun, hresult, hiff⟩ := @timeFormat_lengths_agree_iff 4096 16 0 "%A,".toList
    ⟨0, 0, 0, 1, 0, 70, 4, 0⟩ (by decide) rfl (by omega) (by omega)
  exact ⟨t, result, hrun, hresult, fun h => absurd (hiff.mp h) (by decide)⟩

/-- One character is written, and both functions return 0. -/
theorem timeFormat_length_of_letter :
    getLengthOfTimeFormat ['a'] ⟨0, 0, 0, 1, 0, 70, 4, 0⟩ = .ok 0 ∧ ∃ t,
      timeFormatToStringBuffer 4096 8 ['a'] ⟨0, 0, 0, 1, 0, 70, 4, 0⟩ = .ok t ∧
        t.result = .ok 0 ∧ t.mbuffer.mbuffer.index = 1 :=
  ⟨rfl, _, rfl, rfl, rfl⟩

end Lengths

end OsKernel.Lib
