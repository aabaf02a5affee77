import OsKernel.Adt.MutableBuffer
import OsKernel.Lib.ParseStrftime

/-!
# Formatting into a buffer (`lib/format.c`, `lib/strftime.c`)

Both functions open a mutable buffer over the memory they are given and let an engine
append to it. Whatever an engine does to its callbacks' state it does through the
callbacks, so what they keep, it keeps.
-/

namespace OsKernel.Lib

open Adt

/-! ## Engines in step -/

section InStep

open Effect

variable {σ τ : Type} {I J : σ → τ → Prop}

/-- Two pairs of callbacks that go in step until they part. -/
structure PrintfCallbacks.InStep (I J : σ → τ → Prop) (cb : PrintfCallbacks σ)
    (cb' : PrintfCallbacks τ) : Prop where
  writeChar : ∀ info ch amount cont,
    Effect.InStep I J (cb.writeChar info ch amount cont) (cb'.writeChar info ch amount cont)
  writeSv : ∀ info sv cont, Effect.InStep I J (cb.writeSv info sv cont) (cb'.writeSv info sv cont)

variable {cb : PrintfCallbacks σ} {cb' : PrintfCallbacks τ}

section

variable (h : PrintfCallbacks.InStep I J cb cb')
include h

theorem callCb_inStep (info : Option PrintfSpecInfo) (sv : List Char) (cont : Bool) :
    InStep I J (callCb cb info sv cont) (callCb cb' info sv cont) := by
  unfold callCb
  split
  · exact inStep_pure _
  · exact h.writeChar _ _ _ _
  · exact h.writeSv _ _ _

theorem writePrefixForSpec_inStep (info : PrintfSpecInfo) (cont : Bool) :
    InStep I J (writePrefixForSpec cb info cont) (writePrefixForSpec cb' info cont) := by
  refine InStep.ite (inStep_pure _) ?_
  split
  · exact h.writeSv _ _ _
  · exact h.writeSv _ _ _
  · exact h.writeChar _ _ _ _
  · exact h.writeSv _ _ _
  · exact h.writeSv _ _ _
  · exact inStep_pure _

theorem padWithLeadZeros_inStep (info : PrintfSpecInfo) (parsed : List Char) (zeroCount : Nat)
    (isNull cont : Bool) :
    InStep I J (padWithLeadZeros cb info parsed zeroCount isNull cont)
      (padWithLeadZeros cb' info parsed zeroCount isNull cont) := by
  refine InStep.bind (InStep.ite (writePrefixForSpec_inStep h _ _) (inStep_pure _)) ?_
  rintro ⟨out, cont⟩
  refine InStep.ite (inStep_pure _) (InStep.ite ?_ ?_)
  · refine InStep.bind (h.writeChar _ _ _ _) fun _ => ?_
    exact InStep.bind (h.writeChar _ _ _ _) fun _ => inStep_pure _
  · exact InStep.bind (h.writeChar _ _ _ _) fun _ => inStep_pure _

theorem writeSpec_inStep (info : PrintfSpecInfo) (pad : Padding) (parsed : List Char)
    (isNull : Bool) (st : PrintfState) :
    InStep I J (writeSpec cb info pad parsed isNull st) (writeSpec cb' info pad parsed isNull st) := by
  have hspaces (st : PrintfState) : InStep I J (writeSpaces cb info pad.spacePadCount st)
      (writeSpaces cb' info pad.spacePadCount st) :=
    InStep.ite (InStep.bind (h.writeChar _ _ _ _) fun _ => inStep_pure _) (inStep_pure _)
  have hparsed (st : PrintfState) : InStep I J (writeParsed cb info pad parsed isNull st)
      (writeParsed cb' info pad parsed isNull st) := by
    refine InStep.bind (padWithLeadZeros_inStep h _ _ _ _ _) ?_
    rintro ⟨out, parsed, cont⟩
    refine InStep.ite (inStep_pure _) (InStep.ite ?_ (inStep_pure _))
    exact InStep.bind (callCb_inStep h _ _ _) fun _ => inStep_pure _
  refine InStep.ite ?_ ?_
  · refine InStep.bind (hparsed _) fun _ => InStep.ite (inStep_pure _) ?_
    exact InStep.bind (hspaces _) fun _ => InStep.ite (inStep_pure _) (inStep_pure _)
  · refine InStep.bind (hspaces _) fun _ => InStep.ite (inStep_pure _) ?_
    exact InStep.bind (hparsed _) fun _ => InStep.ite (inStep_pure _) (inStep_pure _)

theorem printfStep_inStep (fmt : List Char) (st : PrintfState) (iter : List Char) :
    InStep I J (printfStep cb fmt st iter) (printfStep cb' fmt st iter) := by
  refine InStep.bind (callCb_inStep h _ _ _) fun _ => ?_
  refine InStep.ite (inStep_pure _) (InStep.ite (inStep_pure _) ?_)
  split
  · exact inStep_pure _
  · refine InStep.bind (inStep_lift _) fun handled => ?_
    split
    · exact inStep_pure _
    · exact inStep_pure _
    · exact writeSpec_inStep h _ _ _ _ _

theorem printfTail_inStep (st : PrintfState) :
    InStep I J (printfTail cb st) (printfTail cb' st) :=
  InStep.ite (InStep.bind (callCb_inStep h _ _ _) fun _ => inStep_pure _) (inStep_pure _)

theorem printfLoop_inStep (fmt : List Char) (fuel : Nat) (st : PrintfState) :
    InStep I J (printfLoop cb fmt fuel st) (printfLoop cb' fmt fuel st) := by
  induction fuel generalizing st with
  | zero => exact inStep_lift _
  | succ fuel ih =>
    unfold printfLoop
    split
    · exact printfTail_inStep h _
    · refine InStep.bind (printfStep_inStep h _ _ _) fun step => ?_
      cases step with
      | done st => exact inStep_pure _
      | break_ st => exact printfTail_inStep h _
      | next st => exact ih st

/-- **`parse_printf` goes in step as long as its callbacks do.** -/
theorem parsePrintf_inStep (fmt : List Char) (list : VaList) :
    InStep I J (parsePrintf cb fmt list) (parsePrintf cb' fmt list) :=
  InStep.bind (printfLoop_inStep h _ _ _) fun _ => inStep_pure _

end

variable {svCb : StrftimeCallback σ} {svCb' : StrftimeCallback τ}

theorem runPieces_inStep {call : StrftimePiece → Nat → Bool → Effect σ (Nat × Bool)}
    {call' : StrftimePiece → Nat → Bool → Effect τ (Nat × Bool)}
    (h : ∀ piece writtenOut cont,
      InStep I J (call piece writtenOut cont) (call' piece writtenOut cont))
    (pieces : List StrftimePiece) (writtenOut : Nat) (cont : Bool) :
    InStep I J (runPieces call pieces writtenOut cont) (runPieces call' pieces writtenOut cont) := by
  induction pieces generalizing writtenOut cont with
  | nil => exact inStep_pure _
  | cons piece pieces ih =>
    refine InStep.bind (h _ _ _) ?_
    rintro ⟨writtenOut, cont⟩
    exact InStep.ite (inStep_pure _) (ih _ _)

section

variable (h : ∀ info sv cont, InStep I J (svCb info sv cont) (svCb' info sv cont))
include h

theorem callPiece_inStep
    {handle : StrftimeSpecInfo → Nat → Bool → Effect σ (Bool × Nat × Bool)}
    {handle' : StrftimeSpecInfo → Nat → Bool → Effect τ (Bool × Nat × Bool)}
    (hhandle : ∀ specInfo writtenOut cont,
      InStep I J (handle specInfo writtenOut cont) (handle' specInfo writtenOut cont))
    (specInfo : StrftimeSpecInfo) (piece : StrftimePiece) (writtenOut : Nat) (cont : Bool) :
    InStep I J (callPiece svCb handle specInfo piece writtenOut cont)
      (callPiece svCb' handle' specInfo piece writtenOut cont) := by
  cases piece with
  | sv text =>
    refine InStep.bind (inStep_lift _) fun _ => ?_
    exact InStep.bind (h _ _ _) fun _ => inStep_pure _
  | spec other =>
    refine InStep.bind (hhandle _ _ _) ?_
    rintro ⟨valid, writtenOut, cont⟩
    exact InStep.ite (inStep_pure _) (inStep_lift _)

theorem handleStrftimeSpec_inStep (tm : Tm) (fuel : Nat) (specInfo : StrftimeSpecInfo)
    (writtenOut : Nat) (cont : Bool) :
    InStep I J (handleStrftimeSpec svCb tm fuel specInfo writtenOut cont)
      (handleStrftimeSpec svCb' tm fuel specInfo writtenOut cont) := by
  induction fuel generalizing specInfo writtenOut cont with
  | zero => exact inStep_lift _
  | succ fuel ih =>
    unfold handleStrftimeSpec
    split
    · exact inStep_pure _
    · exact InStep.bind (runPieces_inStep (callPiece_inStep h ih specInfo) _ _ _) fun _ =>
        inStep_pure _

theorem strftimeLoop_inStep (tm : Tm) (fuel : Nat) (unformat iter : List Char) (writtenOut : Nat)
    (cont : Bool) :
    InStep I J (strftimeLoop svCb tm fuel unformat iter writtenOut cont)
      (strftimeLoop svCb' tm fuel unformat iter writtenOut cont) := by
  have htail (unformat : List Char) (writtenOut : Nat) (cont : Bool) :
      InStep I J (strftimeTail svCb unformat writtenOut cont)
        (strftimeTail svCb' unformat writtenOut cont) :=
    InStep.ite (InStep.bind (h _ _ _) fun _ => inStep_pure _) (inStep_pure _)
  induction fuel generalizing unformat iter writtenOut cont with
  | zero => exact inStep_lift _
  | succ fuel ih =>
    unfold strftimeLoop
    split
    · exact htail _ _ _
    · refine InStep.bind ?_ ?_
      · exact InStep.ite (InStep.bind (h _ _ _) fun _ => inStep_pure _) (inStep_pure _)
      · rintro ⟨writtenOut, cont⟩
        refine InStep.ite (htail _ _ _) (InStep.bind (handleStrftimeSpec_inStep h tm _ _ _ _) ?_)
        rintro ⟨valid, writtenOut, vContinue⟩
        refine InStep.ite (htail _ _ _) ?_
        split
        · exact inStep_lift _
        · exact ih _ _ _ _

/-- **`parse_strftime_format` goes in step as long as its callback does.** -/
theorem parseStrftimeFormat_inStep (format : List Char) (tm : Tm) :
    InStep I J (parseStrftimeFormat svCb format tm) (parseStrftimeFormat svCb' format tm) :=
  InStep.bind (strftimeLoop_inStep h tm _ _ _ _ _) fun _ => inStep_pure _

end

end InStep

/-! ## The pieces of a text -/

/-- Callbacks that take each piece of a text and record it. -/
def recordCallbacks : PrintfCallbacks (List (List Char)) where
  writeChar _ ch amount cont := fun pieces =>
    (.ok (amount, cont), pieces ++ [List.replicate amount ch])
  writeSv _ sv cont := fun pieces => (.ok (sv.length, cont), pieces ++ [sv])

/-- The pieces in which `parse_printf` writes the text of a format, if all are taken. -/
def printfPieces (fmt : List Char) (list : VaList) : List (List Char) :=
  (parsePrintf recordCallbacks fmt list []).2

@[inherit_doc recordCallbacks]
def recordSvCallback : StrftimeCallback (List (List Char)) := fun _ sv cont pieces =>
  (.ok (sv.length, cont), pieces ++ [sv])

/-- The pieces in which `parse_strftime_format` writes a time, if all are taken. -/
def timePieces (format : List Char) (tm : Tm) : List (List Char) :=
  (parseStrftimeFormat recordSvCallback format tm []).2

/-- A piece starts inside the buffer and ends behind it. -/
def Straddles (cap : Nat) (pieces : List (List Char)) : Prop :=
  ∃ front piece rest, pieces = front ++ piece :: rest ∧ front.flatten.length < cap ∧
    cap < front.flatten.length + piece.length

/-- The first pieces fill the buffer. -/
def Fills (cap : Nat) (pieces : List (List Char)) : Prop :=
  ∃ front rest, pieces = front ++ rest ∧ front.flatten.length = cap

/-- A piece finds room, but is longer than the free space that is reported for it. -/
def Cut (cap : Nat) (pieces : List (List Char)) : Prop :=
  ∃ front piece rest, pieces = front ++ piece :: rest ∧ front.flatten.length < cap ∧
    2 ^ 32 < piece.length + (cap - front.flatten.length)

/-- The first pieces end, inside the buffer, at the capacity that is reported for it. -/
def Stalls (cap : Nat) (pieces : List (List Char)) : Prop :=
  ∃ front rest, pieces = front ++ rest ∧ front.flatten.length < cap ∧
    front.flatten.length + cap = 2 ^ 32

section Pieces

variable {cap : Nat} {pieces more : List (List Char)}

theorem Straddles.append (h : Straddles cap pieces) : Straddles cap (pieces ++ more) := by
  obtain ⟨front, piece, rest, rfl, hlt, hgt⟩ := h
  exact ⟨front, piece, rest ++ more, by simp, hlt, hgt⟩

theorem Fills.append (h : Fills cap pieces) : Fills cap (pieces ++ more) := by
  obtain ⟨front, rest, rfl, heq⟩ := h
  exact ⟨front, rest ++ more, by simp, heq⟩

theorem Cut.append (h : Cut cap pieces) : Cut cap (pieces ++ more) := by
  obtain ⟨front, piece, rest, rfl, hlt, hgt⟩ := h
  exact ⟨front, piece, rest ++ more, by simp, hlt, hgt⟩

theorem Stalls.append (h : Stalls cap pieces) : Stalls cap (pieces ++ more) := by
  obtain ⟨front, rest, rfl, hlt, heq⟩ := h
  exact ⟨front, rest ++ more, by simp, hlt, heq⟩

theorem Straddles.lt (h : Straddles cap pieces) : cap < pieces.flatten.length := by
  obtain ⟨front, piece, rest, rfl, hlt, hgt⟩ := h
  simp only [List.flatten_append, List.flatten_cons, List.length_append]
  omega

theorem Cut.lt (h : Cut cap pieces) : 2 ^ 32 < pieces.flatten.length + cap := by
  obtain ⟨front, piece, rest, rfl, hlt, hgt⟩ := h
  simp only [List.flatten_append, List.flatten_cons, List.length_append]
  omega

theorem Stalls.le (h : Stalls cap pieces) : 2 ^ 32 ≤ pieces.flatten.length + cap := by
  obtain ⟨front, rest, rfl, -, heq⟩ := h
  simp only [List.flatten_append, List.length_append]
  omega

theorem Fills.le (h : Fills cap pieces) : cap ≤ pieces.flatten.length := by
  obtain ⟨front, rest, rfl, heq⟩ := h
  simp only [List.flatten_append, List.length_append]
  omega

theorem Fills.not_straddles (h : Fills cap pieces) : ¬ Straddles cap pieces := by
  rintro ⟨front, piece, rest, heq, hlt, hgt⟩
  obtain ⟨front', rest', rfl, hfull⟩ := h
  rcases List.append_eq_append_iff.mp heq with ⟨mid, rfl, -⟩ | ⟨mid, rfl, hmid⟩
  · simp only [List.flatten_append, List.length_append] at hlt
    omega
  · -- the pieces that fill the buffer contain the one that would straddle
    cases mid with
    | nil => simp only [List.append_nil] at hfull; omega
    | cons first mid =>
      rw [List.cons_append, List.cons.injEq] at hmid
      simp only [List.flatten_append, List.flatten_cons, List.length_append, ← hmid.1] at hfull
      omega

end Pieces

/-! ## Formatting into a buffer -/

/-- `buffer_char_callback` and `buffer_sv_callback`. -/
def bufferCallbacks : PrintfCallbacks MBuffer where
  writeChar _ ch amount cont := do
    let appended ← MBuffer.mbufferAppendByte ch amount
    pure (appended, cont && appended = amount)
  writeSv _ sv cont := do
    let appended ← MBuffer.mbufferAppendSv sv
    pure (appended, cont && appended = sv.length)

/-- `vformat_to_buffer`, and `format_to_buffer`. The length is cut to 32 bits. -/
def formatToBuffer (buffer bufferLength : Nat) (fmt : List Char) (list : VaList) :
    Result (Result (Nat × List Nat) × MBuffer) := do
  let mbuffer ← MutableBuffer.mbufferOpen buffer 0 (bufferLength % 2 ^ 32)
  pure (parsePrintf bufferCallbacks fmt list ⟨mbuffer, []⟩)

/-- `time_format_to_string_sv_callback`. -/
def timeFormatToStringSvCallback : StrftimeCallback MBuffer := fun _ sv cont => do
  let result ← MBuffer.mbufferAppendSv sv
  let full ← (fun s => (.ok s.mbuffer.mbufferFull, s) : Effect MBuffer Bool)
  pure (result, cont && !(result ≠ sv.length || full))

/-- What `time_format_to_string_buffer` does: the appends, and the index of the terminator. -/
structure TimeFormatted where
  result : Result Nat
  mbuffer : MBuffer
  /-- Not written if the engine does not return. -/
  terminator : Option Nat

/-- `time_format_to_string_buffer`. -/
def timeFormatToStringBuffer (bufferIn bufferCap : Nat) (format : List Char) (tm : Tm) :
    Result TimeFormatted :=
  if bufferCap = 0 then .ok ⟨.ok 0, ⟨⟨bufferIn, bufferIn, 0⟩, []⟩, none⟩
  else do
    let mbuffer ← MutableBuffer.mbufferOpen bufferIn 0 (bufferCap % 2 ^ 32)
    match parseStrftimeFormat timeFormatToStringSvCallback format tm ⟨mbuffer, []⟩ with
    | (.ok result, s) => pure ⟨.ok result, s, some s.mbuffer.index⟩
    | (.error e, s) => pure ⟨.error e, s, none⟩

/-! ## Inside the buffer -/

section Bounds

open Effect

variable {base cap index : Nat} {s : MBuffer}

/-- A buffer of `cap` bytes at `base`, filled up to `index`, with all that was stored inside it. -/
structure FilledTo (base cap index : Nat) (s : MBuffer) : Prop where
  begin : s.mbuffer.begin = base
  end_ : s.mbuffer.end_ = (base + cap) % U64
  index_eq : s.mbuffer.index = index
  le : index ≤ cap
  inside : ∀ a ∈ s.appends, a.Inside cap

theorem FilledTo.stored (h : FilledTo base cap index s) (hcap : cap < 2 ^ 32) (length : Nat) :
    (if s.mbuffer.mbufferFreeSpace ≤ length then s.mbuffer.mbufferFreeSpace else length)
      = if index = cap then 0 else min length (2 ^ 32 - (cap - index)) := by
  have hle := h.le
  have hfree : s.mbuffer.mbufferFreeSpace = (2 ^ 32 - (cap - index)) % 2 ^ 32 := by
    unfold MutableBuffer.mbufferFreeSpace MutableBuffer.mbufferCurrentPtr distance
    rw [h.begin, h.end_, h.index_eq]
    unfold U64
    omega
  rw [hfree]
  split_ifs <;> omega

/-- An append that fits. -/
theorem FilledTo.append_fits (h : FilledTo base cap index s) (hcap : cap < 2 ^ 32) {length : Nat}
    (hfits : index + length ≤ cap) (hwhole : length + (cap - index) ≤ 2 ^ 32) (data : List Char) :
    (MBuffer.append length data s).1 = .ok length ∧
      FilledTo base cap (index + length) (MBuffer.append length data s).2 := by
  have hstored := h.stored hcap length
  rw [show (if index = cap then 0 else min length (2 ^ 32 - (cap - index))) = length by
    split_ifs <;> omega] at hstored
  refine ⟨by simp only [MBuffer.append, hstored], h.begin, h.end_, ?_, hfits, ?_⟩
  · simp only [MBuffer.append, hstored, h.index_eq]
    exact Nat.mod_eq_of_lt (by omega)
  · intro a ha
    rcases List.mem_cons.mp ha with rfl | ha
    · intro j hj
      simp only [hstored, h.index_eq] at hj ⊢
      omega
    · exact h.inside a ha

/-- An append that does not fit lands behind the buffer. -/
theorem FilledTo.append_over (h : FilledTo base cap index s) (hcap : cap < 2 ^ 32) {length : Nat}
    (hlt : index < cap) (hover : cap < index + length) (hwhole : length + (cap - index) ≤ 2 ^ 32)
    (data : List Char) : ∃ a ∈ (MBuffer.append length data s).2.appends, ¬ a.Inside cap := by
  have hstored := h.stored hcap length
  refine ⟨_, List.mem_cons_self, ?_⟩
  intro hinside
  have hbyte := hinside (cap - index) (by
    simp only [hstored]
    split_ifs <;> omega)
  simp only [h.index_eq] at hbyte
  omega

/-- To a full buffer nothing is appended. -/
theorem FilledTo.append_full (h : FilledTo base cap cap s) (hcap : cap < 2 ^ 32) (length : Nat)
    (data : List Char) : FilledTo base cap cap (MBuffer.append length data s).2 := by
  have hstored := h.stored hcap length
  rw [if_pos rfl] at hstored
  refine ⟨h.begin, h.end_, ?_, le_rfl, ?_⟩
  · simp only [MBuffer.append, hstored, h.index_eq]
    exact Nat.mod_eq_of_lt (by omega)
  · intro a ha
    rcases List.mem_cons.mp ha with rfl | ha
    · intro j hj
      simp only [hstored] at hj
      omega
    · exact h.inside a ha

/-- The text so far is in the buffer. -/
def Holds (base cap : Nat) (pieces : List (List Char)) (s : MBuffer) : Prop :=
  FilledTo base cap pieces.flatten.length s

/-- A piece has landed behind the buffer, or the buffer is full, or the pieces are of the bad kind. -/
def Parted (base cap : Nat) (bad : List (List Char) → Prop) (pieces : List (List Char))
    (s : MBuffer) : Prop :=
  Straddles cap pieces ∧ (∃ a ∈ s.appends, ¬ a.Inside cap) ∨
    Fills cap pieces ∧ FilledTo base cap cap s ∨ bad pieces

variable {bad : List (List Char) → Prop}

theorem Parted.append {pieces : List (List Char)} (hcap : cap < 2 ^ 32)
    (h : Parted base cap bad pieces s) (length : Nat) (data : List Char) :
    Parted base cap bad pieces (MBuffer.append length data s).2 := by
  rcases h with ⟨hover, a, ha, hout⟩ | ⟨hfull, hstop⟩ | hbad
  · exact .inl ⟨hover, a, List.mem_cons_of_mem _ ha, hout⟩
  · exact .inr (.inl ⟨hfull, hstop.append_full hcap length data⟩)
  · exact .inr (.inr hbad)

/-- What a kind of pieces must be for a run to part there: cut pieces are bad, and stay so. -/
structure Parts (cap : Nat) (bad : List (List Char) → Prop) : Prop where
  cut : ∀ {pieces}, Cut cap pieces → bad pieces
  more : ∀ {pieces} more, bad pieces → bad (pieces ++ more)

theorem Parts.parted (hbad : Parts cap bad) {pieces : List (List Char)}
    (h : Parted base cap bad pieces s) (more : List (List Char)) :
    Parted base cap bad (pieces ++ more) s := by
  rcases h with ⟨hover, hout⟩ | ⟨hfull, hstop⟩ | h
  · exact .inl ⟨hover.append, hout⟩
  · exact .inr (.inl ⟨hfull.append, hstop⟩)
  · exact .inr (.inr (hbad.more _ h))

/-- **A callback that appends its piece goes in step with recording it**, until they part. -/
theorem inStep_append (hcap : cap < 2 ^ 32) (hbad : Parts cap bad) {piece data : List Char}
    {cont : Bool} {m : Effect MBuffer (Nat × Bool)}
    (hstate : ∀ s, (m s).2 = (MBuffer.append (piece.length % 2 ^ 32) data s).2)
    (hresult : ∀ pieces s s', pieces.flatten.length < cap →
      FilledTo base cap pieces.flatten.length s' →
      MBuffer.append (piece.length % 2 ^ 32) data s = (.ok piece.length, s') →
      (m s).1 = .ok (piece.length, cont) ∨ bad pieces) :
    InStep (Holds base cap) (Parted base cap bad)
      (fun pieces => (.ok (piece.length, cont), pieces ++ [piece])) m := by
  refine ⟨?_, fun _ _ h => hbad.parted h _, ?_⟩
  · intro pieces s h
    have hlength : (pieces ++ [piece]).flatten.length = pieces.flatten.length + piece.length := by
      simp
    rcases Nat.lt_or_eq_of_le h.le with hroom | hfull
    · by_cases hcut : 2 ^ 32 < piece.length + (cap - pieces.flatten.length)
      · exact .inr (.inr (.inr (hbad.cut ⟨pieces, piece, [], rfl, hroom, hcut⟩)))
      rw [not_lt] at hcut
      rw [Nat.mod_eq_of_lt (by omega)] at hstate hresult
      rw [hstate]
      by_cases hover : cap < pieces.flatten.length + piece.length
      · exact .inr (.inl ⟨⟨pieces, piece, [], rfl, hroom, hover⟩,
          h.append_over hcap hroom hover hcut data⟩)
      obtain ⟨hall, hdone⟩ := h.append_fits hcap (not_lt.mp hover) hcut data
      rw [← hlength] at hdone hover
      rcases Nat.lt_or_eq_of_le hdone.le with hroom' | hfull
      · rcases hresult (pieces ++ [piece]) s _ hroom' hdone (Prod.ext hall rfl) with hsame | hbad'
        · exact .inl ⟨hsame, hdone⟩
        · exact .inr (.inr (.inr hbad'))
      · exact .inr (.inr (.inl ⟨⟨pieces ++ [piece], [], (List.append_nil _).symm, hfull⟩,
          hfull ▸ hdone⟩))
    · rw [hstate]
      refine .inr (.inr (.inl ⟨⟨pieces, [piece], rfl, hfull⟩, ?_⟩))
      exact FilledTo.append_full (hfull ▸ h) hcap _ data
  · intro pieces s h
    rw [hstate]
    exact h.append hcap _ data

theorem parts_cut (cap : Nat) : Parts cap (Cut cap) :=
  ⟨id, fun _ h => h.append⟩

theorem parts_stalls (cap : Nat) : Parts cap fun pieces => Cut cap pieces ∨ Stalls cap pieces :=
  ⟨.inl, fun _ h => h.imp Cut.append Stalls.append⟩

theorem bufferCallbacks_inStep (hcap : cap < 2 ^ 32) :
    PrintfCallbacks.InStep (Holds base cap) (Parted base cap (Cut cap)) recordCallbacks
      bufferCallbacks := by
  refine ⟨?_, ?_⟩
  · intro info ch amount cont
    have hstep := @inStep_append base cap _ hcap (parts_cut cap) (List.replicate amount ch)
      (List.replicate (amount % 2 ^ 32) ch) cont (bufferCallbacks.writeChar info ch amount cont)
    rw [List.length_replicate] at hstep
    refine hstep (fun _ => rfl) ?_
    intro pieces s s' _ _ hrun
    refine .inl ?_
    simp only [bufferCallbacks, MBuffer.mbufferAppendByte]
    rw [bind_of_ok hrun, decide_eq_true rfl, Bool.and_true]
    rfl
  · intro info sv cont
    refine inStep_append hcap (parts_cut cap) (fun _ => rfl) ?_
    intro pieces s s' _ _ hrun
    refine .inl ?_
    simp only [bufferCallbacks, MBuffer.mbufferAppendSv, MBuffer.mbufferAppendData]
    rw [bind_of_ok hrun, decide_eq_true rfl, Bool.and_true]
    rfl

theorem timeFormatToStringSvCallback_inStep (hcap : cap < 2 ^ 32)
    (info : Option StrftimeSpecInfo) (sv : List Char) (cont : Bool) :
    InStep (Holds base cap) (Parted base cap fun pieces => Cut cap pieces ∨ Stalls cap pieces)
      (recordSvCallback info sv cont) (timeFormatToStringSvCallback info sv cont) := by
  refine inStep_append hcap (parts_stalls cap) (fun _ => rfl) ?_
  intro pieces s s' hroom h hrun
  by_cases hstall : pieces.flatten.length + cap = 2 ^ 32
  · exact .inr (.inr ⟨pieces, [], (List.append_nil _).symm, hroom, hstall⟩)
  -- the capacity comes out as `2 ^ 32 - cap`
  have hfull : s'.mbuffer.mbufferFull = false := by
    unfold MutableBuffer.mbufferFull MutableBuffer.mbufferUsedSize MutableBuffer.mbufferCapacity
      distance
    rw [h.begin, h.end_, h.index_eq]
    refine decide_eq_false ?_
    unfold U64
    omega
  refine .inl ?_
  simp only [timeFormatToStringSvCallback, MBuffer.mbufferAppendSv, MBuffer.mbufferAppendData]
  rw [bind_of_ok hrun]
  change Except.ok (sv.length, cont && !(decide (sv.length ≠ sv.length) || s'.mbuffer.mbufferFull))
    = _
  rw [hfull, decide_eq_false (fun hne => hne rfl), Bool.or_false, Bool.not_false, Bool.and_true]

/-! ## What stays inside -/

theorem open_filledTo (hbase : base < U64) (cap : Nat) :
    ∃ mbuffer, MutableBuffer.mbufferOpen base 0 cap = .ok mbuffer ∧
      FilledTo base cap 0 ⟨mbuffer, []⟩ :=
  ⟨_, if_pos ⟨Nat.zero_le _, hbase⟩, rfl, rfl, rfl, Nat.zero_le _, fun _ ha => by cases ha⟩

variable {α : Type} {m : Effect (List (List Char)) α} {m' : Effect MBuffer α}

/-- Where a run ends that starts with an empty buffer. -/
theorem inStep_ends (h : InStep (Holds base cap) (Parted base cap bad) m m')
    (hs : FilledTo base cap 0 s) (hbad : ¬ bad (m []).2) :
    (Straddles cap (m []).2 ∧ ∃ a ∈ (m' s).2.appends, ¬ a.Inside cap) ∨
      ¬ Straddles cap (m []).2 ∧ FilledTo base cap (min cap (m []).2.flatten.length) (m' s).2 := by
  rcases h.run [] s hs with ⟨-, hin⟩ | hover | ⟨hfull, hstop⟩ | hbad'
  · have hle := hin.le
    refine .inr ⟨fun hover => absurd hover.lt (not_lt.mpr hle), ?_⟩
    rw [Nat.min_eq_right hle]
    exact hin
  · exact .inl hover
  · rw [Nat.min_eq_left hfull.le]
    exact .inr ⟨hfull.not_straddles, hstop⟩
  · exact absurd hbad' hbad

theorem formatToBuffer_ends (hbase : base < U64) (length : Nat) (fmt : List Char) (list : VaList)
    (hcut : ¬ Cut (length % 2 ^ 32) (printfPieces fmt list)) :
    ∃ r s, formatToBuffer base length fmt list = .ok (r, s) ∧
      ((Straddles (length % 2 ^ 32) (printfPieces fmt list) ∧
          ∃ a ∈ s.appends, ¬ a.Inside (length % 2 ^ 32)) ∨
        ¬ Straddles (length % 2 ^ 32) (printfPieces fmt list) ∧
          FilledTo base (length % 2 ^ 32)
            (min (length % 2 ^ 32) (printfPieces fmt list).flatten.length) s) := by
  have hcap : length % 2 ^ 32 < 2 ^ 32 := Nat.mod_lt _ (by decide)
  obtain ⟨mbuffer, hopen, hs⟩ := open_filledTo hbase (length % 2 ^ 32)
  exact ⟨_, _, bind_eq_ok.mpr ⟨mbuffer, hopen, rfl⟩,
    inStep_ends (parsePrintf_inStep (bufferCallbacks_inStep hcap) fmt list) hs hcut⟩

/-- The terminator is put where the text ends. -/
theorem timeFormatToStringBuffer_ends (hbase : base < U64) {length : Nat} (hpos : length ≠ 0)
    (format : List Char) (tm : Tm) (hcut : ¬ Cut (length % 2 ^ 32) (timePieces format tm))
    (hstall : ¬ Stalls (length % 2 ^ 32) (timePieces format tm)) :
    ∃ t, timeFormatToStringBuffer base length format tm = .ok t ∧
      (∀ i, t.terminator = some i → i = t.mbuffer.mbuffer.index) ∧
      ((Straddles (length % 2 ^ 32) (timePieces format tm) ∧
          ∃ a ∈ t.mbuffer.appends, ¬ a.Inside (length % 2 ^ 32)) ∨
        ¬ Straddles (length % 2 ^ 32) (timePieces format tm) ∧
          FilledTo base (length % 2 ^ 32)
            (min (length % 2 ^ 32) (timePieces format tm).flatten.length) t.mbuffer) := by
  have hcap : length % 2 ^ 32 < 2 ^ 32 := Nat.mod_lt _ (by decide)
  obtain ⟨mbuffer, hopen, hs⟩ := open_filledTo hbase (length % 2 ^ 32)
  have hends := inStep_ends (parseStrftimeFormat_inStep
    (timeFormatToStringSvCallback_inStep hcap) format tm) hs (not_or.mpr ⟨hcut, hstall⟩)
  rw [timeFormatToStringBuffer, if_neg hpos, hopen, ok_bind]
  rcases hrun : parseStrftimeFormat timeFormatToStringSvCallback format tm ⟨mbuffer, []⟩ with
    ⟨e | result, s⟩
  · rw [hrun] at hends
    exact ⟨_, rfl, fun _ hi => (by cases hi), hends⟩
  · rw [hrun] at hends
    exact ⟨_, rfl, fun _ hi => (Option.some.inj hi).symm, hends⟩

/--
**When writes stay inside a buffer.** In a run of buffer calls every append is exact if, and only if,
it fits. A formatted text, no piece of which is cut short, stays inside if no piece straddles the end
of the buffer as it is opened, and only then if the length has 32 bits; a time must in addition be
shorter than the buffer, for its terminator.
-/
theorem buffer_writes_inside_iff (hbase : base < U64) (length : Nat) :
    (∀ used mbuffer calls, length < 2 ^ 32 →
      MutableBuffer.mbufferOpen base used length = .ok mbuffer →
      ((∀ a ∈ (MBuffer.Call.run ⟨mbuffer, []⟩ calls).appends, a.Fits length) ↔
        (MBuffer.Call.run ⟨mbuffer, []⟩ calls).mbuffer.index ≤ length ∧
          ∀ a ∈ (MBuffer.Call.run ⟨mbuffer, []⟩ calls).appends, a.Exact length)) ∧
    (∀ fmt list, ¬ Cut (length % 2 ^ 32) (printfPieces fmt list) →
      ∃ r s, formatToBuffer base length fmt list = .ok (r, s) ∧
        (¬ Straddles (length % 2 ^ 32) (printfPieces fmt list) → ∀ a ∈ s.appends, a.Inside length) ∧
        (length < 2 ^ 32 → (∀ a ∈ s.appends, a.Inside length) →
          ¬ Straddles length (printfPieces fmt list))) ∧
    ∀ format tm, ¬ Cut (length % 2 ^ 32) (timePieces format tm) →
      ¬ Stalls (length % 2 ^ 32) (timePieces format tm) →
      ∃ t, timeFormatToStringBuffer base length format tm = .ok t ∧
        (¬ Straddles (length % 2 ^ 32) (timePieces format tm) →
          (∀ a ∈ t.mbuffer.appends, a.Inside length) ∧
            ((timePieces format tm).flatten.length < length % 2 ^ 32 →
              ∀ i, t.terminator = some i → i < length)) ∧
        (length < 2 ^ 32 → (∀ a ∈ t.mbuffer.appends, a.Inside length) →
          ¬ Straddles length (timePieces format tm) ∧
            ∀ i, t.terminator = some i → i < length →
              (timePieces format tm).flatten.length < length) := by
  have hle : length % 2 ^ 32 ≤ length := Nat.mod_le _ _
  have hinside {a : Append} (h : a.Inside (length % 2 ^ 32)) : a.Inside length :=
    fun j hj => (h j hj).trans_le hle
  refine ⟨?_, ?_, ?_⟩
  · intro used mbuffer calls hcap hopen
    exact (MBuffer.Call.run_inv hcap calls (MBuffer.open_inv hcap hopen)).exact_iff hcap
  · intro fmt list hcut
    obtain ⟨r, s, hrun, hends⟩ := formatToBuffer_ends hbase length fmt list hcut
    refine ⟨r, s, hrun, ?_⟩
    rcases hends with ⟨hover, a, ha, hout⟩ | ⟨hno, hin⟩
    · refine ⟨fun hno => absurd hover hno, ?_⟩
      intro hshort hall
      rw [Nat.mod_eq_of_lt hshort] at hout
      exact absurd (hall a ha) hout
    · refine ⟨fun _ a ha => hinside (hin.inside a ha), ?_⟩
      intro hshort _
      rwa [Nat.mod_eq_of_lt hshort] at hno
  · intro format tm hcut hstall
    by_cases hpos : length = 0
    · -- nothing is written to a buffer without bytes
      subst hpos
      refine ⟨_, rfl, fun _ => ⟨fun a ha => (by cases ha), fun _ i hi => (by cases hi)⟩, ?_⟩
      intro _ _
      refine ⟨?_, fun i hi => (by cases hi)⟩
      intro hover
      obtain ⟨front, piece, rest, -, hlt, -⟩ := hover
      exact absurd hlt (Nat.not_lt_zero _)
    obtain ⟨t, hrun, hterm, hends⟩ :=
      timeFormatToStringBuffer_ends hbase hpos format tm hcut hstall
    refine ⟨t, hrun, ?_⟩
    rcases hends with ⟨hover, a, ha, hout⟩ | ⟨hno, hin⟩
    · refine ⟨fun hno => absurd hover hno, ?_⟩
      intro hshort hall
      rw [Nat.mod_eq_of_lt hshort] at hout
      exact absurd (hall a ha) hout
    · have hindex (i : Nat) (hi : t.terminator = some i) :
          i = min (length % 2 ^ 32) (timePieces format tm).flatten.length :=
        (hterm i hi).trans hin.index_eq
      refine ⟨fun _ => ⟨fun a ha => hinside (hin.inside a ha), ?_⟩, ?_⟩
      · intro htext i hi
        have heq := hindex i hi
        omega
      · intro hshort _
        rw [Nat.mod_eq_of_lt hshort] at hno hindex
        refine ⟨hno, ?_⟩
        intro i hi hlt
        have heq := hindex i hi
        omega

/-- A text into a buffer of eight bytes, and the name of a day into one of sixteen. -/
theorem buffer_writes_inside_iff_short :
    (∃ r s, formatToBuffer 4096 8 "hi %%".toList ⟨fun _ => ⟨0, []⟩, 0⟩ = .ok (r, s) ∧
      ∀ a ∈ s.appends, a.Inside 8) ∧
    ∃ t, timeFormatToStringBuffer 4096 16 "%A".toList ⟨0, 0, 0, 1, 0, 0, 1, 0⟩ = .ok t ∧
      ∀ a ∈ t.mbuffer.appends, a.Inside 16 := by
  have hbase : 4096 < U64 := by decide
  constructor
  · have htext : (printfPieces "hi %%".toList ⟨fun _ => ⟨0, []⟩, 0⟩).flatten.length = 4 := by rfl
    have hcut : ¬ Cut 8 (printfPieces "hi %%".toList ⟨fun _ => ⟨0, []⟩, 0⟩) := by
      intro hcut
      have hlong := hcut.lt
      omega
    obtain ⟨r, s, hrun, hinside, -⟩ := (buffer_writes_inside_iff hbase 8).2.1 _ _ hcut
    refine ⟨r, s, hrun, hinside ?_⟩
    intro hover
    have hlong := hover.lt
    omega
  · have htext : (timePieces "%A".toList ⟨0, 0, 0, 1, 0, 0, 1, 0⟩).flatten.length = 6 := by rfl
    have hcut : ¬ Cut 16 (timePieces "%A".toList ⟨0, 0, 0, 1, 0, 0, 1, 0⟩) := by
      intro hcut
      have hlong := hcut.lt
      omega
    have hstall : ¬ Stalls 16 (timePieces "%A".toList ⟨0, 0, 0, 1, 0, 0, 1, 0⟩) := by
      intro hstall
      have hlong := hstall.le
      omega
    obtain ⟨t, hrun, hinside, -⟩ := (buffer_writes_inside_iff hbase 16).2.2 _ _ hcut hstall
    refine ⟨t, hrun, (hinside ?_).1⟩
    intro hover
    have hlong := hover.lt
    omega

/-- Five characters into a buffer of four: the last one lands behind it. -/
theorem format_overruns_buffer : ∃ r s,
    formatToBuffer 4096 4 "hello".toList ⟨fun _ => ⟨0, []⟩, 0⟩ = .ok (r, s) ∧
      ∃ a ∈ s.appends, ¬ a.Inside 4 := by
  have hrun : (formatToBuffer 4096 4 "hello".toList ⟨fun _ => ⟨0, []⟩, 0⟩).map
      (fun r => r.2.appends.map fun a => (a.index, a.stored)) = .ok [(0, 5)] := by rfl
  obtain ⟨⟨r, s⟩, hformat, happends⟩ := map_eq_ok.mp hrun
  refine ⟨r, s, hformat, ?_⟩
  have hmem : (0, 5) ∈ s.appends.map fun a => (a.index, a.stored) := by
    rw [happends]
    exact List.mem_cons_self
  obtain ⟨a, ha, he⟩ := List.mem_map.mp hmem
  rw [Prod.mk.injEq] at he
  refine ⟨a, ha, ?_⟩
  intro hinside
  have hbyte := hinside 4 (by omega)
  omega

end Bounds

end OsKernel.Lib
