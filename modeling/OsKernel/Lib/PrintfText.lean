import OsKernel.Lib.NumText
import OsKernel.Lib.ParsePrintf

/-!
# What the printf engine writes

With callbacks that take everything, `parse_printf` writes a text that its format and its
arguments determine. Between two specifications the engine keeps a buffer, a count and
the values stored by `%n`; none of them matters for the text, so a specification can be
understood on its own: `turn` is what one of them writes and where it goes on, and `Emits`
is the text of a whole format.

Arguments are read in order, so a text depends on the arguments up to some place only.
-/

namespace OsKernel.Lib

open Effect List Nat

variable {text iter : List Char} {convert : Nat → Nat} {st : PrintfState} {list : VaList}

/-! ## Arguments in order -/

/-- The list after some arguments were taken. -/
def VaList.skip (list : VaList) (k : Nat) : VaList := { list with next := list.next + k }

/-- The next arguments of two lists are the same. -/
def VaList.Agree (k : Nat) (list list' : VaList) : Prop :=
  ∀ i < k, list.arg (list.next + i) = list'.arg (list'.next + i)

section Args

variable {list' : VaList} {j k : Nat}

@[simp] theorem VaList.skip_skip : (list.skip j).skip k = list.skip (j + k) := by
  simp [VaList.skip, add_assoc]

theorem VaList.Agree.refl (k : Nat) (list : VaList) : list.Agree k list := fun _ _ => rfl

theorem VaList.Agree.mono (h : VaList.Agree k list list') (hj : j ≤ k) : VaList.Agree j list list' :=
  fun i hi => h i (by omega)

theorem VaList.Agree.skip (h : VaList.Agree (j + k) list list') :
    VaList.Agree k (list.skip j) (list'.skip j) := by
  intro i hi
  have hnext := h (j + i) (by omega)
  rwa [← add_assoc, ← add_assoc] at hnext

theorem VaList.Agree.pop_eq (h : VaList.Agree (k + 1) list list') :
    list'.pop = (list.pop.1, list'.skip 1) := by
  have hfirst := h 0 (by omega)
  rw [add_zero, add_zero] at hfirst
  rw [VaList.pop, VaList.pop, hfirst]
  rfl

end Args

/-! ## Reading a specification -/

theorem parseFlags_suffix {info info' : PrintfSpecInfo} {iter' : List Char}
    (h : parseFlags info iter = some (info', iter')) : iter' <:+ iter := by
  induction iter generalizing info with
  | nil =>
    cases h
    exact suffix_refl _
  | cons c rest ih =>
    rw [parseFlags] at h
    split at h
    · cases h
      exact suffix_refl _
    · split at h
      · cases h
      · exact (ih h).trans (suffix_cons c rest)

theorem readIntFromFmtString_suffix (result : Nat) (iter : List Char) :
    (readIntFromFmtString result iter).2.getD iter <:+ iter := by
  induction iter generalizing result with
  | nil => exact suffix_refl _
  | cons c rest ih =>
    rw [readIntFromFmtString]
    split
    · exact suffix_refl _
    · split
      · exact suffix_refl _
      · -- at the end of the format the pointer stays where it was
        have htail := ih (result * 10 + (c.toNat + 256 - '0'.toNat) % 256)
        cases hout : (readIntFromFmtString (result * 10 + (c.toNat + 256 - '0'.toNat) % 256) rest).2 with
        | none => exact suffix_refl _
        | some out =>
          rw [hout] at htail
          exact htail.trans (suffix_cons c rest)

/--
What is read from a list depends on some arguments at its front only. The rest of the list is
handed on, by `put`, with what was read.
-/
def Reads {α β : Type} (list : VaList) (put : VaList → α → β) (good : α → Prop)
    (read : VaList → Option β) : Prop :=
  ∃ (k : Nat) (r : Option α), (∀ a ∈ r, good a) ∧
    ∀ list', VaList.Agree k list list' → read list' = r.map (put (list'.skip k))

section Reads

variable {α β γ δ : Type} {put : VaList → α → β} {good : α → Prop}
  {read : VaList → Option β}

theorem reads_none (h : ∀ list', read list' = none) : Reads list put good read :=
  ⟨0, none, nofun, fun list' _ => h list'⟩

theorem reads_some {a : α} (k : Nat) (ha : good a)
    (h : ∀ list', VaList.Agree k list list' → read list' = some (put (list'.skip k) a)) :
    Reads list put good read :=
  ⟨k, some a, fun _ hmem => Option.mem_some_iff.mp hmem ▸ ha, h⟩

theorem Reads.bind {put' : VaList → γ → δ} {good' : γ → Prop}
    {next : β → Option δ} (h : Reads list put good read)
    (hnext : ∀ a list₁, good a → Reads list₁ put' good' fun list' => next (put list' a)) :
    Reads list put' good' fun list' => read list' >>= next := by
  obtain ⟨k, r, hgood, hread⟩ := h
  cases r with
  | none =>
    refine ⟨k, none, nofun, fun list' hagree => ?_⟩
    beta_reduce
    rw [hread list' hagree]
    rfl
  | some a =>
    obtain ⟨k', r', hgood', hread'⟩ := hnext a (list.skip k) (hgood a rfl)
    refine ⟨k + k', r', hgood', fun list' hagree => ?_⟩
    beta_reduce
    rw [hread list' (hagree.mono (le_add_right k k')), ← VaList.skip_skip]
    exact hread' _ hagree.skip

end Reads

/-- What `parse_width` and `parse_precision` hand on. -/
def withList (list : VaList) (read : PrintfSpecInfo × List Char) : PrintfSpecInfo × VaList × List Char :=
  (read.1, list, read.2)

theorem parseWidth_reads (info : PrintfSpecInfo) (list : VaList) (iter : List Char) :
    Reads list withList (fun read => read.2 <:+ iter) fun list' => parseWidth info list' iter := by
  have hnumber := readIntFromFmtString_suffix 0 iter
  unfold parseWidth
  split
  · simp only
    split
    · exact reads_none fun _ => rfl
    · split
      · exact reads_none fun _ => rfl
      · exact reads_some (a := (_, _)) 0 hnumber fun _ _ => rfl
  · simp only
    split
    · exact reads_none fun _ => rfl
    · refine reads_some (a := ({ info with width := (toSigned 32 list.pop.1.word).toNat }, iter.tail)) 1
        (tail_suffix iter) fun list' hagree => ?_
      rw [hagree.pop_eq]
      rfl

theorem parsePrecision_reads (info : PrintfSpecInfo) (list : VaList) (iter : List Char) :
    Reads list withList (fun read => read.2 <:+ iter) fun list' => parsePrecision info list' iter := by
  have htail := tail_suffix iter
  unfold parsePrecision
  split
  · exact reads_some (a := (_, _)) 0 (suffix_refl iter) fun _ _ => rfl
  · split
    · exact reads_none fun _ => rfl
    · rename_i rest heq
      split
      · exact reads_none fun _ => rfl
      · refine reads_some (a := ({ info with precision := toSigned 32 list.pop.1.word }, rest)) 1 ?_
          fun list' hagree => ?_
        · exact (heq ▸ suffix_cons _ rest : rest <:+ iter.tail).trans htail
        · simp only [hagree.pop_eq]
          rfl
    · have hnumber := (readIntFromFmtString_suffix 0 iter.tail).trans htail
      simp only
      split
      · exact reads_none fun _ => rfl
      · split
        · exact reads_none fun _ => rfl
        · exact reads_some (a := (_, _)) 0 hnumber fun _ _ => rfl

theorem signExtend_lt (bits word : Nat) : signExtend bits word < 2 ^ 64 := by
  unfold signExtend
  omega

/-- What `parse_length` hands on. -/
def ParsedLength.withList (list : VaList) (parsed : ParsedLength) : ParsedLength :=
  { parsed with list := list }

/-- The number has 64 bits, and the specifier is in the format. -/
def ParsedLength.Within (iter : List Char) (parsed : ParsedLength) : Prop :=
  parsed.number < 2 ^ 64 ∧ parsed.iter <:+ iter

theorem ParsedLength.take_reads (info : PrintfSpecInfo) {lengthSv rest : List Char}
    (list : VaList) (hconvert : ∀ word, convert word < 2 ^ 64) (hrest : rest <:+ iter) :
    Reads list ParsedLength.withList (ParsedLength.Within iter) fun list' =>
      some (.take info lengthSv rest list' convert) := by
  refine reads_some (a := .take info lengthSv rest list convert) 1 ⟨hconvert _, hrest⟩
    fun list' hagree => ?_
  rw [ParsedLength.take, hagree.pop_eq]
  rfl

theorem parseLength_reads (fmt : List Char) (info : PrintfSpecInfo) (iter : List Char) (list : VaList) :
    Reads list ParsedLength.withList (ParsedLength.Within iter) fun list' =>
      parseLength fmt info iter list' := by
  have hword : ∀ word : Nat, word % 2 ^ 64 < 2 ^ 64 := fun word => mod_lt word (by decide)
  have hone : ∀ (c : Char) (rest : List Char), rest <:+ c :: rest := suffix_cons
  have htwo : ∀ (c c' : Char) (rest : List Char), rest <:+ c :: c' :: rest :=
    fun c c' rest => (hone c' rest).trans (hone c _)
  unfold parseLength
  split
  · exact reads_none fun _ => rfl
  · exact reads_none fun _ => rfl
  · exact ParsedLength.take_reads info list (signExtend_lt 8) (htwo _ _ _)
  · exact ParsedLength.take_reads info list (signExtend_lt 16) (hone _ _)
  · exact reads_none fun _ => rfl
  · exact ParsedLength.take_reads info list hword (htwo _ _ _)
  · exact ParsedLength.take_reads info list hword (hone _ _)
  · exact ParsedLength.take_reads info list hword (hone _ _)
  · exact ParsedLength.take_reads info list hword (hone _ _)
  · exact ParsedLength.take_reads info list hword (hone _ _)
  · exact reads_some (a := { currSpec := { info with lengthSv := [] }, iter := _, list := list }) 0
      ⟨Nat.two_pow_pos 64, suffix_refl _⟩ fun _ _ => rfl

/-- **A specification is read in the same way wherever its arguments are found.** -/
theorem parseSpec_reads (fmt iter : List Char) (list : VaList) :
    Reads list ParsedLength.withList (ParsedLength.Within iter) fun list' => parseSpec fmt {} list' iter := by
  unfold parseSpec
  cases hflags : parseFlags {} iter with
  | none => exact reads_none fun _ => rfl
  | some flags =>
    obtain ⟨info, iter₁⟩ := flags
    have hflags := parseFlags_suffix hflags
    refine (parseWidth_reads info list iter₁).bind fun width list₁ hwidth => ?_
    refine (parsePrecision_reads width.1 list₁ width.2).bind fun precision list₂ hprecision => ?_
    obtain ⟨k, r, hgood, hread⟩ := parseLength_reads fmt precision.1 precision.2 list₂
    refine ⟨k, r, fun parsed hmem => ?_, hread⟩
    obtain ⟨hnumber, hsuffix⟩ := hgood parsed hmem
    exact ⟨hnumber, hsuffix.trans (hprecision.trans (hwidth.trans hflags))⟩

/-! ## Handling a specification -/

/-- The text that is stored does not depend on what the buffer held. -/
def Stores (store : CharBuffer → Result (List Char × CharBuffer)) : Prop :=
  ∃ text, ∀ buffer, MAX_CONVERT_CAP ≤ buffer.cap →
    ∃ buffer', store buffer = .ok (text, buffer') ∧ buffer'.cap = buffer.cap

theorem unsignedToStringView_stores {number : Nat} {base : NumericBase} {options : NumToStrOptions}
    (hnumber : number < 2 ^ 64) (hbase : base ≠ .base36) (hletter : HasLetter base options) :
    Stores fun buffer => unsignedToStringView number base buffer options :=
  ⟨_, fun _ hcap => unsignedToStringView_text hletter hcap hnumber hbase⟩

theorem signedToStringView_stores {number : Int} {base : NumericBase} {options : NumToStrOptions}
    (hlow : -2 ^ 63 ≤ number) (hhigh : number < 2 ^ 63) (hpre : options.includePrefix = false) :
    Stores fun buffer => signedToStringView number base buffer options := by
  rcases lt_or_ge number 0 with hneg | hnonneg
  · obtain ⟨n, rfl⟩ : ∃ n : Nat, number = -n := ⟨number.natAbs, by omega⟩
    exact ⟨_, fun _ hcap => signedToStringView_text_neg hpre hcap (by omega) (by omega)⟩
  · obtain ⟨n, rfl⟩ := Int.eq_ofNat_of_zero_le hnonneg
    exact ⟨_, fun _ hcap => signedToStringView_text (hasLetter_of_plain hpre) hcap (by omega)⟩

/-- The part of `HandledSpec` that the text is made from. -/
structure SpecOutcome where
  result : HandleSpecResult
  parsed : List Char := []
  isZero : Bool
  isNull : Bool := false

/-- What `handle_spec` returns and stores where this is the outcome. -/
def SpecOutcome.handled (outcome : SpecOutcome) (buffer : CharBuffer) (list : VaList)
    (count : Option Nat) : HandledSpec where
  result := outcome.result
  buffer := buffer
  list := list
  parsed := outcome.parsed
  isZero := outcome.isZero
  isNull := outcome.isNull
  count := count

/--
What a specification comes to depends on some arguments at the front of the list, not on the
buffer and the count.
-/
def Settles (list : VaList) (handle : CharBuffer → VaList → Nat → Result HandledSpec) : Prop :=
  ∃ (k : Nat) (outcome : SpecOutcome), ∀ list' buffer writtenOut, VaList.Agree k list list' →
    MAX_CONVERT_CAP ≤ buffer.cap → ∃ (buffer' : CharBuffer) (count : Option Nat),
      buffer'.cap = buffer.cap ∧
      handle buffer list' writtenOut = .ok (outcome.handled buffer' (list'.skip k) count)

section Settles

variable {info : PrintfSpecInfo} {number : Nat}
  {handle : CharBuffer → VaList → Nat → Result HandledSpec}

theorem settles_of_eq (k : Nat) (outcome : SpecOutcome) (count : Nat → Option Nat)
    (h : ∀ list' buffer writtenOut, VaList.Agree k list list' →
      handle buffer list' writtenOut = .ok (outcome.handled buffer (list'.skip k) (count writtenOut))) :
    Settles list handle :=
  ⟨k, outcome, fun list' buffer writtenOut hagree _ =>
    ⟨buffer, count writtenOut, rfl, h list' buffer writtenOut hagree⟩⟩

theorem settles_of_stores (k : Nat) (isZero : Bool) {store : CharBuffer → Result (List Char × CharBuffer)}
    (hstore : Stores store)
    (h : ∀ list' buffer writtenOut text buffer', VaList.Agree k list list' →
      store buffer = .ok (text, buffer') → handle buffer list' writtenOut =
        .ok (SpecOutcome.handled ⟨.ok, text, isZero, false⟩ buffer' (list'.skip k) none)) :
    Settles list handle := by
  obtain ⟨text, htext⟩ := hstore
  refine ⟨k, ⟨.ok, text, isZero, false⟩, fun list' buffer writtenOut hagree hcap => ?_⟩
  obtain ⟨buffer', hstore, hcap'⟩ := htext buffer hcap
  exact ⟨buffer', none, hcap', h list' buffer writtenOut text buffer' hagree hstore⟩

theorem settles_of_store (k : Nat) (isZero : Bool) (c : Char)
    (h : ∀ list' buffer writtenOut buffer', VaList.Agree k list list' → buffer.store 0 c = .ok buffer' →
      handle buffer list' writtenOut =
        .ok (SpecOutcome.handled ⟨.ok, [c], isZero, false⟩ buffer' (list'.skip k) none)) :
    Settles list handle := by
  refine ⟨k, ⟨.ok, [c], isZero, false⟩, fun list' buffer writtenOut hagree hcap => ?_⟩
  have hpos : 0 < MAX_CONVERT_CAP := by decide
  exact ⟨buffer.put 0 c, none, rfl,
    h list' buffer writtenOut _ hagree (CharBuffer.store_ok (by omega))⟩

variable {isZero : Bool}

theorem handleInt_settles {print : Nat → CharBuffer → Result (List Char × CharBuffer)}
    (hnumber : number < 2 ^ 64) (hconvert : ∀ word, convert word < 2 ^ 64)
    (hprint : ∀ n < 2 ^ 64, Stores (print n)) :
    Settles list fun buffer list' _ => handleInt info buffer number isZero list' convert print := by
  unfold handleInt
  split
  · refine settles_of_stores 1 (convert list.pop.1.word = 0) (hprint (convert list.pop.1.word) (hconvert _))
      fun list' buffer _ text buffer' hagree hstore => ?_
    simp only [hagree.pop_eq, hstore, ok_bind]
    rfl
  · refine settles_of_stores 0 isZero (hprint number hnumber) fun list' buffer _ text buffer' _ hstore => ?_
    simp only [hstore, ok_bind]
    rfl

theorem toSigned_bounds (word : Nat) : -2 ^ 63 ≤ toSigned 64 word ∧ toSigned 64 word < 2 ^ 63 := by
  unfold toSigned
  split <;> omega

/-- **What `handle_spec` makes of a specification** depends on the specification and its arguments. -/
theorem handleSpec_settles (hnumber : number < 2 ^ 64) :
    Settles list fun buffer list' writtenOut =>
      handleSpec info buffer number list' writtenOut isZero := by
  have hunsigned : ∀ (base : NumericBase) (options : NumToStrOptions), base ≠ .base36 →
      options.includePrefix = false →
      Settles list fun buffer list' _ => handleInt info buffer number isZero list' (· % 2 ^ 32)
        fun number buffer => unsignedToStringView number base buffer options := by
    intro base options hbase hno
    refine handleInt_settles hnumber (fun word => ?_) fun n hn =>
      unsignedToStringView_stores hn hbase (hasLetter_of_plain hno)
    omega
  have hsigned : Settles list fun buffer list' _ =>
      handleInt info buffer number isZero list' (signExtend 32) fun number buffer =>
        signedToStringView (toSigned 64 number) .base10 buffer { includePosSign := info.addPosSign } :=
    handleInt_settles hnumber (signExtend_lt 32) fun n _ =>
      signedToStringView_stores (toSigned_bounds n).1 (toSigned_bounds n).2 rfl
  by_cases hspec : info.spec ∈ ['\x00', 'b', 'B', 'd', 'i', 'u', 'o', 'x', 'X', 'c', 's', 'p', 'n', '%']
  · simp only [mem_cons, not_mem_nil, or_false] at hspec
    rcases hspec with h | h | h | h | h | h | h | h | h | h | h | h | h | h <;>
      simp only [handleSpec, h]
    · exact settles_of_eq 0 ⟨.reachedEnd, [], isZero, false⟩ (fun _ => none) fun _ _ _ _ => rfl
    · exact hunsigned .base2 {} (by decide) rfl
    · exact hunsigned .base2 { capitalize := true } (by decide) rfl
    · exact hsigned
    · exact hsigned
    · exact hunsigned .base10 {} (by decide) rfl
    · exact hunsigned .base8 {} (by decide) rfl
    · exact hunsigned .base16 {} (by decide) rfl
    · exact hunsigned .base16 { capitalize := true } (by decide) rfl
    · refine settles_of_store 1 isZero (Char.ofNat (list.pop.1.word % 2 ^ 8))
        fun list' buffer _ buffer' hagree hstore => ?_
      simp only [hagree.pop_eq, hstore, ok_bind]
      rfl
    · by_cases hnull : list.pop.1.word % 2 ^ 64 ≠ 0
      · refine settles_of_eq 1 ⟨.ok, if 0 ≤ info.precision then
            list.pop.1.text.take info.precision.toNat else list.pop.1.text, isZero, false⟩
          (fun _ => none) fun list' _ _ hagree => ?_
        simp only [hagree.pop_eq, if_pos hnull]
        rfl
      · refine settles_of_eq 1 ⟨.ok, "(null)".toList, isZero, true⟩ (fun _ => none)
          fun list' _ _ hagree => ?_
        simp only [hagree.pop_eq, if_neg hnull]
        rfl
    · by_cases hnull : list.pop.1.word % 2 ^ 64 ≠ 0
      · have hstores := @unsignedToStringView_stores (list.pop.1.word % 2 ^ 64) .base16
          { capitalize := true, includePrefix := true } (mod_lt _ (by decide)) (by decide)
          fun _ => ⟨by decide, by decide⟩
        refine settles_of_stores 1 isZero hstores fun list' buffer _ text buffer' hagree hstore => ?_
        simp only [hagree.pop_eq, if_pos hnull, hstore, ok_bind]
        rfl
      · refine settles_of_eq 1 ⟨.ok, "(nil)".toList, isZero, true⟩ (fun _ => none)
          fun list' _ _ hagree => ?_
        simp only [hagree.pop_eq, if_neg hnull]
        rfl
    · by_cases hcount : storesCount info.lengthSv
      · refine settles_of_eq 1 ⟨.continue_, [], isZero, false⟩ some fun list' _ _ hagree => ?_
        simp only [hagree.pop_eq, if_pos hcount]
        rfl
      · refine settles_of_eq 0 ⟨.ok, [], isZero, false⟩ (fun _ => none) fun _ _ _ _ => ?_
        simp only [if_neg hcount]
        rfl
    · refine settles_of_store 0 isZero '%' fun list' buffer _ buffer' _ hstore => ?_
      simp only [hstore, ok_bind]
      rfl
  · refine settles_of_eq 0 ⟨.continue_, [], isZero, false⟩ (fun _ => none) fun _ _ _ _ => ?_
    unfold handleSpec
    split <;> first | rfl | simp_all

end Settles

/-! ## The text of a specification -/

/-- What `write_prefix_for_spec` writes. -/
def specPrefix (info : PrintfSpecInfo) : List Char :=
  if !info.addBasePrefix then []
  else
    match info.spec with
    | 'b' => ['0', 'b']
    | 'B' => ['0', 'B']
    | 'o' => ['0']
    | 'x' => ['0', 'x']
    | 'X' => ['0', 'X']
    | _ => []

/-- What `pad_with_lead_zeros` writes, and what it leaves. -/
def leadZeros (info : PrintfSpecInfo) (parsed : List Char) (zeroCount : Nat) (isNull : Bool) :
    List Char × List Char :=
  let pre := if !isNull then specPrefix info else []
  if zeroCount = 0 then (pre, parsed)
  else if charAt parsed = '+' ∨ charAt parsed = '-' then
    (pre ++ charAt parsed :: List.replicate zeroCount '0', parsed.tail)
  else (pre ++ List.replicate zeroCount '0', parsed)

/-- The text without the spaces next to it. -/
def parsedText (info : PrintfSpecInfo) (pad : Padding) (parsed : List Char) (isNull : Bool) : List Char :=
  let (lead, left) := leadZeros info parsed pad.paddedZeroCount isNull
  if pad.shouldWriteParsed then lead ++ left else lead

/-- What is written for a specification. -/
def specText (info : PrintfSpecInfo) (pad : Padding) (parsed : List Char) (isNull : Bool) : List Char :=
  let spaces := List.replicate pad.spacePadCount ' '
  if info.leftJustify then parsedText info pad parsed isNull ++ spaces
  else spaces ++ parsedText info pad parsed isNull

/-- Callbacks that take everything they are given. -/
structure PrintfCallbacks.Accept {σ : Type} (cb : PrintfCallbacks σ) (out : σ → List Char) : Prop where
  writeChar : ∀ info ch amount,
    Appends out (cb.writeChar info ch amount true) (List.replicate amount ch) (amount, true)
  writeSv : ∀ info sv, Appends out (cb.writeSv info sv true) sv (sv.length, true)

/-- The state after a text was written. -/
def PrintfState.after (st : PrintfState) (text : List Char) : PrintfState := st.wrote (text.length, true)

/-- Nothing has stopped the loop, and the buffer is the one it started with. -/
structure PrintfState.Ready (st : PrintfState) : Prop where
  cont : st.shouldContinue = true
  count : st.writtenOut < 2 ^ 64
  cap : MAX_CONVERT_CAP ≤ st.buffer.cap

section State

variable {text' : List Char}

theorem PrintfState.after_append : (st.after text).after text' = st.after (text ++ text') := by
  simp only [PrintfState.after, PrintfState.wrote, length_append, mod_add_mod, add_assoc]

theorem PrintfState.Ready.after_nil (h : st.Ready) : st.after [] = st := by
  have hcount := mod_eq_of_lt h.count
  simp only [PrintfState.after, PrintfState.wrote, length_nil, add_zero, hcount, ← h.cont]

theorem PrintfState.Ready.after (h : st.Ready) (text : List Char) : (st.after text).Ready :=
  ⟨rfl, mod_lt _ (by decide), h.cap⟩

end State

section Writing

variable {σ : Type} {cb : PrintfCallbacks σ} {out : σ → List Char} (hcb : cb.Accept out)
include hcb

theorem callCb_appends (info : Option PrintfSpecInfo) (sv : List Char) :
    Appends out (callCb cb info sv true) sv (sv.length, true) := by
  unfold callCb
  split
  · exact appends_pure _
  · exact hcb.writeChar info _ 1
  · exact hcb.writeSv info _

section

variable (info : PrintfSpecInfo)
include info

theorem writePrefixForSpec_appends :
    Appends out (writePrefixForSpec cb info true) (specPrefix info) ((specPrefix info).length, true) := by
  unfold writePrefixForSpec
  split
  case isTrue hno =>
    rw [specPrefix, if_pos hno]
    exact appends_pure _
  case isFalse hyes =>
    split
    case h_1 h => simpa only [specPrefix, if_neg hyes, h] using hcb.writeSv (some info) ['0', 'b']
    case h_2 h => simpa only [specPrefix, if_neg hyes, h] using hcb.writeSv (some info) ['0', 'B']
    case h_3 h => simpa [specPrefix, hyes, h] using hcb.writeChar (some info) '0' 1
    case h_4 h => simpa only [specPrefix, if_neg hyes, h] using hcb.writeSv (some info) ['0', 'x']
    case h_5 h => simpa only [specPrefix, if_neg hyes, h] using hcb.writeSv (some info) ['0', 'X']
    case h_6 =>
      have hnone : specPrefix info = [] := by
        unfold specPrefix
        split
        · rfl
        · split <;> first | rfl | simp_all
      rw [hnone]
      exact appends_pure _

theorem writePrefixUnlessNull_appends (isNull : Bool) :
    Appends out (writePrefixUnlessNull cb info isNull true) (if !isNull then specPrefix info else [])
      ((if !isNull then specPrefix info else []).length, true) := by
  unfold writePrefixUnlessNull
  split
  · exact writePrefixForSpec_appends hcb info
  · exact appends_pure _

theorem padWithLeadZeros_appends (parsed : List Char) (zeroCount : Nat) (isNull : Bool) :
    Appends out (padWithLeadZeros cb info parsed zeroCount isNull true)
      (leadZeros info parsed zeroCount isNull).1
      ((leadZeros info parsed zeroCount isNull).1.length,
        (leadZeros info parsed zeroCount isNull).2, true) := by
  have hpre := writePrefixUnlessNull_appends hcb info isNull
  have hzeros := hcb.writeChar (some info) '0' zeroCount
  unfold padWithLeadZeros leadZeros
  simp only
  split
  case isTrue hzero => exact hpre.bind_pure rfl
  case isFalse hzero =>
    split
    case isTrue hsign =>
      refine hpre.bind ?_
      refine (hcb.writeChar (some info) (charAt parsed) 1).bind (hzeros.bind_pure ?_)
      simp [add_assoc, add_comm]
    case isFalse hsign =>
      refine hpre.bind ?_
      refine hzeros.bind_pure ?_
      simp

theorem writeParsed_appends (pad : Padding) (parsed : List Char) (isNull : Bool) (hst : st.Ready) :
    Appends out (writeParsed cb info pad parsed isNull st) (parsedText info pad parsed isNull)
      (st.after (parsedText info pad parsed isNull)) := by
  have hlead := padWithLeadZeros_appends hcb info parsed pad.paddedZeroCount isNull
  unfold writeParsed parsedText
  rw [hst.cont]
  split
  case isTrue hwrite =>
    refine hlead.bind ?_
    refine (callCb_appends hcb (some info) _).bind_pure ?_
    rw [← PrintfState.after_append]
    rfl
  case isFalse hwrite => exact hlead.bind_pure rfl

theorem writeSpaces_appends (count : Nat) (hst : st.Ready) :
    Appends out (writeSpaces cb info count st) (List.replicate count ' ')
      (st.after (List.replicate count ' ')) := by
  unfold writeSpaces
  split
  · rw [hst.cont]
    refine (hcb.writeChar (some info) ' ' count).bind_pure ?_
    rw [PrintfState.after, length_replicate]
  case isFalse hzero =>
    obtain rfl : count = 0 := by simpa using hzero
    rw [replicate_zero, hst.after_nil]
    exact appends_pure st

theorem writeSpec_appends (pad : Padding) (parsed : List Char) (isNull : Bool) (hst : st.Ready) :
    Appends out (writeSpec cb info pad parsed isNull st) (specText info pad parsed isNull)
      (.next (st.after (specText info pad parsed isNull)).resetSpec) := by
  unfold writeSpec specText
  split
  · refine (writeParsed_appends hcb info pad parsed isNull hst).bind ?_
    refine (writeSpaces_appends hcb info pad.spacePadCount (hst.after _)).bind_pure ?_
    rw [← PrintfState.after_append]
    rfl
  · refine (writeSpaces_appends hcb info pad.spacePadCount hst).bind ?_
    refine (writeParsed_appends hcb info pad parsed isNull (hst.after _)).bind_pure ?_
    rw [← PrintfState.after_append]
    rfl

end

end Writing

/-! ## One specification after the other -/

/-- What the loop does with a specification. -/
inductive Turn where
  /-- `parse_printf` returns. -/
  | stop
  /-- The text is written, `start` is where the text behind begins, and the search for the next
  percent sign goes on at `iter`. -/
  | go (text start iter : List Char) (list : VaList)

/-- The turn with another list of arguments to go on with. -/
def Turn.withList (list : VaList) : Turn → Turn
  | .stop => .stop
  | .go text start iter _ => .go text start iter list

/-- The turn that an outcome of `handle_spec` leads to. -/
def ParsedLength.turn (parsed : ParsedLength) (outcome : SpecOutcome) (list : VaList) : Turn :=
  let info := { parsed.currSpec with spec := charAt parsed.iter }
  match outcome.result with
  | .reachedEnd => .stop
  | .continue_ => .go [] parsed.iter.tail parsed.iter list
  | .ok => .go (specText info (padding info outcome.parsed outcome.isZero) outcome.parsed outcome.isNull)
      parsed.iter.tail parsed.iter.tail list

/-- The outcome of a specification, in an empty buffer. -/
def ParsedLength.handle (parsed : ParsedLength) : Turn :=
  let info := { parsed.currSpec with spec := charAt parsed.iter }
  match handleSpec info ⟨MAX_CONVERT_CAP + 3, fun _ => '\x00'⟩ parsed.number parsed.list 0 parsed.isZero with
  | .error _ => .stop
  | .ok handled =>
    parsed.turn ⟨handled.result, handled.parsed, handled.isZero, handled.isNull⟩ handled.list

/-- **What the specification at `iter` writes**, and where the loop goes on behind it. -/
def turn (fmt iter : List Char) (list : VaList) : Turn :=
  match parseSpec fmt {} list iter.tail with
  | none => .stop
  | some parsed => parsed.handle

/-- The text that the loop writes from a percent sign or a text on. -/
inductive Emits (fmt : List Char) : List Char → List Char → VaList → List Char → Prop where
  /-- There is no specification any more. -/
  | last {start iter list} (hnone : strchr iter '%' = none) : Emits fmt start iter list start
  | stop {start iter iter' list} (hsome : strchr iter '%' = some iter')
      (hturn : turn fmt iter' list = .stop) : Emits fmt start iter list (svCreateEnd start iter')
  | go {start iter iter' list text start' next list' rest} (hsome : strchr iter '%' = some iter')
      (hturn : turn fmt iter' list = .go text start' next list') (hrest : Emits fmt start' next list' rest) :
      Emits fmt start iter list (svCreateEnd start iter' ++ (text ++ rest))

/-- `handle_spec` comes to this outcome and takes `k` arguments, whatever the buffer and the count. -/
def ParsedLength.SettlesTo (parsed : ParsedLength) (k : Nat) (outcome : SpecOutcome) : Prop :=
  ∀ (buffer : CharBuffer) (writtenOut : Nat), MAX_CONVERT_CAP ≤ buffer.cap →
    ∃ (buffer' : CharBuffer) (count : Option Nat), buffer'.cap = buffer.cap ∧
      handleSpec { parsed.currSpec with spec := charAt parsed.iter } buffer parsed.number parsed.list
        writtenOut parsed.isZero = .ok (outcome.handled buffer' (parsed.list.skip k) count)

section Turns

variable {fmt start iter iter' text : List Char} {list list' : VaList}

theorem ParsedLength.SettlesTo.handle_eq {parsed : ParsedLength} {k : Nat} {outcome : SpecOutcome}
    (h : parsed.SettlesTo k outcome) : parsed.handle = parsed.turn outcome (parsed.list.skip k) := by
  obtain ⟨buffer', count, -, hempty⟩ :=
    h ⟨MAX_CONVERT_CAP + 3, fun _ => '\x00'⟩ 0 (le_add_right _ 3)
  rw [ParsedLength.handle, hempty]
  rfl

/-- There is nothing to read, or a specification is read and settled by the arguments in front. -/
theorem turn_cases (fmt iter : List Char) (list : VaList) :
    (∃ k, ∀ list', VaList.Agree k list list' → parseSpec fmt {} list' iter.tail = none) ∨
    ∃ (j k : Nat) (parsed : ParsedLength) (outcome : SpecOutcome), parsed.iter <:+ iter.tail ∧
      ∀ list', VaList.Agree (j + k) list list' →
        parseSpec fmt {} list' iter.tail = some (parsed.withList (list'.skip j)) ∧
        (parsed.withList (list'.skip j)).SettlesTo k outcome := by
  obtain ⟨j, r, hgood, hread⟩ := parseSpec_reads fmt iter.tail list
  cases r with
  | none => exact .inl ⟨j, hread⟩
  | some parsed =>
    obtain ⟨hnumber, hsuffix⟩ := hgood parsed rfl
    obtain ⟨k, outcome, hsettles⟩ :=
      @handleSpec_settles (list.skip j) { parsed.currSpec with spec := charAt parsed.iter }
        parsed.number parsed.isZero hnumber
    exact .inr ⟨j, k, parsed, outcome, hsuffix, fun list' hagree =>
      ⟨hread list' (hagree.mono (le_add_right j k)), fun buffer writtenOut hcap =>
        hsettles (list'.skip j) buffer writtenOut hagree.skip hcap⟩⟩

theorem turn_eq {parsed : ParsedLength} {k : Nat} {outcome : SpecOutcome}
    (hsome : parseSpec fmt {} list iter.tail = some parsed) (hsettled : parsed.SettlesTo k outcome) :
    turn fmt iter list = parsed.turn outcome (parsed.list.skip k) := by
  rw [turn, hsome]
  exact hsettled.handle_eq

/-- **A turn depends on the arguments it takes**, not on where in the list they are. -/
theorem turn_local (fmt iter : List Char) (list : VaList) :
    ∃ k, ∀ list', VaList.Agree k list list' →
      turn fmt iter list' = (turn fmt iter list).withList (list'.skip k) := by
  rcases turn_cases fmt iter list with ⟨k, hnone⟩ | ⟨j, k, parsed, outcome, -, hread⟩
  · refine ⟨k, fun list' hagree => ?_⟩
    rw [turn, turn, hnone list' hagree, hnone list (.refl k list)]
    rfl
  · have hgo : ∀ list', VaList.Agree (j + k) list list' →
        turn fmt iter list' = parsed.turn outcome (list'.skip (j + k)) := by
      intro list' hagree
      obtain ⟨hsome, hsettled⟩ := hread list' hagree
      rw [turn_eq hsome hsettled, ← VaList.skip_skip]
      rfl
    refine ⟨j + k, fun list' hagree => ?_⟩
    rw [hgo list' hagree, hgo list (.refl _ list)]
    unfold ParsedLength.turn
    cases outcome.result <;> rfl

theorem strchr_eq_some {c : Char} (h : strchr iter c = some iter') :
    ∃ rest, iter' = c :: rest ∧ iter' <:+ iter := by
  induction iter with
  | nil => cases h
  | cons c' rest ih =>
    rw [strchr] at h
    split at h
    case isTrue heq =>
      cases h
      exact ⟨rest, by rw [heq], suffix_refl _⟩
    case isFalse =>
      obtain ⟨rest', hcons, hsuffix⟩ := ih h
      exact ⟨rest', hcons, hsuffix.trans (suffix_cons c' rest)⟩

theorem turn_shorter {start' next : List Char} (hsome : strchr iter '%' = some iter')
    (hturn : turn fmt iter' list = .go text start' next list') :
    iter'.tail.length < iter.length ∧ next.length < iter.length := by
  obtain ⟨_, rfl, hsuffix⟩ := strchr_eq_some hsome
  have hle := hsuffix.length_le
  rw [length_cons] at hle
  rw [tail_cons]
  rcases turn_cases fmt ('%' :: _) list with ⟨k, hnone⟩ | ⟨j, k, parsed, outcome, hsuffix, hread⟩
  · rw [turn, hnone list (.refl k list)] at hturn
    cases hturn
  · have hlen := hsuffix.length_le
    have htail := (tail_suffix parsed.iter).length_le
    rw [tail_cons] at hlen
    obtain ⟨hread, hsettled⟩ := hread list (.refl _ list)
    rw [turn_eq hread hsettled, ParsedLength.turn] at hturn
    split at hturn
    · cases hturn
    · cases hturn
      exact ⟨by omega, show parsed.iter.length < _ by omega⟩
    · cases hturn
      exact ⟨by omega, show parsed.iter.tail.length < _ by omega⟩

/-- **Every format has a text.** -/
theorem exists_emits (fmt start iter : List Char) (list : VaList) :
    ∃ text, Emits fmt start iter list text := by
  -- each turn passes a percent sign, so what is left of the format gets shorter
  induction hlen : iter.length using Nat.strong_induction_on generalizing start iter list with
  | _ n ih =>
    cases hfind : strchr iter '%' with
    | none => exact ⟨start, .last hfind⟩
    | some iter' =>
      cases hturn : turn fmt iter' list with
      | stop => exact ⟨_, .stop hfind hturn⟩
      | go text start' next list' =>
        have hshorter := (turn_shorter hfind hturn).2
        obtain ⟨rest, hrest⟩ := ih next.length (by omega) start' next list' rfl
        exact ⟨_, .go hfind hturn hrest⟩

end Turns

/-! ## What the engine writes -/

section Engine

variable {σ : Type} {cb : PrintfCallbacks σ} {out : σ → List Char} (hcb : cb.Accept out)
  {fmt : List Char}
include hcb

/-- **An iteration writes the text before the specification, then that of its turn.** -/
theorem printfStep_appends (hst : st.Ready) (hinit : st.currSpec = {}) (fmt iter : List Char) :
    match turn fmt iter st.list with
    | .stop => ∃ st', st'.writtenOut = (st.after (svCreateEnd st.unformattedStart iter)).writtenOut ∧
        Appends out (printfStep cb fmt st iter) (svCreateEnd st.unformattedStart iter) (.done st')
    | .go text start next list => ∃ st' : PrintfState,
        st'.Ready ∧ st'.currSpec = {} ∧ st'.unformattedStart = start ∧ st'.iter = next ∧
        st'.list = list ∧
        st'.writtenOut = (st.after (svCreateEnd st.unformattedStart iter ++ text)).writtenOut ∧
        Appends out (printfStep cb fmt st iter) (svCreateEnd st.unformattedStart iter ++ text)
          (.next st') := by
  have hlit := callCb_appends hcb none (svCreateEnd st.unformattedStart iter)
  have hlist : (st.wrote ((svCreateEnd st.unformattedStart iter).length, true)).list = st.list := rfl
  have hspec : (st.wrote ((svCreateEnd st.unformattedStart iter).length, true)).currSpec = {} := hinit
  rcases turn_cases fmt iter st.list with ⟨k, hnone⟩ | ⟨j, k, parsed, outcome, -, hread⟩
  · have hnone := hnone st.list (.refl k _)
    rw [turn, hnone]
    refine ⟨st.after (svCreateEnd st.unformattedStart iter), rfl, ?_⟩
    unfold printfStep
    rw [hst.cont]
    refine hlit.bind_pure ?_
    simp only [hlist, hspec, hnone]
    split
    · rename_i hstop
      cases hstop
    · split <;> rfl
  · obtain ⟨hsome, hsettled⟩ := hread st.list (.refl _ _)
    have hturn := turn_eq hsome hsettled
    have htail : iter.tail ≠ [] := by
      intro hnil
      rw [hnil] at hsome
      cases hsome
    obtain ⟨buffer, count, hcap, hhandled⟩ := hsettled st.buffer
      (st.after (svCreateEnd st.unformattedStart iter)).writtenOut hst.cap
    let st₁ : PrintfState := { st.after (svCreateEnd st.unformattedStart iter) with
      unformattedStart := parsed.iter.tail
      iter := parsed.iter
      list := (st.list.skip j).skip k
      buffer := buffer
      currSpec := { parsed.currSpec with spec := charAt parsed.iter }
      counts := count.toList ++ st.counts }
    have hst₁ : st₁.Ready := ⟨rfl, mod_lt _ (by decide), hcap.symm ▸ hst.cap⟩
    let info := { parsed.currSpec with spec := charAt parsed.iter }
    have hwritten : ∀ {text step}, Appends out (match outcome.result with
          | .reachedEnd => pure (.done st₁)
          | .continue_ => pure (.next st₁.resetSpec)
          | .ok => writeSpec cb info (padding info outcome.parsed outcome.isZero) outcome.parsed
              outcome.isNull { st₁ with iter := parsed.iter.tail }) text step →
        Appends out (printfStep cb fmt st iter) (svCreateEnd st.unformattedStart iter ++ text) step := by
      intro text step h
      unfold printfStep
      rw [hst.cont]
      refine hlit.bind ?_
      rw [if_neg (by simp [PrintfState.wrote]), if_neg htail]
      rw [hlist, hspec, hsome]
      simp only
      rw [show handleSpec _ (st.wrote ((svCreateEnd st.unformattedStart iter).length, true)).buffer _ _
        (st.wrote ((svCreateEnd st.unformattedStart iter).length, true)).writtenOut _ = _ from hhandled,
        lift_ok_bind]
      exact h
    rw [hturn, ParsedLength.turn]
    cases hresult : outcome.result with
    | reachedEnd =>
      rw [hresult] at hwritten
      refine ⟨st₁, rfl, ?_⟩
      simpa using hwritten (appends_pure _)
    | continue_ =>
      rw [hresult] at hwritten
      refine ⟨st₁.resetSpec, ⟨hst₁.cont, hst₁.count, hst₁.cap⟩, rfl, rfl, rfl, rfl, ?_,
        hwritten (appends_pure _)⟩
      rw [append_nil]
      rfl
    | ok =>
      rw [hresult] at hwritten
      have hready : ({ st₁ with iter := parsed.iter.tail } : PrintfState).Ready :=
        ⟨hst₁.cont, hst₁.count, hst₁.cap⟩
      have hafter := hready.after (specText info (padding info outcome.parsed outcome.isZero)
        outcome.parsed outcome.isNull)
      refine ⟨(({ st₁ with iter := parsed.iter.tail } : PrintfState).after _).resetSpec,
        ⟨hafter.cont, hafter.count, hafter.cap⟩, rfl, rfl, rfl, rfl, ?_,
        hwritten (writeSpec_appends hcb info _ _ _ hready)⟩
      rw [← PrintfState.after_append]
      rfl

theorem printfTail_appends (hst : st.Ready) :
    Appends out (printfTail cb st) st.unformattedStart (st.after st.unformattedStart) := by
  unfold printfTail
  split
  · rw [hst.cont]
    exact (callCb_appends hcb none st.unformattedStart).bind_pure rfl
  case isFalse hnil =>
    rw [not_not.mp hnil, hst.after_nil]
    exact appends_pure st

/-- The loop writes the text of what is left of the format. -/
theorem printfLoop_appends {start text : List Char}
    (h : Emits fmt start iter list text) {fuel : Nat} {st : PrintfState} (hst : st.Ready)
    (hinit : st.currSpec = {}) (hstart : st.unformattedStart = start) (hiter : st.iter = iter) (hlist : st.list = list)
    (hfuel : iter.length ≤ fuel) :
    ∃ st', st'.writtenOut = (st.after text).writtenOut ∧
      Appends out (printfLoop cb fmt (fuel + 1) st) text st' := by
  induction h generalizing fuel st with
  | last hnone =>
    refine ⟨_, rfl, ?_⟩
    rw [printfLoop, hiter, hnone, ← hstart]
    exact printfTail_appends hcb hst
  | @stop start iter iter' list hsome hturn =>
    subst hstart hiter hlist
    have hstep := printfStep_appends hcb hst hinit fmt iter'
    rw [hturn] at hstep
    obtain ⟨st', hcount, hstep⟩ := hstep
    refine ⟨st', hcount, ?_⟩
    rw [printfLoop, hsome]
    exact hstep.bind_pure rfl
  | @go start iter iter' list text start' next list' rest hsome hturn hrest ih =>
    have hshorter := (turn_shorter hsome hturn).2
    obtain ⟨fuel, rfl⟩ : ∃ n, fuel = n + 1 := ⟨fuel - 1, by omega⟩
    subst hstart hiter hlist
    have hstep := printfStep_appends hcb hst hinit fmt iter'
    rw [hturn] at hstep
    obtain ⟨st₁, hst₁, hinit₁, hstart₁, hiter₁, hlist₁, hcount₁, hstep⟩ := hstep
    obtain ⟨st', hcount, hloop⟩ := ih hst₁ hinit₁ hstart₁ hiter₁ hlist₁ (show next.length ≤ fuel by omega)
    refine ⟨st', ?_, ?_⟩
    · rw [hcount, ← append_assoc, ← PrintfState.after_append]
      simp only [PrintfState.after, PrintfState.wrote] at hcount₁ ⊢
      rw [hcount₁]
    · rw [printfLoop, hsome, ← append_assoc]
      exact hstep.bind hloop

end Engine

/-- Callbacks that take everything are given this text, and its length is returned. -/
def Prints (fmt : List Char) (list : VaList) (text : List Char) : Prop :=
  ∀ (σ : Type) (cb : PrintfCallbacks σ) (out : σ → List Char), cb.Accept out →
    ∃ counts, Appends out (parsePrintf cb fmt list) text (text.length % 2 ^ 64, counts)

/-- **`parse_printf` writes the text of its format.** -/
theorem Emits.prints {fmt : List Char} (h : Emits fmt fmt fmt list text) :
    Prints fmt list text := by
  intro σ cb out hcb
  obtain ⟨st', hcount, hloop⟩ := @printfLoop_appends fmt list σ cb out hcb fmt fmt text h
    fmt.length ⟨fmt, fmt, list, ⟨MAX_CONVERT_CAP + 3, fun _ => '\x00'⟩, {}, 0, true, []⟩
    ⟨rfl, Nat.two_pow_pos 64, Nat.le_add_right _ 3⟩ rfl rfl rfl rfl le_rfl
  refine ⟨st'.counts.reverse, hloop.bind_pure ?_⟩
  rw [hcount]
  simp only [PrintfState.after, PrintfState.wrote, zero_add]

/-- Callbacks that collect what they are given. -/
def collect : PrintfCallbacks (List Char) where
  writeChar _ ch amount cont := fun text => (.ok (amount, cont), text ++ List.replicate amount ch)
  writeSv _ sv cont := fun text => (.ok (sv.length, cont), text ++ sv)

theorem collect_accept : collect.Accept id :=
  ⟨fun _ _ _ _ => ⟨_, rfl, rfl⟩, fun _ _ _ => ⟨_, rfl, rfl⟩⟩

theorem Prints.unique {fmt text' : List Char} (h : Prints fmt list text)
    (h' : Prints fmt list text') : text = text' := by
  obtain ⟨_, hrun⟩ := h _ collect id collect_accept
  obtain ⟨_, hrun'⟩ := h' _ collect id collect_accept
  exact hrun.unique [] hrun'

end OsKernel.Lib
