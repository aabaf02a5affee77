import OsKernel.Base.Effect
import OsKernel.Lib.Align

/-!
# Mutable buffers (`lib/adt/mutable_buffer.c`)

A mutable buffer is a window of memory and the index of the next byte. Next to it the
model keeps a record of every append, so that what was stored where can be talked about.

`mbuffer_free_space` measures from the end to the current position, the wrong way round:
with `f` bytes left it reports `2 ^ 32 - f`, and nothing only when nothing is left. What
an append does depends on that number, and this module says when it comes out right.
-/

namespace OsKernel.Adt

/-- `struct mutable_buffer`; the pointers are addresses. -/
structure MutableBuffer where
  begin : Nat
  end_ : Nat
  index : Nat

/-- `distance`. -/
def distance (begin end_ : Nat) : Nat := (end_ + (U64 - begin % U64)) % U64

namespace MutableBuffer

/-- `mbuffer_open_static`, and `mbuffer_open`. -/
def mbufferOpen (buffer used capacity : Nat) : Result MutableBuffer :=
  if used ≤ capacity ∧ buffer + used < U64 then .ok ⟨buffer, (buffer + capacity) % U64, used⟩
  else .error .panic

/-- `mbuffer_current_ptr`. -/
def mbufferCurrentPtr (mbuffer : MutableBuffer) : Nat := (mbuffer.begin + mbuffer.index) % U64

/-- `mbuffer_free_space`. -/
def mbufferFreeSpace (mbuffer : MutableBuffer) : Nat :=
  distance mbuffer.end_ mbuffer.mbufferCurrentPtr % 2 ^ 32

/-- `mbuffer_used_size`. -/
def mbufferUsedSize (mbuffer : MutableBuffer) : Nat := mbuffer.index

/-- `mbuffer_capacity`. -/
def mbufferCapacity (mbuffer : MutableBuffer) : Nat := distance mbuffer.end_ mbuffer.begin % 2 ^ 32

/-- `mbuffer_full`. -/
def mbufferFull (mbuffer : MutableBuffer) : Bool := mbuffer.mbufferUsedSize = mbuffer.mbufferCapacity

end MutableBuffer

/-- One append: where the buffer stood, the length and the bytes given, and how many were stored. -/
structure Append where
  index : Nat
  length : Nat
  data : List Char
  stored : Nat

/-- A buffer and the appends made to it, the latest first. -/
structure MBuffer where
  mbuffer : MutableBuffer
  appends : List Append

namespace MBuffer

/-- `preprocess_for_append` and the copy: up to `length` bytes, and what is returned. -/
def append (length : Nat) (data : List Char) : Effect MBuffer Nat := fun s =>
  let freeSpace := s.mbuffer.mbufferFreeSpace
  let stored := if freeSpace ≤ length then freeSpace else length
  (.ok stored,
    { mbuffer := { s.mbuffer with index := (s.mbuffer.index + stored) % 2 ^ 32 }
      appends := ⟨s.mbuffer.index, length, data, stored⟩ :: s.appends })

/-- `mbuffer_append_byte`. -/
def mbufferAppendByte (byte : Char) (count : Nat) : Effect MBuffer Nat :=
  append (count % 2 ^ 32) (List.replicate (count % 2 ^ 32) byte)

/-- `mbuffer_append_data`, with the length as a `uint32_t`. -/
def mbufferAppendData (data : List Char) : Effect MBuffer Nat := append (data.length % 2 ^ 32) data

/-- `mbuffer_append_sv`. -/
def mbufferAppendSv (sv : List Char) : Effect MBuffer Nat := mbufferAppendData sv

/-- `mbuffer_increment_ptr`, which moves nothing. -/
def mbufferIncrementPtr (amount : Nat) : Effect MBuffer Nat := fun s =>
  (.ok (min s.mbuffer.mbufferFreeSpace amount), s)

/-- `mbuffer_decrement_ptr`. -/
def mbufferDecrementPtr (amount : Nat) : Effect MBuffer Nat := fun s =>
  let decrement := min s.mbuffer.mbufferUsedSize amount
  (.ok decrement, { s with mbuffer := { s.mbuffer with index := s.mbuffer.index - decrement } })

/-- `mbuffer_truncate`. -/
def mbufferTruncate (newUsedSize : Nat) : Effect MBuffer Bool := fun s =>
  if s.mbuffer.mbufferUsedSize < newUsedSize then (.ok false, s)
  else (.ok true, { s with mbuffer := { s.mbuffer with index := newUsedSize } })

end MBuffer

/-! ## What an append owes, and when it pays -/

namespace Append

/-- What an append should do: nothing outside the buffer, and all that there is room for. -/
def Exact (cap : Nat) (a : Append) : Prop := a.index ≤ cap ∧ a.stored = min a.length (cap - a.index)

/-- The appends that the wrong free space does not harm. -/
def Fits (cap : Nat) (a : Append) : Prop :=
  cap - a.index = 0 ∨ cap - a.index = 2 ^ 31 ∨
    (a.length ≤ cap - a.index ∧ a.length ≤ 2 ^ 32 - (cap - a.index))

/-- The appends that write past the end of the buffer. -/
def Overruns (cap : Nat) (a : Append) : Prop :=
  a.index < cap ∧ cap - a.index < 2 ^ 31 ∧ cap - a.index < a.length

/-- The appends all of whose bytes are inside the buffer. -/
def Inside (cap : Nat) (a : Append) : Prop := ∀ j < a.stored, a.index + j < cap

/-- An append as the code makes it, with `f` bytes left where it says `2 ^ 32 - f`. -/
structure Made (cap : Nat) (a : Append) : Prop where
  length : a.length < 2 ^ 32
  stored : a.index ≤ cap → a.stored = min a.length ((2 ^ 32 - (cap - a.index)) % 2 ^ 32)

variable {cap : Nat} {a : Append}

theorem Fits.not_overruns (h : a.Fits cap) : ¬ a.Overruns cap := by
  unfold Fits at h
  unfold Overruns
  omega

/-- An append at a position inside the buffer stays inside, unless it overruns. -/
theorem Made.stored_le (h : a.Made cap) (hcap : cap < 2 ^ 32) (hin : a.index ≤ cap)
    (hno : ¬ a.Overruns cap) : a.index + a.stored ≤ cap := by
  have hstored := h.stored hin
  unfold Overruns at hno
  omega

/-- **An append is exact if, and only if, it fits.** -/
theorem Made.exact_iff (h : a.Made cap) (hcap : cap < 2 ^ 32) (hin : a.index ≤ cap) :
    a.Exact cap ↔ a.Fits cap := by
  have hstored := h.stored hin
  unfold Exact Fits
  omega

end Append

/-! ## Runs -/

namespace MBuffer

variable {base cap : Nat} {s : MBuffer}

/-- The invariant of a buffer of `cap` bytes at the address `base`. -/
structure Inv (base cap : Nat) (s : MBuffer) : Prop where
  begin : s.mbuffer.begin = base
  end_ : s.mbuffer.end_ = (base + cap) % U64
  index : s.mbuffer.index < 2 ^ 32
  made : ∀ a ∈ s.appends, a.Made cap
  /-- As long as no append overruns, the positions are inside the buffer. -/
  inside : (∀ a ∈ s.appends, ¬ a.Overruns cap) →
    s.mbuffer.index ≤ cap ∧ ∀ a ∈ s.appends, a.index ≤ cap

theorem append_inv (hcap : cap < 2 ^ 32) (h : Inv base cap s) {length : Nat}
    (hlen : length < 2 ^ 32) (data : List Char) : Inv base cap (append length data s).2 := by
  have hmade : Append.Made cap ⟨s.mbuffer.index, length, data,
      if s.mbuffer.mbufferFreeSpace ≤ length then s.mbuffer.mbufferFreeSpace else length⟩ := by
    refine ⟨hlen, ?_⟩
    intro hin
    simp only at hin ⊢
    have hfree : s.mbuffer.mbufferFreeSpace = (2 ^ 32 - (cap - s.mbuffer.index)) % 2 ^ 32 := by
      unfold MutableBuffer.mbufferFreeSpace MutableBuffer.mbufferCurrentPtr distance
      rw [h.begin, h.end_]
      unfold U64
      omega
    split
    · omega
    · omega
  refine ⟨h.begin, h.end_, Nat.mod_lt _ (by decide), ?_, ?_⟩
  · intro a ha
    rcases List.mem_cons.mp ha with rfl | ha
    · exact hmade
    · exact h.made a ha
  · intro hno
    obtain ⟨hindex, hbefore⟩ := h.inside fun a ha => hno a (.tail _ ha)
    have hle := hmade.stored_le hcap hindex (hno _ List.mem_cons_self)
    simp only at hle
    refine ⟨?_, ?_⟩
    · change (s.mbuffer.index + _) % 2 ^ 32 ≤ cap
      rw [Nat.mod_eq_of_lt (by omega)]
      exact hle
    · intro a ha
      rcases List.mem_cons.mp ha with rfl | ha
      · exact hindex
      · exact hbefore a ha

/-- The calls on a buffer. -/
inductive Call where
  | appendByte (byte : Char) (count : Nat)
  | appendData (data : List Char)
  | appendSv (sv : List Char)
  | incrementPtr (amount : Nat)
  | decrementPtr (amount : Nat)
  | truncate (newUsedSize : Nat)

/-- The buffer after a call. -/
def Call.exec (s : MBuffer) : Call → MBuffer
  | .appendByte byte count => (mbufferAppendByte byte count s).2
  | .appendData data => (mbufferAppendData data s).2
  | .appendSv sv => (mbufferAppendSv sv s).2
  | .incrementPtr amount => (mbufferIncrementPtr amount s).2
  | .decrementPtr amount => (mbufferDecrementPtr amount s).2
  | .truncate newUsedSize => (mbufferTruncate newUsedSize s).2

/-- The buffer after a run of calls. -/
def Call.run (s : MBuffer) : List Call → MBuffer
  | [] => s
  | call :: calls => run (call.exec s) calls

theorem Inv.lower (h : Inv base cap s) {index : Nat} (hle : index ≤ s.mbuffer.index) :
    Inv base cap { s with mbuffer := { s.mbuffer with index := index } } := by
  refine ⟨h.begin, h.end_, lt_of_le_of_lt hle h.index, h.made, ?_⟩
  intro hno
  obtain ⟨hindex, hbefore⟩ := h.inside hno
  exact ⟨hle.trans hindex, hbefore⟩

section

variable (hcap : cap < 2 ^ 32)
include hcap

theorem Call.exec_inv (h : Inv base cap s) (call : Call) :
    Inv base cap (call.exec s) := by
  have hmod : ∀ n : Nat, n % 2 ^ 32 < 2 ^ 32 := fun n => Nat.mod_lt _ (by decide)
  cases call with
  | appendByte byte count => exact append_inv hcap h (hmod _) _
  | appendData data => exact append_inv hcap h (hmod _) _
  | appendSv sv => exact append_inv hcap h (hmod _) _
  | incrementPtr amount => exact h
  | decrementPtr amount => exact h.lower (Nat.sub_le _ _)
  | truncate newUsedSize =>
    change Inv base cap (mbufferTruncate newUsedSize s).2
    unfold mbufferTruncate
    split
    · exact h
    · rename_i hge
      exact h.lower (Nat.le_of_not_lt hge)

theorem Call.run_inv : ∀ (calls : List Call) {s : MBuffer},
    Inv base cap s → Inv base cap (Call.run s calls) := by
  intro calls
  induction calls with
  | nil =>
    intro s h
    exact h
  | cons call calls ih =>
    intro s h
    exact ih (call.exec_inv hcap h)

theorem open_inv {used : Nat} {mbuffer : MutableBuffer}
    (hopen : MutableBuffer.mbufferOpen base used cap = .ok mbuffer) : Inv base cap ⟨mbuffer, []⟩ := by
  unfold MutableBuffer.mbufferOpen at hopen
  split at hopen
  · rename_i hcond
    cases hopen
    refine ⟨rfl, rfl, ?_, ?_, ?_⟩
    · exact lt_of_le_of_lt hcond.1 hcap
    · intro a ha
      cases ha
    · intro _
      refine ⟨hcond.1, ?_⟩
      intro a ha
      cases ha
  · cases hopen

/-- The appends of a run are exact, and the position stays inside, exactly when they all fit. -/
theorem Inv.exact_iff (h : Inv base cap s) :
    (∀ a ∈ s.appends, a.Fits cap) ↔ s.mbuffer.index ≤ cap ∧ ∀ a ∈ s.appends, a.Exact cap := by
  constructor
  · intro hfits
    obtain ⟨hindex, hin⟩ := h.inside fun a ha => (hfits a ha).not_overruns
    exact ⟨hindex, fun a ha => ((h.made a ha).exact_iff hcap (hin a ha)).mpr (hfits a ha)⟩
  · intro hexact a ha
    have hex := hexact.2 a ha
    exact ((h.made a ha).exact_iff hcap hex.1).mp hex

end

end MBuffer

end OsKernel.Adt
