import OsKernel.Adt.BitmapProof
import OsKernel.Lib.Time

/-!
# Copying, filling and comparing memory (`kernel/stdlib.c`)

The portable paths work on words of 8, 4, 2 and 1 bytes. A word is read as a whole before it is
stored, so a copy from the front is right whenever the destination is not behind the source, and
one from the back whenever it is not before it, for words of any size. What carries every loop is
that the copy still to be made gives the memory that the whole copy gives. The x86_64 build moves
single bytes with `rep movsb`, in the direction of the flag.

`memset` builds its word from the whole value, not from the byte. `memcmp` cuts the difference of
two words to an `int` and may lose it, but the words after that are narrower and start over.
-/

namespace OsKernel

namespace Memory

theorem copy_zero (m : Memory) (dst src : Nat) : m.copy dst src 0 = m := by
  funext x
  exact copy_other (by omega)

theorem store_load (m : Memory) (dst src size : Nat) :
    m.store dst size (m.load src size) = m.copy dst src size := by
  funext x
  apply byte_ext
  intro k hk
  rw [← bit_byte _ x hk, bit_store, testBit_load, copy]
  split
  · rw [if_pos (by omega), decide_eq_true (by omega), Bool.true_and, ← bit_byte _ _ hk]
    congr 1
    omega
  · rw [if_neg (by omega), bit_byte _ x hk]

end Memory

namespace Lib

open Memory Adt

/-- A copy under way: the pointers and what is left. -/
structure Copying where
  mem : Memory
  dst : Nat
  src : Nat
  n : Nat

/-- `_memcpy_uint8_t` to `_memcpy_uint64_t`. -/
def memcpyWords (size : Nat) (s : Copying) : Copying :=
  if _ : 0 < size ∧ size ≤ s.n then
    memcpyWords size ⟨s.mem.store s.dst size (s.mem.load s.src size), s.dst + size, s.src + size, s.n - size⟩
  else s
termination_by s.n

/-- `_memcpy_bw_uint8_t` to `_memcpy_bw_uint64_t`, which start at the back. -/
def memcpyBwWords (size : Nat) (s : Copying) : Copying :=
  if _ : 0 < size ∧ size ≤ s.n then
    let off := s.n - size
    memcpyBwWords size
      { s with mem := s.mem.store (s.dst + off) size (s.mem.load (s.src + off) size), n := off }
  else s
termination_by s.n

/-- Calls for words of one size after the other, the widest first. -/
def stages (call : Nat → Copying → Copying) (k : Nat) (s : Copying) : Memory :=
  let sizes := if 8 ≤ k then [8, 4, 2, 1] else if 4 ≤ k then [4, 2, 1] else if 2 ≤ k then [2, 1]
    else if 1 ≤ k then [1] else []
  (sizes.foldl (fun s size => call size s) s).mem

/-- The portable path of `memcpy`: the memory and the pointer it returns. -/
def memcpy (m : Memory) (dst src n : Nat) : Memory × Nat :=
  if 4 ≤ n then (stages memcpyWords n ⟨m, dst, src, n⟩, dst)
  else if 2 ≤ n then
    let s := memcpyWords 2 ⟨m, dst, src, n⟩
    if s.n = 0 then (s.mem, s.dst) else ((memcpyWords 1 s).mem, dst)
  else ((memcpyWords 1 ⟨m, dst, src, n⟩).mem, dst)

/-- The portable path of `memmove`. -/
def memmove (m : Memory) (dst src n : Nat) : Memory × Nat :=
  if dst < src then
    let diff := src - dst
    if 8 ≤ diff then ((memcpy m dst src n).1, dst)
    else (stages memcpyWords diff ⟨m, dst, src, n⟩, dst)
  else (stages memcpyBwWords (dst - src) ⟨m, dst, src, n⟩, dst)

/-- The step of a string instruction when the direction flag is set. -/
def stepDown (a : Nat) : Nat := if a = 0 then 2 ^ 64 - 1 else a - 1

/-- `std; rep movsb; cld`. -/
def repMovsbDown : Nat → Memory → Nat → Nat → Memory
  | 0, m, _, _ => m
  | n + 1, m, dst, src => repMovsbDown n (m.setByte dst (m src)) (stepDown dst) (stepDown src)

/-- `memmove` as built for x86_64, where `REP_MOVSB_MIN` is 16. -/
def memmoveX86 (m : Memory) (dst src n : Nat) : Memory × Nat :=
  if 16 ≤ n then
    if dst < src then (repMovsbDown n m dst src, dst)
    else (repMovsbDown n m (dst + (n - 1)) (src + (n - 1)), dst)
  else memmove m dst src n

/-! ## Words -/

namespace Copying

/-- The memory after all that is left has been copied. -/
def rest (s : Copying) : Memory := s.mem.copy s.dst s.src s.n

/-- No byte that is still to be read is written on the way up. -/
def Upward (s : Copying) : Prop := s.dst ≤ s.src ∨ s.src + s.n ≤ s.dst

theorem mem_eq_rest {s : Copying} (h : s.n = 0) : s.mem = s.rest := by
  rw [rest, h, copy_zero]

end Copying

open Copying

variable {size : Nat} {s : Copying}

theorem memcpyWords_keeps (hsize : 0 < size) (h : s.Upward) :
    ((memcpyWords size s).Upward ∧ (memcpyWords size s).rest = s.rest ∧
      (memcpyWords size s).n = s.n % size) ∧
      (memcpyWords size s).dst + (memcpyWords size s).n = s.dst + s.n := by
  fun_induction memcpyWords size s with
  | case1 s hle ih =>
    unfold Upward at h
    obtain ⟨⟨hup, hrest, hn⟩, hdst⟩ := ih (by unfold Upward; dsimp only; omega)
    refine ⟨⟨hup, hrest.trans ?_, hn.trans (Nat.mod_eq_sub_mod hle.2).symm⟩, hdst.trans ?_⟩
    rotate_left
    · dsimp only
      omega
    simp only [rest, store_load]
    funext x
    simp only [copy]
    split_ifs <;> first | rfl | omega | (congr 1; omega)
  | case2 s hlt => exact ⟨⟨h, rfl, (Nat.mod_eq_of_lt (by omega)).symm⟩, rfl⟩

theorem memcpyBwWords_keeps (hsize : 0 < size) (h : s.src ≤ s.dst) :
    (memcpyBwWords size s).src ≤ (memcpyBwWords size s).dst ∧
      (memcpyBwWords size s).rest = s.rest ∧ (memcpyBwWords size s).n = s.n % size := by
  fun_induction memcpyBwWords size s with
  | case1 s hle off ih =>
    obtain ⟨hdown, hrest, hn⟩ := ih h
    refine ⟨hdown, hrest.trans ?_, hn.trans (Nat.mod_eq_sub_mod hle.2).symm⟩
    simp only [rest, store_load]
    funext x
    simp only [copy]
    split_ifs <;> first | rfl | omega | (congr 1; omega)
  | case2 s hlt => exact ⟨h, rfl, (Nat.mod_eq_of_lt (by omega)).symm⟩

/-- A call that keeps what is left right does so in stages too. The last one leaves nothing. -/
theorem stages_copies (Safe : Copying → Prop) {call : Nat → Copying → Copying}
    (hcall : ∀ {size s}, 0 < size → Safe s →
      Safe (call size s) ∧ (call size s).rest = s.rest ∧ (call size s).n = s.n % size)
    {k : Nat} (hk : 0 < k) (hs : Safe s) : stages call k s = s.rest := by
  have hfold : ∀ (sizes : List Nat) {s : Copying}, (∀ size ∈ sizes, 0 < size) → Safe s →
      sizes.foldl (· % ·) s.n = 0 → (sizes.foldl (fun s size => call size s) s).mem = s.rest := by
    intro sizes
    induction sizes with
    | nil => exact fun _ _ hn => mem_eq_rest hn
    | cons size sizes ih =>
      intro s hpos hs hn
      rw [List.forall_mem_cons] at hpos
      obtain ⟨hsafe, hrest, hleft⟩ := hcall hpos.1 hs
      rw [List.foldl_cons, ih hpos.2 hsafe (by rwa [hleft]), hrest]
  unfold stages
  split_ifs
  all_goals first | omega | exact hfold _ (by decide) hs (Nat.mod_one _)

/-! ## `memcpy` and `memmove` -/

section copies

variable (m : Memory) (dst src n : Nat)

theorem memcpy_eq (h : Upward ⟨m, dst, src, n⟩) :
    memcpy m dst src n = (m.copy dst src n, if n = 2 then dst + 2 else dst) := by
  unfold memcpy
  split
  case isTrue hle =>
    rw [stages_copies Upward (fun hsize hs => (memcpyWords_keeps hsize hs).1) (by omega) h,
      if_neg (by omega)]
    rfl
  case isFalse hlt =>
    split
    · obtain ⟨⟨hup', hrest, hn⟩, hdst⟩ := memcpyWords_keeps Nat.two_pos h
      dsimp only at hn hdst ⊢
      split
      case isTrue hzero =>
        rw [mem_eq_rest hzero, hrest, if_pos (by omega)]
        congr 1
        omega
      case isFalse hone =>
        obtain ⟨⟨-, hrest', hn'⟩, -⟩ := memcpyWords_keeps one_pos hup'
        rw [mem_eq_rest (by rw [hn', Nat.mod_one]), hrest', hrest, if_neg (by omega)]
        rfl
    · obtain ⟨⟨-, hrest, hn⟩, -⟩ := memcpyWords_keeps one_pos h
      rw [mem_eq_rest (by rw [hn, Nat.mod_one]), hrest, if_neg (by omega)]
      rfl

/--
**`memcpy` copies `n` bytes and returns the destination**, except that it returns the end of the
destination when it copies two bytes.
-/
theorem memcpy_returns_dst_iff (h : dst + n ≤ src ∨ src + n ≤ dst) :
    memcpy m dst src n = (m.copy dst src n, dst) ↔ n ≠ 2 := by
  rw [memcpy_eq m dst src n (h.imp_left Nat.le_of_add_right_le), Prod.mk.injEq]
  split <;> simp [*]

theorem memcpy_returns_dst_seven :
    memcpy (fun _ => 1) 0 8 7 = (copy (fun _ => 1) 0 8 7, 0) :=
  (memcpy_returns_dst_iff _ 0 8 7 (by decide)).mpr (by decide)

theorem memcpy_two : (memcpy (fun _ => 0) 0x1000 0x2000 2).2 = 0x1002 := by
  decide +kernel

theorem memmove_eq : memmove m dst src n = (m.copy dst src n, dst) := by
  unfold memmove
  split
  case isTrue hlt =>
    have hup : Upward ⟨m, dst, src, n⟩ := .inl (le_of_lt hlt)
    dsimp only
    split
    · rw [memcpy_eq m dst src n hup]
    · rw [stages_copies Upward (fun hsize hs => (memcpyWords_keeps hsize hs).1) (by omega) hup]
      rfl
  case isFalse hge =>
    rcases eq_or_lt_of_le (not_lt.mp hge) with rfl | hlt
    · -- nothing is done, and the copy of a place to itself changes nothing
      have hself : m.copy src src n = m := by
        funext x
        rw [copy]
        split
        · rw [Nat.add_sub_cancel' (by omega)]
        · rfl
      rw [hself, Nat.sub_self]
      rfl
    · rw [stages_copies (fun s => s.src ≤ s.dst) memcpyBwWords_keeps (by omega) (not_lt.mp hge)]
      rfl

/-- **`memmove` copies what the source held**, however the two overlap, and nothing else changes. -/
theorem memmove_copies : (memmove m dst src n).2 = dst ∧
    ∀ x, (memmove m dst src n).1 x = if dst ≤ x ∧ x < dst + n then m (src + (x - dst)) else m x := by
  rw [memmove_eq]
  exact ⟨rfl, fun _ => rfl⟩

end copies

/-! ## `rep movsb` -/

variable {m : Memory} {dst src n : Nat}

theorem repMovsbDown_copies (h : src ≤ dst) (n : Nat) :
    repMovsbDown n m (dst + (n - 1)) (src + (n - 1)) = m.copy dst src n := by
  induction n generalizing m with
  | zero => exact (copy_zero m dst src).symm
  | succ n ih =>
    have hlast : (m.setByte (dst + n) (m (src + n))).copy dst src n = m.copy dst src (n + 1) := by
      funext x
      simp only [copy, setByte, Function.update_apply]
      split_ifs <;> first | rfl | omega | (congr 1; omega)
    rw [← hlast, ← ih]
    cases n with
    | zero => rfl
    | succ n => rfl

theorem repMovsbDown_other {x : Nat} (h : n + x ≤ dst ∨ dst < x ∧ n + x ≤ dst + 2 ^ 64) :
    repMovsbDown n m dst src x = m x := by
  induction n generalizing m dst src with
  | zero => rfl
  | succ n ih =>
    have hdown : n + x ≤ stepDown dst ∨ stepDown dst < x ∧ n + x ≤ stepDown dst + 2 ^ 64 := by
      unfold stepDown
      split <;> omega
    rw [repMovsbDown, ih hdown, setByte, Function.update_of_ne (by omega)]

/--
**The x86_64 build of `memmove` does what the portable path does** unless it copies 16 bytes or more to
a lower address. It then goes down from the first byte, not up.
-/
theorem memmoveX86_eq_iff (dst src n : Nat) (hsrc : src + n ≤ 2 ^ 64) :
    (∀ m, memmoveX86 m dst src n = memmove m dst src n) ↔ src ≤ dst ∨ n < 16 := by
  constructor
  · intro h
    by_contra hno
    -- The second byte of the destination is left as it was.
    have hsame := congrFun (congrArg Prod.fst (h fun x => if x = src + 1 then 1 else 0)) (dst + 1)
    rw [memmove_eq, memmoveX86, if_pos (by omega), if_pos (by omega)] at hsame
    dsimp only at hsame
    rw [repMovsbDown_other (by omega), copy_at (by omega), if_neg (by omega), if_pos rfl] at hsame
    exact absurd hsame (by decide)
  · intro h m
    unfold memmoveX86
    split
    · rw [if_neg (by omega), repMovsbDown_copies (by omega), memmove_eq]
    · rfl

theorem memmoveX86_eq_iff_up : memmoveX86 (fun _ => 1) 1 0 16 = memmove (fun _ => 1) 1 0 16 :=
  (memmoveX86_eq_iff 1 0 16 (by decide)).mpr (by decide) _

theorem memmoveX86_down : (memmoveX86 (fun x => UInt8.ofNat x) 0x1000 0x1010 16).1 0x1001 = 1 ∧
    (memmove (fun x => UInt8.ofNat x) 0x1000 0x1010 16).1 0x1001 = 0x11 := by
  decide +kernel

/-! ## `memset` -/

/-- The `value64` of `memset`. -/
def memsetWord (v : Nat) : Nat :=
  (v <<< 56 ||| v <<< 48 ||| v <<< 40 ||| v <<< 32 ||| v <<< 24 ||| v <<< 16 ||| v <<< 8 ||| v) % 2 ^ 64

/-- The portable path of `memset`. -/
def memset (m : Memory) (dst : Nat) (val : Int) (n : Nat) : Memory × Nat :=
  let v := toUnsigned 64 val
  if 8 ≤ n then
    let s := fillWords 8 (memsetWord v) m dst n
    let s := fillWords 4 (memsetWord v) s.1 s.2.1 s.2.2
    let s := fillWords 2 (memsetWord v) s.1 s.2.1 s.2.2
    (s.1.fill s.2.1 s.2.2 (UInt8.ofNat v), dst)
  else (m.fill dst n (UInt8.ofNat v), dst)

theorem fillWords_below (size word : Nat) (m : Memory) {dst n x : Nat} (hx : x < dst) :
    (fillWords size word m dst n).1 x = m x ∧ x < (fillWords size word m dst n).2.1 := by
  fun_induction fillWords size word m dst n with
  | case1 m dst n hle ih =>
    obtain ⟨hsame, hlt⟩ := ih (Nat.lt_add_right size hx)
    refine ⟨hsame.trans ?_, hlt⟩
    rw [store, if_neg (by omega)]
  | case2 => exact ⟨rfl, hx⟩

/-- The bytes of the word are the lowest one of `v` unless `v` has a bit that this one does not have. -/
theorem memsetWord_iff (v : Nat) :
    (∀ k < 8, UInt8.ofNat (memsetWord v / 2 ^ (8 * k)) = UInt8.ofNat v) ↔
      ∀ i < 64, v.testBit i = true → v.testBit (i % 8) = true := by
  have hbyte : ∀ x y : Nat, UInt8.ofNat x = UInt8.ofNat y ↔ ∀ j < 8, x.testBit j = y.testBit j := by
    intro x y
    rw [← UInt8.toNat_inj, UInt8.toNat_ofNat', UInt8.toNat_ofNat']
    constructor
    · intro h j hj
      have hbit := congrArg (Nat.testBit · j) h
      simpa only [Nat.testBit_mod_two_pow, hj, decide_true, Bool.true_and] using hbit
    · intro h
      refine Nat.eq_of_testBit_eq fun j => ?_
      rw [Nat.testBit_mod_two_pow, Nat.testBit_mod_two_pow]
      by_cases hj : j < 8
      · rw [h j hj]
      · simp [hj]
  simp only [hbyte, memsetWord, Nat.testBit_div_two_pow, Nat.testBit_mod_two_pow, Nat.testBit_or,
    Nat.testBit_shiftLeft]
  constructor
  · intro h i hi hbit
    rw [← h (i / 8) (by omega) (i % 8) (by omega), show i % 8 + 8 * (i / 8) = i by omega, hbit]
    simp [hi]
  · intro h k hk j hj
    have hset : ∀ i, i % 8 = j → i < 64 → v.testBit i = true → v.testBit j = true :=
      fun i hi hlt hbit => hi ▸ h i hlt hbit
    rw [Bool.eq_iff_iff]
    simp only [Bool.and_eq_true, Bool.or_eq_true, decide_eq_true_eq]
    constructor
    · rintro ⟨-, ((((((⟨_, hb⟩ | ⟨_, hb⟩) | ⟨_, hb⟩) | ⟨_, hb⟩) | ⟨_, hb⟩) | ⟨_, hb⟩) | ⟨_, hb⟩) | hb⟩ <;>
        exact hset _ (by omega) (by omega) hb
    · intro hb
      refine ⟨by omega, ?_⟩
      interval_cases k <;> simp [hb]

/--
**`memset` stores the byte `n` times** if there are fewer than eight of them, or if every bit that one
of the bytes of the value has is a bit of the lowest one.
-/
theorem memset_fills_iff (m : Memory) (dst : Nat) (val : Int) (n : Nat) :
    memset m dst val n = (m.fill dst n (UInt8.ofNat (toUnsigned 64 val)), dst) ↔
      n < 8 ∨ ∀ i < 64, (toUnsigned 64 val).testBit i = true →
        (toUnsigned 64 val).testBit (i % 8) = true := by
  unfold memset
  dsimp only
  generalize toUnsigned 64 val = v
  rw [← memsetWord_iff]
  generalize memsetWord v = word
  split
  case isFalse hlt => simp [Nat.lt_of_not_le hlt]
  case isTrue hle =>
    rw [or_iff_right (Nat.not_lt.mpr hle), Prod.mk.injEq, and_iff_left rfl]
    constructor
    · -- The first word is not written again.
      intro h k hk
      have hx := congrFun h (dst + k)
      rw [fillWords.eq_def 8, dif_pos ⟨by decide, hle⟩] at hx
      have h₁ := fillWords_below 8 word (m.store dst 8 word) (Nat.add_lt_add_left hk dst) (n := n - 8)
      generalize fillWords 8 word _ _ _ = s₁ at hx h₁
      have h₂ := fillWords_below 4 word s₁.1 h₁.2 (n := s₁.2.2)
      generalize fillWords 4 word _ _ _ = s₂ at hx h₂
      have h₃ := fillWords_below 2 word s₂.1 h₂.2 (n := s₂.2.2)
      rwa [fill, if_neg (by omega), h₃.1, h₂.1, h₁.1, store, fill, if_pos (by omega), if_pos (by omega),
        Nat.add_sub_cancel_left] at hx
    · intro h
      have hword : ∀ size ≤ 8, ∀ (m : Memory) a, m.store a size word = m.fill a size (UInt8.ofNat v) := by
        intro size hsize m a
        funext x
        unfold store fill
        split
        · exact h _ (by omega)
        · rfl
      rw [fillWords_eq (by decide) (hword 8 (by decide)), fillWords_eq (by decide) (hword 4 (by decide)),
        fillWords_eq (by decide) (hword 2 (by decide))]
      simp only [fill_fill, add_assoc]
      congr 1
      omega

/-- The second byte of the value is stored at odd addresses. -/
theorem memset_second_byte :
    (memset (fun _ => 0) 0x1000 0x100 8).1 0x1001 = 1 ∧ UInt8.ofNat (toUnsigned 64 0x100) = 0 := by
  decide +kernel

/-! ## `memcmp` -/

/--
A call of `_memcmp_uint8_t` to `_memcmp_uint64_t`, which stores where it stopped unless it found a
difference. A difference is cut to an `int`.
-/
def memcmpWords (size : Nat) (m : Memory) (out : Nat × Nat × Nat) (left right len : Nat) :
    Int × Nat × Nat × Nat :=
  if _ : 0 < size ∧ size ≤ len then
    if m.load left size ≠ m.load right size then
      (Int.bmod (m.load left size - m.load right size) (2 ^ 32), out)
    else memcmpWords size m out (left + size) (right + size) (len - size)
  else (0, left, right, len)
termination_by len

def memcmpStages (m : Memory) : List Nat → Nat × Nat × Nat → Int
  | [], _ => 0
  | size :: sizes, out =>
    let r := memcmpWords size m out out.1 out.2.1 out.2.2
    if r.1 ≠ 0 then r.1 else memcmpStages m sizes r.2

/-- `memcmp`. -/
def memcmp (m : Memory) (left right len : Nat) : Int := memcmpStages m [8, 4, 2, 1] (left, right, len)

/-- The bytes that are left to compare are equal. -/
def Same (m : Memory) (s : Nat × Nat × Nat) : Prop := ∀ i < s.2.2, m (s.1 + i) = m (s.2.1 + i)

theorem load_eq_load_iff {left right : Nat} :
    m.load left size = m.load right size ↔ Same m (left, right, size) := by
  induction size generalizing left right with
  | zero => exact iff_of_true rfl fun i hi => absurd hi (Nat.not_lt_zero i)
  | succ size ih =>
    have hleft := (m left).toNat_lt
    have hright := (m right).toNat_lt
    have hword : m.load left (size + 1) = m.load right (size + 1) ↔
        m left = m right ∧ m.load (left + 1) size = m.load (right + 1) size := by
      rw [load, load, ← UInt8.toNat_inj]
      omega
    rw [hword, ih]
    simp only [Same, Nat.forall_lt_succ_left, add_zero, add_assoc, add_comm 1]

/-- A call either finds a difference, or leaves the question to what it has not compared. -/
theorem memcmpWords_cases (hsize : 0 < size) (out : Nat × Nat × Nat) (left right len : Nat) :
    ¬ Same m (left, right, len) ∧ (memcmpWords size m out left right len).2 = out ∧
        (size = 1 → (memcmpWords size m out left right len).1 ≠ 0) ∨
      (memcmpWords size m out left right len).1 = 0 ∧
        (memcmpWords size m out left right len).2.2.2 < size ∧
        (Same m (left, right, len) ↔ Same m (memcmpWords size m out left right len).2) := by
  fun_induction memcmpWords size m out left right len with
  | case1 left right len hle hne =>
    refine .inl ⟨fun h => hne (load_eq_load_iff.mpr fun i hi => h i (by dsimp only at *; omega)), rfl, ?_⟩
    rintro rfl hzero
    have hleft := (m left).toNat_lt
    have hright := (m right).toNat_lt
    have hdvd := Int.dvd_of_bmod_eq_zero hzero
    simp only [load] at hdvd hne
    omega
  | case2 left right len hle heq ih =>
    have hsplit : Same m (left, right, len) ↔ Same m (left + size, right + size, len - size) := by
      have hsame := load_eq_load_iff.mp (not_not.mp heq)
      constructor
      · intro h i hi
        simpa only [add_assoc] using h (size + i) (by dsimp only at *; omega)
      · intro h i hi
        rcases lt_or_ge i size with hlt | hge
        · exact hsame i hlt
        · have := h (i - size) (by dsimp only at *; omega)
          simpa only [add_assoc, Nat.add_sub_cancel' hge] using this
    rwa [hsplit]
  | case3 left right len hlt => exact .inr ⟨rfl, by dsimp only; omega, Iff.rfl⟩

/-- A difference that is cut away is found again by the next call. The last one cuts none. -/
theorem memcmpStages_iff {sizes : List Nat} (hpos : ∀ size ∈ sizes, 0 < size) (s : Nat × Nat × Nat) :
    memcmpStages m (sizes ++ [1]) s = 0 ↔ Same m s := by
  induction sizes generalizing s with
  | nil =>
    rcases memcmpWords_cases one_pos s s.1 s.2.1 s.2.2 with ⟨hdiff, -, hne⟩ | ⟨hzero, hlt, hsame⟩
    · rw [List.nil_append, memcmpStages, if_pos (hne rfl)]
      exact iff_of_false (hne rfl) hdiff
    · refine iff_of_true ?_ (hsame.mpr fun i hi => absurd hi (by omega))
      rw [List.nil_append, memcmpStages, if_neg (not_not.mpr hzero)]
      rfl
  | cons size sizes ih =>
    rw [List.forall_mem_cons] at hpos
    rw [List.cons_append, memcmpStages]
    rcases memcmpWords_cases (m := m) hpos.1 s s.1 s.2.1 s.2.2 with ⟨hdiff, hout, -⟩ | ⟨hzero, -, hsame⟩
    · split
      case isTrue hne => exact iff_of_false hne hdiff
      case isFalse => rw [hout, ih hpos.2]
    · rw [if_neg (not_not.mpr hzero), ih hpos.2, ← hsame]

/-- **`memcmp` returns zero exactly when the bytes are equal.** -/
theorem memcmp_eq_zero_iff (m : Memory) (left right len : Nat) :
    memcmp m left right len = 0 ↔ ∀ i < len, m (left + i) = m (right + i) :=
  @memcmpStages_iff m [8, 4, 2] (by decide) (left, right, len)

end Lib

end OsKernel
