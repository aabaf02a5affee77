import OsKernel.Base.Memory

/-!
# Memory as a row of bits

Bit `j` of memory is bit `j % 8` of byte `j / 8`. A program that works on bits does it
with bytes and words, and every such step reads or writes a stretch of consecutive bits:
a masked byte, a byte, a word of several bytes. The lemmas say which stretch, so that
what a whole program does follows by laying the stretches end to end.
-/

namespace OsKernel

namespace Memory

open Nat

/-- One bit of memory. -/
def bit (m : Memory) (j : Nat) : Bool := (m (j / 8)).toBitVec.getLsbD (j % 8)

/-- The word of `size` bytes at an address, low byte first. -/
def load (m : Memory) (a : Nat) : Nat → Nat
  | 0 => 0
  | size + 1 => (m a).toNat + 2 ^ 8 * load m (a + 1) size

/-- Store a word of `size` bytes. -/
def store (m : Memory) (a size v : Nat) : Memory := fun x =>
  if a ≤ x ∧ x < a + size then UInt8.ofNat (v / 2 ^ (8 * (x - a))) else m x

/-- Store the same byte `n` times. -/
def fill (m : Memory) (a n : Nat) (c : UInt8) : Memory := fun x =>
  if a ≤ x ∧ x < a + n then c else m x

/-- Store one byte. -/
def setByte (m : Memory) (a : Nat) (c : UInt8) : Memory := Function.update m a c

/-- The byte all of whose bits are the same. -/
def byteOf (v : Bool) : UInt8 := if v then 255 else 0

/-- The word of `size` bytes all of whose bits are the same. -/
def wordOf (v : Bool) (size : Nat) : Nat := if v then 2 ^ (8 * size) - 1 else 0

/-- Every bit of a stretch has the same value. -/
def AllBits (m : Memory) (lo hi : Nat) (v : Bool) : Prop := ∀ j, lo ≤ j → j < hi → m.bit j = v

/-- The bits of a stretch get one value, and no other bit changes. -/
def SetsBits (m m' : Memory) (lo hi : Nat) (v : Bool) : Prop :=
  ∀ j, m'.bit j = if lo ≤ j ∧ j < hi then v else m.bit j

theorem bit_byte (m : Memory) (a : Nat) {k : Nat} (hk : k < 8) :
    m.bit (8 * a + k) = (m a).toBitVec.getLsbD k := by
  unfold bit
  rw [mul_add_div (by decide), div_eq_of_lt hk, add_zero, mul_add_mod, mod_eq_of_lt hk]

theorem byte_ext {a b : UInt8} (h : ∀ k < 8, a.toBitVec.getLsbD k = b.toBitVec.getLsbD k) :
    a = b := by
  apply UInt8.toBitVec_inj.mp
  exact BitVec.eq_of_getLsbD_eq fun k hk => h k hk

theorem getLsbD_byteOf (v : Bool) {k : Nat} (hk : k < 8) : (byteOf v).toBitVec.getLsbD k = v := by
  cases v with
  | false =>
    exact BitVec.getLsbD_zero
  | true =>
    interval_cases k <;> rfl

/-! ## Reading -/

namespace AllBits

variable {m : Memory} {lo hi : Nat} {v : Bool}

theorem split (mid : Nat) (hlo : lo ≤ mid) (hhi : mid ≤ hi) :
    m.AllBits lo hi v ↔ m.AllBits lo mid v ∧ m.AllBits mid hi v := by
  constructor
  · intro h
    exact ⟨fun j hj hj' => h j hj (by omega), fun j hj hj' => h j (by omega) hj'⟩
  · rintro ⟨hlow, hhigh⟩ j hj hj'
    rcases lt_or_ge j mid with hlt | hge
    · exact hlow j hj hlt
    · exact hhigh j hge hj'

theorem empty : m.AllBits lo lo v := fun j hj hj' => absurd hj' (by omega)

theorem mono {lo' hi' : Nat} (h : m.AllBits lo hi v) (hlo : lo ≤ lo') (hhi : hi' ≤ hi) :
    m.AllBits lo' hi' v := fun j hj hj' => h j (by omega) (by omega)

end AllBits

theorem allBits_byte_iff (m : Memory) (a lo : Nat) {hi : Nat} (hhi : hi ≤ 8) (v : Bool) :
    m.AllBits (8 * a + lo) (8 * a + hi) v ↔
      ∀ k, lo ≤ k → k < hi → (m a).toBitVec.getLsbD k = v := by
  constructor
  · intro h k hk hk'
    rw [← m.bit_byte a (by omega)]
    exact h _ (by omega) (by omega)
  · intro h j hj hj'
    obtain ⟨k, rfl⟩ : ∃ k, j = 8 * a + k := ⟨j - 8 * a, by omega⟩
    rw [m.bit_byte a (by omega)]
    exact h k (by omega) (by omega)

theorem byte_eq_iff (m : Memory) (a : Nat) (v : Bool) :
    m a = byteOf v ↔ m.AllBits (8 * a) (8 * a + 8) v := by
  have hbits := m.allBits_byte_iff a 0 (le_refl 8) v
  rw [add_zero] at hbits
  rw [hbits]
  constructor
  · intro h k _ hk
    rw [h, getLsbD_byteOf v hk]
  · intro h
    exact byte_ext fun k hk => by rw [h k (zero_le _) hk, getLsbD_byteOf v hk]

theorem testBit_wordOf (v : Bool) (size k : Nat) :
    (wordOf v size).testBit k = (decide (k < 8 * size) && v) := by
  cases v with
  | false => simp [wordOf]
  | true => simp [wordOf, testBit_two_pow_sub_one]

theorem testBit_load (m : Memory) (size : Nat) : ∀ a k,
    (m.load a size).testBit k = (decide (k < 8 * size) && m.bit (8 * a + k)) := by
  induction size with
  | zero =>
    simp [load]
  | succ size ih =>
    intro a k
    rw [load, add_comm, testBit_two_pow_mul_add _ (UInt8.toNat_lt (m a))]
    split
    · rename_i hk
      rw [m.bit_byte a hk, decide_eq_true (by omega), Bool.true_and]
      rfl
    · have hk : k - 8 < 8 * size ↔ k < 8 * (size + 1) := by omega
      have hsum : 8 * (a + 1) + (k - 8) = 8 * a + k := by omega
      rw [ih, hsum, decide_eq_decide.mpr hk]

theorem load_eq_iff (m : Memory) (v : Bool) (size a : Nat) :
    m.load a size = wordOf v size ↔ m.AllBits (8 * a) (8 * (a + size)) v := by
  constructor
  · intro h j hj hj'
    have hbit := m.testBit_load size a (j - 8 * a)
    rw [h, testBit_wordOf, decide_eq_true (by omega), Nat.add_sub_cancel' hj] at hbit
    simpa using hbit.symm
  · intro h
    apply eq_of_testBit_eq
    intro k
    rw [testBit_load, testBit_wordOf]
    by_cases hk : k < 8 * size
    · rw [h _ (by omega) (by omega)]
    · simp [hk]

/-! ## Writing -/

namespace SetsBits

variable {m m' m'' : Memory} {lo mid hi : Nat} {v : Bool}

theorem refl (m : Memory) (lo : Nat) (v : Bool) : SetsBits m m lo lo v := by
  intro j
  rw [if_neg (by omega)]

theorem trans (h : SetsBits m m' lo mid v) (h' : SetsBits m' m'' mid hi v) (hlo : lo ≤ mid)
    (hhi : mid ≤ hi) : SetsBits m m'' lo hi v := by
  intro j
  rw [h' j, h j]
  by_cases hin : lo ≤ j ∧ j < hi
  · rw [if_pos hin]
    by_cases hhigh : mid ≤ j ∧ j < hi
    · rw [if_pos hhigh]
    · rw [if_neg hhigh, if_pos (by omega)]
  · rw [if_neg hin, if_neg (by omega), if_neg (by omega)]

theorem byte_eq (h : SetsBits m m' lo hi v) {a : Nat} (hout : 8 * a + 8 ≤ lo ∨ hi ≤ 8 * a) :
    m' a = m a := by
  apply byte_ext
  intro k hk
  rw [← m'.bit_byte a hk, ← m.bit_byte a hk, h, if_neg (by omega)]

end SetsBits

theorem setsBits_setByte (m : Memory) (lo : Nat) {a hi : Nat} {c : UInt8} {v : Bool} (hhi : hi ≤ 8)
    (hc : ∀ k < 8, c.toBitVec.getLsbD k =
      if lo ≤ k ∧ k < hi then v else (m a).toBitVec.getLsbD k) :
    SetsBits m (m.setByte a c) (8 * a + lo) (8 * a + hi) v := by
  intro j
  obtain ⟨k, hk, hj⟩ : ∃ k < 8, j = 8 * (j / 8) + k := ⟨j % 8, mod_lt _ (by decide), by omega⟩
  by_cases ha : j / 8 = a
  · rw [hj, ha, bit_byte _ _ hk, bit_byte _ _ hk]
    simp only [setByte, Function.update_self, hc k hk, add_le_add_iff_left, add_lt_add_iff_left]
  · rw [if_neg (by omega)]
    unfold bit setByte
    rw [Function.update_of_ne ha]

theorem setsBits_fill (m : Memory) (a n : Nat) (v : Bool) :
    SetsBits m (m.fill a n (byteOf v)) (8 * a) (8 * (a + n)) v := by
  intro j
  unfold bit fill
  by_cases hin : a ≤ j / 8 ∧ j / 8 < a + n
  · rw [if_pos hin, if_pos (by omega), getLsbD_byteOf v (mod_lt _ (by decide))]
  · rw [if_neg hin, if_neg (by omega)]

theorem bit_store (m : Memory) (a size v j : Nat) : (m.store a size v).bit j =
    if 8 * a ≤ j ∧ j < 8 * (a + size) then v.testBit (j - 8 * a) else m.bit j := by
  unfold bit store
  by_cases hin : a ≤ j / 8 ∧ j / 8 < a + size
  · rw [if_pos hin, if_pos (by omega)]
    change (BitVec.ofNat 8 _).getLsbD _ = _
    rw [BitVec.getLsbD_ofNat, decide_eq_true (mod_lt _ (by decide)), Bool.true_and,
      testBit_div_two_pow]
    congr 1
    omega
  · rw [if_neg hin, if_neg (by omega)]

theorem store_wordOf (m : Memory) (a size : Nat) (v : Bool) :
    m.store a size (wordOf v size) = m.fill a size (byteOf v) := by
  funext x
  apply byte_ext
  intro k hk
  rw [← bit_byte _ x hk, ← bit_byte _ x hk, bit_store, setsBits_fill]
  split
  · rw [testBit_wordOf, decide_eq_true (by omega), Bool.true_and]
  · rfl

end Memory

end OsKernel
