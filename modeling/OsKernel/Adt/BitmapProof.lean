import OsKernel.Adt.Bitmap

/-!
# Writing a range of a bitmap

The first byte, the whole bytes and the last byte are stretches of bits laid end to end,
and together they are the range. Any of the three may be missing: a range that ends in its
first byte has no other part, one that begins with a byte has no first part.
-/

namespace OsKernel.Adt

open Memory

/-! ## Masks -/

theorem maskForNBits_eq {n : Nat} (hpos : 0 < n) (hn : n ≤ 8) : maskForNBits n = .ok (2 ^ n - 1) := by
  interval_cases n <;> rfl

theorem getLsbD_setBitsForMask (byte : UInt8) (mask : Nat) (v : Bool) {k : Nat} (hk : k < 8) :
    (setBitsForMask byte mask v).toBitVec.getLsbD k =
      if mask.testBit k then v else byte.toBitVec.getLsbD k := by
  have hmask : (UInt8.ofNat mask).toBitVec.getLsbD k = mask.testBit k := by
    change (BitVec.ofNat 8 mask).getLsbD k = mask.testBit k
    rw [BitVec.getLsbD_ofNat, decide_eq_true hk, Bool.true_and]
  unfold setBitsForMask
  cases v with
  | false =>
    rw [if_neg (by decide), UInt8.toBitVec_and, UInt8.toBitVec_not, BitVec.getLsbD_and,
      BitVec.getLsbD_not, hmask, decide_eq_true hk]
    cases mask.testBit k with
    | false => simp
    | true => simp
  | true =>
    rw [if_pos rfl, UInt8.toBitVec_or, BitVec.getLsbD_or, hmask]
    cases mask.testBit k with
    | false => simp
    | true => simp

theorem masked_eq_iff (x y : Nat) {n : Nat} (hn : n ≤ 8) :
    (x &&& (2 ^ n - 1)) % 2 ^ 8 = (y &&& (2 ^ n - 1)) % 2 ^ 8 ↔
      ∀ k < n, x.testBit k = y.testBit k := by
  have hpow : 2 ^ n ≤ 2 ^ 8 := Nat.pow_le_pow_right (by decide) hn
  have hsmall : ∀ z : Nat, z % 2 ^ n % 2 ^ 8 = z % 2 ^ n := fun z =>
    Nat.mod_eq_of_lt (lt_of_lt_of_le (Nat.mod_lt z (Nat.two_pow_pos n)) hpow)
  rw [Nat.and_two_pow_sub_one_eq_mod, Nat.and_two_pow_sub_one_eq_mod, hsmall, hsmall]
  constructor
  · intro h k hk
    have hbit := congrArg (fun z => z.testBit k) h
    simpa only [Nat.testBit_mod_two_pow, hk, decide_true, Bool.true_and] using hbit
  · intro h
    apply Nat.eq_of_testBit_eq
    intro k
    rw [Nat.testBit_mod_two_pow, Nat.testBit_mod_two_pow]
    by_cases hk : k < n
    · rw [h k hk]
    · rw [decide_eq_false hk, Bool.false_and, Bool.false_and]

theorem and_two_pow_ne_zero (x k : Nat) : (x &&& 2 ^ k != 0) = x.testBit k := by
  have hother : ∀ j, (x &&& 2 ^ k).testBit j = (x.testBit k && decide (k = j)) := by
    intro j
    rw [Nat.testBit_and, Nat.testBit_two_pow]
    by_cases hj : k = j
    · rw [hj]
    · rw [decide_eq_false hj, Bool.and_false, Bool.and_false]
  cases hbit : x.testBit k with
  | false =>
    have hzero : x &&& 2 ^ k = 0 := Nat.eq_of_testBit_eq fun j => by
      rw [hother, hbit, Bool.false_and, Nat.zero_testBit]
    rw [hzero]
    rfl
  | true =>
    rw [bne_iff_ne]
    intro hzero
    have hset := hother k
    rw [hzero, hbit, Nat.zero_testBit, decide_eq_true rfl] at hset
    cases hset

/-! ## Filling bytes -/

theorem fill_fill (m : Memory) (a n k : Nat) (c : UInt8) :
    (m.fill a n c).fill (a + n) k c = m.fill a (n + k) c := by
  funext x
  unfold fill
  by_cases hsecond : a + n ≤ x ∧ x < a + n + k
  · rw [if_pos hsecond, if_pos (by omega)]
  · rw [if_neg hsecond]
    by_cases hfirst : a ≤ x ∧ x < a + n
    · rw [if_pos hfirst, if_pos (by omega)]
    · rw [if_neg hfirst, if_neg (by omega)]

theorem fill_zero (m : Memory) (a : Nat) (c : UInt8) : m.fill a 0 c = m := by
  funext x
  unfold fill
  rw [if_neg (by omega)]

theorem fillWords_eq {size word : Nat} {c : UInt8} (hsize : 0 < size)
    (hword : ∀ (m : Memory) a, m.store a size word = m.fill a size c) (n : Nat) :
    ∀ (m : Memory) (dst : Nat), fillWords size word m dst n =
      (m.fill dst (n - n % size) c, dst + (n - n % size), n % size) := by
  induction n using Nat.strong_induction_on with
  | _ n ih =>
    intro m dst
    rw [fillWords]
    by_cases hle : size ≤ n
    · rw [dif_pos ⟨hsize, hle⟩, ih (n - size) (by omega), hword, fill_fill,
        ← Nat.mod_eq_sub_mod hle]
      have hmod : n % size ≤ n - size := by
        rw [Nat.mod_eq_sub_mod hle]
        exact Nat.mod_le _ _
      have hsum : size + (n - size - n % size) = n - n % size := by omega
      rw [hsum, add_assoc dst, hsum]
    · rw [dif_neg (fun h => hle h.2), Nat.mod_eq_of_lt (by omega), Nat.sub_self, fill_zero,
        add_zero]

/-- However the bytes are cut into words, all of them are stored. -/
theorem fillDescending_eq (v : Bool) (m : Memory) (dst n : Nat) :
    fillDescending (byteOf v) (wordOf v) m dst n = m.fill dst n (byteOf v) := by
  unfold fillDescending
  split
  · rfl
  · have hwords : ∀ size > 0, ∀ n m dst, fillWords size (wordOf v size) m dst n =
        (m.fill dst (n - n % size) (byteOf v), dst + (n - n % size), n % size) :=
      fun size hsize => fillWords_eq hsize fun m a => store_wordOf m a size v
    simp only [hwords 8 (by decide), hwords 4 (by decide), hwords 2 (by decide), hwords 1 (by decide),
      fill_fill, Nat.mod_one, Nat.sub_zero, add_assoc]
    congr 1
    omega

namespace Bitmap

theorem bitmapAt_eq (bitmap : Bitmap) (m : Memory) (i : Nat) :
    bitmap.bitmapAt m i = m.bit (8 * bitmap.begin + i) := by
  have hdiv : (8 * bitmap.begin + i) / 8 = bitmap.begin + i / 8 := Nat.mul_add_div (by decide) _ _
  have hmod : (8 * bitmap.begin + i) % 8 = i % 8 := Nat.mul_add_mod _ _ _
  unfold bitmapAt bit
  rw [hdiv, hmod, Nat.one_shiftLeft, and_two_pow_ne_zero]
  rfl

/-! ## Writing a range -/

section

variable (m : Memory) (v : Bool)

/-- The first byte takes its share, and leaves nothing or stops at the end of the byte. -/
theorem setFirstByte_eq (ptr : Nat) {f left : Nat} (hf : f < 8) (hleft : 0 < left) :
    ∃ m' ptr' mid left', setFirstByte m ptr f left v = .ok (m', ptr', left') ∧
      SetsBits m m' (8 * ptr + f) mid v ∧ 8 * ptr + f ≤ mid ∧ mid + left' = 8 * ptr + f + left ∧
      (left' = 0 ∨ mid = 8 * ptr') := by
  unfold setFirstByte
  by_cases hzero : f = 0
  · subst hzero
    exact ⟨m, ptr, 8 * ptr + 0, left, rfl, SetsBits.refl m _ v, le_refl _, rfl, Or.inr rfl⟩
  · rw [if_pos hzero]
    dsimp only
    rw [maskForNBits_eq (n := min left (8 - f)) (by omega) (by omega), ok_bind, pure_eq_ok]
    refine ⟨_, _, 8 * ptr + (f + min left (8 - f)), _, rfl, ?_, by omega, by omega, by omega⟩
    apply setsBits_setByte m f (by omega)
    intro k hk
    rw [getLsbD_setBitsForMask _ _ _ hk, Nat.testBit_mod_two_pow, Nat.testBit_shiftLeft,
      Nat.testBit_two_pow_sub_one, decide_eq_true hk, Bool.true_and]
    by_cases hin : f ≤ k ∧ k < f + min left (8 - f)
    · rw [if_pos hin, if_pos]
      simp only [Bool.and_eq_true, decide_eq_true_eq]
      omega
    · rw [if_neg hin, if_neg]
      simp only [Bool.and_eq_true, decide_eq_true_eq]
      omega

theorem setWholeBytes_eq (ptr left : Nat) :
    ∃ m' ptr', setWholeBytes m ptr left v = (m', ptr', left % 8) ∧
      SetsBits m m' (8 * ptr) (8 * ptr') v ∧ 8 * ptr' + left % 8 = 8 * ptr + left := by
  unfold setWholeBytes
  by_cases hcount : left / 8 = 0
  · rw [if_neg (by simpa using hcount)]
    refine ⟨m, ptr, ?_, SetsBits.refl m _ v, by omega⟩
    rw [Nat.mod_eq_of_lt (by omega)]
  · rw [if_pos hcount]
    have hfill : (if v = true then memsetAllOnes m ptr (left / 8) else bzero m ptr (left / 8)) =
        m.fill ptr (left / 8) (byteOf v) := by
      cases v with
      | false => exact fillDescending_eq false m ptr (left / 8)
      | true => exact fillDescending_eq true m ptr (left / 8)
    have hleft : left - left / 8 * 8 = left % 8 := by omega
    rw [hfill, hleft]
    exact ⟨_, _, rfl, setsBits_fill m ptr (left / 8) v, by omega⟩

theorem setLastByte_eq (ptr : Nat) {left : Nat} (hleft : left < 8) :
    ∃ m', setLastByte m ptr left v = .ok m' ∧ SetsBits m m' (8 * ptr) (8 * ptr + left) v := by
  unfold setLastByte
  by_cases hzero : left = 0
  · subst hzero
    exact ⟨m, rfl, SetsBits.refl m _ v⟩
  · rw [if_pos hzero, maskForNBits_eq (by omega) (by omega), ok_bind, pure_eq_ok]
    refine ⟨_, rfl, ?_⟩
    refine setsBits_setByte m 0 (by omega) ?_
    intro k hk
    rw [getLsbD_setBitsForMask _ _ _ hk, Nat.testBit_two_pow_sub_one]
    simp only [zero_le, true_and, decide_eq_true_eq]

/-- The three parts, laid end to end. -/
theorem bitmapSetRange_bits (bitmap : Bitmap) {range : Range} (hpos : 0 < range.size) :
    ∃ m', bitmap.bitmapSetRange m range v = .ok m' ∧
      SetsBits m m' (8 * bitmap.begin + range.front) (8 * bitmap.begin + range.end_) v := by
  have hstart : 8 * (bitmap.begin + range.front / 8) + range.front % 8 =
      8 * bitmap.begin + range.front := by omega
  obtain ⟨m₁, ptr₁, mid, left₁, hfirst, hset₁, hle, hsum, hat⟩ :=
    setFirstByte_eq m v (bitmap.begin + range.front / 8) (Nat.mod_lt range.front (by decide)) hpos
  rw [hstart] at hset₁ hle hsum
  obtain ⟨m₂, ptr₂, hwhole, hset₂, hsum₂⟩ := setWholeBytes_eq m₁ v ptr₁ left₁
  obtain ⟨m₃, hlast, hset₃⟩ := setLastByte_eq m₂ v ptr₂ (Nat.mod_lt left₁ (show 0 < 8 by decide))
  refine ⟨m₃, ?_, ?_⟩
  · unfold bitmapSetRange
    rw [hfirst, ok_bind]
    dsimp only
    rw [hwhole]
    exact hlast
  · have hrest := hset₂.trans hset₃ (by omega) (by omega)
    rw [hsum₂] at hrest
    have hend : 8 * bitmap.begin + range.end_ = 8 * bitmap.begin + range.front + range.size := by
      rw [Range.end_]
      omega
    rw [hend, ← hsum]
    rcases hat with hnone | hmid
    · -- the range ends inside the first byte, and nothing else is written
      subst hnone
      intro j
      rw [hrest j, if_neg (by omega)]
      exact hset₁ j
    · rw [← hmid] at hrest
      exact hset₁.trans hrest hle (by omega)

end

end Bitmap

end OsKernel.Adt
