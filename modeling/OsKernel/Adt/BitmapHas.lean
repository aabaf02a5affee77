import OsKernel.Adt.BitmapProof

/-!
# Testing a range of a bitmap

The pass over 64-bit words, and after it those over smaller words and the last byte, all
start at the same byte, since nothing moves `ptr` on. What is left to test after a pass is
never looked at, and its place is taken by bits that were tested before. The answer is
right for every bitmap exactly when a single pass takes all there is: fewer than eight
bits, one byte, one 16-bit or 32-bit word, or some 64-bit words, whose number has to fit
into eight bits. For any other number of bits the last one is not looked at.
-/

namespace OsKernel.Adt

open Memory

namespace Bitmap

variable {count ptr size : Nat} {range : Range}

/-- `bitmap_has` answers what it is asked. -/
def HasExact (bitmap : Bitmap) (range : Range) : Prop :=
  ∀ (m : Memory) (value : Bool), ∃ result, bitmap.bitmapHas m range value = .ok result ∧
    (result = true ↔ ∀ i ∈ range.locs, bitmap.bitmapAt m i = value)

/-- The bits of a range that are not in a first byte it begins inside of. -/
def restCount (range : Range) : Nat :=
  if range.front % 8 = 0 then range.size else range.size - min range.size (8 - range.front % 8)

/-- One of the passes takes all of so many bits. -/
def OnePass (count : Nat) : Prop :=
  count < 8 ∨ count = 8 ∨ count = 16 ∨ count = 32 ∨ (64 ∣ count ∧ count / 64 < 2 ^ 8)

instance (count : Nat) : Decidable (OnePass count) := inferInstanceAs (Decidable (_ ∨ _))

section

variable (m : Memory) (v : Bool)

/-! ## One pass -/

theorem membufIsAll_iff (size count : Nat) : ∀ buf,
    membufIsAll m size (wordOf v size) buf count = true ↔
      m.AllBits (8 * buf) (8 * (buf + size * count)) v := by
  induction count with
  | zero =>
    intro buf
    exact iff_of_true rfl AllBits.empty
  | succ count ih =>
    intro buf
    have hend : buf + size * (count + 1) = buf + size + size * count := by ring
    rw [membufIsAll, hend, AllBits.split (8 * (buf + size)) (by omega) (by omega),
      ← load_eq_iff m v size buf, ← ih (buf + size)]
    by_cases hword : m.load buf size = wordOf v size
    · rw [if_neg (by simpa using hword)]
      simp only [hword, true_and]
    · rw [if_pos hword]
      simp only [hword, false_and, Bool.false_eq_true]

theorem checkMembuf_skip (h : count / 8 / size % 2 ^ 8 = 0) :
    checkMembuf m v size (.left ptr count) = .left ptr count := by
  simp only [checkMembuf, h, ne_eq, not_true_eq_false, if_false]

theorem checkMembuf_all (ptr : Nat) {words : Nat} (hsize : 0 < size) (hpos : words ≠ 0)
    (hwords : words < 2 ^ 8) :
    ∃ result, checkMembuf m v size (.left ptr (8 * size * words)) = .done result ∧
      (result = true ↔ m.AllBits (8 * ptr) (8 * ptr + 8 * size * words) v) := by
  have hcount : 8 * size * words / 8 / size % 2 ^ 8 = words := by
    rw [mul_assoc, Nat.mul_div_cancel_left _ (by decide), Nat.mul_div_cancel_left _ hsize,
      Nat.mod_eq_of_lt hwords]
  have hall : 8 * ptr + 8 * size * words = 8 * (ptr + size * words) := by ring
  have hleft : 8 * size * words - size * words * 8 = 0 := by
    rw [mul_assoc, mul_comm 8, Nat.sub_self]
  simp only [checkMembuf, hcount, ne_eq, hpos, not_false_eq_true, if_true, hleft]
  rw [hall, ← membufIsAll_iff m v size words ptr]
  cases membufIsAll m size (wordOf v size) ptr words with
  | false => exact ⟨false, rfl, Iff.rfl⟩
  | true => exact ⟨true, rfl, Iff.rfl⟩

theorem hasFirstByte_eq (ptr : Nat) {f : Nat} (hf : f < 8) (hcount : 0 < count) :
    let rest := if f = 0 then count else count - min count (8 - f)
    ∃ stage, hasFirstByte m ptr f count v = .ok stage ∧
      (¬ m.AllBits (8 * ptr + f) (8 * ptr + f + (count - rest)) v → stage = .done false) ∧
      (m.AllBits (8 * ptr + f) (8 * ptr + f + (count - rest)) v →
        (rest = 0 → stage = .done true) ∧
        (rest ≠ 0 → ∃ ptr', stage = .left ptr' rest ∧
          8 * ptr' = 8 * ptr + f + (count - rest))) := by
  dsimp only
  unfold hasFirstByte
  by_cases hzero : f = 0
  · subst hzero
    simp only [ne_eq, not_true_eq_false, if_false, if_true, Nat.sub_self, add_zero]
    exact ⟨_, rfl, fun h => absurd AllBits.empty h,
      fun _ => ⟨fun h => by omega, fun _ => ⟨ptr, rfl, rfl⟩⟩⟩
  · have htaken : count - (count - min count (8 - f)) = min count (8 - f) := by omega
    rw [if_pos hzero, if_neg hzero, htaken]
    dsimp only
    rw [maskForNBits_eq (n := min count (8 - f)) (by omega) (by omega), ok_bind]
    have hend : f + min count (8 - f) ≤ 8 := by omega
    have hbits := m.allBits_byte_iff ptr f hend v
    rw [← add_assoc] at hbits
    have hsame : ((m ptr).toNat >>> f &&& (2 ^ min count (8 - f) - 1)) % 2 ^ 8 =
        ((byteOf v).toNat &&& (2 ^ min count (8 - f) - 1)) % 2 ^ 8 ↔
        m.AllBits (8 * ptr + f) (8 * ptr + f + min count (8 - f)) v := by
      rw [masked_eq_iff _ _ (by omega), hbits]
      simp only [Nat.testBit_shiftRight]
      constructor
      · intro h k hk hk'
        have hbit := h (k - f) (by omega)
        rw [Nat.add_sub_cancel' hk] at hbit
        exact hbit.trans (getLsbD_byteOf v (by omega))
      · intro h k hk
        exact (h (f + k) (by omega) (by omega)).trans (getLsbD_byteOf v (by omega)).symm
    by_cases hall : m.AllBits (8 * ptr + f) (8 * ptr + f + min count (8 - f)) v
    · rw [if_neg (not_not.mpr (hsame.mpr hall))]
      by_cases hrest : count - min count (8 - f) = 0
      · rw [if_pos hrest]
        exact ⟨_, rfl, fun h => absurd hall h, fun _ => ⟨fun _ => rfl, fun h => absurd hrest h⟩⟩
      · rw [if_neg hrest]
        exact ⟨_, rfl, fun h => absurd hall h,
          fun _ => ⟨fun h => absurd h hrest, fun _ => ⟨ptr + 1, rfl, by omega⟩⟩⟩
    · rw [if_pos (mt hsame.mp hall)]
      exact ⟨_, rfl, fun _ => rfl, fun h => absurd h hall⟩

/-! ## All passes -/

/-- What `bitmap_has` does after the first byte. -/
def hasRest (ptr count : Nat) : Result Bool :=
  hasLastByte m v (checkMembuf m v 1 (checkMembuf m v 2 (checkMembuf m v 4
    (checkMembuf m v 8 (.left ptr count)))))

theorem hasRest_of_onePass (ptr : Nat) (hpos : 0 < count) (hone : OnePass count) :
    ∃ result, hasRest m v ptr count = .ok result ∧
      (result = true ↔ m.AllBits (8 * ptr) (8 * ptr + count) v) := by
  unfold hasRest
  rcases hone with hsmall | rfl | rfl | rfl | ⟨⟨words, rfl⟩, hwords⟩
  · have hskip : ∀ size, count / 8 / size % 2 ^ 8 = 0 := fun size => by
      rw [Nat.div_eq_of_lt hsmall, Nat.zero_div, Nat.zero_mod]
    rw [checkMembuf_skip m v (hskip 8), checkMembuf_skip m v (hskip 4),
      checkMembuf_skip m v (hskip 2), checkMembuf_skip m v (hskip 1)]
    have hbits := m.allBits_byte_iff ptr 0 hsmall.le v
    rw [add_zero] at hbits
    simp only [hasLastByte]
    rw [maskForNBits_eq hpos hsmall.le, ok_bind, pure_eq_ok]
    refine ⟨_, rfl, ?_⟩
    rw [beq_iff_eq, masked_eq_iff _ _ hsmall.le, hbits]
    constructor
    · intro h k _ hk
      have hbyte := getLsbD_byteOf v (k := k) (by omega)
      rw [← hbyte]
      exact h k hk
    · intro h k hk
      have hbyte := getLsbD_byteOf v (k := k) (by omega)
      rw [← hbyte] at h
      exact h k (Nat.zero_le _) hk
  · obtain ⟨result, hpass, hiff⟩ := checkMembuf_all m v ptr (show 0 < 1 by decide)
      Nat.one_ne_zero (by decide)
    rw [checkMembuf_skip m v (by decide), checkMembuf_skip m v (by decide),
      checkMembuf_skip m v (by decide), hpass]
    exact ⟨result, rfl, hiff⟩
  · obtain ⟨result, hpass, hiff⟩ := checkMembuf_all m v ptr (show 0 < 2 by decide)
      Nat.one_ne_zero (by decide)
    rw [checkMembuf_skip m v (by decide), checkMembuf_skip m v (by decide), hpass]
    exact ⟨result, rfl, hiff⟩
  · obtain ⟨result, hpass, hiff⟩ := checkMembuf_all m v ptr (show 0 < 4 by decide)
      Nat.one_ne_zero (by decide)
    rw [checkMembuf_skip m v (by decide), hpass]
    exact ⟨result, rfl, hiff⟩
  · rw [Nat.mul_div_cancel_left _ (by decide)] at hwords
    obtain ⟨result, hpass, hiff⟩ := checkMembuf_all m v ptr (show 0 < 8 by decide)
      (show words ≠ 0 by omega) hwords
    rw [hpass]
    exact ⟨result, rfl, hiff⟩

/-- Nothing has spoken against `count` bits from `ptr` on, whose last bit has not been looked at. -/
def Passed (ptr count : Nat) (skipped : Nat → Prop) : Stage → Prop
  | .done result => result = true
  | .left ptr' left => ptr' = ptr ∧ left ≤ count ∧ (left = count → skipped count)

/-- A pass that does not reach the last bit says nothing against the rest. -/
theorem Passed.checkMembuf {m : Memory} {v : Bool} (size : Nat) {skipped : Nat → Prop}
    {stage : Stage} (hbits : m.AllBits (8 * ptr) (8 * ptr + (count - 1)) v)
    (h : Passed ptr count skipped stage)
    (hpart : skipped count → size * (count / 8 / size % 2 ^ 8) * 8 ≠ count) :
    Passed ptr count (fun n => n / 8 / size % 2 ^ 8 = 0) (checkMembuf m v size stage) := by
  cases stage with
  | done result => exact h
  | left ptr' left =>
    obtain ⟨rfl, hle, hskip⟩ := h
    by_cases hwords : left / 8 / size % 2 ^ 8 = 0
    · rw [checkMembuf_skip m v hwords]
      exact ⟨rfl, hle, fun heq => heq ▸ hwords⟩
    · have htaken : size * (left / 8 / size % 2 ^ 8) * 8 ≤ left := by
        calc size * (left / 8 / size % 2 ^ 8) * 8 ≤ size * (left / 8 / size) * 8 :=
              Nat.mul_le_mul_right _ (Nat.mul_le_mul_left _ (Nat.mod_le _ _))
          _ ≤ left / 8 * 8 := Nat.mul_le_mul_right _ (Nat.mul_div_le _ _)
          _ ≤ left := Nat.div_mul_le_self _ _
      have hshort : size * (left / 8 / size % 2 ^ 8) * 8 ≤ count - 1 := by
        rcases lt_or_ge left count with hlt | hge
        · omega
        · have heq : left = count := le_antisymm hle hge
          have := hpart (hskip heq)
          rw [heq] at htaken ⊢
          omega
      have hall : membufIsAll m size (wordOf v size) ptr' (left / 8 / size % 2 ^ 8) = true := by
        rw [membufIsAll_iff]
        exact hbits.mono (le_refl _) (by omega)
      have hpos : 0 < size * (left / 8 / size % 2 ^ 8) * 8 := by
        rcases Nat.eq_zero_or_pos size with rfl | hsize
        · exact absurd (by rw [Nat.div_zero, Nat.zero_mod]) hwords
        · positivity
      simp only [Bitmap.checkMembuf, ne_eq, hwords, not_false_eq_true, if_true, hall,
        Bool.not_true, Bool.false_eq_true, if_false]
      split
      · rfl
      · exact ⟨rfl, by omega, fun heq => by omega⟩

/-- If no pass takes all the bits, the last of them is not looked at. -/
theorem hasRest_ne_false (hone : ¬ OnePass count)
    (hbits : m.AllBits (8 * ptr) (8 * ptr + (count - 1)) v) : hasRest m v ptr count ≠ .ok false := by
  simp only [OnePass, not_or, not_and_or] at hone
  have hstart : Passed ptr count (fun _ => True) (.left ptr count) :=
    ⟨rfl, le_refl _, fun _ => trivial⟩
  -- a pass after one that found no whole word finds one word at most
  have hfour : Passed ptr count (fun n => n / 8 / 8 % 2 ^ 8 = 0) _ :=
    hstart.checkMembuf 8 hbits (fun _ => by omega)
  have htwo : Passed ptr count (fun n => n / 8 / 4 % 2 ^ 8 = 0) _ :=
    hfour.checkMembuf 4 hbits (fun _ => by omega)
  have hone : Passed ptr count (fun n => n / 8 / 2 % 2 ^ 8 = 0) _ :=
    htwo.checkMembuf 2 hbits (fun _ => by omega)
  have hlast : Passed ptr count (fun n => n / 8 / 1 % 2 ^ 8 = 0) _ :=
    hone.checkMembuf 1 hbits (fun _ => by omega)
  unfold hasRest
  revert hlast
  generalize Bitmap.checkMembuf m v 1 _ = stage
  intro hlast
  cases stage with
  | done result =>
    rw [show result = true from hlast]
    simp [hasLastByte]
  | left ptr' left =>
    obtain ⟨rfl, -, -⟩ := hlast
    -- whatever the mask is, the byte that is tested has the value in all its bits
    have hbyte : m ptr' = byteOf v := (m.byte_eq_iff ptr' v).mpr (hbits.mono (le_refl _) (by omega))
    simp only [hasLastByte, hbyte]
    cases maskForNBits left with
    | error e => simp [bind, Except.bind]
    | ok mask => simp

end

/-! ## The whole function -/

theorem locs_allBits_iff (bitmap : Bitmap) (m : Memory) (range : Range) (v : Bool) :
    (∀ i ∈ range.locs, bitmap.bitmapAt m i = v) ↔
      m.AllBits (8 * bitmap.begin + range.front) (8 * bitmap.begin + range.end_) v := by
  constructor
  · intro h j hj hj'
    have hat := h (j - 8 * bitmap.begin) ⟨by omega, by omega⟩
    rw [bitmapAt_eq, Nat.add_sub_cancel' (by omega)] at hat
    exact hat
  · intro h i hi
    rw [bitmapAt_eq]
    exact h _ (Nat.add_le_add_left hi.1 _) (Nat.add_lt_add_left hi.2 _)

theorem indexRangeInBounds_iff {bounds : Nat} (hpos : 0 < range.size) (hbounds : bounds < U64) :
    indexRangeInBounds range bounds = true ↔ range.end_ ≤ bounds := by
  have hend : 0 < range.end_ := Nat.add_pos_right _ hpos
  unfold indexRangeInBounds
  cases hget : range.getEnd with
  | none =>
    have hover : ¬ range.end_ < U64 := fun hlt => by
      rw [Range.getEnd_eq_some.mpr ⟨rfl, hlt⟩] at hget
      cases hget
    exact iff_of_false (by simp) (by omega)
  | some end_ =>
    obtain ⟨rfl, -⟩ := Range.getEnd_eq_some.mp hget
    simp only [Bool.and_eq_true, decide_eq_true_eq]
    omega

theorem bitmapCapacity_lt (bitmap : Bitmap) : bitmap.bitmapCapacity < U64 :=
  lt_of_lt_of_le (Nat.mod_lt _ (by decide)) (by decide)

theorem bitmapHas_eq {bitmap : Bitmap} (m : Memory) (v : Bool) (hpos : 0 < range.size)
    (hin : range.end_ ≤ bitmap.bitmapCapacity) :
    ∃ mid, 8 * bitmap.begin + range.front ≤ mid ∧
      mid + restCount range = 8 * bitmap.begin + range.end_ ∧
      (¬ m.AllBits (8 * bitmap.begin + range.front) mid v →
        bitmap.bitmapHas m range v = .ok false) ∧
      (m.AllBits (8 * bitmap.begin + range.front) mid v →
        (restCount range = 0 → bitmap.bitmapHas m range v = .ok true) ∧
        (restCount range ≠ 0 → ∃ ptr, 8 * ptr = mid ∧
          bitmap.bitmapHas m range v = hasRest m v ptr (restCount range))) := by
  have hbounds := (indexRangeInBounds_iff hpos bitmap.bitmapCapacity_lt).mpr hin
  obtain ⟨stage, hstage, hfalse, htrue⟩ :=
    hasFirstByte_eq m v (bitmap.begin + range.front / 8)
      (Nat.mod_lt range.front (show 0 < 8 by decide)) hpos
  have hstart : 8 * (bitmap.begin + range.front / 8) + range.front % 8 =
      8 * bitmap.begin + range.front := by omega
  rw [hstart] at hfalse htrue
  have hrest : restCount range ≤ range.size := by
    unfold restCount
    split <;> omega
  have hrun : bitmap.bitmapHas m range v = hasLastByte m v (checkMembuf m v 1 (checkMembuf m v 2
      (checkMembuf m v 4 (checkMembuf m v 8 stage)))) := by
    unfold bitmapHas
    rw [if_neg (by omega), hbounds, if_neg (by decide), hstage]
    rfl
  refine ⟨8 * bitmap.begin + range.front + (range.size - restCount range), by omega, ?_, ?_, ?_⟩
  · rw [Range.end_]
    omega
  · intro hno
    rw [hrun, hfalse hno]
    rfl
  · intro hall
    obtain ⟨hnone, hsome⟩ := htrue hall
    refine ⟨fun hzero => ?_, fun hmore => ?_⟩
    · rw [hrun, hnone hzero]
      rfl
    · obtain ⟨ptr, rfl, hptr⟩ := hsome hmore
      exact ⟨ptr, hptr, hrun⟩

/-- All bits are set but the last one of the range. -/
def allButLast (bitmap : Bitmap) (range : Range) : Memory := fun a =>
  if a = (8 * bitmap.begin + range.end_ - 1) / 8 then
    ~~~UInt8.ofNat (2 ^ ((8 * bitmap.begin + range.end_ - 1) % 8))
  else 255

theorem bit_allButLast (bitmap : Bitmap) (range : Range) (j : Nat) :
    (allButLast bitmap range).bit j = decide (j ≠ 8 * bitmap.begin + range.end_ - 1) := by
  have hj : j % 8 < 8 := Nat.mod_lt _ (by decide)
  unfold bit allButLast
  by_cases hbyte : j / 8 = (8 * bitmap.begin + range.end_ - 1) / 8
  · have hpow : (UInt8.ofNat (2 ^ ((8 * bitmap.begin + range.end_ - 1) % 8))).toBitVec.getLsbD
        (j % 8) = decide ((8 * bitmap.begin + range.end_ - 1) % 8 = j % 8) := by
      change (BitVec.ofNat 8 _).getLsbD _ = _
      rw [BitVec.getLsbD_ofNat, Nat.testBit_two_pow, decide_eq_true hj, Bool.true_and]
    rw [if_pos hbyte, UInt8.toBitVec_not, BitVec.getLsbD_not, hpow, decide_eq_true hj,
      Bool.true_and, ← decide_not]
    apply decide_eq_decide.mpr
    omega
  · rw [if_neg hbyte, decide_eq_true (by rintro rfl; exact hbyte rfl)]
    exact getLsbD_byteOf true hj

/--
**Testing a range of bits.** For every bitmap and every range of bits that is not empty,
`bitmap_has` returns the right answer for all contents and both values exactly when the range ends
within the capacity, which is kept in 32 bits, and one pass takes all the bits behind the first byte.
-/
theorem bitmapHas_exact_iff (bitmap : Bitmap) (range : Range) (hpos : 0 < range.size) :
    bitmap.HasExact range ↔
      range.end_ ≤ bitmap.bitmapCapacity ∧ OnePass (restCount range) := by
  constructor
  · intro hexact
    have hin : range.end_ ≤ bitmap.bitmapCapacity := by
      by_contra hout
      obtain ⟨result, hrun, -⟩ := hexact (fun _ => 0) false
      have hbounds := mt (indexRangeInBounds_iff hpos bitmap.bitmapCapacity_lt).mp hout
      unfold bitmapHas at hrun
      rw [if_neg (by omega), if_pos (by simpa using hbounds)] at hrun
      cases hrun
    refine ⟨hin, ?_⟩
    by_contra hone
    -- only the last bit is not set, and nothing looks at it
    obtain ⟨result, hrun, hiff⟩ := hexact (allButLast bitmap range) true
    obtain ⟨mid, hlow, hmid, -, htrue⟩ := bitmapHas_eq (allButLast bitmap range) true hpos hin
    have hrest : ¬ restCount range < 8 := fun h => hone (Or.inl h)
    have hbits : (allButLast bitmap range).AllBits (8 * bitmap.begin + range.front)
        (8 * bitmap.begin + range.end_ - 1) true := by
      intro j _ hj
      rw [bit_allButLast, decide_eq_true (by omega)]
    obtain ⟨ptr, rfl, hhas⟩ := (htrue (hbits.mono (le_refl _) (by omega))).2 (by omega)
    have hresult : result = false := by
      rw [Bool.eq_false_iff]
      intro htest
      have hlast := (locs_allBits_iff bitmap _ range true).mp (hiff.mp htest)
        (8 * bitmap.begin + range.end_ - 1) (by omega) (by omega)
      rw [bit_allButLast] at hlast
      simp at hlast
    rw [hhas, hresult] at hrun
    exact hasRest_ne_false _ true hone (hbits.mono (by omega) (by omega)) hrun
  · rintro ⟨hin, hone⟩ m v
    obtain ⟨mid, hlow, hmid, hfalse, htrue⟩ := bitmapHas_eq m v hpos hin
    rw [locs_allBits_iff, AllBits.split mid hlow (by omega), ← hmid]
    by_cases hall : m.AllBits (8 * bitmap.begin + range.front) mid v
    · obtain ⟨hnone, hsome⟩ := htrue hall
      by_cases hrest : restCount range = 0
      · refine ⟨true, hnone hrest, iff_of_true rfl ⟨hall, ?_⟩⟩
        rw [hrest, add_zero]
        exact AllBits.empty
      · obtain ⟨ptr, rfl, hhas⟩ := hsome hrest
        obtain ⟨result, hrun, hiff⟩ := hasRest_of_onePass m v ptr (by omega) hone
        exact ⟨result, hhas.trans hrun, hiff.trans (and_iff_right hall).symm⟩
    · exact ⟨false, hfalse hall, iff_of_false (by simp) fun h => hall h.1⟩

/-- Two 64-bit words behind five bits of a byte. -/
theorem bitmapHas_exact_iff_words : HasExact ⟨0x1000, 0x1020⟩ ⟨3, 133⟩ :=
  (bitmapHas_exact_iff ⟨0x1000, 0x1020⟩ ⟨3, 133⟩ (by decide)).mpr (by decide)

/-- Nine bits, the first eight of them set: the ninth is not looked at. -/
theorem bitmapHas_nine_bits :
    bitmapHas ⟨0x1000, 0x1002⟩ (fun a => if a = 0x1000 then 255 else 0) ⟨0, 9⟩ true = .ok true ∧
      bitmapAt ⟨0x1000, 0x1002⟩ (fun a => if a = 0x1000 then 255 else 0) 8 = false := by
  decide

end Bitmap

end OsKernel.Adt
