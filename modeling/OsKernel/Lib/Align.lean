import Mathlib

/-!
# Alignment (`lib/align.h`, `lib/align.c`)

Addresses are 64-bit, held as natural numbers below `2 ^ 64`. The boundary is a
power of two everywhere the kernel passes one, and then the mask arithmetic of
the source is division with remainder.
-/

namespace OsKernel

open BitVec Nat

variable {n k m : Nat} {a : Nat}

/-- The number of 64-bit words. -/
abbrev U64 : Nat := 2 ^ 64

/-- Unsigned 64-bit subtraction. -/
def sub64 (a b : Nat) : Nat := if b ≤ a then a - b else a + U64 - b

/-- Unsigned 64-bit addition. -/
def add64 (a b : Nat) : Nat := (a + b) % U64

theorem sub64_of_le {a b : Nat} (h : b ≤ a) : sub64 a b = a - b := if_pos h

/-- `has_align`: the bits below the boundary are clear. -/
def hasAlign (number boundary : Nat) : Bool := number &&& (boundary - 1) == 0

/-- `align_down`: clear the bits below the boundary, `number & ~(boundary - 1)`. -/
def alignDown (number boundary : Nat) : Nat := number &&& (U64 - 1 - (boundary - 1))

/-- `align_up`: `none` where the source returns false, on a zero boundary or an overflow. -/
def alignUp (number boundary : Nat) : Option Nat :=
  if boundary = 0 ∨ U64 ≤ number + (boundary - 1) then none
  else some (alignDown (number + (boundary - 1)) boundary)

theorem hasAlign_two_pow : hasAlign n (2 ^ k) = true ↔ 2 ^ k ∣ n := by
  unfold hasAlign
  rw [beq_iff_eq, and_two_pow_sub_one_eq_mod, dvd_iff_mod_eq_zero]

private theorem testBit_highMask {i : Nat} (hk : k ≤ 64) :
    (2 ^ 64 - 1 - (2 ^ k - 1)).testBit i = decide (k ≤ i ∧ i < 64) := by
  have hsplit : 2 ^ 64 - 1 - (2 ^ k - 1) = (2 ^ (64 - k) - 1) <<< k := by
    rw [Nat.shiftLeft_eq, Nat.sub_mul, ← pow_add, Nat.sub_add_cancel hk]
    have := Nat.one_le_two_pow (n := k)
    omega
  rw [hsplit, testBit_shiftLeft, testBit_two_pow_sub_one]
  by_cases hki : k ≤ i
  · simp [hki]
    omega
  · simp [hki]

theorem alignDown_two_pow (hk : k ≤ 64) (hn : n < 2 ^ 64) :
    alignDown n (2 ^ k) = n - n % 2 ^ k := by
  have hdiv : n - n % 2 ^ k = (n / 2 ^ k) <<< k := by
    have := div_add_mod n (2 ^ k)
    rw [mul_comm] at this
    omega
  rw [hdiv]
  unfold alignDown U64
  apply eq_of_testBit_eq
  intro i
  rw [testBit_and, testBit_highMask hk, testBit_shiftLeft, testBit_div_two_pow]
  by_cases hki : k ≤ i
  · by_cases hi : i < 64
    · simp [hki, hi]
    · have hbit : n.testBit i = false :=
        Nat.testBit_lt_two_pow (lt_of_lt_of_le hn (Nat.pow_le_pow_right (by decide) (by omega)))
      simp [hki, hbit]
  · simp [hki]

/-- `align_up` on a power of two gives the least multiple at or above the number. -/
theorem alignUp_two_pow (hk : k ≤ 64) (h : alignUp n (2 ^ k) = some m) :
    2 ^ k ∣ m ∧ n ≤ m ∧ m < n + 2 ^ k ∧ m < 2 ^ 64 := by
  unfold alignUp at h
  split at h
  · simp at h
  · rename_i hno
    have hlt : n + (2 ^ k - 1) < 2 ^ 64 := by simp only [U64] at hno; omega
    injection h with h
    rw [alignDown_two_pow hk hlt] at h
    refine ⟨?_, by omega, by omega, by omega⟩
    rw [← h]
    exact dvd_sub_mod _

theorem le_masked_add {x : Nat} (hx : x < 2 ^ 64) (hm : m < 2 ^ 64) :
    x ≤ (x &&& (2 ^ 64 - 1 - m)) + m := by
  have hsplit : BitVec.ofNat 64 x
      = (BitVec.ofNat 64 x &&& BitVec.ofNat 64 m) + (BitVec.ofNat 64 x &&& ~~~BitVec.ofNat 64 m) := by
    rw [add_eq_or_of_and_eq_zero]
    · grind
    · grind
  have hnat := congrArg BitVec.toNat hsplit
  simp only [toNat_add, toNat_and, toNat_not, toNat_ofNat,
    mod_eq_of_lt hx, mod_eq_of_lt hm] at hnat
  have hand : x &&& m ≤ m := and_le_right
  omega

theorem le_alignUp {b : Nat} (h : alignUp n b = some m) : n ≤ m := by
  unfold alignUp at h
  split at h
  · cases h
  · rename_i hno
    injection h with h
    have hsum : n + (b - 1) < 2 ^ 64 := by
      simp only [U64] at hno
      omega
    have hle := le_masked_add hsum (m := b - 1) (by omega)
    unfold alignDown U64 at h
    omega

theorem alignUp_eq_none :
    alignUp n (2 ^ k) = none ↔ 2 ^ 64 ≤ n + (2 ^ k - 1) := by
  have hpos : 2 ^ k ≠ 0 := (Nat.two_pow_pos k).ne'
  unfold alignUp
  split
  · rename_i h
    simp only [hpos, false_or] at h
    exact iff_of_true rfl h
  · rename_i h
    simp only [hpos, false_or] at h
    exact iff_of_false (by simp) h

theorem add_le_of_dvd {d b : Nat} (ha : d ∣ a) (hb : d ∣ b) (hlt : a < b) : a + d ≤ b := by
  obtain ⟨x, rfl⟩ := ha
  obtain ⟨y, rfl⟩ := hb
  have hxy : x + 1 ≤ y := Nat.lt_of_mul_lt_mul_left hlt
  calc d * x + d = d * (x + 1) := by ring
    _ ≤ d * y := mul_le_mul_left _ hxy

theorem alignUp_eq_some (hk : k ≤ 64) (h : alignUp n (2 ^ k) = some m) :
    m = if n % 2 ^ k = 0 then n else n - n % 2 ^ k + 2 ^ k := by
  obtain ⟨hdvd, hle, hlt, -⟩ := alignUp_two_pow hk h
  have hmle : n % 2 ^ k ≤ n := mod_le _ _
  have hdown : 2 ^ k ∣ n - n % 2 ^ k := dvd_sub_mod n
  split
  · rename_i hzero
    by_contra hne
    -- the next multiple above an aligned number is a whole boundary away
    have := add_le_of_dvd (dvd_of_mod_eq_zero hzero) hdvd (by omega)
    omega
  · have hstep := add_le_of_dvd hdown hdvd (by omega)
    have hupper : 2 ^ k ∣ n - n % 2 ^ k + 2 ^ k := dvd_add hdown dvd_rfl
    by_contra hne
    have := add_le_of_dvd hupper hdvd (by omega)
    omega

theorem alignUp_le_of_dvd (hk : k ≤ 64) (hup : alignUp n (2 ^ k) = some m) (hle : n ≤ a)
    (ha : 2 ^ k ∣ a) : m ≤ a := by
  obtain ⟨hm, -, hlt, -⟩ := alignUp_two_pow hk hup
  by_contra hno
  have := add_le_of_dvd ha hm (Nat.lt_of_not_le hno)
  omega

theorem exists_alignUp (hk : k ≤ 64) (hle : n ≤ a) (ha : 2 ^ k ∣ a) (hlt : a < 2 ^ 64) :
    ∃ m, alignUp n (2 ^ k) = some m := by
  have hroom := add_le_of_dvd ha (pow_dvd_pow 2 hk) hlt
  cases hup : alignUp n (2 ^ k) with
  | some m => exact ⟨m, rfl⟩
  | none =>
    have := alignUp_eq_none.mp hup
    omega

end OsKernel
