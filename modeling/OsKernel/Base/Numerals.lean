import Mathlib

/-!
# Numerals

The digits of a number in a base as they are written, with the most significant digit
first. The numeral of zero has one digit. `numeralValue` reads a numeral back from the front,
as a parser does, on top of what was read before.
-/

namespace OsKernel

open List Nat

/-- The digits of a number, the most significant one first. -/
def numeral (base n : Nat) : List Nat := if n = 0 then [0] else (Nat.digits base n).reverse

/-- The number that digits stand for after a number `v` was read. -/
def numeralValue (base : Nat) (v : Nat) (ds : List Nat) : Nat := ds.foldl (fun v d => v * base + d) v

variable {base n v d : Nat} {ds ds' : List Nat}

@[simp] theorem numeralValue_nil : numeralValue base v [] = v := rfl

@[simp] theorem numeralValue_cons : numeralValue base v (d :: ds) = numeralValue base (v * base + d) ds := rfl

theorem le_numeralValue (hbase : 0 < base) : v ≤ numeralValue base v ds := by
  induction ds generalizing v with
  | nil => exact le_refl v
  | cons d ds ih =>
    calc v ≤ v * base := Nat.le_mul_of_pos_right v hbase
      _ ≤ v * base + d := le_self_add
      _ ≤ numeralValue base v (d :: ds) := ih

theorem numeral_of_lt (h : n < base) : numeral base n = [n] := by
  rcases Nat.eq_zero_or_pos n with rfl | hpos
  · rfl
  · rw [numeral, if_neg (by omega), digits_of_lt base n (by omega) h, reverse_singleton]

section

variable (hbase : 1 < base)
include hbase

theorem numeral_of_le (h : base ≤ n) :
    numeral base n = numeral base (n / base) ++ [n % base] := by
  have hdiv : n / base ≠ 0 := ne_of_gt (div_pos h (by omega))
  rw [numeral, numeral, if_neg (by omega), if_neg hdiv, digits_def' hbase (by omega),
    reverse_cons]

theorem numeral_induction {P : Nat → Prop} (hdigit : ∀ n, n < base → P n)
    (hstep : ∀ n, base ≤ n → P (n / base) → P n) (n : Nat) : P n := by
  induction n using Nat.strong_induction_on with
  | _ n ih =>
    rcases lt_or_ge n base with hlt | hge
    · exact hdigit n hlt
    · exact hstep n hge (ih _ (div_lt_self (by omega) hbase))

/-- **A numeral is read back as its number.** -/
theorem numeralValue_numeral (n : Nat) : numeralValue base 0 (numeral base n) = n := by
  induction n using numeral_induction hbase with
  | hdigit n hlt => simp [numeral_of_lt hlt]
  | hstep n hge ih =>
    rw [numeral_of_le hbase hge, numeralValue, foldl_append, ← numeralValue, ← numeralValue, ih, numeralValue_cons, numeralValue_nil]
    exact div_add_mod' n base

theorem numeral_lt (n : Nat) : ∀ d ∈ numeral base n, d < base := by
  induction n using numeral_induction hbase with
  | hdigit n hlt =>
    intro d hd
    rw [numeral_of_lt hlt, mem_singleton] at hd
    omega
  | hstep n hge ih =>
    intro d hd
    rw [numeral_of_le hbase hge, mem_append, mem_singleton] at hd
    rcases hd with hd | rfl
    · exact ih d hd
    · exact mod_lt _ (by omega)

theorem numeral_eq_zero_cons (h : numeral base n = 0 :: ds) : n = 0 ∧ ds = [] := by
  induction n using numeral_induction hbase generalizing ds with
  | hdigit n hlt =>
    rw [numeral_of_lt hlt] at h
    injection h with hn hds
    exact ⟨hn, hds.symm⟩
  | hstep n hge ih =>
    rw [numeral_of_le hbase hge] at h
    cases hhigh : numeral base (n / base) with
    | nil =>
      have hvalue := numeralValue_numeral hbase (n / base)
      rw [hhigh, numeralValue_nil] at hvalue
      have hpos : 0 < n / base := div_pos hge (by omega)
      omega
    | cons d high =>
      rw [hhigh, cons_append] at h
      injection h with hd _
      subst hd
      have hpos : 0 < n / base := div_pos hge (by omega)
      have hzero := (ih hhigh).1
      omega

theorem numeral_length_le {k : Nat} (hk : 0 < k) (h : n < base ^ k) :
    (numeral base n).length ≤ k := by
  induction n using numeral_induction hbase generalizing k with
  | hdigit n hlt =>
    rw [numeral_of_lt hlt]
    exact hk
  | hstep n hge ih =>
    rw [numeral_of_le hbase hge, length_append, length_singleton]
    -- A number of one digit is below the base.
    obtain ⟨k, rfl⟩ : ∃ j, k = j + 1 := ⟨k - 1, by omega⟩
    have hpos : 0 < k := by
      rcases Nat.eq_zero_or_pos k with rfl | hpos
      · simp at h
        omega
      · exact hpos
    have hlow := ih hpos (Nat.div_lt_of_lt_mul (by rwa [← Nat.pow_succ']))
    omega

theorem numeral_ne_nil (n : Nat) : numeral base n ≠ [] := by
  induction n using numeral_induction hbase with
  | hdigit n hlt => simp [numeral_of_lt hlt]
  | hstep n hge ih => simp [numeral_of_le hbase hge]

end

end OsKernel
