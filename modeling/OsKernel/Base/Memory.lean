import Mathlib

/-!
# Byte memory and chains through it

Memory maps addresses to bytes; a 32-bit word is stored with its low byte first. A
chain is a list of indices that a program finds by starting at one index and reading
the next one from memory, until it reads the end marker. Words that do not overlap
do not disturb each other, and a chain only depends on the words of its members.
-/

namespace OsKernel

variable {a dst n src v x : Nat}

/-- A byte for every address. -/
abbrev Memory := Nat → UInt8

namespace Memory

/-- The 32-bit word at an address. -/
def load32 (m : Memory) (a : Nat) : Nat :=
  (m a).toNat + 2 ^ 8 * (m (a + 1)).toNat + 2 ^ 16 * (m (a + 2)).toNat +
    2 ^ 24 * (m (a + 3)).toNat

/-- Store a 32-bit word. -/
def store32 (m : Memory) (a v : Nat) : Memory := fun x =>
  if a ≤ x ∧ x < a + 4 then UInt8.ofNat (v / 2 ^ (8 * (x - a))) else m x

/-- Clear `n` bytes. -/
def zero (m : Memory) (a n : Nat) : Memory := fun x =>
  if a ≤ x ∧ x < a + n then 0 else m x

/-- Copy `n` bytes to `dst`. -/
def copy (m : Memory) (dst src n : Nat) : Memory := fun x =>
  if dst ≤ x ∧ x < dst + n then m (src + (x - dst)) else m x

variable {m : Memory}

theorem load32_congr {m' : Memory} (h : ∀ x, a ≤ x → x < a + 4 → m' x = m x) :
    m'.load32 a = m.load32 a := by
  unfold load32
  rw [h a (by omega) (by omega), h (a + 1) (by omega) (by omega), h (a + 2) (by omega) (by omega),
    h (a + 3) (by omega) (by omega)]

theorem load32_store32 (m : Memory) (a : Nat) (hv : v < 2 ^ 32) :
    (m.store32 a v).load32 a = v := by
  have hbyte : ∀ i < 4, m.store32 a v (a + i) = UInt8.ofNat (v / 2 ^ (8 * i)) := by
    intro i hi
    have hin : a ≤ a + i ∧ a + i < a + 4 := by omega
    simp only [store32, if_pos hin, Nat.add_sub_cancel_left]
  have h0 := hbyte 0 (by omega)
  rw [add_zero] at h0
  unfold load32
  rw [h0, hbyte 1 (by omega), hbyte 2 (by omega), hbyte 3 (by omega)]
  simp only [UInt8.toNat_ofNat']
  omega

theorem store32_other (h : x < a ∨ a + 4 ≤ x) : m.store32 a v x = m x := by
  have hout : ¬ (a ≤ x ∧ x < a + 4) := by omega
  simp only [store32, if_neg hout]

theorem zero_other (h : x < a ∨ a + n ≤ x) : m.zero a n x = m x := by
  have hout : ¬ (a ≤ x ∧ x < a + n) := by omega
  simp only [zero, if_neg hout]

theorem copy_other (h : x < dst ∨ dst + n ≤ x) : m.copy dst src n x = m x := by
  have hout : ¬ (dst ≤ x ∧ x < dst + n) := by omega
  simp only [copy, if_neg hout]

theorem copy_at {k : Nat} (h : k < n) : m.copy dst src n (dst + k) = m (src + k) := by
  have hin : dst ≤ dst + k ∧ dst + k < dst + n := by omega
  simp only [copy, if_pos hin, Nat.add_sub_cancel_left]

end Memory

/-- The indices found from `first` on, up to the end marker. -/
def Chain (next : Nat → Nat) (stop : Nat) : Nat → List Nat → Prop
  | first, [] => first = stop
  | first, i :: L => first = i ∧ Chain next stop (next i) L

namespace Chain

variable {next next' : Nat → Nat} {stop : Nat}

theorem congr : ∀ {L : List Nat} {first : Nat}, Chain next stop first L →
    (∀ i ∈ L, next' i = next i) → Chain next' stop first L := by
  intro L
  induction L with
  | nil =>
    intro first h _
    exact h
  | cons i L ih =>
    intro first h hsame
    refine ⟨h.1, ?_⟩
    rw [hsame i List.mem_cons_self]
    exact ih h.2 fun j hj => hsame j (.tail _ hj)

/-- A run of consecutive indices that each point at the next one. -/
theorem of_steps : ∀ {m first : Nat}, first + m = n →
    (∀ i, first ≤ i → i + 1 < n → next i = i + 1) → (0 < m → next (n - 1) = stop) →
    0 < m → Chain next stop first (List.range' first m) := by
  intro m
  induction m with
  | zero =>
    omega
  | succ m ih =>
    intro first hsum hstep hlast _
    refine ⟨rfl, ?_⟩
    rcases Nat.eq_zero_or_pos m with hm | hm
    · subst hm
      have hfirst : first = n - 1 := by omega
      rw [hfirst]
      exact hlast (by omega)
    · rw [hstep first (Nat.le_refl _) (by omega)]
      exact ih (by omega) (fun i hi => hstep i (by omega)) (fun _ => hlast (by omega)) hm

end Chain

end OsKernel
