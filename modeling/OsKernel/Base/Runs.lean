import Mathlib

/-!
# Runs and sums

The maximal runs of a property among the numbers from `first` up to `end_`. A scan from left
to right finds them by two rules: a number without the property belongs to no run, and the
numbers up to the first one without it are a run.

A total over a list of keys moves with the value of one key.
-/

namespace OsKernel

variable {P : Nat → Prop} {first mid end_ : Nat} {run : Nat × Nat} {runs : List (Nat × Nat)}

/-- A run is where it starts and how long it is. -/
structure MaximalRun (P : Nat → Prop) (first end_ : Nat) (run : Nat × Nat) : Prop where
  nonempty : 0 < run.2
  first_le : first ≤ run.1
  le_end : run.1 + run.2 ≤ end_
  all : ∀ q, run.1 ≤ q → q < run.1 + run.2 → P q
  left : run.1 = first ∨ ¬ P (run.1 - 1)
  right : run.1 + run.2 = end_ ∨ ¬ P (run.1 + run.2)

theorem MaximalRun.holds_first (h : MaximalRun P first end_ run) : P run.1 :=
  h.all run.1 (Nat.le_refl _) (Nat.lt_add_of_pos_right h.nonempty)

theorem MaximalRun.eq_of_overlap {run' : Nat × Nat} (h : MaximalRun P first end_ run)
    (h' : MaximalRun P first end_ run') (hle : run.1 ≤ run'.1) (hlt : run'.1 < run.1 + run.2) :
    run = run' := by
  -- were it further on, the second would start behind a number with the property
  have hstart : run.1 = run'.1 := by
    rcases h'.left with heq | hnot
    · have := h.first_le
      omega
    · by_contra hne
      exact hnot (h.all _ (by omega) (by omega))
  have hends : run.1 + run.2 = run'.1 + run'.2 := by
    have hle := h.le_end
    have hle' := h'.le_end
    rcases Nat.lt_trichotomy (run.1 + run.2) (run'.1 + run'.2) with hlt | heq | hlt
    · rcases h.right with heq | hnot
      · omega
      · exact absurd (h'.all _ (by omega) hlt) hnot
    · exact heq
    · rcases h'.right with heq | hnot
      · omega
      · exact absurd (h.all _ (by omega) hlt) hnot
  exact Prod.ext hstart (by omega)

/-- The bounds may move over numbers that no run of the rest touches. -/
theorem maximalRun_succ_iff (hnot : ¬ P mid) (hmid : first ≤ mid) (hrun : mid < run.1) :
    MaximalRun P first end_ run ↔ MaximalRun P (mid + 1) end_ run := by
  have hleft : (run.1 = first ∨ ¬ P (run.1 - 1)) ↔ (run.1 = mid + 1 ∨ ¬ P (run.1 - 1)) := by
    by_cases heq : run.1 = mid + 1
    · have hprev : run.1 - 1 = mid := by omega
      simp [hprev, hnot]
    · have hne : run.1 ≠ first := by omega
      simp [heq, hne]
  constructor
  · intro h
    exact ⟨h.nonempty, hrun, h.le_end, h.all, hleft.mp h.left, h.right⟩
  · intro h
    exact ⟨h.nonempty, by omega, h.le_end, h.all, hleft.mpr h.left, h.right⟩

/-- The runs, from left to right. -/
structure RunsOf (P : Nat → Prop) (first end_ : Nat) (runs : List (Nat × Nat)) : Prop where
  ascending : runs.Pairwise fun run run' => run.1 + run.2 < run'.1
  mem_iff : ∀ run, run ∈ runs ↔ MaximalRun P first end_ run

theorem runsOf_nil (h : end_ ≤ first) : RunsOf P first end_ [] := by
  refine ⟨.nil, fun run => ⟨fun hmem => absurd hmem List.not_mem_nil, fun hrun => ?_⟩⟩
  have := hrun.nonempty
  have := hrun.first_le
  have := hrun.le_end
  omega

theorem runsOf_succ_iff (h : end_ ≤ first ∨ ¬ P first) :
    RunsOf P (first + 1) end_ runs ↔ RunsOf P first end_ runs := by
  have hrun : ∀ run, MaximalRun P (first + 1) end_ run ↔ MaximalRun P first end_ run := by
    intro run
    rcases h with hend | hnot
    · constructor <;> intro h <;> have := h.nonempty <;> have := h.first_le <;> have := h.le_end <;>
        omega
    · constructor
      · intro h
        exact (maximalRun_succ_iff hnot (Nat.le_refl _) h.first_le).mpr h
      · intro h
        have hne : run.1 ≠ first := fun heq => hnot (heq ▸ h.holds_first)
        exact (maximalRun_succ_iff hnot (Nat.le_refl _)
          (Nat.lt_of_le_of_ne h.first_le hne.symm)).mp h
  constructor
  · intro h
    exact ⟨h.ascending, fun run => (h.mem_iff run).trans (hrun run)⟩
  · intro h
    exact ⟨h.ascending, fun run => (h.mem_iff run).trans (hrun run).symm⟩

theorem RunsOf.skip (h : RunsOf P mid end_ runs) (hle : first ≤ mid)
    (hnot : ∀ q, first ≤ q → q < mid → ¬ P q) : RunsOf P first end_ runs := by
  induction hle with
  | refl => exact h
  | @step mid hle ih =>
    exact ih ((runsOf_succ_iff (.inr (hnot mid hle (Nat.lt_succ_self mid)))).mp h)
      fun q hq hlt => hnot q hq (Nat.lt_succ_of_lt hlt)

/-- The numbers up to the first one without the property are a run. -/
theorem RunsOf.cons (h : RunsOf P (mid + 1) end_ runs) (hlt : first < mid)
    (hall : ∀ q, first ≤ q → q < mid → P q) (hmid : mid = end_ ∨ mid < end_ ∧ ¬ P mid) :
    RunsOf P first end_ ((first, mid - first) :: runs) := by
  have hend : first + (mid - first) = mid := by omega
  have hfirst : MaximalRun P first end_ (first, mid - first) := by
    refine ⟨Nat.sub_pos_of_lt hlt, Nat.le_refl _, ?_, ?_, .inl rfl, ?_⟩ <;> rw [hend]
    · omega
    · exact hall
    · exact hmid.imp_right And.right
  refine ⟨List.pairwise_cons.mpr ⟨?_, h.ascending⟩, fun run => ?_⟩
  · intro run hmem
    have := ((h.mem_iff run).mp hmem).first_le
    omega
  rw [List.mem_cons, h.mem_iff]
  constructor
  · rintro (rfl | hrun)
    · exact hfirst
    · have hne : mid ≠ end_ := by
        have := hrun.first_le
        have := hrun.le_end
        omega
      exact (maximalRun_succ_iff (hmid.resolve_left hne).2 (Nat.le_of_lt hlt) hrun.first_le).mpr hrun
  · intro hrun
    have hle := hrun.first_le
    by_cases hstart : run.1 < mid
    · left
      exact (hfirst.eq_of_overlap hrun hle (by simpa [hend] using hstart)).symm
    · right
      have hpos := hrun.nonempty
      have hle' := hrun.le_end
      have hnot := (hmid.resolve_left (by omega)).2
      have hne : run.1 ≠ mid := fun heq => hnot (heq ▸ hrun.holds_first)
      exact (maximalRun_succ_iff hnot (Nat.le_of_lt hlt) (by omega)).mp hrun

theorem sum_map_change {K : Type} {l : List K} {f g : K → Nat} {a : K} {m n : Nat} (hnd : l.Nodup)
    (ha : a ∈ l) (hchange : f a + n = g a + m) (hother : ∀ x ∈ l, x ≠ a → f x = g x) :
    (l.map f).sum + n = (l.map g).sum + m := by
  classical
  have hrest : (l.erase a).map f = (l.erase a).map g := by
    refine List.map_congr_left fun x hx => ?_
    obtain ⟨hne, hmem⟩ := hnd.mem_erase_iff.mp hx
    exact hother x hmem hne
  rw [← List.sum_map_erase f ha, ← List.sum_map_erase g ha, hrest]
  omega

end OsKernel
