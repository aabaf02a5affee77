import OsKernel.Base.FoldedTree

/-!
# Trees that know their maximum

Every node has a value `f p`, and a number `g p` kept with it that is to be the largest
value in the tree below. `Augmented` says that all of them are right. It is a case of `Folded`,
in which the values of the nodes may change too: `SidesAugmented.change` says what that does to
the subtrees beside the way to a change.
-/

namespace OsKernel.LinkedTree

open List

variable {P : Type}

/-- The largest value in a tree, zero in the empty one. -/
def maxOver (f : P → Nat) : BinaryTree P → Nat
  | .nil => 0
  | .node p l r => max (f p) (max (maxOver f l) (maxOver f r))

/-- At every node `g` has the largest value of the tree below it. -/
def Augmented (f g : P → Nat) : BinaryTree P → Prop
  | .nil => True
  | .node p l r => g p = maxOver f (.node p l r) ∧ Augmented f g l ∧ Augmented f g r

/-- The subtrees beside the way to the hole have right numbers. -/
def SidesAugmented (f g : P → Nat) : Ctx P → Prop
  | [] => True
  | .left _ r :: c => Augmented f g r ∧ SidesAugmented f g c
  | .right l _ :: c => Augmented f g l ∧ SidesAugmented f g c

/-- The number kept for a subtree, zero for the empty one. -/
def kept (g : P → Nat) : Option P → Nat
  | none => 0
  | some p => g p

instance instDecidableAugmented (f g : P → Nat) :
    (t : BinaryTree P) → Decidable (Augmented f g t)
  | .nil => .isTrue trivial
  | .node p l r =>
    have := instDecidableAugmented f g l
    have := instDecidableAugmented f g r
    inferInstanceAs (Decidable (g p = maxOver f (.node p l r) ∧ Augmented f g l ∧ Augmented f g r))

section Values

variable {f f' g g' : P → Nat} {t : BinaryTree P}

theorem maxOver_le_iff {n : Nat} : ∀ {t : BinaryTree P},
    maxOver f t ≤ n ↔ ∀ p ∈ inorder t, f p ≤ n
  | .nil => by simp [maxOver]
  | .node p l r => by
    simp only [maxOver, max_le_iff, maxOver_le_iff, inorder_node, mem_append, mem_cons]
    constructor
    · rintro ⟨hp, hl, hr⟩ q (hq | rfl | hq)
      · exact hl q hq
      · exact hp
      · exact hr q hq
    · intro h
      exact ⟨h p (.inr (.inl rfl)), fun q hq => h q (.inl hq), fun q hq => h q (.inr (.inr hq))⟩

theorem le_maxOver {p : P} (hp : p ∈ inorder t) : f p ≤ maxOver f t :=
  maxOver_le_iff.mp le_rfl p hp

theorem maxOver_congr (heq : ∀ p ∈ inorder t, f' p = f p) : maxOver f' t = maxOver f t := by
  apply le_antisymm
  · rw [maxOver_le_iff]
    intro p hp
    rw [heq p hp]
    exact le_maxOver hp
  · rw [maxOver_le_iff]
    intro p hp
    rw [← heq p hp]
    exact le_maxOver hp

theorem Augmented.congr : ∀ {t : BinaryTree P}, Augmented f g t →
    (∀ p ∈ inorder t, f' p = f p) → (∀ p ∈ inorder t, g' p = g p) → Augmented f' g' t
  | .nil, _, _, _ => trivial
  | .node p l r, ⟨hp, hl, hr⟩, hf, hg => by
    refine ⟨?_, hl.congr (fun q hq => hf q (by simp [hq])) fun q hq => hg q (by simp [hq]),
      hr.congr (fun q hq => hf q (by simp [hq])) fun q hq => hg q (by simp [hq])⟩
    rw [hg p (by simp), hp, maxOver_congr hf]

/-- A change in the hole may change the value of the node right behind it, which is on the way. -/
theorem SidesAugmented.change : ∀ {c : Ctx P}, SidesAugmented f g c →
    (before c ++ after c).Nodup →
    (∀ p ∈ before c ++ after c, (after c).head? ≠ some p → f' p = f p) → SidesAugmented f' g c
  | [], _, _, _ => trivial
  | .left p r :: c, ⟨hr, hc⟩, hnd, hf => by
    simp only [before, after, cons_append, nodup_middle, nodup_cons, mem_append, not_or] at hnd
    obtain ⟨hp, hnd⟩ := hnd
    have hother : ∀ q, q ∈ before c ∨ q ∈ inorder r ∨ q ∈ after c → f' q = f q := by
      intro q hq
      refine hf q ?_ ?_
      · simp only [before, after, mem_append, mem_cons]
        tauto
      · rw [after, cons_append, head?_cons, ne_eq, Option.some.injEq]
        rintro rfl
        tauto
    refine ⟨hr.congr (fun q hq => hother q (.inr (.inl hq))) fun _ _ => rfl, hc.change ?_ ?_⟩
    · refine hnd.sublist (List.Sublist.append_left ?_ _)
      exact sublist_append_right _ _
    · intro q hq _
      refine hother q ?_
      rw [mem_append] at hq
      tauto
  | .right l p :: c, ⟨hl, hc⟩, hnd, hf => by
    simp only [before, after] at hnd hf
    refine ⟨hl.congr (fun q hq => hf q (by simp [hq]) ?_) fun _ _ => rfl, hc.change ?_ ?_⟩
    · intro hhead
      refine (nodup_append.mp hnd).2.2 q ?_ q (mem_of_head? hhead) rfl
      simp [hq]
    · refine hnd.sublist (List.Sublist.append_right ?_ _)
      rw [append_assoc]
      exact sublist_append_left _ _
    · intro q hq hhead
      refine hf q ?_ hhead
      simp only [mem_append] at hq ⊢
      tauto

/-! ## As a fold -/

/-- The larger of the value of a node and of what its subtrees have. -/
def maxOf (f : P → Nat) (p : P) (left right : Nat) : Nat := max (f p) (max left right)

theorem maxOver_eq_foldOver : ∀ t : BinaryTree P, maxOver f t = foldOver (maxOf f) 0 t
  | .nil => rfl
  | .node p l r => by
    rw [maxOver, foldOver, maxOver_eq_foldOver l, maxOver_eq_foldOver r, maxOf]

theorem augmented_iff_folded : ∀ {t : BinaryTree P}, Augmented f g t ↔ Folded (maxOf f) 0 g t
  | .nil => Iff.rfl
  | .node p l r => by
    rw [Augmented, Folded, augmented_iff_folded, augmented_iff_folded, maxOver_eq_foldOver]

theorem sidesAugmented_iff_folded : ∀ {c : Ctx P},
    SidesAugmented f g c ↔ Sides (Folded (maxOf f) 0 g) c
  | [] => Iff.rfl
  | .left p r :: c => by
    rw [SidesAugmented, Sides, augmented_iff_folded, sidesAugmented_iff_folded]
  | .right l p :: c => by
    rw [SidesAugmented, Sides, augmented_iff_folded, sidesAugmented_iff_folded]

theorem kept_eq_valueAt (g : P → Nat) (at_ : Option P) : kept g at_ = valueAt 0 g at_ := by
  cases at_ <;> rfl

/-- A tree with right numbers falls apart into a subtree and the subtrees beside the way to it. -/
theorem Augmented.of_plug {c : Ctx P} (h : Augmented f g (plug c t)) :
    Augmented f g t ∧ SidesAugmented f g c := by
  rw [augmented_iff_folded] at h
  rw [augmented_iff_folded, sidesAugmented_iff_folded]
  exact hereditary_folded.of_plug h

theorem Augmented.kept_eq {H : P → TreeLinks P} {par at_ : Option P}
    (h : Augmented f g t) (hrep : Rep H t par at_) : kept g at_ = maxOver f t := by
  rw [kept_eq_valueAt, maxOver_eq_foldOver]
  exact (augmented_iff_folded.mp h).valueAt_eq hrep

end Values

end OsKernel.LinkedTree
