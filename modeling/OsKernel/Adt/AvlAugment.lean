import OsKernel.Adt.AvlFold
import OsKernel.Base.AugmentedTree

/-!
# Callbacks that keep a maximum

The value kept with every node may be the largest of some numbers in the tree below it. The
child that a double rotation takes down loses a grandchild and one subtree of it. Its number can
only become too large, and it stays right if the largest number was in what the child has kept.
`QuietTurn` says so.
-/

namespace OsKernel.Adt.AvlTree

open LinkedTree

variable {α : Type}

/-- The callback writes the largest of the value of a node and the numbers of its children. -/
def StoresMax (val : α → Ptr → Nat) (f : Ptr → Nat) (I : α → Prop) (S : Set Ptr)
    (update : AvlCallback α) : Prop :=
  ∀ (t : AvlTree α), ∀ p ∈ S, I t.ext → ∃ e, update t p = .ok e ∧ I e ∧
    val e = Function.update (val t.ext) p
      (max (f p) (max (kept (val t.ext) (t.nodes p).left) (kept (val t.ext) (t.nodes p).right)))

/-- A turn that rotates twice takes down a child that keeps a node with the largest value. -/
def QuietTurn (val : α → Ptr → Nat) (f : Ptr → Nat) (t : AvlTree α) (node : Ptr) : Prop :=
  (t.nodeBalance node > 1 → ∀ q ∈ (t.nodes node).right,
    t.nodeHeight (t.nodes q).right < t.nodeHeight (t.nodes q).left → ∀ m ∈ (t.nodes q).left,
      val t.ext q ≤ max (f q)
        (max (kept (val t.ext) (t.nodes m).right) (kept (val t.ext) (t.nodes q).right))) ∧
  (t.nodeBalance node < -1 → ∀ q ∈ (t.nodes node).left,
    t.nodeHeight (t.nodes q).left < t.nodeHeight (t.nodes q).right → ∀ m ∈ (t.nodes q).right,
      val t.ext q ≤ max (f q)
        (max (kept (val t.ext) (t.nodes q).left) (kept (val t.ext) (t.nodes m).left)))

instance (val : α → Ptr → Nat) (f : Ptr → Nat) (t : AvlTree α) (node : Ptr) :
    Decidable (QuietTurn val f t node) :=
  inferInstanceAs (Decidable (_ ∧ _))

section Maxima

variable {val : α → Ptr → Nat} {f : Ptr → Nat} {I : α → Prop} {S : Set Ptr}
  {update : AvlCallback α} {P : AvlTree α → Ptr → Prop}

theorem StoresMax.computes (hcb : StoresMax val f I S update) :
    Computes val (maxOf f) 0 I S update := by
  intro t p hp hI
  obtain ⟨e, hrun, hIe, hval⟩ := hcb t p hp hI
  refine ⟨e, hrun, hIe, ?_⟩
  rw [hval, kept_eq_valueAt, kept_eq_valueAt]
  rfl

/-- A child that is taken down keeps the right number, with the subtrees `a` and `b` below it. -/
theorem maxOver_of_keeps {g : Ptr → Nat} {q : Ptr} {T a b : BinaryTree Ptr} {left right : Option Ptr}
    (hq : g q = maxOver f T) (hsub : ∀ x ∈ inorder (.node q a b), x ∈ inorder T)
    (ha : kept g left = maxOver f a) (hb : kept g right = maxOver f b)
    (hle : g q ≤ max (f q) (max (kept g left) (kept g right))) :
    g q = maxOf f q (valueAt 0 g left) (valueAt 0 g right) := by
  have hge : maxOver f (.node q a b) ≤ g q := by
    rw [hq, maxOver_le_iff]
    exact fun x hx => le_maxOver (hsub x hx)
  rw [← kept_eq_valueAt, ← kept_eq_valueAt]
  refine le_antisymm hle ?_
  rw [ha, hb]
  exact hge

theorem QuietTurn.keptTurn {t : AvlTree α} {c : Ctx Ptr} {p : Ptr} {l r : BinaryTree Ptr}
    (h : Holds t (plug c (.node p l r))) (hl : Augmented f (val t.ext) l)
    (hr : Augmented f (val t.ext) r) (hquiet : QuietTurn val f t p) :
    KeptTurn val (maxOf f) 0 t p := by
  obtain ⟨_, _, rfl, _, hrepl, hrepr⟩ := rep_plug.mp h.rep
  constructor
  · intro hbal q hpq hdouble m hqm
    have hle := hquiet.1 hbal q hpq hdouble m hqm
    have hpq' : (t.links p).right = some q := hpq
    have hqm' : (t.links q).left = some m := hqm
    rw [hpq'] at hrepr
    obtain ⟨b, c', rfl⟩ := hrepr.node_of_some
    obtain ⟨-, -, hrepb, hrepc⟩ := hrepr
    rw [hqm'] at hrepb
    obtain ⟨b1, b2, rfl⟩ := hrepb.node_of_some
    obtain ⟨hq, ⟨-, -, hb2⟩, hc'⟩ := hr
    refine maxOver_of_keeps hq ?_ (hb2.kept_eq hrepb.2.2.2) (hc'.kept_eq hrepc) hle
    intro x hx
    simp only [inorder_node, List.mem_append, List.mem_cons] at hx ⊢
    tauto
  · intro hbal q hpq hdouble m hqm
    have hle := hquiet.2 hbal q hpq hdouble m hqm
    have hpq' : (t.links p).left = some q := hpq
    have hqm' : (t.links q).right = some m := hqm
    rw [hpq'] at hrepl
    obtain ⟨a, b, rfl⟩ := hrepl.node_of_some
    obtain ⟨-, -, hrepa, hrepb⟩ := hrepl
    rw [hqm'] at hrepb
    obtain ⟨b1, b2, rfl⟩ := hrepb.node_of_some
    obtain ⟨hq, ha, -, hb1, -⟩ := hl
    refine maxOver_of_keeps hq ?_ (ha.kept_eq hrepa) (hb1.kept_eq hrepb.2.2.1) hle
    intro x hx
    simp only [inorder_node, List.mem_append, List.mem_cons] at hx ⊢
    tauto

/-- **A node linked in gets its number, and the nodes above it get theirs.** -/
theorem insertAtLoc_augmented (hcb : StoresMax val f I S update)
    (hP : ∀ (t : AvlTree α) (p : Ptr), I t.ext → P t p → QuietTurn val f t p)
    {addedNode : Option (AvlCallback α)} {t : AvlTree α} {c : Ctx Ptr} {node : Ptr} (fuel : Nat)
    (h : Holds t (plug c .nil)) (hnew : node ∉ before c ++ after c)
    (hS : ∀ x ∈ before c ++ node :: after c, x ∈ S) (hfuel : c.length ≤ fuel)
    (hadded : ∀ t1, Holds t1 (plug c (.node node .nil .nil)) → t1.ext = t.ext →
      ∃ t2, t1.avlnodeUpdate node addedNode = .ok t2 ∧ I t2.ext ∧ SidesAugmented f (val t2.ext) c)
    (hquiet : (t.linkNode node c.parent (ctxLink c) (some update) addedNode).All fun t' =>
      EachTurn P (some update) fuel t' c.parent) :
    ∃ t' T', t.insertAtLoc fuel node c.parent (ctxLink c) (some update) addedNode = .ok t' ∧
      Holds t' T' ∧ inorder T' = before c ++ node :: after c ∧ I t'.ext ∧
      Augmented f (val t'.ext) T' := by
  have hkeeping : Keeping val (maxOf f) 0 I P := fun t c p l r hI hold hl hr hturn =>
    (hP t p hI hturn).keptTurn hold (augmented_iff_folded.mpr hl) (augmented_iff_folded.mpr hr)
  simp only [sidesAugmented_iff_folded] at hadded
  simp only [augmented_iff_folded]
  exact insertAtLoc_folded hcb.computes hkeeping fuel h hnew hS hfuel hadded hquiet

end Maxima

end OsKernel.Adt.AvlTree
