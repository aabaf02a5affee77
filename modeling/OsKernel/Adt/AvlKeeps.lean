import OsKernel.Adt.AvlHeap

/-!
# What an insertion leaves to its callbacks

An insertion writes the links and the heights of nodes, and nothing else but what its
callbacks write. What the callbacks keep is kept in every run that returns, also from a
memory that is not a tree, where nothing can be said about the links.
-/

namespace OsKernel.Adt.AvlTree

variable {α : Type} {P : α → Prop} {update addedNode : Option (AvlCallback α)} {t t' : AvlTree α}
  {node top : Ptr} {fuel : Nat}

/-- A callback that keeps a property whenever it returns. -/
def CallbackKeeps (P : α → Prop) (cb : Option (AvlCallback α)) : Prop :=
  ∀ f ∈ cb, ∀ (t : AvlTree α) (p : Ptr) (ext : α), f t p = .ok ext → P t.ext → P ext

theorem avlnodeUpdate_keeps (hcb : CallbackKeeps P update)
    (hrun : t.avlnodeUpdate node update = .ok t') (h : P t.ext) : P t'.ext := by
  cases update with
  | none =>
    cases hrun
    exact h
  | some f =>
    obtain ⟨ext, hf, hrun⟩ := bind_eq_ok.mp hrun
    cases hrun
    exact hcb f rfl t node ext hf h

/-- The rotation of the node itself, which comes last whether the tree is turned once or twice. -/
theorem turn_keeps {rotate : AvlTree α → Ptr → Result (Ptr × AvlTree α)}
    (hrotate : ∀ {t t' : AvlTree α} {node top : Ptr}, rotate t node = .ok (top, t') →
      t'.ext = t.ext ∧ t'.heights = t.heights)
    (hcb : CallbackKeeps P update) {newNode : Ptr} (hrun : (rotate t node >>= fun r =>
      ((r.2.store (t.getNodeLink node) (some r.1)).resetNodeHeight node).avlnodeUpdate node update
        >>= fun t => pure (newNode, t)) = .ok (top, t')) (h : P t.ext) : P t'.ext := by
  obtain ⟨⟨above, t₁⟩, hturn, hrun⟩ := bind_eq_ok.mp hrun
  obtain ⟨t₂, hupdate, hrun⟩ := bind_eq_ok.mp hrun
  cases hrun
  refine avlnodeUpdate_keeps hcb hupdate ?_
  rw [ext_resetNodeHeight, ext_store, (hrotate hturn).1]
  exact h

section

variable (hcb : CallbackKeeps P update)
include hcb

theorem fixRightHeavy_keeps (hrun : t.fixRightHeavy node update = .ok (top, t')) (h : P t.ext) :
    P t'.ext := by
  unfold fixRightHeavy at hrun
  split at hrun
  · cases hrun
  · dsimp only at hrun
    split at hrun
    · obtain ⟨⟨inner, t₁⟩, hinner, hrun⟩ := bind_eq_ok.mp hrun
      obtain ⟨t₂, hupdate, hrun⟩ := bind_eq_ok.mp hrun
      refine turn_keeps rotateLeft_frame hcb hrun (avlnodeUpdate_keeps hcb hupdate ?_)
      rw [ext_resetNodeHeight, ext_setRight, (rotateRight_frame hinner).1]
      exact h
    · exact turn_keeps rotateLeft_frame hcb hrun h

theorem fixLeftHeavy_keeps (hrun : t.fixLeftHeavy node update = .ok (top, t')) (h : P t.ext) : P t'.ext := by
  unfold fixLeftHeavy at hrun
  split at hrun
  · cases hrun
  · dsimp only at hrun
    split at hrun
    · obtain ⟨⟨inner, t₁⟩, hinner, hrun⟩ := bind_eq_ok.mp hrun
      refine turn_keeps rotateRight_frame hcb hrun ?_
      rw [ext_resetNodeHeight, ext_setLeft, (rotateLeft_frame hinner).1]
      exact h
    · exact turn_keeps rotateRight_frame hcb hrun h

theorem rebalance_keeps (hrun : t.rebalance node update = .ok (top, t')) (h : P t.ext) : P t'.ext := by
  unfold rebalance at hrun
  dsimp only at hrun
  split at hrun
  · exact fixRightHeavy_keeps hcb hrun h
  · split at hrun
    · exact fixLeftHeavy_keeps hcb hrun h
    · cases hrun
      exact h

theorem avltreeFixup_keeps : ∀ {fuel : Nat} {t : AvlTree α}
    {at_ : Option Ptr}, avltreeFixup update fuel t at_ = .ok t' → P t.ext → P t'.ext := by
  intro fuel
  induction fuel with
  | zero =>
    intro t at_ hrun h
    cases at_ with
    | none =>
      cases hrun
      exact h
    | some node => cases hrun
  | succ fuel ih =>
    intro t at_ hrun h
    cases at_ with
    | none =>
      cases hrun
      exact h
    | some node =>
      obtain ⟨⟨top, t₁⟩, hstep, hrun⟩ := bind_eq_ok.mp hrun
      obtain ⟨⟨top', t₁⟩, hbalance, hstep⟩ := bind_eq_ok.mp hstep
      obtain ⟨t₂, hupdate, hstep⟩ := bind_eq_ok.mp hstep
      cases hstep
      exact ih hrun (avlnodeUpdate_keeps hcb hupdate (rebalance_keeps hcb hbalance h))

end

theorem insertAtLoc_keeps (hupdate : CallbackKeeps P update) (hadded : CallbackKeeps P addedNode)
    {parent : Option Ptr} {link : AvlLink}
    (hrun : t.insertAtLoc fuel node parent link update addedNode = .ok t') (h : P t.ext) :
    P t'.ext := by
  obtain ⟨t₁, hadd, hrun⟩ := bind_eq_ok.mp hrun
  obtain ⟨t₂, hup, hrun⟩ := bind_eq_ok.mp hrun
  refine avltreeFixup_keeps hupdate hrun (avlnodeUpdate_keeps hupdate hup ?_)
  refine avlnodeUpdate_keeps hadded hadd ?_
  rw [ext_store]
  exact h

theorem avltreeInsert_keeps (hupdate : CallbackKeeps P update) (hadded : CallbackKeeps P addedNode)
    {comparator : α → Ptr → Ptr → Int} {added : Bool}
    (hrun : t.avltreeInsert fuel node comparator update addedNode = .ok (added, t'))
    (h : P t.ext) : P t'.ext := by
  obtain ⟨place, -, hrun⟩ := bind_eq_ok.mp hrun
  cases place with
  | none =>
    cases hrun
    exact h
  | some place =>
    obtain ⟨t₁, hinsert, hrun⟩ := bind_eq_ok.mp hrun
    cases hrun
    exact insertAtLoc_keeps hupdate hadded hinsert h

end OsKernel.Adt.AvlTree
