import OsKernel.Adt.AddrSpaceProof

/-!
# Inserting by range

`avltree_compare` calls two ranges equal if they overlap, which is no equivalence: two
ranges apart from each other may both overlap a third. On a tree of disjoint ranges in
ascending order it still gives one answer: the nodes below the new range come first, then
those that overlap it, then those above it. The descent turns away only from nodes that
are below or above, so it cannot miss the ones in between.
-/

namespace OsKernel.Adt.AddressSpace

open LinkedTree LinkedRing AvlTree List

/-- A search tree of ranges: not empty, disjoint, in ascending order. -/
structure Ascending (t : AddressSpace) (T : BinaryTree Ptr) : Prop where
  holds : Holds t T
  size : ∀ p ∈ inorder T, 0 < (t.ext.range p).size
  /-- Each range ends where a later one starts, or before. -/
  order : (inorder T).Pairwise fun p q => (t.ext.range p).end_ ≤ (t.ext.range q).front

/-- The range of the node overlaps that of some node of the tree. -/
def Overlapping (t : AddressSpace) (T : BinaryTree Ptr) (node : Ptr) : Prop :=
  ∃ p ∈ inorder T, (t.ext.range node).overlaps (t.ext.range p) = true

/-- Callbacks that return and leave the ranges alone, where `I` is what they rely on. -/
structure LeavesRanges (t : AddressSpace) (T : BinaryTree Ptr) (node : Ptr) (I : AddrData → Prop)
    (update addedNode : Option (AvlCallback AddrData)) : Prop where
  range : ∀ e, I e → e.range = t.ext.range
  update : CallbackOk I {x | x ∈ node :: inorder T} update
  /-- `added_node` is called once, when the node is linked in where the comparator leads to. -/
  added : ∀ (c : Ctx Ptr) (t1 : AddressSpace), plug c .nil = T →
    Holds t1 (plug c (.node node .nil .nil)) → t1.ext = t.ext →
    (∀ p ∈ before c, 0 < avltreeCompare t.ext node p) →
    (∀ p ∈ after c, avltreeCompare t.ext node p < 0) →
    ∃ t2, t1.avlnodeUpdate node addedNode = .ok t2 ∧ I t2.ext

section Insert

variable {t : AddressSpace} {T : BinaryTree Ptr} {node : Ptr}

/-- A node with a range goes between those below and those above it. -/
theorem Ascending.insert (h : Ascending t T) {t' : AddressSpace} {T' : BinaryTree Ptr} {L R : List Ptr}
    (hnode : 0 < (t.ext.range node).size) (hold : Holds t' T') (hrange : t'.ext.range = t.ext.range)
    (hsplit : inorder T = L ++ R) (hsame : inorder T' = L ++ node :: R)
    (hL : ∀ p ∈ L, (t.ext.range p).end_ ≤ (t.ext.range node).front)
    (hR : ∀ p ∈ R, (t.ext.range node).end_ ≤ (t.ext.range p).front) : Ascending t' T' := by
  have hsize := h.size
  have horder := h.order
  rw [hsplit, pairwise_append] at horder
  rw [hsplit] at hsize
  refine ⟨hold, ?_, ?_⟩
  · intro p hp
    rw [hrange]
    rw [hsame, mem_append, mem_cons] at hp
    rcases hp with hp | rfl | hp
    · exact hsize p (mem_append_left _ hp)
    · exact hnode
    · exact hsize p (mem_append_right _ hp)
  · rw [hrange, hsame, pairwise_append, pairwise_cons]
    refine ⟨horder.1, ⟨hR, horder.2.1⟩, ?_⟩
    intro p hp q hq
    rcases mem_cons.mp hq with rfl | hq
    · exact hL p hp
    · exact horder.2.2 p hp q hq

/--
**`avltree_insert` with `avltree_compare` refuses a range exactly if it overlaps one in the tree**,
and leaves the tree as it is then. Otherwise the node is put in its place, and the ranges are still
disjoint and in ascending order.
-/
theorem insert_refuses_iff (h : Ascending t T) (hnode : 0 < (t.ext.range node).size)
    {I : AddrData → Prop} {update addedNode : Option (AvlCallback AddrData)}
    (hcb : LeavesRanges t T node I update addedNode) {fuel : Nat} (hfuel : (inorder T).length ≤ fuel) :
    (t.avltreeInsert fuel node avltreeCompare update addedNode = .ok (false, t) ↔
      Overlapping t T node) ∧
    (¬ Overlapping t T node → ∃ t' T',
      t.avltreeInsert fuel node avltreeCompare update addedNode = .ok (true, t') ∧
      Ascending t' T' ∧ t'.ext.range = t.ext.range ∧ (inorder T').Perm (node :: inorder T)) := by
  have hself : avltreeCompare t.ext node node = 0 := by
    rw [avltreeCompare_zero, Range.overlaps_iff hnode hnode, Range.end_]
    omega
  rcases avltreeInsert_spec hcb.update h.holds hself (compare_mono hnode h.size h.order)
      (fun x hx => hx) hfuel hcb.added with
    ⟨hrun, p, hp, hzero⟩ | ⟨t', T', L, R, hrun, hold, hsplit, hsame, hL, hR, hI⟩
  · have hover : Overlapping t T node := ⟨p, hp, avltreeCompare_zero.mp hzero⟩
    exact ⟨iff_of_true hrun hover, fun hnone => absurd hover hnone⟩
  · -- the comparator says of every node that it is below or above, so none overlaps
    have hnone : ¬ Overlapping t T node := by
      rintro ⟨p, hp, hover⟩
      have hzero := avltreeCompare_zero.mpr hover
      rw [hsplit] at hp
      rcases mem_append.mp hp with hp | hp
      · have := hL p hp
        omega
      · have := hR p hp
        omega
    refine ⟨iff_of_false ?_ hnone, fun _ => ⟨t', T', hrun, ?_, hcb.range _ hI, ?_⟩⟩
    · rw [hrun]
      intro he
      cases he
    · refine h.insert hnode hold (hcb.range _ hI) hsplit hsame ?_ ?_
      · intro p hp
        exact (avltreeCompare_pos hnode (h.size p (by rw [hsplit]; simp [hp]))).mp (hL p hp)
      · intro p hp
        exact (avltreeCompare_neg hnode (h.size p (by rw [hsplit]; simp [hp]))).mp (hR p hp)
    · rw [hsame, hsplit]
      exact perm_middle

end Insert

/-! ## `addrspace_add_node` -/

/--
The callbacks of `addrspace_add_node` are of this kind, unless the node is the lowest of several.
They rely on a list with the node in its place.
-/
theorem leavesRanges_addNode {t : AddressSpace} {T : BinaryTree Ptr} {live : Set Ptr}
    (h : Agrees t live T) {node : Ptr} (hnode : node ∉ live) (hfits : (t.ext.range node).Fits)
    (hlow : live = ∅ ∨ (∃ p ∈ live, (t.ext.range node).overlaps (t.ext.range p) = true) ∨
      ∃ p ∈ live, (t.ext.range p).end_ ≤ (t.ext.range node).front) :
    LeavesRanges t T node (fun e => e.range = t.ext.range ∧ ∃ A B, inorder T = A ++ B ∧
        IsRing e.list .head ((A ++ node :: B).map .node))
      (some avltreeUpdate) (some addNodeCb) where
  range _ hI := hI.1
  update := by
    refine avltreeUpdate_ok (K := fun R H => R = t.ext.range ∧ ∃ A B, inorder T = A ++ B ∧
      IsRing H .head ((A ++ node :: B).map .node)) ?_
    intro R H hK p hp
    obtain ⟨rfl, A, B, hsplit, hring⟩ := hK
    have hmem : ∀ q, q ∈ A ++ node :: B ↔ q ∈ node :: inorder T := by
      intro q
      rw [hsplit]
      exact perm_middle.mem_iff
    obtain ⟨prev, hprev, hon⟩ := ring_prev hring ((hmem p).mpr hp)
    refine ⟨prev, hprev, fun q hq => ?_⟩
    rcases mem_cons.mp ((hmem q).mp (hon q hq)) with rfl | hq
    · exact hfits.2
    · exact (h.fits q hq).2
  added c t1 hplug hold hext hb ha := by
    obtain ⟨list, hplaced, hadded⟩ := addNodeCb_placed h hnode hfits hlow hplug hb ha
    exact ⟨_, hadded t1 hold hext, rfl, before c, after c, hplaced.split, hplaced.ring⟩

/-- `addrspace_add_node` refuses node 5, and adds node 4. -/
theorem insert_refuses_iff_three :
    threePages.addrspaceAddNode 3 5 = .ok (false, threePages) ∧
      ∃ t' T', threePages.addrspaceAddNode 3 4 = .ok (true, t') ∧
        Ascending t' T' ∧ (inorder T').Perm [4, 1, 2, 3] := by
  have hasc : Ascending threePages (.node 2 (.node 1 .nil .nil) (.node 3 .nil .nil)) :=
    ⟨threePages_agrees.holds, by decide, threePages_agrees.ordered⟩
  have hover : (threePages.ext.range 5).overlaps (threePages.ext.range 1) = true := by decide
  have hnone : ¬ Overlapping threePages (.node 2 (.node 1 .nil .nil) (.node 3 .nil .nil)) 4 := by
    unfold Overlapping
    decide
  have hcb5 := leavesRanges_addNode threePages_agrees (show 5 ∉ _ by simp) (by decide)
    (.inr (.inl ⟨1, by simp, hover⟩))
  have hcb4 := leavesRanges_addNode threePages_agrees (show 4 ∉ _ by simp) (by decide)
    (.inr (.inr ⟨1, by simp, by decide⟩))
  obtain ⟨t', T', hrun, hasc', -, hperm⟩ :=
    (insert_refuses_iff hasc (by decide) hcb4 (Nat.le_refl 3)).2 hnone
  exact ⟨(insert_refuses_iff hasc (by decide) hcb5 (Nat.le_refl 3)).1.mpr ⟨1, by decide, hover⟩,
    t', T', hrun, hasc', hperm⟩

end OsKernel.Adt.AddressSpace
