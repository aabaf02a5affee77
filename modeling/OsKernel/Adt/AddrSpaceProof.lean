import OsKernel.Adt.AddrSearch

/-!
# The list and the tree of an address space

A node gets onto the list and into the tree by separate code: after the search both
places are derived from the node before the room, and `addrspace_add_node` puts the
node on the list from inside the insertion into the tree. The two agree as long as

* the node before the room has no right child, whose place the new node takes,
* a node that `addrspace_add_node` adds is not the lowest of several, and
* no node is removed, because removal forgets the list.
-/

namespace OsKernel.Adt.AddressSpace

open List hiding after

open LinkedTree LinkedRing AvlTree
open Function Range

variable {t t' : AddressSpace} {live : Set Ptr} {T T' : BinaryTree Ptr}
variable {node p : Ptr} {range : Range} {fuel addr : Nat} {c : Ctx Ptr} {e : AddrData}
  {A B : List Ptr} {H list : ListPtr → RingLinks ListPtr}

/-! ## The callbacks -/

theorem ring_prev {M : List Ptr} (h : IsRing H .head (M.map .node)) (hp : p ∈ M) :
    ∃ prev, (H (.node p)).prev = some prev ∧ ∀ q, prev = .node q → q ∈ M := by
  obtain ⟨A, B, rfl⟩ := append_of_mem hp
  have hway := h.way
  rw [map_append, map_cons] at hway
  refine ⟨_, prev_of_way (way_append.mp hway).1, ?_⟩
  intro q hq
  unfold lastPtr at hq
  cases hlast : A.getLast? with
  | none =>
    rw [hlast] at hq
    cases hq
  | some a =>
    rw [hlast] at hq
    cases hq
    exact mem_append_left _ (mem_of_getLast? hlast)

/--
`avltree_update` returns, and leaves ranges and lists alone, on nodes whose element comes after
the head or after a node with a range that ends.
-/
theorem avltreeUpdate_ok {K : (Ptr → Range) → (ListPtr → RingLinks ListPtr) → Prop} {S : Set Ptr}
    (hK : ∀ R H, K R H → ∀ p ∈ S, ∃ prev, (H (.node p)).prev = some prev ∧
      ∀ q, prev = .node q → (R q).end_ < U64) :
    CallbackOk (fun e : AddrData => K e.range e.list) S (some avltreeUpdate) := by
  intro update hupdate t p hp hI
  cases hupdate
  obtain ⟨prev, hprev, hend⟩ := hK _ _ hI p hp
  unfold avltreeUpdate AddrData.addrspaceNodePrev
  rw [hprev]
  cases prev with
  | head => exact ⟨_, rfl, hI⟩
  | node q =>
    simp only [ok_bind, AddrData.prevEnd, getEndAssert_eq (hend q rfl)]
    exact ⟨_, rfl, hI⟩

/-! ## A node more -/

/-- A node between two neighbours, on the list and in the tree. -/
theorem Agrees.insert (h : Agrees t live T) (hsplit : inorder T = A ++ B) (hnode : node ∉ live)
    (hfits : range.Fits) (hA : ∀ p ∈ A, (t.ext.range p).end_ ≤ range.front)
    (hB : ∀ p ∈ B, range.end_ ≤ (t.ext.range p).front) (hold : Holds t' T')
    (hsame : inorder T' = A ++ node :: B) (hrange : t'.ext.range = update t.ext.range node range)
    (hring : IsRing t'.ext.list .head ((A ++ node :: B).map .node)) :
    Agrees t' (live ∪ {node}) T' := by
  have hnot : node ∉ A ++ B := by
    rw [← hsplit, h.mem]
    exact hnode
  have hother : ∀ p ∈ A ++ B, t'.ext.range p = t.ext.range p := by
    intro p hp
    rw [hrange, update_of_ne]
    intro he
    subst he
    exact hnot hp
  have hself : t'.ext.range node = range := by
    rw [hrange, update_self]
  have hAB : ∀ p ∈ A, ∀ q ∈ B, (t.ext.range p).end_ ≤ (t.ext.range q).front := by
    have hord := h.ordered
    rw [hsplit, pairwise_append] at hord
    exact hord.2.2
  refine ⟨hold, by rw [hsame]; exact hring, ?_, ?_, ?_⟩
  · intro p
    have hp := h.mem p
    rw [hsplit] at hp
    rw [hsame, Set.mem_union, Set.mem_singleton_iff, ← hp]
    simp only [mem_append, mem_cons]
    tauto
  · have hord := h.ordered
    rw [hsplit, pairwise_append] at hord
    rw [hsame, pairwise_append, pairwise_cons]
    refine ⟨?_, ⟨?_, ?_⟩, ?_⟩
    · refine hord.1.imp_of_mem ?_
      intro p q hp hq hpq
      rw [hother p (mem_append_left _ hp), hother q (mem_append_left _ hq)]
      exact hpq
    · intro q hq
      rw [hself, hother q (mem_append_right _ hq)]
      exact hB q hq
    · refine hord.2.1.imp_of_mem ?_
      intro p q hp hq hpq
      rw [hother p (mem_append_right _ hp), hother q (mem_append_right _ hq)]
      exact hpq
    · intro p hp q hq
      rw [hother p (mem_append_left _ hp)]
      rcases mem_cons.mp hq with rfl | hq
      · rw [hself]
        exact hA p hp
      · rw [hother q (mem_append_right _ hq)]
        exact hAB p hp q hq
  · intro p hp
    rw [hsame] at hp
    rcases mem_append.mp hp with hp | hp
    · rw [hother p (mem_append_left _ hp)]
      exact h.fits p (by rw [hsplit]; exact mem_append_left _ hp)
    · rcases mem_cons.mp hp with rfl | hp
      · rw [hself]
        exact hfits
      · rw [hother p (mem_append_right _ hp)]
        exact h.fits p (by rw [hsplit]; exact mem_append_right _ hp)

theorem Agrees.fits_insert (h : Agrees t live T) (hsplit : inorder T = A ++ B) (hfits : range.Fits)
    (node : Ptr) :
    ∀ q ∈ A ++ node :: B, (update t.ext.range node range q).Fits := by
  intro q hq
  by_cases hqn : q = node
  · rw [hqn, update_self]
    exact hfits
  · rw [update_of_ne hqn]
    refine h.fits q ?_
    rw [hsplit]
    rcases mem_append.mp hq with hq | hq
    · exact mem_append_left _ hq
    · rcases mem_cons.mp hq with hq | hq
      · exact absurd hq hqn
      · exact mem_append_right _ hq

theorem listAdd_nodes (h : IsRing H .head ((A ++ B).map .node)) (hnode : node ∉ A ++ B) :
    ∃ H', listAdd H (lastPtr A) (.node node) = .ok H' ∧
      IsRing H' .head ((A ++ node :: B).map .node) ∧
      ∀ q, q ≠ node → q ∉ A ++ B → H' (.node q) = H (.node q) := by
  have hout : ∀ q ∉ A ++ B, ListPtr.node q ∉ ListPtr.head :: (A.map .node ++ B.map .node) := by
    intro q hq hmem
    rw [← map_append] at hmem
    rcases mem_cons.mp hmem with hmem | hmem
    · cases hmem
    · obtain ⟨q', hq', he⟩ := mem_map.mp hmem
      cases he
      exact hq hq'
  rw [map_append] at h
  obtain ⟨H', hrun, hring, hkeep⟩ := listAdd_ring h (hout node hnode)
  rw [lastPtr_eq]
  refine ⟨H', hrun, ?_, ?_⟩
  · rw [map_append, map_cons]
    exact hring
  · intro q hq hqAB
    exact hkeep _ (fun e => hq (ListPtr.node.inj e)) (hout q hqAB)

/-! ## Comparing ranges -/

section Compare

variable {e : AddrData} {ours theirs : Ptr}

theorem avltreeCompare_neg (h : 0 < (e.range ours).size) (h' : 0 < (e.range theirs).size) :
    avltreeCompare e ours theirs < 0 ↔ (e.range ours).end_ ≤ (e.range theirs).front := by
  have hover := overlaps_iff h h'
  unfold avltreeCompare Range.above
  simp only [hover, isLocAbove_iff, end_] at *
  split <;> [skip; split] <;> omega

theorem avltreeCompare_pos (h : 0 < (e.range ours).size) (h' : 0 < (e.range theirs).size) :
    0 < avltreeCompare e ours theirs ↔ (e.range theirs).end_ ≤ (e.range ours).front := by
  have hover := overlaps_iff h h'
  unfold avltreeCompare Range.above
  simp only [hover, isLocAbove_iff, end_] at *
  split <;> [skip; split] <;> omega

theorem avltreeCompare_zero :
    avltreeCompare e ours theirs = 0 ↔ (e.range ours).overlaps (e.range theirs) = true := by
  unfold avltreeCompare
  split
  · simp_all
  · split <;> simp_all

end Compare

/-- Along nodes in ascending order the comparator does not change its mind. -/
theorem compare_mono {L : List Ptr} (hnode : 0 < (e.range node).size)
    (hsize : ∀ p ∈ L, 0 < (e.range p).size)
    (hord : L.Pairwise fun p q => (e.range p).end_ ≤ (e.range q).front) :
    L.Pairwise fun x y =>
      (avltreeCompare e node x < 0 → avltreeCompare e node y < 0) ∧
      (0 < avltreeCompare e node y → 0 < avltreeCompare e node x) := by
  refine hord.imp_of_mem ?_
  intro x y hx hy hxy
  have hposx := hsize x hx
  have hposy := hsize y hy
  rw [avltreeCompare_neg hnode hposx, avltreeCompare_neg hnode hposy, avltreeCompare_pos hnode hposx,
    avltreeCompare_pos hnode hposy]
  simp only [end_] at *
  omega

theorem Agrees.compare_mono (h : Agrees t live T) (hnode : (e.range node).Fits)
    (hsame : ∀ p ∈ inorder T, e.range p = t.ext.range p) :
    (inorder T).Pairwise fun x y =>
      (avltreeCompare e node x < 0 → avltreeCompare e node y < 0) ∧
      (0 < avltreeCompare e node y → 0 < avltreeCompare e node x) := by
  refine AddressSpace.compare_mono hnode.1 ?_ ?_
  · intro p hp
    rw [hsame p hp]
    exact (h.fits p hp).1
  · refine h.ordered.imp_of_mem ?_
    intro p q hp hq hpq
    rw [hsame p hp, hsame q hq]
    exact hpq

/-! ## Adding -/

/-- The links of nodes that are not in the space are not touched. -/
def KeepsIdle (t t' : AddressSpace) (live : Set Ptr) : Prop :=
  ∀ q ∉ live, t'.ext.list (.node q) = t.ext.list (.node q)

/-- Where a new node goes: a hole of the tree, and the list with the node in the same place. -/
structure Placed (t : AddressSpace) (T : BinaryTree Ptr) (node : Ptr) (range : Range) (c : Ctx Ptr)
    (list : ListPtr → RingLinks ListPtr) : Prop where
  tree : plug c .nil = T
  below : ∀ p ∈ before c, (t.ext.range p).end_ ≤ range.front
  above : ∀ p ∈ after c, range.end_ ≤ (t.ext.range p).front
  ring : IsRing list .head ((before c ++ node :: after c).map .node)
  /-- The elements of nodes that are not in the space are left alone. -/
  keep : ∀ q, q ≠ node → q ∉ inorder T → list (.node q) = t.ext.list (.node q)

theorem Placed.split (hp : Placed t T node range c list) :
    inorder T = before c ++ after c := by
  rw [← hp.tree, inorder_plug]
  simp

/-- On the new list every node comes after the head or after a node with a range that ends. -/
theorem Placed.updates (h : Agrees t live T) (hp : Placed t T node range c list)
    (hfits : range.Fits) :
    CallbackOk (fun e : AddrData => e.range = update t.ext.range node range ∧ e.list = list)
      {x | x ∈ before c ++ node :: after c} (some avltreeUpdate) := by
  have hends := h.fits_insert hp.split hfits node
  refine avltreeUpdate_ok
    (K := fun R H => R = update t.ext.range node range ∧ H = list) ?_
  intro R H hK x hx
  obtain ⟨rfl, rfl⟩ := hK
  obtain ⟨prev, hprev, hmem⟩ := ring_prev hp.ring hx
  exact ⟨prev, hprev, fun q hq => (hends q (hmem q hq)).2⟩

/--
The node is linked in at its place. Its range has been written, and the callback for new nodes, if
there is one, sees to the list.
-/
theorem Placed.insert (h : Agrees t live T) (hp : Placed t T node range c list)
    (hnode : node ∉ live) (hfits : range.Fits) (hfuel : (inorder T).length ≤ fuel)
    {t0 : AddressSpace} (hold : Holds t0 T) (hrange : t0.ext.range = update t.ext.range node range)
    {addedNode : Option (AvlCallback AddrData)}
    (hadded : ∀ t1 : AddressSpace, Holds t1 (plug c (.node node .nil .nil)) → t1.ext = t0.ext →
      t1.avlnodeUpdate node addedNode = .ok { t1 with ext := { t0.ext with list := list } }) :
    ∃ t' T', t0.insertAtLoc fuel node c.parent (ctxLink c) (some avltreeUpdate) addedNode = .ok t' ∧
      Agrees t' (live ∪ {node}) T' ∧ KeepsIdle t t' (live ∪ {node}) ∧
      inorder T' = before c ++ node :: after c ∧
      t'.ext.range = update t.ext.range node range ∧ t'.ext.list = list := by
  have hnot : node ∉ before c ++ after c := by
    rw [← hp.split, h.mem]
    exact hnode
  have hlen : c.length ≤ fuel := by
    have hle := length_le_before_after c
    rw [← length_append, ← hp.split] at hle
    exact hle.trans hfuel
  obtain ⟨t', T', hrun, hold', hsame, hrange', hlist'⟩ := insertAtLoc_spec (hp.updates h hfits) fuel
    (by rw [hp.tree]; exact hold) hnot (fun x hx => hx) hlen
    (fun t1 hold1 hext => ⟨_, hadded t1 hold1 hext, hrange, rfl⟩)
  refine ⟨t', T', hrun, ?_, ?_, hsame, hrange', hlist'⟩
  · exact h.insert hp.split hnode hfits hp.below hp.above hold' hsame hrange'
      (by rw [hlist']; exact hp.ring)
  · intro q hq
    simp only [Set.mem_union, Set.mem_singleton_iff, not_or] at hq
    rw [hlist']
    exact hp.keep q hq.2 (by rw [h.mem]; exact hq.1)

/-- The room found has a node before it without a right child: the new node becomes that child. -/
theorem addAt_some_eq (h : Agrees t live T) (hnode : node ∉ live)
    (hroom : Room t T addr (t.ext.range node).size (some p)) (hright : (t.nodes p).right = none) :
    ∃ c list, Placed t T node ⟨addr, (t.ext.range node).size⟩ c list ∧ c.parent = some p ∧
      ctxLink c = .right p ∧ listAdd t.ext.list (.node p) (.node node) = .ok list ∧
      ∀ fuel, t.addAt fuel node addr (some p) =
        ((t.setRange node ⟨addr, (t.ext.range node).size⟩).setList list).insertAtLoc fuel node c.parent
          (ctxLink c) (some avltreeUpdate) none := by
  obtain ⟨⟨A, B, hsplit, hlast, hend, hB⟩, hfits⟩ := hroom
  have hnot : node ∉ A ++ B := by
    rw [← hsplit, h.mem]
    exact hnode
  have hbelow : ∀ q ∈ A, (t.ext.range q).end_ ≤ addr := fun q hq =>
    (h.le_endOf hsplit q hq).trans hend
  have hring := h.ring
  rw [hsplit] at hring
  obtain ⟨list, hadd, hring', hkeep⟩ := listAdd_nodes hring hnot
  have hptr : lastPtr A = .node p := by
    unfold lastPtr
    rw [← hlast]
  rw [hptr] at hadd
  -- the place in the tree
  obtain ⟨A', rfl⟩ := getLast?_eq_some_iff.mp hlast.symm
  have hp : p ∈ inorder T := by
    rw [hsplit]
    simp
  obtain ⟨c, l, r, rfl⟩ := exists_plug_of_mem hp
  obtain ⟨_, _, _, _, _, hr⟩ := rep_plug.mp h.holds.rep
  have hnil : r = .nil := hr.at_none_iff.mp hright
  subst hnil
  have hwhole : before c ++ inorder l ++ p :: after c = A' ++ p :: B := by
    rw [inorder_plug, inorder_node] at hsplit
    simpa using hsplit
  have hnd := h.holds.nodup
  rw [hsplit, append_assoc, singleton_append] at hnd
  obtain ⟨-, hpB, hApB⟩ := nodup_append.mp hnd
  obtain ⟨hbefore, -, hafter⟩ := (append_cons_inj_of_notMem
    (fun hm => hApB p hm p mem_cons_self rfl) (nodup_cons.mp hpB).1).mp hwhole.symm
  have hA : before (.right l p :: c) = A' ++ [p] := by
    rw [before, ← hbefore]
  have hB' : after (.right l p :: c) = B := hafter.symm
  refine ⟨.right l p :: c, list, ⟨rfl, ?_, ?_, ?_, ?_⟩, rfl, rfl, hadd, ?_⟩
  · rw [hA]
    exact hbelow
  · rw [hB']
    exact hB
  · rw [hA, hB']
    exact hring'
  · intro q hq hqT
    exact hkeep q hq (by rw [← hsplit]; exact hqT)
  · intro fuel
    unfold addAt
    dsimp only
    rw [show (t.setRange node ⟨addr, (t.ext.range node).size⟩).ext.list = t.ext.list from rfl, hadd]
    rfl

/-- There is no callback for a node that the search has found room for: it is on the list. -/
theorem avlnodeUpdate_listed (t : AddressSpace) (list : ListPtr → RingLinks ListPtr) (node : Ptr)
    (t1 : AddressSpace) (hext : t1.ext = (t.setList list).ext) :
    t1.avlnodeUpdate node none = .ok { t1 with ext := { (t.setList list).ext with list := list } } := by
  obtain ⟨nodes, root, _⟩ := t1
  subst hext
  rfl

section

variable (h : Agrees t live T) (hnode : node ∉ live) (hsize : 1 ≤ (t.ext.range node).size)
include h hnode hsize

theorem addAt_some (hroom : Room t T addr (t.ext.range node).size (some p))
    (hright : (t.nodes p).right = none) (hfuel : (inorder T).length ≤ fuel) :
    ∃ t' T', t.addAt fuel node addr (some p) = .ok t' ∧ Agrees t' (live ∪ {node}) T' ∧
      KeepsIdle t t' (live ∪ {node}) := by
  obtain ⟨c, list, hplaced, -, -, -, hrun⟩ := addAt_some_eq h hnode hroom hright
  have hold : Holds ((t.setRange node ⟨addr, (t.ext.range node).size⟩).setList list) T :=
    h.holds.of_links rfl rfl
  obtain ⟨t', T', hins, hagrees, hidle, -⟩ := hplaced.insert h hnode ⟨hsize, hroom.fits⟩ hfuel hold
    rfl fun t1 _ hext => avlnodeUpdate_listed _ list node t1 hext
  exact ⟨t', T', by rw [hrun, hins], hagrees, hidle⟩

/-- There is room before all nodes: the new node is inserted by its range. -/
theorem addAt_none (hroom : Room t T addr (t.ext.range node).size none)
    (hidle : (t.ext.list (.node node)).prev = some (.node node))
    (hfuel : (inorder T).length ≤ fuel) :
    ∃ t' T', t.addAt fuel node addr none = .ok t' ∧ Agrees t' (live ∪ {node}) T' ∧
      KeepsIdle t t' (live ∪ {node}) := by
  obtain ⟨⟨A, B, hsplit, hlast, hend, hB⟩, hfits⟩ := hroom
  have hAnil : A = [] := getLast?_eq_none_iff.mp hlast.symm
  subst hAnil
  subst hsplit
  have hnot : node ∉ inorder T := by
    rw [h.mem]
    exact hnode
  have hwide : (⟨addr, (t.ext.range node).size⟩ : Range).Fits := ⟨hsize, hfits⟩
  have hends := h.fits_insert (A := []) rfl hwide node
  set t1 : AddressSpace := t.setRange node ⟨addr, (t.ext.range node).size⟩ with ht1
  have hself : t1.ext.range node = ⟨addr, (t.ext.range node).size⟩ := update_self ..
  have hothers : ∀ p ∈ inorder T, t1.ext.range p = t.ext.range p := by
    intro p hp
    refine update_of_ne ?_ _ _
    intro he
    subst he
    exact hnot hp
  have hfitsSelf : (t1.ext.range node).Fits := by
    rw [hself]
    exact hwide
  have hbelow : ∀ p ∈ inorder T, avltreeCompare t1.ext node p < 0 := by
    intro p hp
    rw [avltreeCompare_neg hfitsSelf.1 (hends p (.tail _ hp)).1, hself, hothers p hp]
    exact hB p hp
  have hcb : CallbackOk (fun e : AddrData => e.range = t1.ext.range ∧ e.list = t.ext.list)
      {x | x ∈ node :: inorder T} (some avltreeUpdate) := by
    refine avltreeUpdate_ok (K := fun R H => R = t1.ext.range ∧ H = t.ext.list) ?_
    intro R H hK x hx
    obtain ⟨rfl, rfl⟩ := hK
    -- the element of the new node still points at itself
    rcases mem_cons.mp hx with hx | hx
    · refine ⟨_, by rw [hx]; exact hidle, ?_⟩
      intro q hq
      cases hq
      exact hfitsSelf.2
    · obtain ⟨prev, hprev, hmem⟩ := ring_prev h.ring hx
      exact ⟨prev, hprev, fun q hq => (hends q (.tail _ (hmem q hq))).2⟩
  have hold1 : Holds t1 T := h.holds.of_links rfl rfl
  have hcmpSelf : avltreeCompare t1.ext node node = 0 := by
    rw [avltreeCompare_zero, overlaps_iff hfitsSelf.1 hfitsSelf.1]
    have := hfitsSelf.1
    simp only [end_]
    omega
  have hnone : ∀ t2 : AddressSpace, t2.ext = t1.ext → ∃ t3, t2.avlnodeUpdate node none = .ok t3 ∧
      t3.ext.range = t1.ext.range ∧ t3.ext.list = t.ext.list := by
    intro t2 hext
    exact ⟨t2, rfl, by rw [hext], by rw [hext]; rfl⟩
  rcases avltreeInsert_spec hcb hold1 hcmpSelf (h.compare_mono hfitsSelf hothers)
      (fun x hx => hx) hfuel
      (fun _ t2 _ _ hext _ _ => hnone t2 hext) with
    ⟨-, x, hx, hx0⟩ | ⟨t2, T', L, R, hrun, hold', hsplit, hsame, hL, hR, hrange', hlist'⟩
  · have := hbelow x hx
    omega
  · have hLnil : L = [] := by
      cases L with
      | nil => rfl
      | cons x L =>
        have h1 := hL x mem_cons_self
        have h2 := hbelow x (by rw [hsplit]; simp)
        omega
    subst hLnil
    subst hsplit
    obtain ⟨H', hadd, hring', hkeep⟩ := listAdd_nodes (A := []) h.ring hnot
    refine ⟨setList t2 H', T', ?_, ?_, ?_⟩
    · unfold addAt
      dsimp only
      rw [hrun]
      simp only [ok_bind, if_true]
      rw [hlist', show ListPtr.head = lastPtr [] from rfl, hadd]
      rfl
    · exact h.insert (A := []) rfl hnode hwide (by simp) hB (hold'.of_links rfl rfl) hsame hrange'
        hring'
    · intro q hq
      simp only [Set.mem_union, Set.mem_singleton_iff, not_or] at hq
      refine hkeep q hq.2 ?_
      rw [nil_append, h.mem]
      exact hq.1

end

/--
`add_node_cb` puts the node on the list where it is in the tree, unless there are nodes and none of
them is before it.
-/
theorem addNodeCb_eq (hold : Holds t (plug c (.node node .nil .nil)))
    (hring : IsRing t.ext.list .head ((before c ++ after c).map .node))
    (hlow : c = [] ∨ before c ≠ []) :
    addNodeCb t node = (do
      let list ← listAdd t.ext.list (lastPtr (before c)) (.node node)
      pure { t.ext with list := list }) := by
  unfold addNodeCb
  match c, hold, hring, hlow with
  | [], hold, _, _ =>
    have hpar : (t.nodes node).parent = none := hold.rep.2.1
    rw [hpar]
    rfl
  | .right l p :: c, hold, _, _ =>
    -- a right child comes right behind its parent
    have hold' : Holds t (plug c (.node p l (.node node .nil .nil))) := hold
    obtain ⟨_, _, _, _, _, hright, hpar, _⟩ := rep_plug.mp hold'.rep
    rw [nodes_parent, hpar]
    dsimp only
    rw [nodes_right, hright, if_pos rfl]
    have hlast : lastPtr (before (.right l p :: c)) = .node p := by simp [lastPtr, before]
    rw [hlast]
  | .left p r :: c, hold, hring, hlow =>
    -- a left child comes right before its parent
    have hold' : Holds t (plug c (.node p (.node node .nil .nil) r)) := hold
    obtain ⟨_, _, _, _, ⟨_, hpar, _⟩, hr⟩ := rep_plug.mp hold'.rep
    have hnot : (t.links p).right ≠ some node := by
      intro he
      have hmem := hr.at_mem node he
      have hnd := hold'.ctx_nodup.2.1
      rw [inorder_node, nodup_append] at hnd
      exact hnd.2.2 node (by simp) node (.tail _ hmem) rfl
    rw [nodes_parent, hpar]
    dsimp only
    rw [nodes_right, if_neg hnot]
    have hway := hring.way
    rw [before, after, cons_append, map_append, map_cons] at hway
    have hprev := prev_of_way (way_append.mp hway).1
    unfold AddrData.addrspaceNodePrev
    rw [hprev]
    have hne : before c ≠ [] := by
      rcases hlow with hlow | hlow
      · cases hlow
      · exact hlow
    cases hlast : (before c).getLast? with
    | none => exact absurd (getLast?_eq_none_iff.mp hlast) hne
    | some x =>
      have hptr : lastPtr (before c) = .node x := by simp [lastPtr, hlast]
      have hptr' : lastPtr (before (.left p r :: c)) = .node x := hptr
      rw [hptr, hptr']
      rfl

section

variable (h : Agrees t live T) (hnode : node ∉ live) (hfits : (t.ext.range node).Fits)
include h hnode hfits

section

variable
  (hlow : live = ∅ ∨ (∃ p ∈ live, (t.ext.range node).overlaps (t.ext.range p) = true) ∨
      ∃ p ∈ live, (t.ext.range p).end_ ≤ (t.ext.range node).front)
include hlow

/-- At the place that the comparator leads to, `add_node_cb` puts the node on the list. -/
theorem addNodeCb_placed (hplug : plug c .nil = T)
    (hb : ∀ p ∈ before c, 0 < avltreeCompare t.ext node p)
    (ha : ∀ p ∈ after c, avltreeCompare t.ext node p < 0) :
    ∃ list, Placed t T node (t.ext.range node) c list ∧
      ∀ t1 : AddressSpace, Holds t1 (plug c (.node node .nil .nil)) → t1.ext = t.ext →
        t1.avlnodeUpdate node (some addNodeCb) = .ok { t1 with ext := { t.ext with list := list } } := by
  have hsplit : inorder T = before c ++ after c := by
    rw [← hplug, inorder_plug]
    simp
  have hnot : node ∉ before c ++ after c := by
    rw [← hsplit, h.mem]
    exact hnode
  have hmem : ∀ p ∈ live, p ∈ before c ++ after c := fun p hp => by
    rw [← hsplit, h.mem]
    exact hp
  have hbelow : ∀ p ∈ before c, (t.ext.range p).end_ ≤ (t.ext.range node).front := fun p hp =>
    (avltreeCompare_pos hfits.1 (h.fits p (by rw [hsplit]; simp [hp])).1).mp (hb p hp)
  have habove : ∀ p ∈ after c, (t.ext.range node).end_ ≤ (t.ext.range p).front := fun p hp =>
    (avltreeCompare_neg hfits.1 (h.fits p (by rw [hsplit]; simp [hp])).1).mp (ha p hp)
  have hlowest : c = [] ∨ before c ≠ [] := by
    rcases hlow with hempty | ⟨p, hp, hover⟩ | ⟨p, hp, hfront⟩
    · -- an empty space
      have hnil : inorder T = [] := by
        refine eq_nil_iff_forall_not_mem.mpr fun x hx => ?_
        have hx' := (h.mem x).mp hx
        rw [hempty] at hx'
        exact hx'
      have hlen := length_le_before_after c
      rw [← length_append, ← hsplit, hnil] at hlen
      exact .inl (length_eq_zero_iff.mp (Nat.le_zero.mp hlen))
    · -- a node that overlaps would have ended the descent
      have hzero : avltreeCompare t.ext node p = 0 := avltreeCompare_zero.mpr hover
      rcases mem_append.mp (hmem p hp) with hp | hp
      · have := hb p hp
        omega
      · have := ha p hp
        omega
    · right
      rcases mem_append.mp (hmem p hp) with hp | hp
      · exact ne_nil_of_mem hp
      · have hup := habove p hp
        have hpos := hfits.1
        simp only [end_] at hfront hup
        omega
  have hring := h.ring
  rw [hsplit] at hring
  obtain ⟨list, hadd, hring', hkeep⟩ := listAdd_nodes hring hnot
  refine ⟨list, ⟨hplug, hbelow, habove, hring', ?_⟩, ?_⟩
  · intro q hq hqT
    exact hkeep q hq (by rw [← hsplit]; exact hqT)
  · intro t1 hold hext
    have hring1 : IsRing t1.ext.list .head ((before c ++ after c).map .node) := by
      rw [hext]
      exact hring
    have hadd1 : listAdd t1.ext.list (lastPtr (before c)) (.node node) = .ok list := by
      rw [hext]
      exact hadd
    simp only [avlnodeUpdate, addNodeCb_eq hold hring1 hlowest, hadd1, ← hext]
    rfl

variable (hfuel : (inorder T).length ≤ fuel)
include hfuel

/-- `addrspace_add_node`, for a node that is not the lowest of several, finds its place. -/
theorem addNode_eq :
    t.addrspaceAddNode fuel node = .ok (false, t) ∨
    ∃ c list, Placed t T node (t.ext.range node) c list ∧
      t.findPlace node avltreeCompare fuel t.root none .root = .ok (some (c.parent, ctxLink c)) ∧
      t.addrspaceAddNode fuel node = (t.insertAtLoc fuel node c.parent (ctxLink c)
        (some avltreeUpdate) (some addNodeCb)).map (fun t' => (true, t')) ∧
      ∀ t1 : AddressSpace, Holds t1 (plug c (.node node .nil .nil)) → t1.ext = t.ext →
        t1.avlnodeUpdate node (some addNodeCb) = .ok { t1 with ext := { t.ext with list := list } } := by
  rcases avltreeInsert_eq (some avltreeUpdate) (some addNodeCb) h.holds hfuel
      (h.compare_mono hfits fun _ _ => rfl) with hequal | ⟨c, hplug, hplace, hb, ha, hrun⟩
  · exact .inl hequal.1
  · obtain ⟨list, hplaced, hadded⟩ := addNodeCb_placed h hnode hfits hlow hplug hb ha
    exact .inr ⟨c, list, hplaced, hplace, hrun, hadded⟩

theorem addNode_spec :
    t.addrspaceAddNode fuel node = .ok (false, t) ∨
    ∃ t' T', t.addrspaceAddNode fuel node = .ok (true, t') ∧ Agrees t' (live ∪ {node}) T' ∧
      KeepsIdle t t' (live ∪ {node}) := by
  rcases addNode_eq h hnode hfits hlow hfuel with hrun | ⟨c, list, hplaced, -, hrun, hadded⟩
  · exact .inl hrun
  · right
    obtain ⟨t', T', hins, hagrees, hidle, -⟩ := hplaced.insert h hnode hfits hfuel h.holds
      (by rw [update_eq_self]) hadded
    exact ⟨t', T', by rw [hrun, hins]; rfl, hagrees, hidle⟩

end

end

end OsKernel.Adt.AddressSpace
