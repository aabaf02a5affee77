import OsKernel.Adt.AvlProof

/-!
# When the tree is balanced

`avltree_fixup` goes up from the place of a change and looks at the stored heights. At a
node whose subtrees are near in height it writes the height again. At any other node it
rotates, once or twice, and then writes the height of the old top, and of nothing else. So
the height of the new top is right only if the rotation leaves it as it was, which is so
when the child on the heavy side leans outwards. After a double rotation, and after a
single rotation over a child whose subtrees are equally high, nodes with wrong heights are
left behind.

A turn of the loop that rotates in the one good case or not at all is *plain*. Runs whose
calls take plain turns only keep the tree balanced and its heights true.
-/

namespace OsKernel.Adt.AvlTree

open LinkedTree List Function

variable {α κ : Type}
variable {T : BinaryTree Ptr} {fuel : Nat} {t : AvlTree α} {c : Ctx Ptr}
  {update : Option (AvlCallback α)} {p : Ptr}

/-! ## Reading heights -/

theorem nodeHeight_eq {par at_ : Option Ptr} (h : Rep t.links T par at_)
    (hT : Annotated t.heights T) : t.nodeHeight at_ = T.height := by
  cases T with
  | nil =>
    rw [show at_ = none from h]
    rfl
  | node p l r =>
    rw [h.1]
    exact hT.1

theorem resetNodeHeight_heights {l r : BinaryTree Ptr} (h : Holds t (plug c (.node p l r)))
    (hl : Annotated t.heights l) (hr : Annotated t.heights r)
    (hroom : max l.height r.height + 1 < 2 ^ 32) :
    (t.resetNodeHeight p).heights = Function.update t.heights p (max l.height r.height + 1) := by
  obtain ⟨_, _, rfl, _, hrepl, hrepr⟩ := rep_plug.mp h.rep
  have hleft : t.nodeHeight (t.nodes p).left = l.height := nodeHeight_eq hrepl hl
  have hright : t.nodeHeight (t.nodes p).right = r.height := nodeHeight_eq hrepr hr
  rw [resetNodeHeight, heights_setHeight, hleft, hright, add_comm 1, Nat.mod_eq_of_lt hroom]

/-! ## One turn -/

/-- A turn that does not rotate, or rotates once over a child that leans outwards. -/
def PlainTurn (t : AvlTree α) (node : Ptr) : Prop :=
  (t.nodeBalance node > 1 → ∀ q ∈ (t.nodes node).right,
    t.nodeHeight (t.nodes q).left < t.nodeHeight (t.nodes q).right) ∧
  (t.nodeBalance node < -1 → ∀ q ∈ (t.nodes node).left,
    t.nodeHeight (t.nodes q).right < t.nodeHeight (t.nodes q).left)

/-- What a plain turn makes of a node whose subtrees are balanced. -/
structure Mended (t t' : AvlTree α) (c : Ctx Ptr) (p q : Ptr) (l r l' r' : BinaryTree Ptr) :
    Prop where
  holds : Holds t' (plug c (.node q l' r'))
  same : inorder (.node q l' r') = inorder (.node p l r)
  avl : Avl t'.heights (.node q l' r')
  /-- The height of the subtree comes out as one would have it. -/
  height : Near l.height r.height ∧
      (BinaryTree.node q l' r').height = max l.height r.height + 1 ∨
    (l.height = r.height + 2 ∨ r.height = l.height + 2) ∧
      (BinaryTree.node q l' r').height = min l.height r.height + 2
  /-- The heights elsewhere are left alone. -/
  frame : ∀ x ∉ inorder (.node p l r), t'.heights x = t.heights x

section Turn

variable {update : Option (AvlCallback α)} {t : AvlTree α} {c : Ctx Ptr} {p : Ptr}
  {l r : BinaryTree Ptr}

/-- A callback that always returns. -/
def Returning (cb : Option (AvlCallback α)) : Prop :=
  CallbackOk (fun _ => True) Set.univ cb

theorem heights_frame {g : Ptr → Nat} {h : Nat} {x : Ptr} (hx : x ∉ inorder (.node p l r)) :
    Function.update g p h x = g x := by
  refine update_of_ne ?_ _ _
  rintro rfl
  exact hx (by simp)

section

variable (hcb : Returning update) (h : Holds t (plug c (.node p l r))) (hl : Avl t.heights l)
  (hr : Avl t.heights r) (hgap : l.height ≤ r.height + 2 ∧ r.height ≤ l.height + 2)
  (hplain : t.PlainTurn p) (hroom : max l.height r.height + 1 < 2 ^ 32)
include hcb h hl hr hgap hplain hroom

theorem rebalance_mended :
    ∃ q t' l' r', t.rebalance p update = .ok (q, t') ∧ Mended t t' c p q l r l' r' := by
  obtain ⟨_, _, rfl, _, hrepl, hrepr⟩ := rep_plug.mp h.rep
  have hleft : t.nodeHeight (t.nodes p).left = l.height := nodeHeight_eq hrepl hl.annotated
  have hright : t.nodeHeight (t.nodes p).right = r.height := nodeHeight_eq hrepr hr.annotated
  have hbalance : t.nodeBalance p = (r.height : Int) - l.height := by
    rw [nodeBalance, hleft, hright]
  have hnd := h.ctx_nodup.2.1
  rw [inorder_node, nodup_middle] at hnd
  have hother : ∀ {x : Ptr} {n : Nat}, x ∈ inorder l ++ inorder r →
      Function.update t.heights p n x = t.heights x := by
    intro x n hx
    refine update_of_ne ?_ _ _
    rintro rfl
    exact (nodup_cons.mp hnd).1 hx
  unfold rebalance
  rcases lt_trichotomy (r.height) (l.height + 2) with hlt | heq | hgt
  · rw [if_neg (by omega)]
    rcases lt_trichotomy (l.height) (r.height + 2) with hlt' | heq' | hgt'
    · -- near in height: the height is written again
      rw [if_neg (by omega)]
      have hheights := resetNodeHeight_heights h hl.annotated hr.annotated hroom
      have hnear : Near l.height r.height := ⟨by omega, by omega⟩
      refine ⟨p, _, l, r, rfl, h.of_links (links_resetNodeHeight _ _) rfl, rfl, ?_,
        .inl ⟨hnear, rfl⟩, ?_⟩
      · rw [hheights]
        refine avl_node (hl.congr fun x hx => hother (by simp [hx]))
          (hr.congr fun x hx => hother (by simp [hx])) hnear ?_
        rw [update_self]
      · intro x hx
        rw [hheights, heights_frame hx]
    · -- the left side is two higher
      rw [if_pos (by omega)]
      obtain ⟨q, a, b, rfl⟩ := node_of_height_pos hrepl (by
        have : t.nodeHeight (t.links p).left = l.height := hleft
        omega)
      have hlean := hplain.2 (by rw [hbalance]; omega) q hrepl.1
      obtain ⟨_, _, hrepa, hrepb⟩ := hrepl
      have ha : t.nodeHeight (t.nodes q).left = a.height := nodeHeight_eq hrepa hl.left.annotated
      have hb : t.nodeHeight (t.nodes q).right = b.height := nodeHeight_eq hrepb hl.right.annotated
      rw [ha, hb] at hlean
      obtain ⟨t', t1, hrun, _, hold, hold1, hheights1, hheights⟩ :=
        fixLeftHeavy_single hcb h (Set.mem_univ p) trivial (by change ¬ _ < _; omega)
      simp only [BinaryTree.height] at heq' hroom
      have hold1' : Holds t1 (plug (.right a q :: c) (.node p b r)) := hold1
      rw [resetNodeHeight_heights hold1' (by rw [hheights1]; exact hl.right.annotated)
        (by rw [hheights1]; exact hr.annotated) (by omega), hheights1] at hheights
      have hsame : ∀ x ∈ inorder (.node q a b) ++ inorder r, t'.heights x = t.heights x := by
        intro x hx
        rw [hheights]
        exact hother hx
      have hp : t'.heights p = max b.height r.height + 1 := by
        rw [hheights, update_self]
      obtain ⟨havl, hheight⟩ := hr.rotateRight hl heq' hlean hsame hp
      refine ⟨q, t', a, .node p b r, hrun, hold, by simp, havl, .inr ⟨.inl ?_, ?_⟩, ?_⟩
      · exact heq'
      · simp only [BinaryTree.height]
        omega
      · intro x hx
        rw [hheights, heights_frame hx]
    · omega
  · -- the right side is two higher
    rw [if_pos (by omega)]
    obtain ⟨q, b, c', rfl⟩ := node_of_height_pos hrepr (by
      have : t.nodeHeight (t.links p).right = r.height := hright
      omega)
    have hlean := hplain.1 (by rw [hbalance]; omega) q hrepr.1
    obtain ⟨_, _, hrepb, hrepc⟩ := hrepr
    have hb : t.nodeHeight (t.nodes q).left = b.height := nodeHeight_eq hrepb hr.left.annotated
    have hc : t.nodeHeight (t.nodes q).right = c'.height := nodeHeight_eq hrepc hr.right.annotated
    rw [hb, hc] at hlean
    obtain ⟨t', t1, hrun, _, hold, hold1, hheights1, hheights⟩ :=
      fixRightHeavy_single hcb h (Set.mem_univ p) trivial (by change ¬ _ < _; omega)
    simp only [BinaryTree.height] at heq hroom
    have hold1' : Holds t1 (plug (.left q c' :: c) (.node p l b)) := hold1
    rw [resetNodeHeight_heights hold1' (by rw [hheights1]; exact hl.annotated)
      (by rw [hheights1]; exact hr.left.annotated) (by omega), hheights1] at hheights
    have hsame : ∀ x ∈ inorder l ++ inorder (.node q b c'), t'.heights x = t.heights x := by
      intro x hx
      rw [hheights]
      exact hother hx
    have hp : t'.heights p = max l.height b.height + 1 := by
      rw [hheights, update_self]
    obtain ⟨havl, hheight⟩ := hl.rotateLeft hr heq hlean hsame hp
    refine ⟨q, t', .node p l b, c', hrun, hold, by simp, havl, .inr ⟨.inr ?_, ?_⟩, ?_⟩
    · exact heq
    · simp only [BinaryTree.height]
      omega
    · intro x hx
      rw [hheights, heights_frame hx]
  · omega

theorem fixupStep_mended :
    ∃ q t' l' r', t.fixupStep p update = .ok (q, t') ∧ Mended t t' c p q l r l' r' := by
  obtain ⟨q, t1, l', r', hrun, hm⟩ := rebalance_mended hcb h hl hr hgap hplain hroom
  obtain ⟨t', hrun', hold, -, hheights⟩ := avlnodeUpdate_holds hcb hm.holds (Set.mem_univ q) trivial
  refine ⟨q, t', l', r', ?_, hold, hm.same, ?_, hm.height, ?_⟩
  · unfold fixupStep
    simp only [hrun, ok_bind, hrun', pure_eq_ok]
  · rw [hheights]
    exact hm.avl
  · intro x hx
    rw [hheights, hm.frame x hx]

end

end Turn

/-! ## The way up -/

theorem height_lt (h : Balanced T) (hnd : (inorder T).Nodup) (hptr : ∀ p ∈ inorder T, p < 2 ^ 64) :
    T.height < 130 := by
  have hlen : (inorder T).length ≤ 2 ^ 64 := by
    have hsub : inorder T ⊆ range (2 ^ 64) := fun p hp => mem_range.mpr (hptr p hp)
    have hle := (subperm_of_subset hnd hsub).length_le
    rwa [length_range] at hle
  have hpow : 2 ^ (T.height / 2) < 2 ^ 65 := by
    have := h.two_pow_le
    omega
  have := (Nat.pow_lt_pow_iff_right (by decide)).mp hpow
  omega

instance (t : AvlTree α) (node : Ptr) : Decidable (t.PlainTurn node) :=
  inferInstanceAs (Decidable (_ ∧ _))

/-- All turns of `avltree_fixup` have a property. -/
def EachTurn (P : AvlTree α → Ptr → Prop) (update : Option (AvlCallback α)) :
    Nat → AvlTree α → Option Ptr → Prop
  | _, _, none => True
  | 0, _, some _ => True
  | fuel + 1, t, some node => P t node ∧
    (t.fixupStep node update).All fun r => EachTurn P update fuel r.2 (r.2.nodes r.1).parent

instance instDecidableEachTurn (P : AvlTree α → Ptr → Prop) [∀ t p, Decidable (P t p)]
    (update : Option (AvlCallback α)) :
    (fuel : Nat) → (t : AvlTree α) → (node : Option Ptr) → Decidable (EachTurn P update fuel t node)
  | 0, _, none => .isTrue trivial
  | _ + 1, _, none => .isTrue trivial
  | 0, _, some _ => .isTrue trivial
  | fuel + 1, t, some node =>
    have (r : Ptr × AvlTree α) : Decidable (EachTurn P update fuel r.2 (r.2.nodes r.1).parent) :=
      instDecidableEachTurn P update fuel r.2 _
    inferInstanceAs (Decidable (P t node ∧ (t.fixupStep node update).All _))

/--
**Plain turns balance the tree.** Before the loop the tree is balanced below the hole, and
around it for a height that is near that of what stands there now.
-/
theorem avltreeFixup_avl (hcb : Returning update) :
    ∀ (c : Ctx Ptr) {t : AvlTree α} {T : BinaryTree Ptr} {h : Nat} (fuel : Nat),
    Holds t (plug c T) → Avl t.heights T → CtxAvl t.heights c h → Near T.height h →
    (∀ x ∈ inorder (plug c T), x < 2 ^ 64) → EachTurn PlainTurn update fuel t c.parent →
    c.length ≤ fuel →
    ∃ t' T', avltreeFixup update fuel t c.parent = .ok t' ∧ Holds t' T' ∧
      inorder T' = inorder (plug c T) ∧ Avl t'.heights T'
  | [], t, T, h, fuel, hold, hT, _, _, _, _, _ => by
    refine ⟨t, T, ?_, hold, rfl, hT⟩
    cases fuel <;> rfl
  | f :: c, t, T, h, fuel, hold, hT, hc, hnear, hptr, hplain, hfuel => by
    match fuel, hfuel with
    | fuel + 1, hfuel =>
      obtain ⟨p, l, r, H, hp, hplug, hl, hr, hgap, hcH, hkept, hturned⟩ := hc.next hT hnear
      rw [hp] at hplain ⊢
      rw [plug, hplug] at hold hptr ⊢
      obtain ⟨-, hnd, hout⟩ := hold.ctx_nodup
      have hsides : ∀ x ∈ inorder l ++ inorder r, x < 2 ^ 64 := by
        intro x hx
        refine hptr x ?_
        rw [inorder_plug, inorder_node]
        simp only [mem_append, mem_cons] at hx ⊢
        tauto
      rw [inorder_node, nodup_middle, nodup_cons] at hnd
      have hlow := height_lt hl.balanced (hnd.2.sublist (sublist_append_left _ _))
        fun x hx => hsides x (by simp [hx])
      obtain ⟨q, t1, l', r', hrun, hm⟩ := fixupStep_mended hcb hold hl hr hgap hplain.1 (by omega)
      have hwhole : inorder (plug c (.node q l' r')) = inorder (plug c (.node p l r)) := by
        rw [inorder_plug, inorder_plug, hm.same]
      have hfits : Near (BinaryTree.node q l' r').height H := by
        rcases hm.height with ⟨hn, hh⟩ | ⟨hn, hh⟩
        · rw [hh]
          exact hkept hn
        · rw [hh]
          exact hturned hn
      obtain ⟨_, _, rfl, hpar, _⟩ := rep_plug.mp hm.holds.rep
      have hpar' : (t1.nodes q).parent = Ctx.parent c := hpar
      have hrest := hplain.2
      rw [hrun, all_ok, hpar'] at hrest
      obtain ⟨t', T', hrun', hold', hsame', hT'⟩ := avltreeFixup_avl hcb c fuel hm.holds hm.avl
        (hcH.congr fun x hx => hm.frame x fun hin => hout x hin hx) hfits
        (by rw [hwhole]; exact hptr) hrest (by simpa using hfuel)
      refine ⟨t', T', ?_, hold', by rw [hsame', hwhole], hT'⟩
      rw [avltreeFixup, hrun]
      simp only [ok_bind, hpar']
      exact hrun'

/-! ## Insertion and deletion -/

/-- `insert_at_loc` up to its call of `avltree_fixup`. -/
def linkNode (t : AvlTree α) (node : Ptr) (parent : Option Ptr) (link : AvlLink)
    (update addedNode : Option (AvlCallback α)) : Result (AvlTree α) := do
  let t := t.modify node fun _ => { parent := parent, left := none, right := none, height := 1 }
  let t := t.store link (some node)
  let t ← t.avlnodeUpdate node addedNode
  t.avlnodeUpdate node update

theorem insertAtLoc_eq (t : AvlTree α) (fuel : Nat) (node : Ptr) (parent : Option Ptr)
    (link : AvlLink) (update addedNode : Option (AvlCallback α)) :
    t.insertAtLoc fuel node parent link update addedNode =
      t.linkNode node parent link update addedNode >>=
        fun t => avltreeFixup update fuel t parent := by
  unfold insertAtLoc linkNode
  rw [bind_assoc]

/-- The memory holds a balanced tree of pointers with its heights. -/
structure Sound (t : AvlTree α) (T : BinaryTree Ptr) : Prop where
  holds : Holds t T
  avl : Avl t.heights T
  pointers : ∀ p ∈ inorder T, p < 2 ^ 64

theorem insertAtLoc_sound {addedNode : Option (AvlCallback α)} (hup : Returning update)
    (hadd : Returning addedNode) {node : Ptr} (h : Sound t (plug c .nil))
    (hnew : node ∉ before c ++ after c) (hnode : node < 2 ^ 64) (hfuel : c.length ≤ fuel)
    (hplain : (t.linkNode node c.parent (ctxLink c) update addedNode).All fun t' =>
      EachTurn PlainTurn update fuel t' c.parent) :
    ∃ t' T', t.insertAtLoc fuel node c.parent (ctxLink c) update addedNode = .ok t' ∧
      Sound t' T' ∧ (inorder T').length = (inorder (plug c .nil)).length + 1 := by
  have hwhole : inorder (plug c (.node node .nil .nil)) = before c ++ node :: after c := by
    simp [inorder_plug]
  have hhole : inorder (plug c (.nil : BinaryTree Ptr)) = before c ++ after c := by
    simp [inorder_plug]
  obtain ⟨t1, hrun1, hold1, -, hheights1⟩ := avlnodeUpdate_holds hadd (link_holds h.holds hnew)
    (Set.mem_univ node) trivial
  obtain ⟨t2, hrun2, hold2, -, hheights2⟩ := avlnodeUpdate_holds hup hold1 (Set.mem_univ node) trivial
  have hlink : t.linkNode node c.parent (ctxLink c) update addedNode = .ok t2 := by
    unfold linkNode
    simp only [hrun1, ok_bind, hrun2]
  rw [hlink, all_ok] at hplain
  have hheights : t2.heights = Function.update t.heights node 1 := by
    rw [hheights2, hheights1, heights_store]
    funext x
    by_cases hx : x = node <;> simp [heights, modify, hx]
  obtain ⟨-, hctx⟩ := h.avl.of_plug
  have hptr : ∀ x ∈ before c ++ node :: after c, x < 2 ^ 64 := by
    intro x hx
    have hold := h.pointers x
    rw [hhole] at hold
    simp only [mem_append, mem_cons] at hx hold
    rcases hx with hx | rfl | hx
    · exact hold (.inl hx)
    · exact hnode
    · exact hold (.inr hx)
  obtain ⟨t', T', hfix, hold', hsame, havl⟩ := avltreeFixup_avl hup c fuel (h := 0) hold2
    (avl_node avl_nil avl_nil ⟨by simp, by simp⟩ (by rw [hheights, update_self]; simp))
    (hctx.congr fun x hx => by
      rw [hheights]
      refine update_of_ne ?_ _ _
      rintro rfl
      exact hnew hx)
    ⟨by simp, by simp⟩ (by rw [hwhole]; exact hptr) hplain hfuel
  refine ⟨t', T', ?_, ⟨hold', havl, ?_⟩, ?_⟩
  · rw [insertAtLoc_eq, hlink]
    exact hfix
  · rw [hsame, hwhole]
    exact hptr
  · rw [hsame, hwhole, hhole]
    simp only [length_append, length_cons]
    omega

theorem avltreeDeleteNode_sound (hup : Returning update) (h : Sound t T) (hp : p ∈ inorder T)
    (hfuel : (inorder T).length ≤ fuel)
    (hplain : (t.unlinkNode fuel p).All fun r => EachTurn PlainTurn update fuel r.2 r.1) :
    ∃ t' T', t.avltreeDeleteNode fuel p update = .ok t' ∧ Sound t' T' ∧
      (inorder T').length ≤ (inorder T).length := by
  obtain ⟨c, l, r, rfl⟩ := exists_plug_of_mem hp
  obtain ⟨c', T, t1, hunlink, hdepth, hout⟩ := unlinkNode_spec h.holds hfuel
  obtain ⟨hT, height, hctx, hnear⟩ := hout.avl h.avl
  have hptr : ∀ x ∈ inorder (plug c' T), x < 2 ^ 64 := fun x hx =>
    h.pointers x (hout.sublist.subset hx)
  rw [hunlink, all_ok] at hplain
  obtain ⟨t', T', hfix, hold', hsame, hT'⟩ := avltreeFixup_avl hup c' fuel hout.holds hT hctx hnear
    hptr hplain hdepth
  refine ⟨t', T', ?_, ⟨hold', hT', by rw [hsame]; exact hptr⟩, ?_⟩
  · rw [avltreeDeleteNode_eq, hunlink]
    exact hfix
  · rw [hsame]
    exact hout.sublist.length_le

/-! ## Descents -/

/-- Whatever the comparator answers, the descent ends at an equal node or in a hole. -/
theorem findPlace_hole (node : Ptr) (comparator : α → Ptr → Ptr → Int) :
    ∀ {T : BinaryTree Ptr} (c : Ctx Ptr) {at_ : Option Ptr} (fuel : Nat),
    Rep t.links T c.parent at_ → (inorder T).length ≤ fuel →
    t.findPlace node comparator fuel at_ c.parent (ctxLink c) = .ok none ∨
    ∃ c', t.findPlace node comparator fuel at_ c.parent (ctxLink c)
        = .ok (some (c'.parent, ctxLink c')) ∧ plug c' .nil = plug c T
  | .nil, c, at_, fuel, h, _ => by
    rw [show at_ = none from h]
    exact .inr ⟨c, by cases fuel <;> rfl, rfl⟩
  | .node p l r, c, at_, fuel, h, hfuel => by
    obtain ⟨rfl, _, hl, hr⟩ := h
    simp only [inorder_node, length_append, length_cons] at hfuel
    match fuel, hfuel with
    | fuel + 1, hfuel =>
      rw [findPlace]
      split
      · exact .inl rfl
      · split
        · exact findPlace_hole node comparator (.left p r :: c) fuel hl (by omega)
        · exact findPlace_hole node comparator (.right l p :: c) fuel hr (by omega)

/-- `avltree_insert` finds its node, or a hole that is as deep as the tree has nodes at most. -/
theorem Holds.findPlace_cases (h : Holds t T) (hfuel : (inorder T).length ≤ fuel) (node : Ptr)
    (comparator : α → Ptr → Ptr → Int) :
    t.findPlace node comparator fuel t.root none .root = .ok none ∨
    ∃ c, t.findPlace node comparator fuel t.root none .root = .ok (some (Ctx.parent c, ctxLink c)) ∧
      T = plug c .nil ∧ inorder T = before c ++ after c ∧ c.length ≤ fuel := by
  rcases findPlace_hole node comparator [] fuel h.rep hfuel with hrun | ⟨c, hrun, hplug⟩
  · exact .inl hrun
  · have hT : plug c .nil = T := hplug
    have hhole : inorder T = before c ++ after c := by simp [← hT, inorder_plug]
    refine .inr ⟨c, hrun, hT.symm, hhole, ?_⟩
    have hle := length_le_before_after c
    rw [hhole, length_append] at hfuel
    omega

theorem findKey_mem (key : κ) (comparator : α → Ptr → κ → Int) :
    ∀ {T : BinaryTree Ptr} {par at_ : Option Ptr} (fuel : Nat),
    Rep t.links T par at_ → (inorder T).length ≤ fuel →
    ∃ found, t.findKey key comparator fuel at_ = .ok found ∧ ∀ p ∈ found, p ∈ inorder T
  | .nil, par, at_, fuel, h, _ => by
    rw [show at_ = none from h]
    exact ⟨none, by cases fuel <;> rfl, by simp⟩
  | .node q l r, par, at_, fuel, h, hfuel => by
    obtain ⟨rfl, _, hl, hr⟩ := h
    simp only [inorder_node, length_append, length_cons] at hfuel
    match fuel, hfuel with
    | fuel + 1, hfuel =>
      rw [findKey]
      split
      · exact ⟨some q, rfl, by simp⟩
      · split
        · obtain ⟨found, hrun, hmem⟩ := findKey_mem key comparator fuel hl (by omega)
          exact ⟨found, hrun, fun p hp => by simp [hmem p hp]⟩
        · obtain ⟨found, hrun, hmem⟩ := findKey_mem key comparator fuel hr (by omega)
          exact ⟨found, hrun, fun p hp => by simp [hmem p hp]⟩

/-! ## Runs -/

/-- The callbacks return, a node that gets linked in is new, and one that is deleted is there. -/
def Call.Proper (fuel : Nat) (t : AvlTree α) : Call α κ → Prop
  | .insert node comparator update addedNode => Returning update ∧ Returning addedNode ∧
    (t.findPlace node comparator fuel t.root none .root).All fun place => place.isSome →
      node ∉ inorder (shape t.links fuel t.root) ∧ node < 2 ^ 64
  | .delete _ _ update => Returning update
  | .deleteNode node update => Returning update ∧ node ∈ inorder (shape t.links fuel t.root)
  | .client _ => True

/-- Every turn of the call has a property. -/
def Call.EachTurn (P : AvlTree α → Ptr → Prop) (fuel : Nat) (t : AvlTree α) : Call α κ → Prop
  | .insert node comparator update addedNode =>
    (t.findPlace node comparator fuel t.root none .root).All fun place => ∀ at_ ∈ place,
      (t.linkNode node at_.1 at_.2 update addedNode).All fun t' =>
        AvlTree.EachTurn P update fuel t' at_.1
  | .delete key comparator update =>
    (t.findKey key comparator fuel t.root).All fun found => ∀ node ∈ found,
      (t.unlinkNode fuel node).All fun r => AvlTree.EachTurn P update fuel r.2 r.1
  | .deleteNode node update =>
    (t.unlinkNode fuel node).All fun r => AvlTree.EachTurn P update fuel r.2 r.1
  | .client _ => True

instance (P : AvlTree α → Ptr → Prop) [∀ t p, Decidable (P t p)] (fuel : Nat) (t : AvlTree α) :
    (call : Call α κ) → Decidable (call.EachTurn P fuel t)
  | .insert node comparator _ _ =>
    inferInstanceAs (Decidable ((t.findPlace node comparator fuel t.root none .root).All _))
  | .delete key comparator _ =>
    inferInstanceAs (Decidable ((t.findKey key comparator fuel t.root).All _))
  | .deleteNode node _ => inferInstanceAs (Decidable ((t.unlinkNode fuel node).All _))
  | .client _ => .isTrue trivial

/-- Every call of a run has a property in the memory in which it is made. -/
def Call.Each (P : AvlTree α → Call α κ → Prop) (fuel : Nat) (t : AvlTree α) :
    List (Call α κ) → Prop
  | [] => True
  | call :: calls => P t call ∧ (call.exec fuel t).All fun r => Each P fuel r.2 calls

instance instDecidableEach (P : AvlTree α → Call α κ → Prop) [∀ t, DecidablePred (P t)] (fuel : Nat) :
    (t : AvlTree α) → (calls : List (Call α κ)) → Decidable (Call.Each P fuel t calls)
  | _, [] => .isTrue trivial
  | t, call :: calls =>
    have (r : Option Bool × AvlTree α) : Decidable (Call.Each P fuel r.2 calls) :=
      instDecidableEach P fuel r.2 calls
    inferInstanceAs (Decidable (P t call ∧ (call.exec fuel t).All _))

theorem Sound.exec (h : Sound t T) (hfuel : (inorder T).length ≤ fuel) (call : Call α κ)
    (hproper : call.Proper fuel t) (hplain : call.EachTurn PlainTurn fuel t) :
    ∃ r T', call.exec fuel t = .ok r ∧ Sound r.2 T' ∧
      (inorder T').length ≤ (inorder T).length + 1 := by
  have hshape : shape t.links fuel t.root = T := h.holds.rep.shape_eq hfuel
  cases call with
  | insert node comparator update addedNode =>
    obtain ⟨hup, hadd, hnew⟩ := hproper
    rw [Call.EachTurn] at hplain
    rcases h.holds.findPlace_cases hfuel node comparator with hfind | ⟨c, hfind, rfl, hhole, hdepth⟩
    · exact ⟨(some false, t), T, by simp [Call.exec, avltreeInsert, hfind], h, Nat.le_succ _⟩
    · rw [hfind, all_ok] at hnew hplain
      rw [hshape, hhole] at hnew
      obtain ⟨hfresh, hnode⟩ := hnew rfl
      obtain ⟨t', T', hins, hsound, hlen⟩ := insertAtLoc_sound hup hadd h hfresh hnode hdepth
        (hplain _ rfl)
      exact ⟨(some true, t'), T', by simp [Call.exec, avltreeInsert, hfind, hins], hsound, hlen.le⟩
  | delete key comparator update =>
    rw [Call.EachTurn] at hplain
    obtain ⟨found, hfind, hmem⟩ := findKey_mem key comparator fuel h.holds.rep hfuel
    rw [hfind, all_ok] at hplain
    cases found with
    | none => exact ⟨(none, t), T, by simp [Call.exec, avltreeDelete, hfind], h, Nat.le_succ _⟩
    | some node =>
      obtain ⟨t', T', hrun, hsound, hlen⟩ := avltreeDeleteNode_sound hproper h (hmem node rfl) hfuel
        (hplain node rfl)
      exact ⟨(none, t'), T', by simp [Call.exec, avltreeDelete, hfind, hrun], hsound,
        hlen.trans (Nat.le_succ _)⟩
  | deleteNode node update =>
    obtain ⟨hup, hin⟩ := hproper
    rw [hshape] at hin
    obtain ⟨t', T', hrun, hsound, hlen⟩ := avltreeDeleteNode_sound hup h hin hfuel hplain
    exact ⟨(none, t'), T', by simp [Call.exec, hrun], hsound, hlen.trans (Nat.le_succ _)⟩
  | client ext =>
    exact ⟨_, T, rfl, ⟨⟨h.holds.rep, h.holds.nodup⟩, h.avl, h.pointers⟩, Nat.le_succ _⟩

/-- What each call keeps, if it has two properties where it is made, is kept by every run. -/
theorem Call.run_keeps {I : AvlTree α → BinaryTree Ptr → Prop} {P Q : AvlTree α → Call α κ → Prop}
    (hexec : ∀ {t T call}, I t T → (inorder T).length ≤ fuel → P t call → Q t call →
      ∃ r T', call.exec fuel t = .ok r ∧ I r.2 T' ∧ (inorder T').length ≤ (inorder T).length + 1) :
    ∀ (calls : List (Call α κ)) {t : AvlTree α} {T : BinaryTree Ptr}, I t T →
    Call.Each P fuel t calls → Call.Each Q fuel t calls → (inorder T).length + calls.length ≤ fuel →
    ∃ t' T', Call.run fuel t calls = .ok t' ∧ I t' T'
  | [], t, T, h, _, _, _ => ⟨t, T, rfl, h⟩
  | call :: calls, t, T, h, ⟨hP, hP'⟩, ⟨hQ, hQ'⟩, hfuel => by
    rw [length_cons] at hfuel
    obtain ⟨r, T1, hcall, h1, hlen⟩ := hexec h (by omega) hP hQ
    rw [hcall, all_ok] at hP' hQ'
    obtain ⟨t', T', hrun, h'⟩ := run_keeps hexec calls h1 hP' hQ' (by omega)
    refine ⟨t', T', ?_, h'⟩
    rw [Call.run, hcall]
    exact hrun

/--
**Plain runs keep the tree balanced.** After every run from the empty tree whose calls take plain
turns only, with any comparators, the stored height of each node is that of the tree below it, and
the heights of its two children differ by at most one.
-/
theorem avltree_plain_balanced (nodes : Ptr → AvlNode) (ext : α) (calls : List (Call α κ))
    {fuel : Nat} (hfuel : calls.length ≤ fuel)
    (hproper : Call.Each (Call.Proper fuel) fuel (init nodes ext) calls)
    (hplain : Call.Each (Call.EachTurn PlainTurn fuel) fuel (init nodes ext) calls) :
    ∃ t T, Call.run fuel (init nodes ext) calls = .ok t ∧ Holds t T ∧
      Annotated t.heights T ∧ Balanced T := by
  have hinit : Sound (init nodes ext) .nil := ⟨⟨rfl, nodup_nil⟩, avl_nil, by simp⟩
  obtain ⟨t, T, hrun, hsound⟩ := Call.run_keeps (fun h hfuel => h.exec hfuel _) calls hinit hproper
    hplain (by simpa using hfuel)
  exact ⟨t, T, hrun, hsound.holds, hsound.avl.annotated, hsound.avl.balanced⟩

/-- Nodes that are never in the tree. -/
def blank : AvlTree Unit := init (fun _ => ⟨⟨none, none, none⟩, 0⟩) ()

/-- Insert by address. -/
def insertByAddress (node : Ptr) : Call Unit Nat :=
  .insert node (fun _ a b => (a : Int) - (b : Int)) none none

theorem returning_none : Returning (none : Option (AvlCallback α)) := fun f hf => by cases hf

/-- The third insertion turns the tree to the left, and the deletion takes out the new root. -/
theorem avltree_plain_balanced_by_address :
    ∃ t T, Call.run 4 blank [insertByAddress 1, insertByAddress 2, insertByAddress 3,
        .delete 2 (fun _ a k => (k : Int) - (a : Int)) none] = .ok t ∧ Holds t T ∧
      Annotated t.heights T ∧ Balanced T := by
  refine avltree_plain_balanced _ () _ (Nat.le_refl 4) ?_ (by decide)
  refine ⟨⟨returning_none, returning_none, ?_⟩, ⟨returning_none, returning_none, ?_⟩,
    ⟨returning_none, returning_none, ?_⟩, returning_none, trivial⟩
  all_goals exact fun _ => by decide

/-- Insert 1 and 3, and then 2 between them: the tree is turned twice. -/
def zigzag : List (Call Unit Nat) := [insertByAddress 1, insertByAddress 3, insertByAddress 2]

/--
After a double rotation two stored heights are too great by one: that of the new top, and that of
its right child, which is a leaf.
-/
theorem double_rotation_leaves_heights :
    Call.Each (Call.Proper 3) 3 blank zigzag ∧
    ∃ t, Call.run 3 blank zigzag = .ok t ∧
      shape t.links 3 t.root = .node 2 (.node 1 .nil .nil) (.node 3 .nil .nil) ∧
      t.heights 2 = 3 ∧ t.heights 3 = 2 ∧ ¬ Annotated t.heights (shape t.links 3 t.root) := by
  refine ⟨?_, _, rfl, rfl, rfl, rfl, fun h => ?_⟩
  · refine ⟨⟨returning_none, returning_none, ?_⟩, ⟨returning_none, returning_none, ?_⟩,
      ⟨returning_none, returning_none, ?_⟩, trivial⟩
    all_goals exact fun _ => by decide
  · exact absurd h.1 (by decide)

end OsKernel.Adt.AvlTree
