import OsKernel.Adt.AvlBalance

/-!
# Callbacks that keep a value of the tree below

The user of a tree may keep a value with every node that depends on the node and on the values
of its children, and have `update` write it. `avltree_fixup` calls `update` on every node from
the place of a change up to the root, and after a rotation on the old top and on the new one.

In a double rotation there is a third node that gets another subtree, the child of the old
top. `update` is not called on it: it keeps the value it had. `KeptTurn` says that this is the
value for its new subtrees as well.
-/

namespace OsKernel.Adt.AvlTree

open LinkedTree List

variable {α β : Type} {t : AvlTree α} {T : BinaryTree Ptr} {fuel : Nat} {node : Ptr}

/-- The callback writes the value of a node from the values of its children. -/
def Computes (val : α → Ptr → β) (combine : Ptr → β → β → β) (empty : β) (I : α → Prop)
    (S : Set Ptr) (update : AvlCallback α) : Prop :=
  ∀ (t : AvlTree α), ∀ p ∈ S, I t.ext → ∃ e, update t p = .ok e ∧ I e ∧
    val e = Function.update (val t.ext) p (combine p (valueAt empty (val t.ext) (t.nodes p).left)
      (valueAt empty (val t.ext) (t.nodes p).right))

/-- A turn that rotates twice takes down a child whose value is right for its new subtrees. -/
def KeptTurn (val : α → Ptr → β) (combine : Ptr → β → β → β) (empty : β) (t : AvlTree α)
    (node : Ptr) : Prop :=
  (t.nodeBalance node > 1 → ∀ q ∈ (t.nodes node).right,
    t.nodeHeight (t.nodes q).right < t.nodeHeight (t.nodes q).left → ∀ m ∈ (t.nodes q).left,
      val t.ext q = combine q (valueAt empty (val t.ext) (t.nodes m).right)
        (valueAt empty (val t.ext) (t.nodes q).right)) ∧
  (t.nodeBalance node < -1 → ∀ q ∈ (t.nodes node).left,
    t.nodeHeight (t.nodes q).left < t.nodeHeight (t.nodes q).right → ∀ m ∈ (t.nodes q).right,
      val t.ext q = combine q (valueAt empty (val t.ext) (t.nodes q).left)
        (valueAt empty (val t.ext) (t.nodes m).left))

instance [DecidableEq β] (val : α → Ptr → β) (combine : Ptr → β → β → β) (empty : β)
    (t : AvlTree α) (node : Ptr) : Decidable (KeptTurn val combine empty t node) :=
  inferInstanceAs (Decidable (_ ∧ _))

section Turn

variable {val : α → Ptr → β} {combine : Ptr → β → β → β} {empty : β} {I : α → Prop} {S : Set Ptr}
  {update : AvlCallback α} {t : AvlTree α} {c : Ctx Ptr} {p : Ptr} {l r : BinaryTree Ptr}

theorem Computes.write {t₁ : AvlTree α} (hcb : Computes val combine empty I S update)
    (h : Holds t₁ (plug c (.node p l r))) (hext : t₁.ext = t.ext) (hpS : p ∈ S) (hI : I t.ext)
    (hl : Folded combine empty (val t.ext) l) (hr : Folded combine empty (val t.ext) r) :
    ∃ t', t₁.avlnodeUpdate p (some update) = .ok t' ∧ Holds t' (plug c (.node p l r)) ∧ I t'.ext ∧
      Folded combine empty (val t'.ext) (.node p l r) ∧ ∀ x, x ≠ p → val t'.ext x = val t.ext x := by
  rw [← hext] at hI hl hr ⊢
  obtain ⟨e, hrun, hIe, hval⟩ := hcb t₁ p hpS hI
  obtain ⟨_, _, rfl, _, hrepl, hrepr⟩ := rep_plug.mp h.rep
  have hleft : valueAt empty (val t₁.ext) (t₁.nodes p).left = foldOver combine empty l :=
    hl.valueAt_eq hrepl
  have hright : valueAt empty (val t₁.ext) (t₁.nodes p).right = foldOver combine empty r :=
    hr.valueAt_eq hrepr
  rw [hleft, hright] at hval
  refine ⟨{ t₁ with ext := e }, by simp [avlnodeUpdate, hrun], h.of_links rfl rfl, hIe, ?_, ?_⟩
  · rw [hval]
    exact hl.write hr h.ctx_nodup.2.1 rfl
  · intro x hx
    rw [hval, Function.update_of_ne hx]

theorem folded_of_write {g g' : Ptr → β} (h : Folded combine empty g T)
    (hkeep : ∀ x, x ≠ p → g' x = g x) (hp : p ∉ inorder T) : Folded combine empty g' T :=
  h.congr fun x hx => hkeep x (by rintro rfl; exact hp hx)

/-- What a turn leaves before its last call of the callback, which is on the node `q` on top. -/
structure Raised (val : α → Ptr → β) (combine : Ptr → β → β → β) (empty : β) (I : α → Prop) (t t' : AvlTree α)
    (c : Ctx Ptr) (T : BinaryTree Ptr) (q : Ptr) (l r : BinaryTree Ptr) : Prop where
  holds : Holds t' (plug c (.node q l r))
  same : inorder (.node q l r) = inorder T
  inv : I t'.ext
  left : Folded combine empty (val t'.ext) l
  right : Folded combine empty (val t'.ext) r
  /-- The values elsewhere are left alone. -/
  frame : ∀ x ∉ inorder T, val t'.ext x = val t.ext x

section

variable (hcb : Computes val combine empty I S update) (h : Holds t (plug c (.node p l r)))
  (hS : ∀ x ∈ inorder (.node p l r), x ∈ S) (hI : I t.ext) (hl : Folded combine empty (val t.ext) l)
  (hr : Folded combine empty (val t.ext) r)
include hcb h hS hI hl hr

theorem fixRightHeavy_raised (hbal : t.nodeBalance p > 1)
    (hkept : KeptTurn val combine empty t p) :
    ∃ q t' l' r', t.fixRightHeavy p (some update) = .ok (q, t') ∧
      Raised val combine empty I t t' c (.node p l r) q l' r' := by
  obtain ⟨_, _, rfl, _, _, hrep⟩ := rep_plug.mp h.rep
  obtain ⟨q, b, c', rfl⟩ := node_of_height_pos hrep (by
    change 0 < t.nodeHeight (t.nodes p).right
    unfold nodeBalance at hbal
    omega)
  have hpS : p ∈ S := hS p (by simp)
  have hnd := h.ctx_nodup.2.1
  by_cases hdouble : t.LeansLeft q
  · obtain ⟨m, b1, b2, rfl⟩ := (inner_of_double hrep).1 hdouble
    obtain ⟨hq, ⟨hm, hb1, hb2⟩, hc'⟩ := hr
    simp only [inorder_node, nodup_append, nodup_cons, mem_append, mem_cons, not_or] at hnd
    -- the child `q` is taken down and keeps its value
    have htaken : Folded combine empty (val t.ext) (.node q b2 c') := by
      refine ⟨?_, hb2, hc'⟩
      obtain ⟨hpq, -, hqm, hqr⟩ := hrep
      have hright : valueAt empty (val t.ext) (t.nodes q).right = foldOver combine empty c' :=
        hc'.valueAt_eq hqr
      have hinner : valueAt empty (val t.ext) (t.nodes m).right = foldOver combine empty b2 :=
        hb2.valueAt_eq hqm.2.2.2
      rw [foldOver, ← hright, ← hinner]
      exact hkept.1 hbal q hpq hdouble m hqm.1
    obtain ⟨t1, hold1, hext1, hrest⟩ := fixRightHeavy_double_eq h hdouble
    have hold1' : Holds t1 (plug (.right l p :: c) (.node m b1 (.node q b2 c'))) := hold1
    obtain ⟨t2, hrun2, -, hI2, hm2, hkeep2⟩ := hcb.write hold1' hext1 (hS m (by simp)) hI hb1 htaken
    obtain ⟨t3, hold3, hext3, hrun⟩ := hrest (some update) t2 hrun2
    have hold3' : Holds t3 (plug (.left m (.node q b2 c') :: c) (.node p l b1)) := hold3
    have hl2 : Folded combine empty (val t2.ext) l :=
      folded_of_write hl hkeep2 fun hx => hnd.2.2 m hx m (by simp) rfl
    obtain ⟨t4, hrun4, hold4, hI4, hp4, hkeep4⟩ := hcb.write hold3' hext3 hpS hI2 hl2 hm2.2.1
    refine ⟨m, t4, .node p l b1, .node q b2 c', by rw [hrun, hrun4]; rfl,
      ⟨hold4, by simp, hI4, hp4, ?_, ?_⟩⟩
    · refine folded_of_write hm2.2.2 hkeep4 ?_
      simp only [inorder_node, mem_append, mem_cons, not_or]
      tauto
    · intro x hx
      rw [hkeep4 x (by rintro rfl; exact hx (by simp)), hkeep2 x (by rintro rfl; exact hx (by simp))]
  · obtain ⟨hq, hb, hc'⟩ := hr
    obtain ⟨t1, hold1, hext1, -, hrun⟩ := fixRightHeavy_single_eq h hdouble
    have hold2 : Holds (t1.resetNodeHeight p) (plug (.left q c' :: c) (.node p l b)) :=
      hold1.of_links (links_resetNodeHeight _ _) rfl
    obtain ⟨t2, hrun2, hold', hI2, hp2, hkeep⟩ := hcb.write hold2 hext1 hpS hI hl hb
    refine ⟨q, t2, .node p l b, c', by rw [hrun, hrun2]; rfl, ⟨hold', by simp, hI2, hp2, ?_, ?_⟩⟩
    · refine folded_of_write hc' hkeep ?_
      simp only [inorder_node, nodup_append, nodup_cons, mem_append, mem_cons, not_or] at hnd
      tauto
    · intro x hx
      exact hkeep x (by rintro rfl; exact hx (by simp))

theorem fixLeftHeavy_raised (hbal : t.nodeBalance p < -1)
    (hkept : KeptTurn val combine empty t p) :
    ∃ q t' l' r', t.fixLeftHeavy p (some update) = .ok (q, t') ∧
      Raised val combine empty I t t' c (.node p l r) q l' r' := by
  obtain ⟨_, _, rfl, _, hrep, _⟩ := rep_plug.mp h.rep
  obtain ⟨q, a, b, rfl⟩ := node_of_height_pos hrep (by
    change 0 < t.nodeHeight (t.nodes p).left
    unfold nodeBalance at hbal
    omega)
  have hpS : p ∈ S := hS p (by simp)
  have hapart : ∀ x ∈ inorder (.node q a b), x ≠ p := by
    have hnd := h.ctx_nodup.2.1
    rw [inorder_node, nodup_append] at hnd
    exact fun x hx => hnd.2.2 x hx p mem_cons_self
  by_cases hdouble : t.LeansRight q
  · obtain ⟨m, b1, b2, rfl⟩ := (inner_of_double hrep).2 hdouble
    obtain ⟨hq, ha, hm, hb1, hb2⟩ := hl
    have htaken : Folded combine empty (val t.ext) (.node q a b1) := by
      refine ⟨?_, ha, hb1⟩
      obtain ⟨hpq, -, hql, hqm⟩ := hrep
      have hleft : valueAt empty (val t.ext) (t.nodes q).left = foldOver combine empty a :=
        ha.valueAt_eq hql
      have hinner : valueAt empty (val t.ext) (t.nodes m).left = foldOver combine empty b1 :=
        hb1.valueAt_eq hqm.2.2.1
      rw [foldOver, ← hleft, ← hinner]
      exact hkept.2 hbal q hpq hdouble m hqm.1
    obtain ⟨t3, hold3, hext3, hrun⟩ := fixLeftHeavy_double_eq h hdouble
    have hold3' : Holds t3 (plug (.right (.node q a b1) m :: c) (.node p b2 r)) := hold3
    obtain ⟨t4, hrun4, hold4, hI4, hp4, hkeep⟩ := hcb.write hold3' hext3 hpS hI hb2 hr
    refine ⟨m, t4, .node q a b1, .node p b2 r, by rw [hrun, hrun4]; rfl,
      ⟨hold4, by simp, hI4, ?_, hp4, ?_⟩⟩
    · refine folded_of_write htaken hkeep ?_
      intro hx
      refine hapart p ?_ rfl
      simp only [inorder_node, mem_append, mem_cons] at hx ⊢
      tauto
    · intro x hx
      exact hkeep x (by rintro rfl; exact hx (by simp))
  · obtain ⟨hq, ha, hb⟩ := hl
    obtain ⟨t1, hold1, hext1, -, hrun⟩ := fixLeftHeavy_single_eq h hdouble
    have hold2 : Holds (t1.resetNodeHeight p) (plug (.right a q :: c) (.node p b r)) :=
      hold1.of_links (links_resetNodeHeight _ _) rfl
    obtain ⟨t2, hrun2, hold', hI2, hp2, hkeep⟩ := hcb.write hold2 hext1 hpS hI hb hr
    refine ⟨q, t2, a, .node p b r, by rw [hrun, hrun2]; rfl, ⟨hold', by simp, hI2, ?_, hp2, ?_⟩⟩
    · refine folded_of_write ha hkeep ?_
      exact fun hx => hapart p (by simp [hx]) rfl
    · intro x hx
      exact hkeep x (by rintro rfl; exact hx (by simp))

theorem rebalance_raised (hkept : KeptTurn val combine empty t p) :
    ∃ q t' l' r', t.rebalance p (some update) = .ok (q, t') ∧
      Raised val combine empty I t t' c (.node p l r) q l' r' := by
  unfold rebalance
  dsimp only
  split
  · rename_i hbal
    exact fixRightHeavy_raised hcb h hS hI hl hr hbal hkept
  · split
    · rename_i hbal
      exact fixLeftHeavy_raised hcb h hS hI hl hr hbal hkept
    · exact ⟨p, _, l, r, rfl, h.of_links (links_resetNodeHeight _ _) rfl, rfl, hI, hl, hr,
        fun _ _ => rfl⟩

/-- **A turn makes the values of a subtree right**, if they are right below its top and kept. -/
theorem fixupStep_folded (hkept : KeptTurn val combine empty t p) :
    ∃ q t' l' r', t.fixupStep p (some update) = .ok (q, t') ∧
      Raised val combine empty I t t' c (.node p l r) q l' r' ∧
        Folded combine empty (val t'.ext) (.node q l' r') := by
  obtain ⟨q, t1, l', r', hrun, hraised⟩ := rebalance_raised hcb h hS hI hl hr hkept
  have hq : q ∈ inorder (.node p l r) := by
    rw [← hraised.same]
    simp
  obtain ⟨t2, hrun2, hold2, hI2, hnode, hkeep⟩ := hcb.write hraised.holds rfl (hS q hq)
    hraised.inv hraised.left hraised.right
  refine ⟨q, t2, l', r', ?_, ⟨hold2, hraised.same, hI2, hnode.2.1, hnode.2.2, ?_⟩, hnode⟩
  · unfold fixupStep
    simp only [hrun, ok_bind, hrun2, pure_eq_ok]
  · intro x hx
    rw [hkeep x (by rintro rfl; exact hx hq), hraised.frame x hx]

end

end Turn

/-- Turns with a property keep the value of the child they take down, if the values are right below. -/
def Keeping (val : α → Ptr → β) (combine : Ptr → β → β → β) (empty : β) (I : α → Prop)
    (P : AvlTree α → Ptr → Prop) : Prop :=
  ∀ (t : AvlTree α) (c : Ctx Ptr) (p : Ptr) (l r : BinaryTree Ptr), I t.ext →
    Holds t (plug c (.node p l r)) → Folded combine empty (val t.ext) l →
    Folded combine empty (val t.ext) r → P t p → KeptTurn val combine empty t p

section Runs

variable {val : α → Ptr → β} {combine : Ptr → β → β → β} {empty : β} {I : α → Prop} {S : Set Ptr}
  {update : AvlCallback α} {P : AvlTree α → Ptr → Prop}

/--
**`avltree_fixup` makes all values right**, if they are right below the place where it starts and
beside the way up, and every turn keeps the value of the child it takes down.
-/
theorem avltreeFixup_folded (hcb : Computes val combine empty I S update)
    (hP : Keeping val combine empty I P) :
    ∀ (c : Ctx Ptr) {t : AvlTree α} {T : BinaryTree Ptr} (fuel : Nat), Holds t (plug c T) →
    (∀ x ∈ inorder (plug c T), x ∈ S) → I t.ext → Folded combine empty (val t.ext) T →
    Sides (Folded combine empty (val t.ext)) c → EachTurn P (some update) fuel t c.parent →
    c.length ≤ fuel →
    ∃ t' T', avltreeFixup (some update) fuel t c.parent = .ok t' ∧ Holds t' T' ∧
      inorder T' = inorder (plug c T) ∧ I t'.ext ∧ Folded combine empty (val t'.ext) T'
  | [], t, T, fuel, hold, _, hI, hT, _, _, _ => by
    refine ⟨t, T, ?_, hold, rfl, hI, hT⟩
    cases fuel <;> rfl
  | F :: c, t, T, fuel, hold, hS, hI, hT, hc, hkept, hfuel => by
    match fuel, hfuel with
    | fuel + 1, hfuel =>
      obtain ⟨p, l, r, hp, hplug, hl, hr, hsides⟩ := hc.next hT
      rw [hp] at hkept ⊢
      rw [plug, hplug] at hold hS ⊢
      obtain ⟨-, -, hout⟩ := hold.ctx_nodup
      have hSnode : ∀ x ∈ inorder (.node p l r), x ∈ S := by
        intro x hx
        refine hS x ?_
        rw [inorder_plug]
        exact mem_append_left _ (mem_append_right _ hx)
      obtain ⟨q, t1, l', r', hrun, hraised, hnode⟩ := fixupStep_folded hcb hold hSnode hI hl hr
        (hP t c p l r hI hold hl hr hkept.1)
      have hwhole : inorder (plug c (.node q l' r')) = inorder (plug c (.node p l r)) := by
        rw [inorder_plug, inorder_plug, hraised.same]
      obtain ⟨_, _, rfl, hpar, _⟩ := rep_plug.mp hraised.holds.rep
      have hpar' : (t1.nodes q).parent = Ctx.parent c := hpar
      have hrest := hkept.2
      rw [hrun, all_ok, hpar'] at hrest
      obtain ⟨t', T', hrun', hold', hsame', hI', hT'⟩ := avltreeFixup_folded hcb hP c fuel
        hraised.holds (by rw [hwhole]; exact hS) hraised.inv hnode
        (hsides.congr_folded fun x hx => hraised.frame x fun hin => hout x hin hx) hrest
        (by simpa using hfuel)
      refine ⟨t', T', ?_, hold', by rw [hsame', hwhole], hI', hT'⟩
      rw [avltreeFixup, hrun]
      simp only [ok_bind, hpar']
      exact hrun'

/-- **A node linked in gets its value, and the nodes above it get theirs.** -/
theorem insertAtLoc_folded (hcb : Computes val combine empty I S update)
    (hP : Keeping val combine empty I P) {addedNode : Option (AvlCallback α)} {c : Ctx Ptr}
    (fuel : Nat) (h : Holds t (plug c .nil)) (hnew : node ∉ before c ++ after c)
    (hS : ∀ x ∈ before c ++ node :: after c, x ∈ S) (hfuel : c.length ≤ fuel)
    (hadded : ∀ t1, Holds t1 (plug c (.node node .nil .nil)) → t1.ext = t.ext →
      ∃ t2, t1.avlnodeUpdate node addedNode = .ok t2 ∧ I t2.ext ∧ Sides (Folded combine empty (val t2.ext)) c)
    (hkept : (t.linkNode node c.parent (ctxLink c) (some update) addedNode).All fun t' =>
      EachTurn P (some update) fuel t' c.parent) :
    ∃ t' T', t.insertAtLoc fuel node c.parent (ctxLink c) (some update) addedNode = .ok t' ∧
      Holds t' T' ∧ inorder T' = before c ++ node :: after c ∧ I t'.ext ∧
      Folded combine empty (val t'.ext) T' := by
  have hwhole : inorder (plug c (.node node .nil .nil)) = before c ++ node :: after c := by
    simp [inorder_plug]
  have hold := link_holds h hnew
  obtain ⟨t2, hrun2, hI2, hsides⟩ := hadded _ hold (by rw [ext_store]; rfl)
  obtain ⟨hlinks2, hroot2⟩ := avlnodeUpdate_links hrun2
  obtain ⟨t3, hrun3, hold3, hI3, hnode3, hkeep⟩ := hcb.write (hold.of_links hlinks2 hroot2)
    rfl (hS node (by simp)) hI2 trivial trivial
  have hlink : t.linkNode node c.parent (ctxLink c) (some update) addedNode = .ok t3 := by
    unfold linkNode
    simp only [hrun2, ok_bind, hrun3]
  rw [hlink, all_ok] at hkept
  have hsides3 : Sides (Folded combine empty (val t3.ext)) c :=
    hsides.congr_folded fun x hx => hkeep x (by rintro rfl; exact hnew hx)
  obtain ⟨t', T', hfix, hold', hsame, hI', hT'⟩ := avltreeFixup_folded hcb hP c fuel hold3
    (by rw [hwhole]; exact hS) hI3 hnode3 hsides3 hkept hfuel
  refine ⟨t', T', ?_, hold', by rw [hsame, hwhole], hI', hT'⟩
  rw [insertAtLoc_eq, hlink]
  exact hfix

end Runs

/-! ## Sequences of calls -/

section Sequences

variable {κ : Type} {val : α → Ptr → β} {combine : α → Ptr → β → β → β} {empty : β}
  {update : AvlCallback α}

/-- A callback that returns and leaves the values alone, and what they are computed from. -/
def LeavesValues (val : α → Ptr → β) (combine : α → Ptr → β → β → β) (cb : Option (AvlCallback α)) :
    Prop :=
  ∀ f ∈ cb, ∀ t p, ∃ e, f t p = .ok e ∧ val e = val t.ext ∧ combine e = combine t.ext

/--
The call is made with the callback, a node that gets linked in is new, one that is deleted is there,
and nothing else writes the values or the data of a node in the tree.
-/
def Call.Uses (val : α → Ptr → β) (combine : α → Ptr → β → β → β) (update : AvlCallback α)
    (fuel : Nat) (t : AvlTree α) : Call α κ → Prop
  | .insert node comparator callback addedNode => callback = some update ∧
    LeavesValues val combine addedNode ∧
    (t.findPlace node comparator fuel t.root none .root).All fun place => place.isSome →
      node ∉ inorder (shape t.links fuel t.root)
  | .delete _ _ callback => callback = some update
  | .deleteNode node callback => callback = some update ∧ node ∈ inorder (shape t.links fuel t.root)
  | .client ext => val ext = val t.ext ∧
    ∀ p ∈ inorder (shape t.links fuel t.root), combine ext p = combine t.ext p

/-- The tree in memory, with right values. -/
structure Valued (val : α → Ptr → β) (combine : α → Ptr → β → β → β) (empty : β) (t : AvlTree α)
    (T : BinaryTree Ptr) : Prop where
  holds : Holds t T
  folded : Folded (combine t.ext) empty (val t.ext) T

/-- The turn keeps the value of the child it takes down, by the data of that moment. -/
def KeepsOwn (val : α → Ptr → β) (combine : α → Ptr → β → β → β) (empty : β) (t : AvlTree α)
    (node : Ptr) : Prop := KeptTurn val (combine t.ext) empty t node

instance [DecidableEq β] (val : α → Ptr → β) (combine : α → Ptr → β → β → β) (empty : β)
    (t : AvlTree α) (node : Ptr) : Decidable (KeepsOwn val combine empty t node) :=
  inferInstanceAs (Decidable (KeptTurn val (combine t.ext) empty t node))

/--
The callback writes the value of a node from the values of its children and from the data of the
node, which it only reads.
-/
def ComputesFrom (val : α → Ptr → β) (combine : α → Ptr → β → β → β) (empty : β)
    (update : AvlCallback α) : Prop :=
  ∀ ext, Computes val (combine ext) empty (fun e => combine e = combine ext) Set.univ update

theorem keeping_keepsOwn (ext : α) : Keeping val (combine ext) empty
    (fun e => combine e = combine ext) (KeepsOwn val combine empty) := by
  intro t _ _ _ _ hown _ _ _ h
  rw [← hown]
  exact h

section

variable (hcb : ComputesFrom val combine empty update) (h : Valued val combine empty t T)
include hcb h

theorem Valued.deleteNode (hnode : node ∈ inorder T) (hfuel : (inorder T).length ≤ fuel)
    (hkept : (t.unlinkNode fuel node).All fun r =>
      EachTurn (KeepsOwn val combine empty) (some update) fuel r.2 r.1) :
    ∃ t' T', t.avltreeDeleteNode fuel node (some update) = .ok t' ∧ Valued val combine empty t' T' ∧
      (inorder T').length ≤ (inorder T).length + 1 := by
  obtain ⟨c, l, r, rfl⟩ := exists_plug_of_mem hnode
  obtain ⟨c', T1, t1, hunlink, hdepth, hout⟩ := unlinkNode_spec h.holds hfuel
  obtain ⟨hT1, hsides⟩ := hout.below _ hereditary_folded h.folded
  rw [hunlink, all_ok] at hkept
  rw [← hout.ext] at hT1 hsides
  obtain ⟨t', T', hfix, hold', hsame, hown, hT'⟩ := avltreeFixup_folded (hcb t1.ext)
    (keeping_keepsOwn _) c' fuel hout.holds (fun _ _ => trivial) rfl hT1 hsides hkept hdepth
  refine ⟨t', T', ?_, ⟨hold', by rw [hown]; exact hT'⟩, ?_⟩
  · rw [avltreeDeleteNode_eq, hunlink]
    exact hfix
  · rw [hsame]
    exact hout.sublist.length_le.trans (Nat.le_succ _)

theorem Valued.exec (hfuel : (inorder T).length ≤ fuel) (call : Call α κ)
    (huses : call.Uses val combine update fuel t)
    (hkept : call.EachTurn (KeepsOwn val combine empty) fuel t) :
    ∃ r T', call.exec fuel t = .ok r ∧ Valued val combine empty r.2 T' ∧
      (inorder T').length ≤ (inorder T).length + 1 := by
  have hshape : shape t.links fuel t.root = T := h.holds.rep.shape_eq hfuel
  cases call with
  | insert node comparator callback addedNode =>
    obtain ⟨rfl, hadd, hnew⟩ := huses
    rw [Call.EachTurn] at hkept
    rcases h.holds.findPlace_cases hfuel node comparator with hfind | ⟨c, hfind, rfl, hhole, hdepth⟩
    · exact ⟨(some false, t), T, by simp [Call.exec, avltreeInsert, hfind], h, Nat.le_succ _⟩
    · rw [hfind, all_ok] at hnew hkept
      rw [hshape, hhole] at hnew
      have hsides := (hereditary_folded.of_plug h.folded).2
      obtain ⟨t', T', hins, hold, hsame, hown, hT'⟩ := insertAtLoc_folded (hcb t.ext)
        (keeping_keepsOwn _) fuel h.holds (hnew rfl) (fun _ _ => trivial) hdepth (by
          -- the callback for the new node leaves the values beside the way alone
          intro t1 _ hext
          cases addedNode with
          | none => exact ⟨t1, rfl, by rw [hext], by rw [hext]; exact hsides⟩
          | some f =>
            obtain ⟨e, he, hval, hsame⟩ := hadd f rfl t1 node
            refine ⟨{ t1 with ext := e }, by simp [avlnodeUpdate, he], by rw [hsame, hext], ?_⟩
            rw [hval, hext]
            exact hsides) (hkept _ rfl)
      refine ⟨(some true, t'), T', by simp [Call.exec, avltreeInsert, hfind, hins],
        ⟨hold, by rw [hown]; exact hT'⟩, ?_⟩
      rw [hsame, hhole]
      simp only [length_append, length_cons]
      omega
  | delete key comparator callback =>
    obtain rfl : callback = some update := huses
    rw [Call.EachTurn] at hkept
    obtain ⟨found, hfind, hmem⟩ := findKey_mem key comparator fuel h.holds.rep hfuel
    rw [hfind, all_ok] at hkept
    cases found with
    | none => exact ⟨(none, t), T, by simp [Call.exec, avltreeDelete, hfind], h, Nat.le_succ _⟩
    | some node =>
      obtain ⟨t', T', hrun, hvalued, hlen⟩ := h.deleteNode hcb (hmem node rfl) hfuel (hkept node rfl)
      exact ⟨(none, t'), T', by simp [Call.exec, avltreeDelete, hfind, hrun], hvalued, hlen⟩
  | deleteNode node callback =>
    obtain ⟨rfl, hin⟩ := huses
    rw [hshape] at hin
    obtain ⟨t', T', hrun, hvalued, hlen⟩ := h.deleteNode hcb hin hfuel hkept
    exact ⟨(none, t'), T', by simp [Call.exec, hrun], hvalued, hlen⟩
  | client ext =>
    obtain ⟨hval, hown⟩ := huses
    rw [hshape] at hown
    refine ⟨_, T, rfl, ⟨⟨h.holds.rep, h.holds.nodup⟩, ?_⟩, Nat.le_succ _⟩
    exact (h.folded.congr fun p _ => congrFun hval p).congr_combine hown

end

/--
**The values are what one gets by computing them anew**, after every run from the empty tree in
which each double rotation takes down a child whose value is right for its new subtrees.
-/
theorem avltree_values_right (hcb : ComputesFrom val combine empty update) (nodes : Ptr → AvlNode) (ext : α) (calls : List (Call α κ)) {fuel : Nat}
    (hfuel : calls.length ≤ fuel)
    (huses : Call.Each (Call.Uses val combine update fuel) fuel (init nodes ext) calls)
    (hkept : Call.Each (Call.EachTurn (KeepsOwn val combine empty) fuel) fuel (init nodes ext) calls) :
    ∃ t T, Call.run fuel (init nodes ext) calls = .ok t ∧ Holds t T ∧
      Folded (combine t.ext) empty (val t.ext) T := by
  have hinit : Valued val combine empty (init nodes ext) .nil := ⟨⟨rfl, nodup_nil⟩, trivial⟩
  obtain ⟨t, T, hrun, hvalued⟩ := Call.run_keeps (fun h hfuel => h.exec hcb hfuel _) calls hinit huses
    hkept (by simpa using hfuel)
  exact ⟨t, T, hrun, hvalued.holds, hvalued.folded⟩

end Sequences

/-! ## Counting nodes -/

/-- The number of nodes of a tree, from those of its subtrees. -/
def countNode (_ : Ptr) (left right : Nat) : Nat := 1 + left + right

/-- Keep with every node how many nodes there are in the tree below it. -/
def countUpdate : AvlCallback (Ptr → Nat) := fun t p =>
  .ok (Function.update t.ext p
    (countNode p (valueAt 0 t.ext (t.nodes p).left) (valueAt 0 t.ext (t.nodes p).right)))

theorem countUpdate_computes : ComputesFrom id (fun _ => countNode) 0 countUpdate :=
  fun _ _ _ _ _ => ⟨_, rfl, rfl, rfl⟩

/-- Nodes that are never in the tree, without counts. -/
def uncounted : AvlTree (Ptr → Nat) := init (fun _ => ⟨⟨none, none, none⟩, 0⟩) fun _ => 0

/-- Insert by address, with the count. -/
def insertCounted (node : Ptr) : Call (Ptr → Nat) Nat :=
  .insert node (fun _ a b => (a : Int) - (b : Int)) (some countUpdate) none

theorem leavesValues_none : LeavesValues id (fun _ : Ptr → Nat => countNode) none :=
  fun f hf => by cases hf

/-- A single rotation, and the deletion of the new root. -/
theorem avltree_values_right_counted :
    ∃ t T, Call.run 4 uncounted [insertCounted 1, insertCounted 2, insertCounted 3,
        .delete 2 (fun _ a k => (k : Int) - (a : Int)) (some countUpdate)] = .ok t ∧ Holds t T ∧
      Folded countNode 0 t.ext T := by
  refine avltree_values_right countUpdate_computes _ _ _ (Nat.le_refl 4) ?_ (by decide)
  refine ⟨⟨rfl, leavesValues_none, ?_⟩, ⟨rfl, leavesValues_none, ?_⟩, ⟨rfl, leavesValues_none, ?_⟩,
    rfl, trivial⟩
  all_goals exact fun _ => by decide

/-- **A double rotation leaves a count too great**: that of the right child, which is a leaf. -/
theorem double_rotation_leaves_count :
    Call.Each (Call.Uses id (fun _ => countNode) countUpdate 3) 3 uncounted
      [insertCounted 1, insertCounted 3, insertCounted 2] ∧
    ∃ t, Call.run 3 uncounted [insertCounted 1, insertCounted 3, insertCounted 2] = .ok t ∧
      shape t.links 3 t.root = .node 2 (.node 1 .nil .nil) (.node 3 .nil .nil) ∧ t.ext 3 = 2 ∧
      ¬ Folded countNode 0 t.ext (shape t.links 3 t.root) := by
  refine ⟨?_, _, rfl, rfl, rfl, fun h => ?_⟩
  · refine ⟨⟨rfl, leavesValues_none, ?_⟩, ⟨rfl, leavesValues_none, ?_⟩, ⟨rfl, leavesValues_none, ?_⟩,
      trivial⟩
    all_goals exact fun _ => by decide
  · exact absurd h.2.2.1 (by decide)

end OsKernel.Adt.AvlTree
