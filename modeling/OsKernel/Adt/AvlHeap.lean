import OsKernel.Adt.AvlTree
import OsKernel.Base.TreeSurgery

/-!
# Rotations and rebalancing keep the order

`avltree_fixup` trusts the stored heights to decide where to rotate, and they may be
anything: what a rotation does to the order of the nodes does not depend on them. A
rotation needs a child on one side; `fixup` only asks for one where the height it
reads is positive, and the height of NULL is zero, so it never follows a NULL child.

Each step is followed with the tree split at the node it works on, as in
`LinkedTree.lean`. Everything is proved for any callback that returns and keeps a
property `I` of the caller's memory, when called on a node of `S`.
-/

namespace OsKernel.Adt.AvlTree

open List hiding after

open LinkedTree

variable {α κ : Type} {T' : BinaryTree Ptr} {at' at_ par : Option Ptr}

/-- The links of a memory. -/
def links (t : AvlTree α) (p : Ptr) : TreeLinks Ptr := (t.nodes p).toTreeLinks

/-! ## Writes, link by link -/

section Writes

variable (t : AvlTree α) (p q : Ptr) (v : Option Ptr) (n : Nat)

theorem links_setLeft : (t.setLeft p v).links q
    = if q = p then { t.links q with left := v } else t.links q := by
  by_cases h : q = p <;> simp [links, setLeft, modify, h]

theorem links_setRight : (t.setRight p v).links q
    = if q = p then { t.links q with right := v } else t.links q := by
  by_cases h : q = p <;> simp [links, setRight, modify, h]

theorem links_setParent : (t.setParent p v).links q
    = if q = p then { t.links q with parent := v } else t.links q := by
  by_cases h : q = p <;> simp [links, setParent, modify, h]

theorem links_setParentOf (o : Option Ptr) : (t.setParentOf o v).links q
    = if some q = o then { t.links q with parent := v } else t.links q := by
  cases o with
  | none => simp [setParentOf]
  | some p => simp [setParentOf, links_setParent]

@[simp] theorem links_setHeight : (t.setHeight p n).links = t.links := by
  funext q
  by_cases h : q = p <;> simp [links, setHeight, modify, h]

@[simp] theorem links_resetNodeHeight : (t.resetNodeHeight p).links = t.links :=
  links_setHeight _ _ _

@[simp] theorem root_setLeft : (t.setLeft p v).root = t.root := rfl
@[simp] theorem root_setRight : (t.setRight p v).root = t.root := rfl
@[simp] theorem root_setParent : (t.setParent p v).root = t.root := rfl
@[simp] theorem root_setHeight : (t.setHeight p n).root = t.root := rfl

@[simp] theorem root_setParentOf (o : Option Ptr) : (t.setParentOf o v).root = t.root := by
  cases o <;> rfl

@[simp] theorem ext_setLeft : (t.setLeft p v).ext = t.ext := rfl
@[simp] theorem ext_setRight : (t.setRight p v).ext = t.ext := rfl
@[simp] theorem ext_setParent : (t.setParent p v).ext = t.ext := rfl
@[simp] theorem ext_setHeight : (t.setHeight p n).ext = t.ext := rfl
@[simp] theorem ext_resetNodeHeight : (t.resetNodeHeight p).ext = t.ext := rfl

@[simp] theorem ext_setParentOf (o : Option Ptr) : (t.setParentOf o v).ext = t.ext := by
  cases o <;> rfl

@[simp] theorem ext_store (link : AvlLink) : (t.store link v).ext = t.ext := by
  cases link <;> rfl

/-- The heights kept in a memory. -/
def heights (t : AvlTree α) (p : Ptr) : Nat := (t.nodes p).height

theorem heights_modify (f : AvlNode → AvlNode) (hf : ∀ n, (f n).height = n.height) :
    (t.modify p f).heights = t.heights := by
  funext q
  by_cases h : q = p <;> simp [heights, modify, h, hf]

@[simp] theorem heights_setLeft : (t.setLeft p v).heights = t.heights :=
  heights_modify t p _ fun _ => rfl

@[simp] theorem heights_setRight : (t.setRight p v).heights = t.heights :=
  heights_modify t p _ fun _ => rfl

@[simp] theorem heights_setParent : (t.setParent p v).heights = t.heights :=
  heights_modify t p _ fun _ => rfl

@[simp] theorem heights_setParentOf (o : Option Ptr) : (t.setParentOf o v).heights = t.heights := by
  cases o with
  | none => rfl
  | some p => exact heights_setParent t p v

@[simp] theorem heights_store (link : AvlLink) : (t.store link v).heights = t.heights := by
  cases link with
  | root => rfl
  | left p => exact heights_setLeft t p v
  | right p => exact heights_setRight t p v

@[simp] theorem heights_setHeight : (t.setHeight p n).heights = Function.update t.heights p n := by
  funext q
  by_cases h : q = p <;> simp [heights, setHeight, modify, h]

end Writes

variable {t t' : AvlTree α} {c : Ctx Ptr} {p q : Ptr} {T a b l r : BinaryTree Ptr}

/-- `t'` has the root and the caller's memory of `t`, and its links outside `S`. -/
structure Inside (t t' : AvlTree α) (S : List Ptr) : Prop where
  root : t'.root = t.root
  ext : t'.ext = t.ext
  links : ∀ p ∉ S, t'.links p = t.links p

/-! ## Rotations -/

theorem rotateLeft_spec {c : BinaryTree Ptr} {par at_ : Option Ptr}
    (h : Rep t.links (.node p a (.node q b c)) par at_)
    (hnd : (inorder (.node p a (.node q b c))).Nodup) :
    ∃ t', t.rotateLeft p = .ok (q, t') ∧ Rep t'.links (.node q (.node p a b) c) par (some q) ∧
      Inside t t' (inorder (.node p a (.node q b c))) := by
  obtain ⟨_, _, _, hright, _, hb, _⟩ := id h
  have hmem := hb.at_mem
  have hnd' := hnd
  simp only [inorder_node, nodup_append, nodup_cons, mem_append, mem_cons, not_or] at hnd'
  obtain ⟨-, ⟨⟨hpb, hpq, -⟩, -, -, hbq⟩, -⟩ := hnd'
  set t' := ((((t.setRight p (t.links q).left).setParent p (some q)).setParentOf (t.links q).left
    (some p)).setParent q (t.links p).parent).setLeft q (some p) with ht'
  have hrot : RotatedLeft t.links t'.links p q := by
    intro x
    simp only [ht', links_setLeft, links_setParent, links_setParentOf, links_setRight]
    by_cases hxq : x = q
    · subst hxq
      have h1 : some x ≠ (t.links x).left := fun e => hbq x (hmem x e.symm) x (.inl rfl) rfl
      simp [h1, Ne.symm hpq]
    · by_cases hxb : some x = (t.links q).left
      · have h1 : x ≠ p := fun e => hpb (e ▸ hmem x hxb.symm)
        simp [hxq, hxb, h1]
      · by_cases hxp : x = p
        · subst hxp
          simp [hxq, hxb]
        · simp [hxq, hxb, hxp]
  refine ⟨t', ?_, h.rotateLeft hnd hrot, ⟨by simp [ht'], by simp [ht'], ?_⟩⟩
  · have hright' : (t.nodes p).right = some q := hright
    simp only [rotateLeft, hright']
    rfl
  · intro x hx
    simp only [inorder_node, mem_append, mem_cons, not_or] at hx
    rw [hrot x, if_neg hx.2.2.2.1, if_neg fun e => hx.2.2.1 (hmem x e.symm), if_neg hx.2.1]

theorem rotateRight_spec {c : BinaryTree Ptr} {par at_ : Option Ptr}
    (h : Rep t.links (.node p (.node q a b) c) par at_)
    (hnd : (inorder (.node p (.node q a b) c)).Nodup) :
    ∃ t', t.rotateRight p = .ok (q, t') ∧ Rep t'.links (.node q a (.node p b c)) par (some q) ∧
      Inside t t' (inorder (.node p (.node q a b) c)) := by
  obtain ⟨_, _, ⟨hleft, _, _, hb⟩, _⟩ := id h
  have hmem := hb.at_mem
  have hnd' := hnd
  simp only [inorder_node, nodup_append, nodup_cons, mem_append, mem_cons] at hnd'
  obtain ⟨⟨-, ⟨hqb, -⟩, -⟩, -, hapart⟩ := hnd'
  have hqp : q ≠ p := hapart q (.inr (.inl rfl)) p (.inl rfl)
  have hbp : ∀ x ∈ inorder b, x ≠ p := fun x hx => hapart x (.inr (.inr hx)) p (.inl rfl)
  set t' := ((((t.setLeft p (t.links q).right).setParent p (some q)).setParentOf (t.links q).right
    (some p)).setParent q (t.links p).parent).setRight q (some p) with ht'
  have hrot : RotatedRight t.links t'.links p q := by
    intro x
    simp only [ht', links_setLeft, links_setParent, links_setParentOf, links_setRight]
    by_cases hxq : x = q
    · subst hxq
      have h1 : some x ≠ (t.links x).right := fun e => hqb (hmem x e.symm)
      simp [h1, hqp]
    · by_cases hxb : some x = (t.links q).right
      · have h1 : x ≠ p := hbp x (hmem x hxb.symm)
        simp [hxq, hxb, h1]
      · by_cases hxp : x = p
        · subst hxp
          simp [hxq, hxb]
        · simp [hxq, hxb, hxp]
  refine ⟨t', ?_, h.rotateRight hnd hrot, ⟨by simp [ht'], by simp [ht'], ?_⟩⟩
  · have hleft' : (t.nodes p).left = some q := hleft
    simp only [rotateRight, hleft']
    rfl
  · intro x hx
    simp only [inorder_node, mem_append, mem_cons, not_or] at hx
    rw [hrot x, if_neg hx.1.2.1, if_neg fun e => hx.1.2.2 (hmem x e.symm), if_neg hx.2.1]

/-- Rotations move links only, whatever the memory holds. -/
theorem rotateLeft_frame (h : t.rotateLeft p = .ok (q, t')) :
    t'.ext = t.ext ∧ t'.heights = t.heights := by
  unfold rotateLeft at h
  split at h
  · simp at h
  · injection h with h
    rw [← (Prod.mk.inj h).2]
    simp

theorem rotateRight_frame (h : t.rotateRight p = .ok (q, t')) :
    t'.ext = t.ext ∧ t'.heights = t.heights := by
  unfold rotateRight at h
  split at h
  · simp at h
  · injection h with h
    rw [← (Prod.mk.inj h).2]
    simp

/-! ## Replacing a subtree -/

/-- The memory holds the tree, and no node twice. -/
structure Holds (t : AvlTree α) (T : BinaryTree Ptr) : Prop where
  rep : Rep t.links T none t.root
  nodup : (inorder T).Nodup

theorem Holds.of_links (h : Holds t T) (hlinks : t'.links = t.links) (hroot : t'.root = t.root) :
    Holds t' T :=
  ⟨by rw [hlinks, hroot]; exact h.rep, h.nodup⟩

theorem Holds.unique (h : Holds t T) (h' : Holds t T') :
    T = T' :=
  (h.rep.shape_eq (le_max_left _ (inorder T').length)).symm.trans
    (h'.rep.shape_eq (le_max_right (inorder T).length _))

/-- The link that is the hole of a context. -/
def ctxLink : Ctx Ptr → AvlLink
  | [] => .root
  | .left p _ :: _ => .left p
  | .right _ p :: _ => .right p

theorem Holds.ctx_nodup (h : Holds t (plug c T)) :
    (before c ++ after c).Nodup ∧ (inorder T).Nodup ∧
      ∀ x ∈ inorder T, x ∉ before c ++ after c := by
  have hnd := h.nodup
  rw [inorder_plug, nodup_append, nodup_append] at hnd
  obtain ⟨⟨hb, hT, hbT⟩, ha, hbTa⟩ := hnd
  refine ⟨nodup_append.mpr ⟨hb, ha, fun x hx => hbTa x (mem_append_left _ hx)⟩, hT, ?_⟩
  intro x hx hmem
  rcases mem_append.mp hmem with hmem | hmem
  · exact hbT x hmem x hx rfl
  · exact hbTa x (mem_append_right _ hx) x hmem rfl

theorem getNodeLink_eq (h : Holds t (plug c (.node p l r))) : t.getNodeLink p = ctxLink c := by
  obtain ⟨at_, hctx, rfl, hpar, -, -⟩ := rep_plug.mp h.rep
  have hpar' : (t.nodes p).parent = c.parent := hpar
  obtain ⟨-, -, hout⟩ := h.ctx_nodup
  unfold getNodeLink
  rw [hpar']
  match c with
  | [] => rfl
  | .left x r' :: c =>
    have hx : (t.nodes x).left = some p := hctx.1
    simp [above, ctxLink, hx]
  | .right l' x :: c =>
    have hx : (t.nodes x).left ≠ some p := by
      intro e
      refine hout p (by simp) ?_
      have := hctx.2.2.1.at_mem p e
      simp [before, after, this]
    simp [above, ctxLink, hx]

theorem store_links_other {v : Option Ptr} {x : Ptr} (h : some x ≠ c.parent) :
    (t.store (ctxLink c) v).links x = t.links x := by
  match c with
  | [] => rfl
  | .left p r :: c =>
    have hne : x ≠ p := fun e => h (by rw [e]; rfl)
    simp [ctxLink, store, links_setLeft, hne]
  | .right l p :: c =>
    have hne : x ≠ p := fun e => h (by rw [e]; rfl)
    simp [ctxLink, store, links_setRight, hne]

/-- The hole of a context was written and what hangs in it is a tree. -/
theorem Holds.relink (h : Holds t (plug c T)) (at' : Option Ptr)
    (hlink : Relinked t.links t.root t'.links t'.root at' c)
    (hrest : ∀ x ∈ before c ++ after c, some x ≠ c.parent → t'.links x = t.links x)
    (hrep : Rep t'.links T' c.parent at') (hnd : (inorder (plug c T')).Nodup) :
    Holds t' (plug c T') := by
  obtain ⟨at_, hctx, -⟩ := rep_plug.mp h.rep
  exact ⟨rep_plug.mpr ⟨at', hctx.relink h.ctx_nodup.1 hlink hrest, hrep⟩, hnd⟩

/--
A subtree was rebuilt in place, away from the context, and the new one is stored in the hole.
-/
theorem Holds.replace {S : List Ptr} (h : Holds t (plug c T)) (hin : Inside t t' S)
    (hS : ∀ x ∈ S, x ∉ before c ++ after c) (hrep : Rep t'.links T' c.parent at')
    (hnd : (inorder (plug c T')).Nodup) :
    Holds (t'.store (ctxLink c) at') (plug c T') := by
  have hsame : ∀ x ∈ before c ++ after c, t'.links x = t.links x := fun x hx =>
    hin.links x fun hxS => hS x hxS hx
  have hout : ∀ x ∈ inorder T', some x ≠ c.parent := by
    intro x hx e
    rw [inorder_plug, nodup_append, nodup_append] at hnd
    rcases mem_append.mp (Ctx.parent_mem e.symm) with hmem | hmem
    · exact hnd.1.2.2 x hmem x hx rfl
    · exact hnd.2.2 x (mem_append_right _ hx) x hmem rfl
  refine h.relink _ ?_ ?_ (hrep.congr fun x hx => store_links_other (hout x hx)) hnd
  · match c with
    | [] => rfl
    | .left p r :: c =>
      have hp := hsame p (by simp [before, after])
      exact ⟨hin.root, by simp [ctxLink, store, links_setLeft, hp]⟩
    | .right l p :: c =>
      have hp := hsame p (by simp [before, after])
      exact ⟨hin.root, by simp [ctxLink, store, links_setRight, hp]⟩
  · intro x hx hne
    rw [store_links_other hne, hsame x hx]

/-- A subtree was rebuilt from its own nodes, in their order, and is stored in the hole. -/
theorem Holds.rebuild (h : Holds t (plug c T)) (hin : Inside t t' (inorder T))
    (hrep : Rep t'.links T' c.parent at') (hsame : inorder T' = inorder T) :
      Holds (t'.store (ctxLink c) at') (plug c T') := by
  refine h.replace hin h.ctx_nodup.2.2 hrep ?_
  rw [inorder_plug, hsame, ← inorder_plug]
  exact h.nodup

theorem rotateLeft_holds {ctx : Ctx Ptr} {c : BinaryTree Ptr}
    (h : Holds t (plug ctx (.node p a (.node q b c)))) :
    ∃ t', t.rotateLeft p = .ok (q, t') ∧ t'.ext = t.ext ∧
      Holds (t'.store (ctxLink ctx) (some q)) (plug ctx (.node q (.node p a b) c)) := by
  obtain ⟨_, hctx, hrep⟩ := rep_plug.mp h.rep
  obtain ⟨t', hrun, hrep', hin⟩ := rotateLeft_spec hrep h.ctx_nodup.2.1
  exact ⟨t', hrun, hin.ext, h.rebuild hin hrep' (by simp)⟩

theorem rotateRight_holds {ctx : Ctx Ptr} {c : BinaryTree Ptr}
    (h : Holds t (plug ctx (.node p (.node q a b) c))) :
    ∃ t', t.rotateRight p = .ok (q, t') ∧ t'.ext = t.ext ∧
      Holds (t'.store (ctxLink ctx) (some q)) (plug ctx (.node q a (.node p b c))) := by
  obtain ⟨_, hctx, hrep⟩ := rep_plug.mp h.rep
  obtain ⟨t', hrun, hrep', hin⟩ := rotateRight_spec hrep h.ctx_nodup.2.1
  exact ⟨t', hrun, hin.ext, h.rebuild hin hrep' (by simp)⟩

/-! ## Rebalancing -/

/-- A callback that returns on the nodes of `S` and keeps `I`. -/
def CallbackOk (I : α → Prop) (S : Set Ptr) (cb : Option (AvlCallback α)) : Prop :=
  ∀ update ∈ cb, ∀ (t : AvlTree α), ∀ p ∈ S, I t.ext → ∃ e, update t p = .ok e ∧ I e

section Fixup

variable {I : α → Prop} {S : Set Ptr} {update : Option (AvlCallback α)}

theorem avlnodeUpdate_spec (hcb : CallbackOk I S update) (hp : p ∈ S) (hI : I t.ext) :
    ∃ e, t.avlnodeUpdate p update = .ok { t with ext := e } ∧ I e := by
  cases update with
  | none => exact ⟨t.ext, rfl, hI⟩
  | some f =>
    obtain ⟨e, he, hIe⟩ := hcb f rfl t p hp hI
    exact ⟨e, by simp [avlnodeUpdate, he], hIe⟩

theorem avlnodeUpdate_holds (hcb : CallbackOk I S update) (h : Holds t T) (hp : p ∈ S)
    (hI : I t.ext) :
    ∃ t', t.avlnodeUpdate p update = .ok t' ∧ Holds t' T ∧ I t'.ext ∧ t'.heights = t.heights := by
  obtain ⟨e, hrun, hIe⟩ := avlnodeUpdate_spec hcb hp hI
  exact ⟨_, hrun, h.of_links rfl rfl, hIe, rfl⟩

theorem avlnodeUpdate_links {cb : Option (AvlCallback α)} (h : t.avlnodeUpdate p cb = .ok t') :
    t'.links = t.links ∧ t'.root = t.root := by
  cases cb with
  | none =>
    injection h with h
    rw [h]
    exact ⟨rfl, rfl⟩
  | some f =>
    obtain ⟨e, _, h⟩ := bind_eq_ok.mp h
    cases h
    exact ⟨rfl, rfl⟩

theorem node_of_height_pos (h : Rep t.links T par at_) (hpos : 0 < t.nodeHeight at_) :
    ∃ p l r, T = .node p l r := by
  cases T with
  | nil =>
    rw [show at_ = none from h] at hpos
    simp [nodeHeight] at hpos
  | node p l r => exact ⟨p, l, r, rfl⟩

/-- What a turn of the loop leaves: the same nodes in the same order, `q` on top. -/
def Turned (I : α → Prop) (c : Ctx Ptr) (T : BinaryTree Ptr) (q : Ptr) (t' : AvlTree α) : Prop :=
  ∃ l r, Holds t' (plug c (.node q l r)) ∧ inorder (.node q l r) = inorder T ∧ I t'.ext

/-- The left subtree of `q` is read as the higher one. -/
abbrev LeansLeft (t : AvlTree α) (q : Ptr) : Prop :=
  t.nodeHeight (t.nodes q).right < t.nodeHeight (t.nodes q).left

/-- The same with left and right exchanged. -/
abbrev LeansRight (t : AvlTree α) (q : Ptr) : Prop :=
  t.nodeHeight (t.nodes q).left < t.nodeHeight (t.nodes q).right

/--
A single rotation. Only the height of the old top is written, from the subtrees it has then; the
rest is up to the callback.
-/
theorem fixRightHeavy_single_eq {c' : BinaryTree Ptr}
    (h : Holds t (plug c (.node p l (.node q b c'))))
    (hsingle : ¬ t.LeansLeft q) :
    ∃ t1 : AvlTree α, Holds t1 (plug c (.node q (.node p l b) c')) ∧ t1.ext = t.ext ∧
      t1.heights = t.heights ∧ ∀ update, t.fixRightHeavy p update =
        ((t1.resetNodeHeight p).avlnodeUpdate p update).map fun t' => (q, t') := by
  obtain ⟨_, _, rfl, _, _, hr⟩ := rep_plug.mp h.rep
  have hright : (t.nodes p).right = some q := hr.1
  obtain ⟨t1, hrun1, hext1, hold1⟩ := rotateLeft_holds h
  refine ⟨t1.store (ctxLink c) (some q), hold1, by rw [ext_store, hext1], ?_, ?_⟩
  · rw [heights_store, (rotateLeft_frame hrun1).2]
  · intro update
    unfold fixRightHeavy
    rw [hright]
    dsimp only
    rw [if_neg hsingle]
    simp only [ok_bind, pure_eq_ok, getNodeLink_eq h, hrun1]
    cases ((t1.store (ctxLink c) (some q)).resetNodeHeight p).avlnodeUpdate p update <;> rfl

theorem fixLeftHeavy_single_eq (h : Holds t (plug c (.node p (.node q a b) r)))
    (hsingle : ¬ t.LeansRight q) :
    ∃ t1 : AvlTree α, Holds t1 (plug c (.node q a (.node p b r))) ∧ t1.ext = t.ext ∧
      t1.heights = t.heights ∧ ∀ update, t.fixLeftHeavy p update =
        ((t1.resetNodeHeight p).avlnodeUpdate p update).map fun t' => (q, t') := by
  obtain ⟨_, _, rfl, _, hl, _⟩ := rep_plug.mp h.rep
  have hleft : (t.nodes p).left = some q := hl.1
  obtain ⟨t1, hrun1, hext1, hold1⟩ := rotateRight_holds h
  refine ⟨t1.store (ctxLink c) (some q), hold1, by rw [ext_store, hext1], ?_, ?_⟩
  · rw [heights_store, (rotateRight_frame hrun1).2]
  · intro update
    unfold fixLeftHeavy
    rw [hleft]
    dsimp only
    rw [if_neg hsingle]
    simp only [ok_bind, pure_eq_ok, getNodeLink_eq h, hrun1]
    cases ((t1.store (ctxLink c) (some q)).resetNodeHeight p).avlnodeUpdate p update <;> rfl

/-- A double rotation: the callback is called on the new top in between, and on the old top. -/
theorem fixRightHeavy_double_eq {m : Ptr} {b1 b2 c' : BinaryTree Ptr}
    (h : Holds t (plug c (.node p l (.node q (.node m b1 b2) c'))))
    (hdouble : t.LeansLeft q) :
    ∃ t1 : AvlTree α, Holds t1 (plug c (.node p l (.node m b1 (.node q b2 c')))) ∧
      t1.ext = t.ext ∧ ∀ update t2, t1.avlnodeUpdate m update = .ok t2 →
        ∃ t3 : AvlTree α, Holds t3 (plug c (.node m (.node p l b1) (.node q b2 c'))) ∧
          t3.ext = t2.ext ∧
          t.fixRightHeavy p update = (t3.avlnodeUpdate p update).map fun t' => (m, t') := by
  obtain ⟨_, _, rfl, _, _, hr⟩ := rep_plug.mp h.rep
  have hright : (t.nodes p).right = some q := hr.1
  have hinner : Holds t (plug (.right l p :: c) (.node q (.node m b1 b2) c')) := h
  obtain ⟨t1, hrun1, hext1, hold1⟩ := rotateRight_holds hinner
  have hold2 : Holds ((t1.setRight p (some m)).resetNodeHeight m)
      (plug c (.node p l (.node m b1 (.node q b2 c')))) :=
    hold1.of_links (links_resetNodeHeight _ _) rfl
  refine ⟨_, hold2, hext1, ?_⟩
  intro update t2 hrun2
  obtain ⟨hlinks, hroot⟩ := avlnodeUpdate_links hrun2
  have hold3 := hold2.of_links hlinks hroot
  obtain ⟨t3, hrun3, hext3, hold4⟩ := rotateLeft_holds hold3
  refine ⟨(t3.store (ctxLink c) (some m)).resetNodeHeight p,
    hold4.of_links (links_resetNodeHeight _ _) rfl,
    by rw [ext_resetNodeHeight, ext_store, hext3], ?_⟩
  unfold fixRightHeavy
  rw [hright]
  dsimp only
  rw [if_pos hdouble]
  simp only [hrun1, ok_bind, hrun2, pure_eq_ok, getNodeLink_eq hold3, hrun3]
  cases ((t3.store (ctxLink c) (some m)).resetNodeHeight p).avlnodeUpdate p update <;> rfl

/-- The mirrored double rotation, in which the callback is called on the old top only. -/
theorem fixLeftHeavy_double_eq {m : Ptr} {b1 b2 : BinaryTree Ptr}
    (h : Holds t (plug c (.node p (.node q a (.node m b1 b2)) r)))
    (hdouble : t.LeansRight q) :
    ∃ t3 : AvlTree α, Holds t3 (plug c (.node m (.node q a b1) (.node p b2 r))) ∧
      t3.ext = t.ext ∧ ∀ update,
        t.fixLeftHeavy p update = (t3.avlnodeUpdate p update).map fun t' => (m, t') := by
  obtain ⟨_, _, rfl, _, hl, _⟩ := rep_plug.mp h.rep
  have hleft : (t.nodes p).left = some q := hl.1
  have hinner : Holds t (plug (.left p r :: c) (.node q a (.node m b1 b2))) := h
  obtain ⟨t1, hrun1, hext1, hold1⟩ := rotateLeft_holds hinner
  have hold2 : Holds ((t1.setLeft p (some m)).resetNodeHeight m)
      (plug c (.node p (.node m (.node q a b1) b2) r)) :=
    hold1.of_links (links_resetNodeHeight _ _) rfl
  obtain ⟨t3, hrun3, hext3, hold4⟩ := rotateRight_holds hold2
  refine ⟨(t3.store (ctxLink c) (some m)).resetNodeHeight p,
    hold4.of_links (links_resetNodeHeight _ _) rfl, ?_, ?_⟩
  · rw [ext_resetNodeHeight, ext_store, hext3]
    exact hext1
  · intro update
    unfold fixLeftHeavy
    rw [hleft]
    dsimp only
    rw [if_pos hdouble]
    simp only [hrun1, ok_bind, pure_eq_ok, getNodeLink_eq hold2, hrun3]
    cases ((t3.store (ctxLink c) (some m)).resetNodeHeight p).avlnodeUpdate p update <;> rfl

theorem fixRightHeavy_single (hcb : CallbackOk I S update) {c' : BinaryTree Ptr}
    (h : Holds t (plug c (.node p l (.node q b c')))) (hpS : p ∈ S) (hI : I t.ext)
    (hsingle : ¬ t.LeansLeft q) :
    ∃ t' t1 : AvlTree α, t.fixRightHeavy p update = .ok (q, t') ∧ I t'.ext ∧
      Holds t' (plug c (.node q (.node p l b) c')) ∧
      Holds t1 (plug c (.node q (.node p l b) c')) ∧ t1.heights = t.heights ∧
      t'.heights = (t1.resetNodeHeight p).heights := by
  obtain ⟨t1, hold1, hext1, hheights1, hrun⟩ := fixRightHeavy_single_eq h hsingle
  obtain ⟨t2, hrun2, hold2, hI2, hheights2⟩ := avlnodeUpdate_holds hcb
    (hold1.of_links (links_resetNodeHeight t1 p) rfl) hpS
    (by rw [ext_resetNodeHeight, hext1]; exact hI)
  exact ⟨t2, t1, by rw [hrun, hrun2]; rfl, hI2, hold2, hold1, hheights1, hheights2⟩

theorem fixLeftHeavy_single (hcb : CallbackOk I S update)
    (h : Holds t (plug c (.node p (.node q a b) r))) (hpS : p ∈ S) (hI : I t.ext)
    (hsingle : ¬ t.LeansRight q) :
    ∃ t' t1 : AvlTree α, t.fixLeftHeavy p update = .ok (q, t') ∧ I t'.ext ∧
      Holds t' (plug c (.node q a (.node p b r))) ∧
      Holds t1 (plug c (.node q a (.node p b r))) ∧ t1.heights = t.heights ∧
      t'.heights = (t1.resetNodeHeight p).heights := by
  obtain ⟨t1, hold1, hext1, hheights1, hrun⟩ := fixLeftHeavy_single_eq h hsingle
  obtain ⟨t2, hrun2, hold2, hI2, hheights2⟩ := avlnodeUpdate_holds hcb
    (hold1.of_links (links_resetNodeHeight t1 p) rfl) hpS
    (by rw [ext_resetNodeHeight, hext1]; exact hI)
  exact ⟨t2, t1, by rw [hrun, hrun2]; rfl, hI2, hold2, hold1, hheights1, hheights2⟩

/-- Where the code is about to rotate twice, there is a grandchild. -/
theorem inner_of_double (h : Rep t.links (.node q a b) par at_) :
    (t.LeansLeft q → ∃ m b1 b2, a = .node m b1 b2) ∧
      (t.LeansRight q → ∃ m b1 b2, b = .node m b1 b2) := by
  obtain ⟨_, _, ha, hb⟩ := h
  constructor
  · intro hdouble
    exact node_of_height_pos ha (Nat.zero_lt_of_lt hdouble)
  · intro hdouble
    exact node_of_height_pos hb (Nat.zero_lt_of_lt hdouble)

section

variable (hcb : CallbackOk I S update) (h : Holds t (plug c (.node p l r)))
  (hS : ∀ x ∈ inorder (.node p l r), x ∈ S) (hI : I t.ext)
include hcb h hS hI

theorem fixRightHeavy_spec (hpos : 0 < t.nodeHeight (t.nodes p).right) :
    ∃ q t', t.fixRightHeavy p update = .ok (q, t') ∧ Turned I c (.node p l r) q t' := by
  obtain ⟨_, _, rfl, _, _, hr⟩ := rep_plug.mp h.rep
  obtain ⟨q, b, c', rfl⟩ := node_of_height_pos hr hpos
  have hpS : p ∈ S := hS p (by simp)
  by_cases hdouble : t.LeansLeft q
  · obtain ⟨m, b1, b2, rfl⟩ := (inner_of_double hr).1 hdouble
    have hmS : m ∈ S := hS m (by simp)
    obtain ⟨t1, hold1, hext1, hrest⟩ := fixRightHeavy_double_eq h hdouble
    obtain ⟨t2, hrun2, -, hI2, -⟩ := avlnodeUpdate_holds hcb hold1 hmS (by rw [hext1]; exact hI)
    obtain ⟨t3, hold3, hext3, hrun⟩ := hrest update t2 hrun2
    obtain ⟨t4, hrun4, hold4, hI4, -⟩ := avlnodeUpdate_holds hcb hold3 hpS (by rw [hext3]; exact hI2)
    exact ⟨m, t4, by rw [hrun, hrun4]; rfl, _, _, hold4, by simp, hI4⟩
  · obtain ⟨t', _, hrun, hI', hold, _⟩ := fixRightHeavy_single hcb h hpS hI hdouble
    exact ⟨q, t', hrun, _, _, hold, by simp, hI'⟩

theorem fixLeftHeavy_spec (hpos : 0 < t.nodeHeight (t.nodes p).left) :
    ∃ q t', t.fixLeftHeavy p update = .ok (q, t') ∧ Turned I c (.node p l r) q t' := by
  obtain ⟨_, _, rfl, _, hl, _⟩ := rep_plug.mp h.rep
  obtain ⟨q, a, b, rfl⟩ := node_of_height_pos hl hpos
  have hpS : p ∈ S := hS p (by simp)
  by_cases hdouble : t.LeansRight q
  · obtain ⟨m, b1, b2, rfl⟩ := (inner_of_double hl).2 hdouble
    obtain ⟨t3, hold3, hext3, hrun⟩ := fixLeftHeavy_double_eq h hdouble
    obtain ⟨t4, hrun4, hold4, hI4, -⟩ := avlnodeUpdate_holds hcb hold3 hpS (by rw [hext3]; exact hI)
    exact ⟨m, t4, by rw [hrun, hrun4]; rfl, _, _, hold4, by simp, hI4⟩
  · obtain ⟨t', _, hrun, hI', hold, _⟩ := fixLeftHeavy_single hcb h hpS hI hdouble
    exact ⟨q, t', hrun, _, _, hold, by simp, hI'⟩

theorem rebalance_spec :
    ∃ q t', t.rebalance p update = .ok (q, t') ∧ Turned I c (.node p l r) q t' := by
  unfold rebalance
  dsimp only
  split
  · rename_i hbal
    exact fixRightHeavy_spec hcb h hS hI (by unfold nodeBalance at hbal; omega)
  · split
    · rename_i hbal
      exact fixLeftHeavy_spec hcb h hS hI (by unfold nodeBalance at hbal; omega)
    · exact ⟨p, _, rfl, l, r, h.of_links (links_resetNodeHeight _ _) rfl, rfl, hI⟩

/-- One turn of the loop, whatever heights it reads. -/
theorem fixupStep_spec :
    ∃ q t', t.fixupStep p update = .ok (q, t') ∧ Turned I c (.node p l r) q t' := by
  obtain ⟨q, t1, hrun, l', r', hold, hsame, hI1⟩ := rebalance_spec hcb h hS hI
  obtain ⟨t2, hrun2, hold2, hI2, -⟩ := avlnodeUpdate_holds hcb hold
    (hS q (by rw [← hsame]; simp)) hI1
  refine ⟨q, t2, ?_, l', r', hold2, hsame, hI2⟩
  unfold fixupStep
  simp only [hrun, ok_bind, hrun2, pure_eq_ok]

end

/--
**Rebalancing keeps the nodes and their order**, from any node up, with any stored heights, and
never follows a NULL child.
-/
theorem avltreeFixup_spec (hcb : CallbackOk I S update) : ∀ (c : Ctx Ptr) {t : AvlTree α}
    {T : BinaryTree Ptr} (fuel : Nat), Holds t (plug c T) → (∀ x ∈ inorder (plug c T), x ∈ S) →
    I t.ext → c.length ≤ fuel →
    ∃ t' T', avltreeFixup update fuel t c.parent = .ok t' ∧ Holds t' T' ∧
      inorder T' = inorder (plug c T) ∧ I t'.ext
  | [], t, T, fuel, h, _, hI, _ => by
    refine ⟨t, T, ?_, h, rfl, hI⟩
    cases fuel <;> rfl
  | f :: c, t, T, fuel, h, hS, hI, hfuel => by
    match fuel, hfuel with
    | fuel + 1, hfuel =>
      -- the frame next to the hole is the node this turn works on
      obtain ⟨p, l, r, hp, hplug⟩ : ∃ p l r, Ctx.parent (f :: c) = some p ∧
          f.plug T = .node p l r := by
        cases f with
        | left p r => exact ⟨p, T, r, rfl, rfl⟩
        | right l p => exact ⟨p, l, T, rfl, rfl⟩
      rw [plug, hplug] at h hS
      obtain ⟨q, t1, hrun, l', r', hold, hsame, hI1⟩ := fixupStep_spec hcb h (fun x hx => hS x (by
          rw [inorder_plug]
          exact mem_append_left _ (mem_append_right _ hx))) hI
      have hwhole : inorder (plug c (.node q l' r')) = inorder (plug c (.node p l r)) := by
        rw [inorder_plug, inorder_plug, hsame]
      obtain ⟨_, _, rfl, hpar, _⟩ := rep_plug.mp hold.rep
      have hpar' : (t1.nodes q).parent = Ctx.parent c := hpar
      obtain ⟨t', T', hrun', hold', hsame', hI'⟩ := avltreeFixup_spec hcb c fuel hold
        (by rw [hwhole]; exact hS) hI1 (by simpa using hfuel)
      refine ⟨t', T', ?_, hold', ?_, hI'⟩
      · rw [hp, avltreeFixup, hrun]
        simp only [ok_bind, hpar']
        exact hrun'
      · rw [hsame', hwhole, plug, hplug]

end Fixup

end OsKernel.Adt.AvlTree
