import OsKernel.Adt.AvlHeap
import OsKernel.Base.BalancedTree
import OsKernel.Base.FoldedTree

/-!
# Deleting a node

A node with two children first changes places with its successor: up to seven links
are rewritten by hand, in one order if the successor is the right child and in
another if it is further down. In both cases what results is a tree again, with the
two nodes exchanged. The node then has no left child, and its only child, if any,
takes its place. Rebalancing starts at the node above.
-/

namespace OsKernel.Adt.AvlTree

open List hiding after

open LinkedTree Function

variable {α : Type} {t : AvlTree α} {c d : Ctx Ptr} {p left s : Ptr} {l r ll lr sr : BinaryTree Ptr}
  {fuel : Nat}

/-! ## Writes that do not meet -/

theorem store_setParent_comm {q : Ptr} {v w : Option Ptr} (hq : some q ≠ c.parent) :
    (t.store (ctxLink c) v).setParent q w = (t.setParent q w).store (ctxLink c) v := by
  match c with
  | [] => rfl
  | .left p r :: c =>
    have hne : q ≠ p := fun e => hq (by rw [e]; rfl)
    simp only [ctxLink, store, setParent, setLeft, modify, update_of_ne hne,
      update_of_ne hne.symm, update_comm hne]
  | .right l p :: c =>
    have hne : q ≠ p := fun e => hq (by rw [e]; rfl)
    simp only [ctxLink, store, setParent, setRight, modify, update_of_ne hne,
      update_of_ne hne.symm, update_comm hne]

/-! ## The successor -/

/-- The loop goes down the left spine: the successor is the first node of the subtree. -/
theorem leftEnd_spec : ∀ {xl : BinaryTree Ptr} {x : Ptr} {xr : BinaryTree Ptr}
    {par at_ : Option Ptr} (fuel : Nat), Rep t.links (.node x xl xr) par at_ → xl ≠ .nil →
    (inorder xl).length ≤ fuel →
    ∃ above_ s sr r c, t.leftEnd fuel x = .ok (above_, s) ∧
      .node x xl xr = plug (.left above_ r :: c) (.node s .nil sr) ∧ before c = []
  | .nil, _, _, _, _, _, _, hne, _ => absurd rfl hne
  | .node y yl yr, x, xr, par, at_, fuel, h, _, hfuel => by
    simp only [inorder_node, length_append, length_cons] at hfuel
    match fuel, hfuel with
    | fuel + 1, hfuel =>
      obtain ⟨_, _, hy, _⟩ := h
      have hleft : (t.nodes x).left = some y := hy.1
      have hnil : (t.nodes y).left = none ↔ yl = .nil := hy.2.2.1.at_none_iff
      rw [leftEnd, hleft]
      dsimp only
      by_cases hyl : yl = .nil
      · rw [if_pos (hnil.mpr hyl)]
        subst hyl
        exact ⟨x, y, yr, xr, [], rfl, rfl, rfl⟩
      · rw [if_neg fun e => hyl (hnil.mp e)]
        obtain ⟨above_, s, sr, r, c, hrun, hplug, hbefore⟩ := leftEnd_spec fuel hy hyl (by omega)
        refine ⟨above_, s, sr, r, c ++ [.left x xr], hrun, ?_, ?_⟩
        · rw [← cons_append, plug_append, ← hplug]
          rfl
        · rw [before_append, hbefore]
          rfl

/-! ## Changing places -/

theorem nodes_right (t : AvlTree α) (p : Ptr) : (t.nodes p).right = (t.links p).right := rfl
theorem nodes_parent (t : AvlTree α) (p : Ptr) : (t.nodes p).parent = (t.links p).parent := rfl

/-- The heights of two nodes exchanged. -/
def swapHeights (g : Ptr → Nat) (p s : Ptr) : Ptr → Nat :=
  Function.update (Function.update g p (g s)) s (g p)

theorem heights_exchange (t : AvlTree α) (p s : Ptr) :
    ((t.setHeight p (t.nodes s).height).setHeight s (t.nodes p).height).heights
      = swapHeights t.heights p s := by
  rw [heights_setHeight, heights_setHeight]
  rfl

/--
A node and the node at the left end of a subtree below it change places, and their heights with
them: every place of the tree keeps its height.
-/
theorem alike_exchange (g : Ptr → Nat)
    (hnd : (inorder (plug c (.node p l (plug d (.node s .nil sr))))).Nodup) :
    Alike g (swapHeights g p s) (plug c (.node p l (plug d (.node s .nil sr))))
      (plug c (.node s l (plug d (.node p .nil sr)))) := by
  set others := before c ++ inorder l ++ before d ++ inorder sr ++ after d ++ after c with hothers
  have hperm : (inorder (plug c (.node p l (plug d (.node s .nil sr))))).Perm (p :: s :: others) := by
    rw [perm_iff_count]
    simp only [hothers, inorder_plug, inorder_node, inorder_nil, nil_append,
      count_append, count_cons]
    omega
  obtain ⟨hp, hnd⟩ := nodup_cons.mp (hperm.nodup_iff.mp hnd)
  obtain ⟨hs, -⟩ := nodup_cons.mp hnd
  have hps : p ≠ s := fun e => hp (by simp [e])
  have hkeep : ∀ x ∈ others, swapHeights g p s x = g x := by
    intro x hx
    have hxs : x ≠ s := fun e => hs (e ▸ hx)
    have hxp : x ≠ p := fun e => hp (.tail _ (e ▸ hx))
    rw [swapHeights, update_of_ne hxs, update_of_ne hxp]
  refine Alike.plug ⟨?_, alike_self ?_, Alike.plug ⟨?_, trivial, alike_self ?_⟩ ?_⟩ ?_
  · rw [swapHeights, update_self]
  · intro x hx
    exact hkeep x (by simp [hothers, hx])
  · rw [swapHeights, update_of_ne hps, update_self]
  · intro x hx
    exact hkeep x (by simp [hothers, hx])
  · intro x hx
    refine hkeep x ?_
    rcases mem_append.mp hx with hx | hx <;> simp [hothers, hx]
  · intro x hx
    refine hkeep x ?_
    rcases mem_append.mp hx with hx | hx <;> simp [hothers, hx]

theorem swapNear_spec (h : Holds t (plug c (.node p (.node left ll lr) (.node s .nil sr)))) :
    (t.swapNear p left s (ctxLink c)).ext = t.ext ∧
    (t.swapNear p left s (ctxLink c)).heights = swapHeights t.heights p s ∧
    Holds (t.swapNear p left s (ctxLink c))
      (plug c (.node s (.node left ll lr) (.node p .nil sr))) := by
  obtain ⟨_, _, hrep⟩ := rep_plug.mp h.rep
  obtain ⟨-, hnd, hout⟩ := h.ctx_nodup
  have hsrTop := hrep.2.2.2.2.2.2.at_mem
  have hnd' := hnd
  simp only [inorder_node, inorder_nil, nil_append, nodup_append, nodup_cons,
    mem_append, mem_cons, not_or] at hnd'
  obtain ⟨-, ⟨⟨hps, hpsr⟩, hssr, -⟩, hlr⟩ := hnd'
  have hsp : s ≠ p := fun e => hps e.symm
  have hlp : left ≠ p := hlr left (.inr (.inl rfl)) p (.inl rfl)
  have hls : left ≠ s := hlr left (.inr (.inl rfl)) s (.inr (.inl rfl))
  have hlsr : left ∉ inorder sr := fun hm =>
    hlr left (.inr (.inl rfl)) left (.inr (.inr hm)) rfl
  have hsrNe : ∀ {x}, x ∉ inorder sr → some x ≠ (t.links s).right :=
    fun hx e => hx (hsrTop _ e.symm)
  set t0 := ((((((((t.setLeft p none).setRight p (t.links s).right).setLeft s (some left)).setRight s
    (some p)).setParent left (some s)).setParentOf (t.links s).right (some p)).setRight s
    (some p)).setParent s (t.links p).parent).setParent p (some s) with ht0
  have hswap : SwappedNear t.links t0.links p left s := by
    intro x
    simp only [ht0, links_setParent, links_setRight, links_setLeft, links_setParentOf]
    by_cases hxp : x = p
    · subst hxp
      simp [hsrNe hpsr, hps, hlp.symm]
    · by_cases hxs : x = s
      · subst hxs
        simp [hsrNe hssr, hxp, hls.symm]
      · by_cases hxl : x = left
        · subst hxl
          simp [hsrNe hlsr, hxp, hxs]
        · simp [hxp, hxs, hxl]
  have hold : Holds (t0.store (ctxLink c) (some s))
      (plug c (.node s (.node left ll lr) (.node p .nil sr))) := by
    refine h.replace ⟨by simp [ht0], by simp [ht0], ?_⟩ hout (hrep.swapNear hnd hswap) ?_
    · intro x hx
      simp only [inorder_node, inorder_nil, nil_append, mem_append, mem_cons, not_or] at hx
      rw [hswap x, if_neg hx.2.1, if_neg hx.2.2.1, if_neg hx.1.2.1, if_neg (hsrNe hx.2.2.2)]
    · refine (List.Perm.nodup_iff ?_).mp h.nodup
      rw [inorder_plug, inorder_plug]
      refine (List.Perm.append_left _ ?_).append_right _
      exact List.Perm.append_left _ (List.Perm.swap _ _ _)
  have hrun : t.swapNear p left s (ctxLink c) = ((t0.store (ctxLink c) (some s)).setHeight p
      ((t0.store (ctxLink c) (some s)).nodes s).height).setHeight s
      ((t0.store (ctxLink c) (some s)).nodes p).height := by
    simp only [swapNear, nodes_right, nodes_parent, links_setLeft, links_setRight, links_setParent,
      links_setParentOf, hsp, hps, hlp.symm, hsrNe hpsr, if_true, if_false]
    rfl
  rw [hrun]
  refine ⟨by simp [ht0], ?_, hold.of_links (by simp) (by simp)⟩
  rw [heights_exchange]
  simp [ht0]

theorem swapFar_spec {above_ : Ptr} (hd : before d = [])
    (h : Holds t (plug c (.node p (.node left ll lr)
      (plug (.left above_ r :: d) (.node s .nil sr))))) :
    ∃ t', t.swapFar p left above_ s (ctxLink c) = .ok t' ∧ t'.ext = t.ext ∧
      t'.heights = swapHeights t.heights p s ∧ Holds t' (plug c (.node s (.node left ll lr)
        (plug (.left above_ r :: d) (.node p .nil sr)))) := by
  obtain ⟨_, _, hrep⟩ := rep_plug.mp h.rep
  obtain ⟨-, hnd, hout⟩ := h.ctx_nodup
  have hr := hrep.2.2.2
  obtain ⟨_, hseg, rfl, -, -, hsr⟩ := rep_plug.mp hr
  -- the right child, at the top of the segment
  obtain ⟨top, htop⟩ : ∃ top, (t.links p).right = some top := by
    cases htop : (t.links p).right with
    | none =>
      have hnil := congrArg inorder (hr.at_none_iff.mp htop)
      rw [inorder_plug] at hnil
      simp at hnil
    | some top => exact ⟨top, rfl⟩
  have htopMem : top ∈ after (.left above_ r :: d) := by
    rw [htop] at hseg
    simpa [before, hd] using hseg.top_mem (by simp)
  rw [inorder_node, inorder_plug] at hnd
  have hapart : FarApart p left top above_ s (inorder (.node left ll lr)) (inorder sr)
      (after (.left above_ r :: d)) :=
    farApart_of_nodup (by simp) htopMem (by simp [after]) (by simpa [before, hd] using hnd)
  obtain ⟨hlp, hls, hlsr, -⟩ := hapart.inLeft left (by simp)
  obtain ⟨htp, hts, htl, htsr⟩ := hapart.inSeg top htopMem
  obtain ⟨hap, has, hal, hasr⟩ := hapart.inSeg above_ (by simp [after])
  have hps : p ≠ s := hapart.ne.symm
  have hsrNe : ∀ {x}, x ∉ inorder sr → some x ≠ (t.links s).right :=
    fun hx e => hx (hsr.at_mem _ e.symm)
  have hpsr : p ∉ inorder sr := fun hm => (hapart.inSr p hm).1 rfl
  have hssr : s ∉ inorder sr := fun hm => (hapart.inSr s hm).2.1 rfl
  set t1 := (((((((t.setLeft s (some left)).setParent left (some s)).setLeft p none).setRight p
    (t.links s).right).setRight s (some top)).setParent top (some s)).setParentOf (t.links s).right
    (some p)).setLeft above_ (some p) with ht1
  set t0 := (t1.setParent s (t.links p).parent).setParent p (some above_) with ht0
  have hswap : SwappedFar t.links t0.links p left top above_ s := by
    intro x
    simp only [ht0, ht1, links_setParent, links_setRight, links_setLeft, links_setParentOf]
    by_cases hxp : x = p
    · subst hxp
      simp [hsrNe hpsr, hps, hlp.symm, hap.symm, htp.symm]
    · by_cases hxs : x = s
      · subst hxs
        simp [hsrNe hssr, hxp, hls.symm, has.symm, hts.symm]
      · by_cases hxa : x = above_
        · subst hxa
          by_cases hxt : x = top
          · subst hxt
            simp [hsrNe hasr, hxp, hxs, hal]
          · simp [hsrNe hasr, hxp, hxs, hal, hxt]
        · by_cases hxl : x = left
          · subst hxl
            simp [hsrNe hlsr, hxp, hxs, hxa]
          · by_cases hxt : x = top
            · subst hxt
              simp [hsrNe htsr, hxp, hxs, hxl, hxa]
            · by_cases hxsr : some x = (t.links s).right
              · simp [hxp, hxs, hxl, hxt, hxsr, hxa]
              · simp [hxp, hxs, hxl, hxt, hxsr, hxa]
  have hold : Holds (t0.store (ctxLink c) (some s)) (plug c (.node s (.node left ll lr)
      (plug (.left above_ r :: d) (.node p .nil sr)))) := by
    refine h.replace ⟨by simp [ht0, ht1], by simp [ht0, ht1], ?_⟩ hout
      (hrep.swapFar hd htop htopMem hapart hswap) ?_
    · intro x hx
      rw [inorder_node, inorder_plug] at hx
      simp only [before, hd, inorder_node, inorder_nil, nil_append, cons_append,
        mem_append, mem_cons, not_or] at hx
      refine hswap.keep hx.2.1 hx.2.2.1 hx.1.2.1 ?_ ?_ (hsrNe hx.2.2.2.1)
      · rintro rfl
        exact hx.2.2.2.2 htopMem
      · rintro rfl
        exact hx.2.2.2.2 (by simp [after])
    · refine (List.Perm.nodup_iff ?_).mp h.nodup
      rw [inorder_plug, inorder_plug]
      refine (List.Perm.append_left _ ?_).append_right _
      simp only [inorder_node, inorder_plug, before, hd, inorder_nil, nil_append, cons_append]
      exact List.Perm.append_left _ (List.Perm.swap _ _ _)
  -- the code stores the link before it writes the last two parents
  have hctx : ∀ x ∈ inorder (.node p (.node left ll lr)
      (plug (.left above_ r :: d) (.node s .nil sr))), some x ≠ c.parent :=
    fun x hx e => hout x hx (Ctx.parent_mem e.symm)
  have hpc : some p ≠ c.parent := hctx p (by simp)
  have hsc : some s ≠ c.parent := hctx s (by rw [inorder_node, inorder_plug]; simp)
  refine ⟨((t0.store (ctxLink c) (some s)).setHeight p
      ((t0.store (ctxLink c) (some s)).nodes s).height).setHeight s
      ((t0.store (ctxLink c) (some s)).nodes p).height, ?_, by simp [ht0, ht1], ?_,
      hold.of_links (by simp) (by simp)⟩
  swap
  · rw [heights_exchange]
    simp [ht0, ht1]
  rw [ht0, ← store_setParent_comm hpc, ← store_setParent_comm hsc]
  simp only [swapFar, nodes_right, nodes_parent, store_links_other hpc, links_setLeft,
    links_setRight, links_setParent, links_setParentOf, hps, hapart.ne, hlp.symm, hls.symm,
    htp.symm, hap.symm, hsrNe hpsr, htop, if_true, if_false]
  rfl

/-- Whichever way it goes, the node ends up with at most one child, the others in order. -/
theorem swapWithSuccessor_spec (fuel : Nat) (h : Holds t (plug c (.node p l r)))
    (hfuel : (inorder r).length ≤ fuel) :
    ∃ t' c' l' r', t.swapWithSuccessor fuel p = .ok (ctxLink c', c'.parent, t') ∧
      t'.ext = t.ext ∧ Holds t' (plug c' (.node p l' r')) ∧ (l' = .nil ∨ r' = .nil) ∧
      Alike t.heights t'.heights (plug c (.node p l r)) (plug c' (.node p l' r')) ∧
      before c' ++ (inorder l' ++ inorder r') ++ after c'
        = before c ++ (inorder l ++ inorder r) ++ after c ∧
      ∀ Q : BinaryTree Ptr → Prop, Hereditary Q → Q (plug c (.node p l r)) →
        Q l' ∧ Q r' ∧ Sides Q c' := by
  obtain ⟨_, _, rfl, hpar, hl, hr⟩ := rep_plug.mp h.rep
  -- what is beside the node, whatever changes places with it
  have hbelow (Q : BinaryTree Ptr → Prop) (hQ : Hereditary Q) (hin : Q (plug c (.node p l r))) :
      Q l ∧ Q r ∧ Sides Q c := by
    obtain ⟨hnode, hc⟩ := hQ.of_plug hin
    obtain ⟨hl, hr⟩ := hQ p l r hnode
    exact ⟨hl, hr, hc⟩
  have hlink := getNodeLink_eq h
  have hpar' : (t.nodes p).parent = c.parent := hpar
  unfold swapWithSuccessor
  rw [hlink, hpar']
  cases l with
  | nil =>
    have hleft : (t.nodes p).left = none := hl
    rw [hleft]
    exact ⟨t, c, .nil, r, rfl, rfl, h, .inl rfl, alike_self fun _ _ => rfl, rfl, hbelow⟩
  | node left ll lr =>
    have hleft : (t.nodes p).left = some left := hl.1
    rw [hleft]
    cases r with
    | nil =>
      have hright : (t.nodes p).right = none := hr
      rw [hright]
      exact ⟨t, c, _, .nil, rfl, rfl, h, .inr rfl, alike_self fun _ _ => rfl, rfl, hbelow⟩
    | node s sl sr =>
      have hright : (t.nodes p).right = some s := hr.1
      rw [hright]
      have hnil : (t.nodes s).left = none ↔ sl = .nil := hr.2.2.1.at_none_iff
      dsimp only
      by_cases hsl : sl = .nil
      · -- the right child is the successor
        rw [if_pos (hnil.mpr hsl)]
        subst hsl
        obtain ⟨hext, hheights, hold⟩ := swapNear_spec h
        refine ⟨_, .right (.node left ll lr) s :: c, .nil, sr, rfl, hext, hold, .inl rfl, ?_, ?_, ?_⟩
        · rw [hheights]
          exact alike_exchange (d := []) t.heights h.nodup
        · simp [before, after]
        · intro Q hQ hin
          obtain ⟨hl, hs, hc⟩ := hbelow Q hQ hin
          obtain ⟨hnil, hsr⟩ := hQ s _ _ hs
          exact ⟨hnil, hsr, hl, hc⟩
      · -- the successor is at the left end of the right subtree
        rw [if_neg fun e => hsl (hnil.mp e)]
        simp only [inorder_node, length_append] at hfuel
        obtain ⟨above_, s', sr', r, d, hrun, hplug, hd⟩ := leftEnd_spec fuel hr hsl (by omega)
        rw [hplug] at h
        obtain ⟨t', hswap, hext, hheights, hold⟩ := swapFar_spec hd h
        refine ⟨t', .left above_ r :: d ++ .right (.node left ll lr) s' :: c, .nil, sr', ?_, hext,
          ?_, .inl rfl, ?_, ?_, ?_⟩
        · simp only [hrun, ok_bind, hswap]
          rfl
        · rw [plug_append]
          exact hold
        · rw [plug_append, hplug, hheights]
          exact alike_exchange t.heights h.nodup
        · rw [before_append, after_append, hplug, inorder_plug]
          simp [before, after, hd]
        · intro Q hQ hin
          obtain ⟨hl, hs, hc⟩ := hbelow Q hQ hin
          rw [hplug] at hs
          obtain ⟨hend, hsides⟩ := hQ.of_plug hs
          obtain ⟨hnil, hsr⟩ := hQ s' _ _ hend
          exact ⟨hnil, hsr, sides_append.mpr ⟨hsides, hl, hc⟩⟩

/-! ## Taking the node out -/

/-- A node with at most one child is replaced by that child. -/
theorem remove_holds (h : Holds t (plug c (.node p l r))) (hone : l = .nil ∨ r = .nil) :
    ∃ T, Holds ((t.store (ctxLink c) ((t.nodes p).left <|> (t.nodes p).right)).setParentOf
      ((t.nodes p).left <|> (t.nodes p).right) c.parent) (plug c T) ∧
      inorder T = inorder l ++ inorder r ∧ (l = .nil ∧ T = r ∨ r = .nil ∧ T = l) := by
  obtain ⟨_, _, rfl, hpar, hl, hr⟩ := rep_plug.mp h.rep
  obtain ⟨-, hnd, hout⟩ := h.ctx_nodup
  -- the only child, if there is one
  obtain ⟨T, hT, honly, hrep⟩ : ∃ T, inorder T = inorder l ++ inorder r ∧
      (l = .nil ∧ T = r ∨ r = .nil ∧ T = l) ∧
      Rep t.links T (some p) ((t.nodes p).left <|> (t.nodes p).right) := by
    rcases hone with rfl | rfl
    · have hleft : (t.nodes p).left = none := hl
      exact ⟨r, by simp, .inl ⟨rfl, rfl⟩, by rw [hleft]; exact hr⟩
    · have hright : (t.nodes p).right = none := hr
      have hor : ((t.nodes p).left <|> none) = (t.nodes p).left := by
        cases (t.nodes p).left <;> rfl
      exact ⟨l, by simp, .inr ⟨rfl, rfl⟩, by rw [hright, hor]; exact hl⟩
  set child := (t.nodes p).left <|> (t.nodes p).right with hchild
  refine ⟨T, ?_, hT, honly⟩
  have hTmem : ∀ x ∈ inorder T, x ∈ inorder (.node p l r) := by
    intro x hx
    rw [hT, mem_append] at hx
    rcases hx with hx | hx <;> simp [hx]
  have hTout : ∀ x ∈ inorder T, x ∉ before c ++ after c := fun x hx => hout x (hTmem x hx)
  have hchildNe : ∀ x ∈ before c ++ after c, some x ≠ child := fun x hx e =>
    hTout x (hrep.at_mem x e.symm) hx
  have hTndp : (inorder T).Nodup := by
    rw [inorder_node, nodup_middle, ← hT] at hnd
    exact (nodup_cons.mp hnd).2
  refine h.relink child ?_ ?_ ?_ ?_
  · match c with
    | [] => simp [Relinked, ctxLink, store]
    | .left q r' :: c =>
      have hq := hchildNe q (by simp [before, after])
      refine ⟨by simp [ctxLink, store], ?_⟩
      simp [ctxLink, store, links_setParentOf, links_setLeft, hq]
    | .right l' q :: c =>
      have hq := hchildNe q (by simp [before, after])
      refine ⟨by simp [ctxLink, store], ?_⟩
      simp [ctxLink, store, links_setParentOf, links_setRight, hq]
  · intro x hx hne
    rw [links_setParentOf, if_neg (hchildNe x hx), store_links_other hne]
  · refine hrep.reparent hTndp ?_ ?_
    · intro x hx
      rw [links_setParentOf, if_pos hx.symm, store_links_other]
      exact fun e => hTout x (hrep.at_mem x hx) (Ctx.parent_mem e.symm)
    · intro x hx hne
      rw [links_setParentOf, if_neg hne, store_links_other]
      exact fun e => hTout x hx (Ctx.parent_mem e.symm)
  · have hsub : (inorder (plug c T)).Sublist (inorder (plug c (.node p l r))) := by
      rw [inorder_plug, inorder_plug, hT, inorder_node]
      refine List.Sublist.append_right (List.Sublist.append_left ?_ _) _
      exact List.Sublist.append_left (sublist_cons_self _ _) _
    exact hsub.nodup h.nodup

/-- `avltree_delete_node` up to its call of `avltree_fixup`. -/
def unlinkNode (t : AvlTree α) (fuel : Nat) (node : Ptr) : Result (Option Ptr × AvlTree α) := do
  let (nodeLink, parent, t) ← t.swapWithSuccessor fuel node
  let firstChild := (t.nodes node).left <|> (t.nodes node).right
  let t := t.store nodeLink firstChild
  pure (parent, t.setParentOf firstChild parent)

theorem avltreeDeleteNode_eq (t : AvlTree α) (fuel : Nat) (node : Ptr)
    (update : Option (AvlCallback α)) :
    t.avltreeDeleteNode fuel node update =
      t.unlinkNode fuel node >>= fun r => avltreeFixup update fuel r.2 r.1 := by
  unfold avltreeDeleteNode unlinkNode
  rw [bind_assoc]
  rfl

/-- What is left of a tree when a node is taken out, with the hole at which rebalancing starts. -/
structure Unlinked (t t' : AvlTree α) (c : Ctx Ptr) (p : Ptr) (l r : BinaryTree Ptr) (c' : Ctx Ptr)
    (T : BinaryTree Ptr) : Prop where
  holds : Holds t' (plug c' T)
  ext : t'.ext = t.ext
  rest : inorder (plug c' T) = before c ++ (inorder l ++ inorder r) ++ after c
  sublist : (inorder (plug c' T)).Sublist (inorder (plug c (.node p l r)))
  /-- The exchange moves the nodes and leaves the heights in their places. -/
  avl : Avl t.heights (plug c (.node p l r)) →
    Avl t'.heights T ∧ ∃ h, CtxAvl t'.heights c' h ∧ Near T.height h
  /-- The subtrees that are left were there before. -/
  below : ∀ Q : BinaryTree Ptr → Prop, Hereditary Q → Q (plug c (.node p l r)) → Q T ∧ Sides Q c'

theorem unlinkNode_spec (h : Holds t (plug c (.node p l r)))
    (hfuel : (inorder (plug c (.node p l r))).length ≤ fuel) :
    ∃ c' T t', t.unlinkNode fuel p = .ok (Ctx.parent c', t') ∧ c'.length ≤ fuel ∧
      Unlinked t t' c p l r c' T := by
  rw [inorder_plug] at hfuel
  simp only [inorder_node, length_append, length_cons] at hfuel
  obtain ⟨t1, c', l', r', hswap, hext, hold, hone, halike, hsame, hbelow⟩ :=
    swapWithSuccessor_spec fuel h (by omega)
  obtain ⟨T, hold2, hT, honly⟩ := remove_holds hold hone
  have hwhole : inorder (plug c' T) = before c ++ (inorder l ++ inorder r) ++ after c := by
    rw [inorder_plug, hT, hsame]
  have hdepth := length_le_before_after c'
  have hlen := congrArg length hsame
  simp only [length_append] at hlen
  refine ⟨c', T, _, ?_, by omega, hold2, ?_, hwhole, ?_, ?_, ?_⟩
  · unfold unlinkNode
    simp only [hswap, ok_bind]
    rfl
  · rw [ext_setParentOf, ext_store, hext]
  · rw [hwhole, inorder_plug, inorder_node]
    exact ((List.Sublist.append_left (sublist_cons_self _ _) _).append_left _).append_right _
  · intro havl
    obtain ⟨hnode, hctx⟩ := (havl.alike halike).of_plug
    rw [heights_setParentOf, heights_store]
    have hbal := hnode.balanced.1
    unfold Near at hbal ⊢
    rcases honly with ⟨rfl, rfl⟩ | ⟨rfl, rfl⟩
    · exact ⟨hnode.right, _, hctx, by simp only [BinaryTree.height] at hbal ⊢; omega⟩
    · exact ⟨hnode.left, _, hctx, by simp only [BinaryTree.height] at hbal ⊢; omega⟩
  · intro Q hQ hin
    obtain ⟨hl, hr, hc⟩ := hbelow Q hQ hin
    rcases honly with ⟨_, rfl⟩ | ⟨_, rfl⟩
    · exact ⟨hr, hc⟩
    · exact ⟨hl, hc⟩


/-- **Deleting a node takes out that node and nothing else.** -/
theorem avltreeDeleteNode_spec {I : α → Prop} {S : Set Ptr} {update : Option (AvlCallback α)}
    (hcb : CallbackOk I S update) (h : Holds t (plug c (.node p l r)))
    (hS : ∀ x ∈ inorder (plug c (.node p l r)), x ∈ S) (hI : I t.ext)
    (hfuel : (inorder (plug c (.node p l r))).length ≤ fuel) :
    ∃ t' T', t.avltreeDeleteNode fuel p update = .ok t' ∧ Holds t' T' ∧
      inorder T' = before c ++ (inorder l ++ inorder r) ++ after c ∧ I t'.ext := by
  obtain ⟨c', T, t1, hunlink, hdepth, hout⟩ := unlinkNode_spec h hfuel
  obtain ⟨t', T', hfix, hold', hsame, hI'⟩ := avltreeFixup_spec hcb c' fuel hout.holds
    (fun x hx => hS x (hout.sublist.subset hx)) (by rw [hout.ext]; exact hI) hdepth
  refine ⟨t', T', ?_, hold', by rw [hsame, hout.rest], hI'⟩
  rw [avltreeDeleteNode_eq, hunlink]
  exact hfix

end OsKernel.Adt.AvlTree
