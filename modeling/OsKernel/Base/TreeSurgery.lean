import OsKernel.Base.LinkedTree

/-!
# Rearranging a tree in memory

The rearrangements that balanced trees are built from, each given as the links after
it in terms of the links before: rotations, and a node changing places with the node
that follows it. None of them looks at the order of the nodes or at their balance.
-/

namespace OsKernel.LinkedTree

open List

variable {P : Type} [DecidableEq P] {H H' : P → TreeLinks P} {at_ par : Option P}
  {a b c : BinaryTree P} {left p q s : P}

/-! ## Rotations -/

/-- The links of `H'` are those of `H` after the right child `q` of `p` was rotated to the top. -/
def RotatedLeft (H H' : P → TreeLinks P) (p q : P) : Prop :=
  ∀ x, H' x = if x = q then ⟨(H p).parent, some p, (H q).right⟩
    else if some x = (H q).left then { H x with parent := some p }
    else if x = p then ⟨some q, (H p).left, (H q).left⟩ else H x

/-- The same with left and right exchanged. -/
def RotatedRight (H H' : P → TreeLinks P) (p q : P) : Prop :=
  ∀ x, H' x = if x = q then ⟨(H p).parent, (H q).left, some p⟩
    else if some x = (H q).right then { H x with parent := some p }
    else if x = p then ⟨some q, (H q).right, (H p).right⟩ else H x

theorem Rep.rotateLeft (h : Rep H (.node p a (.node q b c)) par at_)
    (hnd : (inorder (.node p a (.node q b c))).Nodup) (hrot : RotatedLeft H H' p q) :
    Rep H' (.node q (.node p a b) c) par (some q) := by
  obtain ⟨rfl, hpar, ha, hqp, hq, hb, hc⟩ := h
  simp only [inorder_node, nodup_append, nodup_cons, mem_append, mem_cons, not_or] at hnd
  obtain ⟨-, ⟨⟨hpb, hpq, hpc⟩, hndb, ⟨hqc, -⟩, hbqc⟩, hapq⟩ := hnd
  have hbTop := hb.at_mem
  -- of the five pieces only the two nodes and the top of `b` change
  have hrest : ∀ x, x ≠ q → x ≠ p → some x ≠ (H q).left → H' x = H x := by
    intro x h1 h2 h3
    rw [hrot x, if_neg h1, if_neg h3, if_neg h2]
  have hq' : H' q = ⟨(H p).parent, some p, (H q).right⟩ := by rw [hrot q, if_pos rfl]
  have hp' : H' p = ⟨some q, (H p).left, (H q).left⟩ := by
    rw [hrot p, if_neg hpq, if_neg fun e => hpb (hbTop p e.symm), if_pos rfl]
  refine ⟨rfl, by rw [hq']; exact hpar, ?_, ?_⟩
  · rw [hq']
    refine ⟨rfl, by rw [hp'], ?_, ?_⟩
    · rw [hp']
      refine ha.congr fun x hx => hrest x ?_ ?_ ?_
      · rintro rfl
        exact hapq x hx x (.inr (.inr (.inl rfl))) rfl
      · rintro rfl
        exact hapq x hx x (.inl rfl) rfl
      · intro e
        exact hapq x hx x (.inr (.inl (hbTop x e.symm))) rfl
    · rw [hp']
      refine hb.reparent hndb ?_ ?_
      · intro x hx
        have hxq : x ≠ q := by
          rintro rfl
          exact hbqc x (hbTop x hx) x (.inl rfl) rfl
        rw [hrot x, if_neg hxq, if_pos hx.symm]
      · intro x hx hxTop
        refine hrest x ?_ ?_ hxTop
        · rintro rfl
          exact hbqc x hx x (.inl rfl) rfl
        · rintro rfl
          exact hpb hx
  · rw [hq']
    refine hc.congr fun x hx => hrest x ?_ ?_ ?_
    · rintro rfl
      exact hqc hx
    · rintro rfl
      exact hpc hx
    · intro e
      exact hbqc x (hbTop x e.symm) x (.inr hx) rfl

theorem Rep.rotateRight (h : Rep H (.node p (.node q a b) c) par at_)
    (hnd : (inorder (.node p (.node q a b) c)).Nodup) (hrot : RotatedRight H H' p q) :
    Rep H' (.node q a (.node p b c)) par (some q) := by
  have hmir := h.mirror
  have hnd' : (inorder (LinkedTree.mirror (.node p (.node q a b) c))).Nodup := by
    rw [inorder_mirror]
    exact nodup_reverse.mpr hnd
  have hrot' : RotatedLeft (fun x => ⟨(H x).parent, (H x).right, (H x).left⟩)
      (fun x => ⟨(H' x).parent, (H' x).right, (H' x).left⟩) p q := by
    intro x
    dsimp only
    rw [hrot x]
    split
    · rfl
    · split
      · rfl
      · split <;> rfl
  have hback := (hmir.rotateLeft hnd' hrot').mirror
  simpa only [LinkedTree.mirror, mirror_mirror] using hback

/-! ## Changing places with the successor -/

/-- The links after `p` changed places with its right child `s`, which has no left child. -/
def SwappedNear (H H' : P → TreeLinks P) (p left s : P) : Prop :=
  ∀ x, H' x = if x = p then ⟨some s, none, (H s).right⟩
    else if x = s then ⟨(H p).parent, some left, some p⟩
    else if x = left then { H x with parent := some s }
    else if some x = (H s).right then { H x with parent := some p } else H x

theorem Rep.swapNear {ll lr sr : BinaryTree P}
    (h : Rep H (.node p (.node left ll lr) (.node s .nil sr)) par at_)
    (hnd : (inorder (.node p (.node left ll lr) (.node s .nil sr))).Nodup)
    (hswap : SwappedNear H H' p left s) :
    Rep H' (.node s (.node left ll lr) (.node p .nil sr)) par (some s) := by
  obtain ⟨rfl, hpar, hl, hright, hspar, hsleft, hsr⟩ := h
  have hsrTop := hsr.at_mem
  rw [inorder_node] at hnd
  simp only [inorder_node (p := s), inorder_nil, nil_append] at hnd
  obtain ⟨hndl, hndr, hlr⟩ := nodup_append.mp hnd
  obtain ⟨hpr, hndr⟩ := nodup_cons.mp hndr
  obtain ⟨hssr, hndsr⟩ := nodup_cons.mp hndr
  simp only [mem_cons, not_or] at hpr hlr
  obtain ⟨hps, hpsr⟩ := hpr
  have hsp : s ≠ p := fun e => hps e.symm
  -- the nodes of the left subtree are none of the others
  have hleft : ∀ x ∈ inorder (.node left ll lr), x ≠ p ∧ x ≠ s ∧ x ∉ inorder sr := fun x hx =>
    ⟨hlr x hx p (.inl rfl), hlr x hx s (.inr (.inl rfl)), fun hm => hlr x hx x (.inr (.inr hm)) rfl⟩
  obtain ⟨hlp, hls, hlsr⟩ := hleft left (by simp)
  have hkeep : ∀ x, x ≠ p → x ≠ s → x ≠ left → some x ≠ (H s).right → H' x = H x := by
    intro x h1 h2 h3 h4
    rw [hswap x, if_neg h1, if_neg h2, if_neg h3, if_neg h4]
  have hp' : H' p = ⟨some s, none, (H s).right⟩ := by rw [hswap p, if_pos rfl]
  have hs' : H' s = ⟨(H p).parent, some left, some p⟩ := by
    rw [hswap s, if_neg hsp, if_pos rfl]
  refine ⟨rfl, by rw [hs']; exact hpar, ?_, ?_⟩
  · rw [hs', ← hl.1]
    refine hl.reparent hndl ?_ ?_
    · intro x hx
      obtain rfl : left = x := by simpa [hl.1] using hx
      rw [hswap left, if_neg hlp, if_neg hls, if_pos rfl]
    · intro x hx hne
      obtain ⟨h1, h2, h3⟩ := hleft x hx
      refine hkeep x h1 h2 ?_ fun e => h3 (hsrTop x e.symm)
      rintro rfl
      exact hne hl.1.symm
  · rw [hs']
    refine ⟨rfl, by rw [hp'], by rw [hp']; rfl, ?_⟩
    rw [hp']
    refine hsr.reparent hndsr ?_ ?_
    · intro x hx
      have hxsr := hsrTop x hx
      have h1 : x ≠ p := fun e => hpsr (e ▸ hxsr)
      have h2 : x ≠ s := fun e => hssr (e ▸ hxsr)
      have h3 : x ≠ left := fun e => hlsr (e ▸ hxsr)
      rw [hswap x, if_neg h1, if_neg h2, if_neg h3, if_pos hx.symm]
    · intro x hx hne
      refine hkeep x ?_ ?_ ?_ hne <;> rintro rfl
      · exact hpsr hx
      · exact hssr hx
      · exact hlsr hx

/--
The links after `p` changed places with a node `s` without left child further down: `top` is the
right child of `p`, and `s` was the left child of `above_`.
-/
def SwappedFar (H H' : P → TreeLinks P) (p left top above_ s : P) : Prop :=
  ∀ x, H' x = if x = p then ⟨some above_, none, (H s).right⟩
    else if x = s then ⟨(H p).parent, some left, some top⟩
    else ⟨if x = left ∨ x = top then some s
      else if some x = (H s).right then some p else (H x).parent,
      if x = above_ then some p else (H x).left, (H x).right⟩

/-- The nodes that a far exchange tells apart. -/
structure FarApart (p left top above_ s : P) (l sr : List P) (seg : List P) : Prop where
  nodupLeft : l.Nodup
  nodupSr : sr.Nodup
  nodupSeg : seg.Nodup
  swapped : (p :: (sr ++ seg)).Nodup
  inLeft : ∀ x ∈ l, x ≠ p ∧ x ≠ s ∧ x ∉ sr ∧ x ∉ seg
  inSeg : ∀ x ∈ seg, x ≠ p ∧ x ≠ s ∧ x ≠ left ∧ x ∉ sr
  inSr : ∀ x ∈ sr, x ≠ p ∧ x ≠ s ∧ x ≠ left ∧ x ≠ top ∧ x ≠ above_
  ne : s ≠ p

omit [DecidableEq P] in
theorem farApart_of_nodup {top above_ : P} {l sr seg : List P} (hleft : left ∈ l) (htop : top ∈ seg)
    (habove : above_ ∈ seg) (h : (l ++ p :: s :: (sr ++ seg)).Nodup) :
    FarApart p left top above_ s l sr seg := by
  obtain ⟨hndl, hndr, hlr⟩ := nodup_append.mp h
  obtain ⟨hpr, hndr⟩ := nodup_cons.mp hndr
  obtain ⟨hs, hndr⟩ := nodup_cons.mp hndr
  obtain ⟨hndsr, hndseg, hapart⟩ := nodup_append.mp hndr
  simp only [mem_cons, mem_append, not_or] at hpr hs hlr
  have hl : ∀ x ∈ l, x ≠ p ∧ x ≠ s ∧ x ∉ sr ∧ x ∉ seg := fun x hx =>
    ⟨hlr x hx p (.inl rfl), hlr x hx s (.inr (.inl rfl)),
      fun hm => hlr x hx x (.inr (.inr (.inl hm))) rfl,
      fun hm => hlr x hx x (.inr (.inr (.inr hm))) rfl⟩
  refine ⟨hndl, hndsr, hndseg, nodup_cons.mpr ⟨by simp [hpr.2.1, hpr.2.2], hndr⟩, hl, ?_, ?_,
    fun e => hpr.1 e.symm⟩
  · intro x hx
    refine ⟨?_, ?_, ?_, fun hm => hapart x hm x hx rfl⟩ <;> rintro rfl
    · exact hpr.2.2 hx
    · exact hs.2 hx
    · exact (hl x hleft).2.2.2 hx
  · intro x hx
    refine ⟨?_, ?_, ?_, ?_, ?_⟩ <;> rintro rfl
    · exact hpr.2.1 hx
    · exact hs.1 hx
    · exact (hl x hleft).2.2.1 hx
    · exact hapart x hx x htop rfl
    · exact hapart x hx x habove rfl

section Far

variable {p left top above_ s : P} {ll lr sr r : BinaryTree P} {d : Ctx P}

theorem SwappedFar.keep (hswap : SwappedFar H H' p left top above_ s) {x : P} (h1 : x ≠ p)
    (h2 : x ≠ s) (h3 : x ≠ left) (h4 : x ≠ top) (h5 : x ≠ above_) (h6 : some x ≠ (H s).right) :
    H' x = H x := by
  rw [hswap x, if_neg h1, if_neg h2, if_neg (not_or.mpr ⟨h3, h4⟩), if_neg h6, if_neg h5]

/--
In the segment from `top` down to the hole the two ends change: the link to `s`, and the parent
of `top`. With the second one undone this is a write to a hole.
-/
theorem RepCtx.swapFar (hswap : SwappedFar H H' p left top above_ s) (hd : before d = [])
    (hseg : RepCtx H (some p) (some top) (.left above_ r :: d) (some s))
    (htop : (H top).parent = some p) (hsr : Rep H sr (some s) (H s).right)
    (hrepSr : Rep H' sr (some p) (H s).right) (htopMem : top ∈ after (.left above_ r :: d))
    (hapart : FarApart p left top above_ s (inorder (.node left ll lr)) (inorder sr)
      (after (.left above_ r :: d))) :
    Rep H' (plug (.left above_ r :: d) (.node p .nil sr)) (some s) (some top) := by
  obtain ⟨htp, hts, htl, htsr⟩ := hapart.inSeg top htopMem
  obtain ⟨hap, has, hal, hasr⟩ := hapart.inSeg above_ (by simp [after])
  have hsrNe : ∀ {x}, x ∉ inorder sr → some x ≠ (H s).right :=
    fun hx e => hx (hsr.at_mem _ e.symm)
  set mid : P → TreeLinks P := fun x => if x = top then { H' x with parent := some p } else H' x
    with hmid
  have htop' : H' top = ⟨some s, if top = above_ then some p else (H top).left, (H top).right⟩ := by
    rw [hswap top, if_neg htp, if_neg hts, if_pos (.inr rfl)]
  have hmidTop : mid top
      = ⟨some p, if top = above_ then some p else (H top).left, (H top).right⟩ := by
    simp only [hmid, if_true, htop']
  have hmidNe : ∀ x, x ≠ top → mid x = H' x := fun x hx => by simp only [hmid, if_neg hx]
  have hsegment : RepCtx mid (some p) (some top) (.left above_ r :: d) (some p) := by
    refine hseg.relink ?_ ⟨rfl, ?_⟩ ?_
    · simpa [before, hd] using hapart.nodupSeg
    · by_cases hta : above_ = top
      · subst hta
        rw [hmidTop, if_pos rfl]
        simp only [htop]
      · rw [hmidNe _ hta, hswap above_, if_neg hap, if_neg has, if_neg (not_or.mpr ⟨hal, hta⟩),
          if_neg (hsrNe hasr), if_pos rfl]
    · intro x hx hne
      have hxseg : x ∈ after (.left above_ r :: d) := by simpa [before, hd] using hx
      have hxa : x ≠ above_ := fun e => hne (by rw [e]; rfl)
      obtain ⟨h1, h2, h3, h4⟩ := hapart.inSeg x hxseg
      by_cases hxt : x = top
      · subst hxt
        rw [hmidTop, if_neg hxa, ← htop]
      · rw [hmidNe x hxt]
        exact hswap.keep h1 h2 h3 hxt hxa (hsrNe h4)
  have hhole : Rep mid (.node p .nil sr) (above (some p) (.left above_ r :: d)) (some p) := by
    have hp : mid p = ⟨some above_, none, (H s).right⟩ := by
      rw [hmidNe p htp.symm, hswap p, if_pos rfl]
    refine ⟨rfl, by rw [hp]; rfl, by rw [hp]; rfl, ?_⟩
    rw [hp]
    exact hrepSr.congr fun x hx => hmidNe x fun e => htsr (e ▸ hx)
  refine (rep_plug.mpr ⟨_, hsegment, hhole⟩).reparent ?_ ?_ ?_
  · rw [inorder_plug]
    simpa [before, hd] using hapart.swapped
  · rintro x ⟨⟩
    rw [hmidTop, htop']
  · intro x _ hne
    exact (hmidNe x fun e => hne (by rw [e])).symm

theorem Rep.swapFar (hd : before d = [])
    (h : Rep H (.node p (.node left ll lr) (plug (.left above_ r :: d) (.node s .nil sr))) par at_)
    (hright : (H p).right = some top) (htopMem : top ∈ after (.left above_ r :: d))
    (hapart : FarApart p left top above_ s (inorder (.node left ll lr)) (inorder sr)
      (after (.left above_ r :: d)))
    (hswap : SwappedFar H H' p left top above_ s) :
    Rep H' (.node s (.node left ll lr) (plug (.left above_ r :: d) (.node p .nil sr))) par
      (some s) := by
  obtain ⟨rfl, hpar, hl, hr⟩ := h
  rw [hright] at hr
  obtain ⟨_, hseg, rfl, -, -, hsr⟩ := rep_plug.mp hr
  obtain ⟨hlp, hls, -, -⟩ := hapart.inLeft left (by simp)
  obtain ⟨-, -, hal, -⟩ := hapart.inSeg above_ (by simp [after])
  have hs' : H' s = ⟨(H p).parent, some left, some top⟩ := by
    rw [hswap s, if_neg hapart.ne, if_pos rfl]
  have hrepSr : Rep H' sr (some p) (H s).right := by
    refine hsr.reparent hapart.nodupSr ?_ ?_
    · intro x hx
      obtain ⟨h1, h2, h3, h4, h5⟩ := hapart.inSr x (hsr.at_mem x hx)
      rw [hswap x, if_neg h1, if_neg h2, if_neg (not_or.mpr ⟨h3, h4⟩), if_pos hx.symm, if_neg h5]
    · intro x hx hne
      obtain ⟨h1, h2, h3, h4, h5⟩ := hapart.inSr x hx
      exact hswap.keep h1 h2 h3 h4 h5 hne
  refine ⟨rfl, by rw [hs']; exact hpar, ?_, ?_⟩
  · rw [hs', ← hl.1]
    refine hl.reparent hapart.nodupLeft ?_ ?_
    · intro x hx
      obtain rfl : left = x := by simpa [hl.1] using hx
      rw [hswap left, if_neg hlp, if_neg hls, if_pos (.inl rfl), if_neg (Ne.symm hal)]
    · intro x hx hne
      obtain ⟨h1, h2, h3, h4⟩ := hapart.inLeft x hx
      refine hswap.keep h1 h2 ?_ ?_ ?_ fun e => h3 (hsr.at_mem x e.symm)
      · rintro rfl
        exact hne hl.1.symm
      · rintro rfl
        exact h4 htopMem
      · rintro rfl
        exact h4 (by simp [after])
  · rw [hs']
    exact RepCtx.swapFar hswap hd hseg hr.parent_eq hsr hrepSr htopMem hapart

end Far

end OsKernel.LinkedTree
