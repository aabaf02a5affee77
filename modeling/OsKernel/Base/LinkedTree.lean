import Mathlib

/-!
# Binary trees in memory

A tree whose nodes hold pointers to their children and to their parent is given by
a map from pointers to links and a root pointer. `Rep` says that the links below a
pointer spell out a given `BinaryTree` of pointers, `RepCtx` says the same of a tree
with one subtree cut out. Code that works at a node and then moves up is followed by
splitting the tree into such a context and the subtree at the node: a write is
local to one of the two, and what the code does not touch it keeps.

Nothing here depends on what the nodes carry besides their links. Rotations and other
rearrangements are in `TreeSurgery.lean`.
-/

namespace OsKernel

open List

/-- The links of one node. -/
structure TreeLinks (P : Type) where
  parent : Option P
  left : Option P
  right : Option P
  deriving DecidableEq, Repr

namespace LinkedTree

variable {P : Type} {p : P}

/-! ## Trees and contexts -/

/-- The pointers of a tree, left to right. -/
def inorder : BinaryTree P → List P
  | .nil => []
  | .node p l r => inorder l ++ p :: inorder r

@[simp] theorem inorder_nil : inorder (.nil : BinaryTree P) = [] := rfl

@[simp] theorem inorder_node (p : P) (l r : BinaryTree P) :
    inorder (.node p l r) = inorder l ++ p :: inorder r := rfl

/-- One step up: the node above, its other subtree, and the side we came from. -/
inductive Frame (P : Type) where
  | left (p : P) (right : BinaryTree P)
  | right (left : BinaryTree P) (p : P)

/-- A tree with a hole, the frame next to the hole first. -/
abbrev Ctx (P : Type) := List (Frame P)

def Frame.plug : Frame P → BinaryTree P → BinaryTree P
  | .left p r, t => .node p t r
  | .right l p, t => .node p l t

def plug : Ctx P → BinaryTree P → BinaryTree P
  | [], t => t
  | f :: c, t => plug c (f.plug t)

/-- The pointers left of the hole. -/
def before : Ctx P → List P
  | [] => []
  | .left _ _ :: c => before c
  | .right l p :: c => before c ++ inorder l ++ [p]

/-- The pointers right of the hole. -/
def after : Ctx P → List P
  | [] => []
  | .left p r :: c => p :: inorder r ++ after c
  | .right _ _ :: c => after c

/-- The pointer above the hole, `par` if the hole is all there is. -/
def above (par : Option P) : Ctx P → Option P
  | [] => par
  | .left p _ :: _ => some p
  | .right _ p :: _ => some p

/-- The pointer above the hole in a whole tree. -/
abbrev Ctx.parent (c : Ctx P) : Option P := above none c

theorem inorder_plug : ∀ (c : Ctx P) (t : BinaryTree P),
    inorder (plug c t) = before c ++ inorder t ++ after c
  | [], t => by simp [plug, before, after]
  | .left p r :: c, t => by simp [plug, Frame.plug, inorder_plug c, before, after]
  | .right l p :: c, t => by simp [plug, Frame.plug, inorder_plug c, before, after]

theorem plug_append : ∀ (c d : Ctx P) (t : BinaryTree P), plug (c ++ d) t = plug d (plug c t)
  | [], _, _ => rfl
  | f :: c, d, t => plug_append c d (f.plug t)

theorem before_append : ∀ c d : Ctx P, before (c ++ d) = before d ++ before c
  | [], d => by simp [before]
  | .left p r :: c, d => by simp [before, before_append c d]
  | .right l p :: c, d => by simp [before, before_append c d]

theorem after_append : ∀ c d : Ctx P, after (c ++ d) = after c ++ after d
  | [], d => by simp [after]
  | .left p r :: c, d => by simp [after, after_append c d]
  | .right l p :: c, d => by simp [after, after_append c d]

theorem length_le_before_after : ∀ c : Ctx P, c.length ≤ (before c).length + (after c).length
  | [] => Nat.zero_le _
  | .left p r :: c => by
    have := length_le_before_after c
    simp only [length_cons, before, after, cons_append, length_append]
    omega
  | .right l p :: c => by
    have := length_le_before_after c
    simp only [length_cons, before, after, length_append, length_nil]
    omega

/-- The node of a frame. -/
def Frame.top : Frame P → P
  | .left p _ => p
  | .right _ p => p

/-- The other subtree of that node. -/
def Frame.side : Frame P → BinaryTree P
  | .left _ r => r
  | .right l _ => l

section Frames

variable {f : Frame P} {c : Ctx P} {q : P}

theorem above_cons (par : Option P) : above par (f :: c) = some f.top := by
  cases f <;> rfl

theorem mem_ctx_cons : q ∈ before (f :: c) ++ after (f :: c) ↔
    q = f.top ∨ q ∈ inorder f.side ∨ q ∈ before c ++ after c := by
  cases f <;> simp [before, after, Frame.top, Frame.side] <;> tauto

theorem top_notMem (h : (before (f :: c) ++ after (f :: c)).Nodup) :
    ¬ (f.top ∈ inorder f.side ∨ f.top ∈ before c ++ after c) := by
  cases f with
  | left p r =>
    rw [before, after, cons_append, nodup_middle, nodup_cons] at h
    simp_all [Frame.top, Frame.side]
  | right l p =>
    rw [before, after, append_assoc, singleton_append, nodup_middle, nodup_cons] at h
    simp_all [Frame.top, Frame.side]

theorem Ctx.parent_mem (h : c.parent = some p) : p ∈ before c ++ after c := by
  match c with
  | f :: c =>
    rw [Ctx.parent, above_cons] at h
    exact mem_ctx_cons.mpr (.inl (Option.some.inj h).symm)

end Frames

/-! ## Trees in memory -/

/-- The links below `at_` spell out the tree, whose top has the parent `par`. -/
def Rep (H : P → TreeLinks P) : BinaryTree P → Option P → Option P → Prop
  | .nil, _, at_ => at_ = none
  | .node p l r, par, at_ => at_ = some p ∧ (H p).parent = par ∧
      Rep H l (some p) (H p).left ∧ Rep H r (some p) (H p).right

instance instDecidableRep [DecidableEq P] (H : P → TreeLinks P) :
    (t : BinaryTree P) → (par at_ : Option P) → Decidable (Rep H t par at_)
  | .nil, _, at_ => inferInstanceAs (Decidable (at_ = none))
  | .node p l r, par, at_ =>
    have := instDecidableRep H l (some p) (H p).left
    have := instDecidableRep H r (some p) (H p).right
    inferInstanceAs (Decidable (at_ = some p ∧ (H p).parent = par ∧
      Rep H l (some p) (H p).left ∧ Rep H r (some p) (H p).right))

/--
The links from `root` down to the hole spell out the context, whose top has the parent `par`;
`at_` is in the hole.
-/
def RepCtx (H : P → TreeLinks P) (par root : Option P) : Ctx P → Option P → Prop
  | [], at_ => root = at_
  | .left p r :: c, at_ => (H p).left = at_ ∧ (H p).parent = above par c ∧
      Rep H r (some p) (H p).right ∧ RepCtx H par root c (some p)
  | .right l p :: c, at_ => (H p).right = at_ ∧ (H p).parent = above par c ∧
      Rep H l (some p) (H p).left ∧ RepCtx H par root c (some p)

/-- The link of a frame's node in which the hole is. -/
def Frame.hole : Frame P → TreeLinks P → Option P
  | .left _ _, n => n.left
  | .right _ _, n => n.right

/-- The link to the other subtree. -/
def Frame.other : Frame P → TreeLinks P → Option P
  | .left _ _, n => n.right
  | .right _ _, n => n.left

section Memory

variable {H H' : P → TreeLinks P} {root root' at_ at' par par' : Option P} {f : Frame P} {c : Ctx P}
  {t : BinaryTree P}

theorem repCtx_cons : RepCtx H par root (f :: c) at_ ↔ f.hole (H f.top) = at_ ∧
    (H f.top).parent = above par c ∧ Rep H f.side (some f.top) (f.other (H f.top)) ∧
      RepCtx H par root c (some f.top) := by
  cases f <;> rfl

theorem rep_frame : Rep H (f.plug t) par at_ ↔ at_ = some f.top ∧
    (H f.top).parent = par ∧ Rep H t (some f.top) (f.hole (H f.top)) ∧
      Rep H f.side (some f.top) (f.other (H f.top)) := by
  cases f with
  | left p r => rfl
  | right l p =>
    rw [and_comm (a := Rep H t _ _)]
    rfl

theorem Rep.congr : ∀ {t : BinaryTree P} {par at_ : Option P}, Rep H t par at_ →
    (∀ p ∈ inorder t, H' p = H p) → Rep H' t par at_
  | .nil, _, _, h, _ => h
  | .node p l r, par, at_, h, heq => by
    obtain ⟨hat, hpar, hl, hr⟩ := h
    have hp : H' p = H p := heq p (by simp)
    refine ⟨hat, by rw [hp]; exact hpar, ?_, ?_⟩
    · rw [hp]
      exact hl.congr fun q hq => heq q (by simp [hq])
    · rw [hp]
      exact hr.congr fun q hq => heq q (by simp [hq])

theorem RepCtx.congr : ∀ {c : Ctx P} {at_ : Option P}, RepCtx H par root c at_ →
    (∀ p ∈ before c ++ after c, H' p = H p) → RepCtx H' par root c at_
  | [], _, h, _ => h
  | f :: c, at_, h, heq => by
    obtain ⟨hat, hpar, hside, hc⟩ := repCtx_cons.mp h
    have hp : H' f.top = H f.top := heq _ (mem_ctx_cons.mpr (.inl rfl))
    refine repCtx_cons.mpr ⟨by rw [hp]; exact hat, by rw [hp]; exact hpar, ?_, ?_⟩
    · rw [hp]
      exact hside.congr fun q hq => heq q (mem_ctx_cons.mpr (.inr (.inl hq)))
    · exact hc.congr fun q hq => heq q (mem_ctx_cons.mpr (.inr (.inr hq)))

theorem rep_plug : ∀ {c : Ctx P} {t : BinaryTree P},
    Rep H (plug c t) par root ↔ ∃ at_, RepCtx H par root c at_ ∧ Rep H t (above par c) at_
  | [], t => by simp [plug, RepCtx, above]
  | f :: c, t => by
    rw [plug, rep_plug (c := c), above_cons]
    simp only [repCtx_cons, rep_frame]
    constructor
    · rintro ⟨_, hc, rfl, hpar, ht, hside⟩
      exact ⟨_, ⟨rfl, hpar, hside, hc⟩, ht⟩
    · rintro ⟨_, ⟨rfl, hpar, hside, hc⟩, ht⟩
      exact ⟨_, hc, rfl, hpar, ht, hside⟩

theorem RepCtx.top_mem {top : P} : ∀ {c : Ctx P} {at_ : Option P}, RepCtx H par (some top) c at_ →
    c ≠ [] → top ∈ before c ++ after c
  | [], _, _, hne => absurd rfl hne
  | f :: c, _, h, _ => by
    obtain ⟨-, -, -, hc⟩ := repCtx_cons.mp h
    rw [mem_ctx_cons]
    by_cases hnil : c = []
    · subst hnil
      exact .inl (Option.some.inj hc)
    · exact .inr (.inr (hc.top_mem hnil))

theorem Rep.at_mem (h : Rep H t par at_) : ∀ p ∈ at_, p ∈ inorder t := by
  intro p hp
  cases t with
  | nil =>
    rw [show at_ = none from h] at hp
    simp at hp
  | node q l r =>
    rw [h.1] at hp
    simp_all

theorem Rep.parent_eq (h : Rep H t par (some p)) : (H p).parent = par := by
  cases t with
  | nil => exact absurd (show some p = none from h) (by simp)
  | node q l r =>
    obtain ⟨hp, hpar, -⟩ := h
    rw [Option.some.inj hp]
    exact hpar

theorem Rep.node_of_some (h : Rep H t par (some p)) : ∃ l r, t = .node p l r := by
  cases t with
  | nil => cases h
  | node q l r =>
    obtain ⟨hq, -⟩ := h
    cases hq
    exact ⟨l, r, rfl⟩

theorem Rep.at_none_iff (h : Rep H t par at_) : at_ = none ↔ t = .nil := by
  cases t with
  | nil => simp [show at_ = none from h]
  | node q l r => simp [h.1]

theorem Rep.reparent (h : Rep H t par at_) (hnd : (inorder t).Nodup)
    (htop : ∀ p ∈ at_, H' p = { H p with parent := par' })
    (hrest : ∀ p ∈ inorder t, some p ≠ at_ → H' p = H p) : Rep H' t par' at_ := by
  cases t with
  | nil => exact h
  | node p l r =>
    obtain ⟨rfl, hpar, hl, hr⟩ := h
    have hp := htop p rfl
    rw [inorder_node, nodup_append] at hnd
    obtain ⟨_, hnd, hdisj⟩ := hnd
    refine ⟨rfl, by rw [hp], ?_, ?_⟩
    · rw [hp]
      refine hl.congr fun q hq => hrest q (by simp [hq]) ?_
      rintro ⟨⟩
      exact hdisj p hq p (by simp) rfl
    · rw [hp]
      refine hr.congr fun q hq => hrest q (by simp [hq]) ?_
      rintro ⟨⟩
      exact (nodup_cons.mp hnd).1 hq

/-- The link that a hole is, holding `at'` now. -/
def Relinked (H : P → TreeLinks P) (root : Option P) (H' : P → TreeLinks P) (root' : Option P)
    (at' : Option P) : Ctx P → Prop
  | [] => root' = at'
  | .left p _ :: _ => root' = root ∧ H' p = { H p with left := at' }
  | .right _ p :: _ => root' = root ∧ H' p = { H p with right := at' }

theorem relinked_cons (h : Relinked H root H' root' at' (f :: c)) : root' = root ∧
    f.hole (H' f.top) = at' ∧ (H' f.top).parent = (H f.top).parent ∧
      f.other (H' f.top) = f.other (H f.top) := by
  cases f <;> obtain ⟨hroot, hp⟩ := h <;> simp [Frame.top, Frame.hole, Frame.other, hroot, hp]

theorem RepCtx.relink {c : Ctx P} (h : RepCtx H par root c at_) (hnd : (before c ++ after c).Nodup)
    (hlink : Relinked H root H' root' at' c)
    (hrest : ∀ p ∈ before c ++ after c, some p ≠ c.parent → H' p = H p) :
    RepCtx H' par root' c at' := by
  match c with
  | [] => exact hlink
  | f :: c =>
    obtain ⟨-, hpar, hside, hc⟩ := repCtx_cons.mp h
    obtain ⟨rfl, hhole, hup, hother⟩ := relinked_cons hlink
    have hsame : ∀ q, q ∈ inorder f.side ∨ q ∈ before c ++ after c → H' q = H q := by
      intro q hq
      refine hrest q (mem_ctx_cons.mpr (.inr hq)) ?_
      rw [Ctx.parent, above_cons]
      rintro ⟨⟩
      exact top_notMem hnd hq
    refine repCtx_cons.mpr ⟨hhole, hup.trans hpar, ?_, hc.congr fun q hq => hsame q (.inr hq)⟩
    rw [hother]
    exact hside.congr fun q hq => hsame q (.inl hq)

/-- A tree seen in a mirror. -/
def mirror : BinaryTree P → BinaryTree P
  | .nil => .nil
  | .node p l r => .node p (mirror r) (mirror l)

theorem mirror_mirror : ∀ t : BinaryTree P, mirror (mirror t) = t
  | .nil => rfl
  | .node p l r => by rw [mirror, mirror, mirror_mirror l, mirror_mirror r]

theorem inorder_mirror : ∀ t : BinaryTree P, inorder (mirror t) = (inorder t).reverse
  | .nil => rfl
  | .node p l r => by simp [mirror, inorder_mirror l, inorder_mirror r]

theorem Rep.mirror : ∀ {t : BinaryTree P} {par at_ : Option P}, Rep H t par at_ →
    Rep (fun p => ⟨(H p).parent, (H p).right, (H p).left⟩) (mirror t) par at_
  | .nil, _, _, h => h
  | .node _ _ _, _, _, ⟨hat, hpar, hl, hr⟩ => ⟨hat, hpar, hr.mirror, hl.mirror⟩

/-- The tree below a pointer, read off the links; `fuel` bounds its height. -/
def shape (H : P → TreeLinks P) : Nat → Option P → BinaryTree P
  | 0, _ => .nil
  | _, none => .nil
  | fuel + 1, some p => .node p (shape H fuel (H p).left) (shape H fuel (H p).right)

theorem Rep.shape_eq : ∀ {t : BinaryTree P} {par at_ : Option P} {fuel : Nat}, Rep H t par at_ →
    (inorder t).length ≤ fuel → shape H fuel at_ = t
  | .nil, _, _, fuel, h, _ => by
    rw [show _ = none from h]
    cases fuel <;> rfl
  | .node p l r, _, _, fuel, h, hle => by
    obtain ⟨rfl, _, hl, hr⟩ := h
    simp only [inorder_node, length_append, length_cons] at hle
    match fuel, hle with
    | fuel + 1, hle =>
      rw [shape, hl.shape_eq (by omega), hr.shape_eq (by omega)]

end Memory

end LinkedTree

end OsKernel
