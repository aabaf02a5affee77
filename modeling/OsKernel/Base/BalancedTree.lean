import OsKernel.Base.LinkedTree

/-!
# Trees that know their heights

A height-balanced tree: at every node the heights of the two subtrees differ by at most
one, and a number kept with the node is the height of the tree below it. `Avl` says both.

An operation changes one subtree and then repairs the nodes above it, from the bottom to
the top. `CtxAvl` is what those nodes need: with a subtree of height `h` in the hole the
tree would be balanced everywhere above. The numbers kept at the nodes above the hole play
no part, since the repair writes them again. What the repair can do is in the last section:
write a node's number again where the subtrees are near in height, or rotate once where
they are not.
-/

namespace OsKernel.LinkedTree

open BinaryTree

variable {P : Type} {l r : BinaryTree P} {p : P}

/-- Two heights that differ by at most one. -/
def Near (m n : Nat) : Prop := m ≤ n + 1 ∧ n ≤ m + 1

/-- At every node the subtrees are near in height. -/
def Balanced : BinaryTree P → Prop
  | .nil => True
  | .node _ l r => Near l.height r.height ∧ Balanced l ∧ Balanced r

/-- At every node `g` has the height of the tree below it. -/
def Annotated (g : P → Nat) : BinaryTree P → Prop
  | .nil => True
  | .node p l r => g p = max l.height r.height + 1 ∧ Annotated g l ∧ Annotated g r

/-- A balanced tree with its heights. -/
structure Avl (g : P → Nat) (t : BinaryTree P) : Prop where
  balanced : Balanced t
  annotated : Annotated g t

/-- A context that is balanced around a subtree of height `h`. -/
def CtxAvl (g : P → Nat) : Ctx P → Nat → Prop
  | [], _ => True
  | .left _ r :: c, h => Near h r.height ∧ Avl g r ∧ CtxAvl g c (max h r.height + 1)
  | .right l _ :: c, h => Near l.height h ∧ Avl g l ∧ CtxAvl g c (max l.height h + 1)

section Heights

variable {g g' : P → Nat}

theorem avl_nil : Avl g (.nil : BinaryTree P) := ⟨trivial, trivial⟩

theorem avl_node (hl : Avl g l) (hr : Avl g r) (hnear : Near l.height r.height)
    (hp : g p = max l.height r.height + 1) :
    Avl g (.node p l r) :=
  ⟨⟨hnear, hl.balanced, hr.balanced⟩, hp, hl.annotated, hr.annotated⟩

theorem Avl.left (h : Avl g (.node p l r)) : Avl g l :=
  ⟨h.balanced.2.1, h.annotated.2.1⟩

theorem Avl.right (h : Avl g (.node p l r)) : Avl g r :=
  ⟨h.balanced.2.2, h.annotated.2.2⟩

theorem Annotated.congr : ∀ {t : BinaryTree P}, Annotated g t → (∀ p ∈ inorder t, g' p = g p) →
    Annotated g' t
  | .nil, _, _ => trivial
  | .node p l r, ⟨hp, hl, hr⟩, heq =>
    ⟨(heq p (by simp)).trans hp, hl.congr fun q hq => heq q (by simp [hq]),
      hr.congr fun q hq => heq q (by simp [hq])⟩

theorem Avl.congr {t : BinaryTree P} (h : Avl g t) (heq : ∀ p ∈ inorder t, g' p = g p) :
    Avl g' t :=
  ⟨h.balanced, h.annotated.congr heq⟩

theorem CtxAvl.congr : ∀ {c : Ctx P} {h : Nat}, CtxAvl g c h →
    (∀ p ∈ before c ++ after c, g' p = g p) → CtxAvl g' c h
  | [], _, _, _ => trivial
  | f :: c, h, hctx, heq => by
    have hside : ∀ q ∈ inorder f.side, g' q = g q := fun q hq =>
      heq q (mem_ctx_cons.mpr (.inr (.inl hq)))
    have hrest : ∀ q ∈ before c ++ after c, g' q = g q := fun q hq =>
      heq q (mem_ctx_cons.mpr (.inr (.inr hq)))
    cases f with
    | left p r => exact ⟨hctx.1, hctx.2.1.congr hside, hctx.2.2.congr hrest⟩
    | right l p => exact ⟨hctx.1, hctx.2.1.congr hside, hctx.2.2.congr hrest⟩

/-- A balanced tree falls apart into a balanced subtree and a context balanced around it. -/
theorem Avl.of_plug : ∀ {c : Ctx P} {t : BinaryTree P}, Avl g (plug c t) →
    Avl g t ∧ CtxAvl g c t.height
  | [], _, h => ⟨h, trivial⟩
  | .left p r :: c, t, h => by
    obtain ⟨hnode, hc⟩ := Avl.of_plug (c := c) h
    exact ⟨hnode.left, hnode.balanced.1, hnode.right, hc⟩
  | .right l p :: c, t, h => by
    obtain ⟨hnode, hc⟩ := Avl.of_plug (c := c) h
    exact ⟨hnode.right, hnode.balanced.1, hnode.left, hc⟩

/--
One frame up. A subtree whose height is near the one the context is balanced around makes, with
the next node, a tree whose two sides differ by at most two; mended, it fits the rest.
-/
theorem CtxAvl.next {f : Frame P} {c : Ctx P} {h : Nat} {t : BinaryTree P}
    (hc : CtxAvl g (f :: c) h) (ht : Avl g t) (hnear : Near t.height h) :
    ∃ p l r H, Ctx.parent (f :: c) = some p ∧ f.plug t = .node p l r ∧ Avl g l ∧ Avl g r ∧
      (l.height ≤ r.height + 2 ∧ r.height ≤ l.height + 2) ∧ CtxAvl g c H ∧
      (Near l.height r.height → Near (max l.height r.height + 1) H) ∧
      (l.height = r.height + 2 ∨ r.height = l.height + 2 →
        Near (min l.height r.height + 2) H) := by
  cases f with
  | left p r =>
    obtain ⟨hside, hr, hc⟩ := hc
    unfold Near at *
    exact ⟨p, t, r, _, rfl, rfl, ht, hr, by omega, hc, by omega, by omega⟩
  | right l p =>
    obtain ⟨hside, hl, hc⟩ := hc
    unfold Near at *
    exact ⟨p, l, t, _, rfl, rfl, hl, ht, by omega, hc, by omega, by omega⟩

/-- A balanced tree of height `h` has at least `2 ^ (h / 2) - 1` nodes. -/
theorem Balanced.two_pow_le : ∀ {t : BinaryTree P}, Balanced t →
    2 ^ (t.height / 2) ≤ (inorder t).length + 1
  | .nil, _ => by simp
  | .node p l r, ⟨hnear, hl, hr⟩ => by
    have ihl := hl.two_pow_le
    have ihr := hr.two_pow_le
    obtain ⟨h1, h2⟩ := hnear
    simp only [height, inorder_node, List.length_append, List.length_cons]
    -- the lower of the two subtrees is at most two lower than the tree
    have hlow : ∀ k, max l.height r.height ≤ k + 1 →
        2 ^ ((max l.height r.height + 1) / 2) ≤ 2 * 2 ^ (k / 2) := by
      intro k hk
      calc 2 ^ ((max l.height r.height + 1) / 2) ≤ 2 ^ (k / 2 + 1) :=
            Nat.pow_le_pow_right (by decide) (by omega)
        _ = 2 * 2 ^ (k / 2) := by rw [pow_succ, mul_comm]
    have hmono : ∀ {a b : Nat}, a ≤ b → 2 ^ (a / 2) ≤ 2 ^ (b / 2) := fun hab =>
      Nat.pow_le_pow_right (by decide) (by omega)
    rcases le_total l.height r.height with hle | hle
    · have := hlow l.height (by omega)
      have := hmono hle
      omega
    · have := hlow r.height (by omega)
      have := hmono hle
      omega

/-! ## Trees of one shape -/

/-- Two trees of one shape whose nodes, place by place, have the same numbers. -/
def Alike (g g' : P → Nat) : BinaryTree P → BinaryTree P → Prop
  | .nil, .nil => True
  | .node p l r, .node p' l' r' => g' p' = g p ∧ Alike g g' l l' ∧ Alike g g' r r'
  | _, _ => False

theorem alike_self : ∀ {t : BinaryTree P}, (∀ p ∈ inorder t, g' p = g p) → Alike g g' t t
  | .nil, _ => trivial
  | .node p l r, heq => ⟨heq p (by simp), alike_self fun q hq => heq q (by simp [hq]),
      alike_self fun q hq => heq q (by simp [hq])⟩

theorem Alike.plug : ∀ {c : Ctx P} {t t' : BinaryTree P}, Alike g g' t t' →
    (∀ p ∈ before c ++ after c, g' p = g p) →
    Alike g g' (LinkedTree.plug c t) (LinkedTree.plug c t')
  | [], _, _, h, _ => h
  | f :: c, t, t', h, heq => by
    have hside : Alike g g' f.side f.side := alike_self fun q hq =>
      heq q (mem_ctx_cons.mpr (.inr (.inl hq)))
    have htop : g' f.top = g f.top := heq _ (mem_ctx_cons.mpr (.inl rfl))
    refine Alike.plug (c := c) ?_ fun q hq => heq q (mem_ctx_cons.mpr (.inr (.inr hq)))
    cases f with
    | left p r => exact ⟨htop, h, hside⟩
    | right l p => exact ⟨htop, hside, h⟩

theorem Alike.height_eq : ∀ {t t' : BinaryTree P}, Alike g g' t t' → t'.height = t.height
  | .nil, .nil, _ => rfl
  | .node _ _ _, .node _ _ _, ⟨_, hl, hr⟩ => by
    simp only [height, hl.height_eq, hr.height_eq]

theorem Avl.alike : ∀ {t t' : BinaryTree P}, Avl g t → Alike g g' t t' → Avl g' t'
  | .nil, .nil, _, _ => avl_nil
  | .node p l r, .node p' l' r', h, ⟨hp, hl, hr⟩ => by
    refine avl_node (h.left.alike hl) (h.right.alike hr) ?_ ?_
    · rw [hl.height_eq, hr.height_eq]
      exact h.balanced.1
    · rw [hl.height_eq, hr.height_eq, hp]
      exact h.annotated.1

/-! ## One rotation -/

variable {p q : P} {a b c : BinaryTree P}

/--
The right subtree is two higher and leans outwards: one rotation to the left balances the tree.
Only the number of the old top has to be written again.
-/
theorem Avl.rotateLeft (ha : Avl g a) (hq : Avl g (.node q b c))
    (hheavy : max b.height c.height + 1 = a.height + 2) (hlean : b.height < c.height)
    (hg : ∀ x ∈ inorder a ++ inorder (.node q b c), g' x = g x)
    (hp : g' p = max a.height b.height + 1) :
    Avl g' (.node q (.node p a b) c) ∧
      (BinaryTree.node q (.node p a b) c).height = a.height + 2 := by
  obtain ⟨h1, h2⟩ := hq.balanced.1
  have hb : Avl g' b := hq.left.congr fun x hx => hg x (by simp [hx])
  have hc : Avl g' c := hq.right.congr fun x hx => hg x (by simp [hx])
  have hqp : g' q = g q := hg q (by simp)
  refine ⟨avl_node (avl_node (ha.congr fun x hx => hg x (by simp [hx])) hb ?_ hp) hc ?_ ?_, ?_⟩
  · exact ⟨by omega, by omega⟩
  · simp only [height]
    exact ⟨by omega, by omega⟩
  · rw [hqp, hq.annotated.1]
    simp only [height]
    omega
  · simp only [height]
    omega

theorem Avl.rotateRight (hc : Avl g c) (hq : Avl g (.node q a b))
    (hheavy : max a.height b.height + 1 = c.height + 2) (hlean : b.height < a.height)
    (hg : ∀ x ∈ inorder (.node q a b) ++ inorder c, g' x = g x)
    (hp : g' p = max b.height c.height + 1) :
    Avl g' (.node q a (.node p b c)) ∧
      (BinaryTree.node q a (.node p b c)).height = c.height + 2 := by
  obtain ⟨h1, h2⟩ := hq.balanced.1
  have ha : Avl g' a := hq.left.congr fun x hx => hg x (by simp [hx])
  have hb : Avl g' b := hq.right.congr fun x hx => hg x (by simp [hx])
  have hqp : g' q = g q := hg q (by simp)
  refine ⟨avl_node ha (avl_node hb (hc.congr fun x hx => hg x (by simp [hx])) ?_ hp) ?_ ?_, ?_⟩
  · exact ⟨by omega, by omega⟩
  · simp only [height]
    exact ⟨by omega, by omega⟩
  · rw [hqp, hq.annotated.1]
    simp only [height]
    omega
  · simp only [height]
    omega

end Heights

end OsKernel.LinkedTree
