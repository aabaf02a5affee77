import OsKernel.Base.LinkedTree

/-!
# Trees whose nodes keep a value of the tree below

A value is computed for every subtree from its top and from the values of the two subtrees
below it. Every node keeps such a value, `g p`; `Folded` says that all of them are what one gets
by computing them anew from the bottom to the top.

After a change in one place the nodes above it have to be written again. What they need is
that the subtrees beside them are right; their own values play no part.
-/

namespace OsKernel.LinkedTree

variable {P β : Type} {c : Ctx P}

/-- The value of a tree. -/
def foldOver (combine : P → β → β → β) (empty : β) : BinaryTree P → β
  | .nil => empty
  | .node p l r => combine p (foldOver combine empty l) (foldOver combine empty r)

/-- Every node keeps the value of the tree below it. -/
def Folded (combine : P → β → β → β) (empty : β) (g : P → β) : BinaryTree P → Prop
  | .nil => True
  | .node p l r => g p = foldOver combine empty (.node p l r) ∧
    Folded combine empty g l ∧ Folded combine empty g r

/-- The value kept for a subtree. -/
def valueAt (empty : β) (g : P → β) : Option P → β
  | none => empty
  | some p => g p

/-- The subtrees beside the way to the hole have a property. -/
def Sides (Q : BinaryTree P → Prop) : Ctx P → Prop
  | [] => True
  | .left _ r :: c => Q r ∧ Sides Q c
  | .right l _ :: c => Q l ∧ Sides Q c

/-! ## Sides -/

/-- A property that goes down to the subtrees. -/
def Hereditary (Q : BinaryTree P → Prop) : Prop := ∀ p l r, Q (.node p l r) → Q l ∧ Q r

section Sides

variable {Q Q' : BinaryTree P → Prop}

theorem sides_cons {f : Frame P} : Sides Q (f :: c) ↔ Q f.side ∧ Sides Q c := by
  cases f <;> rfl

theorem Hereditary.of_plug (hQ : Hereditary Q) : ∀ {c : Ctx P} {t : BinaryTree P}, Q (plug c t) →
    Q t ∧ Sides Q c
  | [], _, h => ⟨h, trivial⟩
  | f :: c, t, h => by
    obtain ⟨hnode, hc⟩ := hQ.of_plug (c := c) h
    cases f with
    | left p r => exact ⟨(hQ p t r hnode).1, (hQ p t r hnode).2, hc⟩
    | right l p => exact ⟨(hQ p l t hnode).2, (hQ p l t hnode).1, hc⟩

theorem Sides.imp : ∀ {c : Ctx P}, Sides Q c →
    (∀ t : BinaryTree P, (∀ p ∈ inorder t, p ∈ before c ++ after c) → Q t → Q' t) → Sides Q' c
  | [], _, _ => trivial
  | f :: c, hs, h => by
    obtain ⟨hside, hc⟩ := sides_cons.mp hs
    refine sides_cons.mpr ⟨h _ (fun q hq => mem_ctx_cons.mpr (.inr (.inl hq))) hside, ?_⟩
    exact hc.imp fun t ht => h t fun q hq => mem_ctx_cons.mpr (.inr (.inr (ht q hq)))

theorem sides_append : ∀ {c d : Ctx P}, Sides Q (c ++ d) ↔ Sides Q c ∧ Sides Q d
  | [], _ => by simp [Sides]
  | f :: c, d => by
    rw [List.cons_append, sides_cons, sides_cons, sides_append, and_assoc]

theorem Sides.next {F : Frame P} {t : BinaryTree P} (hc : Sides Q (F :: c)) (ht : Q t) :
    ∃ p l r, Ctx.parent (F :: c) = some p ∧ F.plug t = .node p l r ∧ Q l ∧ Q r ∧ Sides Q c := by
  cases F with
  | left p r => exact ⟨p, t, r, rfl, rfl, ht, hc.1, hc.2⟩
  | right l p => exact ⟨p, l, t, rfl, rfl, hc.1, ht, hc.2⟩

end Sides

/-! ## Values -/

section Values

variable {combine : P → β → β → β} {empty : β} {g g' : P → β}

theorem hereditary_folded : Hereditary (Folded combine empty g) := fun _ _ _ h => h.2

theorem Folded.congr : ∀ {t : BinaryTree P}, Folded combine empty g t →
    (∀ p ∈ inorder t, g' p = g p) → Folded combine empty g' t
  | .nil, _, _ => trivial
  | .node p l r, ⟨hp, hl, hr⟩, hg => by
    refine ⟨?_, hl.congr fun q hq => hg q (by simp [hq]), hr.congr fun q hq => hg q (by simp [hq])⟩
    rw [hg p (by simp), hp]

theorem foldOver_congr {combine' : P → β → β → β} : ∀ {t : BinaryTree P},
    (∀ p ∈ inorder t, combine' p = combine p) → foldOver combine' empty t = foldOver combine empty t
  | .nil, _ => rfl
  | .node p l r, h => by
    rw [foldOver, foldOver, h p (by simp), foldOver_congr fun q hq => h q (by simp [hq]),
      foldOver_congr fun q hq => h q (by simp [hq])]

theorem Folded.congr_combine {combine' : P → β → β → β} : ∀ {t : BinaryTree P},
    Folded combine empty g t → (∀ p ∈ inorder t, combine' p = combine p) → Folded combine' empty g t
  | .nil, _, _ => trivial
  | .node p l r, ⟨hp, hl, hr⟩, h => by
    refine ⟨?_, hl.congr_combine fun q hq => h q (by simp [hq]),
      hr.congr_combine fun q hq => h q (by simp [hq])⟩
    rw [hp, foldOver_congr h]

theorem Sides.congr_folded (h : Sides (Folded combine empty g) c)
    (hg : ∀ p ∈ before c ++ after c, g' p = g p) : Sides (Folded combine empty g') c :=
  h.imp fun _ hin ht => ht.congr fun p hp => hg p (hin p hp)

theorem Folded.valueAt_eq {H : P → TreeLinks P} {t : BinaryTree P} {par at_ : Option P}
    (h : Folded combine empty g t) (hrep : Rep H t par at_) :
    valueAt empty g at_ = foldOver combine empty t := by
  cases t with
  | nil =>
    rw [show at_ = none from hrep]
    rfl
  | node p l r =>
    rw [hrep.1]
    exact h.1

theorem Folded.write [DecidableEq P] {p : P} {l r : BinaryTree P} {v : β}
    (hl : Folded combine empty g l) (hr : Folded combine empty g r)
    (hnd : (inorder (.node p l r)).Nodup) (hv : v = foldOver combine empty (.node p l r)) :
    Folded combine empty (Function.update g p v) (.node p l r) := by
  rw [inorder_node, List.nodup_middle, List.nodup_cons] at hnd
  have hother : ∀ q ∈ inorder l ++ inorder r, Function.update g p v q = g q := by
    intro q hq
    refine Function.update_of_ne ?_ _ _
    rintro rfl
    exact hnd.1 hq
  refine ⟨by rw [Function.update_self, hv], hl.congr ?_, hr.congr ?_⟩
  · exact fun q hq => hother q (List.mem_append_left _ hq)
  · exact fun q hq => hother q (List.mem_append_right _ hq)

end Values

end OsKernel.LinkedTree
