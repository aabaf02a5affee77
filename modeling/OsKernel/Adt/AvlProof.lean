import OsKernel.Adt.AvlDelete

/-!
# The tree is a sorted set

Insertion and deletion go down by a comparator that the caller supplies. As long as
the comparators agree with one linear order of keys, the nodes are in ascending order
of their keys from left to right, whatever rebalancing did in between.

A run is a list of calls, each with callbacks of its own; between calls the caller may
rewrite its memory, except for the keys of the nodes in the tree. `AvlSet` says what
the calls mean: a set of nodes with different keys.
-/

namespace OsKernel.Adt.AvlTree

open List hiding after

open LinkedTree

variable {α : Type} {t : AvlTree α} {T : BinaryTree Ptr} {node p : Ptr} {fuel : Nat} {c : Ctx Ptr}
  {addedNode update : Option (AvlCallback α)} {S : Set Ptr} {I : α → Prop}
  {comparator : α → Ptr → Ptr → Int}

/-! ## Insertion -/

/-- A node without children that is written into the hole of a context is part of the tree. -/
theorem link_holds (h : Holds t (plug c .nil)) (hnew : node ∉ before c ++ after c) :
    Holds ((t.modify node fun _ =>
        { parent := c.parent, left := none, right := none, height := 1 }).store
      (ctxLink c) (some node)) (plug c (.node node .nil .nil)) := by
  set t0 := t.modify node fun _ => { parent := c.parent, left := none, right := none, height := 1 }
    with ht0
  have hlinks : ∀ x, t0.links x = if x = node then ⟨c.parent, none, none⟩ else t.links x := by
    intro x
    by_cases hx : x = node <;> simp [ht0, links, modify, hx]
  refine h.replace (S := [node]) ⟨rfl, rfl, ?_⟩ (by simpa using hnew) ⟨rfl, ?_, ?_, ?_⟩ ?_
  · intro x hx
    rw [hlinks x, if_neg (by simpa using hx)]
  · rw [hlinks node, if_pos rfl]
  · rw [hlinks node, if_pos rfl]
    rfl
  · rw [hlinks node, if_pos rfl]
    rfl
  · rw [inorder_plug, inorder_node, inorder_nil, nil_append, append_assoc,
      singleton_append, nodup_middle]
    exact nodup_cons.mpr ⟨hnew, h.ctx_nodup.1⟩

/-- **A node put in the hole of a context is inserted there**, between what is left and right. -/
theorem insertAtLoc_spec (hcb : CallbackOk I S update) (fuel : Nat) (h : Holds t (plug c .nil))
    (hnew : node ∉ before c ++ after c) (hS : ∀ x ∈ before c ++ node :: after c, x ∈ S)
    (hfuel : c.length ≤ fuel)
    (hadded : ∀ t1, Holds t1 (plug c (.node node .nil .nil)) → t1.ext = t.ext →
      ∃ t2, t1.avlnodeUpdate node addedNode = .ok t2 ∧ I t2.ext) :
    ∃ t' T', t.insertAtLoc fuel node c.parent (ctxLink c) update addedNode = .ok t' ∧
      Holds t' T' ∧ inorder T' = before c ++ node :: after c ∧ I t'.ext := by
  have hwhole : inorder (plug c (.node node .nil .nil)) = before c ++ node :: after c := by
    simp [inorder_plug]
  have hold := link_holds h hnew
  obtain ⟨t2, hrun2, hI2⟩ := hadded _ hold (by rw [ext_store]; rfl)
  obtain ⟨hlinks2, hroot2⟩ := avlnodeUpdate_links hrun2
  obtain ⟨t3, hrun3, hold3, hI3, -⟩ := avlnodeUpdate_holds hcb (hold.of_links hlinks2 hroot2)
    (hS node (by simp)) hI2
  obtain ⟨t', T', hfix, hold', hsame, hI'⟩ := avltreeFixup_spec hcb c fuel hold3
    (by rw [hwhole]; exact hS) hI3 hfuel
  refine ⟨t', T', ?_, hold', by rw [hsame, hwhole], hI'⟩
  unfold insertAtLoc
  simp only [hrun2, ok_bind, hrun3]
  exact hfix

/--
The descent. `cmp` is what the comparator answers for the new node; it does not change its mind
along the order of the nodes. Either some node compares equal, or the descent ends in a hole with
the smaller nodes on its left and the greater ones on its right.
-/
theorem findPlace_spec :
    ∀ {T : BinaryTree Ptr} (c : Ctx Ptr) {at_ : Option Ptr} (fuel : Nat),
    Rep t.links T c.parent at_ → (inorder T).length ≤ fuel →
    (inorder T).Pairwise (fun x y =>
      (comparator t.ext node x < 0 → comparator t.ext node y < 0) ∧
      (0 < comparator t.ext node y → 0 < comparator t.ext node x)) →
    (∀ x ∈ before c, 0 < comparator t.ext node x) →
    (∀ x ∈ after c, comparator t.ext node x < 0) →
    (t.findPlace node comparator fuel at_ c.parent (ctxLink c) = .ok none ∧
      ∃ x ∈ inorder T, comparator t.ext node x = 0) ∨
    ∃ c', t.findPlace node comparator fuel at_ c.parent (ctxLink c)
        = .ok (some (c'.parent, ctxLink c')) ∧ plug c' .nil = plug c T ∧
      (∀ x ∈ before c', 0 < comparator t.ext node x) ∧
      ∀ x ∈ after c', comparator t.ext node x < 0
  | .nil, c, at_, fuel, h, _, _, hb, ha => by
    rw [show at_ = none from h]
    exact .inr ⟨c, by cases fuel <;> rfl, rfl, hb, ha⟩
  | .node p l r, c, at_, fuel, h, hfuel, hmono, hb, ha => by
    obtain ⟨rfl, hpar, hl, hr⟩ := h
    simp only [inorder_node, length_append, length_cons] at hfuel
    rw [inorder_node, pairwise_append, pairwise_cons] at hmono
    obtain ⟨hmonol, ⟨hpr, hmonor⟩, hlp⟩ := hmono
    match fuel, hfuel with
    | fuel + 1, hfuel =>
      rw [findPlace]
      by_cases heq : comparator t.ext node p = 0
      · rw [if_pos heq]
        exact .inl ⟨rfl, p, by simp, heq⟩
      · rw [if_neg heq]
        by_cases hlt : comparator t.ext node p < 0
        · -- everything from `p` on is greater
          rw [if_pos hlt]
          rcases findPlace_spec (.left p r :: c) fuel hl (by omega) hmonol hb (by
              intro x hx
              rcases mem_cons.mp hx with rfl | hx
              · exact hlt
              · rcases mem_append.mp hx with hx | hx
                · exact (hpr x hx).1 hlt
                · exact ha x hx) with ⟨hrun, x, hx, hx0⟩ | hfound
          · exact .inl ⟨hrun, x, by simp [hx], hx0⟩
          · exact .inr hfound
        · -- everything up to `p` is smaller
          rw [if_neg hlt]
          have hgt : 0 < comparator t.ext node p := by omega
          rcases findPlace_spec (.right l p :: c) fuel hr (by omega) hmonor (by
              intro x hx
              simp only [before, mem_append, mem_singleton] at hx
              rcases hx with (hx | hx) | rfl
              · exact hb x hx
              · exact (hlp x hx p (by simp)).2 hgt
              · exact hgt) ha with ⟨hrun, x, hx, hx0⟩ | hfound
          · exact .inl ⟨hrun, x, by simp [hx], hx0⟩
          · exact .inr hfound

/-- `avltree_insert`, for a comparator that fits the order of the nodes, ends in a hole. -/
theorem avltreeInsert_eq (update addedNode : Option (AvlCallback α)) (h : Holds t T)
    (hfuel : (inorder T).length ≤ fuel) (hmono : (inorder T).Pairwise fun x y =>
      (comparator t.ext node x < 0 → comparator t.ext node y < 0) ∧
      (0 < comparator t.ext node y → 0 < comparator t.ext node x)) :
    (t.avltreeInsert fuel node comparator update addedNode = .ok (false, t) ∧
      ∃ x ∈ inorder T, comparator t.ext node x = 0) ∨
    ∃ c, plug c .nil = T ∧
      t.findPlace node comparator fuel t.root none .root = .ok (some (c.parent, ctxLink c)) ∧
      (∀ x ∈ before c, 0 < comparator t.ext node x) ∧
      (∀ x ∈ after c, comparator t.ext node x < 0) ∧
      t.avltreeInsert fuel node comparator update addedNode =
        (t.insertAtLoc fuel node c.parent (ctxLink c) update addedNode).map
          fun t' => (true, t') := by
  unfold avltreeInsert
  rcases findPlace_spec [] fuel h.rep hfuel hmono (by simp [before]) (by simp [after]) with
    ⟨hrun, hequal⟩ | ⟨c, hrun, hplug, hb, ha⟩
  · refine .inl ⟨?_, hequal⟩
    have hrun' : t.findPlace node comparator fuel t.root none .root = .ok none := hrun
    rw [hrun']
    rfl
  · right
    have hrun' : t.findPlace node comparator fuel t.root none .root
        = .ok (some (c.parent, ctxLink c)) := hrun
    refine ⟨c, hplug, hrun', hb, ha, ?_⟩
    rw [hrun']
    simp only [ok_bind]
    cases t.insertAtLoc fuel node c.parent (ctxLink c) update addedNode <;> rfl

theorem avltreeInsert_spec (hcb : CallbackOk I S update) (h : Holds t T)
    (hself : comparator t.ext node node = 0) (hmono : (inorder T).Pairwise fun x y =>
      (comparator t.ext node x < 0 → comparator t.ext node y < 0) ∧
      (0 < comparator t.ext node y → 0 < comparator t.ext node x))
    (hS : ∀ x ∈ node :: inorder T, x ∈ S) (hfuel : (inorder T).length ≤ fuel)
    (hadded : ∀ c t1, plug c .nil = T → Holds t1 (plug c (.node node .nil .nil)) → t1.ext = t.ext →
      (∀ x ∈ before c, 0 < comparator t.ext node x) →
      (∀ x ∈ after c, comparator t.ext node x < 0) →
      ∃ t2, t1.avlnodeUpdate node addedNode = .ok t2 ∧ I t2.ext) :
    (t.avltreeInsert fuel node comparator update addedNode = .ok (false, t) ∧
      ∃ x ∈ inorder T, comparator t.ext node x = 0) ∨
    ∃ t' T' L R, t.avltreeInsert fuel node comparator update addedNode = .ok (true, t') ∧
      Holds t' T' ∧ inorder T = L ++ R ∧ inorder T' = L ++ node :: R ∧
      (∀ x ∈ L, 0 < comparator t.ext node x) ∧ (∀ x ∈ R, comparator t.ext node x < 0) ∧
      I t'.ext := by
  rcases avltreeInsert_eq update addedNode h hfuel hmono with
    hequal | ⟨c, hplug, -, hb, ha, hrun⟩
  · exact .inl hequal
  · right
    have hsplit : inorder T = before c ++ after c := by
      rw [← hplug, inorder_plug]
      simp
    have hnew : node ∉ before c ++ after c := by
      intro hmem
      rcases mem_append.mp hmem with hmem | hmem
      · have := hb node hmem
        omega
      · have := ha node hmem
        omega
    have hSc : ∀ x ∈ before c ++ node :: after c, x ∈ S := by
      intro x hx
      refine hS x ?_
      rw [hsplit]
      simp only [mem_append, mem_cons] at hx ⊢
      tauto
    have hlen : c.length ≤ fuel := by
      have hle := length_le_before_after c
      rw [← length_append, ← hsplit] at hle
      exact hle.trans hfuel
    obtain ⟨t', T', hins, hold, hsame, hI⟩ := insertAtLoc_spec (I := I) hcb fuel
      (by rw [hplug]; exact h) hnew hSc hlen
      (fun t1 hold1 hext1 => hadded c t1 hplug hold1 hext1 hb ha)
    exact ⟨t', T', before c, after c, by rw [hrun, hins]; rfl, hold, hsplit, hsame, hb, ha, hI⟩

/-! ## Deletion by key -/

/-- The descent of `avltree_delete`: the node with the key, or none. -/
theorem findKey_spec {κ : Type} {key : κ} {comparator : α → Ptr → κ → Int} :
    ∀ {T : BinaryTree Ptr} {par at_ : Option Ptr} (fuel : Nat),
    Rep t.links T par at_ → (inorder T).length ≤ fuel →
    (inorder T).Pairwise (fun x y =>
      (comparator t.ext x key < 0 → comparator t.ext y key < 0) ∧
      (0 < comparator t.ext y key → 0 < comparator t.ext x key)) →
    (t.findKey key comparator fuel at_ = .ok none ∧
      ∀ x ∈ inorder T, comparator t.ext x key ≠ 0) ∨
    ∃ p c l r, t.findKey key comparator fuel at_ = .ok (some p) ∧ T = plug c (.node p l r) ∧
      comparator t.ext p key = 0
  | .nil, par, at_, fuel, h, _, _ => by
    rw [show at_ = none from h]
    exact .inl ⟨by cases fuel <;> rfl, by simp⟩
  | .node q l r, par, at_, fuel, h, hfuel, hmono => by
    obtain ⟨rfl, hpar, hl, hr⟩ := h
    simp only [inorder_node, length_append, length_cons] at hfuel
    rw [inorder_node, pairwise_append, pairwise_cons] at hmono
    obtain ⟨hmonol, ⟨hqr, hmonor⟩, hlq⟩ := hmono
    match fuel, hfuel with
    | fuel + 1, hfuel =>
      rw [findKey]
      by_cases heq : comparator t.ext q key = 0
      · rw [if_pos heq]
        exact .inr ⟨q, [], l, r, rfl, rfl, heq⟩
      · rw [if_neg heq]
        by_cases hlt : comparator t.ext q key < 0
        · rw [if_pos hlt]
          rcases findKey_spec fuel hl (by omega) hmonol with
            ⟨hrun, hnone⟩ | ⟨p, c, l', r', hrun, hplug, hp⟩
          · refine .inl ⟨hrun, ?_⟩
            intro x hx
            simp only [inorder_node, mem_append, mem_cons] at hx
            rcases hx with hx | rfl | hx
            · exact hnone x hx
            · exact heq
            · have := (hqr x hx).1 hlt
              omega
          · refine .inr ⟨p, c ++ [.left q r], l', r', hrun, ?_, hp⟩
            rw [plug_append, ← hplug]
            rfl
        · rw [if_neg hlt]
          rcases findKey_spec fuel hr (by omega) hmonor with
            ⟨hrun, hnone⟩ | ⟨p, c, l', r', hrun, hplug, hp⟩
          · refine .inl ⟨hrun, ?_⟩
            intro x hx
            simp only [inorder_node, mem_append, mem_cons] at hx
            rcases hx with hx | rfl | hx
            · have := (hlq x hx q (by simp)).2 (by omega)
              omega
            · exact heq
            · exact hnone x hx
          · refine .inr ⟨p, c ++ [.right l q], l', r', hrun, ?_, hp⟩
            rw [plug_append, ← hplug]
            rfl

theorem exists_plug_of_mem : ∀ {T : BinaryTree Ptr}, p ∈ inorder T →
    ∃ c l r, T = plug c (.node p l r)
  | .node q l r, h => by
    simp only [inorder_node, mem_append, mem_cons] at h
    rcases h with h | rfl | h
    · obtain ⟨c, l', r', hplug⟩ := exists_plug_of_mem h
      exact ⟨c ++ [.left q r], l', r', by rw [plug_append, ← hplug]; rfl⟩
    · exact ⟨[], l, r, rfl⟩
    · obtain ⟨c, l', r', hplug⟩ := exists_plug_of_mem h
      exact ⟨c ++ [.right l q], l', r', by rw [plug_append, ← hplug]; rfl⟩

/-! ## Runs -/

section Runs

variable {κ : Type} [LinearOrder κ]

/-- A call of the tree, or a write of the caller to its own memory. -/
inductive Call (α κ : Type) where
  | insert (node : Ptr) (comparator : α → Ptr → Ptr → Int)
      (update addedNode : Option (AvlCallback α))
  | delete (key : κ) (comparator : α → Ptr → κ → Int) (update : Option (AvlCallback α))
  | deleteNode (node : Ptr) (update : Option (AvlCallback α))
  | client (ext : α)

/-- Make one call: what it returns, if anything, and the memory after it. -/
def Call.exec (fuel : Nat) (t : AvlTree α) : Call α κ → Result (Option Bool × AvlTree α)
  | .insert node comparator update addedNode => do
    let (inserted, t) ← t.avltreeInsert fuel node comparator update addedNode
    pure (some inserted, t)
  | .delete key comparator update => do
    let t ← t.avltreeDelete fuel key comparator update
    pure (none, t)
  | .deleteNode node update => do
    let t ← t.avltreeDeleteNode fuel node update
    pure (none, t)
  | .client ext => .ok (none, { t with ext := ext })

/-- Make calls one after the other. -/
def Call.run (fuel : Nat) (t : AvlTree α) : List (Call α κ) → Result (AvlTree α)
  | [] => .ok t
  | call :: calls => do
    let (_, t) ← call.exec fuel t
    run fuel t calls

/-- `AVLTREE_INIT()`, in a memory that holds `ext` and any nodes. -/
def init (nodes : Ptr → AvlNode) (ext : α) : AvlTree α := ⟨nodes, none, ext⟩

variable (keyOf : α → Ptr → κ)

/-- A callback that returns and keeps all keys. -/
def KeepsKeys (cb : Option (AvlCallback α)) : Prop :=
  ∀ f ∈ cb, ∀ t p, ∃ e, f t p = .ok e ∧ keyOf e = keyOf t.ext

/-- The comparators go by the keys, smaller keys to the left, and the callbacks keep them. -/
def Call.Lawful : Call α κ → Prop
  | .insert _ comparator update addedNode =>
    (∀ e a b, (comparator e a b < 0 ↔ keyOf e a < keyOf e b) ∧
      (comparator e a b = 0 ↔ keyOf e a = keyOf e b)) ∧
    KeepsKeys keyOf update ∧ KeepsKeys keyOf addedNode
  | .delete _ comparator update =>
    (∀ e a k, (comparator e a k < 0 ↔ k < keyOf e a) ∧ (comparator e a k = 0 ↔ keyOf e a = k)) ∧
    KeepsKeys keyOf update
  | .deleteNode _ update => KeepsKeys keyOf update
  | .client _ => True

/-- What the tree stands for: a set of nodes, and the keys of all nodes. -/
structure AvlSet (κ : Type) where
  live : Set Ptr
  key : Ptr → κ

/-- Whether some node of the set has the key. -/
def AvlSet.Has (σ : AvlSet κ) (k : κ) : Prop := ∃ q ∈ σ.live, σ.key q = k

/-- What a call does to the set. -/
def Call.effect (σ : AvlSet κ) : Call α κ → AvlSet κ
  | .insert node _ _ _ => { σ with live := σ.live ∪ { p | p = node ∧ ¬ σ.Has (σ.key node) } }
  | .delete k _ _ => { σ with live := { p ∈ σ.live | σ.key p ≠ k } }
  | .deleteNode node _ => { σ with live := { p ∈ σ.live | p ≠ node } }
  | .client ext => { σ with key := keyOf ext }

/-- Only nodes in the tree are deleted, and the caller leaves their keys alone. -/
def Call.Legal (σ : AvlSet κ) : Call α κ → Prop
  | .deleteNode node _ => node ∈ σ.live
  | .client ext => ∀ p ∈ σ.live, keyOf ext p = σ.key p
  | _ => True

/-- What a call returns, and when it leaves the memory untouched. -/
def Call.Returns (σ : AvlSet κ) (t : AvlTree α) (r : Option Bool × AvlTree α) : Call α κ → Prop
  | .insert node _ _ _ =>
    (σ.Has (σ.key node) → r = (some false, t)) ∧ (¬ σ.Has (σ.key node) → r.1 = some true)
  | .delete k _ _ => ¬ σ.Has k → r.2 = t
  | _ => True

/-- The memory holds a search tree of exactly the nodes of the set. -/
structure Represents (t : AvlTree α) (σ : AvlSet κ) (T : BinaryTree Ptr) : Prop where
  /-- Children and parents point at each other, and the parent of the root is NULL. -/
  holds : Holds t T
  keys : keyOf t.ext = σ.key
  /-- The keys ascend from left to right. -/
  sorted : ((inorder T).map σ.key).Pairwise (· < ·)
  mem : ∀ p, p ∈ inorder T ↔ p ∈ σ.live

variable {keyOf} {σ : AvlSet κ}

omit [LinearOrder κ] in
theorem KeepsKeys.callbackOk {cb : Option (AvlCallback α)} (h : KeepsKeys keyOf cb) (k : Ptr → κ) :
    CallbackOk (fun e => keyOf e = k) Set.univ cb := by
  intro f hf t p _ hk
  obtain ⟨e, he, hkeys⟩ := h f hf t p
  exact ⟨e, he, hkeys.trans hk⟩

theorem Represents.insert (h : Represents keyOf t σ T) (hfuel : (inorder T).length ≤ fuel)
    (hlaw : (Call.insert (κ := κ) node comparator update addedNode).Lawful keyOf) :
    (t.avltreeInsert fuel node comparator update addedNode = .ok (false, t) ∧
      σ.Has (σ.key node)) ∨
    ∃ t' T', t.avltreeInsert fuel node comparator update addedNode = .ok (true, t') ∧
      ¬ σ.Has (σ.key node) ∧ Represents keyOf t' { σ with live := σ.live ∪ {node} } T' ∧
      (inorder T').length = (inorder T).length + 1 := by
  obtain ⟨hcmp, hup, hadd⟩ := hlaw
  have hlt : ∀ x, comparator t.ext node x < 0 ↔ σ.key node < σ.key x := by
    intro x
    rw [← h.keys]
    exact (hcmp t.ext node x).1
  have heq : ∀ x, comparator t.ext node x = 0 ↔ σ.key node = σ.key x := by
    intro x
    rw [← h.keys]
    exact (hcmp t.ext node x).2
  have hgt : ∀ x, 0 < comparator t.ext node x ↔ σ.key x < σ.key node := by
    intro x
    rw [← not_le, le_iff_lt_or_eq, hlt, heq, ← le_iff_lt_or_eq, not_le]
  have hmono := (pairwise_map.mp h.sorted).imp (S := fun x y =>
    (comparator t.ext node x < 0 → comparator t.ext node y < 0) ∧
      (0 < comparator t.ext node y → 0 < comparator t.ext node x)) (by
    intro x y hxy
    rw [hlt, hlt, hgt, hgt]
    exact ⟨fun hx => hx.trans hxy, fun hy => hxy.trans hy⟩)
  rcases avltreeInsert_spec (hup.callbackOk σ.key) h.holds
      ((heq node).mpr rfl) hmono (fun _ _ => Set.mem_univ _) hfuel (by
        intro c t1 _ _ hext _ _
        obtain ⟨e, hrun, hI⟩ := avlnodeUpdate_spec (hadd.callbackOk σ.key)
          (Set.mem_univ node) (t := t1) (by rw [hext]; exact h.keys)
        exact ⟨_, hrun, hI⟩) with
    ⟨hrun, x, hx, hx0⟩ | ⟨t', T', L, R, hrun, hold, hsplit, hsame, hL, hR, hI⟩
  · exact .inl ⟨hrun, x, (h.mem x).mp hx, ((heq x).mp hx0).symm⟩
  · right
    have hside : ∀ x ∈ L ++ R, σ.key x ≠ σ.key node := by
      intro x hx
      rcases mem_append.mp hx with hx | hx
      · exact ne_of_lt ((hgt x).mp (hL x hx))
      · exact ne_of_gt ((hlt x).mp (hR x hx))
    refine ⟨t', T', hrun, ?_, ⟨hold, hI, ?_, ?_⟩, ?_⟩
    · rintro ⟨q, hq, hkey⟩
      refine hside q ?_ hkey
      rw [← hsplit]
      exact (h.mem q).mpr hq
    · have hsorted := h.sorted
      rw [hsplit, map_append, pairwise_append] at hsorted
      obtain ⟨hsL, hsR, hLR⟩ := hsorted
      rw [hsame, map_append, map_cons, pairwise_append, pairwise_cons]
      refine ⟨hsL, ⟨?_, hsR⟩, ?_⟩
      · intro k hk
        obtain ⟨x, hx, rfl⟩ := mem_map.mp hk
        exact (hlt x).mp (hR x hx)
      · intro k hk k' hk'
        obtain ⟨x, hx, rfl⟩ := mem_map.mp hk
        rcases mem_cons.mp hk' with rfl | hk'
        · exact (hgt x).mp (hL x hx)
        · exact hLR _ (mem_map_of_mem hx) k' hk'
    · intro p
      have hp := h.mem p
      rw [hsplit] at hp
      rw [hsame]
      simp only [mem_append, mem_cons] at hp ⊢
      simp only [Set.mem_union, Set.mem_singleton_iff, ← hp]
      tauto
    · rw [hsame, hsplit]
      simp only [length_append, length_cons]
      omega

theorem Represents.deleteNode (h : Represents keyOf t σ T)
    (hfuel : (inorder T).length ≤ fuel) (hup : KeepsKeys keyOf update) (hlive : node ∈ σ.live) :
    ∃ t' T', t.avltreeDeleteNode fuel node update = .ok t' ∧
      Represents keyOf t' { σ with live := { p ∈ σ.live | p ≠ node } } T' ∧
      (inorder T').length ≤ (inorder T).length := by
  obtain ⟨c, l, r, rfl⟩ := exists_plug_of_mem ((h.mem node).mpr hlive)
  obtain ⟨t', T', hrun, hold, hsame, hI⟩ := avltreeDeleteNode_spec (hup.callbackOk σ.key) h.holds
    (fun _ _ => Set.mem_univ _) h.keys hfuel
  have hwhole : inorder (plug c (.node node l r))
      = (before c ++ inorder l) ++ node :: (inorder r ++ after c) := by
    rw [inorder_plug, inorder_node]
    simp
  have hrest : inorder T' = (before c ++ inorder l) ++ (inorder r ++ after c) := by
    rw [hsame]
    simp
  have hsub : (inorder T').Sublist (inorder (plug c (.node node l r))) := by
    rw [hwhole, hrest]
    exact List.Sublist.append_left (sublist_cons_self _ _) _
  refine ⟨t', T', hrun, ⟨hold, hI, h.sorted.sublist (hsub.map _), ?_⟩, hsub.length_le⟩
  intro p
  have hp := h.mem p
  have hnd := h.holds.nodup
  rw [hwhole, nodup_middle, nodup_cons] at hnd
  rw [hwhole] at hp
  rw [hrest]
  simp only [mem_append, mem_cons] at hp hnd ⊢
  constructor
  · intro hmem
    refine ⟨hp.mp (by tauto), ?_⟩
    rintro rfl
    exact hnd.1 hmem
  · rintro ⟨hmem, hne⟩
    tauto

theorem Call.exec_spec (h : Represents keyOf t σ T)
    (hfuel : (inorder T).length ≤ fuel) (call : Call α κ) (hlaw : call.Lawful keyOf)
    (hlegal : call.Legal keyOf σ) :
    ∃ r T', call.exec fuel t = .ok r ∧ call.Returns σ t r ∧
      Represents keyOf r.2 (call.effect keyOf σ) T' ∧
      (inorder T').length ≤ (inorder T).length + 1 := by
  cases call with
  | insert node comparator update addedNode =>
    rcases h.insert hfuel hlaw with ⟨hrun, hhas⟩ | ⟨t', T', hrun, hno, hrep, hlen⟩
    · refine ⟨(some false, t), T, by simp [exec, hrun], ⟨fun _ => rfl, fun hno => absurd hhas hno⟩, ?_,
        Nat.le_succ _⟩
      have heffect : (Call.insert (κ := κ) node comparator update addedNode).effect keyOf σ = σ := by
        simp [effect, hhas]
      rw [heffect]
      exact h
    · refine ⟨(some true, t'), T', by simp [exec, hrun], ⟨fun hhas => absurd hhas hno, fun _ => rfl⟩,
        ?_, hlen.le⟩
      simpa [effect, hno] using hrep
  | delete k comparator update =>
    obtain ⟨hcmp, hup⟩ := hlaw
    have hlt : ∀ x, comparator t.ext x k < 0 ↔ k < σ.key x := by
      intro x
      rw [← h.keys]
      exact (hcmp t.ext x k).1
    have heq : ∀ x, comparator t.ext x k = 0 ↔ σ.key x = k := by
      intro x
      rw [← h.keys]
      exact (hcmp t.ext x k).2
    have hgt : ∀ x, 0 < comparator t.ext x k ↔ σ.key x < k := by
      intro x
      rw [← not_le, le_iff_lt_or_eq, hlt, heq, eq_comm, ← le_iff_lt_or_eq, not_le]
    have hmono := (pairwise_map.mp h.sorted).imp (S := fun x y =>
      (comparator t.ext x k < 0 → comparator t.ext y k < 0) ∧
        (0 < comparator t.ext y k → 0 < comparator t.ext x k)) (by
      intro x y hxy
      rw [hlt, hlt, hgt, hgt]
      exact ⟨fun hx => hx.trans hxy, fun hy => hxy.trans hy⟩)
    rcases findKey_spec fuel h.holds.rep hfuel hmono with
      ⟨hfind, hnone⟩ | ⟨p, c, l, r, hfind, hplug, hp⟩
    · -- no such key
      have hno : ∀ p ∈ σ.live, σ.key p ≠ k := fun p hp hk =>
        hnone p ((h.mem p).mpr hp) ((heq p).mpr hk)
      refine ⟨(none, t), T, by simp [exec, avltreeDelete, hfind], fun _ => rfl, ?_, Nat.le_succ _⟩
      have heffect : (Call.delete k comparator update).effect keyOf σ = σ := by
        have hset : { p ∈ σ.live | σ.key p ≠ k } = σ.live := Set.sep_eq_self_iff_mem_true.mpr hno
        simp only [effect, hset]
      rw [heffect]
      exact h
    · -- the node with the key
      have hlive : p ∈ σ.live := (h.mem p).mp (by rw [hplug, inorder_plug]; simp)
      have hkey : σ.key p = k := (heq p).mp hp
      obtain ⟨t', T', hrun, hrep, hlen⟩ := h.deleteNode hfuel hup hlive
      refine ⟨(none, t'), T', by simp [exec, avltreeDelete, hfind, hrun],
        fun hno => absurd ⟨p, hlive, hkey⟩ hno, ?_, hlen.trans (Nat.le_succ _)⟩
      have hset : { q ∈ σ.live | σ.key q ≠ k } = { q ∈ σ.live | q ≠ p } := by
        ext q
        simp only [Set.mem_ofPred_eq, and_congr_right_iff]
        intro hq
        rw [not_iff_not, ← hkey]
        have hinj := inj_on_of_nodup_map (h.sorted.imp ne_of_lt)
        exact ⟨fun e => hinj ((h.mem q).mpr hq) ((h.mem p).mpr hlive) e, fun e => by rw [e]⟩
      simp only [effect, hset]
      exact hrep
  | deleteNode node update =>
    obtain ⟨t', T', hrun, hrep, hlen⟩ := h.deleteNode hfuel hlaw hlegal
    exact ⟨(none, t'), T', by simp [exec, hrun], trivial, hrep, hlen.trans (Nat.le_succ _)⟩
  | client ext =>
    refine ⟨_, T, rfl, trivial, ⟨⟨h.holds.rep, h.holds.nodup⟩, rfl, ?_, h.mem⟩, Nat.le_succ _⟩
    have hkeys : (inorder T).map (keyOf ext) = (inorder T).map σ.key :=
      map_congr_left fun p hp => hlegal p ((h.mem p).mp hp)
    simp only [effect, hkeys]
    exact h.sorted

/-- The set after a list of calls. -/
def Call.effects (keyOf : α → Ptr → κ) (σ : AvlSet κ) : List (Call α κ) → AvlSet κ
  | [] => σ
  | call :: calls => effects keyOf (call.effect keyOf σ) calls

/-- Every call of the list is lawful, and legal where it is made. -/
def Call.Fair (keyOf : α → Ptr → κ) (σ : AvlSet κ) : List (Call α κ) → Prop
  | [] => True
  | call :: calls => call.Lawful keyOf ∧ call.Legal keyOf σ ∧ Fair keyOf (call.effect keyOf σ) calls

theorem Call.run_spec : ∀ (calls : List (Call α κ)) {t : AvlTree α} {σ : AvlSet κ}
    {T : BinaryTree Ptr}, Represents keyOf t σ T → Call.Fair keyOf σ calls →
    (inorder T).length + calls.length ≤ fuel →
    ∃ t' T', Call.run fuel t calls = .ok t' ∧ Represents keyOf t' (Call.effects keyOf σ calls) T' ∧
      (inorder T').length ≤ (inorder T).length + calls.length
  | [], t, σ, T, h, _, _ => ⟨t, T, rfl, h, le_rfl⟩
  | call :: calls, t, σ, T, h, hfair, hfuel => by
    obtain ⟨hlaw, hlegal, hrest⟩ := hfair
    rw [length_cons] at hfuel
    have hnow : (inorder T).length ≤ fuel := by omega
    obtain ⟨r, T1, hexec, _, hrep, hlen⟩ := Call.exec_spec h hnow call hlaw hlegal
    have hthen : (inorder T1).length + calls.length ≤ fuel := by omega
    obtain ⟨t', T', hrun, hrep', hlen'⟩ := run_spec calls hrep hrest hthen
    refine ⟨t', T', ?_, hrep', ?_⟩
    · rw [run, hexec]
      exact hrun
    · rw [length_cons]
      omega

/--
**The AVL tree is a sorted set.** After every run from the empty tree the nodes are a search tree
of exactly the keys in the set, linked both ways, and every further call returns (so nothing in it
followed a NULL pointer), returns what it should and does to the set what it should.
-/
theorem avltree_is_sorted_set (nodes : Ptr → AvlNode) (ext : α) (calls : List (Call α κ))
    (hfair : Call.Fair keyOf ⟨∅, keyOf ext⟩ calls) {fuel : Nat} (hfuel : calls.length ≤ fuel) :
    ∃ t T, Call.run fuel (init nodes ext) calls = .ok t ∧
      Represents keyOf t (Call.effects keyOf ⟨∅, keyOf ext⟩ calls) T ∧
      ∀ call : Call α κ, call.Lawful keyOf →
        call.Legal keyOf (Call.effects keyOf ⟨∅, keyOf ext⟩ calls) →
        ∃ r T', call.exec fuel t = .ok r ∧
          call.Returns (Call.effects keyOf ⟨∅, keyOf ext⟩ calls) t r ∧
          Represents keyOf r.2
            (call.effect keyOf (Call.effects keyOf ⟨∅, keyOf ext⟩ calls)) T' := by
  have hinit : Represents keyOf (init nodes ext) ⟨∅, keyOf ext⟩ .nil :=
    ⟨⟨rfl, nodup_nil⟩, rfl, List.Pairwise.nil, by simp⟩
  obtain ⟨t, T, hrun, hrep, hlen⟩ := Call.run_spec calls hinit hfair (by simpa using hfuel)
  refine ⟨t, T, hrun, hrep, ?_⟩
  intro call hlaw hlegal
  have hsize : (inorder T).length ≤ fuel := by
    rw [inorder_nil, length_nil] at hlen
    omega
  obtain ⟨r, T', hexec, hret, hrep', _⟩ := Call.exec_spec hrep hsize call hlaw hlegal
  exact ⟨r, T', hexec, hret, hrep'⟩

/-- Nodes that are their own keys: insert two, and delete the one at the root. -/
def byAddress : List (Call Unit Nat) :=
  [.insert 2 (fun _ a b => (a : Int) - (b : Int)) none none,
    .insert 1 (fun _ a b => (a : Int) - (b : Int)) none none,
    .delete 2 (fun _ a k => (k : Int) - (a : Int)) none]

theorem byAddress_fair : Call.Fair (fun _ p => p) ⟨∅, fun p => p⟩ byAddress := by
  have hnone : KeepsKeys (fun (_ : Unit) (p : Ptr) => p) none := fun f hf => by cases hf
  have hcmp : ∀ a b : Nat, ((a : Int) - (b : Int) < 0 ↔ a < b) ∧ ((a : Int) - (b : Int) = 0 ↔ a = b) := by
    omega
  refine ⟨⟨fun _ => hcmp, hnone, hnone⟩, trivial, ⟨fun _ => hcmp, hnone, hnone⟩, trivial,
    ⟨fun _ a k => ⟨(hcmp k a).1, (hcmp k a).2.trans eq_comm⟩, hnone⟩, trivial, trivial⟩

theorem byAddress_effects :
    Call.effects (fun _ p => p) ⟨∅, fun p => p⟩ byAddress = (⟨{1}, fun p => p⟩ : AvlSet Nat) := by
  simp only [byAddress, Call.effects, Call.effect, AvlSet.Has, AvlSet.mk.injEq, and_true]
  grind

theorem avltree_is_sorted_set_by_address :
    ∃ t T, Call.run 3 (init (fun _ => ⟨⟨none, none, none⟩, 0⟩) ()) byAddress = .ok t ∧
      Represents (fun _ p => p) t ⟨{1}, fun p => p⟩ T := by
  obtain ⟨t, T, hrun, hrep, _⟩ :=
    avltree_is_sorted_set (fun _ => ⟨⟨none, none, none⟩, 0⟩) () byAddress byAddress_fair (Nat.le_refl 3)
  rw [byAddress_effects] at hrep
  exact ⟨t, T, hrun, hrep⟩

end Runs

end OsKernel.Adt.AvlTree
