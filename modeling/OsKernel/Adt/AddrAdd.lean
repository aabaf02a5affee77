import OsKernel.Adt.AddrWalk
import OsKernel.Adt.AvlKeeps

/-!
# A node that was added is on the list

Whatever becomes of the tree, `addrspace_find_space_and_add_node` puts the node on the list
behind the node that the search came upon, and that one is on the list itself. This needs
neither room in the right place nor a free right child, so it holds for all calls that
return an address.
-/

namespace OsKernel.Adt.AddressSpace

open LinkedTree LinkedRing AvlTree

variable {t t' : AddressSpace} {T : BinaryTree Ptr} {inRange : Range} {size align fuel addr : Nat}
  {node p : Ptr} {M : List Ptr}

/-! ## Where the search ends -/

theorem tryHole_prev {q : Ptr} (hring : IsRing t.ext.list .head (M.map .node))
    (hq : q ∈ M) (hrun : tryHole t.ext inRange size align q = .ok (some (addr, some p))) :
    p ∈ M := by
  obtain ⟨prev, hprev, hmem⟩ := ring_prev hring hq
  obtain ⟨found, hfound, hrun⟩ := bind_eq_ok.mp hrun
  obtain ⟨end_, -, hrun⟩ := bind_eq_ok.mp hrun
  have hsome : found = some p := by
    split at hrun
    · cases hrun
    · obtain ⟨front, -, hrun⟩ := bind_eq_ok.mp hrun
      obtain ⟨hole, -, hrun⟩ := bind_eq_ok.mp hrun
      split at hrun
      · cases hrun
        rfl
      · cases hrun
  unfold AddrData.addrspaceNodePrev at hfound
  rw [hprev] at hfound
  cases prev with
  | head =>
    rw [hsome] at hfound
    cases hfound
  | node q' =>
    rw [hsome] at hfound
    cases hfound
    exact hmem p rfl

theorem afterLast_prev (hring : IsRing t.ext.list .head (M.map .node))
    (hrun : afterLast t.ext inRange size align = .ok (addr, some p)) : p ∈ M := by
  have hlast := prev_of_way hring.way
  unfold afterLast at hrun
  rw [hlast] at hrun
  unfold lastPtr at hrun
  cases hM : M.getLast? with
  | none =>
    rw [hM] at hrun
    cases hrun
  | some q =>
    rw [hM] at hrun
    obtain ⟨end_, -, hrun⟩ := bind_eq_ok.mp hrun
    obtain ⟨inEnd, -, hrun⟩ := bind_eq_ok.mp hrun
    have hq : q = p := by
      split at hrun
      · cases hrun
      · split at hrun
        · cases hrun
        · split at hrun
          · cases hrun
            rfl
          · cases hrun
    exact hq ▸ List.mem_of_getLast? hM

theorem scan_prev (hring : IsRing t.ext.list .head (M.map .node)) :
    ∀ {V : List Ptr}, (∀ q ∈ V, q ∈ M) →
    scan t.ext inRange size align V = .ok (addr, some p) → p ∈ M := by
  intro V
  induction V with
  | nil =>
    intro _ hrun
    exact afterLast_prev hring hrun
  | cons q V ih =>
    intro hV hrun
    obtain ⟨found, hfound, hrun⟩ := bind_eq_ok.mp hrun
    cases found with
    | none => exact ih (fun q' hq' => hV q' (.tail _ hq')) hrun
    | some found =>
      cases hrun
      exact tryHole_prev hring (hV q List.mem_cons_self) hfound

theorem findFromStart_prev (hold : Holds t T)
    (hring : IsRing t.ext.list .head ((inorder T).map .node))
    (hfuel : (inorder T).length + 2 ≤ fuel)
    (hrun : t.findFromStart fuel inRange size align = .ok (addr, some p)) : p ∈ inorder T := by
  by_cases hne : T = .nil
  · subst hne
    have hroot : t.root = none := hold.rep
    unfold findFromStart at hrun
    rw [hroot] at hrun
    obtain ⟨front, -, hrun⟩ := bind_eq_ok.mp hrun
    split at hrun
    · cases hrun
    · cases hrun
  · rw [findFromStart_eq hold hne hfuel] at hrun
    exact scan_prev hring (fun q hq => mem_visits hq) hrun

/-! ## Adding the node -/

/-- A node that is in no tree can be set up. -/
theorem nodeInit_holds (hold : Holds t T) (hnode : node ∉ inorder T) :
    Holds (t.nodeInit node) T := by
  refine ⟨hold.rep.congr fun q hq => ?_, hold.nodup⟩
  have hne : q ≠ node := fun he => hnode (he ▸ hq)
  unfold AvlTree.links nodeInit AvlTree.modify
  dsimp only
  rw [Function.update_of_ne hne]

theorem avltreeUpdate_keeps_list (list : ListPtr → RingLinks ListPtr) :
    CallbackKeeps (fun e : AddrData => e.list = list) (some avltreeUpdate) := by
  intro f hf t p ext hrun h
  cases hf
  obtain ⟨prev, -, hrun⟩ := bind_eq_ok.mp hrun
  obtain ⟨end_, -, hrun⟩ := bind_eq_ok.mp hrun
  cases hrun
  exact h

theorem addAt_list {prev : Option Ptr} (hrun : t.addAt fuel node addr prev = .ok t') :
    listAdd t.ext.list (prev.elim .head .node) (.node node) = .ok t'.ext.list := by
  cases prev with
  | some q =>
    obtain ⟨list, hlist, hrun⟩ := bind_eq_ok.mp hrun
    have hsame := insertAtLoc_keeps (avltreeUpdate_keeps_list list)
      (fun f hf => by cases hf) hrun rfl
    rw [hsame]
    exact hlist
  | none =>
    obtain ⟨⟨result, t₁⟩, hinsert, hrun⟩ := bind_eq_ok.mp hrun
    have hsame := avltreeInsert_keeps (avltreeUpdate_keeps_list t.ext.list)
      (fun f hf => by cases hf) hinsert rfl
    cases result with
    | false => cases hrun
    | true =>
      obtain ⟨list, hlist, hrun⟩ := bind_eq_ok.mp hrun
      cases hrun
      rw [hsame] at hlist
      exact hlist

/-- **A node for which an address is returned is on the list**, next to all those before. -/
theorem findSpace_listed (hold : Holds t T)
    (hring : IsRing t.ext.list .head ((inorder T).map .node)) (hnode : node ∉ inorder T)
    (hfuel : (inorder T).length + 2 ≤ fuel)
    (hrun : t.addrspaceFindSpaceAndAddNode fuel inRange node align = .ok (addr, t'))
    (hvalid : addr ≠ ADDRSPACE_INVALID_ADDR) :
    ∃ A B, inorder T = A ++ B ∧ IsRing t'.ext.list .head ((A ++ node :: B).map .node) := by
  obtain ⟨⟨addr', prev⟩, hsearch, hrun⟩ := bind_eq_ok.mp hrun
  dsimp only at hrun
  split at hrun
  · cases hrun
    exact absurd rfl hvalid
  · obtain ⟨t₁, hadd, hrun⟩ := bind_eq_ok.mp hrun
    cases hrun
    -- the list up to the node that the search came upon, and the rest
    obtain ⟨A, B, hsplit, hlast⟩ : ∃ A B, inorder T = A ++ B ∧
        lastPtr A = prev.elim .head .node := by
      cases prev with
      | none => exact ⟨[], inorder T, rfl, rfl⟩
      | some q =>
        obtain ⟨A, B, hsplit⟩ := List.append_of_mem (findFromStart_prev hold hring hfuel hsearch)
        refine ⟨A ++ [q], B, by rw [hsplit, List.append_assoc]; rfl, ?_⟩
        simp [lastPtr]
    rw [hsplit] at hring hnode
    obtain ⟨list, hlist, hring', -⟩ := listAdd_nodes hring hnode
    rw [hlast, addAt_list hadd] at hlist
    cases hlist
    exact ⟨A, B, hsplit, hring'⟩

end OsKernel.Adt.AddressSpace
