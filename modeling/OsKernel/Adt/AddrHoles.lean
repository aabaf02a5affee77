import OsKernel.Adt.AddrSpaceRuns
import OsKernel.Adt.AvlAugment

/-!
# The largest holes

`largest_free_to_prev` is to be the largest hole before a node of the subtree. The callback
`avltree_update` computes it from the children and from the hole before the node itself, for
which it reads the list. So it has to be called when the node is on the list already, on all
nodes whose subtree or whose hole has changed, and the list must hold nothing but the nodes
of the space.

* `addrspace_add_node` puts the node on the list before the first call, and so does the
  search if there is a node before the room. The hole behind the new node shrinks; the node
  it belongs to is above the new one in the tree and written again on the way up.
* When the room is before all nodes the element of the new node still points at itself. Its
  hole comes out as minus its size, and the number wraps around.
* A double rotation forgets one node.
* A node that has been removed stays on the list, and holes end at it.
-/

namespace OsKernel.Adt.AddressSpace

open LinkedTree LinkedRing AvlTree List Function

variable {q node : Ptr} {e e' : AddrData} {A B : List Ptr} {fuel : Nat} {T : BinaryTree Ptr}
  {range : Range}

/-! ## Holes -/

/-- Where the hole before a node of the space begins: where the node before it ends, or at zero. -/
def holeStart (e : AddrData) (M : List Ptr) (q : Ptr) : Nat := endOf e (M.takeWhile (· ≠ q))

/-- The size of the hole before a node. -/
def gap (e : AddrData) (M : List Ptr) (q : Ptr) : Nat := (e.range q).front - holeStart e M q

/-- At every node `largest_free_to_prev` is the largest hole before a node of its subtree. -/
def HolesRight (t : AddressSpace) (T : BinaryTree Ptr) : Prop :=
  Augmented (gap t.ext (inorder T)) t.ext.largestFreeToPrev T

/-- The hole before a node, as `avltree_update` reads it off the list. -/
def holeBefore (e : AddrData) (node : Ptr) : Nat :=
  match e.addrspaceNodePrev node >>= e.prevEnd with
  | .ok prevEnd => (e.range node).front - prevEnd
  | .error _ => 0

section Holes

variable {t t' : AddressSpace} {live : Set Ptr} {T T' : BinaryTree Ptr}

theorem holeStart_eq {M : List Ptr} (hsplit : M = A ++ q :: B) (hq : q ∉ A) :
    holeStart e M q = endOf e A := by
  have htake : M.takeWhile (fun x => decide (x ≠ q)) = A := by
    rw [hsplit, takeWhile_append_of_pos]
    · simp
    · intro x hx
      rw [decide_eq_true_eq]
      rintro rfl
      exact hq hx
  rw [holeStart, htake]

theorem gap_eq {M : List Ptr} (hsplit : M = A ++ q :: B) (hq : q ∉ A) :
    gap e M q = (e.range q).front - endOf e A := by
  rw [gap, holeStart_eq hsplit hq]

theorem Agrees.notMem_before (h : Agrees t live T) (hsplit : inorder T = A ++ q :: B) : q ∉ A := by
  have hnd := h.holds.nodup
  rw [hsplit, nodup_append] at hnd
  exact fun hm => hnd.2.2 q hm q mem_cons_self rfl

/-- What the code reads off the list is the hole in the space. -/
theorem Agrees.holeBefore_eq (h : Agrees t live T) (hq : q ∈ inorder T) :
    holeBefore t.ext q = gap t.ext (inorder T) q := by
  obtain ⟨A, B, hsplit⟩ := append_of_mem hq
  rw [gap_eq hsplit (h.notMem_before hsplit), holeBefore, h.nodePrev hsplit, ok_bind,
    h.prevEnd hsplit]

theorem holeBefore_congr (hrange : e.range = e'.range) (hlist : e.list = e'.list) :
    holeBefore e = holeBefore e' := by
  obtain ⟨range, list, largest⟩ := e
  subst hrange hlist
  rfl

/-- `avltree_update` stores the largest hole, and the subtraction does not wrap around. -/
theorem Agrees.storesMax (h : Agrees t live T) :
    StoresMax AddrData.largestFreeToPrev (holeBefore t.ext)
      (fun e => e.range = t.ext.range ∧ e.list = t.ext.list) {x | x ∈ inorder T} avltreeUpdate := by
  intro t1 q hq hI
  obtain ⟨hrange, hlist⟩ := hI
  obtain ⟨A, B, hsplit⟩ := append_of_mem hq
  have hsame : holeBefore t1.ext q = holeBefore t.ext q := by rw [holeBefore_congr hrange hlist]
  have hprev : t1.ext.addrspaceNodePrev q = .ok A.getLast? := by
    rw [← h.nodePrev hsplit]
    unfold AddrData.addrspaceNodePrev
    rw [hlist]
  have hend : t1.ext.prevEnd A.getLast? = .ok (endOf t.ext A) := by
    rw [← h.prevEnd hsplit]
    cases A.getLast? with
    | none => rfl
    | some p =>
      unfold AddrData.prevEnd
      rw [hrange]
  -- the hole is there, so the difference is one of natural numbers
  have hdiff : ((t1.ext.range q).front + U64 - endOf t.ext A) % U64 = holeBefore t.ext q := by
    have hle := h.endOf_le_front hsplit
    have hlt := (h.fits q hq).2
    rw [← hsame, holeBefore, hprev, ok_bind, hend, hrange]
    simp only [Range.end_, U64] at hlt ⊢
    omega
  refine ⟨{ t1.ext with
    largestFreeToPrev := update t1.ext.largestFreeToPrev q
      (max (holeBefore t.ext q) (max (kept t1.ext.largestFreeToPrev (t1.nodes q).left)
        (kept t1.ext.largestFreeToPrev (t1.nodes q).right))) }, ?_, ⟨hrange, hlist⟩, rfl⟩
  unfold avltreeUpdate
  simp only [hprev, hend, ok_bind, pure_eq_ok, hdiff]
  cases (t1.nodes q).left <;> cases (t1.nodes q).right <;> simp [kept, Nat.max_assoc]

/-- Only the node right behind a new one gets another hole. -/
theorem gap_insert (hrange : e'.range = Function.update e.range node range)
    (hnd : (A ++ node :: B).Nodup) (hq : q ∈ A ++ B) (hhead : B.head? ≠ some q) :
    gap e' (A ++ node :: B) q = gap e (A ++ B) q := by
  rw [nodup_middle, nodup_cons] at hnd
  obtain ⟨hnew, hnd⟩ := hnd
  have hother : ∀ x ∈ A ++ B, e'.range x = e.range x := by
    intro x hx
    rw [hrange, update_of_ne]
    rintro rfl
    exact hnew hx
  have hends : ∀ X Y : List Ptr, X.getLast? = Y.getLast? → (∀ x ∈ Y, x ∈ A ++ B) →
      endOf e' X = endOf e Y := by
    intro X Y hlast hY
    unfold endOf
    rw [hlast]
    cases hx : Y.getLast? with
    | none => rfl
    | some x => simp only [hother x (hY x (mem_of_getLast? hx))]
  rcases mem_append.mp hq with hqA | hqB
  · -- `q` is before the new node
    obtain ⟨X, Y, rfl⟩ := append_of_mem hqA
    have hqX : q ∉ X := by
      rw [append_assoc, nodup_append] at hnd
      exact fun hm => hnd.2.2 q hm q (by simp) rfl
    rw [@gap_eq _ _ X (Y ++ node :: B) _ (by simp) hqX, @gap_eq _ _ X (Y ++ B) _ (by simp) hqX,
      hother q hq, hends X X rfl fun x hx => by simp [hx]]
  · -- `q` is behind it, with a node `b` in between
    obtain ⟨b, B', rfl⟩ := exists_cons_of_ne_nil (ne_nil_of_mem hqB)
    have hqB' : q ∈ B' := by
      rcases mem_cons.mp hqB with rfl | hqB'
      · exact absurd rfl hhead
      · exact hqB'
    obtain ⟨X, Y, rfl⟩ := append_of_mem hqB'
    have hqX : q ∉ A ++ b :: X := by
      rw [← cons_append, ← append_assoc, nodup_append] at hnd
      exact fun hm => hnd.2.2 q hm q mem_cons_self rfl
    have hqnew : q ∉ A ++ node :: b :: X := by
      simp only [mem_append, mem_cons, not_or] at hqX hnew ⊢
      tauto
    rw [@gap_eq _ _ (A ++ node :: b :: X) Y _ (by simp) hqnew,
      @gap_eq _ _ (A ++ b :: X) Y _ (by simp) hqX, hother q hq,
      hends (A ++ node :: b :: X) (A ++ b :: X) (by simp) fun x hx => ?_]
    simp only [mem_append, mem_cons] at hx ⊢
    tauto

/-! ## Adding a node -/

/-- A turn that leaves the numbers right. -/
def Quiet (t : AddressSpace) (node : Ptr) : Prop :=
  QuietTurn AddrData.largestFreeToPrev (holeBefore t.ext) t node

instance (t : AddressSpace) (node : Ptr) : Decidable (t.Quiet node) :=
  inferInstanceAs (Decidable (QuietTurn _ _ _ _))

/-- The node is linked in, and all turns on the way up leave the numbers right. -/
def QuietInsert (t : AddressSpace) (fuel : Nat) (node : Ptr) (parent : Option Ptr) (link : AvlLink)
    (addedNode : Option (AvlCallback AddrData)) : Prop :=
  (t.linkNode node parent link (some avltreeUpdate) addedNode).All fun t' =>
    EachTurn Quiet (some avltreeUpdate) fuel t' parent

instance (t : AddressSpace) (fuel : Nat) (node : Ptr) (parent : Option Ptr) (link : AvlLink)
    (addedNode : Option (AvlCallback AddrData)) :
    Decidable (QuietInsert t fuel node parent link addedNode) :=
  inferInstanceAs (Decidable ((t.linkNode node parent link _ addedNode).All _))

/-- **A node put in its place leaves all holes right**, if the turns are quiet. -/
theorem Placed.holes (h : Agrees t live T) (hholes : HolesRight t T) {c : Ctx Ptr}
    {list : ListPtr → RingLinks ListPtr} (hp : Placed t T node range c list) (hnode : node ∉ live)
    (hfits : range.Fits) (hfuel : (inorder T).length ≤ fuel) {t0 : AddressSpace} (hold : Holds t0 T)
    (hrange : t0.ext.range = Function.update t.ext.range node range)
    (hlargest : t0.ext.largestFreeToPrev = t.ext.largestFreeToPrev)
    {addedNode : Option (AvlCallback AddrData)}
    (hadded : ∀ t1 : AddressSpace, Holds t1 (plug c (.node node .nil .nil)) → t1.ext = t0.ext →
      t1.avlnodeUpdate node addedNode = .ok { t1 with ext := { t0.ext with list := list } })
    (hquiet : QuietInsert t0 fuel node c.parent (ctxLink c) addedNode) :
    ∃ t' T', t0.insertAtLoc fuel node c.parent (ctxLink c) (some avltreeUpdate) addedNode = .ok t' ∧
      Agrees t' (live ∪ {node}) T' ∧ KeepsIdle t t' (live ∪ {node}) ∧ HolesRight t' T' := by
  obtain ⟨t', T', hrun, hagrees, hidle, hsame, hrange', hlist'⟩ :=
    hp.insert h hnode hfits hfuel hold hrange hadded
  have hnd : (before c ++ node :: after c).Nodup := by
    rw [← hsame]
    exact hagrees.holds.nodup
  have hnot : node ∉ before c ++ after c := by
    rw [nodup_middle] at hnd
    exact (nodup_cons.mp hnd).1
  have hlen : c.length ≤ fuel := by
    have hle := length_le_before_after c
    rw [← length_append, ← hp.split] at hle
    exact hle.trans hfuel
  -- beside the way up nothing has changed
  have hsides : SidesAugmented (holeBefore t'.ext) t.ext.largestFreeToPrev c := by
    have hold' : SidesAugmented (gap t.ext (inorder T)) t.ext.largestFreeToPrev c := by
      have hwhole : Augmented (gap t.ext (inorder T)) t.ext.largestFreeToPrev (plug c .nil) := by
        rw [hp.tree]
        exact hholes
      exact hwhole.of_plug.2
    refine hold'.change (nodup_cons.mp (nodup_middle.mp hnd)).2 ?_
    intro q hq hhead
    have hq' : q ∈ inorder T' := by
      rw [hsame]
      simp only [mem_append, mem_cons] at hq ⊢
      tauto
    rw [hagrees.holeBefore_eq hq', hsame, hp.split]
    exact gap_insert hrange' hnd hq hhead
  have hP : ∀ (t1 : AddressSpace) (p : Ptr),
      t1.ext.range = t'.ext.range ∧ t1.ext.list = t'.ext.list → Quiet t1 p →
      QuietTurn AddrData.largestFreeToPrev (holeBefore t'.ext) t1 p := by
    intro t1 p hI hturn
    rw [← holeBefore_congr hI.1 hI.2]
    exact hturn
  obtain ⟨t2, T2, hrun2, hold2, -, -, haug⟩ := insertAtLoc_augmented hagrees.storesMax hP fuel
    (by rw [hp.tree]; exact hold) hnot (fun x hx => by rw [Set.mem_ofPred_eq, hsame]; exact hx) hlen
    (fun t1 hold1 hext => ⟨_, hadded t1 hold1 hext, ⟨hrange.trans hrange'.symm, hlist'.symm⟩, by
      rw [← hlargest] at hsides
      exact hsides⟩) hquiet
  have heq : t2 = t' := by
    rw [hrun2] at hrun
    injection hrun
  subst heq
  have htree := hold2.unique hagrees.holds
  subst htree
  exact ⟨t2, T2, hrun, hagrees, hidle,
    haug.congr (fun q hq => (hagrees.holeBefore_eq hq).symm) fun _ _ => rfl⟩

theorem HolesRight.setRange (h : Agrees t live T) (hholes : HolesRight t T) (hnode : node ∉ live)
    (range : Range) : HolesRight (t.setRange node range) T := by
  refine Augmented.congr hholes ?_ fun _ _ => rfl
  intro q hq
  obtain ⟨A, B, hsplit⟩ := append_of_mem hq
  have hsame : ∀ p ∈ inorder T, (t.setRange node range).ext.range p = t.ext.range p := by
    intro p hp
    refine update_of_ne ?_ _ _
    rintro rfl
    exact hnode ((h.mem p).mp hp)
  rw [gap_eq hsplit (h.notMem_before hsplit), gap_eq hsplit (h.notMem_before hsplit), hsame q hq]
  unfold endOf
  cases hlast : A.getLast? with
  | none => rfl
  | some p =>
    have hp : p ∈ inorder T := by
      rw [hsplit]
      exact mem_append_left _ (mem_of_getLast? hlast)
    simp only [hsame p hp]

end Holes

/-! ## Runs -/

/--
The call leaves the holes right.

* `find`: if there is room it is behind some node, and the turns after the insertion are quiet.
* `add`: the turns after the insertion are quiet, if there is one.
* `remove`: never.
-/
def Op.Quiet (fuel : Nat) (s : AddressSpace × List Ptr) : Op → Prop
  | .find node size inRange align =>
    ((s.1.withSize node size).findFromStart fuel inRange size align).All fun found =>
      found.1 ≠ ADDRSPACE_INVALID_ADDR → ∃ p ∈ found.2,
        (listAdd s.1.ext.list (.node p) (.node node)).All fun list =>
          QuietInsert (((s.1.withSize node size).setRange node ⟨found.1, size⟩).setList list) fuel
            node (some p) (.right p) none
  | .add node range =>
    ((s.1.setRange node range).findPlace node avltreeCompare fuel s.1.root none .root).All
      fun place => ∀ at_ ∈ place,
        QuietInsert (s.1.setRange node range) fuel node at_.1 at_.2 (some addNodeCb)
  | .remove _ => False

/-- Every call is legal where it is made, keeps list and tree in step and leaves the holes right. -/
def Op.QuietRun (fuel : Nat) (s : AddressSpace × List Ptr) : List Op → Prop
  | [] => True
  | op :: ops => op.Legal s.2 ∧ op.Safe fuel s ∧ op.Quiet fuel s ∧
      ∀ s', op.exec fuel s = .ok s' → QuietRun fuel s' ops

/-- List, tree and holes. -/
structure Kept (s : AddressSpace × List Ptr) (T : BinaryTree Ptr) : Prop where
  inStep : InStep s T
  holes : HolesRight s.1 T

theorem Op.exec_holes {s : AddressSpace × List Ptr} (h : Kept s T) (hfuel : s.2.length + 2 ≤ fuel)
    (op : Op) (hlegal : op.Legal s.2) (hsafe : op.Safe fuel s) (hquiet : op.Quiet fuel s) :
    ∃ s' T', op.exec fuel s = .ok s' ∧ Kept s' T' ∧ s'.2.length ≤ s.2.length + 1 := by
  have hagrees := h.inStep.agrees
  have hlen : (inorder T).length + 2 ≤ fuel :=
    (Nat.add_le_add_right h.inStep.length_le 2).trans hfuel
  cases op with
  | find node size inRange align =>
    obtain ⟨hnode, hsize, hwrap⟩ := hlegal
    obtain ⟨hpanic, hright⟩ := hsafe
    have hsized : Agrees (s.1.withSize node size) {p | p ∈ s.2} T := hagrees.setRange hnode _
    have hsizedHoles : HolesRight (s.1.withSize node size) T := h.holes.setRange hagrees hnode _
    have hself : ((s.1.withSize node size).ext.range node).size = size := by
      simp [withSize, AddressSpace.setRange]
    have htotal : (∃ r, (s.1.withSize node size).findFromStart fuel inRange size align = .ok r) ∨
        (s.1.withSize node size).findFromStart fuel inRange size align = .error .panic :=
      hsized.search_total hsize hlen
    rcases htotal with ⟨⟨addr, prev⟩, hsearch⟩ | herr
    · by_cases hvalid : addr = ADDRSPACE_INVALID_ADDR
      · refine ⟨(s.1.withSize node size, s.2), T, ?_, ⟨⟨hsized, h.inStep.idle⟩, hsizedHoles⟩,
          Nat.le_succ _⟩
        simp [Op.exec, addrspaceFindSpaceAndAddNode, hself, hsearch, hvalid]
      · simp only [Op.Quiet, hsearch, all_ok] at hquiet
        obtain ⟨p, hp, hturns⟩ := hquiet hvalid
        cases hp
        have hfound := hsized.search_room hsize hlen hwrap hsearch hvalid
        have hroom : Room (s.1.withSize node size) T addr
            ((s.1.withSize node size).ext.range node).size (some p) := by
          rw [hself]
          exact hfound
        obtain ⟨c, list, hplaced, hpar, hlink, hadd, hrun⟩ := addAt_some_eq hsized hnode hroom
          (hright addr p hsearch hvalid)
        have hadd' : listAdd s.1.ext.list (.node p) (.node node) = .ok list := hadd
        rw [hadd', all_ok, ← hpar, ← hlink] at hturns
        rw [hself] at hplaced hrun
        have hold : Holds (((s.1.withSize node size).setRange node ⟨addr, size⟩).setList list) T :=
          hsized.holds.of_links rfl rfl
        obtain ⟨t', T', hins, hagrees', hidle, hholes'⟩ := hplaced.holes hsized hsizedHoles hnode
          ⟨hsize, hfound.fits⟩ (Nat.le_of_add_right_le hlen) hold rfl rfl
          (fun t1 _ hext => avlnodeUpdate_listed _ list node t1 hext) hturns
        refine ⟨(t', node :: s.2), T', ?_, ⟨h.inStep.grow rfl hagrees' hidle, hholes'⟩, le_rfl⟩
        have hfind : (s.1.withSize node size).addrspaceFindSpaceAndAddNode fuel inRange node align
            = .ok (addr, t') := findSpace_eq (by rw [hself]; exact hsearch) hvalid (by rw [hrun, hins])
        simp [Op.exec, hfind, hvalid]
    · exact absurd herr hpanic
  | add node range =>
    obtain ⟨hnode, hfits⟩ := hlegal
    have hranged := hagrees.setRange hnode range
    have hself : (s.1.setRange node range).ext.range node = range := update_self ..
    have hfits' : ((s.1.setRange node range).ext.range node).Fits := by
      rw [hself]
      exact hfits
    have hshort : (inorder T).length ≤ fuel := Nat.le_of_add_right_le hlen
    rcases addNode_eq hranged hnode hfits' (Op.Safe.low hnode hsafe) hshort with
      hrun | ⟨c, list, hplaced, hplace, hrun, hadded⟩
    · refine ⟨(s.1.setRange node range, s.2), T, ?_,
        ⟨⟨hranged, h.inStep.idle⟩, h.holes.setRange hagrees hnode range⟩, Nat.le_succ _⟩
      simp [Op.exec, hrun]
    · have hplace' : (s.1.setRange node range).findPlace node avltreeCompare fuel s.1.root none .root
          = .ok (some (c.parent, ctxLink c)) := hplace
      simp only [Op.Quiet, hplace', all_ok] at hquiet
      obtain ⟨t', T', hins, hagrees', hidle, hholes'⟩ := hplaced.holes hranged
        (h.holes.setRange hagrees hnode range) hnode hfits' hshort hranged.holds
        (by rw [update_eq_self]) rfl hadded (hquiet _ rfl)
      refine ⟨(t', node :: s.2), T', ?_, ⟨h.inStep.grow rfl hagrees' hidle, hholes'⟩, le_rfl⟩
      simp [Op.exec, hrun, hins, Except.map]
  | remove node => exact hsafe.elim

theorem Op.run_holes (ops : List Op) {s : AddressSpace × List Ptr} {T : BinaryTree Ptr}
    (h : Kept s T) (hquiet : Op.QuietRun fuel s ops) (hfuel : s.2.length + ops.length + 1 ≤ fuel) :
    ∃ s' T', Op.run fuel s ops = .ok s' ∧ Kept s' T' := by
  refine Op.run_keeps (R := Op.QuietRun fuel) ?_ ops h hquiet hfuel
  intro s T op ops h ⟨hlegal, hsafe, hnow, hrest⟩ hlen
  obtain ⟨s', T', hexec, h', hgrow⟩ := Op.exec_holes h hlen op hlegal hsafe hnow
  exact ⟨s', T', hexec, h', hrest s' hexec, hgrow⟩

/--
**Over every run of quiet calls `largest_free_to_prev` is the largest hole below every node.** The
nodes ascend, so that no hole is negative.
-/
theorem addrspace_holes_right (range : Ptr → Range) (ops : List Op) {fuel : Nat}
    (hquiet : Op.QuietRun fuel (blank range, []) ops) (hfuel : ops.length + 1 ≤ fuel) :
    ∃ t live T, Op.run fuel (blank range, []) ops = .ok (t, live) ∧ Agrees t {p | p ∈ live} T ∧
      HolesRight t T := by
  have hblank : Kept (blank range, []) .nil := ⟨blank_inStep range, trivial⟩
  obtain ⟨⟨t, live⟩, T, hrun, h⟩ := Op.run_holes ops hblank hquiet (by simpa using hfuel)
  exact ⟨t, live, T, hrun, h.inStep.agrees, h.holes⟩

instance (fuel : Nat) (s : AddressSpace × List Ptr) (op : Op) : Decidable (op.Quiet fuel s) :=
  match op with
  | .find node size inRange align => inferInstanceAs (Decidable
      (((s.1.withSize node size).findFromStart fuel inRange size align).All _))
  | .add node range => inferInstanceAs (Decidable
      (((s.1.setRange node range).findPlace node avltreeCompare fuel s.1.root none .root).All _))
  | .remove _ => .isFalse id

/-- Three nodes with a rotation, the last one in the room that the search finds. -/
theorem addrspace_holes_right_three :
    ∃ t live T, Op.run 4 (blank fun _ => ⟨0, 0⟩, [])
        [.add 1 ⟨0x1000, 0x1000⟩, .add 2 ⟨0x8000, 0x1000⟩,
          .find 3 0x1000 ⟨0x9000, 0x4000⟩ 0x1000] = .ok (t, live) ∧
      Agrees t {p | p ∈ live} T ∧ HolesRight t T := by
  refine addrspace_holes_right _ _ ⟨⟨by decide, by decide⟩, .inl rfl, by decide +kernel, ?_⟩
    (Nat.le_refl 4)
  intro s1 hexec1
  cases hexec1
  refine ⟨⟨by decide, by decide⟩, .inr (.inr ⟨1, by decide, by decide⟩), by decide +kernel, ?_⟩
  intro s2 hexec2
  cases hexec2
  refine ⟨⟨by decide, by decide, by decide⟩, ⟨?_, ?_⟩, by decide +kernel, fun _ _ => trivial⟩
  · intro hrun
    cases hrun
  · intro addr p hrun _
    injection hrun with hrun
    rw [Prod.mk.injEq] at hrun
    obtain ⟨-, hp⟩ := hrun
    cases hp
    rfl

instance (t : AddressSpace) (T : BinaryTree Ptr) : Decidable (Holds t T) :=
  decidable_of_iff (Rep t.links T none t.root ∧ (inorder T).Nodup)
    ⟨fun h => ⟨h.1, h.2⟩, fun h => ⟨h.rep, h.nodup⟩⟩

instance (t : AddressSpace) (T : BinaryTree Ptr) : Decidable (HolesRight t T) :=
  inferInstanceAs (Decidable (Augmented _ _ T))

/-- A run from the empty space ends with a wrong number in the tree `T`. -/
def EndsWrong (ops : List Op) (T : BinaryTree Ptr) : Prop :=
  ∃ s, Op.run 5 (blank fun _ => ⟨0, 0⟩, []) ops = .ok s ∧ Holds s.1 T ∧ ¬ HolesRight s.1 T

theorem endsWrong_of_map {ops : List Op} (h : (Op.run 5 (blank fun _ => ⟨0, 0⟩, []) ops).map
      (fun s => decide (Holds s.1 T ∧ ¬ HolesRight s.1 T)) = .ok true) : EndsWrong ops T := by
  obtain ⟨s, hrun, hwrong⟩ := map_eq_ok.mp h
  exact ⟨s, hrun, of_decide_eq_true hwrong⟩

/--
Three runs that leave a wrong number: a node is put into an empty space by the search; a node is
added between two others and they rotate twice; a node is removed from between two others.
-/
theorem addrspace_holes_wrong :
    EndsWrong [.find 1 0x1000 ⟨0x2000, 0x4000⟩ 0x1000] (.node 1 .nil .nil) ∧
    EndsWrong [.add 1 ⟨0x1000, 0x1000⟩, .add 3 ⟨0x100000, 0x1000⟩, .add 2 ⟨0xC0000, 0x1000⟩]
      (.node 2 (.node 1 .nil .nil) (.node 3 .nil .nil)) ∧
    EndsWrong [.add 1 ⟨0x1000, 0x1000⟩, .add 2 ⟨0x4000, 0x1000⟩, .add 3 ⟨0x6000, 0x1000⟩, .remove 2]
      (.node 3 (.node 1 .nil .nil) .nil) :=
  ⟨endsWrong_of_map (by decide +kernel), endsWrong_of_map (by decide +kernel),
    endsWrong_of_map (by decide +kernel)⟩

end OsKernel.Adt.AddressSpace
