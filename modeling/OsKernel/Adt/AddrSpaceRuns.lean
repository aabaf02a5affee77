import OsKernel.Adt.AddrSpaceProof

/-!
# Address spaces over whole runs

`addrspace_find_space_and_add_node` finds room that is free and aligned, but when it
gives up on the holes and takes the room behind the last node it does not look whether
that is inside the range asked for. Which of the two happens depends on the nodes that
the search visits.

Over a run of calls the list and the tree stay in step as long as every call does; each
of the three calls has inputs on which it does not.
-/

namespace OsKernel.Adt.AddressSpace

open LinkedTree LinkedRing AvlTree List Function

variable {t t' : AddressSpace} {live : Set Ptr} {T T' : BinaryTree Ptr}
variable {node : Ptr} {addr fuel : Nat} {s : AddressSpace × List Ptr} {prev : Option Ptr}

/-! ## The address returned -/

section Find

variable {inRange : Range} {size align fuel : Nat}

theorem Room.disjoint (h : Agrees t live T) (hroom : Room t T addr size prev) :
    ∀ p ∈ live, Disjoint (Set.Ico addr (addr + size)) (t.ext.range p).locs := by
  intro p hp
  obtain ⟨A, B, hsplit, -, hend, hB⟩ := hroom.split
  have hmem := (h.mem p).mpr hp
  rw [hsplit] at hmem
  rcases mem_append.mp hmem with hmem | hmem
  · have hle : (t.ext.range p).end_ ≤ (⟨addr, size⟩ : Range).front :=
      (h.le_endOf hsplit p hmem).trans hend
    exact (Range.disjoint_locs hle).symm
  · have hle : (⟨addr, size⟩ : Range).end_ ≤ (t.ext.range p).front := hB p hmem
    exact Range.disjoint_locs hle

theorem findFromStart_empty (h : Holds t .nil) (hsize : 1 ≤ size) :
    t.findFromStart fuel inRange size align =
      match alignUp inRange.front align with
      | none => .error .panic
      | some a =>
        if Inside inRange a size then .ok (a, none) else .ok (ADDRSPACE_INVALID_ADDR, none) := by
  have hroot : t.root = none := h.rep
  unfold findFromStart alignUpAssert
  rw [hroot]
  cases alignUp inRange.front align with
  | none => rfl
  | some a =>
    have hin : inRange.has ⟨a, size⟩ = true ↔ Inside inRange a size := Range.has_iff hsize
    simp only [ok_bind, hin]
    rfl

section

variable (h : Agrees t live T) (hsize : 1 ≤ size) (hfuel : (inorder T).length + 2 ≤ fuel)
include h hsize hfuel

/-- The search returns, or one of its assertions fails. -/
theorem Agrees.search_total :
    (∃ r, t.findFromStart fuel inRange size align = .ok r) ∨
      t.findFromStart fuel inRange size align = .error .panic := by
  by_cases hne : T = .nil
  · subst hne
    rw [findFromStart_empty h.holds hsize]
    cases alignUp inRange.front align with
    | none => exact .inr rfl
    | some a =>
      left
      dsimp only
      split
      · exact ⟨_, rfl⟩
      · exact ⟨_, rfl⟩
  · rw [findFromStart_eq h.holds hne hfuel]
    have hscan : ∀ V : List Ptr, (∀ q ∈ V, q ∈ inorder T) →
        (∃ r, scan t.ext inRange size align V = .ok r) ∨
          scan t.ext inRange size align V = .error .panic := by
      intro V
      induction V with
      | nil =>
        intro _
        obtain ⟨A, q, hsplit⟩ := exists_last hne
        rw [scan, h.afterLast_eq hsplit]
        split
        · left
          split
          · exact ⟨_, rfl⟩
          · split
            · exact ⟨_, rfl⟩
            · split
              · exact ⟨_, rfl⟩
              · exact ⟨_, rfl⟩
        · exact .inr rfl
      | cons q V ih =>
        intro hV
        obtain ⟨A, B, hsplit⟩ := append_of_mem (hV q mem_cons_self)
        rw [scan, h.tryHole_eq hsize hsplit]
        split
        · exact .inl ⟨_, rfl⟩
        · split
          · exact .inr rfl
          · split
            · exact .inl ⟨_, rfl⟩
            · exact ih fun x hx => hV x (.tail _ hx)
    exact hscan _ fun q hq => mem_visits hq

theorem Agrees.search_room (hwrap : inRange.end_ < U64)
    (hrun : t.findFromStart fuel inRange size align = .ok (addr, prev))
    (hvalid : addr ≠ ADDRSPACE_INVALID_ADDR) : Room t T addr size prev := by
  by_cases hne : T = .nil
  · subst hne
    rw [findFromStart_empty h.holds hsize] at hrun
    split at hrun
    · cases hrun
    · split at hrun
      · rename_i hin
        obtain ⟨rfl, rfl⟩ := hrun
        exact ⟨⟨[], [], rfl, rfl, Nat.zero_le _, by simp⟩, lt_of_le_of_lt hin.2 hwrap⟩
      · simp only [Except.ok.injEq, Prod.mk.injEq] at hrun
        exact absurd hrun.1.symm hvalid
  · rw [findFromStart_eq h.holds hne hfuel] at hrun
    exact (h.scan_found hsize hne hvalid (fun q hq => mem_visits hq) hrun).1

end

/--
The room behind the last node, where the code accepts it: below the end of `in_range`, alignable,
and not past the end of the address space.
-/
def LastInside (t : AddressSpace) (T : BinaryTree Ptr) (inRange : Range) (size align : Nat) : Prop :=
  ∀ a, inRange.end_ < U64 → endOf t.ext (inorder T) < inRange.end_ →
    alignUp (endOf t.ext (inorder T)) align = some a → a + size < U64 → Inside inRange a size

theorem findSpace_eq
    (hsearch : t.findFromStart fuel inRange (t.ext.range node).size align = .ok (addr, prev))
    (hvalid : addr ≠ ADDRSPACE_INVALID_ADDR) (hadd : t.addAt fuel node addr prev = .ok t') :
    t.addrspaceFindSpaceAndAddNode fuel inRange node align = .ok (addr, t') := by
  unfold addrspaceFindSpaceAndAddNode
  rw [hsearch]
  simp only [ok_bind, if_neg hvalid, hadd, pure_eq_ok]

theorem Agrees.last_right (h : Agrees t live T) {A : List Ptr} {q : Ptr}
    (hsplit : inorder T = A ++ [q]) : (t.nodes q).right = none := by
  obtain ⟨c, l, r, rfl⟩ := exists_plug_of_mem (p := q) (by rw [hsplit]; simp)
  obtain ⟨_, _, _, _, _, hr⟩ := rep_plug.mp h.holds.rep
  have hnd := h.holds.nodup
  rw [hsplit] at hnd
  have hwhole : A ++ q :: [] = (before c ++ inorder l) ++ q :: (inorder r ++ after c) := by
    rw [← hsplit, inorder_plug, inorder_node]
    simp
  have hqA : q ∉ A := fun hm => (nodup_append.mp hnd).2.2 q hm q mem_cons_self rfl
  obtain ⟨-, -, hnil⟩ := (append_cons_inj_of_notMem hqA (not_mem_nil)).mp hwhole
  refine hr.at_none_iff.mpr ?_
  cases r with
  | nil => rfl
  | node p rl rr => simp at hnil

/--
**An address that the search returns is aligned, free and inside `in_range`, except behind the last
node.** The exception never occurs in an empty space or when the search ends at one of the nodes it
visits; when it goes past all of them, the room behind the last node has to be inside by luck.
-/
theorem findSpace_inside_iff (inRange : Range) (h : Agrees t live T) {node : Ptr}
    (hnode : node ∉ live) (hsize : 1 ≤ (t.ext.range node).size) {k : Nat} (hk : k < 64)
    (hfuel : (inorder T).length + 2 ≤ fuel) :
    (∀ addr t', t.addrspaceFindSpaceAndAddNode fuel inRange node (2 ^ k) = .ok (addr, t') →
      addr ≠ ADDRSPACE_INVALID_ADDR →
      2 ^ k ∣ addr ∧ Inside inRange addr (t.ext.range node).size ∧
        ∀ p ∈ live,
          Disjoint (Set.Ico addr (addr + (t.ext.range node).size)) (t.ext.range p).locs) ↔
    T = .nil ∨
      (∃ q ∈ visits t inRange (t.ext.range node).size T,
        StopsAt t T inRange (t.ext.range node).size (2 ^ k) q) ∨
      LastInside t T inRange (t.ext.range node).size (2 ^ k) := by
  constructor
  · intro hall
    by_contra hno
    simp only [not_or, not_exists, not_and, LastInside, not_forall] at hno
    obtain ⟨hne, hgo, a, hin, hbelow, hup, hend, hout⟩ := hno
    have hvalid : a ≠ ADDRSPACE_INVALID_ADDR := by
      unfold ADDRSPACE_INVALID_ADDR
      omega
    obtain ⟨A, q, hsplit⟩ := exists_last hne
    have hlast : endOf t.ext (inorder T) = (t.ext.range q).end_ := by simp [endOf, hsplit]
    rw [hlast] at hbelow hup
    have hsearch : t.findFromStart fuel inRange (t.ext.range node).size (2 ^ k) = .ok (a, some q) := by
      rw [findFromStart_eq h.holds hne hfuel, h.scan_pass hsize (fun q hq => mem_visits hq) hgo,
        h.afterLast_eq hsplit, if_pos hin, if_neg (not_le.mpr hbelow), hup]
      exact if_pos hend
    have hroom := h.search_room hsize hfuel hin hsearch hvalid
    obtain ⟨t', T', hadd, -⟩ := addAt_some h hnode hsize hroom (h.last_right hsplit)
      (Nat.le_of_add_right_le hfuel)
    exact hout (hall a t' (findSpace_eq hsearch hvalid hadd) hvalid).2.1
  · intro hcond addr t' hrun hvalid
    obtain ⟨⟨addr', prev⟩, hsearch, hrun⟩ := bind_eq_ok.mp hrun
    obtain rfl : addr = addr' := by
      dsimp only at hrun
      split at hrun
      · injection hrun with hrun
        rw [Prod.mk.injEq] at hrun
        exact absurd hrun.1.symm hvalid
      · obtain ⟨t1, _, hrun⟩ := bind_eq_ok.mp hrun
        injection hrun with hrun
        exact (Prod.mk.inj hrun).1.symm
    by_cases hne : T = .nil
    · -- an empty space: the room is at the front of `in_range`
      subst hne
      rw [findFromStart_empty h.holds hsize] at hsearch
      split at hsearch
      · cases hsearch
      · rename_i a hup
        split at hsearch
        · rename_i hin
          obtain ⟨rfl, rfl⟩ := hsearch
          refine ⟨(alignUp_two_pow hk.le hup).1, hin, ?_⟩
          intro p hp
          have hmem := (h.mem p).mpr hp
          cases hmem
        · simp only [Except.ok.injEq, Prod.mk.injEq] at hsearch
          exact absurd hsearch.1.symm hvalid
    · rw [findFromStart_eq h.holds hne hfuel] at hsearch
      have hvisits : ∀ q ∈ visits t inRange (t.ext.range node).size T, q ∈ inorder T :=
        fun q hq => mem_visits hq
      obtain ⟨hroom, ⟨n, hup⟩, hstop⟩ := h.scan_found hsize hne hvalid hvisits hsearch
      refine ⟨(alignUp_two_pow hk.le hup).1, ?_, hroom.disjoint h⟩
      by_cases hsome : ∃ q ∈ visits t inRange (t.ext.range node).size T,
          StopsAt t T inRange (t.ext.range node).size (2 ^ k) q
      · exact hstop hsome
      · -- past all nodes: the room behind the last one
        have hlast : LastInside t T inRange (t.ext.range node).size (2 ^ k) := by
          rcases hcond with hcond | hcond | hcond
          · exact absurd hcond hne
          · exact absurd hcond hsome
          · exact hcond
        have hgo : ∀ q ∈ visits t inRange (t.ext.range node).size T,
            ¬ StopsAt t T inRange (t.ext.range node).size (2 ^ k) q :=
          fun q hq hs => hsome ⟨q, hq, hs⟩
        rw [h.scan_pass hsize hvisits hgo] at hsearch
        obtain ⟨-, hin, hbelow, hup'⟩ := h.afterLast_found hne hsearch hvalid
        exact hlast addr hin hbelow hup' hroom.fits

/-- A search that finds nothing leaves the space alone, and one that finds room adds the node. -/
theorem findSpace_spec (h : Agrees t live T) (hnode : node ∉ live)
    (hsame : (t.ext.range node).size = size) (hsize : 1 ≤ size) (hwrap : inRange.end_ < U64)
    (hidle : (t.ext.list (.node node)).prev = some (.node node))
    (hfuel : (inorder T).length + 2 ≤ fuel)
    (hpanic : t.findFromStart fuel inRange size align ≠ .error .panic)
    (hright : ∀ addr p, t.findFromStart fuel inRange size align = .ok (addr, some p) →
      addr ≠ ADDRSPACE_INVALID_ADDR → (t.nodes p).right = none) :
    t.addrspaceFindSpaceAndAddNode fuel inRange node align = .ok (ADDRSPACE_INVALID_ADDR, t) ∨
    ∃ addr t' T', t.addrspaceFindSpaceAndAddNode fuel inRange node align = .ok (addr, t') ∧
      addr ≠ ADDRSPACE_INVALID_ADDR ∧ Agrees t' (live ∪ {node}) T' ∧
      KeepsIdle t t' (live ∪ {node}) := by
  subst hsame
  have hlen : (inorder T).length ≤ fuel := Nat.le_of_add_right_le hfuel
  rcases h.search_total hsize hfuel with ⟨⟨addr, prev⟩, hsearch⟩ | herr
  · by_cases hvalid : addr = ADDRSPACE_INVALID_ADDR
    · left
      unfold addrspaceFindSpaceAndAddNode
      rw [hsearch, hvalid]
      rfl
    · right
      have hroom := h.search_room hsize hfuel hwrap hsearch hvalid
      cases prev with
      | none =>
        obtain ⟨t', T', hadd, hagrees, hkeep⟩ := addAt_none h hnode hsize hroom hidle hlen
        exact ⟨addr, t', T', findSpace_eq hsearch hvalid hadd, hvalid, hagrees, hkeep⟩
      | some p =>
        have hfree := hright addr p hsearch hvalid
        obtain ⟨t', T', hadd, hagrees, hkeep⟩ := addAt_some h hnode hsize hroom hfree hlen
        exact ⟨addr, t', T', findSpace_eq hsearch hvalid hadd, hvalid, hagrees, hkeep⟩
  · exact absurd herr hpanic

end Find

/-! ## The empty space -/

/-- `ADDRSPACE_INIT`, among nodes that `ADDRSPACE_NODE_INIT` has set up and given ranges. -/
def blank (range : Ptr → Range) : AddressSpace where
  nodes := fun _ => { parent := none, left := none, right := none, height := 0 }
  root := none
  ext := { range := range, list := fun p => ⟨some p, some p⟩, largestFreeToPrev := fun _ => 0 }

theorem blank_agrees (range : Ptr → Range) : Agrees (blank range) ∅ .nil where
  holds := ⟨rfl, List.nodup_nil⟩
  ring := ⟨⟨rfl, rfl⟩, List.nodup_singleton _⟩
  mem := by simp
  ordered := List.Pairwise.nil
  fits := by simp

/-- The page before the second of three nodes. -/
theorem findSpace_inside_iff_three :
    ∃ t', threePages.addrspaceFindSpaceAndAddNode 5 ⟨0x2800, 0x3000⟩ 4 (2 ^ 12) = .ok (0x3000, t') ∧
      2 ^ 12 ∣ 0x3000 ∧ Inside ⟨0x2800, 0x3000⟩ 0x3000 0x1000 ∧ ∀ p ∈ ({1, 2, 3} : Set Ptr),
        Disjoint (Set.Ico 0x3000 (0x3000 + 0x1000)) (threePages.ext.range p).locs := by
  have hrun : (threePages.addrspaceFindSpaceAndAddNode 5 ⟨0x2800, 0x3000⟩ 4 (2 ^ 12)).map Prod.fst
      = .ok 0x3000 := by decide +kernel
  obtain ⟨⟨_, t'⟩, hfind, rfl⟩ := map_eq_ok.mp hrun
  have hk : 12 < 64 := by decide
  have hstop : StopsAt threePages (.node 2 (.node 1 .nil .nil) (.node 3 .nil .nil)) ⟨0x2800, 0x3000⟩
      0x1000 (2 ^ 12) 2 := by
    have hup : alignUp (endOf threePages.ext [1]) (2 ^ 12) = some 0x3000 := by decide +kernel
    refine ⟨[1], [3], rfl, .inr fun a ha => ?_⟩
    rw [hup, Option.some.injEq] at ha
    rw [← ha]
    decide
  exact ⟨t', hfind, (findSpace_inside_iff ⟨0x2800, 0x3000⟩ threePages_agrees (show 4 ∉ _ by simp)
    (by decide) hk (by decide)).mpr (.inr (.inl ⟨2, by decide, hstop⟩)) _ t' hfind (by decide)⟩

/-! ## Runs -/

/-- A call. The caller has written the size or the range of the node. -/
inductive Op where
  | find (node : Ptr) (size : Nat) (inRange : Range) (align : Nat)
  | add (node : Ptr) (range : Range)
  | remove (node : Ptr)

/-- The node of a `find`, with its size. -/
def withSize (t : AddressSpace) (node : Ptr) (size : Nat) : AddressSpace :=
  t.setRange node ⟨(t.ext.range node).front, size⟩

/-- Make a call, and keep account of the nodes that are in the space. -/
def Op.exec (fuel : Nat) (s : AddressSpace × List Ptr) : Op → Result (AddressSpace × List Ptr)
  | .find node size inRange align => do
    let (addr, t) ← (s.1.withSize node size).addrspaceFindSpaceAndAddNode fuel inRange node align
    pure (t, if addr = ADDRSPACE_INVALID_ADDR then s.2 else node :: s.2)
  | .add node range => do
    let (added, t) ← (s.1.setRange node range).addrspaceAddNode fuel node
    pure (t, if added then node :: s.2 else s.2)
  | .remove node => do
    let t ← s.1.addrspaceRemoveNode fuel node
    pure (t, s.2.erase node)

/-- Make calls one after the other. -/
def Op.run (fuel : Nat) (s : AddressSpace × List Ptr) : List Op → Result (AddressSpace × List Ptr)
  | [] => .ok s
  | op :: ops => do
    let s ← op.exec fuel s
    run fuel s ops

/-- Ranges are not empty and do not wrap, nodes are added once, and removed while they are there. -/
def Op.Legal (live : List Ptr) : Op → Prop
  | .find node size inRange _ => node ∉ live ∧ 1 ≤ size ∧ inRange.end_ < U64
  | .add node range => node ∉ live ∧ range.Fits
  | .remove node => node ∈ live

/--
The call keeps list and tree in step.

* `find`: no assertion fails, and the node before the room has no right child, if there is one.
* `add`: the space is empty, the range is taken, or there is a node below the new one.
* `remove`: never.
-/
def Op.Safe (fuel : Nat) (s : AddressSpace × List Ptr) : Op → Prop
  | .find node size inRange align =>
    (s.1.withSize node size).findFromStart fuel inRange size align ≠ .error .panic ∧
    ∀ addr p, (s.1.withSize node size).findFromStart fuel inRange size align = .ok (addr, some p) →
      addr ≠ ADDRSPACE_INVALID_ADDR → (s.1.nodes p).right = none
  | .add _ range => s.2 = [] ∨ (∃ p ∈ s.2, range.overlaps (s.1.ext.range p) = true) ∨
      ∃ p ∈ s.2, (s.1.ext.range p).end_ ≤ range.front
  | .remove _ => False

/-- Every call is legal and safe where it is made. -/
def Op.SafeRun (fuel : Nat) (s : AddressSpace × List Ptr) : List Op → Prop
  | [] => True
  | op :: ops => op.Legal s.2 ∧ op.Safe fuel s ∧
      ∀ s', op.exec fuel s = .ok s' → SafeRun fuel s' ops

/-- The list and the tree agree, and the other nodes are as they were set up. -/
structure InStep (s : AddressSpace × List Ptr) (T : BinaryTree Ptr) : Prop where
  agrees : Agrees s.1 {p | p ∈ s.2} T
  idle : ∀ p ∉ s.2, (s.1.ext.list (.node p)).prev = some (.node p)

theorem blank_inStep (range : Ptr → Range) : InStep (blank range, []) .nil := by
  refine ⟨?_, fun p _ => rfl⟩
  have hnone : ({p | p ∈ ([] : List Ptr)} : Set Ptr) = ∅ := by
    simp
  rw [hnone]
  exact blank_agrees range

theorem Agrees.setRange (h : Agrees t live T) (hnode : node ∉ live) (range : Range) :
    Agrees (t.setRange node range) live T := by
  have hsame : ∀ p ∈ inorder T, (t.setRange node range).ext.range p = t.ext.range p := by
    intro p hp
    refine update_of_ne ?_ _ _
    intro he
    subst he
    exact hnode ((h.mem p).mp hp)
  refine ⟨h.holds.of_links rfl rfl, h.ring, h.mem, ?_, ?_⟩
  · refine h.ordered.imp_of_mem ?_
    intro p q hp hq hpq
    rw [hsame p hp, hsame q hq]
    exact hpq
  · intro p hp
    rw [hsame p hp]
    exact h.fits p hp

theorem InStep.grow (h : InStep s T) (hlist : t.ext.list = s.1.ext.list)
    (hagrees : Agrees t' ({p | p ∈ s.2} ∪ {node}) T')
    (hidle : KeepsIdle t t' ({p | p ∈ s.2} ∪ {node})) : InStep (t', node :: s.2) T' := by
  have hset : ({p | p ∈ s.2} ∪ {node} : Set Ptr) = {p | p ∈ node :: s.2} := by
    ext p
    simp only [Set.mem_union, Set.mem_ofPred_eq, Set.mem_singleton_iff, mem_cons]
    exact or_comm
  rw [hset] at hagrees hidle
  refine ⟨hagrees, ?_⟩
  intro p hp
  have hkeep := hidle p hp
  rw [hkeep, hlist]
  exact h.idle p fun hmem => hp (.tail _ hmem)

theorem InStep.length_le (h : InStep s T) :
    (inorder T).length ≤ s.2.length :=
  (h.agrees.holds.nodup.subperm fun p hp => (h.agrees.mem p).mp hp).length_le

theorem Op.Safe.low {range : Range} (hnode : node ∉ s.2)
    (hsafe : (Op.add node range).Safe fuel s) :
    ({p | p ∈ s.2} : Set Ptr) = ∅ ∨
      (∃ p ∈ {p | p ∈ s.2}, ((s.1.setRange node range).ext.range node).overlaps
        ((s.1.setRange node range).ext.range p) = true) ∨
      ∃ p ∈ {p | p ∈ s.2}, ((s.1.setRange node range).ext.range p).end_
        ≤ ((s.1.setRange node range).ext.range node).front := by
  have hself : (s.1.setRange node range).ext.range node = range := update_self ..
  have hother : ∀ p ∈ s.2, (s.1.setRange node range).ext.range p = s.1.ext.range p := by
    intro p hp
    refine update_of_ne ?_ _ _
    rintro rfl
    exact hnode hp
  rw [hself]
  rcases hsafe with hempty | ⟨p, hp, hover⟩ | ⟨p, hp, hbelow⟩
  · rw [hempty]
    simp
  · exact .inr (.inl ⟨p, hp, by rw [hother p hp]; exact hover⟩)
  · exact .inr (.inr ⟨p, hp, by rw [hother p hp]; exact hbelow⟩)

theorem Op.exec_spec (h : InStep s T) (hfuel : s.2.length + 2 ≤ fuel) (op : Op)
    (hlegal : op.Legal s.2) (hsafe : op.Safe fuel s) :
    ∃ s' T', op.exec fuel s = .ok s' ∧ InStep s' T' ∧ s'.2.length ≤ s.2.length + 1 := by
  cases op with
  | find node size inRange align =>
    obtain ⟨hnode, hsize, hwrap⟩ := hlegal
    obtain ⟨hpanic, hright⟩ := hsafe
    have hagrees : Agrees (s.1.withSize node size) {p | p ∈ s.2} T := h.agrees.setRange hnode _
    have hself : ((s.1.withSize node size).ext.range node).size = size := by
      simp [withSize, setRange]
    have hlen : (inorder T).length + 2 ≤ fuel := (Nat.add_le_add_right h.length_le 2).trans hfuel
    rcases findSpace_spec hagrees hnode hself hsize hwrap (h.idle node hnode) hlen hpanic hright with
      hrun | ⟨addr, t', T', hrun, hvalid, hagrees', hidle⟩
    · refine ⟨(s.1.withSize node size, s.2), T, ?_, ⟨hagrees, h.idle⟩, Nat.le_succ _⟩
      simp [Op.exec, hrun]
    · refine ⟨(t', node :: s.2), T', ?_, h.grow rfl hagrees' hidle, le_rfl⟩
      simp [Op.exec, hrun, hvalid]
  | add node range =>
    obtain ⟨hnode, hfits⟩ := hlegal
    have hagrees := h.agrees.setRange hnode range
    have hself : (s.1.setRange node range).ext.range node = range := update_self ..
    have hlen : (inorder T).length ≤ fuel := h.length_le.trans (Nat.le_of_add_right_le hfuel)
    rcases addNode_spec hagrees hnode (by rw [hself]; exact hfits) (Op.Safe.low hnode hsafe)
        hlen with
      hrun | ⟨t', T', hrun, hagrees', hidle⟩
    · refine ⟨(s.1.setRange node range, s.2), T, ?_, ⟨hagrees, h.idle⟩, Nat.le_succ _⟩
      simp [Op.exec, hrun]
    · refine ⟨(t', node :: s.2), T', ?_, h.grow rfl hagrees' hidle, le_rfl⟩
      simp [Op.exec, hrun]
  | remove node => exact hsafe.elim

/-- What each call keeps that a run may make is kept by the run. -/
theorem Op.run_keeps {I : AddressSpace × List Ptr → BinaryTree Ptr → Prop}
    {R : AddressSpace × List Ptr → List Op → Prop}
    (hexec : ∀ {s T op ops}, I s T → R s (op :: ops) → s.2.length + 2 ≤ fuel →
      ∃ s' T', op.exec fuel s = .ok s' ∧ I s' T' ∧ R s' ops ∧ s'.2.length ≤ s.2.length + 1) :
    ∀ (ops : List Op) {s : AddressSpace × List Ptr} {T : BinaryTree Ptr}, I s T → R s ops →
    s.2.length + ops.length + 1 ≤ fuel → ∃ s' T', Op.run fuel s ops = .ok s' ∧ I s' T'
  | [], s, T, h, _, _ => ⟨s, T, rfl, h⟩
  | op :: ops, s, T, h, hR, hfuel => by
    rw [length_cons] at hfuel
    obtain ⟨s1, T1, hcall, h1, hR1, hgrow⟩ := hexec h hR (by omega)
    obtain ⟨s', T', hrun, h'⟩ := run_keeps hexec ops h1 hR1 (by omega)
    refine ⟨s', T', ?_, h'⟩
    rw [Op.run, hcall]
    exact hrun

/--
**The list and the tree stay in step over every run of safe calls**: every call returns, both hold
exactly the nodes in the space, in ascending order of ranges that do not meet.
-/
theorem addrspace_in_step (range : Ptr → Range) (ops : List Op) {fuel : Nat}
    (hsafe : Op.SafeRun fuel (blank range, []) ops) (hfuel : ops.length + 1 ≤ fuel) :
    ∃ t live T, Op.run fuel (blank range, []) ops = .ok (t, live) ∧ Agrees t {p | p ∈ live} T := by
  obtain ⟨⟨t, live⟩, T, hrun, h⟩ := Op.run_keeps (R := Op.SafeRun fuel)
    (fun {s T op ops} h hsafe hlen => by
      obtain ⟨s', T', hexec, h', hgrow⟩ := Op.exec_spec h hlen op hsafe.1 hsafe.2.1
      exact ⟨s', T', hexec, h', hsafe.2.2 s' hexec, hgrow⟩)
    ops (blank_inStep range) hsafe (by simpa using hfuel)
  exact ⟨t, live, T, hrun, h.agrees⟩

/-- A node, and another one in the room behind it. -/
theorem addrspace_in_step_two :
    ∃ t live T, Op.run 3 (blank fun _ => ⟨0, 0⟩, [])
        [.add 1 ⟨0x1000, 0x1000⟩, .find 2 0x1000 ⟨0x2000, 0x4000⟩ 0x1000] = .ok (t, live) ∧
      Agrees t {p | p ∈ live} T := by
  refine addrspace_in_step _ _ ⟨⟨by decide, by decide⟩, .inl rfl, ?_⟩ (Nat.le_refl 3)
  intro s' hexec
  cases hexec
  refine ⟨⟨by decide, by decide, by decide⟩, ⟨?_, ?_⟩, fun _ _ => trivial⟩
  · intro hrun
    cases hrun
  · intro addr p hrun _
    injection hrun with hrun
    rw [Prod.mk.injEq] at hrun
    obtain ⟨-, hp⟩ := hrun
    cases hp
    rfl

theorem Agrees.next_head (h : Agrees t live T) (hroot : t.root = none) :
    (t.ext.list .head).next = some .head := by
  have hrep := h.holds.rep
  rw [hroot] at hrep
  have hnil : T = .nil := hrep.at_none_iff.mp rfl
  have hway := h.ring.way
  rw [hnil] at hway
  exact hway.1

/--
Three runs that go out of step: a node is removed and stays on the list; a node goes into the room
before the right child of another and takes its place in the tree; a node is added below the only
other one.
-/
theorem addrspace_out_of_step :
    (∃ s, Op.run 4 (blank fun _ => ⟨0, 0⟩, []) [.add 1 ⟨0x1000, 0x1000⟩, .remove 1] = .ok s ∧
      ¬ ∃ T, Agrees s.1 {p | p ∈ s.2} T) ∧
    (∃ s, Op.run 4 (blank fun _ => ⟨0, 0⟩, []) [.add 1 ⟨0x1000, 0x1000⟩, .add 2 ⟨0x3000, 0x1000⟩,
        .find 3 0x1000 ⟨0x2000, 0x1000⟩ 0x1000] = .ok s ∧ ¬ ∃ T, Agrees s.1 {p | p ∈ s.2} T) ∧
    Op.run 4 (blank fun _ => ⟨0, 0⟩, []) [.add 1 ⟨0x1000, 0x1000⟩, .add 2 ⟨0, 0x1000⟩]
      = .error .nullDeref := by
  refine ⟨?_, ?_, rfl⟩
  · have hrun : (Op.run 4 (blank fun _ => ⟨0, 0⟩, []) [.add 1 ⟨0x1000, 0x1000⟩, .remove 1]).map
        (fun s => (s.1.root, (s.1.ext.list .head).next)) = .ok (none, some (.node 1)) := by
      decide +kernel
    obtain ⟨s, hs, hread⟩ := map_eq_ok.mp hrun
    rw [Prod.mk.injEq] at hread
    refine ⟨s, hs, ?_⟩
    intro hagrees
    obtain ⟨T, h⟩ := hagrees
    have hnext := h.next_head hread.1
    rw [hread.2] at hnext
    cases hnext
  · have hrun : (Op.run 4 (blank fun _ => ⟨0, 0⟩, []) [.add 1 ⟨0x1000, 0x1000⟩,
        .add 2 ⟨0x3000, 0x1000⟩, .find 3 0x1000 ⟨0x2000, 0x1000⟩ 0x1000]).map
        (fun s => (inorder (shape s.1.links 3 s.1.root), s.2)) = .ok ([1, 3], [3, 2, 1]) := by
      decide +kernel
    obtain ⟨s, hs, hread⟩ := map_eq_ok.mp hrun
    rw [Prod.mk.injEq] at hread
    obtain ⟨htree, hlive⟩ := hread
    refine ⟨s, hs, ?_⟩
    intro hagrees
    obtain ⟨T, h⟩ := hagrees
    have hlen : (inorder T).length ≤ 3 := by
      have hsub : inorder T ⊆ s.2 := fun p hp => (h.mem p).mp hp
      have hle := (h.holds.nodup.subperm hsub).length_le
      rw [hlive] at hle
      exact hle
    rw [h.holds.rep.shape_eq hlen] at htree
    have hlost : 2 ∈ inorder T := (h.mem 2).mpr (by rw [hlive]; decide)
    rw [htree] at hlost
    exact absurd hlost (by decide)

/-- One node: the hole before it and the room behind it are both below the range asked for. -/
theorem findSpace_outside :
    ∃ t T, Agrees t {1} T ∧ (t.ext.range 2).size = 0x1000 ∧
      (t.addrspaceFindSpaceAndAddNode 4 ⟨0x10000, 0x10000⟩ 2 (2 ^ 12)).map Prod.fst = .ok 0x2000 ∧
      ¬ Inside ⟨0x10000, 0x10000⟩ 0x2000 0x1000 := by
  obtain ⟨s, T, hexec, h, -⟩ := Op.exec_spec (blank_inStep fun _ => ⟨0, 0x1000⟩)
    (Nat.le_refl 2) (.add 1 ⟨0x1000, 0x1000⟩) ⟨by decide, by decide⟩ (.inl rfl)
  injection hexec with hexec
  have hlive : ({p | p ∈ s.2} : Set Ptr) = {1} := by
    rw [← hexec]
    ext p
    exact mem_singleton
  have hagrees := h.agrees
  rw [hlive] at hagrees
  refine ⟨s.1, T, hagrees, ?_, ?_, by decide⟩
  · rw [← hexec]
    rfl
  · rw [← hexec]
    rfl

end OsKernel.Adt.AddressSpace
