import OsKernel.Adt.AddrHoles

/-!
# How the search ends, and what it misses

The search walks over a part of the nodes in order, so it looks at no hole twice and comes to
an end whatever sizes the nodes have recorded. If the recorded sizes are right it skips no
subtree for want of a large hole.

It still misses room:

* it goes to the left of a node only if the node is above `in_range`, so a hole to the left of
  a node inside `in_range` is not looked at,
* at a node it tries the first aligned address of the hole only, which may be below `in_range`
  where a later one is not.
-/

namespace OsKernel.Adt.AddressSpace

open LinkedTree LinkedRing AvlTree List Range

variable {t : AddressSpace} {live : Set Ptr} {T : BinaryTree Ptr} {inRange : Range}
  {size align fuel n : Nat} {A : List Ptr} {q : Ptr} {α : Type}

/-! ## The end of the search -/

/-- A search tree whose nodes are on the list in order. What they have recorded plays no part. -/
structure Searchable (t : AddressSpace) (T : BinaryTree Ptr) : Prop where
  holds : Holds t T
  ring : IsRing t.ext.list .head ((inorder T).map .node)
  ordered : (inorder T).Pairwise fun p q => (t.ext.range p).end_ ≤ (t.ext.range q).front

theorem Agrees.searchable (h : Agrees t live T) : Searchable t T := ⟨h.holds, h.ring, h.ordered⟩

/-- The end of a range or an aligned address that the search asks for is not a 64-bit number. -/
def Overflows (t : AddressSpace) (T : BinaryTree Ptr) (inRange : Range) (align : Nat) : Prop :=
  (∃ p ∈ inorder T, U64 ≤ (t.ext.range p).end_) ∨ U64 ≤ inRange.end_ ∨
    alignUp inRange.front align = none ∨
    ∃ A B, inorder T = A ++ B ∧ alignUp (endOf t.ext A) align = none

/-- A call that returns, or fails in an assertion on an overflow. -/
def Ends {α : Type} (t : AddressSpace) (T : BinaryTree Ptr) (inRange : Range) (align : Nat)
    (x : Result α) : Prop :=
  (∃ r, x = .ok r) ∨ x = .error .panic ∧ Overflows t T inRange align

theorem ends_ok (r : α) : Ends t T inRange align (.ok r) := .inl ⟨r, rfl⟩

theorem Ends.bind {β : Type} {x : Result α} {f : α → Result β} (hx : Ends t T inRange align x)
    (hf : ∀ a, x = .ok a → Ends t T inRange align (f a)) : Ends t T inRange align (x >>= f) := by
  rcases hx with ⟨a, rfl⟩ | ⟨rfl, hover⟩
  · exact hf a rfl
  · exact .inr ⟨rfl, hover⟩

theorem ends_getEndAssert {r : Range} (hover : U64 ≤ r.end_ → Overflows t T inRange align) :
    Ends t T inRange align r.getEndAssert := by
  by_cases hend : r.end_ < U64
  · rw [getEndAssert_eq hend]
    exact ends_ok _
  · rw [getEndAssert_panic hend]
    exact .inr ⟨rfl, hover (Nat.le_of_not_lt hend)⟩

theorem ends_alignUpAssert (hover : alignUp n align = none → Overflows t T inRange align) :
    Ends t T inRange align (alignUpAssert n align) := by
  unfold alignUpAssert
  cases hup : alignUp n align with
  | some a => exact ends_ok a
  | none => exact .inr ⟨rfl, hover hup⟩

theorem prevEnd_ends {B : List Ptr} (hsplit : inorder T = A ++ B) :
    Ends t T inRange align (t.ext.prevEnd A.getLast?) := by
  cases hlast : A.getLast? with
  | none => exact ends_ok 0
  | some p =>
    have hp : p ∈ inorder T := by
      rw [hsplit]
      exact mem_append_left _ (mem_of_getLast? hlast)
    exact ends_getEndAssert fun hover => .inl ⟨p, hp, hover⟩

theorem prevEnd_eq {e : AddrData} (hn : e.prevEnd A.getLast? = .ok n) :
    n = endOf e A := by
  unfold endOf
  cases hlast : A.getLast? with
  | none =>
    rw [hlast] at hn
    injection hn with hn
    exact hn.symm
  | some p =>
    rw [hlast, AddrData.prevEnd] at hn
    by_cases hend : (e.range p).end_ < U64
    · rw [getEndAssert_eq hend] at hn
      injection hn with hn
      exact hn.symm
    · rw [getEndAssert_panic hend] at hn
      cases hn

theorem Searchable.tryHole_ends (h : Searchable t T) (hq : q ∈ inorder T) :
    Ends t T inRange align (tryHole t.ext inRange size align q) := by
  obtain ⟨A, B, hsplit⟩ := append_of_mem hq
  unfold tryHole
  rw [nodePrev_of_ring h.ring hsplit, ok_bind]
  refine (prevEnd_ends hsplit).bind ?_
  intro n hn
  rw [prevEnd_eq hn]
  split
  · exact ends_ok _
  · refine (ends_alignUpAssert fun hup => .inr (.inr (.inr ⟨A, _, hsplit, hup⟩))).bind ?_
    intro a _
    -- the hole is there
    have hhole : createEnd (endOf t.ext A) (t.ext.range q).front
        = .ok ⟨endOf t.ext A, (t.ext.range q).front - endOf t.ext A⟩ :=
      if_pos (endOf_le_front h.ordered hsplit)
    rw [hhole, ok_bind]
    split
    · exact ends_ok _
    · exact ends_ok _

theorem Searchable.afterLast_ends (h : Searchable t T) (hne : T ≠ .nil) :
    Ends t T inRange align (afterLast t.ext inRange size align) := by
  obtain ⟨A, q, hsplit⟩ := exists_last hne
  have hprev : (t.ext.list .head).prev = some (.node q) := by
    have hway := h.ring.way
    rw [hsplit] at hway
    rw [prev_of_way hway]
    simp [lastPtr]
  have hq : q ∈ inorder T := by
    rw [hsplit]
    simp
  unfold afterLast
  rw [hprev]
  refine (ends_getEndAssert fun hover => .inl ⟨q, hq, hover⟩).bind fun n _ => ?_
  refine (ends_getEndAssert fun hover => .inr (.inl hover)).bind fun m _ => ?_
  split
  · exact ends_ok _
  · split
    · exact ends_ok _
    · split
      · exact ends_ok _
      · exact ends_ok _

theorem Searchable.scan_ends (h : Searchable t T) (hne : T ≠ .nil) : ∀ {V : List Ptr},
    (∀ q ∈ V, q ∈ inorder T) → Ends t T inRange align (scan t.ext inRange size align V)
  | [], _ => h.afterLast_ends hne
  | q :: V, hV => by
    refine (h.tryHole_ends (hV q mem_cons_self)).bind ?_
    intro found _
    cases found with
    | some found => exact ends_ok _
    | none => exact h.scan_ends hne fun x hx => hV x (.tail _ hx)

variable (inRange size align) in
/-- A search looks at some of the nodes it is given, in their order. -/
theorem scanTraced_seen (e : AddrData) : ∀ (V seen : List Ptr),
    ∃ V', V'.Sublist V ∧ (scanTraced e inRange size align V seen).2 = seen ++ V'
  | [], seen => ⟨[], List.Sublist.refl _, (append_nil seen).symm⟩
  | q :: V, seen => by
    rw [scanTraced, Effect.bind_run, lookAt]
    rcases tryHole e inRange size align q with e | _ | found
    · exact ⟨[q], (nil_sublist V).cons_cons q, rfl⟩
    · obtain ⟨V', hsub, hseen⟩ := scanTraced_seen e V (seen ++ [q])
      exact ⟨q :: V', hsub.cons_cons q, by simpa using hseen⟩
    · exact ⟨[q], (nil_sublist V).cons_cons q, rfl⟩

theorem visits_sublist : ∀ T : BinaryTree Ptr, (visits t inRange size T).Sublist (inorder T)
  | .nil => List.Sublist.refl _
  | .node p l r => by
    refine List.Sublist.append ?_ (List.Sublist.cons_cons p ?_)
    · split
      · exact visits_sublist l
      · exact nil_sublist _
    · split
      · exact visits_sublist r
      · exact nil_sublist _

/--
**The search ends, and looks at no hole twice.** With fuel for two turns more than there are nodes
it returns a result, unless an assertion on an overflow fails. The search that is watched is the
search itself.
-/
theorem search_ends (h : Searchable t T) (inRange : Range) (size align : Nat)
    (hfuel : (inorder T).length + 2 ≤ fuel) :
    (t.findFromStartTraced fuel inRange size align).Returns
        (t.findFromStart fuel inRange size align) ∧
      (t.findFromStartTraced fuel inRange size align []).2.Nodup ∧
      Ends t T inRange align (t.findFromStart fuel inRange size align) := by
  refine ⟨findFromStartTraced_returns fuel, ?_⟩
  by_cases hne : T = .nil
  · -- an empty space: there is no hole to look at
    subst hne
    have hroot : t.root = none := h.holds.rep
    unfold findFromStartTraced findFromStart
    rw [hroot]
    refine ⟨nodup_nil, (ends_alignUpAssert fun hup => .inr (.inr (.inl hup))).bind ?_⟩
    intro a _
    split
    · exact ends_ok _
    · exact ends_ok _
  · constructor
    · rw [findFromStartTraced_eq h.holds hne hfuel]
      obtain ⟨V', hsub, hseen⟩ := scanTraced_seen inRange size align t.ext
        (visits t inRange size T) []
      rw [hseen, nil_append]
      exact h.holds.nodup.sublist (hsub.trans (visits_sublist T))
    · rw [findFromStart_eq h.holds hne hfuel]
      exact h.scan_ends hne fun q hq => mem_visits hq

/-- Three nodes one right behind the other. -/
def packed : List Op :=
  [.add 1 ⟨0x10000, 0x1000⟩, .add 2 ⟨0x11000, 0x1000⟩, .add 3 ⟨0x12000, 0x1000⟩]

theorem packed_quiet : Op.QuietRun 4 (blank fun _ => ⟨0, 0⟩, []) packed := by
  refine ⟨⟨by decide, by decide⟩, .inl rfl, by decide +kernel, ?_⟩
  intro s1 hexec1
  cases hexec1
  refine ⟨⟨by decide, by decide⟩, .inr (.inr ⟨1, by decide, by decide⟩), by decide +kernel, ?_⟩
  intro s2 hexec2
  cases hexec2
  exact ⟨⟨by decide, by decide⟩, .inr (.inr ⟨1, by decide, by decide⟩), by decide +kernel,
    fun _ _ => trivial⟩

theorem packed_kept : ∃ s T, Op.run 4 (blank fun _ => ⟨0, 0⟩, []) packed = .ok s ∧ Kept s T :=
  Op.run_holes packed ⟨blank_inStep _, trivial⟩ packed_quiet (Nat.le_refl 4)

/-- A search over three nodes. -/
theorem search_ends_packed : ∃ s T, Op.run 4 (blank fun _ => ⟨0, 0⟩, []) packed = .ok s ∧
    (s.1.findFromStartTraced 5 ⟨0, 0x20000⟩ 0x1000 0x1000 []).2.Nodup ∧
      Ends s.1 T ⟨0, 0x20000⟩ 0x1000 (s.1.findFromStart 5 ⟨0, 0x20000⟩ 0x1000 0x1000) := by
  obtain ⟨s, T, hrun, hkept⟩ := packed_kept
  have hlen : s.2.length = 3 := by
    have hcount : (Op.run 4 (blank fun _ => ⟨0, 0⟩, []) packed).map (fun s => s.2.length) = .ok 3 := by
      decide +kernel
    rw [hrun] at hcount
    injection hcount
  have hfuel : (inorder T).length + 2 ≤ 5 := by
    have := hkept.inStep.length_le
    omega
  have hends := search_ends hkept.inStep.agrees.searchable ⟨0, 0x20000⟩ 0x1000 0x1000 hfuel
  exact ⟨s, T, hrun, hends.2⟩

/-! ## Where there is room -/

/-- An aligned address in `in_range` with room that no node has. -/
def HasRoom (t : AddressSpace) (live : Set Ptr) (inRange : Range) (size align : Nat) : Prop :=
  ∃ a, align ∣ a ∧ Inside inRange a size ∧
    ∀ p ∈ live, Disjoint (Set.Ico a (a + size)) (t.ext.range p).locs

/-- There is such an address in the hole before a node. -/
def RoomBefore (t : AddressSpace) (T : BinaryTree Ptr) (inRange : Range) (size align : Nat)
    (q : Ptr) : Prop :=
  ∃ a, align ∣ a ∧ holeStart t.ext (inorder T) q ≤ a ∧ a + size ≤ (t.ext.range q).front ∧
    Inside inRange a size

/--
The search stops at the node without giving up: the hole begins below the end of `in_range`, and its
first aligned address has room in the hole and in `in_range` (or does not exist, and the assertion
that it does fails).
-/
def Takes (t : AddressSpace) (T : BinaryTree Ptr) (inRange : Range) (size align : Nat) (q : Ptr) :
    Prop :=
  holeStart t.ext (inorder T) q < inRange.end_ ∧
    ∀ a, alignUp (holeStart t.ext (inorder T) q) align = some a →
      a + size ≤ (t.ext.range q).front ∧ Inside inRange a size

/-- Behind the last node it does not give up either. -/
def TakesLast (t : AddressSpace) (T : BinaryTree Ptr) (inRange : Range) (size align : Nat) : Prop :=
  endOf t.ext (inorder T) < inRange.end_ ∧
    (inRange.end_ < U64 → ∃ a, alignUp (endOf t.ext (inorder T)) align = some a ∧ a + size < U64)

section Room

theorem Agrees.holeStart_le_end (h : Agrees t live T) (hq : q ∈ inorder T) :
    holeStart t.ext (inorder T) q ≤ (t.ext.range q).end_ := by
  obtain ⟨A, B, hsplit⟩ := append_of_mem hq
  rw [holeStart_eq hsplit (h.notMem_before hsplit)]
  exact (h.endOf_le_front hsplit).trans le_self_add

section

variable (h : Agrees t live T) (hsize : 1 ≤ size)
include h hsize

variable (inRange align) in
theorem Agrees.tryHole_holeStart (hq : q ∈ inorder T) :
    ∃ prev, tryHole t.ext inRange size align q =
      if inRange.end_ ≤ holeStart t.ext (inorder T) q then .ok (some (ADDRSPACE_INVALID_ADDR, none))
      else match alignUp (holeStart t.ext (inorder T) q) align with
        | none => .error .panic
        | some a =>
          if a + size ≤ (t.ext.range q).front ∧ Inside inRange a size then .ok (some (a, prev))
          else .ok none := by
  obtain ⟨A, B, hsplit⟩ := append_of_mem hq
  refine ⟨A.getLast?, ?_⟩
  rw [h.tryHole_eq hsize hsplit, holeStart_eq hsplit (h.notMem_before hsplit)]
  cases hup : alignUp (endOf t.ext A) align with
  | none => rfl
  | some a =>
    have hle := le_alignUp hup
    simp only [hle, true_and, Inside]
    rfl

/-- The search gives up if it does not stop at any of the nodes before. -/
theorem Agrees.scan_invalid_iff (hne : T ≠ .nil) :
    ∀ {V : List Ptr}, V.Sublist (inorder T) →
    ((∃ prev, scan t.ext inRange size align V = .ok (ADDRSPACE_INVALID_ADDR, prev)) ↔
      ¬ TakesLast t T inRange size align ∧ ∀ q ∈ V, ¬ Takes t T inRange size align q) := by
  intro V
  induction V with
  | nil =>
    obtain ⟨A, q, hsplit⟩ := exists_last hne
    have hend : endOf t.ext (inorder T) = (t.ext.range q).end_ := by simp [endOf, hsplit]
    have hlt : (t.ext.range q).end_ < U64 := (h.fits q (by rw [hsplit]; simp)).2
    simp only [scan, h.afterLast_eq hsplit, TakesLast, hend, not_mem_nil, false_implies,
      implies_true, and_true]
    by_cases hin : inRange.end_ < U64
    · by_cases hbelow : inRange.end_ ≤ (t.ext.range q).end_
      · simp [hin, hbelow, not_lt.mpr hbelow]
      · cases hup : alignUp (t.ext.range q).end_ align with
        | none => simp [hin, hbelow]
        | some a =>
          by_cases hfit : a + size < U64
          · have hvalid : a ≠ ADDRSPACE_INVALID_ADDR := by
              unfold ADDRSPACE_INVALID_ADDR
              omega
            simp [hin, hbelow, hfit, hvalid, Nat.lt_of_not_le hbelow]
          · simp [hin, hbelow, hfit]
    · have hbelow : (t.ext.range q).end_ < inRange.end_ := by omega
      simp [hin, hbelow]
  | cons q V ih =>
    intro hV
    have hq : q ∈ inorder T := hV.subset mem_cons_self
    have hrest := sublist_of_cons_sublist hV
    obtain ⟨prev, htry⟩ := h.tryHole_holeStart inRange align hsize hq
    rw [scan, htry]
    by_cases hbelow : inRange.end_ ≤ holeStart t.ext (inorder T) q
    · -- `in_range` is below the hole, and below everything behind it
      rw [if_pos hbelow]
      refine iff_of_true ⟨none, rfl⟩ ⟨?_, ?_⟩
      · intro hlast
        have hle := h.le_endOf (append_nil (inorder T)).symm q hq
        have := (h.holeStart_le_end hq).trans hle
        exact absurd hlast.1 (not_lt.mpr (hbelow.trans this))
      · intro x hx htakes
        refine absurd htakes.1 (not_lt.mpr ?_)
        rcases mem_cons.mp hx with rfl | hx
        · exact hbelow
        · have hxT := hrest.subset hx
          have hord := (pairwise_cons.mp (h.ordered.sublist hV)).1 x hx
          refine hbelow.trans ((h.holeStart_le_end hq).trans ?_)
          obtain ⟨A, B, hsplit⟩ := append_of_mem hxT
          rw [holeStart_eq hsplit (h.notMem_before hsplit)]
          have hpos := (h.fits q hq).1
          have hall := h.ordered
          rw [hsplit] at hq
          rw [hsplit, pairwise_append, pairwise_cons] at hall
          simp only [end_] at hord hall
          rcases mem_append.mp hq with hq | hq
          · exact h.le_endOf hsplit q hq
          · rcases mem_cons.mp hq with rfl | hq
            · omega
            · have := hall.2.1.1 q hq
              omega
    · rw [if_neg hbelow]
      have hlow : holeStart t.ext (inorder T) q < inRange.end_ := Nat.lt_of_not_le hbelow
      cases hup : alignUp (holeStart t.ext (inorder T) q) align with
      | none =>
        -- the assertion fails
        refine iff_of_false ?_ ?_
        · rintro ⟨_, hrun⟩
          cases hrun
        · rintro ⟨-, hgo⟩
          refine hgo q mem_cons_self ⟨hlow, ?_⟩
          intro a ha
          rw [hup] at ha
          cases ha
      | some a =>
        dsimp only
        by_cases hfit : a + size ≤ (t.ext.range q).front ∧ Inside inRange a size
        · rw [if_pos hfit]
          refine iff_of_false ?_ ?_
          · rintro ⟨_, hrun⟩
            injection hrun with hrun
            have hlt := (h.fits q hq).2
            have haddr := congrArg Prod.fst hrun
            simp only [ADDRSPACE_INVALID_ADDR, end_] at haddr hlt
            omega
          · rintro ⟨-, hgo⟩
            refine hgo q mem_cons_self ⟨hlow, ?_⟩
            intro a' ha'
            rw [hup] at ha'
            cases ha'
            exact hfit
        · rw [if_neg hfit, ok_bind, ih hrest]
          have hpass : ¬ Takes t T inRange size align q := fun htakes => hfit (htakes.2 a hup)
          simp only [forall_mem_cons, hpass, not_false_eq_true, true_and]

/-- A room in the space is in the hole before some node, or behind all of them. -/
theorem HasRoom.hole (hroom : HasRoom t live inRange size align) :
    (∃ q ∈ inorder T, RoomBefore t T inRange size align q) ∨
      ∃ a, align ∣ a ∧ endOf t.ext (inorder T) ≤ a ∧ Inside inRange a size := by
  obtain ⟨a, halign, hin, hfree⟩ := hroom
  have hside : ∀ p ∈ inorder T, (t.ext.range p).end_ ≤ a ∨ a + size ≤ (t.ext.range p).front := by
    intro p hp
    have hdisj := Set.disjoint_left.mp (hfree p ((h.mem p).mp hp))
    have hpos := (h.fits p hp).1
    by_contra hno
    simp only [not_or, not_le, end_] at hno
    -- the larger of the two fronts is in both ranges
    refine hdisj (a := max a (t.ext.range p).front) ?_ ?_
    · simp only [Set.mem_Ico]
      omega
    · simp only [locs, Set.mem_Ico, end_]
      omega
  -- the first node that is not below the room
  have hfirst : ∀ A B : List Ptr, inorder T = A ++ B → (∀ p ∈ A, (t.ext.range p).end_ ≤ a) →
      (∃ q ∈ inorder T, RoomBefore t T inRange size align q) ∨
        ∃ a, align ∣ a ∧ endOf t.ext (inorder T) ≤ a ∧ Inside inRange a size := by
    intro A B
    have hend : ∀ A : List Ptr, (∀ p ∈ A, (t.ext.range p).end_ ≤ a) → endOf t.ext A ≤ a := by
      intro A hA
      unfold endOf
      cases hlast : A.getLast? with
      | none => exact Nat.zero_le a
      | some p => exact hA p (mem_of_getLast? hlast)
    induction B generalizing A with
    | nil =>
      intro hsplit hA
      rw [append_nil] at hsplit
      exact .inr ⟨a, halign, by rw [hsplit]; exact hend A hA, hin⟩
    | cons q B ih =>
      intro hsplit hA
      have hq : q ∈ inorder T := by
        rw [hsplit]
        simp
      rcases hside q hq with hbelow | habove
      · refine ih (A ++ [q]) (by simp [hsplit]) ?_
        intro p hp
        rcases mem_append.mp hp with hp | hp
        · exact hA p hp
        · rw [mem_singleton.mp hp]
          exact hbelow
      · refine .inl ⟨q, hq, a, halign, ?_, habove, hin⟩
        rw [holeStart_eq hsplit (h.notMem_before hsplit)]
        exact hend A hA
  exact hfirst [] (inorder T) rfl (by simp)

end

theorem RoomBefore.hasRoom (h : Agrees t live T) (hq : q ∈ inorder T)
    (hroom : RoomBefore t T inRange size align q) : HasRoom t live inRange size align := by
  obtain ⟨a, halign, hlow, hhigh, hin⟩ := hroom
  obtain ⟨A, B, hsplit⟩ := append_of_mem hq
  rw [holeStart_eq hsplit (h.notMem_before hsplit)] at hlow
  have hord := h.ordered
  rw [hsplit, pairwise_append, pairwise_cons] at hord
  have hlt := (h.fits q hq).2
  have hfits : a + size < U64 := by
    simp only [end_] at hlt
    omega
  have hB : ∀ p ∈ q :: B, a + size ≤ (t.ext.range p).front := by
    intro p hp
    rcases mem_cons.mp hp with rfl | hp
    · exact hhigh
    · have := hord.2.1.1 p hp
      simp only [end_] at this
      omega
  exact ⟨a, halign, hin, Room.disjoint h ⟨⟨A, q :: B, hsplit, rfl, hlow, hB⟩, hfits⟩⟩

end Room

/-! ## What the search misses -/

/-- The node is on the left of one that begins below the end of `in_range`, where nothing is sought. -/
def LeftOut (t : AddressSpace) (inRange : Range) (q : Ptr) : BinaryTree Ptr → Prop
  | .nil => False
  | .node p l r =>
    q ∈ inorder l ∧ ((t.ext.range p).front < inRange.end_ ∨ LeftOut t inRange q l) ∨
      q ∈ inorder r ∧ LeftOut t inRange q r

/-- A hole that the search does not look at, or whose first aligned address is below `in_range`. -/
def Missed (t : AddressSpace) (T : BinaryTree Ptr) (inRange : Range) (align : Nat) (q : Ptr) : Prop :=
  LeftOut t inRange q T ∨
    ∃ a, alignUp (holeStart t.ext (inorder T) q) align = some a ∧ a < inRange.front

/-- The search looks at the hole, and the assertion that it has an aligned address fails. -/
def Asserts (t : AddressSpace) (T : BinaryTree Ptr) (inRange : Range) (size align : Nat) (q : Ptr) :
    Prop :=
  q ∈ visits t inRange size T ∧ holeStart t.ext (inorder T) q < inRange.end_ ∧
    alignUp (holeStart t.ext (inorder T) q) align = none

/--
* In an empty space the first aligned address of `in_range` is tried, and it must not be the one
  that stands for failure.
* Otherwise the room behind the last node is taken, or an assertion fails, or not all of the holes
  with room are missed.
-/
def Complete (t : AddressSpace) (T : BinaryTree Ptr) (inRange : Range) (size align : Nat) : Prop :=
  (T = .nil ∧ ∀ a, alignUp inRange.front align = some a → Inside inRange a size →
    a ≠ ADDRSPACE_INVALID_ADDR) ∨
  (T ≠ .nil ∧ (TakesLast t T inRange size align ∨ (∃ q, Asserts t T inRange size align q) ∨
    ∀ q ∈ inorder T, RoomBefore t T inRange size align q →
      ∃ q ∈ inorder T, RoomBefore t T inRange size align q ∧ ¬ Missed t T inRange align q))

variable (inRange) in
/--
If the recorded sizes are right, a node whose hole is large enough is visited unless it is left out:
no subtree is skipped for want of a hole.
-/
theorem mem_visits_iff {f : Ptr → Nat} (hfit : size ≤ f q) : ∀ {T : BinaryTree Ptr}
    {par at_ : Option Ptr}, Rep t.links T par at_ → Augmented f t.ext.largestFreeToPrev T →
    (inorder T).Nodup → q ∈ inorder T → (q ∈ visits t inRange size T ↔ ¬ LeftOut t inRange q T)
  | .nil, _, _, _, _, _, hq => by cases hq
  | .node p l r, par, at_, hrep, haug, hnd, hq => by
    obtain ⟨rfl, -, hl, hr⟩ := hrep
    obtain ⟨-, haugl, haugr⟩ := haug
    have hleft : q ∈ inorder l →
        ((t.leftOf inRange size p).isSome ↔ inRange.end_ ≤ (t.ext.range p).front) := by
      intro hin
      cases l with
      | nil => cases hin
      | node x ll lr =>
        have hx : (t.nodes p).left = some x := hl.1
        have hsize : size ≤ t.ext.largestFreeToPrev x := by
          rw [haugl.1]
          exact hfit.trans (le_maxOver hin)
        simp [leftOf, hx, hsize, isLocAbove_iff]
    have hright : q ∈ inorder r → (t.rightOf size p).isSome = true := by
      intro hin
      cases r with
      | nil => cases hin
      | node x rl rr =>
        have hx : (t.nodes p).right = some x := hr.1
        have hsize : size ≤ t.ext.largestFreeToPrev x := by
          rw [haugr.1]
          exact hfit.trans (le_maxOver hin)
        simp [rightOf, hx, hsize]
    have hsubl : q ∈ visits t inRange size l → q ∈ inorder l := fun hm => (visits_sublist l).subset hm
    have hsubr : q ∈ visits t inRange size r → q ∈ inorder r := fun hm => (visits_sublist r).subset hm
    rw [inorder_node] at hnd hq
    obtain ⟨hndl, hndp, hdisj⟩ := nodup_append.mp hnd
    obtain ⟨hpr, hndr⟩ := nodup_cons.mp hndp
    have hpl : p ∉ inorder l := fun hm => hdisj p hm p mem_cons_self rfl
    have hboth : q ∈ inorder l → q ∉ inorder r := fun hm hm' => hdisj q hm q (.tail _ hm') rfl
    rw [visits, mem_append, mem_cons, LeftOut]
    rcases mem_append.mp hq with hin | hin
    · -- on the left: the search goes there if the node is above `in_range`
      have hne : q ≠ p := fun h => hpl (h ▸ hin)
      have hskip : q ∉ (if (t.rightOf size p).isSome = true then visits t inRange size r else []) := by
        split
        · exact fun hm => hboth hin (hsubr hm)
        · exact not_mem_nil
      have ih := mem_visits_iff hfit hl haugl hndl hin
      by_cases habove : inRange.end_ ≤ (t.ext.range p).front
      · simp only [(hleft hin).mpr habove, if_true, ih, hne, hskip, hin, hboth hin,
          not_lt.mpr habove, or_self, or_false, true_and, false_or, false_and]
      · have hno : ¬ (t.leftOf inRange size p).isSome = true := fun h => habove ((hleft hin).mp h)
        simp only [hno, hne, hskip, hin, Nat.lt_of_not_le habove, if_false, not_mem_nil, or_self,
          true_or, and_self, not_true, Bool.false_eq_true]
    · rcases mem_cons.mp hin with rfl | hin
      · simp [hpl, hpr]
      · have hne : q ≠ p := fun h => hpr (h ▸ hin)
        have hout : q ∉ inorder l := fun hm => hboth hm hin
        have hskip : q ∉ (if (t.leftOf inRange size p).isSome = true then visits t inRange size l
            else []) := by
          split
          · exact fun hm => hout (hsubl hm)
          · exact not_mem_nil
        have ih := mem_visits_iff hfit hr haugr hndr hin
        simp only [hright hin, if_true, ih, hne, hskip, hin, hout, false_or, true_and, false_and]

theorem RoomBefore.gap_le (hroom : RoomBefore t T inRange size align q) :
    size ≤ gap t.ext (inorder T) q := by
  obtain ⟨a, -, hlow, hhigh, -⟩ := hroom
  unfold gap
  omega

variable (inRange) in
/-- A node that the search takes has room and is not missed, or the assertion fails there. -/
theorem takes_iff (h : Agrees t live T) (hholes : HolesRight t T) (hsize : 1 ≤ size) {k : Nat}
    (hk : k < 64) :
    (∃ q ∈ visits t inRange size T, Takes t T inRange size (2 ^ k) q) ↔
      (∃ q, Asserts t T inRange size (2 ^ k) q) ∨
        ∃ q ∈ inorder T, RoomBefore t T inRange size (2 ^ k) q ∧ ¬ Missed t T inRange (2 ^ k) q := by
  have hvisit {q : Ptr} (hq : q ∈ inorder T) (hroom : RoomBefore t T inRange size (2 ^ k) q) :=
    mem_visits_iff inRange (hroom.gap_le) h.holds.rep hholes h.holds.nodup hq
  constructor
  · rintro ⟨q, hq, hbelow, htakes⟩
    have hin : q ∈ inorder T := mem_visits hq
    cases hup : alignUp (holeStart t.ext (inorder T) q) (2 ^ k) with
    | none => exact .inl ⟨q, hq, hbelow, hup⟩
    | some a =>
      obtain ⟨hfit, hinside⟩ := htakes a hup
      have hroom : RoomBefore t T inRange size (2 ^ k) q :=
        ⟨a, (alignUp_two_pow hk.le hup).1, le_alignUp hup, hfit, hinside⟩
      refine .inr ⟨q, hin, hroom, ?_⟩
      rintro (hout | ⟨a', hup', hlow⟩)
      · exact (hvisit hin hroom).mp hq hout
      · rw [hup] at hup'
        cases hup'
        exact absurd hinside.1 (not_le.mpr hlow)
  · rintro (⟨q, hq, hbelow, hup⟩ | ⟨q, hin, hroom, hseen⟩)
    · refine ⟨q, hq, hbelow, fun a ha => ?_⟩
      rw [hup] at ha
      cases ha
    · refine ⟨q, (hvisit hin hroom).mpr fun hout => hseen (.inl hout), ?_⟩
      obtain ⟨a, halign, hlow, hhigh, -, hend⟩ := hroom
      -- the first aligned address is no higher than the room, and not below `in_range`
      refine ⟨by omega, fun m hup => ?_⟩
      · have hm := alignUp_le_of_dvd hk.le hup hlow halign
        have hge : inRange.front ≤ m := by
          by_contra hlt
          exact hseen (.inr ⟨m, hup, Nat.lt_of_not_le hlt⟩)
        exact ⟨by omega, hge, by omega⟩

/--
**The search gives up only where there is no room, exactly if it is `Complete`**: the holes with room
are not all to the left of a node that begins below the end of `in_range`, or begin below `in_range`.
-/
theorem search_complete_iff (inRange : Range) (h : Agrees t live T) (hholes : HolesRight t T)
    (hsize : 1 ≤ size) {k : Nat} (hk : k < 64) (hfuel : (inorder T).length + 2 ≤ fuel) :
    ((∃ prev, t.findFromStart fuel inRange size (2 ^ k) = .ok (ADDRSPACE_INVALID_ADDR, prev)) →
      ¬ HasRoom t live inRange size (2 ^ k)) ↔ Complete t T inRange size (2 ^ k) := by
  unfold Complete
  by_cases hne : T = .nil
  · subst hne
    simp only [true_and, ne_eq, not_true_eq_false, false_and, or_false]
    rw [findFromStart_empty h.holds hsize]
    have hfree : ∀ p, p ∉ live := fun p hp => by
      have hmem := (h.mem p).mpr hp
      cases hmem
    constructor
    · -- the address that stands for failure would be room
      intro hinvalid a hup hin ha
      subst ha
      refine hinvalid ⟨none, by rw [hup]; exact if_pos hin⟩ ?_
      exact ⟨_, (alignUp_two_pow hk.le hup).1, hin, fun p hp => absurd hp (hfree p)⟩
    · rintro hvalid ⟨prev, hrun⟩ ⟨a, halign, hin, -⟩
      cases hup : alignUp inRange.front (2 ^ k) with
      | none =>
        rw [hup] at hrun
        cases hrun
      | some m =>
        rw [hup] at hrun
        dsimp only at hrun
        -- the address tried is the first one, so it has room too
        have hfirst : Inside inRange m size := by
          have hle := alignUp_le_of_dvd hk.le hup hin.1 halign
          have hlow := le_alignUp hup
          obtain ⟨-, hend⟩ := hin
          exact ⟨hlow, by omega⟩
        rw [if_pos hfirst] at hrun
        injection hrun with hrun
        exact hvalid m hup hfirst (congrArg Prod.fst hrun)
  · rw [findFromStart_eq h.holds hne hfuel, h.scan_invalid_iff hsize hne (visits_sublist T)]
    simp only [hne, false_and, ne_eq, not_false_eq_true, true_and, false_or]
    have htakes := takes_iff inRange h hholes hsize hk
    constructor
    · intro hnone
      by_contra hno
      simp only [not_or, not_forall] at hno
      obtain ⟨hlast, hassert, q, hq, hroom, hall⟩ := hno
      refine hnone ⟨hlast, fun x hx htake => ?_⟩ (hroom.hasRoom h hq)
      rcases htakes.mp ⟨x, hx, htake⟩ with hassert' | hfound
      · exact hassert hassert'
      · exact hall hfound
    · rintro hcond ⟨hlast, hgo⟩ hroom
      have hstop : ¬ ∃ q ∈ visits t inRange size T, Takes t T inRange size (2 ^ k) q :=
        fun ⟨q, hq, htake⟩ => hgo q hq htake
      rw [htakes, not_or] at hstop
      rcases hcond with hcond | hassert | hfound
      · exact hlast hcond
      · exact hstop.1 hassert
      · rcases hroom.hole h hsize with ⟨q, hq, hbefore⟩ | ⟨a, halign, hle, hin⟩
        · exact hstop.2 (hfound q hq hbefore)
        · obtain ⟨-, hend⟩ := hin
          refine hlast ⟨by omega, fun hwrap => ?_⟩
          have hlt : a < 2 ^ 64 := by
            simp only [U64] at hwrap
            omega
          obtain ⟨m, hup⟩ := exists_alignUp hk.le hle halign hlt
          have hm := alignUp_le_of_dvd hk.le hup hle halign
          exact ⟨m, hup, by omega⟩

/-- A page before the second of three nodes is found, and there is none where the node itself is. -/
theorem search_complete_iff_three :
    Complete threePages (.node 2 (.node 1 .nil .nil) (.node 3 .nil .nil)) ⟨0x3000, 0x2000⟩ 0x1000
      (2 ^ 12) ∧
    (∃ prev, threePages.findFromStart 5 ⟨0x4000, 0x1000⟩ 0x1000 (2 ^ 12)
        = .ok (ADDRSPACE_INVALID_ADDR, prev)) ∧
      ¬ HasRoom threePages {1, 2, 3} ⟨0x4000, 0x1000⟩ 0x1000 (2 ^ 12) := by
  have hk : 12 < 64 := by decide
  have hholes : HolesRight threePages (.node 2 (.node 1 .nil .nil) (.node 3 .nil .nil)) := by
    unfold HolesRight
    decide
  have hfinds : ¬ ∃ prev, threePages.findFromStart 5 ⟨0x3000, 0x2000⟩ 0x1000 (2 ^ 12)
      = .ok (ADDRSPACE_INVALID_ADDR, prev) := by
    rw [show threePages.findFromStart 5 ⟨0x3000, 0x2000⟩ 0x1000 (2 ^ 12) = .ok (0x3000, some 1) by
      decide +kernel]
    rintro ⟨_, h⟩
    cases h
  have hgivesUp : ∃ prev, threePages.findFromStart 5 ⟨0x4000, 0x1000⟩ 0x1000 (2 ^ 12)
      = .ok (ADDRSPACE_INVALID_ADDR, prev) := ⟨none, by decide +kernel⟩
  refine ⟨(search_complete_iff ⟨0x3000, 0x2000⟩ threePages_agrees hholes (by decide) hk
      (by decide)).mp fun h => absurd h hfinds, hgivesUp,
    (search_complete_iff ⟨0x4000, 0x1000⟩ threePages_agrees hholes (by decide) hk
      (by decide)).mpr (.inr ⟨by simp, .inr (.inr ?_)⟩) hgivesUp⟩
  -- the second node has all of `in_range`
  rintro q hq ⟨a, -, hlow, hhigh, hfront, hend⟩
  have hside : (threePages.ext.range q).front ≤ 0x4000 ∨
      0x5000 ≤ holeStart threePages.ext [1, 2, 3] q := by
    simp only [inorder, nil_append, cons_append, mem_cons, not_mem_nil, or_false] at hq
    rcases hq with rfl | rfl | rfl <;> decide
  have hlow' : holeStart threePages.ext [1, 2, 3] q ≤ a := hlow
  simp only [end_] at hfront hend
  omega

/--
Two searches over the three nodes that give up: the hole before the first node is inside `in_range`,
but it is to the left of a node that is inside `in_range` too; and it is large enough at an address
that is not its first.
-/
theorem search_misses_room :
    ∃ s T, Op.run 4 (blank fun _ => ⟨0, 0⟩, []) packed = .ok s ∧ Kept s T ∧
      (s.1.findFromStart 5 ⟨0, 0x12000⟩ 0x1000 (2 ^ 12) = .ok (ADDRSPACE_INVALID_ADDR, none) ∧
        HasRoom s.1 {p | p ∈ s.2} ⟨0, 0x12000⟩ 0x1000 (2 ^ 12)) ∧
      (s.1.findFromStart 5 ⟨0x4000, 0x4000⟩ 0x1000 (2 ^ 12) = .ok (ADDRSPACE_INVALID_ADDR, none) ∧
        HasRoom s.1 {p | p ∈ s.2} ⟨0x4000, 0x4000⟩ 0x1000 (2 ^ 12)) := by
  obtain ⟨s, T, hrun, hkept⟩ := packed_kept
  have hread : (Op.run 4 (blank fun _ => ⟨0, 0⟩, []) packed).map (fun s =>
      (s.1.findFromStart 5 ⟨0, 0x12000⟩ 0x1000 (2 ^ 12),
        s.1.findFromStart 5 ⟨0x4000, 0x4000⟩ 0x1000 (2 ^ 12),
        decide (∀ p ∈ s.2, 0x10000 ≤ (s.1.ext.range p).front)))
      = .ok (.ok (ADDRSPACE_INVALID_ADDR, none), .ok (ADDRSPACE_INVALID_ADDR, none), true) := by
    decide +kernel
  rw [hrun] at hread
  injection hread with hread
  simp only [Prod.mk.injEq, decide_eq_true_eq] at hread
  obtain ⟨hfirst, hsecond, hfront⟩ := hread
  -- below the nodes everything is free
  have hroom : ∀ a : Nat, a + 0x1000 ≤ 0x10000 → ∀ p ∈ s.2,
      Disjoint (Set.Ico a (a + 0x1000)) (s.1.ext.range p).locs := by
    intro a ha p hp
    have hle : (⟨a, 0x1000⟩ : Range).end_ ≤ (s.1.ext.range p).front := ha.trans (hfront p hp)
    exact disjoint_locs hle
  refine ⟨s, T, hrun, hkept, ⟨hfirst, 0, by decide, by decide, hroom 0 (by decide)⟩,
    hsecond, 0x4000, by decide, by decide, hroom 0x4000 (by decide)⟩

end OsKernel.Adt.AddressSpace
