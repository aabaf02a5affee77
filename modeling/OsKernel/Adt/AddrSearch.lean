import OsKernel.Adt.AddrSpace
import OsKernel.Adt.AvlProof
import OsKernel.Base.Effect

/-!
# The search for room

`find_from_start` walks the tree from left to right. It skips a left or right subtree
when the largest hole recorded for it is too small, so the nodes it stops at on its way
are some of the nodes of the tree, in order: `visits`. At each of them it looks at the
hole before the node; only when all of them have been passed does it look behind the
last node. The recorded sizes only decide which nodes are visited. What is found at a
node is right or wrong on its own account.
-/

namespace OsKernel.Adt.AddressSpace

open LinkedTree LinkedRing AvlTree List Range Effect

variable {q p : Ptr} {A B M : List Ptr} {fuel addr : Nat} {e : AddrData} {l r : BinaryTree Ptr}
  {c : Ctx Ptr} {prev : Option Ptr}

/-! ## Well-formed address spaces -/

/-- The list and the tree hold the live nodes in the order of their ranges. -/
structure Agrees (t : AddressSpace) (live : Set Ptr) (T : BinaryTree Ptr) : Prop where
  /-- The tree in memory. -/
  holds : Holds t T
  /-- The list is the tree, read from left to right. -/
  ring : IsRing t.ext.list .head ((inorder T).map .node)
  mem : ∀ p, p ∈ inorder T ↔ p ∈ live
  /-- The ranges ascend and do not meet. -/
  ordered : (inorder T).Pairwise fun p q => (t.ext.range p).end_ ≤ (t.ext.range q).front
  fits : ∀ p ∈ inorder T, (t.ext.range p).Fits

/-- The lowest address that is behind all nodes of a list. -/
def endOf (e : AddrData) (A : List Ptr) : Nat :=
  match A.getLast? with
  | none => 0
  | some p => (e.range p).end_

/-- The list element right before what comes behind the nodes of a list. -/
def lastPtr (A : List Ptr) : ListPtr :=
  match A.getLast? with
  | none => .head
  | some p => .node p

theorem lastPtr_eq (A : List Ptr) :
    lastPtr A = (ListPtr.head :: A.map .node).getLast (by simp) := by
  rcases eq_nil_or_concat A with rfl | ⟨A', p, rfl⟩
  · rfl
  · simp [lastPtr]

section Search

variable {t : AddressSpace} {live : Set Ptr} {T : BinaryTree Ptr}

theorem Agrees.le_endOf (h : Agrees t live T) (hsplit : inorder T = A ++ B) :
    ∀ p ∈ A, (t.ext.range p).end_ ≤ endOf t.ext A := by
  intro p hp
  rcases eq_nil_or_concat A with rfl | ⟨A', q, rfl⟩
  · cases hp
  · simp only [concat_eq_append] at hsplit hp ⊢
    have hend : endOf t.ext (A' ++ [q]) = (t.ext.range q).end_ := by simp [endOf]
    rw [hend]
    rcases mem_append.mp hp with hp | hp
    · have hord := h.ordered
      rw [hsplit, pairwise_append, pairwise_append] at hord
      have hpq := hord.1.2.2 p hp q mem_cons_self
      exact hpq.trans le_self_add
    · rw [mem_singleton.mp hp]

theorem endOf_le_front (hord : M.Pairwise fun p q => (e.range p).end_ ≤ (e.range q).front)
    (hsplit : M = A ++ q :: B) :
    endOf e A ≤ (e.range q).front := by
  unfold endOf
  cases hlast : A.getLast? with
  | none => exact Nat.zero_le _
  | some p =>
    rw [hsplit, pairwise_append] at hord
    exact hord.2.2 p (mem_of_getLast? hlast) q mem_cons_self

theorem Agrees.endOf_le_front (h : Agrees t live T) (hsplit : inorder T = A ++ q :: B) :
    endOf t.ext A ≤ (t.ext.range q).front :=
  AddressSpace.endOf_le_front h.ordered hsplit

/-- The end of the way is reached from the last node. -/
theorem prev_of_way {H : ListPtr → RingLinks ListPtr} {b : ListPtr}
    (h : Way H .head (A.map .node) b) : (H b).prev = some (lastPtr A) := by
  rw [lastPtr_eq]
  exact h.prev_eq

/-- On the list a node comes after the last of those before it. -/
theorem nodePrev_of_ring (hring : IsRing e.list .head (M.map .node)) (hsplit : M = A ++ q :: B) :
    e.addrspaceNodePrev q = .ok A.getLast? := by
  have hway := hring.way
  rw [hsplit, map_append, map_cons] at hway
  unfold AddrData.addrspaceNodePrev
  rw [prev_of_way (way_append.mp hway).1]
  unfold lastPtr
  cases A.getLast? <;> rfl

theorem Agrees.nodePrev (h : Agrees t live T) (hsplit : inorder T = A ++ q :: B) :
    t.ext.addrspaceNodePrev q = .ok A.getLast? :=
  nodePrev_of_ring h.ring hsplit

theorem Agrees.prevEnd (h : Agrees t live T) (hsplit : inorder T = A ++ B) :
    t.ext.prevEnd A.getLast? = .ok (endOf t.ext A) := by
  unfold endOf
  cases hlast : A.getLast? with
  | none => rfl
  | some p =>
    refine getEndAssert_eq (h.fits p ?_).2
    rw [hsplit]
    exact mem_append_left _ (mem_of_getLast? hlast)

variable {inRange : Range} {size align : Nat}

/-- The hole before a node, in numbers. -/
theorem Agrees.tryHole_eq (h : Agrees t live T) (hsize : 1 ≤ size)
    (hsplit : inorder T = A ++ q :: B) :
    tryHole t.ext inRange size align q =
      if inRange.end_ ≤ endOf t.ext A then .ok (some (ADDRSPACE_INVALID_ADDR, none))
      else match alignUp (endOf t.ext A) align with
        | none => .error .panic
        | some a =>
          if (endOf t.ext A ≤ a ∧ a + size ≤ (t.ext.range q).front) ∧
              inRange.front ≤ a ∧ a + size ≤ inRange.end_ then
            .ok (some (a, A.getLast?))
          else .ok none := by
  have hle := h.endOf_le_front hsplit
  unfold tryHole
  rw [h.nodePrev hsplit]
  simp only [ok_bind, h.prevEnd hsplit, isLocAbove_iff]
  split
  · rfl
  · unfold alignUpAssert
    cases alignUp (endOf t.ext A) align with
    | none => rfl
    | some a =>
      have hhole : (⟨endOf t.ext A, (t.ext.range q).front - endOf t.ext A⟩ : Range).end_
          = (t.ext.range q).front := by
        simp only [end_]
        omega
      have hin : ∀ r : Range, r.has ⟨a, size⟩ = true ↔ r.front ≤ a ∧ a + size ≤ r.end_ :=
        fun r => has_iff hsize
      simp only [ok_bind, createEnd, if_pos hle, Bool.and_eq_true, hin, hhole]
      rfl

/-! ## The walk -/

/-- The nodes of a subtree at which the search looks at the hole, in order. -/
def visits (t : AddressSpace) (inRange : Range) (size : Nat) : BinaryTree Ptr → List Ptr
  | .nil => []
  | .node p l r =>
    (if (t.leftOf inRange size p).isSome then visits t inRange size l else []) ++
      p :: if (t.rightOf size p).isSome then visits t inRange size r else []

/-- The same for what comes after a subtree, on the way up. -/
def comeback (t : AddressSpace) (inRange : Range) (size : Nat) : Ctx Ptr → List Ptr
  | [] => []
  | .left p r :: c =>
    (p :: if (t.rightOf size p).isSome then visits t inRange size r else []) ++
      comeback t inRange size c
  | .right _ _ :: c => comeback t inRange size c

/-- Look at the holes before the given nodes, and behind the last node. -/
def scan (e : AddrData) (inRange : Range) (size align : Nat) :
    List Ptr → Result (Nat × Option Ptr)
  | [] => afterLast e inRange size align
  | q :: V => do
    match ← tryHole e inRange size align q with
    | some found => pure found
    | none => scan e inRange size align V

/-! ### Watching the search

The search again, with the nodes remembered at which it looks at the hole.
-/

/-- Look at the hole before a node. -/
def lookAt (e : AddrData) (inRange : Range) (size align : Nat) (node : Ptr) :
    Effect (List Ptr) (Option (Nat × Option Ptr)) := fun seen =>
  (tryHole e inRange size align node, seen ++ [node])

/-- `travserse_tree`, watched. -/
def travserseTraced (t : AddressSpace) (inRange : Range) (size align : Nat) :
    Nat → Ptr → Effect (List Ptr) TraversalResult
  | 0, _ => Effect.lift (.error .outOfFuel)
  | fuel + 1, node => do
    match ← lookAt t.ext inRange size align node with
    | some (result, prev) => pure (.done result prev)
    | none =>
      match t.rightOf size node with
      | some right => pure (.continue_ right)
      | none =>
        match ← Effect.lift (t.climb fuel node) with
        | none =>
          let (result, prev) ← Effect.lift (afterLast t.ext inRange size align)
          pure (.done result prev)
        | some node => travserseTraced t inRange size align fuel node

/-- The loop of `find_from_start`, watched. -/
def findTraced (t : AddressSpace) (inRange : Range) (size align fuel : Nat) :
    Nat → Ptr → Effect (List Ptr) (Nat × Option Ptr)
  | 0, _ => Effect.lift (.error .outOfFuel)
  | turns + 1, node =>
    match t.leftOf inRange size node with
    | some left => findTraced t inRange size align fuel turns left
    | none => do
      match ← t.travserseTraced inRange size align fuel node with
      | .done result prev => pure (result, prev)
      | .continue_ right => findTraced t inRange size align fuel turns right

/-- `find_from_start`, watched. In an empty space there is nothing to look at. -/
def findFromStartTraced (t : AddressSpace) (fuel : Nat) (inRange : Range) (size align : Nat) :
    Effect (List Ptr) (Nat × Option Ptr) :=
  match t.root with
  | none => Effect.lift (t.findFromStart fuel inRange size align)
  | some root => t.findTraced inRange size align fuel fuel root

/-- `scan`, watched. -/
def scanTraced (e : AddrData) (inRange : Range) (size align : Nat) :
    List Ptr → Effect (List Ptr) (Nat × Option Ptr)
  | [] => Effect.lift (afterLast e inRange size align)
  | q :: V => do
    match ← lookAt e inRange size align q with
    | some found => pure found
    | none => scanTraced e inRange size align V

theorem travserseTraced_returns : ∀ (fuel : Nat) (node : Ptr),
    (t.travserseTraced inRange size align fuel node).Returns
      (t.travserseTree inRange size align fuel node)
  | 0, _ => returns_lift _
  | fuel + 1, node => by
    refine Effect.Returns.bind (fun _ => rfl) ?_
    intro found
    cases found with
    | some found => exact returns_pure _
    | none =>
      cases t.rightOf size node with
      | some right => exact returns_pure _
      | none =>
        refine (returns_lift _).bind ?_
        intro next
        cases next with
        | none => exact (returns_lift _).bind fun _ => returns_pure _
        | some next => exact travserseTraced_returns fuel next

theorem findTraced_returns (fuel : Nat) : ∀ (turns : Nat) (node : Ptr),
    (t.findTraced inRange size align fuel turns node).Returns
      (t.findLoop inRange size align fuel turns node)
  | 0, _ => returns_lift _
  | turns + 1, node => by
    unfold findTraced findLoop
    cases t.leftOf inRange size node with
    | some left => exact findTraced_returns fuel turns left
    | none =>
      refine (travserseTraced_returns fuel node).bind ?_
      intro next
      cases next with
      | done result prev => exact returns_pure _
      | continue_ right => exact findTraced_returns fuel turns right

/-- Watching the search does not change what it finds. -/
theorem findFromStartTraced_returns (fuel : Nat) :
    (t.findFromStartTraced fuel inRange size align).Returns
      (t.findFromStart fuel inRange size align) := by
  unfold findFromStartTraced
  split
  · exact returns_lift _
  · rename_i root hroot
    have hsame : t.findFromStart fuel inRange size align
        = t.findLoop inRange size align fuel fuel root := by
      unfold findFromStart
      rw [hroot]
    rw [hsame]
    exact findTraced_returns fuel fuel root

theorem scanTraced_returns (e : AddrData) : ∀ V : List Ptr,
    (scanTraced e inRange size align V).Returns (scan e inRange size align V)
  | [] => returns_lift _
  | q :: V => by
    refine Effect.Returns.bind (fun _ => rfl) ?_
    intro found
    cases found with
    | some found => exact returns_pure _
    | none => exact scanTraced_returns e V

/-! ### Where the walk goes -/

/-- The nodes that the search has not entered when it leaves the subtree. -/
def ahead : Ctx Ptr → Nat
  | [] => 0
  | .left _ r :: c => (inorder r).length + ahead c
  | .right _ _ :: c => ahead c

theorem mem_visits : ∀ {T : BinaryTree Ptr} {p : Ptr}, p ∈ visits t inRange size T → p ∈ inorder T
  | .node q l r, p, hp => by
    rw [inorder_node]
    simp only [visits, mem_append, mem_cons] at hp ⊢
    rcases hp with hp | hp | hp
    · split at hp
      · exact .inl (mem_visits hp)
      · cases hp
    · exact .inr (.inl hp)
    · split at hp
      · exact .inr (.inr (mem_visits hp))
      · cases hp

variable (inRange size) in
/-- Going up from a subtree leads to the next node of `comeback`, or past the root. -/
theorem climb_spec : ∀ {c : Ctx Ptr} {p : Ptr} {l r : BinaryTree Ptr} {fuel : Nat},
    Holds t (plug c (.node p l r)) → c.length < fuel →
    (t.climb fuel p = .ok none ∧ comeback t inRange size c = []) ∨
    ∃ p' l' r' c', t.climb fuel p = .ok (some p') ∧
      plug c (.node p l r) = plug c' (.node p' l' r') ∧
      comeback t inRange size c = comeback t inRange size (.left p' r' :: c') ∧
      c'.length < c.length ∧ ahead c = (inorder r').length + ahead c'
  | c, p, l, r, 0, _, hfuel => absurd hfuel (Nat.not_lt_zero _)
  | c, p, l, r, fuel + 1, h, hfuel => by
    have hlink := getNodeLink_eq h
    unfold getNodeLink at hlink
    unfold climb
    match c, h, hfuel, hlink with
    | [], h, _, hlink =>
      left
      cases hpar : (t.nodes p).parent with
      | none => exact ⟨rfl, rfl⟩
      | some q =>
        rw [hpar] at hlink
        dsimp only at hlink
        split at hlink <;> simp [ctxLink] at hlink
    | .left q r' :: c, h, _, hlink =>
      right
      refine ⟨q, .node p l r, r', c, ?_, rfl, rfl, Nat.lt_succ_self _, rfl⟩
      cases hpar : (t.nodes p).parent with
      | none => simp [hpar, ctxLink] at hlink
      | some q' =>
        rw [hpar] at hlink
        dsimp only at hlink ⊢
        split at hlink
        · rename_i hleft
          rw [if_pos hleft]
          injection hlink with hlink
          rw [hlink]
        · simp [ctxLink] at hlink
    | .right l' q :: c, h, hfuel, hlink =>
      cases hpar : (t.nodes p).parent with
      | none => simp [hpar, ctxLink] at hlink
      | some q' =>
        rw [hpar] at hlink
        dsimp only at hlink ⊢
        split at hlink
        · simp [ctxLink] at hlink
        · rename_i hleft
          rw [if_neg hleft]
          injection hlink with hlink
          subst hlink
          have hlen : c.length < fuel := by
            rw [length_cons] at hfuel
            omega
          have hup : Holds t (plug c (.node q' l' (.node p l r))) := h
          rcases climb_spec hup hlen with hroot | ⟨p', l'', r'', c', hrun, hplug, hback, hlt, hah⟩
          · exact .inl hroot
          · exact .inr ⟨p', l'', r'', c', hrun, hplug, hback, Nat.lt_succ_of_lt hlt, hah⟩

/-- Where the search goes on to the right there is a right subtree, and it starts at its top. -/
theorem rightOf_eq (h : Holds t (plug c (.node p l r))) (hgo : t.rightOf size p = some q) :
    ∃ rl rr, r = .node q rl rr := by
  obtain ⟨_, _, _, _, _, hr⟩ := rep_plug.mp h.rep
  unfold rightOf at hgo
  split at hgo
  · rename_i q' hq
    split at hgo
    · cases hgo
      rw [nodes_right] at hq
      rw [hq] at hr
      match r, hr with
      | .node q' rl rr, hr =>
        injection hr.1 with hq'
        exact ⟨rl, rr, by rw [hq']⟩
    · cases hgo
  · cases hgo

theorem leftOf_eq (h : Holds t (plug c (.node p l r))) (hgo : t.leftOf inRange size p = some q) :
    ∃ ll lr, l = .node q ll lr := by
  obtain ⟨_, _, _, _, hl, _⟩ := rep_plug.mp h.rep
  unfold leftOf at hgo
  split at hgo
  · rename_i q' hq
    split at hgo
    · cases hgo
      rw [show (t.links _).left = _ from hq] at hl
      match l, hl with
      | .node q' ll lr, hl =>
        injection hl.1 with hq'
        exact ⟨ll, lr, by rw [hq']⟩
    · cases hgo
  · cases hgo

/-- What `find_from_start` does with the result of `travserse_tree`. -/
def resume (t : AddressSpace) (inRange : Range) (size align fuel turns : Nat) :
    TraversalResult → Effect (List Ptr) (Nat × Option Ptr)
  | .done result prev => pure (result, prev)
  | .continue_ right => t.findTraced inRange size align fuel turns right

/--
From a node on: `travserse_tree` looks before the node, goes right if that is worth it, and up
otherwise. Entering the right subtree is the business of `find_from_start`, with fewer turns.
-/
theorem travserseTraced_eq {turns : Nat} (h : Holds t T)
    (hdown : ∀ p l r c, plug c (.node p l r) = T →
      (inorder (.node p l r)).length + ahead c ≤ turns →
      t.findTraced inRange size align fuel turns p
        = scanTraced t.ext inRange size align
            (visits t inRange size (.node p l r) ++ comeback t inRange size c)) :
    ∀ (steps : Nat) {p : Ptr} {l r : BinaryTree Ptr} {c : Ctx Ptr},
    plug c (.node p l r) = T → c.length + 2 ≤ steps → (inorder r).length + ahead c ≤ turns →
    (t.travserseTraced inRange size align steps p >>= resume t inRange size align fuel turns)
      = scanTraced t.ext inRange size align (comeback t inRange size (.left p r :: c)) := by
  intro steps
  induction steps with
  | zero =>
    omega
  | succ steps ih =>
    intro p l r c hplug hsteps hturns
    have hold : Holds t (plug c (.node p l r)) := by
      rw [hplug]
      exact h
    unfold travserseTraced comeback
    rw [cons_append, scanTraced, bind_assoc]
    congr 1
    funext found
    cases found with
    | some found => rfl
    | none =>
      cases hgo : t.rightOf size p with
      | some q =>
        -- on to the right subtree
        obtain ⟨rl, rr, rfl⟩ := rightOf_eq hold hgo
        exact hdown q rl rr (.right l p :: c) hplug hturns
      | none =>
        -- up, to the next node that has not been looked at
        have hlen : c.length < steps := by omega
        rcases climb_spec inRange size hold hlen with
          ⟨hclimb, hback⟩ | ⟨p', l', r', c', hclimb, hplug', hback, hlt, hahead⟩
        · rw [hclimb, hback]
          simp only [lift_ok_bind, Option.isSome_none, Bool.false_eq_true, if_false,
            append_nil, scanTraced, bind_assoc, pure_bind, resume]
          cases afterLast t.ext inRange size align <;> rfl
        · rw [hclimb, hback]
          exact ih (hplug'.symm.trans hplug) (by omega) (by omega)

/-- The loop of `find_from_start` looks at the visited nodes of the subtree it enters. -/
theorem findTraced_eq (h : Holds t T) (hfuel : (inorder T).length + 2 ≤ fuel) :
    ∀ (turns : Nat) (p : Ptr) (l r : BinaryTree Ptr) (c : Ctx Ptr), plug c (.node p l r) = T →
    (inorder (.node p l r)).length + ahead c ≤ turns →
    t.findTraced inRange size align fuel turns p
      = scanTraced t.ext inRange size align
          (visits t inRange size (.node p l r) ++ comeback t inRange size c) := by
  intro turns
  induction turns with
  | zero =>
    intro p l r c _ hturns
    simp only [inorder_node, length_append, length_cons] at hturns
    omega
  | succ turns ih =>
    intro p l r c hplug hturns
    simp only [inorder_node, length_append, length_cons] at hturns
    have hold : Holds t (plug c (.node p l r)) := by
      rw [hplug]
      exact h
    unfold findTraced visits
    cases hgo : t.leftOf inRange size p with
    | some q =>
      obtain ⟨ll, lr, rfl⟩ := leftOf_eq hold hgo
      have hahead : (inorder (.node q ll lr)).length + ahead (.left p r :: c) ≤ turns := by
        simp only [ahead]
        omega
      have hrec := ih q ll lr (.left p r :: c) hplug hahead
      simp only [Option.isSome_some, if_true, append_assoc]
      exact hrec
    | none =>
      have hlen : c.length + 2 ≤ fuel := by
        have hwhole := congrArg (fun T => (inorder T).length) hplug
        simp only [inorder_plug, length_append] at hwhole
        have := length_le_before_after c
        omega
      have hrun := travserseTraced_eq h ih fuel hplug hlen (by omega)
      exact hrun

section

variable (h : Holds t T) (hne : T ≠ .nil) (hfuel : (inorder T).length + 2 ≤ fuel)
include h hne hfuel

/-- **The search looks at the visited nodes in order, and behind the last node in the end.** -/
theorem findFromStartTraced_eq :
    t.findFromStartTraced fuel inRange size align
      = scanTraced t.ext inRange size align (visits t inRange size T) := by
  match T, h, hne, hfuel with
  | .node p l r, h, _, hfuel =>
    have hroot : t.root = some p := h.rep.1
    unfold findFromStartTraced
    rw [hroot]
    have hturns : (inorder (.node p l r)).length + ahead [] ≤ fuel := by
      simp only [ahead]
      omega
    have hloop : t.findTraced inRange size align fuel fuel p = _ :=
      findTraced_eq h hfuel fuel p l r [] rfl hturns
    rw [comeback, append_nil] at hloop
    exact hloop

theorem findFromStart_eq :
    t.findFromStart fuel inRange size align
      = scan t.ext inRange size align (visits t inRange size T) := by
  rw [← findFromStartTraced_returns fuel [], findFromStartTraced_eq h hne hfuel,
    scanTraced_returns t.ext _ []]

end

/-! ## What is found -/

/-- The room is behind the nodes up to `prev` and before the others. -/
structure Room (t : AddressSpace) (T : BinaryTree Ptr) (addr size : Nat) (prev : Option Ptr) :
    Prop where
  split : ∃ A B, inorder T = A ++ B ∧ prev = A.getLast? ∧ endOf t.ext A ≤ addr ∧
    ∀ q ∈ B, addr + size ≤ (t.ext.range q).front
  fits : addr + size < U64

/-- The room is inside `in_range`. -/
def Inside (inRange : Range) (addr size : Nat) : Prop :=
  inRange.front ≤ addr ∧ addr + size ≤ inRange.end_

instance (inRange : Range) (addr size : Nat) : Decidable (Inside inRange addr size) :=
  inferInstanceAs (Decidable (_ ∧ _))

/--
The search ends at a node: `in_range` is below the hole before the node, or the first aligned
address of the hole has room in the hole and in `in_range` (or the assertion that there is such an
address fails).
-/
def StopsAt (t : AddressSpace) (T : BinaryTree Ptr) (inRange : Range) (size align : Nat)
    (q : Ptr) : Prop :=
  ∃ A B, inorder T = A ++ q :: B ∧
    (inRange.end_ ≤ endOf t.ext A ∨ ∀ a, alignUp (endOf t.ext A) align = some a →
      a + size ≤ (t.ext.range q).front ∧ Inside inRange a size)

section

variable (h : Agrees t live T) (hsize : 1 ≤ size)
include h hsize

theorem Agrees.tryHole_none (hq : q ∈ inorder T) (hgo : ¬ StopsAt t T inRange size align q) :
    tryHole t.ext inRange size align q = .ok none := by
  obtain ⟨A, B, hsplit⟩ := append_of_mem hq
  rw [h.tryHole_eq hsize hsplit]
  have hno : ¬ (inRange.end_ ≤ endOf t.ext A ∨ ∀ a, alignUp (endOf t.ext A) align = some a →
      a + size ≤ (t.ext.range q).front ∧ Inside inRange a size) :=
    fun hstop => hgo ⟨A, B, hsplit, hstop⟩
  rw [not_or] at hno
  rw [if_neg hno.1]
  cases hup : alignUp (endOf t.ext A) align with
  | none =>
    refine absurd ?_ hno.2
    intro a ha
    rw [hup] at ha
    cases ha
  | some a =>
    refine if_neg fun hfit => hno.2 ?_
    intro a' ha'
    rw [hup] at ha'
    cases ha'
    exact ⟨hfit.1.2, hfit.2⟩

theorem Agrees.tryHole_stops (hstop : StopsAt t T inRange size align q) :
    tryHole t.ext inRange size align q ≠ .ok none := by
  obtain ⟨A, B, hsplit, hstop⟩ := hstop
  rw [h.tryHole_eq hsize hsplit]
  intro hrun
  split at hrun
  · cases hrun
  · rename_i hbelow
    split at hrun
    · cases hrun
    · rename_i a hup
      rcases hstop with hstop | hstop
      · exact hbelow hstop
      · rw [if_pos ⟨⟨le_alignUp hup, (hstop a hup).1⟩, (hstop a hup).2⟩] at hrun
        cases hrun

/-- What is found in the hole before a node is there, and inside `in_range`. -/
theorem Agrees.tryHole_found (hq : q ∈ inorder T)
    (hrun : tryHole t.ext inRange size align q = .ok (some (addr, prev)))
    (hvalid : addr ≠ ADDRSPACE_INVALID_ADDR) :
    Room t T addr size prev ∧ Inside inRange addr size ∧ ∃ n, alignUp n align = some addr := by
  obtain ⟨A, B, hsplit⟩ := append_of_mem hq
  rw [h.tryHole_eq hsize hsplit] at hrun
  split at hrun
  · -- no address
    simp only [Except.ok.injEq, Option.some.injEq, Prod.mk.injEq] at hrun
    exact absurd hrun.1.symm hvalid
  · split at hrun
    · cases hrun
    · rename_i a hup
      split at hrun
      · rename_i hfit
        simp only [Except.ok.injEq, Option.some.injEq, Prod.mk.injEq] at hrun
        obtain ⟨rfl, rfl⟩ := hrun
        have hqB : ∀ x ∈ q :: B, a + size ≤ (t.ext.range x).front := by
          intro x hx
          rcases mem_cons.mp hx with rfl | hx
          · exact hfit.1.2
          · have hord := h.ordered
            rw [hsplit, pairwise_append, pairwise_cons] at hord
            have := hord.2.1.1 x hx
            simp only [end_] at this
            omega
        refine ⟨⟨⟨A, q :: B, hsplit, rfl, hfit.1.1, hqB⟩, ?_⟩, hfit.2, _, hup⟩
        have := (h.fits q hq).2
        simp only [end_] at this
        omega
      · cases hrun

end

theorem exists_last (hne : T ≠ .nil) : ∃ A q, inorder T = A ++ [q] := by
  rcases eq_nil_or_concat (inorder T) with hnil | ⟨A, q, hsplit⟩
  · cases T with
    | nil => exact absurd rfl hne
    | node p l r => simp at hnil
  · exact ⟨A, q, by rw [hsplit, concat_eq_append]⟩

/-- What is found behind the last node is there, but nothing says that it is in `in_range`. -/
theorem Agrees.afterLast_eq (h : Agrees t live T) (hsplit : inorder T = A ++ [q]) :
    afterLast t.ext inRange size align =
      if inRange.end_ < U64 then
        if inRange.end_ ≤ (t.ext.range q).end_ then .ok (ADDRSPACE_INVALID_ADDR, none)
        else match alignUp (t.ext.range q).end_ align with
          | none => .ok (ADDRSPACE_INVALID_ADDR, none)
          | some a =>
            if a + size < U64 then .ok (a, some q) else .ok (ADDRSPACE_INVALID_ADDR, none)
      else .error .panic := by
  have hway := h.ring.way
  rw [hsplit] at hway
  have hprev : (t.ext.list .head).prev = some (.node q) := by
    rw [prev_of_way hway]
    simp [lastPtr]
  have hq : (t.ext.range q).end_ < U64 := (h.fits q (by rw [hsplit]; simp)).2
  unfold afterLast
  rw [hprev]
  simp only [getEndAssert_eq hq, ok_bind]
  by_cases hin : inRange.end_ < U64
  · rw [getEndAssert_eq hin, if_pos hin]
    rfl
  · rw [getEndAssert_panic hin, if_neg hin]
    rfl

theorem Agrees.afterLast_found (h : Agrees t live T) (hne : T ≠ .nil)
    (hrun : afterLast t.ext inRange size align = .ok (addr, prev))
    (hvalid : addr ≠ ADDRSPACE_INVALID_ADDR) :
    Room t T addr size prev ∧ inRange.end_ < U64 ∧ endOf t.ext (inorder T) < inRange.end_ ∧
      alignUp (endOf t.ext (inorder T)) align = some addr := by
  obtain ⟨A, q, hsplit⟩ := exists_last hne
  have hend : endOf t.ext (inorder T) = (t.ext.range q).end_ := by simp [endOf, hsplit]
  rw [h.afterLast_eq hsplit, ← hend] at hrun
  have hbad : ∀ {p : Option Ptr}, (.ok (ADDRSPACE_INVALID_ADDR, p) : Result _) = .ok (addr, prev) →
      False := by
    intro p hrun
    simp only [Except.ok.injEq, Prod.mk.injEq] at hrun
    exact hvalid hrun.1.symm
  split at hrun
  · rename_i hin
    split at hrun
    · exact (hbad hrun).elim
    · rename_i hbelow
      split at hrun
      · exact (hbad hrun).elim
      · rename_i a hup
        split at hrun
        · rename_i hfit
          obtain ⟨rfl, rfl⟩ := hrun
          refine ⟨⟨⟨inorder T, [], by simp, by simp [hsplit], le_alignUp hup, by simp⟩, hfit⟩, hin,
            not_le.mp hbelow, hup⟩
        · exact (hbad hrun).elim
  · cases hrun

/-- The search passes nodes at which it does not end. -/
theorem Agrees.scan_pass (h : Agrees t live T) (hsize : 1 ≤ size) : ∀ {V : List Ptr},
    (∀ q ∈ V, q ∈ inorder T) → (∀ q ∈ V, ¬ StopsAt t T inRange size align q) →
    scan t.ext inRange size align V = afterLast t.ext inRange size align := by
  intro V
  induction V with
  | nil =>
    intro _ _
    rfl
  | cons q V ih =>
    intro hV hgo
    rw [scan, h.tryHole_none hsize (hV q mem_cons_self) (hgo q mem_cons_self)]
    exact ih (fun x hx => hV x (.tail _ hx)) fun x hx => hgo x (.tail _ hx)

/-- What the scan finds is there, and inside `in_range` if the search ends at one of the nodes. -/
theorem Agrees.scan_found (h : Agrees t live T) (hsize : 1 ≤ size) (hne : T ≠ .nil)
    (hvalid : addr ≠ ADDRSPACE_INVALID_ADDR) : ∀ {V : List Ptr},
    (∀ q ∈ V, q ∈ inorder T) → scan t.ext inRange size align V = .ok (addr, prev) →
    Room t T addr size prev ∧ (∃ n, alignUp n align = some addr) ∧
      ((∃ q ∈ V, StopsAt t T inRange size align q) → Inside inRange addr size) := by
  intro V
  induction V with
  | nil =>
    intro _ hrun
    obtain ⟨hroom, -, -, hup⟩ := h.afterLast_found hne hrun hvalid
    refine ⟨hroom, ⟨_, hup⟩, ?_⟩
    intro hstop
    obtain ⟨q, hq, _⟩ := hstop
    cases hq
  | cons q V ih =>
    intro hV hrun
    have hq := hV q mem_cons_self
    obtain ⟨found, htry, hrun⟩ := bind_eq_ok.mp hrun
    cases found with
    | some found =>
      have hfound : found = (addr, prev) := by
        injection hrun
      subst hfound
      obtain ⟨hroom, hin, hup⟩ := h.tryHole_found hsize hq htry hvalid
      exact ⟨hroom, hup, fun _ => hin⟩
    | none =>
      obtain ⟨hroom, hup, hin⟩ := ih (fun x hx => hV x (.tail _ hx)) hrun
      refine ⟨hroom, hup, ?_⟩
      intro hstop
      obtain ⟨x, hx, hstop⟩ := hstop
      rcases mem_cons.mp hx with rfl | hx
      · exact absurd htry (h.tryHole_stops hsize hstop)
      · exact hin ⟨x, hx, hstop⟩

end Search

/-! ## A space of three pages -/

/-- A space of three pages with a page between each two; node 5 overlaps the first, node 4 is last. -/
def threePages : AddressSpace where
  nodes p := match p with
    | 1 => ⟨⟨some 2, none, none⟩, 1⟩
    | 2 => ⟨⟨none, some 1, some 3⟩, 2⟩
    | 3 => ⟨⟨some 2, none, none⟩, 1⟩
    | _ => ⟨⟨none, none, none⟩, 0⟩
  root := some 2
  ext := {
    range := fun p => if p = 5 then ⟨0x2800, 0x1000⟩ else ⟨p * 0x2000, 0x1000⟩
    list := fun
      | .head => ⟨some (.node 3), some (.node 1)⟩
      | .node 1 => ⟨some .head, some (.node 2)⟩
      | .node 2 => ⟨some (.node 1), some (.node 3)⟩
      | .node 3 => ⟨some (.node 2), some .head⟩
      | .node p => ⟨some (.node p), some (.node p)⟩
    largestFreeToPrev := fun p => if p = 3 then 0x1000 else 0x2000 }

theorem threePages_agrees :
    Agrees threePages {1, 2, 3} (.node 2 (.node 1 .nil .nil) (.node 3 .nil .nil)) where
  holds := ⟨by decide, by decide⟩
  ring := ⟨⟨⟨rfl, rfl⟩, ⟨rfl, rfl⟩, ⟨rfl, rfl⟩, rfl, rfl⟩, by decide⟩
  mem p := by simp [inorder]
  ordered := by decide
  fits := by decide

end OsKernel.Adt.AddressSpace
