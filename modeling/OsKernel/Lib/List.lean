import OsKernel.Base.Fault
import OsKernel.Base.LinkedRing

/-!
# Doubly linked lists (`lib/list.h`)

Lists are circular and intrusive. A heap gives every `struct list *` its two links.
-/

namespace OsKernel

open LinkedRing
open Function List

/-- A `struct list *`: the head of the list, or the element inside the `p`-th structure. -/
inductive ListPtr where
  | head
  | node (p : Nat)
  deriving DecidableEq

variable {P : Type} [DecidableEq P]
variable {x head : P} {A B : List P} {H : P → RingLinks P}

/-- `list_add_common`, which writes through `next` last. -/
def listAddCommon (H : P → RingLinks P) (elem prev : P) (next : Option P) :
    Result (P → RingLinks P) :=
  match next with
  | none => .error .nullDeref
  | some next =>
    let H := Function.update H elem ⟨some prev, some next⟩
    let H := Function.update H prev { H prev with next := some elem }
    .ok (Function.update H next { H next with prev := some elem })

/-- `list_add`: right behind `head`, which may be an element too. -/
def listAdd (H : P → RingLinks P) (head item : P) : Result (P → RingLinks P) :=
  listAddCommon H item head (H head).next

/-- `list_delete`: out of its list, with both links NULL. -/
def listDelete (H : P → RingLinks P) (elem : P) : Result (P → RingLinks P) :=
  match (H elem).next with
  | none => .error .nullDeref
  | some next =>
    let H := Function.update H next { H next with prev := (H elem).prev }
    match (H elem).prev with
    | none => .error .nullDeref
    | some prev =>
      let H := Function.update H prev { H prev with next := (H elem).next }
      .ok (Function.update H elem ⟨none, none⟩)

/-- `list_remove`: out of its list, linked to itself. -/
def listRemove (H : P → RingLinks P) (elem : P) : Result (P → RingLinks P) :=
  match (H elem).next with
  | none => .error .nullDeref
  | some next =>
    let H := Function.update H next { H next with prev := (H elem).prev }
    match (H elem).prev with
    | none => .error .nullDeref
    | some prev =>
      let H := Function.update H prev { H prev with next := (H elem).next }
      .ok (Function.update H elem ⟨some elem, some elem⟩)

/-- `list_init`. -/
def listInit (H : P → RingLinks P) (head : P) : P → RingLinks P :=
  Function.update H head ⟨some head, some head⟩

/-- `list_empty`. -/
def listEmpty (H : P → RingLinks P) (head : P) : Bool := (H head).prev = some head

theorem listAdd_inserted {p n : P} (hnext : (H p).next = some n) (hp : x ≠ p)
    (hn : x ≠ n) : ∃ H', listAdd H p x = .ok H' ∧ Inserted H H' p x := by
  unfold listAdd listAddCommon
  rw [hnext]
  refine ⟨_, rfl, ⟨?_, ?_⟩, ?_, ?_⟩
  · simp [hp, hn]
  · simp [hp, hn, hnext]
  · intro q hq
    by_cases hqp : q = p
    · by_cases hqn : q = n <;> simp_all [update_apply]
    · by_cases hqn : q = n <;> simp_all [update_apply]
  · intro q hq
    by_cases hqn : q = n
    · simp [hqn, hnext]
    · by_cases hqp : q = p <;> simp_all [update_apply]

/-- **`list_add` on a ring**: the new element comes right behind the given one. -/
theorem listAdd_ring (h : IsRing H head (A ++ B)) (hx : x ∉ head :: (A ++ B)) :
    ∃ H', listAdd H ((head :: A).getLast (by simp)) x = .ok H' ∧ IsRing H' head (A ++ x :: B) ∧
      ∀ q, q ≠ x → q ∉ head :: (A ++ B) → H' q = H q := by
  have hp : (head :: A).getLast (by simp) ∈ head :: (A ++ B) := by
    exact mem_append_left _ (getLast_mem _)
  obtain ⟨n, hn, hnext⟩ := h.next_mem hp
  obtain ⟨H', hrun, hins⟩ := listAdd_inserted hnext (ne_of_mem_of_not_mem hp hx).symm
    (ne_of_mem_of_not_mem hn hx).symm
  refine ⟨H', hrun, h.insert hins hx, ?_⟩
  intro q hqx hq
  exact hins.keep hnext hqx (ne_of_mem_of_not_mem hp hq).symm (ne_of_mem_of_not_mem hn hq).symm

/-- An element whose neighbours point at each other is out, whatever its own links are. -/
theorem unlink_ring (h : IsRing H head (A ++ x :: B)) :
    ∃ p n, (H x).prev = some p ∧ (H x).next = some n ∧ n ≠ x ∧ ∀ v,
      let H' := update (update (update H n
        { H n with prev := some p }) p
        { update H n { H n with prev := some p } p with next := some n }) x v
      IsRing H' head (A ++ B) ∧ ∀ q ∉ head :: (A ++ x :: B), H' q = H q := by
  obtain ⟨p, n, hprev, hnext, hp, hn, hpx, hnx⟩ := h.neighbours
  refine ⟨p, n, hprev, hnext, hnx, fun v => ?_⟩
  refine ⟨h.delete ⟨?_, ?_⟩, ?_⟩
  · intro q hq
    by_cases hqp : q = p
    · by_cases hqn : q = n <;> simp_all
    · by_cases hqn : q = n <;> simp_all [update_apply]
  · intro q hq
    by_cases hqp : q = p
    · by_cases hqn : q = n <;> simp_all
    · by_cases hqn : q = n <;> simp_all [update_apply]
  · intro q hq
    have hx : x ∈ head :: (A ++ x :: B) := by simp
    have h1 : q ≠ x := (ne_of_mem_of_not_mem hx hq).symm
    have h2 : q ≠ p := (ne_of_mem_of_not_mem hp hq).symm
    have h3 : q ≠ n := (ne_of_mem_of_not_mem hn hq).symm
    simp [update_apply, h1, h2, h3]

/-- **`list_delete` on a ring** takes the element out. -/
theorem listDelete_ring (h : IsRing H head (A ++ x :: B)) :
    ∃ H', listDelete H x = .ok H' ∧ IsRing H' head (A ++ B) ∧
      ∀ q ∉ head :: (A ++ x :: B), H' q = H q := by
  obtain ⟨p, n, hprev, hnext, hnx, hout⟩ := unlink_ring h
  refine ⟨_, ?_, hout ⟨none, none⟩⟩
  unfold listDelete
  simp only [update_of_ne hnx.symm, hprev, hnext]

/-- **`list_remove` on a ring** does too, and leaves the element in a ring of its own. -/
theorem listRemove_ring (h : IsRing H head (A ++ x :: B)) :
    ∃ H', listRemove H x = .ok H' ∧ IsRing H' head (A ++ B) ∧
      ∀ q ∉ head :: (A ++ x :: B), H' q = H q := by
  obtain ⟨p, n, hprev, hnext, hnx, hout⟩ := unlink_ring h
  refine ⟨_, ?_, hout ⟨some x, some x⟩⟩
  unfold listRemove
  simp only [update_of_ne hnx.symm, hprev, hnext]

theorem listEmpty_iff {L : List P} (h : IsRing H head L) : listEmpty H head = true ↔ L = [] := by
  have hprev := h.way.prev_eq
  unfold listEmpty
  rw [hprev, decide_eq_true_eq, Option.some.injEq]
  rcases eq_nil_or_concat L with rfl | ⟨L', x, rfl⟩
  · simp
  · have hnd := h.nodup
    simp only [concat_eq_append, nodup_cons, mem_append, mem_singleton, not_or] at hnd
    simp [Ne.symm hnd.1.2]

/-! ## Loops over a list -/

section Loops

variable {β : Type} {H : ListPtr → RingLinks ListPtr} {prev : ListPtr} {L : List Nat} {fuel : Nat}

/--
A `list_foreach` that remembers the element before the current one and breaks at the first element
with a property: the element it remembers then. It starts with the head.
-/
def listForeachPrev (H : ListPtr → RingLinks ListPtr) (stop : Nat → Bool) :
    Nat → ListPtr → Result ListPtr
  | 0, _ => .error .outOfFuel
  | fuel + 1, prev =>
    match (H prev).next with
    | none => .error .nullDeref
    | some .head => .ok prev
    | some (.node iter) =>
      if stop iter then .ok prev else listForeachPrev H stop fuel (.node iter)

/-- A `list_foreach` behind `prev` that breaks where the body has found something. -/
def listForeachFind (H : ListPtr → RingLinks ListPtr) (body : Nat → Result (Option β)) :
    Nat → ListPtr → Result (Option (Nat × β))
  | 0, _ => .error .outOfFuel
  | fuel + 1, prev =>
    match (H prev).next with
    | none => .error .nullDeref
    | some .head => .ok none
    | some (.node iter) => do
      match ← body iter with
      | some found => pure (some (iter, found))
      | none => listForeachFind H body fuel (.node iter)

/-- The elements of a list behind `prev`, in order. -/
def listNodes (H : ListPtr → RingLinks ListPtr) : Nat → ListPtr → List Nat
  | 0, _ => []
  | fuel + 1, prev =>
    match (H prev).next with
    | some (.node p) => p :: listNodes H fuel (.node p)
    | _ => []

theorem listForeachPrev_spec (stop : Nat → Bool) (h : Way H prev (L.map .node) .head)
    (hfuel : L.length < fuel) :
    listForeachPrev H stop fuel prev =
      .ok ((prev :: (L.takeWhile fun p => !stop p).map .node).getLast (by simp)) := by
  induction L generalizing prev fuel with
  | nil =>
    match fuel, hfuel with
    | fuel + 1, _ =>
      rw [listForeachPrev, h.1]
      rfl
  | cons p L ih =>
    match fuel, hfuel with
    | fuel + 1, hfuel =>
      rw [listForeachPrev, h.1.1]
      dsimp only
      cases hstop : stop p with
      | true => simp [hstop]
      | false =>
        rw [if_neg (by simp), ih h.2 (by simpa using hfuel)]
        simp [hstop, getLast_cons]

theorem listForeachFind_spec (body : Nat → Result (Option β))
    (h : Way H prev (L.map .node) .head) (hbody : ∀ p ∈ L, ∃ r, body p = .ok r)
    (hfuel : L.length < fuel) :
    (listForeachFind H body fuel prev = .ok none ∧ ∀ p ∈ L, body p = .ok none) ∨
    ∃ A p B b, L = A ++ p :: B ∧ (∀ q ∈ A, body q = .ok none) ∧ body p = .ok (some b) ∧
      Way H (.node p) (B.map .node) .head ∧ listForeachFind H body fuel prev = .ok (some (p, b)) := by
  induction L generalizing prev fuel with
  | nil =>
    match fuel, hfuel with
    | fuel + 1, _ =>
      left
      rw [listForeachFind, h.1]
      exact ⟨rfl, by simp⟩
  | cons p L ih =>
    match fuel, hfuel with
    | fuel + 1, hfuel =>
      obtain ⟨r, hr⟩ := hbody p (by simp)
      rw [listForeachFind, h.1.1]
      dsimp only
      rw [hr, ok_bind]
      cases r with
      | some b => exact .inr ⟨[], p, L, b, rfl, by simp, hr, h.2, rfl⟩
      | none =>
        rcases ih h.2 (fun q hq => hbody q (by simp [hq])) (by simpa using hfuel) with
          ⟨hrun, hnone⟩ | ⟨A, q, B, b, rfl, hA, hb, hway, hrun⟩
        · exact .inl ⟨hrun, forall_mem_cons.mpr ⟨hr, hnone⟩⟩
        · exact .inr ⟨p :: A, q, B, b, rfl, forall_mem_cons.mpr ⟨hr, hA⟩, hb, hway, hrun⟩

theorem listNodes_eq (h : Way H prev (L.map .node) .head) (hfuel : L.length ≤ fuel) :
    listNodes H fuel prev = L := by
  induction L generalizing prev fuel with
  | nil =>
    cases fuel with
    | zero => rfl
    | succ fuel => rw [listNodes, h.1]
  | cons p L ih =>
    match fuel, hfuel with
    | fuel + 1, hfuel =>
      rw [listNodes, h.1.1]
      dsimp only
      rw [ih h.2 (by simpa using hfuel)]

theorem ring_congr {H' : ListPtr → RingLinks ListPtr}
    (h : IsRing H .head (L.map .node)) (hhead : H' .head = H .head)
    (hnode : ∀ p ∈ L, H' (.node p) = H (.node p)) : IsRing H' .head (L.map .node) := by
  apply h.congr
  intro x hx
  rcases mem_cons.mp hx with rfl | hx
  · exact hhead
  · obtain ⟨p, hp, rfl⟩ := mem_map.mp hx
    exact hnode p hp

theorem listInit_ring {x : Nat} (h : IsRing H .head (L.map .node)) (hx : x ∉ L) :
    IsRing (listInit H (.node x)) .head (L.map .node) := by
  refine ring_congr h ?_ ?_
  · exact update_of_ne (by simp) _ _
  · intro p hp
    refine update_of_ne ?_ _ _
    intro e
    exact hx (ListPtr.node.inj e ▸ hp)

theorem ring_unique {L' : List Nat} (h : IsRing H .head (L.map .node))
    (h' : IsRing H .head (L'.map .node)) : L = L' :=
  (listNodes_eq h.way (Nat.le_max_left L.length L'.length)).symm.trans
    (listNodes_eq h'.way (Nat.le_max_right L.length L'.length))

end Loops

end OsKernel
