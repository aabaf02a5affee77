import Mathlib

/-!
# Circular lists in a heap

A heap maps pointers to a pair of links, each of which may be NULL. A ring is a
head and the list of elements one passes on the way from the head back to it;
every step of the way is linked in both directions.

The two operations on rings are stated by what they do to the links, so a program
whose writes have that effect keeps its rings, whatever the order of the writes.
-/

namespace OsKernel

open List

/-- The two links of an element. -/
@[ext]
structure RingLinks (P : Type) where
  prev : Option P
  next : Option P

namespace LinkedRing

variable {P : Type} {H H' : P → RingLinks P}
variable {x head b : P} {B A : List P} {p : P} {L : List P}

/-- `b` comes right after `a`. -/
def Linked (H : P → RingLinks P) (a b : P) : Prop := (H a).next = some b ∧ (H b).prev = some a

/-- The way from `a` to `b`, past the elements of the list. -/
def Way (H : P → RingLinks P) (a : P) : List P → P → Prop
  | [], b => Linked H a b
  | x :: L, b => Linked H a x ∧ Way H x L b

/-- The elements of the ring of a head, in order. -/
structure IsRing (H : P → RingLinks P) (head : P) (L : List P) : Prop where
  way : Way H head L head
  nodup : (head :: L).Nodup

theorem way_append :
    ∀ {A : List P} {a : P}, Way H a (A ++ x :: B) b ↔ Way H a A x ∧ Way H x B b
  | [], _ => Iff.rfl
  | _ :: _, _ => by
    rw [cons_append, Way, Way, way_append, and_assoc]

theorem rotate_perm : (p :: (B ++ head :: A)).Perm (head :: (A ++ p :: B)) := by
  have hcomm : ((p :: B) ++ (head :: A)).Perm ((head :: A) ++ (p :: B)) := perm_append_comm
  exact hcomm

theorem IsRing.rotate (h : IsRing H head (A ++ p :: B)) : IsRing H p (B ++ head :: A) :=
  ⟨way_append.mpr (way_append.mp h.way).symm, rotate_perm.nodup_iff.mpr h.nodup⟩

theorem Way.congr : ∀ {A : List P} {a : P}, Way H a A b →
    (∀ p ∈ a :: A, (H' p).next = (H p).next) → (∀ p ∈ A ++ [b], (H' p).prev = (H p).prev) →
    Way H' a A b
  | [], a, h, hnext, hprev =>
    ⟨(hnext a mem_cons_self).trans h.1, (hprev b mem_cons_self).trans h.2⟩
  | x :: _, a, h, hnext, hprev =>
    ⟨⟨(hnext a mem_cons_self).trans h.1.1, (hprev x mem_cons_self).trans h.1.2⟩,
      h.2.congr (fun p hp => hnext p (.tail _ hp)) fun p hp => hprev p (.tail _ hp)⟩

theorem IsRing.congr (h : IsRing H head L) (hsame : ∀ p ∈ head :: L, H' p = H p) :
    IsRing H' head L := by
  refine ⟨h.way.congr ?_ ?_, h.nodup⟩
  · intro p hp
    rw [hsame p hp]
  · intro p hp
    rw [hsame p (by simpa [or_comm] using hp)]

theorem Way.next_eq {a : P} (h : Way H a A b) :
    (H a).next = some ((A ++ [b]).head (by simp)) := by
  cases A with
  | nil => exact h.1
  | cons x A => exact h.1.1

theorem Way.prev_eq : ∀ {A : List P} {a : P}, Way H a A b →
    (H b).prev = some ((a :: A).getLast (by simp))
  | [], _, h => h.2
  | x :: A, a, h => by
    exact h.2.prev_eq

/-- The elements and the head all have a successor, and it is one of them. -/
theorem IsRing.next_mem (h : IsRing H head L) (hp : p ∈ head :: L) :
    ∃ n ∈ head :: L, (H p).next = some n := by
  have hfirst : ∀ {p L}, IsRing H p L → ∃ n ∈ p :: L, (H p).next = some n := by
    intro p L h
    have hmem := head_mem (l := L ++ [p]) (by simp)
    rw [mem_append, mem_singleton, or_comm, ← mem_cons] at hmem
    exact ⟨_, hmem, h.way.next_eq⟩
  rcases mem_cons.mp hp with rfl | hp
  · exact hfirst h
  · obtain ⟨A, B, rfl⟩ := append_of_mem hp
    obtain ⟨n, hmem, hnext⟩ := hfirst h.rotate
    exact ⟨n, rotate_perm.subset hmem, hnext⟩

theorem IsRing.neighbours (h : IsRing H head (A ++ x :: B)) :
    ∃ p n, (H x).prev = some p ∧ (H x).next = some n ∧ p ∈ head :: (A ++ x :: B) ∧
      n ∈ head :: (A ++ x :: B) ∧ p ≠ x ∧ n ≠ x := by
  have hnext := h.rotate.way.next_eq
  have hprev := h.rotate.way.prev_eq
  rw [head_append_of_ne_nil (by simp)] at hnext
  rw [getLast_cons (by simp)] at hprev
  have hout : ∀ q ∈ B ++ head :: A, q ∈ head :: (A ++ x :: B) ∧ q ≠ x := fun q hq =>
    ⟨rotate_perm.subset (.tail _ hq), fun e => (nodup_cons.mp h.rotate.nodup).1 (e ▸ hq)⟩
  obtain ⟨hp, hpx⟩ := hout _ (getLast_mem (by simp))
  obtain ⟨hn, hnx⟩ := hout _ (head_mem (by simp))
  exact ⟨_, _, hprev, hnext, hp, hn, hpx, hnx⟩

/-- What comes behind the first element, and the head after it. -/
theorem ne_of_mem_behind {y : P} (hx : x ∉ head :: y :: L)
    (hnd : (head :: y :: L).Nodup) (hp : p ∈ L ++ [head]) : p ≠ x ∧ p ≠ y := by
  grind

section Operations

variable [DecidableEq P]

/-! ## Insertion -/

/-- The links after `x` was put between `p` and what came after `p`. -/
structure Inserted (H H' : P → RingLinks P) (p x : P) : Prop where
  at_ : (H' x).prev = some p ∧ (H' x).next = (H p).next
  next : ∀ q, q ≠ x → (H' q).next = if q = p then some x else (H q).next
  prev : ∀ q, q ≠ x → (H' q).prev = if some q = (H p).next then some x else (H q).prev

theorem Inserted.keep {n q : P} (h : Inserted H H' p x) (hnext : (H p).next = some n) (hx : q ≠ x)
    (hp : q ≠ p) (hn : q ≠ n) : H' q = H q := by
  refine RingLinks.ext ?_ ?_
  · rw [h.prev q hx, hnext, if_neg fun e => hn (Option.some.inj e)]
  · rw [h.next q hx, if_neg hp]

/-- **A new element at the front.** -/
theorem IsRing.insert_front (h : IsRing H head L) (hins : Inserted H H' head x)
    (hx : x ∉ head :: L) : IsRing H' head (x :: L) := by
  obtain ⟨hway, hnd⟩ := h
  have hxh : head ≠ x := fun e => hx (e ▸ mem_cons_self)
  have hxL : ∀ p ∈ L, p ≠ x := fun p hp e => hx (e ▸ mem_cons_of_mem _ hp)
  refine ⟨⟨⟨?_, hins.at_.1⟩, ?_⟩,
    (List.Perm.swap x head L).nodup_iff.mpr (nodup_cons.mpr ⟨hx, hnd⟩)⟩
  · rw [hins.next head hxh, if_pos rfl]
  · cases L with
    | nil =>
      refine ⟨hins.at_.2.trans hway.1, ?_⟩
      rw [hins.prev head hxh, if_pos hway.1.symm]
    | cons y L =>
      obtain ⟨⟨hhy, -⟩, hrest⟩ := hway
      refine ⟨⟨hins.at_.2.trans hhy, ?_⟩, ?_⟩
      · rw [hins.prev y (hxL y mem_cons_self), if_pos hhy.symm]
      · -- behind the second element nothing was written
        refine hrest.congr ?_ ?_
        · intro p hp
          have hph : p ≠ head := fun e => (nodup_cons.mp hnd).1 (e ▸ hp)
          rw [hins.next p (hxL p hp), if_neg hph]
        · intro p hp
          have hp' := ne_of_mem_behind hx hnd hp
          rw [hins.prev p hp'.1, hhy, if_neg fun e => hp'.2 (Option.some.inj e)]

/-- **A new element behind the first ones**, right after the last of them or after the head. -/
theorem IsRing.insert (h : IsRing H head (A ++ B))
    (hins : Inserted H H' ((head :: A).getLast (by simp)) x) (hx : x ∉ head :: (A ++ B)) :
    IsRing H' head (A ++ x :: B) := by
  rcases eq_nil_or_concat A with rfl | ⟨A', p, rfl⟩
  · exact h.insert_front hins hx
  · simp only [concat_eq_append, append_assoc, singleton_append] at h hx ⊢
    have hrot := h.rotate.insert_front (by simpa using hins) fun hmem => hx (rotate_perm.subset hmem)
    exact hrot.rotate (A := x :: B)

/-! ## Deletion -/

/-- The links after `x` was taken out: its neighbours point at each other. -/
structure Deleted (H H' : P → RingLinks P) (x : P) : Prop where
  next : ∀ q, q ≠ x → (H' q).next = if some q = (H x).prev then (H x).next else (H q).next
  prev : ∀ q, q ≠ x → (H' q).prev = if some q = (H x).next then (H x).prev else (H q).prev

theorem IsRing.delete_front (h : IsRing H head (x :: L)) (hdel : Deleted H H' x) :
    IsRing H' head L := by
  obtain ⟨⟨⟨-, hprev⟩, hway⟩, hnd⟩ := h
  obtain ⟨hx, hnd'⟩ := nodup_cons.mp ((List.Perm.swap x head L).nodup_iff.mp hnd)
  have hxh : head ≠ x := fun e => hx (e ▸ mem_cons_self)
  have hxL : ∀ p ∈ L, p ≠ x := fun p hp e => hx (e ▸ mem_cons_of_mem _ hp)
  refine ⟨?_, hnd'⟩
  cases L with
  | nil =>
    obtain ⟨hnext, -⟩ := hway
    constructor
    · rw [hdel.next head hxh, if_pos hprev.symm, hnext]
    · rw [hdel.prev head hxh, if_pos hnext.symm, hprev]
  | cons y L =>
    obtain ⟨⟨hnext, -⟩, hrest⟩ := hway
    refine ⟨⟨?_, ?_⟩, ?_⟩
    · rw [hdel.next head hxh, if_pos hprev.symm, hnext]
    · rw [hdel.prev y (hxL y mem_cons_self), if_pos hnext.symm, hprev]
    · -- behind the new neighbour nothing was written
      refine hrest.congr ?_ ?_
      · intro p hp
        have hph : p ≠ head := fun e => (nodup_cons.mp hnd').1 (e ▸ hp)
        rw [hdel.next p (hxL p hp), hprev, if_neg fun e => hph (Option.some.inj e)]
      · intro p hp
        have hp' := ne_of_mem_behind hx hnd' hp
        rw [hdel.prev p hp'.1, hnext, if_neg fun e => hp'.2 (Option.some.inj e)]

/-- **An element less.** -/
theorem IsRing.delete (h : IsRing H head (A ++ x :: B)) (hdel : Deleted H H' x) :
    IsRing H' head (A ++ B) := by
  rcases eq_nil_or_concat A with rfl | ⟨A', p, rfl⟩
  · exact h.delete_front hdel
  · simp only [concat_eq_append, append_assoc, singleton_append] at h ⊢
    exact (h.rotate.delete_front hdel).rotate

end Operations

end LinkedRing

end OsKernel
