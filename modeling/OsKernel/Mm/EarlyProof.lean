import OsKernel.Base.Runs
import OsKernel.Mm.Early

/-!
# The areas of the early allocator

`Areas s L M` says that memory holds the areas `L`, in the order of addresses on
`g_freepage_list` and in the order of available pages, as `M`, on `g_asc_freelist`. Both
allocation functions do the same to them: they cut a block out of one area and leave at
most one piece of it in front of the block and one behind. `Areas.cut` is that step.
-/

namespace OsKernel.Mm.Early

open LinkedRing
open Function List Set

variable {s : Early} {A B L M C D M' R : List Nat} {p fuel info k n phys q x : Nat}
  {H asc : ListPtr → RingLinks ListPtr}

/-- Where the available pages of an area end. -/
def areaEnd (s : Early) (p : Nat) : Nat := p + s.availPageCount p * PAGE_SIZE

/-- The areas, in both orders. -/
structure Areas (s : Early) (L M : List Nat) : Prop where
  list : IsRing s.list .head (L.map .node)
  ascList : IsRing s.ascList .head (M.map .node)
  /-- Both lists have the same areas. -/
  same : M.Perm L
  /-- The areas do not overlap, and are listed in the order of their addresses. -/
  apart : L.Pairwise fun p q => s.areaEnd p ≤ q
  ascending : M.Pairwise fun p q => s.availPageCount p ≤ s.availPageCount q
  sum : (L.map s.availPageCount).sum = s.totalFreePagesRemaining
  /-- An area has at least the page with its `struct freepages_info`. -/
  pos : ∀ p ∈ L, 0 < s.availPageCount p
  aligned : ∀ p ∈ L, PAGE_SIZE ∣ p
  bounded : ∀ p ∈ L, s.areaEnd p ≤ U64

/-- The addresses in the available pages of areas. -/
def freeAddrs (s : Early) (L : List Nat) : Set Nat := { a | ∃ p ∈ L, p ≤ a ∧ a < s.areaEnd p }

/-- The addresses of `amount` pages. -/
def block (phys amount : Nat) : Set Nat := Set.Ico phys (phys + amount * PAGE_SIZE)

/-! ## The lists -/

theorem nodup_of_ring (h : IsRing H .head (L.map .node)) :
    L.Nodup :=
  List.Nodup.of_map _ (nodup_cons.mp h.nodup).2

/-- The last link of a part of the list that begins at its head. -/
abbrev lastLink (A : List Nat) : ListPtr := (ListPtr.head :: A.map .node).getLast (by simp)

theorem lastLink_concat : lastLink (A ++ [p]) = .node p := by simp

theorem listAdd_nodes (h : IsRing H .head ((A ++ B).map .node)) (hx : x ∉ A ++ B) :
    ∃ H', listAdd H (lastLink A) (.node x) = .ok H' ∧
      IsRing H' .head ((A ++ x :: B).map .node) := by
  rw [map_append] at h
  obtain ⟨H', hrun, hring, _⟩ := listAdd_ring h (x := .node x) (by simpa using hx)
  exact ⟨H', hrun, by simpa using hring⟩

theorem listDelete_nodes (h : IsRing H .head ((A ++ x :: B).map .node)) :
    ∃ H', listDelete H (.node x) = .ok H' ∧ IsRing H' .head ((A ++ B).map .node) := by
  rw [map_append, map_cons] at h
  obtain ⟨H', hrun, hring, _⟩ := listDelete_ring h
  exact ⟨H', hrun, by rw [map_append]; exact hring⟩

theorem listRemove_nodes (h : IsRing H .head ((A ++ x :: B).map .node)) :
    ∃ H', listRemove H (.node x) = .ok H' ∧ IsRing H' .head ((A ++ B).map .node) := by
  rw [map_append, map_cons] at h
  obtain ⟨H', hrun, hring, _⟩ := listRemove_ring h
  exact ⟨H', hrun, by rw [map_append]; exact hring⟩

theorem pairwise_insert {f : Nat → Nat} (h : M.Pairwise fun p q => f p ≤ f q) :
    ((M.takeWhile fun p => !decide (f x < f p)) ++
      x :: M.dropWhile fun p => !decide (f x < f p)).Pairwise fun p q => f p ≤ f q := by
  induction M with
  | nil => simp
  | cons y M ih =>
    obtain ⟨hy, hM⟩ := pairwise_cons.mp h
    by_cases hxy : f x < f y
    · -- the new element is the first
      rw [takeWhile_cons_of_neg (by simpa using hxy),
        dropWhile_cons_of_neg (by simpa using hxy), nil_append, pairwise_cons]
      refine ⟨?_, h⟩
      intro q hq
      rcases mem_cons.mp hq with rfl | hq
      · omega
      · have := hy q hq
        omega
    · rw [takeWhile_cons_of_pos (by simpa using hxy),
        dropWhile_cons_of_pos (by simpa using hxy), cons_append, pairwise_cons]
      refine ⟨?_, ih hM⟩
      intro q hq
      rcases mem_append.mp hq with hq | hq
      · exact hy q ((takeWhile_sublist _).subset hq)
      · rcases mem_cons.mp hq with rfl | hq
        · omega
        · exact hy q ((dropWhile_sublist _).subset hq)

/-- **`add_to_asc_list`** keeps the order. -/
theorem addToAscList_spec (h : IsRing s.ascList .head (M.map .node))
    (hsorted : M.Pairwise fun p q => s.availPageCount p ≤ s.availPageCount q) (hnew : info ∉ M)
    (hfuel : M.length < fuel) :
    ∃ asc, ∃ M' : List Nat, s.addToAscList fuel info = .ok { s with ascList := asc } ∧
      IsRing asc .head (M'.map .node) ∧ M'.Perm (info :: M) ∧
      M'.Pairwise fun p q => s.availPageCount p ≤ s.availPageCount q := by
  let before : Nat → Bool := fun p => !decide (s.availPageCount info < s.availPageCount p)
  have hsplit : M.takeWhile before ++ M.dropWhile before = M := takeWhile_append_dropWhile
  obtain ⟨asc, hadd, hring⟩ := listAdd_nodes (A := M.takeWhile before) (B := M.dropWhile before)
    (x := info) (by rw [hsplit]; exact h) (by rw [hsplit]; exact hnew)
  refine ⟨asc, _, ?_, hring, ?_, pairwise_insert hsorted⟩
  · unfold addToAscList
    rw [listForeachPrev_spec _ h.way hfuel, ok_bind]
    rw [hadd]
    rfl
  · refine perm_middle.trans (List.Perm.cons info ?_)
    rw [hsplit]

/-- **An area that became smaller finds its place again.** -/
theorem fixAscList_spec (h : IsRing s.ascList .head ((C ++ info :: D).map .node))
    (hsorted : (C ++ D).Pairwise fun p q => s.availPageCount p ≤ s.availPageCount q)
    (hafter : ∀ q ∈ D, s.availPageCount info ≤ s.availPageCount q)
    (hfuel : (C ++ info :: D).length ≤ fuel) :
    ∃ asc, ∃ M' : List Nat, s.fixAscList fuel info = .ok { s with ascList := asc } ∧
      IsRing asc .head (M'.map .node) ∧ M'.Perm (C ++ info :: D) ∧
      M'.Pairwise fun p q => s.availPageCount p ≤ s.availPageCount q := by
  have hway := h.way
  rw [map_append, map_cons, way_append] at hway
  have hprev := hway.1.prev_eq
  obtain ⟨hC, hD, hCD⟩ := pairwise_append.mp hsorted
  unfold fixAscList
  rw [hprev]
  rcases eq_nil_or_concat C with rfl | ⟨C', p, rfl⟩
  · exact ⟨s.ascList, info :: D, rfl, h, List.Perm.refl _, pairwise_cons.mpr ⟨hafter, hD⟩⟩
  · have hlast : (ListPtr.head :: (C'.concat p).map ListPtr.node).getLast (by simp) = .node p := by
      simp
    rw [hlast]
    dsimp only
    by_cases hlt : s.availPageCount info < s.availPageCount p
    · -- out of order: taken out and put in again
      rw [if_pos hlt]
      obtain ⟨asc, hremove, hring⟩ := listRemove_nodes h
      have hnd := nodup_of_ring h
      rw [nodup_middle, nodup_cons] at hnd
      have hshort : (C'.concat p ++ D).length < fuel := by
        simp only [length_append, length_cons] at hfuel ⊢
        omega
      obtain ⟨asc', M', hadd, hring', hperm, hsorted'⟩ := addToAscList_spec
        (s := { s with ascList := asc }) hring hsorted hnd.1 hshort
      refine ⟨asc', M', ?_, hring', hperm.trans perm_middle.symm, hsorted'⟩
      rw [hremove, ok_bind]
      exact hadd
    · rw [if_neg hlt]
      refine ⟨s.ascList, _, rfl, h, List.Perm.refl _, ?_⟩
      rw [pairwise_append, pairwise_cons]
      refine ⟨hC, ⟨hafter, hD⟩, ?_⟩
      intro x hx q hq
      rcases mem_cons.mp hq with rfl | hq
      · -- everything in front is at most the last one there
        have hle : s.availPageCount x ≤ s.availPageCount p := by
          rw [List.concat_eq_append, List.mem_append, List.mem_singleton] at hx
          rcases hx with hx | rfl
          · rw [concat_eq_append, pairwise_append] at hC
            exact hC.2.2 x hx p (by simp)
          · exact le_rfl
        omega
      · exact hCD x hx q hq

/-! ## Cutting a block out of an area -/

section Wipe

variable {phys amount : Nat}

theorem handOut_outside (hp : p ∉ block phys amount) :
    (s.handOut phys amount).list (.node p) = s.list (.node p) ∧
      (s.handOut phys amount).ascList (.node p) = s.ascList (.node p) ∧
      (s.handOut phys amount).availPageCount p = s.availPageCount p := by
  simp only [block, mem_Ico] at hp
  simp only [handOut, zeroPages, Bool.and_eq_true, decide_eq_true_eq]
  rw [if_neg hp, if_neg hp, if_neg hp]
  exact ⟨rfl, rfl, rfl⟩

end Wipe

theorem sum_le_room {N : Nat} : ∀ {L : List Nat} {lo : Nat},
    (L.Pairwise fun p q => s.areaEnd p ≤ q) → (∀ p ∈ L, s.areaEnd p ≤ N) → (∀ p ∈ L, lo ≤ p) →
    lo ≤ N → (L.map s.availPageCount).sum * PAGE_SIZE + lo ≤ N
  | [], lo, _, _, _, hlo => by simpa using hlo
  | p :: L, lo, hapart, hend, hge, _ => by
    obtain ⟨hp, hrest⟩ := pairwise_cons.mp hapart
    have ih := sum_le_room hrest (fun q hq => hend q (by simp [hq])) hp (hend p (by simp))
    have hlo := hge p (by simp)
    rw [map_cons, sum_cons, add_mul]
    unfold areaEnd at ih
    omega

theorem mem_middle : p ∈ A ++ (R ++ B) ↔ p ∈ R ∨ p ∈ A ++ B := by
  rw [mem_append, mem_append, or_left_comm, ← mem_append]

theorem freeAddrs_middle :
    freeAddrs s (A ++ (R ++ B)) = freeAddrs s R ∪ freeAddrs s (A ++ B) := by
  ext a
  simp only [freeAddrs, mem_middle, or_and_right, exists_or, mem_ofPred_eq, mem_union]

theorem freeAddrs_congr {t : Early} (h : ∀ p ∈ L, t.availPageCount p = s.availPageCount p) :
    freeAddrs t L = freeAddrs s L := by
  ext a
  refine exists_congr fun p => and_congr_right fun hp => ?_
  rw [areaEnd, areaEnd, h p hp]

theorem freeAddrs_singleton : freeAddrs s [p] = Set.Ico p (s.areaEnd p) := by
  ext a
  simp [freeAddrs]

/--
**Areas make way for others.** The areas `P` between `A` and `B` are replaced by `R`, with room
between the same neighbours. All other areas keep their counts, and the total is the sum again.
-/
theorem Areas.replace (t : Early) {P : List Nat} (h : Areas s (A ++ (P ++ B)) M)
    (hlist : IsRing t.list .head ((A ++ (R ++ B)).map .node))
    (hasc : IsRing t.ascList .head (M'.map .node)) (hperm : M'.Perm (A ++ (R ++ B)))
    (hsorted : M'.Pairwise fun x y => t.availPageCount x ≤ t.availPageCount y)
    (hold : ∀ q ∈ A ++ B, t.availPageCount q = s.availPageCount q)
    (hapart : R.Pairwise fun x y => t.areaEnd x ≤ y)
    (hpieces : ∀ x ∈ R, (∀ q ∈ A, s.areaEnd q ≤ x) ∧ (∀ q ∈ B, t.areaEnd x ≤ q) ∧
      0 < t.availPageCount x ∧ PAGE_SIZE ∣ x ∧ t.areaEnd x ≤ U64)
    (hsum : ∀ total, total + (P.map s.availPageCount).sum =
      s.totalFreePagesRemaining + (R.map t.availPageCount).sum → total * PAGE_SIZE ≤ U64 →
      total = t.totalFreePagesRemaining) :
    Areas t (A ++ (R ++ B)) M' ∧
      freeAddrs t (A ++ (R ++ B)) = freeAddrs t R ∪ freeAddrs s (A ++ B) := by
  obtain ⟨hAA, hPB, hAB⟩ := pairwise_append.mp h.apart
  obtain ⟨-, hBB, -⟩ := pairwise_append.mp hPB
  have hend : ∀ q ∈ A ++ B, t.areaEnd q = s.areaEnd q := by
    intro q hq
    rw [areaEnd, areaEnd, hold q hq]
  have hapart' : (A ++ (R ++ B)).Pairwise fun x y => t.areaEnd x ≤ y := by
    refine pairwise_append.mpr ⟨hAA.imp_of_mem ?_, pairwise_append.mpr
      ⟨hapart, hBB.imp_of_mem ?_, fun x hx => (hpieces x hx).2.1⟩, ?_⟩
    · intro x y hx _ hxy
      rw [hend x (by simp [hx])]
      exact hxy
    · intro x y hx _ hxy
      rw [hend x (by simp [hx])]
      exact hxy
    · intro x hx y hy
      rw [hend x (by simp [hx])]
      rcases mem_append.mp hy with hy | hy
      · exact (hpieces y hy).1 x hx
      · exact hAB x hx y (by simp [hy])
  have hbounded : ∀ x ∈ A ++ (R ++ B), t.areaEnd x ≤ U64 := by
    intro x hx
    rcases mem_middle.mp hx with hx | hx
    · exact (hpieces x hx).2.2.2.2
    · rw [hend x hx]
      exact h.bounded x (mem_middle.mpr (.inr hx))
  refine ⟨⟨hlist, hasc, hperm, hapart', hsorted, hsum _ ?_ ?_, ?_, ?_, hbounded⟩, ?_⟩
  · have hmapA : A.map t.availPageCount = A.map s.availPageCount :=
      map_congr_left fun q hq => hold q (by simp [hq])
    have hmapB : B.map t.availPageCount = B.map s.availPageCount :=
      map_congr_left fun q hq => hold q (by simp [hq])
    rw [← h.sum]
    simp only [map_append, sum_append, hmapA, hmapB]
    omega
  · have hroom := sum_le_room hapart' hbounded (fun q _ => Nat.zero_le q) (Nat.zero_le _)
    rwa [Nat.add_zero] at hroom
  · intro x hx
    rcases mem_middle.mp hx with hx | hx
    · exact (hpieces x hx).2.2.1
    · rw [hold x hx]
      exact h.pos x (mem_middle.mpr (.inr hx))
  · intro x hx
    rcases mem_middle.mp hx with hx | hx
    · exact (hpieces x hx).2.2.2.1
    · exact h.aligned x (mem_middle.mpr (.inr hx))
  · rw [freeAddrs_middle, freeAddrs_congr hold]

theorem Areas.around (h : Areas s (A ++ p :: B) M) :
    (∀ q ∈ A, s.areaEnd q ≤ p) ∧ ∀ q ∈ B, s.areaEnd p ≤ q := by
  obtain ⟨_, hpB, hA⟩ := pairwise_append.mp h.apart
  exact ⟨fun q hq => hA q hq p (by simp), (pairwise_cons.mp hpB).1⟩

/-- A block was free and now is not, and the areas are in order again. -/
structure HandedOut (s s' : Early) (L L' M' : List Nat) (phys amount : Nat) : Prop where
  areas : Areas s' L' M'
  wasFree : block phys amount ⊆ freeAddrs s L
  free : freeAddrs s' L' = freeAddrs s L \ block phys amount

/--
**A block is cut out of an area.** What is left of the area, the pieces `R`, stands in its place
on `g_freepage_list`; the block is zeroed and no longer counted.
-/
theorem Areas.cut {s1 : Early} {amount : Nat} (h : Areas s (A ++ p :: B) M)
    (hlist : IsRing s1.list .head ((A ++ (R ++ B)).map .node))
    (hasc : IsRing s1.ascList .head (M'.map .node)) (hperm : M'.Perm (A ++ (R ++ B)))
    (hsorted : M'.Pairwise fun x y => s1.availPageCount x ≤ s1.availPageCount y)
    (hold : ∀ q ∈ A ++ B, s1.availPageCount q = s.availPageCount q)
    (hrem : s1.totalFreePagesRemaining = s.totalFreePagesRemaining)
    (hapart : R.Pairwise fun x y => s1.areaEnd x ≤ y)
    (hpieces : ∀ x ∈ R, p ≤ x ∧ s1.areaEnd x ≤ s.areaEnd p ∧ 0 < s1.availPageCount x ∧
      PAGE_SIZE ∣ x) (hsum : (R.map s1.availPageCount).sum + amount = s.availPageCount p)
    (hin : p ≤ phys ∧ phys + amount * PAGE_SIZE ≤ s.areaEnd p)
    (hcover : freeAddrs s1 R = Set.Ico p (s.areaEnd p) \ block phys amount) :
    HandedOut s (s1.handOut phys amount) (A ++ p :: B) (A ++ (R ++ B)) M' phys amount := by
  obtain ⟨hA, hB⟩ := h.around
  have hlen : ∀ (s : Early) (q : Nat), 0 < s.availPageCount q → q < s.areaEnd q := by
    unfold areaEnd
    rw [PAGE_SIZE_eq]
    omega
  -- an area that stays has nothing of the block
  have hbeside : Disjoint (freeAddrs s (A ++ B)) (block phys amount) := by
    rw [Set.disjoint_left]
    rintro a ⟨q, hq, hqa, haq⟩
    simp only [block, mem_Ico]
    rcases mem_append.mp hq with hq | hq
    · have := hA q hq
      omega
    · have := hB q hq
      omega
  have hout : ∀ x ∈ A ++ (R ++ B), x ∉ block phys amount := by
    intro x hx
    rcases mem_middle.mp hx with hx | hx
    · have hfree : x ∈ freeAddrs s1 R :=
        ⟨x, hx, Nat.le_refl x, hlen s1 x (hpieces x hx).2.2.1⟩
      rw [hcover] at hfree
      exact hfree.2
    · have hpos := h.pos x (mem_middle (R := [p]).mpr (.inr hx))
      exact disjoint_left.mp hbeside ⟨x, hx, Nat.le_refl x, hlen s x hpos⟩
  have havail : ∀ x ∈ A ++ (R ++ B), (s1.handOut phys amount).availPageCount x = s1.availPageCount x :=
    fun x hx => (handOut_outside (hout x hx)).2.2
  have hR : ∀ x ∈ R, (s1.handOut phys amount).availPageCount x = s1.availPageCount x :=
    fun x hx => havail x (by simp [hx])
  have hendR : ∀ x ∈ R, (s1.handOut phys amount).areaEnd x = s1.areaEnd x := by
    intro x hx
    rw [areaEnd, areaEnd, hR x hx]
  obtain ⟨hareas, hfree⟩ := h.replace (s1.handOut phys amount) (P := [p])
    (ring_congr hlist rfl fun x hx => (handOut_outside (hout x hx)).1)
    (ring_congr hasc rfl fun x hx => (handOut_outside (hout x (hperm.subset hx))).2.1) hperm
    (hsorted.imp_of_mem fun hx hy hxy => by
      rw [havail _ (hperm.subset hx), havail _ (hperm.subset hy)]
      exact hxy)
    (fun q hq => (havail q (mem_middle.mpr (.inr hq))).trans (hold q hq))
    (hapart.imp_of_mem fun hx _ hxy => by
      rw [hendR _ hx]
      exact hxy)
    (fun x hx => by
      obtain ⟨hpx, hxp, hpos, hdvd⟩ := hpieces x hx
      rw [hendR x hx, hR x hx]
      exact ⟨fun q hq => (hA q hq).trans hpx, fun q hq => hxp.trans (hB q hq), hpos, hdvd,
        hxp.trans (h.bounded p (by simp))⟩)
    (fun total htotal hroom => by
      have hcount : (s1.handOut phys amount).totalFreePagesRemaining
          = (s.totalFreePagesRemaining + U64 - amount) % U64 := by
        rw [← hrem]
        rfl
      rw [map_congr_left hR, map_singleton, sum_singleton, ← hsum] at htotal
      rw [PAGE_SIZE_eq] at hroom
      unfold U64 at *
      omega)
  refine ⟨hareas, ?_, ?_⟩
  · intro a ha
    simp only [block, mem_Ico] at ha
    exact ⟨p, by simp, by omega, by omega⟩
  · have hold : freeAddrs s (A ++ p :: B) = _ := freeAddrs_middle (R := [p])
    rw [hfree, freeAddrs_congr hR, hcover, hold, freeAddrs_singleton, union_sdiff_distrib,
      hbeside.sdiff_eq_left]

/-! ## Blocks at the end of an area -/

theorem deleteInfo_spec (hlist : IsRing s.list .head ((A ++ p :: B).map .node))
    (hasc : IsRing s.ascList .head ((C ++ p :: D).map .node)) :
    ∃ list asc, s.deleteInfo p = .ok { s with list := list, ascList := asc } ∧
      IsRing list .head ((A ++ B).map .node) ∧ IsRing asc .head ((C ++ D).map .node) := by
  obtain ⟨asc, hrunAsc, hringAsc⟩ := listDelete_nodes hasc
  obtain ⟨list, hrun, hring⟩ := listDelete_nodes hlist
  refine ⟨list, asc, ?_, hring, hringAsc⟩
  unfold deleteInfo
  rw [hrunAsc, ok_bind, hrun, ok_bind]
  rfl

section CutEnd

variable {C D : List Nat} {amount : Nat}

section

variable (h : Areas s (A ++ p :: B) (C ++ p :: D))
include h

theorem Areas.perm_erase : (C ++ D).Perm (A ++ B) :=
  List.Perm.cons_inv (perm_middle.symm.trans (h.same.trans perm_middle))

theorem Areas.setAvail_other (hq : q ∈ A ++ B) : update s.availPageCount p n q = s.availPageCount q := by
  have hnd := nodup_of_ring h.list
  rw [nodup_middle, nodup_cons] at hnd
  refine update_of_ne ?_ _ _
  rintro rfl
  exact hnd.1 hq

theorem Areas.ascending_erase :
    (C ++ D).Pairwise fun x y => update s.availPageCount p n x
      ≤ update s.availPageCount p n y := by
  have hsub : (C ++ D).Sublist (C ++ p :: D) :=
    List.Sublist.append_left (sublist_cons_self _ _) _
  refine (h.ascending.sublist hsub).imp_of_mem ?_
  intro x y hx hy hxy
  rw [h.setAvail_other (h.perm_erase.subset hx), h.setAvail_other (h.perm_erase.subset hy)]
  exact hxy

theorem Areas.ascending_less (hn : n ≤ s.availPageCount p) (hq : q ∈ D) :
    update s.availPageCount p n p ≤ update s.availPageCount p n q := by
  rw [update_self, h.setAvail_other (h.perm_erase.subset (by simp [hq]))]
  exact hn.trans ((pairwise_cons.mp (pairwise_append.mp h.ascending).2.1).1 q hq)

theorem Areas.cut_whole (total : Nat → Nat) {list : ListPtr → RingLinks ListPtr}
    (hlist : IsRing list .head ((A ++ B).map .node))
    (hasc : IsRing asc .head ((C ++ D).map .node)) :
    HandedOut s (handOut { s with
        list := list, ascList := asc, totalPageCount := total
        availPageCount := update s.availPageCount p 0 } p (s.availPageCount p))
      (A ++ p :: B) (A ++ B) (C ++ D) p (s.availPageCount p) := by
  refine h.cut (R := []) hlist hasc h.perm_erase h.ascending_erase
    (fun q hq => h.setAvail_other hq) rfl List.Pairwise.nil (by simp) (by simp)
    ⟨Nat.le_refl p, le_rfl⟩ ?_
  rw [block, ← areaEnd, sdiff_self]
  simp [freeAddrs]

theorem Areas.cut_part (hlt : amount < s.availPageCount p) (hasc : IsRing asc .head (M'.map .node))
    (hperm : M'.Perm (C ++ p :: D)) (hsorted : M'.Pairwise fun x y =>
      update s.availPageCount p (s.availPageCount p - amount) x
        ≤ update s.availPageCount p (s.availPageCount p - amount) y) :
    HandedOut s (handOut { s with
        ascList := asc
        availPageCount := update s.availPageCount p (s.availPageCount p - amount) }
        (p + (s.availPageCount p - amount) * PAGE_SIZE) amount)
      (A ++ p :: B) (A ++ p :: B) M' (p + (s.availPageCount p - amount) * PAGE_SIZE) amount := by
  refine h.cut (R := [p]) h.list hasc (hperm.trans h.same) hsorted
    (fun q hq => h.setAvail_other hq) rfl (pairwise_singleton _ _) ?_ ?_ ?_ ?_
  · intro x hx
    rw [List.mem_singleton] at hx
    subst hx
    refine ⟨Nat.le_refl x, ?_, ?_, h.aligned x (by simp)⟩
    · simp only [areaEnd, update_self]
      exact Nat.add_le_add_left (Nat.mul_le_mul_right _ (Nat.sub_le _ _)) _
    · simp only [update_self]
      omega
  · simp only [map_cons, map_nil, sum_cons, sum_nil, update_self]
    omega
  · unfold areaEnd
    rw [PAGE_SIZE_eq]
    omega
  · ext a
    simp only [freeAddrs_singleton, areaEnd, update_self, block, mem_sdiff, mem_Ico]
    rw [PAGE_SIZE_eq]
    omega

end

end CutEnd

/-! ## One page -/

theorem Areas.split (h : Areas s L M) (hp : p ∈ M) :
    ∃ A B C D, L = A ++ p :: B ∧ M = C ++ p :: D := by
  obtain ⟨A, B, hL⟩ := append_of_mem (h.same.subset hp)
  obtain ⟨C, D, hM⟩ := append_of_mem hp
  exact ⟨A, B, C, D, hL, hM⟩

/-- **`early_alloc_page`**: a free page, or nothing if there is none. -/
theorem earlyAllocPage_spec (h : Areas s L M) :
    (L = [] ∧ s.earlyAllocPage = .ok (INVALID_PHYS, s)) ∨
    ∃ phys s' L' M', s.earlyAllocPage = .ok (phys, s') ∧ PAGE_SIZE ∣ phys ∧ phys < U64 ∧
      HandedOut s s' L L' M' phys 1 ∧ L'.length ≤ L.length := by
  unfold earlyAllocPage
  cases M with
  | nil =>
    left
    refine ⟨h.same.symm.eq_nil, ?_⟩
    rw [if_pos ((listEmpty_iff h.ascList).mpr rfl)]
  | cons p D =>
    right
    obtain ⟨A, B, hL⟩ := append_of_mem (h.same.subset (mem_cons_self))
    subst hL
    have h : Areas s (A ++ p :: B) ([] ++ p :: D) := h
    have hpos := h.pos p (by simp)
    have hbound := h.bounded p (by simp)
    have hnext : (s.ascList .head).next = some (.node p) := h.ascList.way.1.1
    rw [if_neg (fun e => by simpa using (listEmpty_iff h.ascList).mp e), hnext]
    dsimp only
    unfold areaEnd at hbound
    have hless : (s.availPageCount p + U64 - 1) % U64 = s.availPageCount p - 1 := by
      rw [PAGE_SIZE_eq] at hbound
      unfold U64 at *
      omega
    have hlow : p + (s.availPageCount p - 1) * PAGE_SIZE < U64 := by
      rw [PAGE_SIZE_eq] at hbound ⊢
      omega
    have haligned : PAGE_SIZE ∣ p + (s.availPageCount p - 1) * PAGE_SIZE :=
      (h.aligned p (by simp)).add (dvd_mul_left _ _)
    rw [hless, Nat.mod_eq_of_lt hlow]
    by_cases hone : s.availPageCount p - 1 = 0
    · -- the page with the `struct freepages_info` is the last one
      rw [if_pos hone]
      obtain ⟨list, asc, hdel, hlist, hasc⟩ := deleteInfo_spec
        (s := s.setAvail p (s.availPageCount p - 1)) h.list h.ascList
      have hcut := h.cut_whole s.totalPageCount hlist hasc
      have havail : s.availPageCount p = 1 := by omega
      rw [hdel, ok_bind]
      refine ⟨_, _, A ++ B, [] ++ D, rfl, haligned, hlow, ?_, by simp⟩
      rw [havail] at hcut ⊢
      exact hcut
    · rw [if_neg hone]
      refine ⟨_, _, A ++ p :: B, p :: D, rfl, haligned, hlow, ?_, le_rfl⟩
      exact h.cut_part (by omega) h.ascList (List.Perm.refl _)
        (pairwise_cons.mpr ⟨fun q hq => h.ascending_less (by omega) hq, h.ascending_erase⟩)

/-! ## Large blocks -/

/-- Where the loop of `early_alloc_large_page` puts the block in an area. -/
structure Fits (s : Early) (p amount phys : Nat) (isInMiddle : Bool) : Prop where
  enough : amount ≤ s.availPageCount p
  aligned : amount * PAGE_SIZE ∣ phys
  above : p ≤ phys
  atEnd : isInMiddle = false → phys = p + (s.availPageCount p - amount) * PAGE_SIZE
  inMiddle : isInMiddle = true → phys + amount * PAGE_SIZE < s.areaEnd p

theorem fit_spec (hk : k < 20) (hbound : s.areaEnd p ≤ U64) :
    ∃ r, s.fit (2 ^ k) p = .ok r ∧
      ∀ phys isInMiddle, r = some (phys, isInMiddle) → Fits s p (2 ^ k) phys isInMiddle := by
  unfold fit
  dsimp only
  by_cases henough : s.availPageCount p < 2 ^ k
  · rw [if_pos henough]
    exact ⟨none, rfl, by simp⟩
  rw [if_neg henough]
  have henough : 2 ^ k ≤ s.availPageCount p := Nat.le_of_not_lt henough
  have hsize : 2 ^ k * PAGE_SIZE = 2 ^ (k + 12) := by
    rw [Nat.pow_add]
    rfl
  have hboundary : 2 ^ k * PAGE_SIZE % 2 ^ 32 = 2 ^ (k + 12) := by
    rw [hsize]
    exact Nat.mod_eq_of_lt (Nat.pow_lt_pow_right (by decide) (by omega))
  have hend : s.areaEnd p = p + (s.availPageCount p - 2 ^ k) * PAGE_SIZE + 2 ^ k * PAGE_SIZE := by
    rw [Nat.add_assoc, ← Nat.add_mul, Nat.sub_add_cancel henough]
    rfl
  have hpos : 0 < 2 ^ k * PAGE_SIZE := Nat.mul_pos (Nat.two_pow_pos k) (by decide)
  have hlow : p + (s.availPageCount p - 2 ^ k) * PAGE_SIZE < U64 := by omega
  rw [hboundary, if_neg (Nat.two_pow_pos _).ne', Nat.mod_eq_of_lt hlow]
  by_cases halign : hasAlign (p + (s.availPageCount p - 2 ^ k) * PAGE_SIZE) (2 ^ (k + 12)) = true
  · rw [if_pos halign]
    refine ⟨_, rfl, ?_⟩
    intro phys isInMiddle he
    obtain ⟨rfl, rfl⟩ := Prod.mk.inj (Option.some.inj he)
    refine ⟨henough, ?_, Nat.le_add_right _ _, fun _ => rfl, by simp⟩
    rw [hsize]
    exact hasAlign_two_pow.mp halign
  · -- the last place is not aligned, so there are pages behind the block
    rw [if_neg halign, alignDown_two_pow (by omega) hlow]
    have hmod : (p + (s.availPageCount p - 2 ^ k) * PAGE_SIZE) % 2 ^ (k + 12) ≠ 0 := fun e =>
      halign (hasAlign_two_pow.mpr (Nat.dvd_of_mod_eq_zero e))
    have hle := Nat.mod_le (p + (s.availPageCount p - 2 ^ k) * PAGE_SIZE) (2 ^ (k + 12))
    split
    · exact ⟨none, rfl, by simp⟩
    · rename_i habove
      refine ⟨_, rfl, ?_⟩
      intro phys isInMiddle he
      obtain ⟨rfl, rfl⟩ := Prod.mk.inj (Option.some.inj he)
      refine ⟨henough, ?_, Nat.le_of_not_lt habove, by simp, fun _ => by omega⟩
      rw [hsize]
      exact Nat.dvd_sub_mod _

section Large

variable {C D : List Nat} {fuel : Nat}

/-- The block is at the end: the area is shortened, or taken off the lists. -/
theorem takeEnd_spec (h : Areas s (A ++ p :: B) (C ++ p :: D)) {amount : Nat}
    (hle : amount ≤ s.availPageCount p) (hfuel : (A ++ p :: B).length ≤ fuel) :
    ∃ s1 L' M', s.takeEnd fuel p amount = .ok s1 ∧ L'.length ≤ (A ++ p :: B).length ∧
      HandedOut s (s1.handOut (p + (s.availPageCount p - amount) * PAGE_SIZE) amount)
        (A ++ p :: B) L' M' (p + (s.availPageCount p - amount) * PAGE_SIZE) amount := by
  unfold takeEnd
  have havail : (s.setAvail p (s.availPageCount p - amount)).availPageCount p
      = s.availPageCount p - amount := update_self _ _ _
  dsimp only
  rw [havail]
  by_cases hall : s.availPageCount p - amount = 0
  · rw [if_pos hall]
    obtain ⟨list, asc, hdel, hlist, hasc⟩ := deleteInfo_spec
      (s := s.setAvail p (s.availPageCount p - amount)) h.list h.ascList
    have heq : amount = s.availPageCount p := by omega
    have hcut := h.cut_whole s.totalPageCount hlist hasc
    refine ⟨_, A ++ B, C ++ D, hdel, by simp, ?_⟩
    rw [heq, Nat.sub_self, zero_mul, add_zero]
    exact hcut
  · rw [if_neg hall]
    obtain ⟨asc, M', hfix, hring, hperm, hsorted⟩ := fixAscList_spec
      (s := s.setAvail p (s.availPageCount p - amount)) h.ascList h.ascending_erase
      (fun q hq => h.ascending_less (Nat.sub_le _ _) hq) (h.same.length_eq.trans_le hfuel)
    exact ⟨_, A ++ p :: B, M', hfix, le_rfl, h.cut_part (by omega) hring hperm hsorted⟩

/-- What stays in front of a block: the area, if it keeps any pages. -/
def front (p n : Nat) : List Nat := if n = 0 then [] else [p]

theorem mem_front : x ∈ front p n ↔ x = p ∧ n ≠ 0 := by
  unfold front
  split <;> simp_all

theorem freeAddrs_front (hn : s.availPageCount p = n) :
    freeAddrs s (front p n) = Set.Ico p (p + n * PAGE_SIZE) := by
  unfold front
  split
  case isTrue hzero => simp [freeAddrs, hzero]
  · rw [freeAddrs_singleton, areaEnd, hn]

/-- The area in front of the block has its new count and its new place, or is gone. -/
theorem cutFront_spec (h : Areas s (A ++ p :: B) (C ++ p :: D)) (n total : Nat)
    (hle : n ≤ s.availPageCount p) (hfuel : (A ++ p :: B).length ≤ fuel) :
    ∃ list asc, ∃ M1 : List Nat, (s.setPageCounts p n total).cutFront fuel p =
        .ok (lastLink (A ++ front p n),
          { s.setPageCounts p n total with list := list, ascList := asc }) ∧
      IsRing list .head ((A ++ (front p n ++ B)).map .node) ∧
      IsRing asc .head (M1.map .node) ∧ M1.Perm (A ++ (front p n ++ B)) ∧
      M1.Pairwise fun x y => update s.availPageCount p n x
        ≤ update s.availPageCount p n y := by
  have havail : (s.setPageCounts p n total).availPageCount p = n := update_self _ _ _
  unfold cutFront
  rw [havail]
  by_cases hn : n = 0
  · -- nothing is left in front
    rw [if_neg (by simpa using hn), front, if_pos hn]
    have hway := h.list.way
    rw [map_append, map_cons, way_append] at hway
    have hprev : ((s.setPageCounts p n total).list (.node p)).prev = _ := hway.1.prev_eq
    obtain ⟨list, asc, hdel, hlist, hasc⟩ := deleteInfo_spec
      (s := s.setPageCounts p n total) h.list h.ascList
    refine ⟨list, asc, C ++ D, ?_, hlist, hasc, h.perm_erase, h.ascending_erase⟩
    rw [hprev]
    rw [hdel]
    simp
  · rw [if_pos hn, front, if_neg hn]
    obtain ⟨asc, M1, hfix, hring, hperm, hsorted⟩ := fixAscList_spec
      (s := s.setPageCounts p n total) h.ascList h.ascending_erase
      (fun q hq => h.ascending_less hle hq) (h.same.length_eq.trans_le hfuel)
    refine ⟨s.list, asc, M1, ?_, h.list, hring, hperm.trans h.same, hsorted⟩
    rw [hfix]
    simp [setPageCounts]

theorem addBack_spec (hlist : IsRing s.list .head ((A ++ B).map .node))
    (hasc : IsRing s.ascList .head (M.map .node)) (hperm : M.Perm (A ++ B))
    (hsorted : M.Pairwise fun x y => s.availPageCount x ≤ s.availPageCount y) (hq : q ∉ A ++ B)
    (hn : n ≠ 0) (hfuel : (A ++ B).length < fuel) :
    ∃ s', ∃ M' : List Nat,
      s.addBack fuel q n (lastLink A) = .ok s' ∧
      s'.availPageCount = update s.availPageCount q n ∧
      s'.totalFreePagesRemaining = s.totalFreePagesRemaining ∧
      IsRing s'.list .head ((A ++ q :: B).map .node) ∧ IsRing s'.ascList .head (M'.map .node) ∧
      M'.Perm (q :: M) ∧
      M'.Pairwise fun x y => s'.availPageCount x ≤ s'.availPageCount y := by
  have hqM : q ∉ M := fun e => hq (hperm.subset e)
  obtain ⟨list, hadd, hring⟩ := listAdd_nodes (listInit_ring hlist hq) hq
  have hsorted' : M.Pairwise fun x y => update s.availPageCount q n x
      ≤ update s.availPageCount q n y := by
    refine hsorted.imp_of_mem ?_
    intro x y hx hy hxy
    rw [update_of_ne (ne_of_mem_of_not_mem hx hqM), update_of_ne (ne_of_mem_of_not_mem hy hqM)]
    exact hxy
  obtain ⟨asc, M', hasc', hring', hperm', hsorted''⟩ := addToAscList_spec
    (s := { s.setPageCounts q n n with list := list, ascList := listInit s.ascList (.node q) })
    (listInit_ring hasc hqM) hsorted' hqM (by rw [hperm.length_eq]; exact hfuel)
  refine ⟨{ s.setPageCounts q n n with list := list, ascList := asc }, M', ?_, rfl, rfl, hring,
    hring', hperm', hsorted''⟩
  unfold addBack
  rw [if_pos hn]
  have hadd' : listAdd (listInit (s.setPageCounts q n n).list (.node q))
      (lastLink A) (.node q) = .ok list := hadd
  simp only [hadd', ok_bind]
  exact hasc'

/-- The block is in the middle: what is behind it becomes an area of its own. -/
theorem takeMiddle_spec (h : Areas s (A ++ p :: B) (C ++ p :: D)) {amount : Nat} (hpos : 0 < amount)
    (habove : p ≤ phys) (haligned : PAGE_SIZE ∣ phys) (hsmall : amount * PAGE_SIZE < 2 ^ 32)
    (hlt : phys + amount * PAGE_SIZE < s.areaEnd p) (hfuel : (A ++ p :: B).length < fuel) :
    ∃ s1 L' M', s.takeMiddle fuel p phys amount = .ok s1 ∧
      L'.length ≤ (A ++ p :: B).length + 1 ∧
      HandedOut s (s1.handOut phys amount) (A ++ p :: B) L' M' phys amount := by
  obtain ⟨hA, hB⟩ := h.around
  have hbound := h.bounded p (by simp)
  -- the block in pages: `n` pages in front of it, `m` behind it
  obtain ⟨n, rfl⟩ : ∃ n, phys = p + n * PAGE_SIZE := by
    obtain ⟨j, hj⟩ := haligned
    obtain ⟨i, hi⟩ := h.aligned p (by simp)
    refine ⟨j - i, ?_⟩
    rw [PAGE_SIZE_eq] at *
    omega
  obtain ⟨m, hm⟩ : ∃ m, s.availPageCount p = n + amount + m := by
    refine ⟨s.availPageCount p - n - amount, ?_⟩
    unfold areaEnd at hlt
    rw [PAGE_SIZE_eq] at hlt
    omega
  have hend : s.areaEnd p = p + n * PAGE_SIZE + amount * PAGE_SIZE + m * PAGE_SIZE := by
    unfold areaEnd
    rw [hm, add_mul, add_mul]
    omega
  have hm0 : m ≠ 0 := by
    rintro rfl
    omega
  set q := p + n * PAGE_SIZE + amount * PAGE_SIZE with hq
  have hpq : p < q := by
    rw [hq, PAGE_SIZE_eq]
    omega
  have hqA : q ∉ A := by
    intro e
    have hle := hA q e
    unfold areaEnd at hle
    omega
  have hqB : q ∉ B := by
    intro e
    have := hB q e
    omega
  have hqAll : q ∉ A ++ front p n ++ B := by
    simp only [mem_append, mem_front, not_or]
    exact ⟨⟨hqA, fun e => absurd e.1 hpq.ne'⟩, hqB⟩
  have hlen : (A ++ front p n ++ B).length ≤ (A ++ p :: B).length := by
    unfold front
    split <;> simp
  have hcount : pageCount (p + n * PAGE_SIZE - p) = n := by
    unfold pageCount
    rw [Nat.add_sub_cancel_left, Nat.mul_div_cancel _ (by decide)]
  obtain ⟨list1, asc1, M1, hcut, hlist1, hasc1, hperm1, hsorted1⟩ := cutFront_spec h
    n ((n + pageCount amount) % U64) (by omega) hfuel.le
  rw [← append_assoc] at hlist1 hperm1
  obtain ⟨s1, M2, hback, havail, hrem, hlist2, hasc2, hperm2, hsorted2⟩ := addBack_spec
    (s := { s.setPageCounts p n ((n + pageCount amount) % U64) with
      list := list1, ascList := asc1 }) hlist1 hasc1 hperm1 hsorted1 hqAll hm0
    (hlen.trans_lt hfuel)
  refine ⟨s1, A ++ (front p n ++ [q] ++ B), M2, ?_, ?_, ?_⟩
  · unfold takeMiddle
    dsimp only
    rw [hcount, hcut, ok_bind]
    have hphys : (p + n * PAGE_SIZE + amount * PAGE_SIZE % 2 ^ 32) % U64 = q := by
      rw [Nat.mod_eq_of_lt hsmall]
      exact Nat.mod_eq_of_lt (by omega)
    have hrest : s.availPageCount p
        - (s.setPageCounts p n ((n + pageCount amount) % U64)).availPageCount p - amount = m := by
      have hself : (s.setPageCounts p n ((n + pageCount amount) % U64)).availPageCount p = n :=
        update_self _ _ _
      omega
    rw [hphys, hrest]
    exact hback
  · simp only [length_append, length_singleton] at hlen ⊢
    omega
  · -- the counts of the pieces and of the areas around them
    have hcountq : s1.availPageCount q = m := by
      rw [havail, update_self]
    have hcountp : s1.availPageCount p = n := by
      rw [havail, update_of_ne hpq.ne]
      exact update_self _ _ _
    have hold : ∀ x ∈ A ++ B, s1.availPageCount x = s.availPageCount x := by
      intro x hx
      have hxq : x ≠ q := by
        rintro rfl
        rcases mem_append.mp hx with hx | hx
        · exact hqA hx
        · exact hqB hx
      rw [havail, update_of_ne hxq]
      exact h.setAvail_other hx
    refine h.cut ?_ hasc2 ?_ hsorted2 hold hrem ?_ ?_ ?_ ⟨le_self_add, hlt.le⟩ ?_
    · simpa using hlist2
    · refine hperm2.trans ((hperm1.cons q).trans ?_)
      have hmid : (A ++ front p n ++ q :: B).Perm (q :: (A ++ front p n ++ B)) :=
        perm_middle
      simpa using hmid.symm
    · refine pairwise_append.mpr ⟨?_, pairwise_singleton _ _, ?_⟩
      · unfold front
        split <;> simp
      · intro x hx y hy
        rw [(mem_front.mp hx).1, mem_singleton.mp hy, areaEnd, hcountp]
        omega
    · intro x hx
      rcases mem_append.mp hx with hx | hx
      · obtain ⟨rfl, hn⟩ := mem_front.mp hx
        rw [areaEnd, hcountp]
        refine ⟨Nat.le_refl x, ?_, pos_of_ne_zero hn, h.aligned x (by simp)⟩
        exact Nat.add_le_add_left (Nat.mul_le_mul_right _ (by omega)) _
      · rw [mem_singleton.mp hx, hend, areaEnd, hcountq]
        exact ⟨hpq.le, le_rfl, pos_of_ne_zero hm0, haligned.add (dvd_mul_left _ _)⟩
    · unfold front
      split
      · simp
        omega
      · simp
        omega
    · have hpieces := freeAddrs_middle (s := s1) (A := []) (R := front p n) (B := [q])
      rw [nil_append, nil_append, freeAddrs_front hcountp, freeAddrs_singleton, areaEnd,
        hcountq] at hpieces
      rw [hpieces, hend]
      ext a
      simp only [mem_union, mem_sdiff, block, mem_Ico]
      omega

theorem ne_invalid (h : PAGE_SIZE ∣ phys) : phys ≠ INVALID_PHYS := by
  obtain ⟨j, rfl⟩ := h
  rw [PAGE_SIZE_eq]
  unfold INVALID_PHYS U64
  omega

/-- **`early_alloc_large_page`**: a free block aligned to its size, or nothing changes. -/
theorem earlyAllocLargePage_spec (h : Areas s L M) (hk : k < 20) (hfuel : L.length < fuel) :
    s.earlyAllocLargePage fuel (2 ^ k) = .ok (INVALID_PHYS, s) ∨
    ∃ phys s' L' M', s.earlyAllocLargePage fuel (2 ^ k) = .ok (phys, s') ∧
      2 ^ k * PAGE_SIZE ∣ phys ∧ HandedOut s s' L L' M' phys (2 ^ k) ∧
      L'.length ≤ L.length + 1 := by
  unfold earlyAllocLargePage
  by_cases hempty : listEmpty s.ascList .head = true
  · rw [if_pos hempty]
    exact .inl rfl
  rw [if_neg hempty]
  rcases listForeachFind_spec (s.fit (2 ^ k)) h.ascList.way (fun q hq => by
        obtain ⟨r, hr, _⟩ := fit_spec (s := s) hk (h.bounded q (h.same.subset hq))
        exact ⟨r, hr⟩)
      (by rw [h.same.length_eq]; exact hfuel) with ⟨hrun, _⟩ |
        ⟨_, p, _, ⟨phys, isInMiddle⟩, hM, -, hfit, -, hrun⟩
  · rw [hrun]
    exact .inl rfl
  · right
    obtain ⟨A, B, C, D, rfl, rfl⟩ := h.split (show p ∈ M by simp [hM])
    obtain ⟨r, hr, hfits⟩ := fit_spec (s := s) (p := p) hk (h.bounded p (by simp))
    rw [hfit] at hr
    obtain ⟨henough, haligned, habove, hatEnd, hinMiddle⟩ := hfits phys isInMiddle
      (Except.ok.inj hr).symm
    have hpage : PAGE_SIZE ∣ phys := (dvd_mul_left _ _).trans haligned
    rw [hrun, ok_bind]
    dsimp only
    rw [if_neg (ne_invalid hpage)]
    cases isInMiddle with
    | false =>
      obtain ⟨s1, L', M', htake, hlen, hout⟩ := takeEnd_spec h henough hfuel.le
      rw [← hatEnd rfl] at hout
      refine ⟨phys, _, L', M', ?_, haligned, hout, Nat.le_succ_of_le hlen⟩
      simp only [Bool.false_eq_true, if_false, htake]
      rfl
    | true =>
      have hsmall : 2 ^ k * PAGE_SIZE < 2 ^ 32 := by
        have hlt : 2 ^ k < 2 ^ 20 := Nat.pow_lt_pow_right (by decide) hk
        rw [PAGE_SIZE_eq]
        omega
      obtain ⟨s1, L', M', htake, hlen, hout⟩ := takeMiddle_spec h (Nat.two_pow_pos k) habove hpage
        hsmall (hinMiddle rfl) hfuel
      refine ⟨phys, _, L', M', ?_, haligned, hout, hlen⟩
      simp only [if_true, htake]
      rfl

end Large

/-! ## Runs -/

/-- A call of the early allocator. -/
inductive Request where
  | page
  | large (allocAmount : Nat)

/-- How many pages it asks for. -/
def Request.amount : Request → Nat
  | .page => 1
  | .large allocAmount => allocAmount

/-- A large block has a power of two of pages, below `2 ^ 20`. -/
def Request.Valid : Request → Prop
  | .page => True
  | .large allocAmount => ∃ k < 20, allocAmount = 2 ^ k

def Request.exec (fuel : Nat) (s : Early) : Request → Result (Nat × Early)
  | .page => s.earlyAllocPage
  | .large allocAmount => s.earlyAllocLargePage fuel allocAmount

/-- Make calls one after the other: the blocks handed out, each with its number of pages. -/
def Request.run (fuel : Nat) : Early → List Request → Result (List (Nat × Nat) × Early)
  | s, [] => .ok ([], s)
  | s, request :: requests => do
    let (phys, s) ← request.exec fuel s
    let (blocks, s) ← run fuel s requests
    pure (if phys = INVALID_PHYS then blocks else (phys, request.amount) :: blocks, s)

theorem Request.exec_spec (h : Areas s L M) (request : Request) (hvalid : request.Valid)
    (hfuel : L.length < fuel) :
    ∃ phys s', request.exec fuel s = .ok (phys, s') ∧
      (phys = INVALID_PHYS ∧ s' = s ∨
        phys ≠ INVALID_PHYS ∧ request.amount * PAGE_SIZE ∣ phys ∧
          ∃ L' M', HandedOut s s' L L' M' phys request.amount ∧ L'.length ≤ L.length + 1) := by
  cases request with
  | page =>
    rcases earlyAllocPage_spec h with ⟨_, hrun⟩ | ⟨phys, s', L', M', hrun, haligned, _, hout, hlen⟩
    · exact ⟨_, _, hrun, .inl ⟨rfl, rfl⟩⟩
    · refine ⟨phys, s', hrun, .inr ⟨ne_invalid haligned, ?_, L', M', hout, Nat.le_succ_of_le hlen⟩⟩
      exact haligned
  | large allocAmount =>
    obtain ⟨k, hk, rfl⟩ := hvalid
    rcases earlyAllocLargePage_spec h hk hfuel with
      hrun | ⟨phys, s', L', M', hrun, haligned, hout, hlen⟩
    · exact ⟨_, _, hrun, .inl ⟨rfl, rfl⟩⟩
    · exact ⟨phys, s', hrun, .inr ⟨ne_invalid ((dvd_mul_left _ _).trans haligned), haligned,
        L', M', hout, hlen⟩⟩

/-- What was handed out in a run is no longer free. -/
theorem Request.run_spec : ∀ (requests : List Request) {s : Early} {L M : List Nat},
    Areas s L M → (∀ request ∈ requests, request.Valid) → L.length + requests.length < fuel →
    ∃ blocks s' L' M', Request.run fuel s requests = .ok (blocks, s') ∧ Areas s' L' M' ∧
      (blocks.Pairwise fun b c => Disjoint (block b.1 b.2) (block c.1 c.2)) ∧
      (∀ b ∈ blocks, b.2 * PAGE_SIZE ∣ b.1 ∧ block b.1 b.2 ⊆ freeAddrs s L ∧
        Disjoint (block b.1 b.2) (freeAddrs s' L')) ∧
      freeAddrs s' L' ⊆ freeAddrs s L ∧ L'.length ≤ L.length + requests.length
  | [], s, L, M, h, _, _ =>
    ⟨[], s, L, M, rfl, h, List.Pairwise.nil, by simp, Set.Subset.rfl, le_rfl⟩
  | request :: requests, s, L, M, h, hvalid, hfuel => by
    rw [length_cons] at hfuel
    have hnow : L.length < fuel := by omega
    obtain ⟨phys, s1, hexec, hcase⟩ := request.exec_spec h (hvalid _ (by simp)) hnow
    have hrest : ∀ r ∈ requests, r.Valid := fun r hr => hvalid r (by simp [hr])
    rw [run, hexec, ok_bind]
    dsimp only
    rcases hcase with ⟨hphys, rfl⟩ | ⟨hphys, haligned, L1, M1, hout, hlen⟩
    · have hlater : L.length + requests.length < fuel := by omega
      obtain ⟨blocks, s', L', M', hrun, hareas, hdisj, hblocks, hsub, hlen'⟩ :=
        run_spec requests h hrest hlater
      refine ⟨blocks, s', L', M', ?_, hareas, hdisj, hblocks, hsub, ?_⟩
      · rw [hrun, ok_bind]
        simp only [if_pos hphys]
        rfl
      · rw [length_cons]
        omega
    · have hlater : L1.length + requests.length < fuel := by omega
      obtain ⟨blocks, s', L', M', hrun, hareas, hdisj, hblocks, hsub, hlen'⟩ :=
        run_spec requests hout.areas hrest hlater
      have hleft : freeAddrs s1 L1 ⊆ freeAddrs s L := by
        rw [hout.free]
        exact sdiff_subset
      have hgone : Disjoint (block phys request.amount) (freeAddrs s1 L1) := by
        rw [hout.free]
        exact disjoint_sdiff_right
      refine ⟨(phys, request.amount) :: blocks, s', L', M', ?_, hareas, ?_, ?_,
        hsub.trans hleft, ?_⟩
      · rw [hrun, ok_bind]
        simp only [if_neg hphys]
        rfl
      · refine pairwise_cons.mpr ⟨?_, hdisj⟩
        intro b hb
        exact hgone.mono_right (hblocks b hb).2.1
      · intro b hb
        rcases mem_cons.mp hb with rfl | hb
        · exact ⟨haligned, hout.wasFree, hgone.mono_right hsub⟩
        · obtain ⟨hal, hfree, hnot⟩ := hblocks b hb
          exact ⟨hal, hfree.trans hleft, hnot⟩
      · rw [length_cons]
        omega

/--
**The early allocator hands out every page once.** After any run of calls the blocks handed out do
not overlap, and the areas are in order on both lists. One more call returns a block that was free
and overlaps none of them, aligned to its size, or `INVALID_PHYS` with nothing changed; and then
the areas are in order again.
-/
theorem early_alloc_keeps_areas {s : Early} {L M : List Nat} (h : Areas s L M)
    (requests : List Request) (hvalid : ∀ request ∈ requests, request.Valid) (fuel : Nat)
    (hfuel : L.length + requests.length < fuel) :
    ∃ blocks s1 L1 M1, Request.run fuel s requests = .ok (blocks, s1) ∧ Areas s1 L1 M1 ∧
      (blocks.Pairwise fun b c => Disjoint (block b.1 b.2) (block c.1 c.2)) ∧
      (∀ b ∈ blocks, b.2 * PAGE_SIZE ∣ b.1 ∧ block b.1 b.2 ⊆ freeAddrs s L) ∧
      ∀ request : Request, request.Valid → ∃ phys s2,
        request.exec fuel s1 = .ok (phys, s2) ∧
        (phys = INVALID_PHYS ∧ s2 = s1 ∨
          phys ≠ INVALID_PHYS ∧ request.amount * PAGE_SIZE ∣ phys ∧
            block phys request.amount ⊆ freeAddrs s1 L1 ∧
            (∀ b ∈ blocks, Disjoint (block b.1 b.2) (block phys request.amount)) ∧
            ∃ L2 M2, Areas s2 L2 M2 ∧
              freeAddrs s2 L2 = freeAddrs s1 L1 \ block phys request.amount) := by
  obtain ⟨blocks, s1, L1, M1, hrun, hareas, hdisj, hblocks, _, hlen⟩ :=
    Request.run_spec requests h hvalid hfuel
  refine ⟨blocks, s1, L1, M1, hrun, hareas, hdisj,
    fun b hb => ⟨(hblocks b hb).1, (hblocks b hb).2.1⟩, ?_⟩
  intro request hreq
  have hnow : L1.length < fuel := by omega
  obtain ⟨phys, s2, hexec, hcase⟩ := request.exec_spec hareas hreq hnow
  refine ⟨phys, s2, hexec, ?_⟩
  rcases hcase with hno | ⟨hphys, haligned, L2, M2, hout, _⟩
  · exact .inl hno
  · refine .inr ⟨hphys, haligned, hout.wasFree, ?_, L2, M2, hout.areas, hout.free⟩
    intro b hb
    exact (hblocks b hb).2.2.mono_right hout.wasFree

/-- One area of `n` pages at `p`. -/
def oneArea (p n : Nat) : Early where
  list x := if x = .head then ⟨some (.node p), some (.node p)⟩ else ⟨some .head, some .head⟩
  ascList x := if x = .head then ⟨some (.node p), some (.node p)⟩ else ⟨some .head, some .head⟩
  availPageCount _ := n
  totalPageCount _ := n
  totalFreePages := n
  totalFreePagesRemaining := n

theorem oneArea_areas (hn : 0 < n) (hp : PAGE_SIZE ∣ p) (hend : p + n * PAGE_SIZE ≤ U64) :
    Areas (oneArea p n) [p] [p] := by
  have hring : IsRing (oneArea p n).list .head ([p].map .node) :=
    ⟨⟨⟨rfl, rfl⟩, rfl, rfl⟩, by simp⟩
  refine ⟨hring, hring, List.Perm.refl _, pairwise_singleton _ _,
    pairwise_singleton _ _, by simp [oneArea], ?_, ?_, ?_⟩
  · exact fun _ _ => hn
  · intro q hq
    rw [mem_singleton.mp hq]
    exact hp
  · intro q hq
    rw [mem_singleton.mp hq]
    exact hend

/-- Seven pages at `0x1000`: four aligned pages are in the middle, then a single page is taken. -/
theorem early_alloc_keeps_areas_seven :
    ∃ s1 L1 M1, Request.run 4 (oneArea 0x1000 7) [.large 4, .page]
        = .ok ([(0x4000, 4), (0x3000, 1)], s1) ∧ Areas s1 L1 M1 := by
  obtain ⟨blocks, s1, L1, M1, hrun, hareas, _⟩ := early_alloc_keeps_areas
    (oneArea_areas (p := 0x1000) (n := 7) (by decide) (by decide) (by decide))
    [.large 4, .page] (by simp [Request.Valid]; exact ⟨2, by decide, rfl⟩) 4 (by decide)
  refine ⟨s1, L1, M1, ?_, hareas⟩
  have hblocks : (Request.run 4 (oneArea 0x1000 7) [.large 4, .page]).map Prod.fst
      = .ok [(0x4000, 4), (0x3000, 1)] := by decide +kernel
  rw [hrun] at hblocks ⊢
  have hfst : blocks = _ := Except.ok.inj hblocks
  rw [hfst]

end OsKernel.Mm.Early
