import OsKernel.Mm.EarlyProof

/-!
# Claiming memory

`claim_pages` makes an area of a range of memory. An area that ends where the range begins
grows instead, but keeps its place on `g_asc_freelist`. An area that begins where the range
ends is meant to be taken in, but it stays on `g_asc_freelist`, and the new area counts
its own pages twice instead. So the lists are in order after a claim if and only if the
claim is *clear*: no area begins at the end of the range, and one that ends at its
beginning does not overtake another by growing.
-/

namespace OsKernel.Mm.Early

open List hiding Disjoint

open LinkedRing
open Adt (Range)
open Function

variable {s t : Early} {A B L M : List Nat} {count fuel info n p : Nat}

/-- A range of usable memory: whole pages, at least one. -/
structure Claimable (r : Range) : Prop where
  pos : 0 < r.size
  front : PAGE_SIZE ∣ r.front
  size : PAGE_SIZE ∣ r.size
  bounded : r.end_ ≤ U64

/-- A claim after which the lists are in order. -/
def Clear (fuel : Nat) (s : Early) (r : Range) : Prop :=
  (∀ p ∈ listNodes s.list fuel .head, p ≠ r.end_) ∧
  ∀ p ∈ listNodes s.list fuel .head, s.areaEnd p = r.front →
    (listNodes s.ascList fuel .head).Pairwise fun x y =>
      x = p → s.availPageCount p + pageCount r.size ≤ s.availPageCount y

instance (fuel : Nat) (s : Early) (r : Range) : Decidable (Clear fuel s r) :=
  inferInstanceAs (Decidable (_ ∧ _))

/-- The free areas, in order on both lists, are these addresses. -/
def InOrder (s : Early) (free : Set Nat) : Prop := ∃ L M, Areas s L M ∧ freeAddrs s L = free

/-! ## The place of the range -/

theorem ring_next {H : ListPtr → RingLinks ListPtr} (h : IsRing H .head ((A ++ B).map .node)) :
    (H (lastLink A)).next
      = some ((B.map ListPtr.node ++ [ListPtr.head]).head (by simp)) := by
  rcases eq_nil_or_concat A with rfl | ⟨A', p, rfl⟩
  · exact h.way.next_eq
  · have hway := h.way
    rw [concat_eq_append, append_assoc, map_append, singleton_append, map_cons, way_append] at hway
    simpa using hway.2.next_eq

theorem lt_of_mem_dropWhile (h : L.Pairwise (· < ·)) :
    ∀ p ∈ L.dropWhile fun p => !decide (info < p), info < p := by
  induction L with
  | nil => simp
  | cons x L ih =>
    obtain ⟨hx, hL⟩ := pairwise_cons.mp h
    by_cases hlt : info < x
    · rw [dropWhile_cons_of_neg (by simpa using hlt)]
      intro p hp
      rcases mem_cons.mp hp with rfl | hp
      · exact hlt
      · exact hlt.trans (hx p hp)
    · rw [dropWhile_cons_of_pos (by simpa using hlt)]
      exact ih hL

section Claim

variable {s : Early} {L M : List Nat} {r : Range} {fuel : Nat}

theorem Areas.lt_areaEnd (h : Areas s L M) (hp : p ∈ L) : p < s.areaEnd p := by
  have := h.pos p hp
  unfold areaEnd
  rw [PAGE_SIZE_eq]
  omega

section

variable (h : Areas s L M) (hr : Claimable r) (hdisj : Disjoint r.locs (freeAddrs s L))
include h hr hdisj

theorem Areas.side (hp : p ∈ L) :
    s.areaEnd p ≤ r.front ∨ r.end_ ≤ p := by
  by_contra hno
  have hlt := h.lt_areaEnd hp
  have hpos := hr.pos
  have hmem : max p r.front ∈ r.locs := by
    simp only [Range.locs, Range.end_, Set.mem_Ico] at *
    omega
  refine Set.disjoint_left.mp hdisj hmem ⟨p, hp, le_max_left _ _, ?_⟩
  omega

theorem Areas.sides :
    ∃ A B, L = A ++ B ∧ (A = L.takeWhile fun p => !decide (r.front < p)) ∧
      (∀ p ∈ A, s.areaEnd p ≤ r.front) ∧ ∀ p ∈ B, r.end_ ≤ p := by
  refine ⟨_, L.dropWhile fun p => !decide (r.front < p), takeWhile_append_dropWhile.symm,
    rfl, ?_, ?_⟩
  · intro p hp
    have hle := mem_takeWhile_imp hp
    have hpos := hr.pos
    have hmem := (takeWhile_sublist _).subset hp
    rcases h.side hr hdisj hmem with hside | hside
    · exact hside
    · simp only [Bool.not_eq_true', decide_eq_false_iff_not, Range.end_] at hle hside
      omega
  · intro p hp
    have hmem := (dropWhile_sublist _).subset hp
    have hasc : L.Pairwise (· < ·) := h.apart.imp_of_mem fun hx _ hxy =>
      (h.lt_areaEnd hx).trans_le hxy
    have hlt := lt_of_mem_dropWhile hasc p hp
    rcases h.side hr hdisj hmem with hside | hside
    · have := h.lt_areaEnd hmem
      omega
    · exact hside

end

end Claim

/-! ## Looking for the place -/

section Place

variable {t : Early} {A B : List Nat} {info count fuel : Nat}

/-- The element before the range is the last area before it, found from the tail or by the loop. -/
theorem findPrev_eq (ht : IsRing t.list .head ((A ++ B).map .node))
    (hA : A = (A ++ B).takeWhile fun p => !decide (info < p)) (hasc : (A ++ B).Pairwise (· < ·))
    (hfuel : (A ++ B).length < fuel) :
    t.findPrev fuel info count (lastLink (A ++ B)) =
      (t.mergeNext info count (lastLink A)).map fun t' => (lastLink A, t') := by
  have hloop := listForeachPrev_spec (fun p => decide (info < p)) ht.way hfuel
  simp only [← hA] at hloop
  rcases eq_nil_or_concat (A ++ B) with hnil | ⟨L, last, hlast⟩
  · -- no area yet
    obtain ⟨rfl, rfl⟩ := append_eq_nil_iff.mp hnil
    have hnext := ring_next ht
    have hnil : lastLink ([] ++ []) = .head := rfl
    rw [hnil, findPrev, mergeNext, hnext]
    rfl
  · have htail : lastLink (A ++ B) = .node last := by
      rw [hlast, concat_eq_append, lastLink_concat]
    rw [htail, findPrev]
    split
    · rw [hloop, ok_bind]
      cases t.mergeNext info count _ <;> rfl
    · -- the range comes behind all areas, and there is no area to merge with behind it
      rename_i hge
      have hall : ∀ p ∈ A ++ B, (!decide (info < p)) = true := by
        intro p hp
        rw [hlast, concat_eq_append, mem_append, mem_singleton] at hp
        rw [hlast, concat_eq_append, pairwise_append] at hasc
        simp only [Bool.not_eq_true', decide_eq_false_iff_not]
        rcases hp with hp | rfl
        · have := hasc.2.2 p hp last (by simp)
          omega
        · exact hge
      have hAB : A = A ++ B := hA.trans (takeWhile_eq_self_iff.mpr hall)
      have hB : B = [] := self_eq_append_right.mp hAB
      subst hB
      have hnext := ring_next ht
      rw [append_nil] at htail
      rw [htail] at hnext ⊢
      rw [mergeNext, hnext]
      rfl

/-- An area begins where the range ends, and is taken off `g_freepage_list` only. -/
theorem mergeNext_some (count : Nat) (ht : IsRing t.list .head ((A ++ n :: B).map .node))
    (hn : (info + t.availPageCount info * PAGE_SIZE) % U64 = n) :
    ∃ t', t.mergeNext info count (lastLink A) = .ok t' ∧
      t'.ascList = t.ascList ∧ IsRing t'.list .head ((A ++ B).map .node) ∧
      ∀ p, p ≠ info → t'.availPageCount p = t.availPageCount p := by
  obtain ⟨list, hdel, hring⟩ := listDelete_nodes ht
  rw [mergeNext, ring_next ht]
  simp only [map_cons, cons_append, head_cons, if_pos hn]
  have hdel' : listDelete (t.setPageCounts info ((t.availPageCount info + count) % U64)
      ((t.totalPageCount info + count) % U64)).list (.node n) = .ok list := hdel
  rw [hdel', ok_bind]
  refine ⟨_, rfl, rfl, hring, ?_⟩
  intro p hp
  exact update_of_ne hp _ _

end Place

/-! ## One claim -/

/-- The part of `claim_pages` behind the search: merge with the area before, or add the new one. -/
def settle (s : Early) (fuel info count : Nat) (prev : ListPtr) : Result Early :=
  if s.endsAt prev info then pure (s.mergePrev prev count)
  else do
    let list ← listAdd s.list prev (.node info)
    addToAscList { s with list := list } fuel info

theorem settle_add (count : Nat) (hlist : IsRing t.list .head ((A ++ B).map .node))
    (hasc : IsRing t.ascList .head (M.map .node))
    (hsorted : M.Pairwise fun x y => t.availPageCount x ≤ t.availPageCount y) (hnew : info ∉ A ++ B)
    (hnewM : info ∉ M) (hfuel : M.length < fuel)
    (hend : t.endsAt (lastLink A) info = false) :
    ∃ t', ∃ M' : List Nat, t.settle fuel info count
        (lastLink A) = .ok t' ∧
      t'.availPageCount = t.availPageCount ∧
      t'.totalFreePagesRemaining = t.totalFreePagesRemaining ∧
      IsRing t'.list .head ((A ++ info :: B).map .node) ∧ IsRing t'.ascList .head (M'.map .node) ∧
      M'.Perm (info :: M) ∧ M'.Pairwise fun x y => t'.availPageCount x ≤ t'.availPageCount y := by
  obtain ⟨list, hadd, hring⟩ := listAdd_nodes hlist hnew
  obtain ⟨asc, M', hadd', hring', hperm, hsorted'⟩ := addToAscList_spec
    (s := { t with list := list }) hasc hsorted hnewM hfuel
  refine ⟨{ t with list := list, ascList := asc }, M', ?_, rfl, rfl, hring, hring', hperm, hsorted'⟩
  rw [settle, hend, if_neg (by simp), hadd, ok_bind, hadd']

section Step

variable {s : Early} {A B M : List Nat} {r : Range} {fuel : Nat}

/-- The range lies between the areas `A` and the areas `B`. -/
structure Between (s : Early) (A B M : List Nat) (r : Range) : Prop where
  areas : Areas s (A ++ B) M
  claimable : Claimable r
  split : A = (A ++ B).takeWhile fun p => !decide (r.front < p)
  before : ∀ p ∈ A, s.areaEnd p ≤ r.front
  after : ∀ p ∈ B, r.end_ ≤ p

theorem Between.new (h : Between s A B M r) : r.front ∉ A ++ B := by
  intro hmem
  have hlt := h.areas.lt_areaEnd hmem
  have hpos := h.claimable.pos
  rcases mem_append.mp hmem with hmem | hmem
  · have := h.before _ hmem
    omega
  · have hafter := h.after _ hmem
    unfold Range.end_ at hafter
    omega

theorem Between.newM (h : Between s A B M r) : r.front ∉ M := fun hmem =>
  h.new (h.areas.same.subset hmem)

theorem Between.size (h : Between s A B M r) :
    r.front + pageCount r.size * PAGE_SIZE = r.end_ ∧ 0 < pageCount r.size := by
  obtain ⟨c, hc⟩ := h.claimable.size
  have hpos := h.claimable.pos
  have hcount : pageCount r.size = c := by
    unfold pageCount
    rw [hc, Nat.mul_div_cancel_left _ (by decide)]
  rw [hcount, Range.end_, hc, mul_comm]
  refine ⟨rfl, ?_⟩
  rcases Nat.eq_zero_or_pos c with rfl | hc0
  · simp_all
  · exact hc0

theorem Between.claimInit_avail (h : Between s A B M r) (hp : p ∈ A ++ B) :
    (s.claimInit r.front (pageCount r.size)).availPageCount p = s.availPageCount p :=
  update_of_ne (ne_of_mem_of_not_mem hp h.new) _ _

theorem claimInit_self (s : Early) (info count : Nat) :
    (s.claimInit info count).availPageCount info = count :=
  update_self _ _ _

/-- The total does not wrap: the pages it counts all have addresses. -/
theorem claimInit_total {total : Nat} (info : Nat) (h : total = s.totalFreePagesRemaining + count)
    (hroom : total * PAGE_SIZE ≤ U64) :
    total = (s.claimInit info count).totalFreePagesRemaining := by
  rw [PAGE_SIZE_eq] at hroom
  exact h.trans (Nat.mod_eq_of_lt (by unfold U64 at *; omega)).symm

theorem Between.claimInit_list (h : Between s A B M r) :
    IsRing (s.claimInit r.front (pageCount r.size)).list .head ((A ++ B).map .node) :=
  listInit_ring h.areas.list h.new

theorem Between.claimInit_ascList (h : Between s A B M r) :
    IsRing (s.claimInit r.front (pageCount r.size)).ascList .head (M.map .node) :=
  listInit_ring h.areas.ascList h.newM

theorem Between.claimInit_ascending (h : Between s A B M r) :
    M.Pairwise fun x y => (s.claimInit r.front (pageCount r.size)).availPageCount x
      ≤ (s.claimInit r.front (pageCount r.size)).availPageCount y := by
  refine h.areas.ascending.imp_of_mem ?_
  intro x y hx hy hxy
  rw [h.claimInit_avail (h.areas.same.subset hx), h.claimInit_avail (h.areas.same.subset hy)]
  exact hxy

/-- **`claim_pages`** by its steps: the merge behind, and then the rest. -/
theorem Between.claimPages_eq (h : Between s A B M r) (hfuel : (A ++ B).length < fuel) :
    s.claimPages fuel r =
      (s.claimInit r.front (pageCount r.size)).mergeNext r.front (pageCount r.size)
        (lastLink A) >>= fun t =>
      t.settle fuel r.front (pageCount r.size)
        (lastLink A) := by
  have hasc : (A ++ B).Pairwise (· < ·) := h.areas.apart.imp_of_mem fun hx _ hxy =>
    (h.areas.lt_areaEnd hx).trans_le hxy
  rw [claimPages]
  rw [h.claimInit_list.way.prev_eq]
  dsimp only
  rw [findPrev_eq h.claimInit_list h.split hasc hfuel]
  cases (s.claimInit r.front (pageCount r.size)).mergeNext r.front (pageCount r.size)
    (lastLink A) <;> rfl

theorem endsAt_iff (hinfo : info < U64) (hbefore : ∀ p ∈ A, t.areaEnd p ≤ info) :
    t.endsAt (lastLink A) info = true ↔ ∃ A' p, A = A' ++ [p] ∧ t.areaEnd p = info := by
  rcases eq_nil_or_concat A with rfl | ⟨A', p, rfl⟩
  · simp [lastLink, endsAt]
  · rw [concat_eq_append] at hbefore ⊢
    have hle := hbefore p (by simp)
    rw [lastLink_concat, endsAt, beq_iff_eq]
    unfold areaEnd at hle
    rw [Nat.mod_eq_of_lt (by omega)]
    constructor
    · intro he
      exact ⟨A', p, rfl, he⟩
    · rintro ⟨A'', q, he, hq⟩
      obtain ⟨-, hpq⟩ := append_inj' he rfl
      rw [singleton_inj.mp hpq]
      exact hq

/-! ## The three outcomes -/

section

variable (h : Between s A B M r)
include h

theorem Between.lt_bound : r.front < U64 := by
  have hpos := h.claimable.pos
  have hbound := h.claimable.bounded
  unfold Range.end_ at hbound
  omega

theorem Between.areaEnd_eq (hp : p ∈ A ++ B) :
    (s.claimInit r.front (pageCount r.size)).areaEnd p = s.areaEnd p := by
  rw [areaEnd, h.claimInit_avail hp]
  rfl

theorem Between.before' :
    ∀ p ∈ A, (s.claimInit r.front (pageCount r.size)).areaEnd p ≤ r.front := by
  intro p hp
  rw [h.areaEnd_eq (by simp [hp])]
  exact h.before p hp

theorem Between.mergeNext_clear (hno : ∀ p ∈ B, p ≠ r.end_) :
    (s.claimInit r.front (pageCount r.size)).mergeNext r.front (pageCount r.size)
      (lastLink A)
      = .ok (s.claimInit r.front (pageCount r.size)) := by
  rw [mergeNext, ring_next h.claimInit_list]
  cases B with
  | nil => rfl
  | cons n B =>
    have hlt := h.areas.lt_areaEnd (p := n) (by simp)
    have hbound := h.areas.bounded n (by simp)
    have hafter := h.after n (by simp)
    simp only [map_cons, cons_append, head_cons]
    rw [claimInit_self, h.size.1, Nat.mod_eq_of_lt (by omega), if_neg (hno n (by simp)).symm]

theorem Between.claim_new (hfuel : (A ++ B).length < fuel) (hno : ∀ p ∈ B, p ≠ r.end_)
    (hgap : ∀ p ∈ A, s.areaEnd p ≠ r.front) :
    ∃ s' M', s.claimPages fuel r = .ok s' ∧ Areas s' (A ++ r.front :: B) M' ∧
      freeAddrs s' (A ++ r.front :: B) = freeAddrs s (A ++ B) ∪ r.locs := by
  obtain ⟨hend, hcount⟩ := h.size
  have hends : (s.claimInit r.front (pageCount r.size)).endsAt (lastLink A) r.front = false := by
    rw [← Bool.not_eq_true, endsAt_iff h.lt_bound h.before']
    rintro ⟨A', p, rfl, hp⟩
    rw [h.areaEnd_eq (by simp)] at hp
    exact hgap p (by simp) hp
  obtain ⟨s', M', hsettle, havail, hrem, hlist, hasc, hperm, hsorted⟩ := settle_add
    (pageCount r.size) h.claimInit_list h.claimInit_ascList h.claimInit_ascending h.new
    h.newM (by rw [h.areas.same.length_eq]; exact hfuel) hends
  have hself : s'.availPageCount r.front = pageCount r.size := by
    rw [havail, claimInit_self]
  have hendNew : s'.areaEnd r.front = r.end_ := by
    rw [areaEnd, hself, hend]
  obtain ⟨hareas, hfree⟩ := h.areas.replace s' (P := []) (R := [r.front]) hlist hasc
    (hperm.trans ((h.areas.same.cons _).trans perm_middle.symm)) hsorted
    (fun p hp => by rw [havail, h.claimInit_avail hp]) (pairwise_singleton _ _)
    (by
      rw [forall_mem_singleton, hendNew, hself]
      exact ⟨h.before, h.after, hcount, h.claimable.front, h.claimable.bounded⟩)
    (fun total htotal hroom => by
      rw [map_singleton, sum_singleton, hself] at htotal
      exact (claimInit_total r.front htotal hroom).trans hrem.symm)
  refine ⟨s', M', ?_, hareas, ?_⟩
  · rw [h.claimPages_eq hfuel, h.mergeNext_clear hno, ok_bind, hsettle]
  · have hall : freeAddrs s' (A ++ r.front :: B) = _ := hfree
    rw [hall, freeAddrs_singleton, hendNew, Set.union_comm]
    rfl

end

/-- The area before takes the range in, in its old place on `g_asc_freelist`. -/
theorem Between.claim_grow (h : Between s (A ++ [p]) B M r) (hfuel : (A ++ [p] ++ B).length < fuel)
    (hno : ∀ q ∈ B, q ≠ r.end_) (hp : s.areaEnd p = r.front) :
    ∃ s', s.claimPages fuel r = .ok s' ∧ IsRing s'.list .head ((A ++ [p] ++ B).map .node) ∧
      IsRing s'.ascList .head (M.map .node) ∧
      s'.availPageCount p = s.availPageCount p + pageCount r.size ∧
      (∀ q ∈ A ++ [p] ++ B, q ≠ p → s'.availPageCount q = s.availPageCount q) ∧
      ((M.Pairwise fun x y => s'.availPageCount x ≤ s'.availPageCount y) →
        Areas s' (A ++ [p] ++ B) M ∧
          freeAddrs s' (A ++ [p] ++ B) = freeAddrs s (A ++ [p] ++ B) ∪ r.locs) := by
  obtain ⟨hend, hcount⟩ := h.size
  have hpmem : p ∈ A ++ [p] ++ B := by simp
  set s0 := s.claimInit r.front (pageCount r.size) with hs0
  have hends : s0.endsAt (lastLink (A ++ [p])) r.front = true := by
    rw [endsAt_iff h.lt_bound h.before']
    exact ⟨A, p, rfl, (h.areaEnd_eq hpmem).trans hp⟩
  have hrun : s.claimPages fuel r = .ok (s0.mergePrev (.node p) (pageCount r.size)) := by
    rw [h.claimPages_eq hfuel, h.mergeNext_clear hno, ok_bind, settle, hends, if_pos rfl,
      lastLink_concat]
    rfl
  have hgrown : s.availPageCount p + pageCount r.size < U64 := by
    have hbound := h.claimable.bounded
    rw [← hend, ← hp, areaEnd, PAGE_SIZE_eq] at hbound
    omega
  have hcountp : (s0.mergePrev (.node p) (pageCount r.size)).availPageCount p
      = s.availPageCount p + pageCount r.size := by
    have hself : (s0.mergePrev (.node p) (pageCount r.size)).availPageCount p
        = (s0.availPageCount p + pageCount r.size) % U64 := update_self _ _ _
    rw [hself, h.claimInit_avail hpmem, Nat.mod_eq_of_lt hgrown]
  have hother : ∀ q ∈ A ++ [p] ++ B, q ≠ p →
      (s0.mergePrev (.node p) (pageCount r.size)).availPageCount q = s.availPageCount q := by
    intro q hq hne
    exact (update_of_ne hne _ _).trans (h.claimInit_avail hq)
  set s' := s0.mergePrev (.node p) (pageCount r.size) with hs'
  refine ⟨s', hrun, h.claimInit_list, h.claimInit_ascList, hcountp, hother, ?_⟩
  intro hsorted
  have hendp : s'.areaEnd p = r.end_ := by
    rw [areaEnd, hcountp, add_mul, ← add_assoc]
    have : p + s.availPageCount p * PAGE_SIZE = r.front := hp
    omega
  have hold : ∀ q ∈ A ++ B, s'.availPageCount q = s.availPageCount q := by
    intro q hq
    have hnd := nodup_of_ring h.areas.list
    rw [append_assoc, singleton_append, nodup_middle, nodup_cons] at hnd
    refine hother q ?_ (ne_of_mem_of_not_mem hq hnd.1)
    rw [append_assoc]
    exact mem_middle.mpr (.inr hq)
  have hareas := h.areas
  have hlist := h.claimInit_list
  have hperm := h.areas.same
  have hlt := h.areas.lt_areaEnd hpmem
  rw [append_assoc] at hareas hlist hperm ⊢
  obtain ⟨hnew, hfree⟩ := hareas.replace s' hlist h.claimInit_ascList hperm hsorted hold
    (pairwise_singleton _ _)
    (by
      rw [forall_mem_singleton, hendp, hcountp]
      exact ⟨(Areas.around hareas).1, h.after, by omega, hareas.aligned p (by simp),
        h.claimable.bounded⟩)
    (fun total htotal hroom => by
      simp only [map_singleton, sum_singleton, hcountp] at htotal
      exact claimInit_total r.front (by omega) hroom)
  refine ⟨hnew, ?_⟩
  -- the area reaches as far as before, and over the range
  have hgrow : Set.Ico p (s'.areaEnd p) = Set.Ico p (s.areaEnd p) ∪ r.locs := by
    rw [hendp, hp]
    exact (Set.Ico_union_Ico_eq_Ico (by omega) le_self_add).symm
  rw [hfree, freeAddrs_middle, freeAddrs_singleton, freeAddrs_singleton, hgrow,
    Set.union_right_comm]

/-- An area that is taken in stays on `g_asc_freelist`. -/
theorem Between.claim_stale (h : Between s A (n :: B) M r) (hfuel : (A ++ n :: B).length < fuel)
    (hn : n = r.end_) :
    ∃ s', ∃ L' M' : List Nat, s.claimPages fuel r = .ok s' ∧
      IsRing s'.list .head (L'.map .node) ∧
      IsRing s'.ascList .head (M'.map .node) ∧ n ∈ M' ∧ n ∉ L' ∧
      L'.length ≤ (A ++ n :: B).length := by
  have hnmem : n ∈ A ++ n :: B := by simp
  have hnM : n ∈ M := h.areas.same.symm.subset hnmem
  have hlt := h.areas.lt_areaEnd hnmem
  have hbound := h.areas.bounded n hnmem
  have hnd := nodup_of_ring h.areas.list
  rw [nodup_middle, nodup_cons] at hnd
  have hne : n ≠ r.front := ne_of_mem_of_not_mem hnmem h.new
  have hmeets : (r.front + (s.claimInit r.front (pageCount r.size)).availPageCount r.front
      * PAGE_SIZE) % U64 = n := by
    rw [claimInit_self, h.size.1, ← hn]
    exact Nat.mod_eq_of_lt (by omega)
  obtain ⟨t, hmerge, hasc, hlist, hkeep⟩ := mergeNext_some (pageCount r.size)
    h.claimInit_list hmeets
  have hkeepM : ∀ x ∈ M, t.availPageCount x
      = (s.claimInit r.front (pageCount r.size)).availPageCount x := fun x hx =>
    hkeep x (ne_of_mem_of_not_mem hx h.newM)
  have hsorted : M.Pairwise fun x y => t.availPageCount x ≤ t.availPageCount y := by
    refine h.claimInit_ascending.imp_of_mem ?_
    intro x y hx hy hxy
    rw [hkeepM x hx, hkeepM y hy]
    exact hxy
  have hnew : r.front ∉ A ++ B := fun e => h.new (by rcases mem_append.mp e with e | e <;> simp [e])
  rw [h.claimPages_eq hfuel, hmerge, ok_bind]
  cases hends : t.endsAt (lastLink A) r.front with
  | true =>
    refine ⟨t.mergePrev (lastLink A) (pageCount r.size), A ++ B, M, ?_, ?_, ?_, hnM, hnd.1, by simp⟩
    · rw [settle, hends, if_pos rfl]
      rfl
    · cases lastLink A <;> exact hlist
    · cases lastLink A <;> exact hasc.symm ▸ h.claimInit_ascList
  | false =>
    obtain ⟨s', M', hsettle, _, _, hlist', hasc', hperm, _⟩ := settle_add
      (pageCount r.size) hlist (by rw [hasc]; exact h.claimInit_ascList) hsorted hnew
      h.newM (by rw [h.areas.same.length_eq]; exact hfuel) hends
    refine ⟨s', A ++ r.front :: B, M', hsettle, hlist', hasc', ?_, ?_, by simp⟩
    · exact hperm.symm.subset (.tail _ hnM)
    · intro hmem
      rw [mem_append, mem_cons, or_left_comm, ← mem_append] at hmem
      rcases hmem with hmem | hmem
      · exact hne hmem
      · exact hnd.1 hmem

end Step

/-! ## When the lists are in order -/

/-- One count of an ascending list grows: it stays ascending if nothing behind is overtaken. -/
theorem ascending_grow {f g : Nat → Nat} (hnd : M.Nodup) (hf : M.Pairwise fun x y => f x ≤ f y)
    (hp : g p = f p + count) (hother : ∀ x ∈ M, x ≠ p → g x = f x) :
    (M.Pairwise fun x y => g x ≤ g y) ↔ M.Pairwise fun x y => x = p → f p + count ≤ f y := by
  constructor
  · intro hg
    refine (hg.and hnd).imp_of_mem ?_
    intro x y _ hy ⟨hxy, hne⟩ hxp
    rw [hxp] at hxy hne
    rw [← hp, ← hother y hy hne.symm]
    exact hxy
  · intro hg
    refine (hg.and (hf.and hnd)).imp_of_mem ?_
    intro x y hx hy ⟨hgrow, hxy, hne⟩
    by_cases hxp : x = p
    · rw [hxp, hp, hother y hy (fun e => hne (hxp.trans e.symm))]
      exact hgrow hxp
    · rw [hother x hx hxp]
      by_cases hyp : y = p
      · rw [hyp] at hxy
        rw [hyp, hp]
        omega
      · rw [hother y hy hyp]
        exact hxy

/--
**A claim keeps the lists in order exactly if it is clear.** It always returns, and adds at most
one area.
-/
theorem Areas.claim_iff {r : Range} (h : Areas s L M) (hr : Claimable r)
    (hdisj : Disjoint r.locs (freeAddrs s L)) (hfuel : L.length < fuel) :
    ∃ s', ∃ L' : List Nat, s.claimPages fuel r = .ok s' ∧ IsRing s'.list .head (L'.map .node) ∧
      L'.length ≤ L.length + 1 ∧ (InOrder s' (freeAddrs s L ∪ r.locs) ↔ Clear fuel s r) := by
  have hlistL : listNodes s.list fuel .head = L := listNodes_eq h.list.way hfuel.le
  have hlistM : listNodes s.ascList fuel .head = M :=
    listNodes_eq h.ascList.way (h.same.length_eq.trans_le hfuel.le)
  unfold Clear
  rw [hlistL, hlistM]
  obtain ⟨A, B, rfl, hA, hbefore, hafter⟩ := h.sides hr hdisj
  have hb : Between s A B M r := ⟨h, hr, hA, hbefore, hafter⟩
  -- no area behind the range ends where it begins
  have hbehind : ∀ p ∈ B, s.areaEnd p ≠ r.front := by
    intro p hp he
    have hlt := h.lt_areaEnd (p := p) (by simp [hp])
    have hge := hafter p hp
    unfold Range.end_ at hge
    omega
  by_cases hstale : r.end_ ∈ B
  · -- an area begins at the end of the range; it is the first one behind it
    obtain ⟨B1, B2, rfl⟩ := append_of_mem hstale
    have hB1 : B1 = [] := by
      cases B1 with
      | nil => rfl
      | cons b B1 =>
        have hge := hafter b (by simp)
        have hlt := h.lt_areaEnd (p := b) (by simp)
        have hpair := (pairwise_append.mp h.apart).2.1
        rw [cons_append, pairwise_cons] at hpair
        have := hpair.1 r.end_ (by simp)
        omega
    subst hB1
    obtain ⟨s', L', M', hrun, hlist, hasc, hin, hout, hlen⟩ := hb.claim_stale hfuel rfl
    refine ⟨s', L', hrun, hlist, hlen.trans (Nat.le_succ _), iff_of_false ?_ ?_⟩
    · rintro ⟨L1, M1, hareas, _⟩
      rw [ring_unique hlist hareas.list] at hout
      rw [ring_unique hasc hareas.ascList] at hin
      exact hout (hareas.same.subset hin)
    · rintro ⟨hno, _⟩
      exact hno r.end_ (by simp) rfl
  have hno : ∀ p ∈ B, p ≠ r.end_ := fun p hp e => hstale (e ▸ hp)
  have hnoAll : ∀ p ∈ A ++ B, p ≠ r.end_ := by
    intro p hp
    rcases mem_append.mp hp with hp | hp
    · have hlt := h.lt_areaEnd (p := p) (by simp [hp])
      have hle := hbefore p hp
      unfold Range.end_
      omega
    · exact hno p hp
  by_cases hgap : ∀ p ∈ A, s.areaEnd p ≠ r.front
  · obtain ⟨s', M', hrun, hareas, hfree⟩ := hb.claim_new hfuel hno hgap
    refine ⟨s', A ++ r.front :: B, hrun, hareas.list, by simp; omega,
      iff_of_true ⟨_, M', hareas, hfree⟩ ⟨hnoAll, ?_⟩⟩
    intro p hp he
    rcases mem_append.mp hp with hp | hp
    · exact absurd he (hgap p hp)
    · exact absurd he (hbehind p hp)
  · -- an area ends at the beginning of the range; it is the last one before it
    push Not at hgap
    obtain ⟨p, hpA, hp⟩ := hgap
    obtain ⟨A1, A2, rfl⟩ := append_of_mem hpA
    have hA2 : A2 = [] := by
      cases A2 with
      | nil => rfl
      | cons q A2 =>
        have hle := hbefore q (by simp)
        have hlt := h.lt_areaEnd (p := q) (by simp)
        have hpair := (pairwise_append.mp (pairwise_append.mp h.apart).1).2.1
        have := (pairwise_cons.mp hpair).1 q (by simp)
        omega
    subst hA2
    obtain ⟨s', hrun, hlist, hasc, hcount, hother, hgrow⟩ := hb.claim_grow hfuel hno hp
    have honly : ∀ q ∈ A1 ++ [p] ++ B, s.areaEnd q = r.front → q = p := by
      intro q hq he
      rw [append_assoc, mem_append] at hq
      rcases hq with hq | hq
      · have hle := (pairwise_append.mp (pairwise_append.mp h.apart).1).2.2 q hq p (by simp)
        have hlt := h.lt_areaEnd (p := p) (by simp)
        omega
      · rcases mem_cons.mp hq with hq | hq
        · exact hq
        · exact absurd he (hbehind q hq)
    have hiff := ascending_grow (nodup_of_ring h.ascList) h.ascending hcount
      fun x hx => hother x (h.same.subset hx)
    refine ⟨s', A1 ++ [p] ++ B, hrun, hlist, Nat.le_succ _, ?_⟩
    constructor
    · rintro ⟨L1, M1, hareas, _⟩
      refine ⟨hnoAll, ?_⟩
      intro q hq he
      rw [honly q hq he]
      refine hiff.mp ?_
      rw [ring_unique hasc hareas.ascList]
      exact hareas.ascending
    · rintro ⟨_, hclear⟩
      obtain ⟨hareas, hfree⟩ := hgrow (hiff.mpr (hclear p (by simp) hp))
      exact ⟨_, M, hareas, hfree⟩

/-! ## Any number of claims -/

/-- Claim ranges one after the other. -/
def claimAll (fuel : Nat) : Early → List Range → Result Early
  | s, [] => .ok s
  | s, r :: rs => do
    let s ← s.claimPages fuel r
    claimAll fuel s rs

/-- Every claim is clear in the state in which it is made. -/
def Clears (fuel : Nat) : Early → List Range → Prop
  | _, [] => True
  | s, r :: rs => Clear fuel s r ∧ (s.claimPages fuel r).All fun s => Clears fuel s rs

instance instDecidableClears (fuel : Nat) :
    (s : Early) → (rs : List Range) → Decidable (Clears fuel s rs)
  | _, [] => .isTrue trivial
  | s, r :: rs =>
    have (s : Early) : Decidable (Clears fuel s rs) := instDecidableClears fuel s rs
    inferInstanceAs (Decidable (Clear fuel s r ∧ (s.claimPages fuel r).All _))

/-- The addresses in some ranges. -/
def claimed (rs : List Range) : Set Nat := { a | ∃ r ∈ rs, a ∈ r.locs }

theorem claimed_cons (r : Range) (rs : List Range) : claimed (r :: rs) = r.locs ∪ claimed rs := by
  ext a
  simp [claimed]

theorem claimAll_iff (fuel : Nat) : ∀ (rs : List Range) {s : Early} {L M : List Nat},
    Areas s L M → (∀ r ∈ rs, Claimable r) →
    (rs.Pairwise fun r r' => Disjoint r.locs r'.locs) →
    (∀ r ∈ rs, Disjoint r.locs (freeAddrs s L)) → L.length + rs.length ≤ fuel →
    ((∀ done rest, rs = done ++ rest → ∃ s', claimAll fuel s done = .ok s' ∧
        InOrder s' (freeAddrs s L ∪ claimed done)) ↔
      Clears fuel s rs)
  | [], s, L, M, h, _, _, _, _ => by
    refine iff_of_true ?_ trivial
    intro done rest he
    obtain ⟨rfl, rfl⟩ := append_eq_nil_iff.mp he.symm
    exact ⟨s, rfl, L, M, h, by simp [claimed]⟩
  | r :: rs, s, L, M, h, hclaim, hpair, hdisj, hfuel => by
    obtain ⟨hr, hpair⟩ := pairwise_cons.mp hpair
    rw [length_cons] at hfuel
    have hnow : L.length < fuel := by omega
    obtain ⟨s1, L1, hrun, hlist, hlen, hiff⟩ := h.claim_iff (hclaim r (by simp))
      (hdisj r (by simp)) hnow
    rw [Clears, hrun, all_ok]
    -- the later claims, once this one has left the lists in order
    have hlater : InOrder s1 (freeAddrs s L ∪ r.locs) →
        ((∀ done rest, rs = done ++ rest → ∃ s', claimAll fuel s1 done = .ok s' ∧
          InOrder s' (freeAddrs s L ∪ claimed (r :: done))) ↔ Clears fuel s1 rs) := by
      rintro ⟨L2, M2, hareas, hfree⟩
      have hL2 : L2.length + rs.length ≤ fuel := by
        rw [← ring_unique hlist hareas.list]
        omega
      have hdisj2 : ∀ r' ∈ rs, Disjoint r'.locs (freeAddrs s1 L2) := by
        intro r' hr'
        rw [hfree]
        exact (hdisj r' (by simp [hr'])).union_right (hr r' hr').symm
      have ih := claimAll_iff fuel rs hareas (fun r' hr' => hclaim r' (by simp [hr'])) hpair hdisj2 hL2
      simp only [hfree, Set.union_assoc, ← claimed_cons] at ih
      exact ih
    have hone : claimed [r] = r.locs := by simp [claimed]
    constructor
    · intro hall
      have hfirst : InOrder s1 (freeAddrs s L ∪ r.locs) := by
        obtain ⟨s', hs', horder⟩ := hall [r] rs rfl
        rw [claimAll, hrun] at hs'
        rw [hone] at horder
        rw [Except.ok.inj hs']
        exact horder
      refine ⟨hiff.mp hfirst, (hlater hfirst).mp ?_⟩
      intro done rest he
      obtain ⟨s', hs', horder⟩ := hall (r :: done) rest (by rw [he]; rfl)
      rw [claimAll, hrun] at hs'
      exact ⟨s', hs', horder⟩
    · rintro ⟨hclear, hclears⟩ done rest he
      cases done with
      | nil => exact ⟨s, rfl, L, M, h, by simp [claimed]⟩
      | cons r' done =>
        obtain ⟨rfl, hrest⟩ := cons.inj he
        obtain ⟨s', hs', horder⟩ := (hlater (hiff.mpr hclear)).mpr hclears done rest hrest
        refine ⟨s', ?_, horder⟩
        rw [claimAll, hrun]
        exact hs'

/-- No memory is claimed yet; what is in memory is arbitrary. -/
structure Fresh (s : Early) : Prop where
  list : s.list .head = ⟨some .head, some .head⟩
  ascList : s.ascList .head = ⟨some .head, some .head⟩
  remaining : s.totalFreePagesRemaining = 0

theorem Fresh.areas (h : Fresh s) : Areas s [] [] := by
  refine ⟨⟨?_, by simp⟩, ⟨?_, by simp⟩, List.Perm.nil, List.Pairwise.nil, List.Pairwise.nil, ?_,
    by simp, by simp, by simp⟩
  · exact ⟨by rw [h.list], by rw [h.list]⟩
  · exact ⟨by rw [h.ascList], by rw [h.ascList]⟩
  · rw [h.remaining]
    rfl

/--
**The areas are in order after each of any number of claims, if and only if every claim is clear.**
Then they are, together, exactly the claimed memory.
-/
theorem claims_in_order_iff {s : Early} (h : Fresh s) (rs : List Range)
    (hclaim : ∀ r ∈ rs, Claimable r) (hpair : rs.Pairwise fun r r' => Disjoint r.locs r'.locs)
    (fuel : Nat) (hfuel : rs.length ≤ fuel) :
    (∀ done rest, rs = done ++ rest → ∃ s', claimAll fuel s done = .ok s' ∧
        InOrder s' (claimed done)) ↔
      Clears fuel s rs := by
  have hempty : freeAddrs s [] = ∅ := by
    simp [freeAddrs]
  have hiff := claimAll_iff fuel rs h.areas hclaim hpair (by simp [hempty]) (by simpa using hfuel)
  simpa only [hempty, Set.empty_union] using hiff

/-- Two empty lists, and memory full of zeroes. -/
def boot : Early where
  list x := if x = .head then ⟨some .head, some .head⟩ else ⟨none, none⟩
  ascList x := if x = .head then ⟨some .head, some .head⟩ else ⟨none, none⟩
  availPageCount _ := 0
  totalPageCount _ := 0
  totalFreePages := 0
  totalFreePagesRemaining := 0

/-- The second range comes before the first, and the third makes the first one grow. -/
theorem claims_in_order_iff_three :
    ∃ s, claimAll 3 boot [⟨0x5000, 0x1000⟩, ⟨0x1000, 0x2000⟩, ⟨0x6000, 0x1000⟩] = .ok s ∧
      InOrder s (claimed [⟨0x5000, 0x1000⟩, ⟨0x1000, 0x2000⟩, ⟨0x6000, 0x1000⟩]) := by
  refine (claims_in_order_iff ⟨rfl, rfl, rfl⟩
    [⟨0x5000, 0x1000⟩, ⟨0x1000, 0x2000⟩, ⟨0x6000, 0x1000⟩] ?_ ?_ 3 (Nat.le_refl 3)).mpr
    (by decide +kernel) _ [] (append_nil _).symm
  · intro r hr
    simp only [mem_cons, not_mem_nil, or_false] at hr
    rcases hr with rfl | rfl | rfl <;> exact ⟨by decide, by decide, by decide, by decide⟩
  · simp [Range.locs, Range.end_, Set.Ico_disjoint_Ico]

/--
Two ranges that touch, the upper one claimed first: the area of the lower one counts four of the
five pages, and the upper one is still on `g_asc_freelist`.
-/
theorem claim_below_loses_page :
    ∃ s, claimAll 2 boot [⟨0x3000, 0x3000⟩, ⟨0x1000, 0x2000⟩] = .ok s ∧
      listNodes s.list 2 .head = [0x1000] ∧ listNodes s.ascList 2 .head = [0x3000, 0x1000] ∧
      s.availPageCount 0x1000 = 4 ∧ s.totalFreePagesRemaining = 5 ∧
      ∀ free, ¬ InOrder s free := by
  refine ⟨_, rfl, by decide +kernel, by decide +kernel, by decide +kernel, by decide +kernel, ?_⟩
  rintro free ⟨L, M, h, -⟩
  have hL : [0x1000] = L := ring_unique ⟨⟨⟨rfl, rfl⟩, rfl, rfl⟩, by simp⟩ h.list
  have hM : [0x3000, 0x1000] = M :=
    ring_unique ⟨⟨⟨rfl, rfl⟩, ⟨rfl, rfl⟩, rfl, rfl⟩, by simp⟩ h.ascList
  have hlen := h.same.length_eq
  rw [← hL, ← hM] at hlen
  exact absurd hlen (by decide)

end OsKernel.Mm.Early
