import OsKernel.Base.Runs
import OsKernel.Mm.FreeProof

/-!
# Freeing a large page

`free_large_page` drops one reference of every page of a large page. The pages whose last
reference that was are given back, run by run. The inner loop drops the reference of the
page that ends a run as well, and the outer loop goes on behind that page, so between them
they meet every page once.

The loops are followed by what they do: `freeLargePageTraced` also returns the references
dropped and the runs given back, in order.
-/

namespace OsKernel.Mm.PageAlloc

open List

variable {c : Int} {head next q sec stop : Nat} {s t : PageAlloc} {inOrder : PageAlloc → Prop}

/-- What the loops do. -/
inductive FreeEvent where
  | drop (page : Nat)
  | free (page amount : Nat)
  deriving DecidableEq

/-- The pages whose reference was dropped, in order. -/
def droppedPages (events : List FreeEvent) : List Nat :=
  events.filterMap fun event => match event with
    | .drop page => some page
    | .free _ _ => none

/-- The runs given back, in order. -/
def freedRuns (events : List FreeEvent) : List (Nat × Nat) :=
  events.filterMap fun event => match event with
    | .drop _ => none
    | .free page amount => some (page, amount)

/-- The inner loop of `free_large_page`. -/
def dropRunTraced (s : PageAlloc) : Nat → Nat → Result (Nat × List FreeEvent × PageAlloc)
  | iter, 0 => .ok (iter, [], s)
  | iter, n + 1 => do
    let (last, s) ← s.refDown iter
    if last then
      let (stop, events, s) ← dropRunTraced s (iter + 1) n
      pure (stop, .drop iter :: events, s)
    else pure (iter, [.drop iter], s)

/-- The outer loop of `free_large_page`. -/
def freeLargeLoopTraced (end_ : Nat) : Nat → PageAlloc → Nat → Result (List FreeEvent × PageAlloc)
  | 0, s, page => if page < end_ then .error .outOfFuel else .ok ([], s)
  | fuel + 1, s, page =>
    if page < end_ then do
      let (last, s) ← s.refDown page
      if last then
        let (iter, drops, s) ← s.dropRunTraced (page + 1) (end_ - (page + 1))
        let s ← s.freeAmountOfPages page (iter - page)
        let (events, s) ← freeLargeLoopTraced end_ fuel s (iter + 1)
        pure (.drop page :: drops ++ .free page (iter - page) :: events, s)
      else
        let (events, s) ← freeLargeLoopTraced end_ fuel s (page + 1)
        pure (.drop page :: events, s)
    else .ok ([], s)

/-- `free_large_page`. -/
def freeLargePageTraced (s : PageAlloc) (levelOrder : Nat → Nat) (head : Nat) :
    Result (List FreeEvent × PageAlloc) :=
  if (s.pages head).state ≠ .largeHead then .error .panic
  else
    match (s.pages head).data with
    | .largeHead _ _ level =>
      let pageCount := 2 ^ levelOrder level
      freeLargeLoopTraced (head + pageCount) pageCount s head
    | _ => .error .badMemory

/-! ## The trace changes nothing -/

theorem dropRun_eq (n : Nat) (s : PageAlloc) (iter : Nat) :
    s.dropRun iter n = (s.dropRunTraced iter n).map fun r => (r.1, r.2.2) := by
  induction n generalizing s iter with
  | zero => rfl
  | succ n ih =>
    rw [dropRun, dropRunTraced]
    rcases s.refDown iter with e | ⟨last, s'⟩
    · rfl
    · cases last with
      | false => rfl
      | true =>
        change s'.dropRun (iter + 1) n = _
        rw [ih]
        rcases hrun : s'.dropRunTraced (iter + 1) n with e | ⟨stop, events, s''⟩
        · simp [hrun, bind, Except.bind, Except.map]
        · simp [hrun, bind, Except.bind, Except.map, pure, Except.pure]

theorem freeLargeLoop_eq (end_ fuel : Nat) (s : PageAlloc) (page : Nat) :
    freeLargeLoop end_ fuel s page =
      (freeLargeLoopTraced end_ fuel s page).map Prod.snd := by
  induction fuel generalizing s page with
  | zero =>
    rw [freeLargeLoop, freeLargeLoopTraced]
    split <;> rfl
  | succ fuel ih =>
    rw [freeLargeLoop, freeLargeLoopTraced]
    split
    · rcases s.refDown page with e | ⟨last, s₁⟩
      · rfl
      · cases last with
        | false =>
          change freeLargeLoop end_ fuel s₁ (page + 1) = _
          rw [ih]
          rcases hrest : freeLargeLoopTraced end_ fuel s₁ (page + 1) with e | ⟨events, s₂⟩
          · simp [hrest, bind, Except.bind, Except.map]
          · simp [hrest, bind, Except.bind, Except.map, pure, Except.pure]
        | true =>
          simp only [ok_bind, if_true, dropRun_eq]
          rcases s₁.dropRunTraced (page + 1) (end_ - (page + 1)) with e | ⟨iter, drops, s₂⟩
          · rfl
          · simp only [Except.map, ok_bind]
            rcases s₂.freeAmountOfPages page (iter - page) with e | s₃
            · rfl
            · simp only [ok_bind, ih]
              rcases freeLargeLoopTraced end_ fuel s₃ (iter + 1) with e | ⟨events, s₄⟩ <;>
                rfl
    · rfl

/-- **`free_large_page`** is what the trace is a trace of. -/
theorem freeLargePage_eq (s : PageAlloc) (levelOrder : Nat → Nat) (head : Nat) :
    s.freeLargePage levelOrder head =
      (s.freeLargePageTraced levelOrder head).map Prod.snd := by
  unfold freeLargePage freeLargePageTraced
  split
  · rfl
  · cases (s.pages head).data with
    | largeHead _ _ level => exact freeLargeLoop_eq _ _ _ _
    | _ => rfl

/-! ## Counts -/

/-- The page is in a free block. -/
def IsFreePage (s : PageAlloc) (page : Nat) : Prop :=
  (s.pages page).state = .freeListHead ∨ (s.pages page).state = .freeListTail

variable {s s' : PageAlloc} {count : Nat → Int} {page : Nat}

theorem setPageRefcount_of_ne (s : PageAlloc) (c : Int) (h : q ≠ page) :
    (s.setPageRefcount page c).pages q = s.pages q := by
  unfold setPageRefcount
  split <;> simp [setData, modifyPage, h]

theorem pageRefcount_set {c' : Int} (h : s.pageRefcount page = .ok c) :
    (s.setPageRefcount page c').pageRefcount page = .ok c' := by
  unfold pageRefcount at h
  unfold setPageRefcount
  cases hdata : (s.pages page).data with
  | largeHead _ _ _ => simp [pageRefcount, setData, modifyPage]
  | largeTail _ _ => simp [pageRefcount, setData, modifyPage]
  | used _ => simp [pageRefcount, setData, modifyPage]
  | table _ => simp [pageRefcount, setData, modifyPage]
  | _ => simp [hdata] at h

/-- The references of the pages from `first` up to `end_` were dropped, and nothing else was done. -/
structure Lowered (count : Nat → Int) (first end_ : Nat) (s s' : PageAlloc) : Prop where
  counts : ∀ q, first ≤ q → q < end_ → s'.pageRefcount q = .ok (count q - 1)
  states : ∀ q, (s'.pages q).state = (s.pages q).state
  outside : ∀ q, ¬ (first ≤ q ∧ q < end_) → s'.pages q = s.pages q

/-- The counts of the pages that are still to come. -/
structure Counted (count : Nat → Int) (first end_ : Nat) (s : PageAlloc) : Prop where
  counts : ∀ q, first ≤ q → q < end_ → s.pageRefcount q = .ok (count q)
  inUse : ∀ q, first ≤ q → q < end_ → ¬ s.IsFreePage q

theorem pageRefcount_congr (h : s'.pages q = s.pages q) :
    s'.pageRefcount q = s.pageRefcount q := by
  unfold pageRefcount
  rw [h]

theorem isFreePage_congr (h : (s'.pages q).state = (s.pages q).state) :
    s'.IsFreePage q ↔ s.IsFreePage q := by
  unfold IsFreePage
  rw [h]

variable {first mid end_ : Nat}

theorem Lowered.refl (s : PageAlloc) : Lowered count first first s s :=
  ⟨fun _ hle hlt => absurd hlt (not_lt.mpr hle), fun _ => rfl, fun _ _ => rfl⟩

theorem lowered_one (h : s.pageRefcount page = .ok (count page)) :
    Lowered count page (page + 1) s (s.setPageRefcount page (count page - 1)) := by
  refine ⟨?_, ?_, ?_⟩
  · intro q hle hlt
    obtain rfl : q = page := by omega
    exact pageRefcount_set h
  · intro q
    by_cases hq : q = page
    · rw [hq]
      unfold setPageRefcount
      split <;> simp [setData, modifyPage]
    · rw [setPageRefcount_of_ne s _ hq]
  · intro q hq
    exact setPageRefcount_of_ne s _ (by omega)

theorem Lowered.trans (h : Lowered count first mid s t) (h' : Lowered count mid end_ t s')
    (hle : first ≤ mid) (hle' : mid ≤ end_) :
    Lowered count first end_ s s' := by
  refine ⟨?_, fun q => (h'.states q).trans (h.states q), ?_⟩
  · intro q hfirst hend
    by_cases hq : q < mid
    · rw [pageRefcount_congr (h'.outside q (by omega))]
      exact h.counts q hfirst hq
    · exact h'.counts q (by omega) hend
  · intro q hq
    rw [h'.outside q (by omega), h.outside q (by omega)]

theorem Lowered.counted (h : Lowered count first mid s s') (hs : Counted count first stop s)
    (hle : first ≤ mid) : Counted count mid stop s' := by
  constructor
  · intro q hmid hstop
    rw [pageRefcount_congr (h.outside q (by omega))]
    exact hs.counts q (by omega) hstop
  · intro q hmid hstop
    rw [isFreePage_congr (h.states q)]
    exact hs.inUse q (by omega) hstop

/-! ## The loops -/

/--
What is assumed of `free_amount_of_pages`. While the allocator is in order, and dropping a
reference of the large page leaves it in order, the call returns and writes to the run and to free
blocks only. The runs it is called with are runs of pages in use, as long as they can be: the pages
on either side are in use as well or do not belong to the large page.
-/
structure FreesRuns (inOrder : PageAlloc → Prop) (head end_ : Nat) : Prop where
  drop : ∀ s page count, inOrder s → head ≤ page → page < end_ → ¬ s.IsFreePage page →
    inOrder (s.setPageRefcount page count)
  free : ∀ s page amount, inOrder s → 0 < amount → head ≤ page → page + amount ≤ end_ →
    (∀ q, page ≤ q → q < page + amount → ¬ s.IsFreePage q) →
    (page = head ∨ ¬ s.IsFreePage (page - 1)) →
    (page + amount = end_ ∨ ¬ s.IsFreePage (page + amount)) →
    ∃ s', s.freeAmountOfPages page amount = .ok s' ∧ inOrder s' ∧
      ∀ q, ¬ (page ≤ q ∧ q < page + amount) → ¬ s.IsFreePage q → s'.pages q = s.pages q

/-- Counts that may be counted down. -/
def Positive (count : Nat → Int) (first end_ : Nat) : Prop :=
  ∀ q, first ≤ q → q < end_ → 1 ≤ count q ∧ count q ≠ REFCOUNT_MAX

theorem refDown_lowered (hfree : FreesRuns inOrder head end_) (hs : inOrder s)
    (hhead : head ≤ page) (hcount : Counted count page end_ s) (hpos : Positive count page end_)
    (hlt : page < end_) :
    ∃ s', s.refDown page = .ok (count page == 1, s') ∧ inOrder s' ∧
      Lowered count page (page + 1) s s' := by
  have hpage := hcount.counts page le_rfl hlt
  obtain ⟨hone, hmax⟩ := hpos page le_rfl hlt
  refine ⟨_, ?_, hfree.drop _ _ _ hs hhead hlt (hcount.inUse page le_rfl hlt), lowered_one hpage⟩
  rw [refDown, hpage, ok_bind, if_neg (by rintro (hlt | heq); exacts [by omega, hmax heq])]
  rfl

/-- The page behind the last one whose reference the inner loop drops. -/
def pastDropped (stop end_ : Nat) : Nat := min (stop + 1) end_

/-- Where the inner loop stops, and what it has dropped by then. -/
structure DropsRun (count : Nat → Int) (iter end_ stop : Nat) (events : List FreeEvent)
    (s s' : PageAlloc) : Prop where
  le_stop : iter ≤ stop
  all : ∀ q, iter ≤ q → q < stop → count q = 1
  ends : stop = end_ ∨ stop < end_ ∧ count stop ≠ 1
  drops : droppedPages events = List.range' iter (pastDropped stop end_ - iter)
  frees : freedRuns events = []
  lowered : Lowered count iter (pastDropped stop end_) s s'

/-- **The inner loop.** The induction is on the pages that are left. -/
theorem dropRunTraced_spec (hfree : FreesRuns inOrder head end_) (n : Nat) {iter : Nat}
    (hs : inOrder s) (hhead : head ≤ iter) (hend : iter + n = end_)
    (hcount : Counted count iter end_ s) (hpos : Positive count iter end_) :
    ∃ stop events s', s.dropRunTraced iter n = .ok (stop, events, s') ∧ inOrder s' ∧
      DropsRun count iter end_ stop events s s' := by
  induction n generalizing s iter with
  | zero =>
    obtain rfl : iter = end_ := hend
    have hpast : pastDropped iter iter = iter := by simp [pastDropped]
    refine ⟨iter, [], s, rfl, hs, le_rfl, ?_, .inl rfl, ?_, rfl, ?_⟩
    · omega
    · simp [droppedPages, hpast]
    · rw [hpast]
      exact .refl s
  | succ n ih =>
    have hlt : iter < end_ := by omega
    obtain ⟨s₁, hdown, hs₁, hlow₁⟩ := refDown_lowered hfree hs hhead hcount hpos hlt
    rw [dropRunTraced, hdown, ok_bind]
    by_cases hone : count iter = 1
    · obtain ⟨stop, events, s₂, hrun, hs₂, hdrops⟩ := @ih s₁ (iter + 1) hs₁ (by omega) (by omega)
        (hlow₁.counted hcount (Nat.le_succ _)) (fun q hle hlt => hpos q (by omega) hlt)
      have hstop := hdrops.le_stop
      have hpast : iter + 1 ≤ pastDropped stop end_ := by
        unfold pastDropped
        omega
      refine ⟨stop, .drop iter :: events, s₂, ?_, hs₂, by omega, ?_, hdrops.ends, ?_, hdrops.frees, ?_⟩
      · simp only [hone, beq_self_eq_true, if_true, hrun, ok_bind]
        rfl
      · intro q hle hq
        rcases eq_or_lt_of_le hle with rfl | hlt
        · exact hone
        · exact hdrops.all q hlt hq
      · have hlen : pastDropped stop end_ - iter = (pastDropped stop end_ - (iter + 1)) + 1 := by omega
        rw [hlen, range'_succ, ← hdrops.drops]
        rfl
      · exact hlow₁.trans hdrops.lowered (Nat.le_succ _) hpast
    · have hpast : pastDropped iter end_ = iter + 1 := by
        unfold pastDropped
        omega
      refine ⟨iter, [.drop iter], s₁, ?_, hs₁, le_rfl, ?_, .inr ⟨hlt, hone⟩, ?_, rfl, ?_⟩
      · simp only [beq_eq_false_iff_ne.mpr hone, Bool.false_eq_true, if_false]
        rfl
      · omega
      · rw [hpast, Nat.add_sub_cancel_left]
        rfl
      · rw [hpast]
        exact hlow₁

/-- What the outer loop does from one page on. -/
structure FreesLarge (count : Nat → Int) (first end_ : Nat) (events : List FreeEvent)
    (s s' : PageAlloc) : Prop where
  /-- Every reference is dropped once, from left to right. -/
  drops : droppedPages events = List.range' first (end_ - first)
  /-- The runs given back are those that lost their last reference. -/
  runs : RunsOf (fun q => count q = 1) first end_ (freedRuns events)
  /-- The other pages have one reference less. -/
  counts : ∀ q, first ≤ q → q < end_ → count q ≠ 1 → s'.pageRefcount q = .ok (count q - 1)
  outside : ∀ q, ¬ (first ≤ q ∧ q < end_) → ¬ s.IsFreePage q → s'.pages q = s.pages q

theorem freesLarge_nil (h : end_ ≤ first) (s : PageAlloc) : FreesLarge count first end_ [] s s where
  drops := by simp [droppedPages, Nat.sub_eq_zero_of_le h]
  runs := runsOf_nil h
  counts := fun q hle hlt => by omega
  outside := fun _ _ _ => rfl

/-- The loop has gone past the pages up to `mid`, and may have given some of them back. -/
structure Passed (count : Nat → Int) (first mid : Nat) (s t : PageAlloc) : Prop where
  counts : ∀ q, first ≤ q → q < mid → count q ≠ 1 → t.pageRefcount q = .ok (count q - 1)
  inUse : ∀ q, first ≤ q → q < mid → count q ≠ 1 → ¬ t.IsFreePage q
  outside : ∀ q, ¬ (first ≤ q ∧ q < mid) → ¬ s.IsFreePage q → t.pages q = s.pages q

theorem Lowered.passed (h : Lowered count first mid s s') (hs : Counted count first end_ s)
    (hle : mid ≤ end_) : Passed count first mid s s' where
  counts q hfirst hmid _ := h.counts q hfirst hmid
  inUse q hfirst hmid _ := by
    rw [isFreePage_congr (h.states q)]
    exact hs.inUse q hfirst (by omega)
  outside q hq _ := h.outside q hq

theorem Passed.free (h : Passed count first mid s t)
    (hall : ∀ q, first ≤ q → q < stop → count q = 1) (hle : stop ≤ mid)
    (hframe : ∀ q, ¬ (first ≤ q ∧ q < stop) → ¬ t.IsFreePage q → s'.pages q = t.pages q) :
    Passed count first mid s s' := by
  have hkept (q : Nat) (hfirst : first ≤ q) (hmid : q < mid) (hne : count q ≠ 1) :
      s'.pages q = t.pages q :=
    hframe q (fun hq => hne (hall q hq.1 hq.2)) (h.inUse q hfirst hmid hne)
  refine ⟨?_, ?_, ?_⟩
  · intro q hfirst hmid hne
    rw [pageRefcount_congr (hkept q hfirst hmid hne)]
    exact h.counts q hfirst hmid hne
  · intro q hfirst hmid hne
    rw [isFreePage_congr (congrArg Page.state (hkept q hfirst hmid hne))]
    exact h.inUse q hfirst hmid hne
  · intro q hq hfree
    have hsame := h.outside q hq hfree
    rw [← hsame]
    refine hframe q (by omega) ?_
    rw [isFreePage_congr (congrArg Page.state hsame)]
    exact hfree

theorem Passed.counted (h : Passed count first mid s s') (hs : Counted count first end_ s)
    (hnext : mid ≤ next) (hle : first ≤ next) :
    Counted count next end_ s' := by
  have hsame (q : Nat) (hq : next ≤ q) (hend : q < end_) : s'.pages q = s.pages q :=
    h.outside q (by omega) (hs.inUse q (by omega) hend)
  constructor
  · intro q hq hend
    rw [pageRefcount_congr (hsame q hq hend)]
    exact hs.counts q (by omega) hend
  · intro q hq hend
    rw [isFreePage_congr (congrArg Page.state (hsame q hq hend))]
    exact hs.inUse q (by omega) hend

theorem Passed.then {events rest : List FreeEvent} (h : Passed count first mid s t)
    (hrest : FreesLarge count next end_ rest t s') (hle : first ≤ next)
    (hmid : mid = next ∧ next ≤ end_ ∨ mid = end_ ∧ mid ≤ next)
    (hdrops : droppedPages events = List.range' first (end_ - first))
    (hruns : RunsOf (fun q => count q = 1) first end_ (freedRuns events)) :
    FreesLarge count first end_ events s s' := by
  refine ⟨hdrops, hruns, ?_, ?_⟩
  · intro q hfirst hend hne
    by_cases hq : q < mid
    · rw [pageRefcount_congr (hrest.outside q (by omega) (h.inUse q hfirst hq hne))]
      exact h.counts q hfirst hq hne
    · exact hrest.counts q (by omega) hend hne
  · intro q hq hfree
    have hsame := h.outside q (by omega) hfree
    rw [← hsame]
    refine hrest.outside q (by omega) ?_
    rw [isFreePage_congr (congrArg Page.state hsame)]
    exact hfree

/-- **The outer loop.** The invariant is that the counts of the pages to come are untouched. -/
theorem freeLargeLoopTraced_spec (hfree : FreesRuns inOrder head end_) (fuel : Nat) {page : Nat}
    (hs : inOrder s) (hhead : head ≤ page)
    (hbefore : page < end_ → page = head ∨ ¬ s.IsFreePage (page - 1))
    (hfuel : end_ ≤ page + fuel) (hcount : Counted count page end_ s)
    (hpos : Positive count page end_) :
    ∃ events s', freeLargeLoopTraced end_ fuel s page = .ok (events, s') ∧
      FreesLarge count page end_ events s s' := by
  induction fuel generalizing s page with
  | zero =>
    rw [freeLargeLoopTraced, if_neg (by omega)]
    exact ⟨[], s, rfl, freesLarge_nil hfuel s⟩
  | succ fuel ih =>
    rw [freeLargeLoopTraced]
    split
    case isFalse hend => exact ⟨[], s, rfl, freesLarge_nil (Nat.le_of_not_lt hend) s⟩
    case isTrue hlt =>
      obtain ⟨s₁, hdown, hs₁, hlow₁⟩ := refDown_lowered hfree hs hhead hcount hpos hlt
      have hcount₁ := hlow₁.counted hcount (Nat.le_succ _)
      rw [hdown, ok_bind]
      by_cases hone : count page = 1
      · -- a run begins here; the page that ends it is passed as well
        obtain ⟨stop, drops, s₂, hrun, hs₂, hdrops⟩ := dropRunTraced_spec hfree (end_ - (page + 1)) hs₁
          (by omega) (by omega) hcount₁ (fun q hle hlt => hpos q (by omega) hlt)
        have hstop := hdrops.le_stop
        have hpast : page + 1 ≤ pastDropped stop end_ ∧ stop ≤ pastDropped stop end_ ∧
            pastDropped stop end_ ≤ end_ ∧
            (pastDropped stop end_ = stop + 1 ∧ stop + 1 ≤ end_ ∨
              pastDropped stop end_ = end_ ∧ pastDropped stop end_ ≤ stop + 1) := by
          have hends := hdrops.ends
          unfold pastDropped
          omega
        obtain ⟨hpage, hstop', hend, hmid⟩ := hpast
        have hall : ∀ q, page ≤ q → q < stop → count q = 1 := by
          intro q hle hq
          rcases eq_or_lt_of_le hle with rfl | hlt
          · exact hone
          · exact hdrops.all q hlt hq
        have hlow₂ := hlow₁.trans hdrops.lowered (Nat.le_succ _) hpage
        have hto : page + (stop - page) = stop := by omega
        -- dropping references leaves the states, so the run and its neighbours are in use still
        have hused : ∀ q, page ≤ q → q < end_ → ¬ s₂.IsFreePage q := by
          intro q hle hq
          rw [isFreePage_congr (hlow₂.states q)]
          exact hcount.inUse q hle hq
        obtain ⟨s₃, hgive, hs₃, hframe⟩ := hfree.free s₂ page (stop - page) hs₂ (by omega) hhead
          (by omega) (fun q hle hq => hused q hle (by omega))
          (by rw [isFreePage_congr (hlow₂.states _)]; exact hbefore hlt)
          (by
            rw [hto]
            exact hdrops.ends.imp_right fun hends => hused stop (by omega) hends.1)
        rw [hto] at hframe
        have hpassed := (hlow₂.passed hcount hend).free hall hstop' hframe
        obtain ⟨events, s₄, hrest, hfrees⟩ := @ih s₃ (stop + 1) hs₃ (by omega)
          (by
            intro hmore
            have hkept := hdrops.ends.resolve_left (by omega)
            exact .inr (hpassed.inUse stop (by omega) (by omega) hkept.2))
          (by omega) (hpassed.counted hcount (by omega) (by omega)) (fun q hle hlt => hpos q (by omega) hlt)
        refine ⟨.drop page :: drops ++ .free page (stop - page) :: events, s₄, ?_,
          hpassed.then hfrees (by omega) hmid ?_ ?_⟩
        · simp only [hone, beq_self_eq_true, if_true, hrun, hgive, hrest, ok_bind]
          rfl
        · have hlen : end_ - page = (pastDropped stop end_ - (page + 1) + 1) + (end_ - (stop + 1)) := by
            omega
          have hnext : range' (stop + 1) (end_ - (stop + 1)) =
              range' (page + (pastDropped stop end_ - (page + 1) + 1)) (end_ - (stop + 1)) := by
            rcases hmid with ⟨hmid, -⟩ | ⟨hend, hmid⟩
            · congr 1
              omega
            · rw [Nat.sub_eq_zero_of_le (by omega : end_ ≤ stop + 1)]
              rfl
          have hevents : droppedPages (.drop page :: drops ++ .free page (stop - page) :: events) =
              page :: droppedPages drops ++ droppedPages events := filterMap_append
          rw [hevents, hdrops.drops, hfrees.drops, hnext, ← range'_succ, range'_append_1, hlen]
        · have hevents : freedRuns (.drop page :: drops ++ .free page (stop - page) :: events) =
              freedRuns drops ++ (page, stop - page) :: freedRuns events := filterMap_append
          rw [hevents, hdrops.frees]
          exact hfrees.runs.cons (by omega) hall hdrops.ends
      · obtain ⟨events, s₂, hrest, hfrees⟩ := @ih s₁ (page + 1) hs₁ (by omega)
          (by
            intro _
            rw [isFreePage_congr (hlow₁.states _)]
            exact .inr (hcount.inUse page le_rfl hlt))
          (by omega) hcount₁ (fun q hle hlt => hpos q (by omega) hlt)
        refine ⟨.drop page :: events, s₂, ?_,
          (hlow₁.passed hcount hlt).then hfrees (Nat.le_succ _) (.inl ⟨rfl, hlt⟩) ?_ ?_⟩
        · simp only [beq_eq_false_iff_ne.mpr hone, Bool.false_eq_true, if_false, hrest, ok_bind]
          rfl
        · have hlen : end_ - page = (end_ - (page + 1)) + 1 := by omega
          rw [hlen, range'_succ, ← hfrees.drops]
          rfl
        · exact (runsOf_succ_iff (.inr hone)).mp hfrees.runs

/-- The pages of a large page, each with a count that may be counted down. -/
structure LargePage (s : PageAlloc) (count : Nat → Int) (head order level : Nat) : Prop where
  state : (s.pages head).state = .largeHead
  data : ∃ refcount, (s.pages head).data = .largeHead (count head) refcount level
  counted : Counted count head (head + 2 ^ order) s
  positive : Positive count head (head + 2 ^ order)

/--
**`free_large_page`** drops every reference once, and gives back the maximal runs of pages that
had only that one.
-/
theorem freeLargePage_frees_runs {inOrder : PageAlloc → Prop} {levelOrder : Nat → Nat}
    {head level : Nat} (hfree : FreesRuns inOrder head (head + 2 ^ levelOrder level))
    (hs : inOrder s) (hlarge : LargePage s count head (levelOrder level) level) :
    ∃ events s', s.freeLargePageTraced levelOrder head = .ok (events, s') ∧
      s.freeLargePage levelOrder head = .ok s' ∧
      FreesLarge count head (head + 2 ^ levelOrder level) events s s' := by
  obtain ⟨refcount, hdata⟩ := hlarge.data
  obtain ⟨events, s', hrun, hfrees⟩ := freeLargeLoopTraced_spec hfree _ hs le_rfl
    (fun _ => .inl rfl) le_rfl hlarge.counted hlarge.positive
  have htraced : s.freeLargePageTraced levelOrder head = .ok (events, s') := by
    unfold freeLargePageTraced
    rw [if_neg (not_not_intro hlarge.state), hdata]
    exact hrun
  refine ⟨events, s', htraced, ?_, hfrees⟩
  rw [freeLargePage_eq, htraced]
  rfl

/-! ## A large page with nothing free beside it -/

/--
A large page of a section, from `head` up to `end_`, in an allocator that is in order. The pages
on either side of it are not free, so nothing is merged.
-/
structure Enclosed (sec head end_ : Nat) (s : PageAlloc) : Prop where
  sound : Sound s
  section_ : sec < s.sectionCount
  inside : Set.Ico head end_ ⊆ s.sectionPages sec
  prev : PrevUsed s sec head
  next : NextUsed s end_

theorem Sound.isFreePage (hs : Sound s) (hq : q ∈ s.freeSet) : s.IsFreePage q := by
  obtain ⟨b, hb, hin⟩ := mem_freeSet.mp hq
  rw [Block.mem_pages] at hin
  by_cases hhead : q = b.page
  · rw [hhead]
    exact .inl (hs.marked b hb).headState
  · exact .inr ((hs.marked b hb).tailState q (by omega) hin.2)

theorem Enclosed.of_kept (h : Enclosed sec head end_ s) (hs' : Sound s') (hsame : SameLayout s s')
    (hstates : ∀ q, ¬ (head ≤ q ∧ q < end_) → (s'.pages q).state = (s.pages q).state)
    (hle : head < end_) : Enclosed sec head end_ s' := by
  refine ⟨hs', ?_, ?_, ?_, ?_⟩
  · rw [hsame.sectionCount]
    exact h.section_
  · rw [hsame.sectionPages]
    exact h.inside
  · have hpfn := (h.inside ⟨le_rfl, hle⟩).1
    rcases h.prev with heq | hused
    · exact .inl (heq.trans (hsame.pfn sec).symm)
    · by_cases hzero : head = 0
      · exact .inl (by rw [hsame.pfn]; omega)
      · refine .inr ?_
        rw [hstates _ (by omega)]
        exact hused
  · unfold NextUsed
    rw [hsame.pageEnd, hstates _ (by omega)]
    exact h.next

theorem setPageRefcount_pagesOnly (s : PageAlloc) (page : Nat) (c : Int) :
    PagesOnly s (s.setPageRefcount page c) {page} := by
  unfold setPageRefcount
  split
  case h_5 => exact ⟨rfl, fun _ _ => rfl, fun _ => rfl⟩
  all_goals exact pagesOnly_modifyPage s page _ (fun _ => rfl) (Set.mem_singleton page)

/-- **Beside pages in use `free_amount_of_pages` does what is assumed of it.** -/
theorem freesRuns_enclosed (sec head end_ : Nat) :
    FreesRuns (Enclosed sec head end_) head end_ where
  drop s page c hs hhead hend hused := by
    have hpages := setPageRefcount_pagesOnly s page c
    have hfree : Disjoint {page} s.freeSet :=
      Set.disjoint_singleton_left.mpr fun hmem => hused (hs.sound.isFreePage hmem)
    refine hs.of_kept (hpages.quiet.sound hs.sound hfree) hpages.quiet.same ?_ (by omega)
    intro q hq
    rw [setPageRefcount_of_ne s c (by omega)]
  free s page amount hs hpos hhead hend hused hbefore hbehind := by
    have hin : Set.Ico page (page + amount) ⊆ s.sectionPages sec :=
      (Set.Ico_subset_Ico hhead hend).trans hs.inside
    have hfree : Disjoint (Set.Ico page (page + amount)) s.freeSet :=
      Set.disjoint_left.mpr fun q hq hmem => hused q hq.1 hq.2 (hs.sound.isFreePage hmem)
    obtain ⟨s', hrun, hfreed⟩ := freeRangeOfPages_freed hs.sound hs.section_ hpos hin hfree
    have hlast : page + amount - 1 < s.pageEnd :=
      hs.sound.layout.covered sec hs.section_ _ (hin ⟨by omega, by omega⟩)
    have haddr := hs.sound.layout.addressable
    have hsect := hs.sound.layout.pageSect sec hs.section_ page (hin ⟨le_rfl, by omega⟩)
    have hprev : PrevUsed s sec page := by
      rcases hbefore with rfl | hkept
      · exact hs.prev
      · exact .inr ⟨fun h => hkept (.inr h), fun h => hkept (.inl h)⟩
    have hnext : NextUsed s (page + amount) := by
      rcases hbehind with heq | hkept
      · rw [heq]
        exact hs.next
      · exact fun h => hkept (.inl h.2)
    refine ⟨s', ?_, hs.of_kept hfreed.sound hfreed.same ?_ (by omega), ?_⟩
    · rw [freeAmountOfPages_unmerged hsect (by omega) hprev hnext, hrun]
    · intro q hq
      rw [hfreed.pages q (by rw [Set.mem_Ico]; omega)]
    · intro q hq _
      exact hfreed.pages q hq

/-! ## A large page of four -/

/-- The pages 4 to 7 of a machine of eight are a large page. -/
def fourPages (count : Nat → Int) : PageAlloc :=
  { bare 8 with
    pages := fun q =>
      if q = 4 then ⟨.largeHead, 0, .largeHead (count q) 1 2⟩
      else if 4 < q ∧ q < 8 then ⟨.largeTail, 0, .largeTail (count q) 4⟩
      else (bare 8).pages q }

theorem fourPages_large {count : Nat → Int} (hpos : Positive count 4 8) :
    LargePage (fourPages count) count 4 2 2 := by
  have hpages (q : Nat) (hle : 4 ≤ q) (hlt : q < 8) :
      (fourPages count).pageRefcount q = .ok (count q) ∧ ¬ (fourPages count).IsFreePage q := by
    by_cases hq : q = 4
    · simp [fourPages, pageRefcount, IsFreePage, hq]
    · have hin : 4 < q := by omega
      simp [fourPages, pageRefcount, IsFreePage, hq, hin, hlt]
  exact ⟨rfl, ⟨1, rfl⟩, ⟨fun q hle hlt => (hpages q hle hlt).1, fun q hle hlt => (hpages q hle hlt).2⟩,
    hpos⟩

theorem fourPages_enclosed (count : Nat → Int) : Enclosed 0 4 8 (fourPages count) := by
  have hpages : PagesOnly (bare 8) (fourPages count) (Set.Ico 4 8) := by
    refine ⟨rfl, ?_, ?_⟩
    · intro q hq
      rw [Set.mem_Ico] at hq
      simp only [fourPages]
      rw [if_neg (by omega), if_neg (by omega)]
    · intro q
      simp only [fourPages]
      split
      · rfl
      · split <;> rfl
  refine ⟨hpages.quiet.sound (bare_wellFormed (by decide)).toSound ?_, one_pos, ?_, ?_, ?_⟩
  · rw [bare_freeSet]
    exact Set.disjoint_empty _
  · rw [hpages.quiet.same.sectionPages, bare_sectionPages]
    exact Set.Ico_subset_Ico_left (by decide)
  · exact .inr ⟨fun h => PageState.noConfusion h, fun h => PageState.noConfusion h⟩
  · exact fun h => absurd h.1 (lt_irrefl 8)

/-- Only the second page is kept, and the others are given back in two runs. -/
theorem freeLargePage_frees_runs_four :
    ∃ events s',
      (fourPages fun q => if q = 5 then 2 else 1).freeLargePageTraced id 4 = .ok (events, s') ∧
      (fourPages fun q => if q = 5 then 2 else 1).freeLargePage id 4 = .ok s' ∧
      FreesLarge (fun q => if q = 5 then 2 else 1) 4 8 events
        (fourPages fun q => if q = 5 then 2 else 1) s' := by
  have hpos : Positive (fun q => if q = 5 then 2 else 1) 4 8 := by
    intro q _ _
    dsimp only
    split <;> exact ⟨by decide, by decide⟩
  have hlarge : LargePage (fourPages fun q => if q = 5 then 2 else 1)
      (fun q => if q = 5 then 2 else 1) 4 (id 2) 2 := fourPages_large hpos
  exact freeLargePage_frees_runs (freesRuns_enclosed 0 4 8) (fourPages_enclosed _) hlarge

/-- **A count that has reached the maximum** is positive, and `ref_down` panics. -/
theorem freeLargePage_panics :
    (∀ q, 1 ≤ (if q = 5 then REFCOUNT_MAX else 1)) ∧
    (fourPages fun q => if q = 5 then REFCOUNT_MAX else 1).freeLargePage id 4 = .error .panic := by
  refine ⟨fun q => ?_, rfl⟩
  split <;> decide

end OsKernel.Mm.PageAlloc
