import OsKernel.Mm.AllocRuns
import OsKernel.Mm.Pageop

/-!
# The pages that a pageop frees

A page whose last reference goes away is queued, and some later `pageop_finish` has to
free it: once, and without asking it for a link afterwards, since by then its links belong
to the allocator.

`tlb_flush_pageop` does this. It reads the next page first, takes the page off the list and
only then frees it. `free_all_pages` frees the page where it is, asks it for the next one
and leaves all of them on the list. So a run is safe as long as the first one comes before
the second whenever there is something to free: when the flush range is not empty and the
pagemap is the one in use.

The counts say that no page is queued twice, for a page on the list has no references left.

What is needed of `free_page` is carried by a structure. The allocator's own one is shown to
have it for pages behind a free block, where it takes this block off its list and frees it again.
-/

namespace OsKernel.Mm.Pageop

open Adt (Range)
open Effect LinkedRing List Keeps

variable {call : Call} {calls : List Call} {rest : List Nat} {log : List PageopEvent}
  {event : PageopEvent}

/-! ## Reading the log -/

/-- The pages that were queued, in order. -/
def queuedPages (log : List PageopEvent) : List Nat :=
  log.filterMap fun event => match event with
    | .queue page => some page
    | _ => none

/-- The pages that were freed, in order. -/
def freedPages (log : List PageopEvent) : List Nat :=
  log.filterMap fun event => match event with
    | .free page => some page
    | _ => none

/-- The page was freed, and has not been queued since. -/
def isFreed (page : Nat) (log : List PageopEvent) : Bool :=
  log.foldl (fun freed event => match event with
    | .free other => freed || other == page
    | .queue other => freed && other != page
    | _ => freed) false

/-- No link of a page is read once the page has been freed. -/
def CleanReads (log : List PageopEvent) : Prop :=
  ∀ before page, before ++ [.read page] <+: log → isFreed page before = false

theorem CleanReads.of_isPrefix {log' : List PageopEvent} (h : CleanReads log')
    (hlog : log <+: log') : CleanReads log :=
  fun before page hread => h before page (hread.trans hlog)

theorem CleanReads.concat (h : CleanReads log)
    (hread : ∀ page, event = .read page → isFreed page log = false) :
    CleanReads (log ++ [event]) := by
  intro before page hbefore
  rcases prefix_concat_iff.mp hbefore with heq | hbefore
  · obtain ⟨rfl, hevent⟩ := append_inj' heq rfl
    exact hread page (singleton_inj.mp hevent).symm
  · exact h before page hbefore

theorem not_cleanReads {page : Nat} :
    ¬ CleanReads (log ++ [.free page] ++ [.read page]) := by
  intro h
  have hfreed := h (log ++ [.free page]) page (prefix_refl _)
  simp [isFreed] at hfreed

/-! ## The list between the calls -/

/-- The count that decides about a page. -/
def lastCount (s : PageStructs) (page : Nat) : Int :=
  if s.state page = .largeHead then s.largeRefcount page else s.refcount page

/-- What is on the list stays as it is. -/
structure SameFor (pending : List Nat) (a b : PageStructs) : Prop where
  list : ∀ elem ∈ ListPtr.head :: pending.map .node, a.list elem = b.list elem
  count : ∀ page ∈ pending, lastCount a page = lastCount b page

/--
A `free_page`, with pages that it works for while the allocator is in order. It may write to the
page and to whatever the allocator owns. The other pages on the list are not among these.
-/
structure FreePage where
  free : Nat → PageStructs → Result PageStructs
  pages : Set Nat
  inOrder : PageAlloc → Prop
  returns : ∀ structs {page}, page ∈ pages → inOrder structs.alloc →
    ∃ structs', free page structs = .ok structs' ∧ inOrder structs'.alloc
  leaves : ∀ structs {structs' page pending}, page ∈ pages → inOrder structs.alloc →
    free page structs = .ok structs' → IsRing structs.list .head (pending.map .node) →
    page ∉ pending → (∀ other ∈ pending, other ∈ pages) → SameFor pending structs' structs

/-- The pages on the list, what is known of them, and what the log says so far. -/
structure Tidy (f : FreePage) (s : Pageop) (pending : List Nat) : Prop where
  ring : IsRing s.list .head (pending.map .node)
  pages : ∀ page ∈ pending, page ∈ f.pages
  inOrder : f.inOrder s.alloc
  dead : ∀ page ∈ pending, lastCount s.toPageStructs page = 0
  inUse : ∀ page ∈ pending, isFreed page s.log = false
  reads : CleanReads s.log
  /-- What was queued has been freed, or is on the list. -/
  balance : (freedPages s.log ++ pending).Perm (queuedPages s.log)

/-- Only checks of the code itself stop a run, and no link was read too late until then. -/
def Halted (e : Fault) (s : Pageop) : Prop := e = .panic ∧ CleanReads s.log

variable {f : FreePage} {s : Pageop} {pending : List Nat} {page : Nat}

section

variable (h : Tidy f s pending)
include h

theorem Tidy.nodup : pending.Nodup :=
  List.Nodup.of_map _ (nodup_cons.mp h.ring.nodup).2

theorem Tidy.congr {s' : Pageop} (hstructs : s'.toPageStructs = s.toPageStructs)
    (hlog : s'.log = s.log) : Tidy f s' pending := by
  refine ⟨?_, h.pages, ?_, ?_, ?_, ?_, ?_⟩
  · rw [hstructs]
    exact h.ring
  · rw [hstructs]
    exact h.inOrder
  · rw [hstructs]
    exact h.dead
  · rw [hlog]
    exact h.inUse
  · rw [hlog]
    exact h.reads
  · rw [hlog]
    exact h.balance

theorem Tidy.record (hevent : ∃ range, event = .named range ∨ event = .finish range) :
    Tidy f { s with log := s.log ++ [event] } pending := by
  obtain ⟨range, rfl | rfl⟩ := hevent
  · refine ⟨h.ring, h.pages, h.inOrder, h.dead, ?_, h.reads.concat (by simp), ?_⟩
    · simpa [isFreed] using h.inUse
    · simpa [freedPages, queuedPages] using h.balance
  · refine ⟨h.ring, h.pages, h.inOrder, h.dead, ?_, h.reads.concat (by simp), ?_⟩
    · simpa [isFreed] using h.inUse
    · simpa [freedPages, queuedPages] using h.balance

theorem Tidy.record_read (hpage : page ∈ pending) :
    Tidy f { s with log := s.log ++ [.read page] } pending := by
  refine ⟨h.ring, h.pages, h.inOrder, h.dead, ?_, h.reads.concat ?_, ?_⟩
  · simpa [isFreed] using h.inUse
  · intro other hother
    cases hother
    exact h.inUse page hpage
  · simpa [freedPages, queuedPages] using h.balance

/-! ## Finishing -/

theorem Tidy.next_head_iff :
    (s.list .head).next = some .head ↔ pending = [] := by
  rw [h.ring.way.next_eq]
  cases pending <;> simp

/-- The first of some pages, or the head where there is none. -/
def first : List Nat → ListPtr
  | [] => .head
  | page :: _ => .node page

theorem listNext_head : listNext .head s = (.ok (first pending), s) := by
  rw [listNext, readNext_ok h.ring.way.next_eq]
  cases pending <;> rfl

theorem listNext_first :
    ∃ s', listNext (first pending) s = (.ok (first pending.tail), s') ∧ Tidy f s' pending := by
  cases pending with
  | nil => exact ⟨s, listNext_head h, h⟩
  | cons page rest =>
    have hread := h.record_read mem_cons_self
    refine ⟨_, ?_, hread⟩
    rw [first, listNext, bind_of_ok (record_run _ s), readNext_ok hread.ring.way.2.next_eq]
    cases rest <;> rfl

end

variable {fuel : Nat}

theorem Tidy.freeFirst {list : ListPtr → RingLinks ListPtr} (h : Tidy f s (page :: rest))
    (hring : IsRing list .head (rest.map .node)) :
    ∃ structs, f.free page { s.toPageStructs with list := list } = .ok structs ∧
      Tidy f { s with toPageStructs := structs, log := s.log ++ [.free page] } rest := by
  obtain ⟨hpage, -⟩ := nodup_cons.mp h.nodup
  have hrest : ∀ other ∈ rest, other ∈ f.pages := fun other hother => h.pages other (.tail _ hother)
  have hmem := h.pages page mem_cons_self
  obtain ⟨structs, hfree, horder⟩ :=
    f.returns { s.toPageStructs with list := list } hmem h.inOrder
  have hsame := f.leaves { s.toPageStructs with list := list } hmem h.inOrder hfree hring hpage hrest
  refine ⟨structs, hfree, IsRing.congr hring hsame.list, hrest, horder, ?_, ?_,
    h.reads.concat (by simp), ?_⟩
  · intro other hother
    exact (hsame.count other hother).trans (h.dead other (.tail _ hother))
  · intro other hother
    have hne : page ≠ other := fun heq => hpage (heq ▸ hother)
    have huse := h.inUse other (.tail _ hother)
    simpa [isFreed, hne] using huse
  · simpa [freedPages, queuedPages] using h.balance

/-- **`tlb_flush_pageop` frees all there is.** The induction is on the list. -/
theorem flushFrom_tidy :
    ∀ {pending : List Nat} {fuel : Nat} {s : Pageop}, Tidy f s pending → pending.length < fuel →
      ∃ s', flushFrom f.free fuel (first pending) (first pending.tail) s = (.ok (), s') ∧ Tidy f s' []
  | [], fuel + 1, s, h, _ => ⟨s, rfl, h⟩
  | page :: rest, fuel + 1, s, h, hfuel => by
    have hread := h.record_read mem_cons_self
    obtain ⟨list, hdelete, hring, -⟩ := listDelete_ring (A := []) hread.ring
    -- off the list, freed, and on to the page that was read before
    obtain ⟨structs, hfree, htidy⟩ := hread.freeFirst hring
    obtain ⟨s₁, hnext, htidy₁⟩ := listNext_first htidy
    obtain ⟨s₂, hrest, htidy₂⟩ := flushFrom_tidy htidy₁ (Nat.lt_of_succ_lt_succ hfuel)
    refine ⟨s₂, ?_, htidy₂⟩
    rw [first, flushFrom, bind_of_ok (record_run _ s), bind_of_ok (changeLinks_ok hdelete),
      bind_of_ok (freePage_run hfree)]
    exact (bind_of_ok hnext).trans hrest

theorem tlbFlushPageop_tidy (h : Tidy f s pending)
    (hfuel : pending.length < fuel) :
    Ends (fun _ s' => Tidy f s' []) Halted (tlbFlushPageop f.free fuel s) := by
  unfold tlbFlushPageop
  by_cases hfits : s.flushRange.end_ < U64
  · rw [Range.getEndAssert_eq hfits, lift_ok_bind, bind_of_ok (listNext_head h)]
    obtain ⟨s₁, hnext, htidy₁⟩ := listNext_first h
    obtain ⟨s₂, hflush, htidy₂⟩ := flushFrom_tidy htidy₁ hfuel
    rw [bind_of_ok hnext, hflush]
    exact .ok htidy₂
  · rw [Range.getEndAssert_panic hfits]
    exact .error ⟨rfl, h.reads⟩

/-- The pages on the list go through `tlb_flush_pageop`, if there are any. -/
def FlushesPages (s : Pageop) : Prop :=
  (s.list .head).next = some .head ∨ s.flushRange.size ≠ 0 ∧ s.isCurrent = true

theorem flushIfCurrent_tidy (h : Tidy f s pending)
    (hfuel : pending.length < fuel) (hflush : pending = [] ∨ s.isCurrent = true) :
    Ends (fun _ s' => Tidy f s' []) Halted (flushIfCurrent f.free fuel s) := by
  unfold flushIfCurrent
  cases hcurrent : s.isCurrent with
  | true =>
    exact tlbFlushPageop_tidy h hfuel
  | false =>
    rw [hcurrent] at hflush
    rcases hflush with rfl | hfalse
    · exact .ok h
    · cases hfalse

/-- **A finish that flushes the pages** leaves none. -/
theorem pageopFinish_tidy (h : Tidy f s pending)
    (hfuel : pending.length < fuel) (hflush : FlushesPages s) :
    Ends (fun _ s' => Tidy f s' []) Halted (pageopFinish f.free fuel s) := by
  have hrecord := h.record ⟨s.flushRange, .inr rfl⟩
  rw [FlushesPages, h.next_head_iff] at hflush
  unfold pageopFinish
  rw [bind_of_ok (record_run _ s)]
  split
  · rename_i hsize
    rcases hflush with rfl | ⟨hne, -⟩
    · rw [freeAllPages_empty f.free (hrecord.next_head_iff.mpr rfl) (by omega)]
      exact .ok hrecord
    · exact absurd hsize hne
  · have hcurrent : pending = [] ∨ s.isCurrent = true := hflush.imp_right And.right
    refine (flushIfCurrent_tidy hrecord hfuel hcurrent).bind fun _ s₁ htidy₁ => ?_
    rw [bind_of_ok (freeAllPages_empty f.free (htidy₁.next_head_iff.mpr rfl) (by omega))]
    exact .ok (htidy₁.congr rfl rfl)

/-! ## Queueing -/

/-- A page that has no references left is not on the list, and goes in front. -/
theorem queueIf_tidy {last : Bool} (hqueue : page ∈ f.pages) (h : Tidy f s pending)
    (hpage : page ∉ pending) (hlast : last = true → lastCount s.toPageStructs page = 0) :
    Ends (fun _ s' => ∃ pending', Tidy f s' pending' ∧ pending'.length ≤ pending.length + 1) Halted
      (queueIf page last s) := by
  cases last with
  | false => exact .ok ⟨pending, h, Nat.le_succ _⟩
  | true =>
    have hnode : ListPtr.node page ∉ ListPtr.head :: ([] ++ pending.map .node) := by
      simpa using hpage
    obtain ⟨list, hadd, hring, -⟩ := listAdd_ring (A := []) h.ring hnode
    have hlinks := changeLinks_ok (s := { s with log := s.log ++ [.queue page] })
      (f := fun list => listAdd list .head (.node page)) hadd
    rw [queueIf, if_pos rfl, bind_of_ok (record_run _ s), hlinks]
    refine .ok ⟨page :: pending, ⟨hring, ?_, h.inOrder, ?_, ?_, h.reads.concat (by simp), ?_⟩, le_rfl⟩
    · intro other hother
      rcases mem_cons.mp hother with rfl | hother
      · exact hqueue
      · exact h.pages other hother
    · intro other hother
      rcases mem_cons.mp hother with rfl | hother
      · exact hlast rfl
      · exact h.dead other hother
    · intro other hother
      rcases mem_cons.mp hother with rfl | hother
      · simp [isFreed]
      · have huse := h.inUse other hother
        rw [isFreed] at huse ⊢
        rw [foldl_append, huse]
        rfl
    · have hmiddle : (freedPages s.log ++ page :: pending).Perm (page :: (freedPages s.log ++ pending)) :=
        perm_middle
      have hback : (page :: queuedPages s.log).Perm (queuedPages s.log ++ [page]) :=
        (perm_append_singleton page _).symm
      simpa [freedPages, queuedPages] using (hmiddle.trans (h.balance.cons page)).trans hback

theorem countDown_cases (old : Int) :
    countDown old = (old - 1, .error .panic) ∨ countDown old = (old - 1, .ok (old == 1)) ∧ 1 ≤ old := by
  unfold countDown
  split
  · exact .inl rfl
  · refine .inr ⟨rfl, ?_⟩
    omega

/-- What a `ref_down` that returns has found. -/
def CountedDown (f : FreePage) (page : Nat) (pending : List Nat) (last : Bool) (s : Pageop) : Prop :=
  Tidy f s pending ∧ page ∉ pending ∧ (last = true → lastCount s.toPageStructs page = 0)

/-- The count of a page that is not on the list is of no concern to those on it. -/
theorem Tidy.recount {structs : PageStructs} (h : Tidy f s pending) (hlist : structs.list = s.list)
    (halloc : structs.alloc = s.alloc)
    (hcount : ∀ other ∈ pending, lastCount structs other = lastCount s.toPageStructs other) :
    Tidy f { s with toPageStructs := structs } pending := by
  refine ⟨?_, h.pages, ?_, ?_, h.inUse, h.reads, h.balance⟩
  · rw [hlist]
    exact h.ring
  · rw [halloc]
    exact h.inOrder
  · intro other hother
    exact (hcount other hother).trans (h.dead other hother)

/-- A count that may be counted down is that of a page that is not on the list. -/
theorem Tidy.countDown {structs : PageStructs} {old : Int} (h : Tidy f s pending)
    (hlist : structs.list = s.list) (halloc : structs.alloc = s.alloc)
    (hold : lastCount s.toPageStructs page = old)
    (hnew : lastCount structs page = old - 1)
    (hother : ∀ other, other ≠ page → lastCount structs other = lastCount s.toPageStructs other) :
    Ends (CountedDown f page pending) Halted
      ((Pageop.countDown old).2, { s with toPageStructs := structs }) := by
  rcases countDown_cases old with hpanic | ⟨hok, hpos⟩
  · rw [hpanic]
    exact .error ⟨rfl, h.reads⟩
  · rw [hok]
    have hpage : page ∉ pending := by
      intro hmem
      have hdead := h.dead page hmem
      omega
    refine .ok ⟨h.recount hlist halloc fun other hmem => ?_, hpage, ?_⟩
    · exact hother other fun heq => hpage (heq ▸ hmem)
    · intro hlast
      have hone : old = 1 := by simpa using hlast
      simp only [hnew, hone, sub_self]

theorem refDown_tidy (h : Tidy f s pending) (hstate : s.state page ≠ .largeHead) :
    Ends (CountedDown f page pending) Halted (refDown page s) :=
  h.countDown rfl rfl (if_neg hstate) (if_neg hstate |>.trans (Function.update_self ..))
    fun other hne => by
      simp only [lastCount, Function.update_of_ne hne]
      rfl

theorem refDownLarge_tidy (h : Tidy f s pending) (hstate : s.state page = .largeHead) :
    Ends (CountedDown f page pending) Halted (refDownLarge page s) :=
  h.countDown rfl rfl (if_pos hstate) (if_pos hstate |>.trans (Function.update_self ..))
    fun other hne => by
      simp only [lastCount, Function.update_of_ne hne]
      rfl

/-- The list may have become longer, by so many pages. -/
def Grown (f : FreePage) (pending : List Nat) (count : Nat) (s : Pageop) : Prop :=
  ∃ pending', Tidy f s pending' ∧ pending'.length ≤ pending.length + count

theorem derefPage_tidy (hqueue : page ∈ f.pages) (h : Tidy f s pending) :
    Ends (fun _ => Grown f pending 1) Halted (derefPage page s) := by
  unfold derefPage
  split
  · exact .error ⟨rfl, h.reads⟩
  · rename_i hstate
    exact (refDown_tidy h hstate).bind fun last s' hs' => queueIf_tidy hqueue hs'.1 hs'.2.1 hs'.2.2

theorem derefPages_tidy (count : Nat) (hqueue : Set.Ico page (page + count) ⊆ f.pages)
    (h : Tidy f s pending) :
    Ends (fun _ => Grown f pending count) Halted (derefPages page count s) := by
  induction count generalizing page s pending with
  | zero => exact .ok ⟨pending, h, le_rfl⟩
  | succ count ih =>
    have hpage : page ∈ f.pages := hqueue ⟨le_rfl, by omega⟩
    have hrest : Set.Ico (page + 1) (page + 1 + count) ⊆ f.pages :=
      fun q hq => hqueue ⟨by have := hq.1; omega, by have := hq.2; omega⟩
    refine (derefPage_tidy hpage h).bind fun _ s' ⟨pending', htidy, hlen⟩ => ?_
    refine (ih hrest htidy).mono (fun _ s'' ⟨pending'', htidy', hlen'⟩ => ?_) fun _ _ h => h
    exact ⟨pending'', htidy', by omega⟩

theorem derefLargePage_tidy (order : Nat) (hqueue : Set.Ico page (page + 2 ^ order) ⊆ f.pages)
    (h : Tidy f s pending) :
    Ends (fun _ => Grown f pending (2 ^ order)) Halted (derefLargePage page order s) := by
  unfold derefLargePage
  split
  · rename_i hstate
    refine (refDownLarge_tidy h hstate).bind fun last s' hs' => ?_
    have hpage : page ∈ f.pages := hqueue ⟨le_rfl, Nat.lt_add_of_pos_right (Nat.two_pow_pos order)⟩
    refine (queueIf_tidy hpage hs'.1 hs'.2.1 hs'.2.2).mono
      (fun _ s'' ⟨pending', htidy, hlen⟩ => ?_) fun _ _ h => h
    exact ⟨pending', htidy, hlen.trans (Nat.add_le_add_left Nat.one_le_two_pow _)⟩
  · exact derefPages_tidy (2 ^ order) hqueue h

theorem flushEntry_tidy (shouldFreePages : Bool) (hqueue : page ∈ f.pages) (h : Tidy f s pending) :
    Ends (fun _ => Grown f pending 1) Halted
      (flushEntry page (s.state page = .largeHead) shouldFreePages s) := by
  have hdown : Ends (CountedDown f page pending) Halted
      ((if decide (s.state page = .largeHead) = true then refDownLarge page else refDown page) s) := by
    by_cases hstate : s.state page = .largeHead
    · rw [if_pos (decide_eq_true hstate)]
      exact refDownLarge_tidy h hstate
    · rw [if_neg (by simpa using hstate)]
      exact refDown_tidy h hstate
  refine hdown.bind fun last s' hs' => queueIf_tidy hqueue hs'.1 hs'.2.1 ?_
  intro hlast
  exact hs'.2.2 (Bool.and_eq_true_iff.mp hlast).1

/-! ## Calls -/

/-- Whether a call comes to `pageop_finish`. -/
def Call.finishes (s : Pageop) : Call → Bool
  | .setupForAddress virt => (extendForAddress s.flushRange virt).isNone
  | .setupForRange virt => (extendForRange s.flushRange virt).isNone
  | .finish => true
  | _ => false

/-- A call that comes to `pageop_finish` flushes the pages there. -/
def Call.Flushes (s : Pageop) (call : Call) : Prop := call.finishes s = true → FlushesPages s

/-- How many pages a call may queue. -/
def Call.weight : Call → Nat
  | .derefPage _ => 1
  | .derefLargePage _ order => 2 ^ order
  | .flushEntry _ _ => 1
  | _ => 0

/-- The pages that a call may queue. -/
def Call.pages : Call → Set Nat
  | .derefPage page => {page}
  | .derefLargePage page order => Set.Ico page (page + 2 ^ order)
  | .flushEntry page _ => {page}
  | _ => ∅

section

variable (h : Tidy f s pending) (hfuel : pending.length < fuel)
include h hfuel

theorem setup_tidy {extended : Option Range} {virt : Range}
    (hflush : extended.isNone = true → FlushesPages s) :
    Ends (fun _ => Grown f pending 0) Halted
      ((setup f.free fuel extended virt >>= fun _ => record (.named virt)) s) := by
  have hsetup : Ends (fun _ => Grown f pending 0) Halted (setup f.free fuel extended virt s) := by
    cases extended with
    | some range => exact .ok ⟨pending, h.congr rfl rfl, le_rfl⟩
    | none =>
      refine (pageopFinish_tidy h hfuel (hflush rfl)).bind fun _ s' hs' => ?_
      exact .ok ⟨[], hs'.congr rfl rfl, Nat.zero_le _⟩
  refine hsetup.bind fun _ s' ⟨pending', htidy, hlen⟩ => ?_
  exact .ok ⟨pending', htidy.record ⟨virt, .inl rfl⟩, hlen⟩

/-- **One call** keeps the list in order, if it flushes the pages where it finishes. -/
theorem exec_tidy (hpages : call.pages ⊆ f.pages) (hflush : call.Flushes s) :
    Ends (fun _ => Grown f pending call.weight) Halted (call.exec f.free fuel s) := by
  cases call with
  | setupForAddress virt =>
    have hflush' : (extendForAddress s.flushRange virt).isNone = true → FlushesPages s := hflush
    rw [Call.exec, bind_run, pageopSetupForAddress]
    generalize extendForAddress s.flushRange virt = extended at hflush'
    exact setup_tidy h hfuel hflush'
  | setupForRange virt =>
    have hflush' : (extendForRange s.flushRange virt).isNone = true → FlushesPages s := hflush
    exact setup_tidy h hfuel hflush'
  | derefPage page => exact derefPage_tidy (hpages rfl) h
  | derefLargePage page order => exact derefLargePage_tidy order hpages h
  | flushEntry page shouldFreePages => exact flushEntry_tidy shouldFreePages (hpages rfl) h
  | switchTo isCurrent =>
    exact .ok ⟨pending, h.congr rfl rfl, le_rfl⟩
  | finish =>
    refine (pageopFinish_tidy h hfuel (hflush rfl)).mono (fun _ s' hs' => ?_) fun _ _ h => h
    exact ⟨[], hs', Nat.zero_le _⟩

end

/-! ## The log only grows -/

/-- The log begins with what it was. -/
def LogFrom (log : List PageopEvent) (s : Pageop) : Prop := log <+: s.log

variable {log : List PageopEvent}

theorem keeps_record (event : PageopEvent) : Keeps (LogFrom log) (record event) :=
  fun _ h => h.trans (prefix_append _ _)

theorem unaffected_logFrom : Unaffected (LogFrom log) where
  structs _ _ h := h
  read page := keeps_record (.read page)
  free page := keeps_record (.free page)

theorem pageopFinish_logFrom (hlog : LogFrom log s) : LogFrom log (pageopFinish f.free fuel s).2 := by
  have hkeeps : Keeps (LogFrom log) (do
      record (.finish s.flushRange)
      if s.flushRange.size = 0 then freeAllPages f.free fuel
      else do
        flushIfCurrent f.free fuel
        freeAllPages f.free fuel
        setFlushRange ⟨0, 0⟩) := by
    refine (keeps_record _).bind fun _ => ite (unaffected_logFrom.freeAllPages fuel) ?_
    exact (unaffected_logFrom.flushIfCurrent fuel).bind fun _ =>
      (unaffected_logFrom.freeAllPages fuel).bind fun _ _ h => h
  exact hkeeps s hlog

theorem keeps_setup (extended : Option Range) (virt : Range) :
    Keeps (LogFrom log) (setup f.free fuel extended virt) := by
  cases extended with
  | some range => exact fun _ h => h
  | none => exact bind (fun _ h => pageopFinish_logFrom h) fun _ _ h => h

theorem keeps_queueIf (last : Bool) : Keeps (LogFrom log) (queueIf page last) :=
  ite ((keeps_record _).bind fun _ => unaffected_logFrom.changeLinks _) (keeps_pure ())

theorem keeps_derefPage (page : Nat) : Keeps (LogFrom log) (derefPage page) := by
  intro s hs
  have hkeeps : Keeps (LogFrom log) (refDown page >>= queueIf page) :=
    bind (fun _ h => h) fun last => keeps_queueIf last
  unfold derefPage
  split
  · exact hs
  · exact hkeeps s hs

theorem keeps_derefPages (count : Nat) : Keeps (LogFrom log) (derefPages page count) := by
  induction count generalizing page with
  | zero => exact keeps_pure ()
  | succ count ih => exact (keeps_derefPage page).bind fun _ => ih

theorem keeps_exec (call : Call) : Keeps (LogFrom log) (call.exec f.free fuel) := by
  cases call with
  | setupForAddress virt =>
    exact bind (fun s h => keeps_setup _ _ s h) fun _ => keeps_record _
  | setupForRange virt =>
    exact bind (fun s h => keeps_setup _ _ s h) fun _ => keeps_record _
  | derefPage page => exact keeps_derefPage page
  | derefLargePage page order =>
    intro s hs
    have hkeeps : Keeps (LogFrom log) (refDownLarge page >>= queueIf page) :=
      bind (fun _ h => h) fun last => keeps_queueIf last
    rw [Call.exec, derefLargePage]
    split
    · exact hkeeps s hs
    · exact keeps_derefPages _ s hs
  | flushEntry page shouldFreePages =>
    intro s hs
    have hkeeps (isLarge : Bool) : Keeps (LogFrom log) (flushEntry page isLarge shouldFreePages) :=
      bind (ite (fun _ h => h) fun _ h => h) fun last => keeps_queueIf _
    exact hkeeps _ s hs
  | switchTo isCurrent => exact fun _ h => h
  | finish => exact fun _ h => pageopFinish_logFrom h

/-! ## Finishes that do not flush the pages -/

/-- `free_all_pages` asks the first page for the next one when it has freed it. -/
theorem freeAllPages_reads (h : Tidy f s (page :: rest)) :
    LogFrom (s.log ++ [.free page] ++ [.read page]) (freeAllPages f.free (fuel + 1) s).2 := by
  obtain ⟨structs, hfree, -⟩ := f.returns s.toPageStructs (h.pages page mem_cons_self) h.inOrder
  rw [freeAllPages, bind_of_ok (listNext_head h), first, freeFrom,
    bind_of_ok (freePage_run hfree), listNext, Effect.bind_assoc,
    bind_of_ok (record_run _ _)]
  exact bind (keeps_readNext _) (fun iter => unaffected_logFrom.freeFrom fuel iter) _
    (prefix_refl _)

/-- **A finish that does not flush the pages** reads a page that it has freed. -/
theorem pageopFinish_unclean (h : Tidy f s pending) (hfuel : 0 < fuel) (hflush : ¬ FlushesPages s) :
    ¬ CleanReads (pageopFinish f.free fuel s).2.log := by
  rw [FlushesPages, h.next_head_iff, not_or] at hflush
  obtain ⟨hpending, hcurrent⟩ := hflush
  match pending, hpending, fuel, hfuel with
  | page :: rest, _, fuel + 1, _ =>
    have hrecord := h.record ⟨s.flushRange, .inr rfl⟩
    have hreads : LogFrom _ (freeAllPages f.free (fuel + 1) _).2 := freeAllPages_reads hrecord
    have hfinish : LogFrom (s.log ++ [.finish s.flushRange] ++ [.free page] ++ [.read page])
        (pageopFinish f.free (fuel + 1) s).2 := by
      unfold pageopFinish
      rw [bind_of_ok (record_run _ s)]
      split
      · exact hreads
      · rename_i hsize
        have hnot : ¬ s.isCurrent = true := fun h => hcurrent ⟨hsize, h⟩
        have hskip : flushIfCurrent f.free (fuel + 1) { s with log := s.log ++ [.finish s.flushRange] } =
            (.ok (), { s with log := s.log ++ [.finish s.flushRange] }) := if_neg hnot
        rw [bind_of_ok hskip]
        exact bind_keeps hreads fun _ _ h => h
    exact fun hclean => not_cleanReads (hclean.of_isPrefix hfinish)

theorem exec_unclean (h : Tidy f s pending) (hfuel : 0 < fuel) (hflush : ¬ call.Flushes s) :
    ¬ CleanReads (call.exec f.free fuel s).2.log := by
  rw [Call.Flushes, Classical.not_imp] at hflush
  obtain ⟨hfinishes, hpages⟩ := hflush
  have hfinish : ¬ CleanReads (pageopFinish f.free fuel s).2.log :=
    pageopFinish_unclean h hfuel hpages
  -- what was read stays in the log until the call is over
  have hlater (virt : Range) : ¬ CleanReads
      ((setup f.free fuel none virt >>= fun _ => record (.named virt)) s).2.log := by
    intro hclean
    refine hfinish (hclean.of_isPrefix ?_)
    refine bind_keeps (P := LogFrom (pageopFinish f.free fuel s).2.log) ?_ fun _ => keeps_record _
    exact bind_keeps (P := LogFrom (pageopFinish f.free fuel s).2.log) (prefix_refl _) fun _ _ h => h
  cases call with
  | setupForAddress virt =>
    have hnone : extendForAddress s.flushRange virt = none := Option.isNone_iff_eq_none.mp hfinishes
    have hexec : (Call.setupForAddress virt).exec f.free fuel s =
        (setup f.free fuel none ⟨virt, PAGE_SIZE⟩ >>= fun _ => record (.named ⟨virt, PAGE_SIZE⟩)) s := by
      rw [Call.exec, bind_run, bind_run, pageopSetupForAddress, hnone]
    rw [hexec]
    exact hlater _
  | setupForRange virt =>
    have hnone : extendForRange s.flushRange virt = none := Option.isNone_iff_eq_none.mp hfinishes
    have hexec : (Call.setupForRange virt).exec f.free fuel s =
        (setup f.free fuel none virt >>= fun _ => record (.named virt)) s := by
      rw [Call.exec, bind_run, bind_run, pageopSetupForRange, hnone]
    rw [hexec]
    exact hlater virt
  | finish => exact hfinish
  | derefPage page => cases hfinishes
  | derefLargePage page order => cases hfinishes
  | flushEntry page shouldFreePages => cases hfinishes
  | switchTo isCurrent => cases hfinishes

/-! ## Runs -/

/-- Each page that was queued has been freed once, and none was read afterwards. -/
def Handled (r : Result Unit × Pageop) : Prop :=
  CleanReads r.2.log ∧
    (r.1 = .error .panic ∨ r.1 = .ok () ∧ (freedPages r.2.log).Perm (queuedPages r.2.log))

/-- How many pages a run may queue. -/
def totalWeight (calls : List Call) : Nat := (calls.map Call.weight).sum

/-- A run that reads no freed page has flushed the pages at every finish. -/
theorem flushes_of_cleanReads (h : Tidy f s pending) (hpages : ∀ call ∈ calls, call.pages ⊆ f.pages)
    (hfuel : pending.length + totalWeight calls < fuel)
    (hclean : CleanReads (runAll (Call.exec f.free fuel) calls s).2.log) :
    Each (Call.exec f.free fuel) (fun s call => call.Flushes s) calls s := by
  induction calls generalizing s pending with
  | nil => trivial
  | cons call calls ih =>
    rw [totalWeight, map_cons, sum_cons, ← totalWeight] at hfuel
    have hpending : pending.length < fuel := by omega
    have hflush : call.Flushes s := by
      by_contra hflush
      have hunclean : ¬ CleanReads (call.exec f.free fuel s).2.log :=
        exec_unclean h (Nat.zero_lt_of_lt hpending) hflush
      refine hunclean (hclean.of_isPrefix ?_)
      exact bind_keeps (P := LogFrom (call.exec f.free fuel s).2.log) (prefix_refl _)
        fun _ => keeps_runAll keeps_exec calls
    refine ⟨hflush, ?_⟩
    have hstep := exec_tidy h hpending (hpages call mem_cons_self) hflush
    rcases hrun : call.exec f.free fuel s with ⟨e | a, s'⟩
    · exact .error trivial
    · rw [hrun, ends_ok] at hstep
      obtain ⟨pending', htidy, hlen⟩ := hstep
      rw [runAll, bind_of_ok hrun] at hclean
      exact .ok (ih htidy (fun call hcall => hpages call (.tail _ hcall)) (by omega) hclean)

theorem pageopInit_tidy {structs : PageStructs} (horder : f.inOrder structs.alloc)
    (isCurrent : Bool) (range : Range) : Tidy f (pageopInit structs isCurrent range) [] := by
  refine ⟨⟨⟨?_, ?_⟩, by simp⟩, by simp, horder, by simp, by simp, ?_, .rfl⟩
  · simp [pageopInit, listInit]
  · simp [pageopInit, listInit]
  · intro before page hbefore
    have hnil := prefix_nil.mp hbefore
    simp at hnil

/-- **With no free block beside the page `free_page` fails**: the run to be freed is empty. -/
theorem freePages_fails {s : PageAlloc} (hpage : page < 2 ^ 63)
    (hlarge : (s.pages page).state ≠ .largeHead) (hprev : s.PrevUsed (s.pages page).sect page)
    (hnext : s.NextUsed page) (levelOrder : Nat → Nat) :
    s.freePages levelOrder page 0 = .error .outOfBounds := by
  have hrun : s.freeAmountOfPages page 0 = s.freeRangeOfPages page (s.pages page).sect 0 :=
    PageAlloc.freeAmountOfPages_unmerged rfl hpage hprev hnext
  rw [PageAlloc.freePages, if_neg (by decide), if_neg hlarge, hrun, PageAlloc.freeRangeOfPages]
  cases hfit : PageAlloc.orderFitting 0 (MAX_ORDER - 1) with
  | none => rfl
  | some order =>
    have hle := (PageAlloc.orderFitting_some hfit).2
    exact absurd hle (not_le.mpr (Nat.two_pow_pos order))

/-- A page in use, with a free page of the same section right in front of it. -/
structure BehindBlock (s : PageAlloc) (page : Nat) : Prop where
  pos : 0 < page
  free : page - 1 ∈ s.freeSet
  sect : (s.pages (page - 1)).sect = (s.pages page).sect
  used : page ∉ s.freeSet
  notHead : (s.pages page).state ≠ .freeListHead
  notLarge : (s.pages page).state ≠ .largeHead

section

variable {s s' : PageAlloc}

theorem BehindBlock.block (h : BehindBlock s page) (hs : s.Sound) :
    ∃ b ∈ s.blocks, b.page + 2 ^ b.order = page ∧ b.sec = (s.pages page).sect := by
  obtain ⟨b, hb, hmem⟩ := PageAlloc.mem_freeSet.mp h.free
  have hout : page ∉ b.pages := fun hin => h.used (PageAlloc.mem_freeSet.mpr ⟨b, hb, hin⟩)
  rw [Block.mem_pages] at hmem hout
  have hpos := h.pos
  refine ⟨b, hb, by omega, ?_⟩
  rw [← h.sect]
  exact (hs.layout.pageSect b.sec hb.1 (page - 1) (hs.inside b hb hmem)).symm

/-- What was free is free again, and nothing else has changed. -/
structure Refreed (s s' : PageAlloc) : Prop where
  sound : s'.Sound
  same : s.SameLayout s'
  freeSet : s'.freeSet = s.freeSet
  pages : ∀ page, page ∉ s.freeSet → s'.pages page = s.pages page

theorem Refreed.behindBlock (h : Refreed s s') (hpage : BehindBlock s page) : BehindBlock s' page where
  pos := hpage.pos
  free := h.freeSet ▸ hpage.free
  sect := by
    rw [h.same.sect, h.same.sect]
    exact hpage.sect
  used := h.freeSet ▸ hpage.used
  notHead := h.pages page hpage.used ▸ hpage.notHead
  notLarge := h.pages page hpage.used ▸ hpage.notLarge

/-- **`free_page` behind a free block** takes the block off its list and frees it again. -/
theorem BehindBlock.freePages (h : BehindBlock s page) (hs : s.Sound) (levelOrder : Nat → Nat) :
    ∃ s', s.freePages levelOrder page 0 = .ok s' ∧ Refreed s s' := by
  obtain ⟨b, hb, hend, hsec⟩ := h.block hs
  obtain ⟨t, hoff, hrem, -⟩ := PageAlloc.takeOffFreelistToAddLater_removed hs hb
  have hlt : page < 2 ^ 63 := by
    have hcovered := hs.layout.covered b.sec hb.1 (page - 1)
      (hs.inside b hb (Block.mem_pages.mpr (by have := Nat.two_pow_pos b.order; omega)))
    have := hs.layout.addressable
    omega
  have hnext : PageAlloc.NextUsed t page := fun hhead => h.notHead (hrem.pages ▸ hhead.2)
  have hfreeSet := hrem.freeSet hs hb
  obtain ⟨s', hrun, hfreed⟩ := PageAlloc.freeRangeOfPages_freed (hrem.sound hs hb)
    (hrem.same.sectionCount ▸ hb.1) Nat.one_le_two_pow
    (by rw [hrem.same.sectionPages]; exact hs.inside b hb)
    (by rw [hfreeSet]; exact Set.disjoint_sdiff_right)
  have hsub : b.pages ⊆ s.freeSet := fun q hq => PageAlloc.mem_freeSet.mpr ⟨b, hb, hq⟩
  refine ⟨s', ?_, hfreed.sound, hrem.same.trans hfreed.same, ?_, fun q hq => ?_⟩
  · have hmod : (b.page + 2 ^ b.order) % U64 = page := by
      rw [hend]
      exact Nat.mod_eq_of_lt (hlt.trans (by decide))
    rw [PageAlloc.freePages, if_neg (by decide), if_neg h.notLarge, PageAlloc.freeAmountOfPages,
      ← hsec, PageAlloc.mergePrev_block hs hb hend hlt, hoff]
    simp only [Except.map, ok_bind, Nat.zero_add, hmod, PageAlloc.mergeNext_of_nextUsed hnext]
    exact hrun
  · rw [hfreed.freeSet, hfreeSet]
    exact Set.union_sdiff_cancel hsub
  · rw [hfreed.pages q fun hin => hq (hsub hin), hrem.pages]

end

/-- **`free_page`**, for pages behind free blocks. -/
def FreePage.behindBlocks (levelOrder : Nat → Nat) (pages : Set Nat) : FreePage where
  free := PageStructs.freePage levelOrder
  pages := pages
  inOrder alloc := alloc.Sound ∧ ∀ page ∈ pages, BehindBlock alloc page
  returns structs page hpage horder := by
    obtain ⟨s', hrun, hfreed⟩ := (horder.2 page hpage).freePages horder.1 levelOrder
    refine ⟨_, by rw [PageStructs.freePage, hrun]; rfl, hfreed.sound, fun other hother => ?_⟩
    exact hfreed.behindBlock (horder.2 other hother)
  leaves structs structs' page pending hpage horder hret _ _ hpending := by
    obtain ⟨s', hrun, hfreed⟩ := (horder.2 page hpage).freePages horder.1 levelOrder
    rw [PageStructs.freePage, hrun] at hret
    cases hret
    have hsame : ∀ other ∈ pending, s'.pages other = structs.alloc.pages other := fun other hother =>
      hfreed.pages other (horder.2 other (hpending other hother)).used
    constructor
    · intro elem helem
      rcases mem_cons.mp helem with rfl | helem
      · rfl
      · obtain ⟨other, hother, rfl⟩ := mem_map.mp helem
        exact if_pos (hsame other hother)
    · intro other hother
      simp only [lastCount, PageStructs.state, hsame other hother]
      rfl

/-- Four pages, of which the first and the third are free. -/
def everyOther : PageAlloc :=
  match (PageAlloc.boot 4 1).freeRangeOfPages 2 0 1 with
  | .ok s => s
  | .error _ => .boot 4 1

theorem everyOther_inOrder :
    (FreePage.behindBlocks (fun _ => 9) {1, 3}).inOrder everyOther := by
  obtain ⟨hboot, hfirst⟩ := PageAlloc.boot_spec 4 1 (by decide) le_rfl (by decide)
  have hfree : (PageAlloc.boot 4 1).freeSet = Set.Ico 0 1 := by
    rw [hfirst.freeSet, PageAlloc.bare_freeSet, Set.union_empty]
  have hin : Set.Ico 2 3 ⊆ (PageAlloc.boot 4 1).sectionPages 0 := by
    rw [hfirst.same.sectionPages, PageAlloc.bare_sectionPages]
    exact Set.Ico_subset_Ico (by decide) (by decide)
  have hused : Disjoint (Set.Ico 2 3) (PageAlloc.boot 4 1).freeSet := by
    rw [hfree]
    exact Set.Ico_disjoint_Ico.mpr (by decide)
  have hsec : 0 < (PageAlloc.boot 4 1).sectionCount := by
    rw [hfirst.same.sectionCount]
    exact Nat.one_pos
  obtain ⟨s, hrun, hthird⟩ :=
    PageAlloc.freeRangeOfPages_freed hboot.toSound hsec le_rfl hin hused
  have heq : everyOther = s := by rw [everyOther, hrun]
  have hset : s.freeSet = Set.Ico 2 3 ∪ Set.Ico 0 1 := by rw [hthird.freeSet, hfree]
  have hsect : ∀ page, (s.pages page).sect = 0 := fun page => by
    rw [hthird.same.sect, hfirst.same.sect]
    rfl
  rw [heq]
  refine ⟨hthird.sound, fun page hpage => ?_⟩
  have hmem : page - 1 ∈ s.freeSet ∧ page ∉ s.freeSet := by
    rw [hset]
    rcases hpage with rfl | rfl <;> simp
  have hstate : (s.pages page).state = .systemCrucial := by
    rw [hthird.freeSet] at hmem
    rw [hthird.pages page fun h => hmem.2 (.inl h), hfirst.pages page fun h => hmem.2 (.inr (hfree ▸ h))]
    rfl
  refine ⟨?_, hmem.1, by rw [hsect, hsect], hmem.2, by simp [hstate], by simp [hstate]⟩
  rcases hpage with rfl | rfl <;> decide

/-- Pages with one reference each. -/
def usedStructs : PageStructs := ⟨fun _ => ⟨none, none⟩, everyOther, fun _ => 1, fun _ => 0⟩

end OsKernel.Mm.Pageop
