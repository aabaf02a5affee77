import OsKernel.Mm.FreeRange
import OsKernel.Mm.Pageop

/-!
# What a pageop flushes

Every range that was asked for has to lie in the flush range at some later
`pageop_finish`. The flush range owes this to all the ranges named since the last finish,
so they have to stay in it until then: `Covered`, with the flush range for what is still
pending.

A request that makes the range longer to the right, and one that has it finished first,
leave nothing behind. A request on the left does: it moves the front and leaves the size,
and so the range moves as a whole.
-/

namespace OsKernel.Mm.Pageop

open Adt (Range)
open Effect List

variable {log : List PageopEvent} {s : Pageop} {flush range virt : Range}
  {pending pending' : Set Nat}

/-- Every range that was named lies in that of a later finish, or is still pending. -/
def Covered (pending : Set Nat) : List PageopEvent → Prop
  | [] => True
  | .named range :: later =>
    ((∃ flush, .finish flush ∈ later ∧ range.locs ⊆ flush.locs) ∨ range.locs ⊆ pending) ∧
      Covered pending later
  | _ :: later => Covered pending later

/-- One more event, which may be the finish that the pending ranges waited for. -/
theorem Covered.concat {event : PageopEvent} (h : Covered pending log)
    (hkeep : pending ⊆ pending' ∨ ∃ flush, event = .finish flush ∧ pending ⊆ flush.locs)
    (hnamed : ∀ range, event = .named range → range.locs ⊆ pending') :
    Covered pending' (log ++ [event]) := by
  induction log with
  | nil =>
    cases event with
    | named range => exact ⟨.inr (hnamed range rfl), trivial⟩
    | _ => trivial
  | cons first later ih =>
    cases first with
    | named range =>
      refine ⟨?_, ih h.2⟩
      rcases h.1 with ⟨flush, hmem, hsub⟩ | hsub
      · exact .inl ⟨flush, mem_append_left _ hmem, hsub⟩
      · rcases hkeep with hkeep | ⟨flush, rfl, hkeep⟩
        · exact .inr (hsub.trans hkeep)
        · exact .inl ⟨flush, mem_append_right _ (mem_singleton.mpr rfl), hsub.trans hkeep⟩
    | _ => exact ih h

theorem Covered.mono (h : Covered pending log) (hsub : pending ⊆ pending') : Covered pending' log := by
  induction log with
  | nil => trivial
  | cons first later ih =>
    cases first with
    | named range => exact ⟨h.1.imp_right fun hr => hr.trans hsub, ih h.2⟩
    | _ => exact ih h

/-! ## Ranges of pages -/

/-- Whole pages, and the end is a 64-bit number. -/
structure IsPages (range : Range) : Prop where
  front : PAGE_SIZE ∣ range.front
  size : PAGE_SIZE ∣ range.size
  fits : range.end_ < U64

/-- The request lies right before the flush range. -/
def GrowsLeft (s : Pageop) : Call → Prop
  | .setupForAddress virt => virt + PAGE_SIZE = s.flushRange.front
  | .setupForRange virt => 0 < virt.size ∧ virt.end_ = s.flushRange.front
  | _ => False

/-- The range found for a request holds the old one and what was asked for. -/
structure Extends (flush virt range : Range) : Prop where
  pages : IsPages range
  old : flush.locs ⊆ range.locs
  new : virt.locs ⊆ range.locs

theorem extends_right (hflush : IsPages flush) (hvirt : IsPages virt)
    (hend : flush.getEnd = some virt.front) :
    Extends flush virt { flush with size := (flush.size + virt.size) % U64 } := by
  have hfits := hvirt.fits
  have hfront := (Range.getEnd_eq_some.mp hend).1
  simp only [Range.end_] at hfits hfront
  rw [Nat.mod_eq_of_lt (by omega)]
  refine ⟨⟨hflush.front, hflush.size.add hvirt.size, ?_⟩, ?_, ?_⟩
  · simp only [Range.end_]
    omega
  · apply Set.Ico_subset_Ico <;> simp only [Range.end_] <;> omega
  · apply Set.Ico_subset_Ico <;> simp only [Range.end_] <;> omega

theorem page_subset {virt : Nat} (hflush : IsPages flush) (hvirt : PAGE_SIZE ∣ virt)
    (hloc : flush.hasLoc virt = true) :
    Range.locs ⟨virt, PAGE_SIZE⟩ ⊆ flush.locs := by
  obtain ⟨hfront, hend⟩ := Range.hasLoc_iff.mp hloc
  -- the end is a multiple too, so there is a whole page before it
  have hpage : virt + PAGE_SIZE ≤ flush.end_ := by
    obtain ⟨k, rfl⟩ := hvirt
    obtain ⟨m, hm⟩ : PAGE_SIZE ∣ flush.end_ := hflush.front.add hflush.size
    rw [hm] at hend ⊢
    have hk : k + 1 ≤ m := Nat.lt_of_mul_lt_mul_left hend
    calc PAGE_SIZE * k + PAGE_SIZE = PAGE_SIZE * (k + 1) := (Nat.mul_succ _ _).symm
      _ ≤ PAGE_SIZE * m := Nat.mul_le_mul_left _ hk
  exact Set.Ico_subset_Ico hfront hpage

theorem extendForAddress_extends {virt : Nat} (hflush : IsPages s.flushRange)
    (hvirt : IsPages ⟨virt, PAGE_SIZE⟩) (hleft : ¬ GrowsLeft s (.setupForAddress virt))
    (h : extendForAddress s.flushRange virt = some range) :
    Extends s.flushRange ⟨virt, PAGE_SIZE⟩ range := by
  unfold extendForAddress at h
  have hfits : virt + PAGE_SIZE < U64 := hvirt.fits
  change ¬ virt + PAGE_SIZE = s.flushRange.front at hleft
  rw [Nat.mod_eq_of_lt hfits, if_neg hleft] at h
  split at h
  · rename_i hloc
    cases h
    exact ⟨hflush, subset_rfl, page_subset hflush hvirt.front hloc⟩
  · split at h
    · rename_i hend
      cases h
      exact extends_right hflush hvirt hend
    · cases h

theorem extendForRange_extends (hflush : IsPages s.flushRange) (hvirt : IsPages virt)
    (hleft : ¬ GrowsLeft s (.setupForRange virt))
    (h : extendForRange s.flushRange virt = some range) : Extends s.flushRange virt range := by
  have hempty : virt.size = 0 → virt.locs ⊆ s.flushRange.locs := by
    intro hsize
    simp [Range.locs, Range.end_, hsize]
  unfold extendForRange at h
  split at h
  · rename_i hhas
    cases h
    refine ⟨hflush, subset_rfl, ?_⟩
    rcases Nat.eq_zero_or_pos virt.size with hsize | hsize
    · exact hempty hsize
    · obtain ⟨hfront, hend⟩ := (Range.has_iff hsize).mp hhas
      exact Set.Ico_subset_Ico hfront hend
  · split at h
    · rename_i hend
      cases h
      obtain ⟨hend, -⟩ := Range.getEnd_eq_some.mp hend
      -- only an empty range is left, and its front is that of the flush range
      have hsize : virt.size = 0 := by
        rcases Nat.eq_zero_or_pos virt.size with hsize | hsize
        · exact hsize
        · exact absurd ⟨hsize, hend⟩ hleft
      have hfront : virt.front = s.flushRange.front := by
        rw [← hend, Range.end_, hsize, add_zero]
      rw [hfront]
      exact ⟨hflush, subset_rfl, hempty hsize⟩
    · split at h
      · rename_i hend
        cases h
        exact extends_right hflush hvirt hend
      · cases h

/-! ## Runs -/

/-- Between the calls. No page is queued, so the list stays empty. -/
structure Covers (s : Pageop) : Prop where
  pages : IsPages s.flushRange
  covered : Covered s.flushRange.locs s.log
  empty : (s.list .head).next = some .head

/-- No call of a sequence of requests fails. -/
def Never (_ : Fault) (_ : Pageop) : Prop := False

theorem isPages_empty : IsPages ⟨0, 0⟩ := ⟨by decide, by decide, by decide⟩

variable (free : Nat → PageStructs → Result PageStructs) {fuel : Nat} {s : Pageop}

theorem pageopFinish_covers (hfuel : 0 < fuel) (h : Covers s) :
    Ends (fun _ s' => Covers s' ∧ Covered ∅ s'.log) Never (pageopFinish free fuel s) := by
  have hcovered : Covered ∅ (s.log ++ [.finish s.flushRange]) :=
    h.covered.concat (.inr ⟨_, rfl, subset_rfl⟩) (by simp)
  rw [pageopFinish_empty free h.empty hfuel h.pages.fits]
  refine .ok ⟨⟨?_, hcovered.mono (Set.empty_subset _), h.empty⟩, hcovered⟩
  split
  · exact h.pages
  · exact isPages_empty

/-- The range of a request is in the flush range afterwards, and can be named. -/
theorem setup_covers {extended : Option Range} (hfuel : 0 < fuel) (h : Covers s)
    (hvirt : IsPages virt)
    (hextended : ∀ range, extended = some range → Extends s.flushRange virt range) :
    Ends (fun _ => Covers) Never
      ((setup free fuel extended virt >>= fun _ => record (.named virt)) s) := by
  have hsetup : Ends (fun _ s' => Covers s' ∧ virt.locs ⊆ s'.flushRange.locs) Never
      (setup free fuel extended virt s) := by
    cases extended with
    | some range =>
      have hext := hextended range rfl
      exact .ok ⟨⟨hext.pages, h.covered.mono hext.old, h.empty⟩, hext.new⟩
    | none =>
      refine (pageopFinish_covers free hfuel h).bind fun _ s' hs' => ?_
      exact .ok ⟨⟨hvirt, hs'.2.mono (Set.empty_subset _), hs'.1.empty⟩, subset_rfl⟩
  refine hsetup.bind fun _ s' hs' => ?_
  refine .ok ⟨hs'.1.pages, hs'.1.covered.concat (.inl subset_rfl) ?_, hs'.1.empty⟩
  intro range hrange
  cases hrange
  exact hs'.2

/-- What the sequences are made of: requests for whole pages, finishes, and changes of the pagemap. -/
def IsRequest : Call → Prop
  | .setupForAddress virt => IsPages ⟨virt, PAGE_SIZE⟩
  | .setupForRange virt => IsPages virt
  | .switchTo _ => True
  | .finish => True
  | _ => False

/-- **One call** leaves nothing behind, unless it makes the flush range longer to the left. -/
theorem exec_covers {call : Call} (hfuel : 0 < fuel) (h : Covers s) (hcall : IsRequest call)
    (hleft : ¬ GrowsLeft s call) : Ends (fun _ => Covers) Never (call.exec free fuel s) := by
  cases call with
  | setupForAddress virt =>
    have hpages : IsPages ⟨virt, PAGE_SIZE⟩ := hcall
    have hextended (range : Range) : extendForAddress s.flushRange virt = some range →
        Extends s.flushRange ⟨virt, PAGE_SIZE⟩ range :=
      extendForAddress_extends h.pages hpages hleft
    rw [Call.exec, bind_run, pageopSetupForAddress]
    generalize extendForAddress s.flushRange virt = extended at hextended
    exact setup_covers free hfuel h hpages hextended
  | setupForRange virt =>
    have hextended (range : Range) : extendForRange s.flushRange virt = some range →
        Extends s.flushRange virt range :=
      extendForRange_extends h.pages hcall hleft
    exact setup_covers free hfuel h hcall hextended
  | derefPage page => exact hcall.elim
  | derefLargePage page order => exact hcall.elim
  | flushEntry page shouldFreePages => exact hcall.elim
  | switchTo isCurrent => exact .ok ⟨h.pages, h.covered, h.empty⟩
  | finish => exact (pageopFinish_covers free hfuel h).mono (fun _ _ h => h.1) fun _ _ h => h

/--
**Nothing escapes the flush**, in a sequence of requests that ends with a finish, if no request
makes the flush range longer to the left.
-/
theorem covered_of_no_left {structs : PageStructs} {isCurrent : Bool} {range : Range}
    {calls : List Call} (hfuel : 0 < fuel) (hrange : IsPages range)
    (hcalls : ∀ call ∈ calls, IsRequest call)
    (hleft : Each (Call.exec free fuel) (fun s call => ¬ GrowsLeft s call) calls
      (pageopInit structs isCurrent range)) :
    ∃ s', runAll (Call.exec free fuel) (calls ++ [.finish]) (pageopInit structs isCurrent range) =
      (.ok (), s') ∧ Covered ∅ s'.log := by
  have hinit : Covers (pageopInit structs isCurrent range) :=
    ⟨hrange, trivial, by simp [pageopInit, listInit]⟩
  have hrun := Each.run (I := fun calls s => Covers s ∧ ∀ call ∈ calls, IsRequest call)
    (E := Never) (fun call calls s hI hleft =>
      (exec_covers free hfuel hI.1 (hI.2 call mem_cons_self) hleft).mono
        (fun _ _ h => ⟨h, fun call hcall => hI.2 call (.tail _ hcall)⟩)
        fun _ _ h => h) ⟨hinit, hcalls⟩ hleft
  have hfinish : Ends (fun _ s' => Covered ∅ s'.log) Never
      (runAll (Call.exec free fuel) (calls ++ [.finish]) (pageopInit structs isCurrent range)) := by
    rw [runAll_append]
    refine hrun.bind fun _ s' hs' => ?_
    exact (pageopFinish_covers free hfuel hs'.1).bind fun _ s'' hs'' => .ok hs''.2
  obtain ⟨_, s', hok, hcovered⟩ := hfinish.returns
  exact ⟨s', hok, hcovered⟩

/-- Structs of pages that nothing refers to. -/
def idleStructs : PageStructs := ⟨fun _ => ⟨none, none⟩, .bare 4, fun _ => 0, fun _ => 0⟩

/-- Two pages, the first one first. -/
theorem covered_of_no_left_two :
    ∃ s', runAll (Call.exec (PageStructs.freePage fun _ => 9) 1)
      ([.setupForAddress 0x1000, .setupForRange ⟨0x2000, 0x1000⟩] ++ [.finish])
      (pageopInit idleStructs true ⟨0, 0⟩) = (.ok (), s') ∧ Covered ∅ s'.log := by
  refine covered_of_no_left _ (by decide) isPages_empty ?_ ?_
  · intro call hcall
    rcases mem_cons.mp hcall with rfl | hcall
    · exact ⟨by decide, by decide, by decide⟩
    · rcases mem_cons.mp hcall with rfl | hcall
      · exact ⟨by decide, by decide, by decide⟩
      · cases hcall
  · refine ⟨?_, .ok ⟨?_, .of_forall _ (fun _ _ => trivial) fun _ _ => trivial⟩⟩
    · simp [GrowsLeft, pageopInit]
    · simp [GrowsLeft]
      decide

/--
**The page behind is lost** if the second request is for the page before it: no finish of the run
has its address.
-/
theorem left_escapes :
    let log := (runAll (Call.exec (PageStructs.freePage fun _ => 9) 1)
      ([.setupForAddress 0x2000, .setupForAddress 0x1000] ++ [.finish])
      (pageopInit idleStructs true ⟨0, 0⟩)).2.log
    ¬ Covered ∅ log ∧ ∀ flush, .finish flush ∈ log → 0x2000 ∉ flush.locs := by
  -- the range of the last finish ends where the lost page begins
  have hlost (flush : Range) (hmem : PageopEvent.finish flush ∈
      [PageopEvent.finish ⟨0, 0⟩, .named ⟨0x2000, 0x1000⟩, .named ⟨0x1000, 0x1000⟩,
        .finish ⟨0x1000, 0x1000⟩]) : 0x2000 ∉ flush.locs := by
    simp only [mem_cons, PageopEvent.finish.injEq, reduceCtorEq, false_or, not_mem_nil,
      or_false] at hmem
    rcases hmem with rfl | rfl
    · exact fun hloc => absurd hloc.2 (by decide)
    · exact fun hloc => absurd hloc.2 (by decide)
  refine ⟨?_, hlost⟩
  rintro ⟨⟨flush, hmem, hsub⟩ | hsub, -⟩
  · exact hlost flush (.tail _ (.tail _ hmem)) (hsub ⟨by decide, by decide⟩)
  · have hloc : 0x2000 ∈ (∅ : Set Nat) := hsub ⟨by decide, by decide⟩
    exact hloc

end OsKernel.Mm.Pageop
