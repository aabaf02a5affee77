import OsKernel.Mm.SlabRuns

/-!
# What a slab allocator leaves to the others

Several allocators share the pages and the memory, and each one only sees its own slabs.
A call of one of them writes the pages and the memory of its own slabs and of pages that
are in no slab. A page that is in a slab of another allocator is neither, since its state
says that it is in a slab and the head of the slab names the other allocator. So for the
others such a call is a step of the rest of the kernel, and it does not even write to
their live objects.

The tail pages of a slab name the allocator as well, all but the last one. This is kept
next to the invariant.
-/

namespace OsKernel.Mm.Slabs

open LinkedRing

variable {s s' s₁ t : Slabs} {slabs live slabs' : List Nat} {chain : Nat → List Nat}
  {g head i p x : Nat}

/-! ## Frames -/

/-- A page that a call may write: of one of the allocator's slabs, or of none at all. -/
def Usable (s : Slabs) (p : Nat) : Prop :=
  (∃ g, s.Owns g ∧ s.InBlock g p) ∨
    (s.pages p).state ≠ .slabHead ∧ (s.pages p).state ≠ .slabTail

/-- The tail pages that name the allocator. -/
def Named (s : Slabs) : Prop :=
  ∀ g, s.Owns g → ∀ p, g < p → p + 1 < g + 2 ^ s.alloc.slabOrder →
    (s.pages p).allocator = some s.self

/-- What a call leaves as it is. -/
structure Frame (s s' : Slabs) : Prop where
  layout : SameLayout s s'
  pages : ∀ p, ¬ s.Usable p → s'.pages p = s.pages p
  mem : ∀ x, s'.mem x ≠ s.mem x →
    ∃ p, s.Usable p ∧ s.pageToVirt p ≤ x ∧ x < s.pageToVirt p + PAGE_SIZE
  /-- New slabs are slabs of this allocator. -/
  heads : ∀ p, (s'.pages p).state = .slabHead →
    (s'.pages p).allocator = some s.self ∨ s'.pages p = s.pages p
  named : s.Named → s'.Named

theorem Frame.refl (s : Slabs) : Frame s s :=
  ⟨⟨rfl, rfl, rfl, rfl, rfl⟩, fun _ _ => rfl, fun _ hne => absurd rfl hne, fun _ _ => .inr rfl, id⟩

theorem page_of_block (hx : s.pageToVirt g ≤ x)
    (hx' : x < s.pageToVirt g + PAGE_SIZE * 2 ^ s.alloc.slabOrder) :
    ∃ p, s.InBlock g p ∧ s.pageToVirt p ≤ x ∧ x < s.pageToVirt p + PAGE_SIZE := by
  have hmod := Nat.mod_lt (x - s.pageToVirt g) (show 0 < PAGE_SIZE by decide)
  have hdiv := Nat.div_add_mod (x - s.pageToVirt g) PAGE_SIZE
  have hlt : (x - s.pageToVirt g) / PAGE_SIZE < 2 ^ s.alloc.slabOrder := by
    rw [Nat.div_lt_iff_lt_mul (by decide), mul_comm]
    omega
  refine ⟨g + (x - s.pageToVirt g) / PAGE_SIZE,
    ⟨le_self_add, Nat.add_lt_add_left hlt _⟩, ?_⟩
  have hvirt : s.pageToVirt (g + (x - s.pageToVirt g) / PAGE_SIZE)
      = s.pageToVirt g + PAGE_SIZE * ((x - s.pageToVirt g) / PAGE_SIZE) := by
    unfold pageToVirt
    rw [mul_add, add_assoc]
  omega

theorem page_unique {q : Nat} (hp : s.pageToVirt p ≤ x ∧ x < s.pageToVirt p + PAGE_SIZE)
    (hq : s.pageToVirt q ≤ x ∧ x < s.pageToVirt q + PAGE_SIZE) : p = q := by
  have hsize : PAGE_SIZE = 4096 := rfl
  unfold pageToVirt at hp hq
  rw [hsize] at hp hq
  omega

theorem inBlock_self (s : Slabs) (g : Nat) : s.InBlock g g :=
  ⟨le_rfl, Nat.lt_add_of_pos_right (Nat.two_pow_pos _)⟩

/-! ## The calls -/

theorem Taken.owns (h : Taken s s' g) (p : Nat) : s'.Owns p ↔ s.Owns p := by
  unfold Owns
  rw [h.layout.self]
  by_cases hp : p = g
  · subst hp
    rw [h.page.1, h.page.2.2]
  · rw [h.pages p hp]

theorem Taken.allocator (h : Taken s s' g) (p : Nat) :
    (s'.pages p).allocator = (s.pages p).allocator := by
  by_cases hp : p = g
  · subst hp
    exact h.page.2.2
  · rw [h.pages p hp]

theorem Taken.named (h : Taken s s' g) (hnamed : s.Named) : s'.Named := by
  intro q hq p hp hp'
  rw [h.layout.slabOrder] at hp'
  rw [h.allocator, h.layout.self]
  exact hnamed q ((h.owns q).mp hq) p hp hp'

theorem Taken.frame (h : Taken s s' g) (hg : s.Owns g) : Frame s s' := by
  refine ⟨h.layout, ?_, ?_, ?_, h.named⟩
  · intro p hp
    refine h.pages p ?_
    intro he
    subst he
    exact hp (.inl ⟨p, hg, s.inBlock_self p⟩)
  · intro x hne
    rw [h.mem] at hne
    exact absurd rfl hne
  · intro p _
    by_cases hp : p = g
    · subst hp
      exact .inl (h.page.2.2.trans hg.2)
    · exact .inr (h.pages p hp)

theorem NewSlab.owns (h : NewSlab s s' head) (hp : s'.Owns p) :
    p = head ∨ ¬ s.InBlock head p ∧ s.Owns p := by
  by_cases hin : s.InBlock head p
  · by_contra hne
    have hstate := (h.tails p (by have := hin.1; omega) hin.2).1
    rw [hp.1] at hstate
    cases hstate
  · refine .inr ⟨hin, ?_⟩
    unfold Owns at hp
    rw [h.pages p hin, h.layout.self] at hp
    exact hp

theorem NewSlab.frame (h : NewSlab s s' head) (hb : Blocks s slabs) (hfresh : Fresh s head) : Frame s s' := by
  have husable : ∀ {p}, s.InBlock head p → s.Usable p := fun hin => .inr (hfresh.unused _ hin)
  refine ⟨h.layout, ?_, ?_, ?_, ?_⟩
  · intro p hp
    exact h.pages p fun hin => hp (husable hin)
  · intro x hne
    obtain ⟨p, hin, hx⟩ : ∃ p, s.InBlock head p ∧ s.pageToVirt p ≤ x ∧
        x < s.pageToVirt p + PAGE_SIZE := by
      by_cases hout : x < s.pageToVirt head ∨
          s.pageToVirt head + PAGE_SIZE * 2 ^ s.alloc.slabOrder ≤ x
      · exact absurd (h.mem x hout) hne
      · exact page_of_block (by omega) (by omega)
    exact ⟨p, husable hin, hx⟩
  · intro p hp
    by_cases hin : s.InBlock head p
    · refine .inl ?_
      by_cases he : p = head
      · subst he
        exact h.owner
      · rw [(h.tails p (by have := hin.1; omega) hin.2).1] at hp
        cases hp
    · exact .inr (h.pages p hin)
  · intro hnamed g hg p hp hp'
    rw [h.layout.slabOrder] at hp'
    rw [h.layout.self]
    rcases h.owns hg with rfl | ⟨hout, hown⟩
    · rw [h.named p hp (by omega), if_pos hp']
    · -- the block of an old slab is apart from the new one
      have hapart := hb.fresh_apart hfresh ((hb.heads g).mpr hown)
      have hkeep := (h.keeps hapart).1 p ⟨le_of_lt hp, by omega⟩
      rw [hkeep]
      exact hnamed g hown p hp hp'

theorem Frame.taken (hf : Frame s s₁) (hown : s₁.Owns head) (husable : s.Usable head)
    (ht : Taken s₁ s' head) : Frame s s' := by
  refine ⟨hf.layout.trans ht.layout, ?_, ?_, ?_, fun hnamed => ht.named (hf.named hnamed)⟩
  · intro p hp
    rw [ht.pages p fun he => hp (he ▸ husable), hf.pages p hp]
  · intro x hne
    rw [ht.mem] at hne
    exact hf.mem x hne
  · intro p hp
    by_cases he : p = head
    · subst he
      exact .inl (ht.page.2.2.trans (hown.2.trans (by rw [hf.layout.self])))
    · rw [ht.pages p he] at hp ⊢
      exact hf.heads p hp

theorem Allocated.frame (hinv : Inv s slabs chain live) {answer r : Option Nat}
    (hfresh : ∀ head, answer = some head → Fresh s head)
    (h : Allocated s slabs live answer r s') : Frame s s' := by
  cases h with
  | none _ _ => exact Frame.refl s
  | old hg htaken _ => exact htaken.frame ((hinv.blocks.heads _).mp hg)
  | @new a head _ _ _ _ he hnew htaken _ =>
    have hf := hfresh head he
    have hown : Owns _ head := ⟨hnew.state, by rw [hnew.owner, hnew.layout.self]⟩
    exact (hnew.frame hinv.blocks hf).taken hown (.inr (hf.unused _ (s.inBlock_self _))) htaken

theorem Blocks.obj_usable (hb : Blocks s slabs) (hg : g ∈ slabs)
    (hi : i < s.alloc.objectCountPerSlab)
    (hmem : ∀ x, x < s.objAddr g i ∨ s.objAddr g i + s.alloc.objectSize ≤ x → s'.mem x = s.mem x)
    (hne : s'.mem x ≠ s.mem x) :
    ∃ p, s.Usable p ∧ s.pageToVirt p ≤ x ∧ x < s.pageToVirt p + PAGE_SIZE := by
  have hin := obj_inside (h := g) (hb.laid (List.ne_nil_of_mem hg)) hi
  by_cases hout : x < s.objAddr g i ∨ s.objAddr g i + s.alloc.objectSize ≤ x
  · exact absurd (hmem x hout) hne
  · obtain ⟨p, hp, hx⟩ := page_of_block (s := s) (g := g) (x := x) (by omega) (by omega)
    exact ⟨p, .inl ⟨g, (hb.heads g).mp hg, hp⟩, hx⟩

theorem Pushed.frame (h : Pushed s s' g i) (hb : Blocks s slabs) (hg : g ∈ slabs)
    (hi : i < s.alloc.objectCountPerSlab) : Frame s s' := by
  have hown := (hb.heads g).mp hg
  have hother : ∀ p, p ≠ g → s'.pages p = s.pages p := by
    intro p hp
    rw [h.pages, Function.update_of_ne hp]
  have hpage : (s'.pages g).state = (s.pages g).state ∧
      (s'.pages g).allocator = (s.pages g).allocator := by
    rw [h.pages, Function.update_self]
    exact ⟨rfl, rfl⟩
  have hall : ∀ p, (s'.pages p).state = (s.pages p).state ∧
      (s'.pages p).allocator = (s.pages p).allocator := by
    intro p
    by_cases hp : p = g
    · subst hp
      exact hpage
    · rw [hother p hp]
      exact ⟨rfl, rfl⟩
  refine ⟨h.layout, ?_, fun x => hb.obj_usable hg hi h.mem, ?_, ?_⟩
  · intro p hp
    refine hother p ?_
    intro he
    subst he
    exact hp (.inl ⟨p, hown, s.inBlock_self p⟩)
  · intro p _
    by_cases hp : p = g
    · subst hp
      exact .inl (hpage.2.trans hown.2)
    · exact .inr (hother p hp)
  · intro hnamed q hq p hp hp'
    rw [h.layout.slabOrder] at hp'
    rw [(hall p).2, h.layout.self]
    refine hnamed q ?_ p hp hp'
    unfold Owns at hq ⊢
    rwa [(hall q).1, (hall q).2, h.layout.self] at hq

theorem Destroyed.frame (h : Destroyed s s' g i) (hb : Blocks s slabs) (hg : g ∈ slabs)
    (hi : i < s.alloc.objectCountPerSlab) : Frame s s' := by
  have hown := (hb.heads g).mp hg
  have hstays : ∀ {q}, s'.Owns q → ¬ s.InBlock g q ∧ s.Owns q := by
    intro q hq
    by_cases hin : s.InBlock g q
    · have hstate := h.gone q hin
      rw [hq.1] at hstate
      cases hstate
    · unfold Owns at hq
      rw [h.pages q hin, h.layout.self] at hq
      exact ⟨hin, hq⟩
  refine ⟨h.layout, ?_, fun x => hb.obj_usable hg hi h.mem, ?_, ?_⟩
  · intro p hp
    exact h.pages p fun hin => hp (.inl ⟨g, hown, hin⟩)
  · intro p hp
    by_cases hin : s.InBlock g p
    · rw [h.gone p hin] at hp
      cases hp
    · exact .inr (h.pages p hin)
  · intro hnamed q hq p hp hp'
    obtain ⟨hout, hq'⟩ := hstays hq
    rw [h.layout.slabOrder] at hp'
    rw [h.layout.self]
    -- the slab that is left has no page in common with the one that is gone
    have hne : q ≠ g := fun he => hout (he ▸ s.inBlock_self g)
    have hapart := hb.apart ((hb.heads q).mpr hq') hg hne
    have hin : ¬ s.InBlock g p := by
      intro hin
      unfold InBlock at hin
      omega
    rw [h.pages p hin]
    exact hnamed q hq' p hp hp'

theorem Freed.frame (hinv : Inv s slabs chain live) (h : Freed s slabs s') : Frame s s' := by
  cases h with
  | pushed hg hi hpush => exact hpush.frame hinv.blocks hg hi
  | destroyed hg hi hdes => exact hdes.frame hinv.blocks hg hi

/-! ## Another allocator -/

/-- Two allocators over the same pages and memory. -/
structure Beside (s t : Slabs) : Prop where
  self : s.self ≠ t.self
  base : s.base = t.base
  pages : s.pages = t.pages
  mem : s.mem = t.mem

/-- **A page of one allocator's slab** is of no use to the other. -/
theorem Beside.not_usable (h : Beside s t) (hb : Blocks s slabs) (hb' : Blocks t slabs')
    (hg : t.Owns g) (hp : t.InBlock g p) : ¬ s.Usable p := by
  have hkind : ∀ q, t.InBlock g q → q = g ∨ (s.pages q).state = .slabTail := by
    intro q hq
    rcases eq_or_lt_of_le hq.1 with he | hlt
    · exact .inl he.symm
    · rw [h.pages]
      exact .inr (hb'.tails g ((hb'.heads g).mpr hg) q hlt hq.2).1
  have hhead : (s.pages g).state = .slabHead ∧ (s.pages g).allocator = some t.self := by
    rw [h.pages]
    exact hg
  rintro (⟨q, hq, hin⟩ | ⟨hno, hno'⟩)
  · -- the head of one of the two slabs is a page of the other
    have hqg : q ≠ g := by
      rintro rfl
      have := hq.2.symm.trans hhead.2
      injection this with this
      exact h.self this
    rcases Nat.lt_or_gt_of_ne hqg with hlt | hlt
    · have htail := (hb.tails q ((hb.heads q).mpr hq) g hlt (lt_of_le_of_lt hp.1 hin.2)).1
      rw [hhead.1] at htail
      cases htail
    · rcases hkind q ⟨le_of_lt hlt, lt_of_le_of_lt hin.1 hp.2⟩ with he | htail
      · exact hqg he
      · rw [hq.1] at htail
        cases htail
  · rcases hkind p hp with rfl | htail
    · exact hno hhead.1
    · exact hno' htail

section

variable (hf : Frame s s') (h : Beside s t) (hb : Blocks s slabs) (hb' : Blocks t slabs')
include hf h hb hb'

/-- A byte in a slab of one allocator is not written by a call of the other. -/
theorem Frame.mem_beside (hg : t.Owns g) (hx : t.pageToVirt g ≤ x)
    (hx' : x < t.pageToVirt g + PAGE_SIZE * 2 ^ t.alloc.slabOrder) :
    s'.mem x = t.mem x := by
  by_contra hne
  rw [← h.mem] at hne
  obtain ⟨p, husable, hp⟩ := hf.mem x hne
  obtain ⟨q, hq, hqx⟩ := page_of_block hx hx'
  have hpq : p = q := by
    unfold pageToVirt at hp hqx
    rw [h.base] at hp
    exact page_unique (s := t) hp hqx
  exact h.not_usable hb hb' hg hq (hpq ▸ husable)

/-- **A call of one allocator** is a step of the rest of the kernel for another one. -/
theorem Frame.respects (live : List Nat) :
    Respects t live s'.pages s'.mem := by
  refine ⟨?_, ?_, ?_⟩
  · intro g hg p hp
    rw [hf.pages p (h.not_usable hb hb' hg hp), h.pages]
  · intro p hstate howner
    rcases hf.heads p hstate with hself | hsame
    · rw [howner] at hself
      injection hself with hself
      exact absurd hself.symm h.self
    · rw [hsame, h.pages] at hstate howner
      exact ⟨hstate, howner⟩
  · intro x hne
    refine .inr ?_
    intro g hg
    by_contra hin
    exact hne (hf.mem_beside h hb hb' hg (by omega) (by omega))

end

theorem Named.respects {pages : Nat → SlabPage} {mem : Memory} (h : t.Named)
    (hres : Respects t live pages mem) : Named { t with pages := pages, mem := mem } := by
  intro g hg p hp hp'
  have hown : t.Owns g := hres.noNew g hg.1 hg.2
  have hlt : p < g + 2 ^ t.alloc.slabOrder := Nat.lt_of_succ_lt hp'
  change (pages p).allocator = some t.self
  rw [hres.kept g hown p ⟨le_of_lt hp, hlt⟩]
  exact h g hown p hp hp'

end OsKernel.Mm.Slabs
