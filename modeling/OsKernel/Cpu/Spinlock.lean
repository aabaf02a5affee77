import Mathlib

/-!
# The ticket lock (`kernel/cpu/spinlock.c`)

A thread that wants the lock takes the ticket `back` and waits until `front` has come to
it; releasing the lock moves `front` on. `spin_try_acquire` reads `back`, then `front`,
and takes the ticket with a compare-and-swap if the two were equal. A step here is one
atomic access to the lock by one thread, so a run is an interleaving of the calls.

Tickets are 32-bit words that wrap around. The tickets that are out are those from
`front` up to `back`, each of them held by a thread that waits or has the lock, and two
of them can only be the same word if there are 2³² of them. That happens when 2³² tickets
are taken during a call, or while a thread has the lock.

The world carries a history besides the lock and the threads: who took tickets, who was
granted the lock, and how many tickets had been taken when a thread started its call.
-/

namespace OsKernel.Cpu

open Function List

/-- `struct spinlock`. -/
structure Spinlock where
  front : UInt32
  back : UInt32

/-- Where a thread is in the calls on the lock. -/
inductive Pc where
  /-- In no call, and not the holder. -/
  | idle
  /-- In the loop of `spin_acquire`. -/
  | waiting (ticket : UInt32)
  /-- In `spin_try_acquire`, with `back` read. -/
  | loadedBack (ticket : UInt32)
  /-- In `spin_try_acquire`, with `front` found equal to `back`. -/
  | loadedFront (ticket : UInt32)
  /-- Returned from `spin_acquire`, or with true from `spin_try_acquire`. -/
  | holding
  deriving DecidableEq

/-- Inside a call of `spin_acquire` or `spin_try_acquire`. -/
def Pc.inCall : Pc → Bool
  | .waiting _ | .loadedBack _ | .loadedFront _ => true
  | .idle | .holding => false

/-- Inside a call, or with the lock. -/
def Pc.busy (pc : Pc) : Bool := pc != .idle

/-- The lock, the threads, and what has happened so far. -/
structure World (τ : Type) where
  lock : Spinlock
  pc : τ → Pc
  /-- The threads that took tickets, in the order of the tickets. -/
  taken : List τ
  /-- The threads that were granted the lock, in that order. -/
  granted : List τ
  /-- The number of releases. -/
  released : Nat
  /-- The number of tickets that had been taken when the last call of a thread started. -/
  since : τ → Nat

/-- `SPINLOCK_INIT`, with no thread in a call. -/
def World.init (τ : Type) : World τ where
  lock := { front := 0, back := 0 }
  pc _ := .idle
  taken := []
  granted := []
  released := 0
  since _ := 0

/-- What a thread may do next: start a call, go on with it, or release the lock. -/
inductive Event (τ : Type) where
  | acquire (t : τ)
  | tryAcquire (t : τ)
  | next (t : τ)
  | release (t : τ)

section

variable {τ : Type} [DecidableEq τ] {w w' : World τ} {t : τ}

/-- Where a thread is now. -/
def World.setPc (w : World τ) (t : τ) (pc : Pc) : World τ :=
  { w with pc := Function.update w.pc t pc }

/-- The thread has the lock now. -/
def World.grant (w : World τ) (t : τ) : World τ :=
  { w.setPc t .holding with granted := w.granted ++ [t] }

/-- A call starts. -/
def World.enter (w : World τ) (t : τ) (pc : Pc) : World τ :=
  { w.setPc t pc with since := Function.update w.since t w.taken.length }

/-- One atomic step of one thread, `none` if the thread is not where it could make it. -/
def World.step (w : World τ) : Event τ → Option (World τ)
  | .acquire t =>
    match w.pc t with
    | .idle =>
      -- `atomic_fetch_add(&lock->back, 1)`
      some { w.enter t (.waiting w.lock.back) with
        lock := { w.lock with back := w.lock.back + 1 }
        taken := w.taken ++ [t] }
    | _ => none
  | .tryAcquire t =>
    match w.pc t with
    | .idle => some (w.enter t (.loadedBack w.lock.back))
    | _ => none
  | .next t =>
    match w.pc t with
    | .waiting ticket => if w.lock.front = ticket then some (w.grant t) else some w
    | .loadedBack ticket =>
      if w.lock.front = ticket then some (w.setPc t (.loadedFront ticket))
      else some (w.setPc t .idle)
    | .loadedFront ticket =>
      -- `atomic_compare_exchange_strong(&lock->back, &ticket, ticket + 1)`
      if w.lock.back = ticket then
        some { w.grant t with
          lock := { w.lock with back := ticket + 1 }
          taken := w.taken ++ [t] }
      else some (w.setPc t .idle)
    | .idle | .holding => none
  | .release t =>
    match w.pc t with
    | .holding =>
      some { w.setPc t .idle with
        lock := { w.lock with front := w.lock.front + 1 }
        released := w.released + 1 }
    | _ => none

/-- Fewer than 2³² tickets have been taken since a thread started what it is at. -/
def FewTickets (during : Pc → Bool) (w w' : World τ) : Prop :=
  ∀ t, during (w.pc t) ∨ during (w'.pc t) → w'.taken.length < w'.since t + 2 ^ 32

/-- The worlds of the runs in which few tickets are taken `during` what a thread is at. -/
inductive Reachable (during : Pc → Bool) : World τ → Prop
  | init : Reachable during (World.init τ)
  | step {w w' : World τ} {event : Event τ} : Reachable during w → w.step event = some w' →
      FewTickets during w w' → Reachable during w'

/-! ## What a step can do -/

/-- What the steps of the threads do. -/
inductive Steps (w : World τ) : World τ → Prop
  /-- `spin_acquire` takes a ticket. -/
  | take (t : τ) : w.pc t = .idle →
      Steps w { w.enter t (.waiting w.lock.back) with
        lock := { w.lock with back := w.lock.back + 1 }
        taken := w.taken ++ [t] }
  /-- `spin_acquire` finds its ticket at the front. -/
  | grant (t : τ) : w.pc t = .waiting w.lock.front → Steps w (w.grant t)
  /-- `spin_acquire` goes on waiting. -/
  | spin : Steps w w
  /-- `spin_try_acquire` reads `back`. -/
  | loadBack (t : τ) : w.pc t = .idle → Steps w (w.enter t (.loadedBack w.lock.back))
  /-- `spin_try_acquire` finds `front` equal. -/
  | loadFront (t : τ) : w.pc t = .loadedBack w.lock.front →
      Steps w (w.setPc t (.loadedFront w.lock.front))
  /-- `spin_try_acquire` finds `front` or `back` different. -/
  | fail (t : τ) (ticket : UInt32) : w.pc t = .loadedBack ticket ∨ w.pc t = .loadedFront ticket →
      Steps w (w.setPc t .idle)
  /-- `spin_try_acquire` takes a ticket and has the lock. -/
  | swap (t : τ) : w.pc t = .loadedFront w.lock.back →
      Steps w { w.grant t with
        lock := { w.lock with back := w.lock.back + 1 }
        taken := w.taken ++ [t] }
  /-- `spin_release`. -/
  | release (t : τ) : w.pc t = .holding →
      Steps w { w.setPc t .idle with
        lock := { w.lock with front := w.lock.front + 1 }
        released := w.released + 1 }

theorem steps_of_step {event : Event τ} (h : w.step event = some w') : Steps w w' := by
  cases event with
  | acquire t =>
    rw [World.step] at h
    split at h
    case h_1 hpc =>
      cases h
      exact .take t hpc
    case h_2 => cases h
  | tryAcquire t =>
    rw [World.step] at h
    split at h
    case h_1 hpc =>
      cases h
      exact .loadBack t hpc
    case h_2 => cases h
  | next t =>
    rw [World.step] at h
    split at h
    case h_1 ticket hpc =>
      split at h
      case isTrue heq =>
        cases h
        exact .grant t (heq ▸ hpc)
      case isFalse =>
        cases h
        exact .spin
    case h_2 ticket hpc =>
      split at h
      case isTrue heq =>
        cases h
        subst heq
        exact .loadFront t hpc
      case isFalse =>
        cases h
        exact .fail t ticket (.inl hpc)
    case h_3 ticket hpc =>
      split at h
      case isTrue heq =>
        cases h
        subst heq
        exact .swap t hpc
      case isFalse =>
        cases h
        exact .fail t ticket (.inr hpc)
    case h_4 => cases h
    case h_5 => cases h
  | release t =>
    rw [World.step] at h
    split at h
    case h_1 hpc =>
      cases h
      exact .release t hpc
    case h_2 => cases h

/-! ## The invariant -/

/-- What holds of a thread, with the number of tickets taken before its call. -/
def ThreadOk (w : World τ) (t : τ) (since : Nat) : Pc → Prop
  | .idle => True
  -- The ticket is the first one taken in the call, and was not granted yet.
  | .waiting ticket => ticket.toNat = since % 2 ^ 32 ∧ w.granted.length ≤ since ∧
      w.taken[since]? = some t
  | .loadedBack ticket => ticket.toNat = since % 2 ^ 32 ∧ since ≤ w.taken.length
  -- When `front` was equal, all tickets from before the call had been released.
  | .loadedFront ticket => ticket.toNat = since % 2 ^ 32 ∧ since ≤ w.taken.length ∧
      since ≤ w.released
  -- The holder is the last one that was granted the lock.
  | .holding => w.granted.length = w.released + 1 ∧ w.granted[w.released]? = some t

omit [DecidableEq τ] in
theorem ThreadOk.of_lists (h : ThreadOk w t n pc) (htaken : w'.taken = w.taken)
    (hgranted : w'.granted = w.granted) (hreleased : w'.released = w.released) :
    ThreadOk w' t n pc := by
  cases pc with
  | idle => trivial
  | _ => simpa only [ThreadOk, htaken, hgranted, hreleased] using h

/-- What holds in between the steps. -/
structure Inv (w : World τ) : Prop where
  front : w.lock.front.toNat = w.released % 2 ^ 32
  back : w.lock.back.toNat = w.taken.length % 2 ^ 32
  /-- The lock is granted in the order of the tickets. -/
  order : w.granted <+: w.taken
  threads : ∀ t, ThreadOk w t (w.since t) (w.pc t)
  /-- Every ticket that was not granted yet is waited for. -/
  owner : ∀ n, w.granted.length ≤ n → n < w.taken.length →
    ∃ t ticket, w.pc t = .waiting ticket ∧ w.since t = n
  /-- The lock has been released as often as it was granted, or there is a holder. -/
  held : w.granted.length = w.released ∨
    (w.granted.length = w.released + 1 ∧ ∃ t, w.pc t = .holding ∧ w.since t ≤ w.released)

omit [DecidableEq τ] in
theorem inv_init : Inv (World.init τ) where
  front := rfl
  back := rfl
  order := List.prefix_rfl
  threads _ := trivial
  owner _ _ h := nomatch h
  held := .inl rfl

section bounds

variable (h : Inv w)
include h

omit [DecidableEq τ] in
theorem Inv.released_le : w.released ≤ w.granted.length := by
  rcases h.held with heq | ⟨heq, -⟩ <;> omega

omit [DecidableEq τ] in
theorem Inv.out_lt (hfew : ∀ t, w.pc t ≠ .idle → w.taken.length < w.since t + 2 ^ 32) :
    w.taken.length < w.released + 2 ^ 32 := by
  rcases h.held with heq | ⟨-, t, hpc, hsince⟩
  · by_cases hout : w.granted.length < w.taken.length
    · -- The ticket at the front is waited for.
      obtain ⟨t, ticket, hpc, hsince⟩ := h.owner w.granted.length le_rfl hout
      have hlt := hfew t (by rw [hpc]; exact nofun)
      omega
    · omega
  · have hlt := hfew t (by rw [hpc]; exact nofun)
    omega

omit [DecidableEq τ] in
/-- **Only one thread has the lock.** -/
theorem Inv.exclusive {u : τ} (ht : w.pc t = .holding) (hu : w.pc u = .holding) : t = u := by
  have hokt := h.threads t
  have hoku := h.threads u
  rw [ht] at hokt
  rw [hu] at hoku
  exact Option.some.inj (hokt.2.symm.trans hoku.2)

omit [DecidableEq τ] in
/-- A waiting thread that finds its ticket at the front has the next ticket in the order. -/
theorem Inv.since_of_front (hfew : ∀ t, w.pc t ≠ .idle → w.taken.length < w.since t + 2 ^ 32)
    (hpc : w.pc t = .waiting w.lock.front) :
    w.since t = w.released ∧ w.granted.length = w.released ∧ w.taken[w.granted.length]? = some t := by
  have hok := h.threads t
  rw [hpc] at hok
  obtain ⟨hticket, hgranted, htaken⟩ := hok
  have hout := h.out_lt hfew
  have hle := h.released_le
  have hlt : w.since t < w.taken.length := (List.getElem?_eq_some_iff.mp htaken).1
  rw [h.front] at hticket
  -- Two tickets that are out are the same word only if they are the same.
  have heq : w.since t = w.released := by omega
  have hlen : w.granted.length = w.released := by omega
  exact ⟨heq, hlen, by rw [hlen, ← heq]; exact htaken⟩

end bounds

/-! ## Every step keeps it -/

section step

variable (h : Inv w)
include h

theorem Inv.take (hpc : w.pc t = .idle) :
    Inv { w.enter t (.waiting w.lock.back) with
      lock := { w.lock with back := w.lock.back + 1 }
      taken := w.taken ++ [t] } := by
  have horder := h.order.length_le
  refine ⟨h.front, ?_, h.order.trans (prefix_append _ _), fun u => ?_, fun n hn hlt => ?_, ?_⟩
  · rw [UInt32.toNat_add, h.back, length_append]
    simp
  · by_cases hu : u = t
    · subst hu
      simp [World.enter, World.setPc, ThreadOk, h.back, horder]
    · have hok := h.threads u
      simp only [World.enter, World.setPc, update_of_ne hu]
      cases hpcu : w.pc u <;> rw [hpcu] at hok <;> simp only [ThreadOk, length_append] at hok ⊢
      case waiting =>
        refine ⟨hok.1, hok.2.1, ?_⟩
        rw [List.getElem?_append_left (List.getElem?_eq_some_iff.mp hok.2.2).1]
        exact hok.2.2
      case loadedBack => exact ⟨hok.1, by omega⟩
      case loadedFront => exact ⟨hok.1, by omega, hok.2.2⟩
      case holding => exact hok
  · simp only [length_append, length_singleton] at hlt
    rcases lt_or_eq_of_le (Nat.lt_succ_iff.mp hlt) with hlt | rfl
    · obtain ⟨u, ticket, hu, hsince⟩ := h.owner n hn hlt
      have hne : u ≠ t := fun heq => by rw [heq, hpc] at hu; cases hu
      exact ⟨u, ticket, by simp [World.enter, World.setPc, hne, hu],
        by simp [World.enter, hne, hsince]⟩
    · exact ⟨t, w.lock.back, by simp [World.enter, World.setPc], by simp [World.enter]⟩
  · rcases h.held with heq | ⟨heq, u, hu, hsince⟩
    · exact .inl heq
    · have hne : u ≠ t := fun heq => by rw [heq, hpc] at hu; cases hu
      exact .inr ⟨heq, u, by simp [World.enter, World.setPc, hne, hu],
        by simpa [World.enter, World.setPc, hne] using hsince⟩

theorem Inv.grant (hsince : w.since t = w.released) (hlen : w.granted.length = w.released)
    (hnext : w.taken[w.granted.length]? = some t) :
    Inv (w.grant t) := by
  refine ⟨h.front, h.back, ?_, fun u => ?_, fun n hn hlt => ?_, .inr ⟨?_, t, ?_, ?_⟩⟩
  · obtain ⟨rest, hrest⟩ := h.order
    show w.granted ++ [t] <+: w.taken
    rw [← hrest] at hnext ⊢
    rw [getElem?_append_right le_rfl, Nat.sub_self] at hnext
    cases rest with
    | nil => cases hnext
    | cons u rest =>
      obtain rfl : u = t := by simpa using hnext
      exact ⟨rest, by simp⟩
  · by_cases hu : u = t
    · subst hu
      simp only [World.grant, World.setPc, update_self, ThreadOk, length_append,
        length_singleton, ← hlen, getElem?_concat_length, and_self]
    · have hok := h.threads u
      simp only [World.grant, World.setPc, update_of_ne hu]
      cases hpcu : w.pc u <;> rw [hpcu] at hok <;> simp only [ThreadOk, length_append] at hok ⊢
      case waiting =>
        have hne : w.since u ≠ w.granted.length := by
          intro heq
          rw [heq, hnext] at hok
          exact hu (Option.some.inj hok.2.2).symm
        exact ⟨hok.1, by simp only [length_singleton]; omega, hok.2.2⟩
      case loadedBack => exact hok
      case loadedFront => exact hok
      case holding => omega
  · simp only [World.grant, World.setPc, length_append, length_singleton] at hn hlt
    obtain ⟨u, ticket, hu, hn'⟩ := h.owner n (by omega) hlt
    have hne : u ≠ t := fun heq => by rw [heq] at hn'; omega
    exact ⟨u, ticket, by simp [World.grant, World.setPc, hne, hu], hn'⟩
  · simp [World.grant, World.setPc, hlen]
  · simp [World.grant, World.setPc]
  · exact le_of_eq hsince

section

variable (hwaiting : ∀ ticket, w.pc t ≠ .waiting ticket) (hholding : w.pc t ≠ .holding)
include hwaiting hholding

theorem Inv.setPc (hok : ThreadOk w t n pc) :
    Inv { w.setPc t pc with since := update w.since t n } := by
  refine ⟨h.front, h.back, h.order, fun u => ?_, fun k hk hlt => ?_, ?_⟩
  · by_cases hu : u = t
    · subst hu
      simp only [World.setPc, update_self]
      exact hok.of_lists rfl rfl rfl
    · simp only [World.setPc, update_of_ne hu]
      exact (h.threads u).of_lists rfl rfl rfl
  · obtain ⟨u, ticket, hu, hsince⟩ := h.owner k hk hlt
    have hne : u ≠ t := fun heq => hwaiting ticket (heq ▸ hu)
    exact ⟨u, ticket, by simp [World.setPc, hne, hu], by simp [hne, hsince]⟩
  · rcases h.held with heq | ⟨heq, u, hu, hsince⟩
    · exact .inl heq
    · have hne : u ≠ t := fun heq => hholding (heq ▸ hu)
      exact .inr ⟨heq, u, by simp [World.setPc, hne, hu], by simpa [World.setPc, hne] using hsince⟩

theorem Inv.move (hok : ThreadOk w t (w.since t) pc) : Inv (w.setPc t pc) := by
  have hnew := h.setPc hwaiting hholding hok
  rwa [update_eq_self] at hnew

end

/--
`spin_try_acquire` takes a ticket and has the lock, as if it had left the call, started to wait, and
found its ticket at the front.
-/
theorem Inv.swap (hpc : w.pc t = .loadedFront w.lock.back) (hsince : w.since t = w.released)
    (hlen : w.granted.length = w.released) (htaken : w.taken.length = w.released) :
    Inv { w.grant t with
      lock := { w.lock with back := w.lock.back + 1 }
      taken := w.taken ++ [t] } := by
  have hidle : Inv (w.setPc t .idle) := h.move (by simp [hpc]) (by simp [hpc]) trivial
  have hwait := hidle.take (t := t) (by simp [World.setPc])
  have hgrant := hwait.grant (t := t)
    (by simpa [World.enter, World.setPc] using htaken) hlen
    (by simp [World.enter, World.setPc, hlen, ← htaken])
  have hkeep : update w.since t w.taken.length = w.since := by
    rw [htaken, ← hsince, update_eq_self]
  simpa only [World.enter, World.setPc, World.grant, update_idem, hkeep] using hgrant

theorem Inv.release (hpc : w.pc t = .holding) :
    Inv { w.setPc t .idle with
      lock := { w.lock with front := w.lock.front + 1 }
      released := w.released + 1 } := by
  have hokt := h.threads t
  rw [hpc] at hokt
  refine ⟨?_, h.back, h.order, fun u => ?_, fun n hn hlt => ?_, .inl hokt.1⟩
  · rw [UInt32.toNat_add, h.front]
    simp
  · by_cases hu : u = t
    · subst hu
      simp [World.setPc, ThreadOk]
    · have hok := h.threads u
      simp only [World.setPc, update_of_ne hu]
      cases hpcu : w.pc u <;> rw [hpcu] at hok <;> simp only [ThreadOk] at hok ⊢
      case waiting => exact hok
      case loadedBack => exact hok
      case loadedFront => exact ⟨hok.1, hok.2.1, by omega⟩
      case holding => exact absurd (h.exclusive hpcu hpc) hu
  · obtain ⟨u, ticket, hu, hsince⟩ := h.owner n hn hlt
    have hne : u ≠ t := fun heq => by rw [heq, hpc] at hu; cases hu
    exact ⟨u, ticket, by simp [World.setPc, hne, hu], hsince⟩

end step

/-- **Every step keeps the invariant**, if fewer than 2³² tickets are out. -/
theorem Inv.steps (h : Inv w) (hfew : ∀ t, w.pc t ≠ .idle → w.taken.length < w.since t + 2 ^ 32)
    (hstep : Steps w w') : Inv w' := by
  cases hstep with
  | take t hpc => exact h.take hpc
  | grant t hpc =>
    obtain ⟨hsince, hlen, hnext⟩ := h.since_of_front hfew hpc
    exact h.grant hsince hlen hnext
  | spin => exact h
  | loadBack t hpc =>
    exact h.setPc (by simp [hpc]) (by simp [hpc]) ⟨h.back, le_rfl⟩
  | loadFront t hpc =>
    have hok := h.threads t
    rw [hpc] at hok
    obtain ⟨hticket, hsince⟩ := hok
    have hlt := hfew t (by rw [hpc]; exact nofun)
    have hout := h.out_lt hfew
    have hle := h.released_le
    have horder := h.order.length_le
    -- `front` and the `back` from before are words of numbers that are less than 2³² apart.
    have heq : w.since t = w.released := by
      have hfront := h.front
      omega
    exact h.move (by simp [hpc]) (by simp [hpc]) ⟨hticket, hsince, le_of_eq heq⟩
  | fail t ticket hpc =>
    rcases hpc with hpc | hpc
    · exact h.move (by simp [hpc]) (by simp [hpc]) trivial
    · exact h.move (by simp [hpc]) (by simp [hpc]) trivial
  | swap t hpc =>
    have hok := h.threads t
    rw [hpc] at hok
    obtain ⟨hticket, hsince, hreleased⟩ := hok
    have hlt := hfew t (by rw [hpc]; exact nofun)
    have hle := h.released_le
    have horder := h.order.length_le
    rw [h.back] at hticket
    -- the words are equal, so no ticket is out
    exact h.swap hpc (by omega) (by omega) (by omega)
  | release t hpc => exact h.release hpc

/-- A thread in a call or with the lock started it before, and the tickets only grow. -/
theorem few_before (hstep : Steps w w') (hfew : FewTickets Pc.busy w w') :
    ∀ t, w.pc t ≠ .idle → w.taken.length < w.since t + 2 ^ 32 := by
  intro t hpc
  have hlt := hfew t (.inl (by simpa [Pc.busy] using hpc))
  have hne : ∀ {u}, w.pc u = .idle → t ≠ u := fun hu heq => hpc (heq ▸ hu)
  cases hstep with
  | take u hu =>
    simp only [World.enter, World.setPc, update_of_ne (hne hu), length_append] at hlt
    omega
  | loadBack u hu =>
    simpa only [World.enter, World.setPc, update_of_ne (hne hu)] using hlt
  | swap u hu =>
    simp only [World.grant, World.setPc, length_append] at hlt
    omega
  | grant | spin | loadFront | fail | release => exact hlt

theorem Reachable.inv (h : Reachable Pc.busy w) : Inv w := by
  induction h with
  | init => exact inv_init
  | step _ hstep hfew ih =>
    have hsteps := steps_of_step hstep
    exact ih.steps (few_before hsteps hfew) hsteps

/-! ## The lock -/

/--
**The ticket lock is safe.** In every run in which fewer than 2³² tickets are taken from the start of
a thread's call to its end, or to the release of the lock that it was granted, at most one thread has
the lock, the lock is granted in the order of the tickets, and a step of `spin_try_acquire` that does
not get the lock changes neither the lock nor what any other thread is at.
-/
theorem spinlock_safe {τ : Type} [DecidableEq τ] (w : World τ) (h : Reachable Pc.busy w) :
    (∀ t u, w.pc t = .holding → w.pc u = .holding → t = u) ∧
      w.granted <+: w.taken ∧
      ∀ t event w', w.step event = some w' →
        (event = .tryAcquire t ∨
          (event = .next t ∧ ∃ ticket, w.pc t = .loadedBack ticket ∨ w.pc t = .loadedFront ticket)) →
        w'.pc t ≠ .holding →
        w'.lock = w.lock ∧ w'.taken = w.taken ∧ ∀ u, u ≠ t → w'.pc u = w.pc u := by
  refine ⟨fun t u ht hu => h.inv.exclusive ht hu, h.inv.order, ?_⟩
  intro t event w' hstep htry hnot
  rcases htry with rfl | ⟨rfl, ticket, hpc | hpc⟩
  · simp only [World.step] at hstep
    split at hstep
    case h_1 =>
      cases hstep
      exact ⟨rfl, rfl, fun u hu => update_of_ne hu _ _⟩
    case h_2 => cases hstep
  · simp only [World.step, hpc] at hstep
    split at hstep
    · cases hstep
      exact ⟨rfl, rfl, fun u hu => update_of_ne hu _ _⟩
    · cases hstep
      exact ⟨rfl, rfl, fun u hu => update_of_ne hu _ _⟩
  · simp only [World.step, hpc] at hstep
    split at hstep
    · cases hstep
      simp [World.grant, World.setPc] at hnot
    · cases hstep
      exact ⟨rfl, rfl, fun u hu => update_of_ne hu _ _⟩

end

/-- Several steps. -/
def World.run {τ : Type} [DecidableEq τ] : World τ → List (Event τ) → Option (World τ)
  | w, [] => some w
  | w, event :: events =>
    match w.step event with
    | some w' => run w' events
    | none => none

theorem taken_length_le {τ : Type} [DecidableEq τ] {w w' : World τ} (h : Steps w w') :
    w'.taken.length ≤ w.taken.length + 1 := by
  cases h with
  | take t _ => simp
  | swap t _ => simp
  | _ => exact Nat.le_succ _

theorem Reachable.run {τ : Type} [DecidableEq τ] {w w' : World τ} {during : Pc → Bool}
    {events : List (Event τ)} (h : Reachable during w) (hrun : w.run events = some w')
    (hlen : w.taken.length + events.length < 2 ^ 32) : Reachable during w' := by
  induction events generalizing w with
  | nil =>
    cases hrun
    exact h
  | cons event events ih =>
    rw [World.run] at hrun
    split at hrun
    case h_1 w₁ hstep =>
      have hle := taken_length_le (steps_of_step hstep)
      rw [length_cons] at hlen
      exact ih (.step h hstep fun t _ => by omega) hrun (by omega)
    case h_2 => cases hrun

theorem spinlock_safe_two_threads :
    ∃ w : World Nat, (World.init Nat).run [.acquire 0, .next 0, .acquire 1, .next 1, .tryAcquire 2, .next 2,
        .release 0, .next 1] = some w ∧ w.granted = [0, 1] ∧ w.pc 1 = .holding ∧
      ∀ u, w.pc u = .holding → u = 1 := by
  have hrun : ((World.init Nat).run [.acquire 0, .next 0, .acquire 1, .next 1, .tryAcquire 2, .next 2,
      .release 0, .next 1]).map (fun w => (w.granted, w.pc 1)) = some ([0, 1], .holding) := by decide
  obtain ⟨w, hw, heq⟩ := Option.map_eq_some_iff.mp hrun
  obtain ⟨hgranted, hpc⟩ := Prod.mk.inj heq
  exact ⟨w, hw, hgranted, hpc,
    fun u hu => (spinlock_safe w (Reachable.run .init hw (by decide))).1 u 1 hu hpc⟩

/-! ## Waiting threads are served -/

section served

variable {τ : Type} [DecidableEq τ] {w : World τ} {t : τ} {ticket : UInt32}

/-- While a thread waits, the holder can release the lock, or the oldest ticket is at the front. -/
theorem Inv.progress (h : Inv w) (hpc : w.pc t = .waiting ticket) :
    ∃ event w', w.step event = some w' ∧ Inv w' ∧ w'.taken = w.taken ∧ w'.since = w.since ∧
      w'.granted.length + w'.released = w.granted.length + w.released + 1 ∧
      (w'.pc t = .holding ∨ w'.pc t = .waiting ticket) := by
  rcases h.held with hfree | ⟨-, u, hpcu, -⟩
  · have hok := h.threads t
    rw [hpc] at hok
    obtain ⟨u, ticket', hpcu, hsince⟩ := h.owner _ le_rfl
      (hok.2.1.trans_lt (List.getElem?_eq_some_iff.mp hok.2.2).1)
    have hoku := h.threads u
    rw [hpcu, hsince] at hoku
    have hfront : w.lock.front = ticket' := by
      rw [← UInt32.toNat_inj, h.front, hoku.1, hfree]
    refine ⟨.next u, w.grant u, by simp [World.step, hpcu, hfront],
      h.grant (hsince.trans hfree) hfree hoku.2.2, rfl, rfl, ?_, ?_⟩
    · simp [World.grant, World.setPc]
      omega
    · by_cases htu : t = u
      · exact .inl (by simp [World.grant, World.setPc, htu])
      · exact .inr (by simp [World.grant, World.setPc, htu, hpc])
  · have hne : t ≠ u := by
      intro heq
      rw [← heq, hpc] at hpcu
      cases hpcu
    exact ⟨.release u, _, by simp [World.step, hpcu], h.release hpcu, rfl, rfl, rfl,
      .inr ((update_of_ne hne _ _).trans hpc)⟩

/-- Each such step brings the thread nearer to the lock. -/
theorem Inv.served (n : Nat) (h : Inv w) (hpc : w.pc t = .waiting ticket)
    (hn : 2 * w.since t + 1 = w.granted.length + w.released + n) :
    ∃ events w', w.run events = some w' ∧ w'.pc t = .holding ∧ w'.taken = w.taken ∧
      events.length ≤ n := by
  induction n generalizing w with
  | zero =>
    have hok := h.threads t
    have hle := h.released_le
    rw [hpc] at hok
    have := hok.2.1
    omega
  | succ n ih =>
    obtain ⟨event, w₁, hstep, hinv, htaken, hsince, hcount, hholds | hwaits⟩ := h.progress hpc
    · exact ⟨[event], w₁, by simp [World.run, hstep], hholds, htaken, by simp⟩
    · obtain ⟨events, w', hrun, hholds, htaken', hlen⟩ := ih hinv hwaits (by rw [hsince]; omega)
      exact ⟨event :: events, w', by rw [World.run, hstep]; exact hrun, hholds,
        htaken'.trans htaken, Nat.succ_le_succ hlen⟩

end served

/--
**No waiting thread is starved or stuck.** While a thread waits, only threads with earlier tickets
have been granted the lock, whatever tickets were taken later. From there it gets the lock after no
more than the grants and releases that are due before, without any further ticket.
-/
theorem spinlock_serves {τ : Type} [DecidableEq τ] (w : World τ) (h : Reachable Pc.busy w) (t : τ)
    (ticket : UInt32) (hpc : w.pc t = .waiting ticket) :
    w.taken[w.since t]? = some t ∧ w.granted <+: w.taken ∧ w.granted.length ≤ w.since t ∧
      ∃ events w', w.run events = some w' ∧ w'.pc t = .holding ∧ w'.taken = w.taken ∧
        w.granted.length + w.released + events.length ≤ 2 * w.since t + 1 := by
  have hok := h.inv.threads t
  have hle := h.inv.released_le
  rw [hpc] at hok
  obtain ⟨-, hlate, hticket⟩ := hok
  obtain ⟨events, w', hrun, hholds, htaken, hlen⟩ :=
    h.inv.served (2 * w.since t + 1 - (w.granted.length + w.released)) hpc (by omega)
  exact ⟨hticket, h.inv.order, hlate, events, w', hrun, hholds, htaken, by omega⟩

/-- Thread 0 has the lock and thread 1 waits for it. -/
theorem spinlock_serves_two_threads : ∃ w : World Nat,
    (World.init Nat).run [.acquire 0, .next 0, .acquire 1] = some w ∧
      ∃ events w', w.run events = some w' ∧ w'.pc 1 = .holding := by
  have hrun : ((World.init Nat).run [.acquire 0, .next 0, .acquire 1]).map (fun w => w.pc 1) =
      some (.waiting 1) := by decide
  obtain ⟨w, hw, hpc⟩ := Option.map_eq_some_iff.mp hrun
  obtain ⟨-, -, -, events, w', hserve, hholds, -⟩ :=
    spinlock_serves w (Reachable.run .init hw (by decide)) 1 1 hpc
  exact ⟨w, hw, events, w', hserve, hholds⟩

/-! ## A crowd -/

/-- Thread 0 has the lock and threads 1 to `n` wait for it. -/
def crowd (n : Nat) : World Nat where
  lock := { front := 0, back := .ofNat (n + 1) }
  pc u := if u = 0 then .holding else if u ≤ n then .waiting (.ofNat u) else .idle
  taken := List.range (n + 1)
  granted := [0]
  released := 0
  since u := if u ≤ n then u else 0

theorem crowd_since (n u : Nat) : (crowd n).since u = if u ≤ n then u else 0 := rfl

theorem crowd_acquire (n : Nat) : (crowd n).step (.acquire (n + 1)) = some (crowd (n + 1)) := by
  have hpc : (crowd n).pc (n + 1) = .idle := by simp [crowd]
  simp only [World.step, hpc, Option.some.injEq]
  simp only [World.enter, World.setPc, crowd, World.mk.injEq, true_and]
  refine ⟨?_, ?_, ?_, ?_⟩
  · simp
  · funext u
    by_cases hu : u = n + 1
    · simp [hu]
    · rw [update_of_ne hu]
      simp only [show (u ≤ n + 1) = (u ≤ n) by simp; omega]
  · rw [range_succ (n := n + 1)]
  · funext u
    by_cases hu : u = n + 1
    · simp [hu]
    · rw [update_of_ne hu]
      simp only [show (u ≤ n + 1) = (u ≤ n) by simp; omega]

theorem crowd_zero : (World.init Nat).run [.acquire 0, .next 0] = some (crowd 0) := by
  have hpc : update (fun _ => Pc.idle) 0 .holding = (crowd 0).pc := by
    funext u
    by_cases hu : u = 0
    · simp [crowd, hu]
    · simp [crowd, hu]
  have hsince : (fun _ => 0) = (crowd 0).since := by
    funext u
    by_cases hu : u = 0
    · simp [crowd, hu]
    · simp [crowd, hu]
  simp only [World.run, World.step, World.init, World.enter, World.setPc, World.grant, crowd,
    update_self, update_idem, nil_append, length_nil,
    update_eq_self, ↓reduceIte] at hpc hsince ⊢
  rw [hpc, ← hsince]
  rfl

/-- The threads inside calls have numbers above `k`, and came in the order of their numbers. -/
def Waits (k : Nat) (w : World Nat) : Prop := ∀ u, (w.pc u).inCall = true → k < u ∧ w.since u = u

section waits

variable {w w' : World Nat} {k t : Nat} {pc : Pc}

theorem crowd_waits (n : Nat) : Waits 0 (crowd n) := by
  intro u hu
  unfold crowd at hu ⊢
  by_cases hzero : u = 0
  · simp [hzero, Pc.inCall] at hu
  · by_cases hle : u ≤ n
    · exact ⟨by omega, if_pos hle⟩
    · simp [hzero, hle, Pc.inCall] at hu

theorem Waits.setPc (h : Waits k w) (hcall : pc.inCall = true → (w.pc t).inCall = true) :
    Waits k (w.setPc t pc) := by
  intro u hu
  by_cases heq : u = t
  · subst heq
    exact h u (hcall (by simpa [World.setPc] using hu))
  · exact h u (by simpa [World.setPc, heq] using hu)

/-- As long as no more than 2³² tickets follow the first `k`, each of these threads has seen few. -/
theorem Waits.few (h : Waits k w) (hsince : w'.since = w.since)
    (hcall : ∀ u, (w'.pc u).inCall = true → (w.pc u).inCall = true)
    (hlen : w'.taken.length ≤ k + 2 ^ 32) : FewTickets Pc.inCall w w' := by
  intro u hu
  have hcall : (w.pc u).inCall = true := by
    rcases hu with hu | hu
    · exact hu
    · exact hcall u hu
  obtain ⟨hk, hn⟩ := h u hcall
  rw [hsince, hn]
  omega

end waits

/-- As long as there are fewer than 2³² of them, each waiting thread has seen few tickets. -/
theorem crowd_reachable (hn : n < 2 ^ 32) : Reachable Pc.inCall (crowd n) := by
  induction n with
  | zero => exact Reachable.run .init crowd_zero (by decide)
  | succ n ih =>
    refine .step (ih (by omega)) (crowd_acquire n) fun u hu => ?_
    have hu : 0 < u ∧ (crowd (n + 1)).since u = u := by
      rcases hu with hu | hu
      · obtain ⟨hpos, hsince⟩ := crowd_waits n u hu
        rw [crowd_since] at hsince ⊢
        split at hsince
        · exact ⟨hpos, if_pos (by omega)⟩
        · omega
      · exact crowd_waits (n + 1) u hu
    rw [hu.2, crowd, length_range]
    omega

theorem Waits.enter {w : World Nat} {t : Nat} (h : Waits 0 w) (hpos : 0 < t)
    (hlen : w.taken.length = t) :
    Waits 0 (w.enter t pc) := by
  intro u hu
  by_cases heq : u = t
  · subst heq
    exact ⟨hpos, by simp [World.enter, hlen]⟩
  · obtain ⟨hu, hsince⟩ := h u (by simpa [World.enter, World.setPc, heq] using hu)
    exact ⟨hu, by simpa [World.enter, heq] using hsince⟩

/--
With 2³² tickets out, `front` and `back` are the same word. A thread finds them equal and stops before
its compare-and-swap. When the lock has been passed on, fewer tickets are out, but `back` is still the
same, and the thread gets the lock, too.
-/
theorem two_holders_of_equal {w : World Nat} {t : Nat} (h : Reachable Pc.inCall w) (hwaits : Waits 0 w)
    (hlen : w.taken.length = 2 ^ 32) (heq : w.lock.back = w.lock.front)
    (ht : w.pc t = .loadedBack w.lock.front) (hzero : w.pc 0 = .holding)
    (hone : w.pc 1 = .waiting (w.lock.front + 1)) :
    ∃ w', Reachable Pc.inCall w' ∧ w'.pc 1 = .holding ∧ w'.pc t = .holding := by
  have ht0 : t ≠ 0 := fun hz => by rw [hz, hzero] at ht; cases ht
  have ht1 : t ≠ 1 := fun ho => by rw [ho, hone] at ht; cases ht
  have hleave : ∀ {v : World Nat} {u : Nat} {pc : Pc}, pc.inCall = false →
      ∀ x, ((v.setPc u pc).pc x).inCall = true → (v.pc x).inCall = true := by
    intro v u pc hpc x hx
    by_cases hxu : x = u
    · simp [World.setPc, hxu, hpc] at hx
    · simpa [World.setPc, hxu] using hx
  -- The thread finds `front` equal.
  let w₂ := w.setPc t (.loadedFront w.lock.front)
  have hstep₂ : w.step (.next t) = some w₂ := by simp only [World.step, ht, ↓reduceIte, w₂]
  have hwaits₂ : Waits 0 w₂ := hwaits.setPc fun _ => by rw [ht]; rfl
  have h₂ : Reachable Pc.inCall w₂ := by
    refine .step h hstep₂ (hwaits.few rfl (fun u hu => ?_) (by simp [w₂, World.setPc, hlen]))
    by_cases hut : u = t
    · rw [hut, ht]
      rfl
    · simpa [w₂, World.setPc, hut] using hu
  -- The holder releases the lock.
  let w₃ : World Nat := { w₂.setPc 0 .idle with
    lock := { w₂.lock with front := w₂.lock.front + 1 }
    released := w₂.released + 1 }
  have hstep₃ : w₂.step (.release 0) = some w₃ := by
    have hpc : w₂.pc 0 = .holding := by simp [w₂, World.setPc, ht0.symm, hzero]
    simp only [World.step, hpc, w₃]
  have hwaits₃ : Waits 0 w₃ := hwaits₂.setPc nofun
  have h₃ : Reachable Pc.inCall w₃ :=
    .step h₂ hstep₃ (hwaits₂.few rfl (hleave rfl) (by simp [w₃, w₂, World.setPc, hlen]))
  -- The thread that is next gets it.
  let w₄ := w₃.grant 1
  have hpc₃ : w₃.pc 1 = .waiting w₃.lock.front := by
    simp [w₃, w₂, World.setPc, ht1.symm, hone]
  have hstep₄ : w₃.step (.next 1) = some w₄ := by simp only [World.step, hpc₃, ↓reduceIte, w₄]
  have hwaits₄ : Waits 1 w₄ := by
    intro u hu
    have hne : u ≠ 1 := fun heq => by simp [heq, w₄, World.grant, World.setPc, Pc.inCall] at hu
    obtain ⟨hpos, hsince⟩ := hwaits₃ u (hleave rfl u hu)
    exact ⟨by omega, hsince⟩
  have h₄ : Reachable Pc.inCall w₄ :=
    .step h₃ hstep₄ (hwaits₃.few rfl (hleave rfl) (by simp [w₄, w₃, w₂, World.grant, World.setPc, hlen]))
  -- The compare-and-swap finds the `back` that was read.
  have hpc₄ : w₄.pc t = .loadedFront w₄.lock.back := by
    simp [w₄, w₃, w₂, World.grant, World.setPc, ht0, ht1, heq]
  let w₅ : World Nat := { w₄.grant t with
    lock := { w₄.lock with back := w₄.lock.back + 1 }
    taken := w₄.taken ++ [t] }
  have hstep₅ : w₄.step (.next t) = some w₅ := by simp only [World.step, hpc₄, ↓reduceIte, w₅]
  have hlen₅ : w₅.taken.length ≤ 1 + 2 ^ 32 := by
    simp [w₅, w₄, w₃, w₂, World.grant, World.setPc, hlen]
  refine ⟨w₅, .step h₄ hstep₅ (hwaits₄.few rfl (hleave rfl) hlen₅), ?_, ?_⟩
  · simp [w₅, w₄, World.grant, World.setPc, ht1.symm]
  · simp [w₅, World.grant, World.setPc]

theorem spinlock_two_holders :
    ∃ w : World Nat, Reachable Pc.inCall w ∧ w.pc 1 = .holding ∧ w.pc (2 ^ 32) = .holding := by
  obtain ⟨n, hn⟩ : ∃ n, n + 1 = 2 ^ 32 := ⟨2 ^ 32 - 1, by decide⟩
  rw [← hn]
  have hback : (crowd n).lock.back = 0 := by
    show UInt32.ofNat (n + 1) = 0
    rw [hn]
    decide
  have hidle : (crowd n).pc (n + 1) = .idle := by simp [crowd]
  have hlen : (crowd n).taken.length = n + 1 := length_range
  have hstep : (crowd n).step (.tryAcquire (n + 1)) =
      some ((crowd n).enter (n + 1) (.loadedBack 0)) := by
    simp only [World.step, hidle, hback]
  have hwaits : Waits 0 ((crowd n).enter (n + 1) (.loadedBack 0)) :=
    (crowd_waits n).enter (Nat.succ_pos n) hlen
  have hreach := Reachable.step (crowd_reachable (n := n) (by omega)) hstep fun u hu => by
    have hin : (((crowd n).enter (n + 1) (.loadedBack 0)).pc u).inCall = true := by
      rcases hu with hu | hu
      · have hne : u ≠ n + 1 := fun heq => by
          rw [heq, hidle] at hu
          cases hu
        simpa [World.enter, World.setPc, hne] using hu
      · exact hu
    obtain ⟨hpos, hsince⟩ := hwaits u hin
    rw [hsince, show ((crowd n).enter (n + 1) (.loadedBack 0)).taken.length = n + 1 from hlen]
    omega
  refine two_holders_of_equal hreach hwaits (hlen.trans hn) hback ?_ ?_ ?_
  · simp [World.enter, World.setPc, crowd]
  · simp [World.enter, World.setPc, crowd]
  · have hone : 1 ≠ n + 1 := by omega
    have hle : 1 ≤ n := by omega
    simp [World.enter, World.setPc, crowd, update_of_ne hone, hle]

end OsKernel.Cpu
