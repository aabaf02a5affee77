import OsKernel.Base.Fault

/-!
# Programs with a state that may fail

A program takes a state and returns a result or a fault; either way there is a state
afterwards, so what a run did before it failed can be talked about. The rules say what
every program built by `pure`, `bind` and loops keeps if its calls keep it, and what it
appends to an output if its calls append to it.
-/

namespace OsKernel

open List

/-- A program over a state. -/
def Effect (σ α : Type) := σ → Result α × σ

namespace Effect

variable {σ α β : Type} {P : σ → Prop} {m : Effect σ α} {f : α → Effect σ β} {s : σ}

instance : Monad (Effect σ) where
  pure a := fun s => (.ok a, s)
  bind m f := fun s =>
    match m s with
    | (.ok a, s) => f a s
    | (.error e, s) => (.error e, s)

/-- A computation that leaves the state alone. -/
def lift (x : Result α) : Effect σ α := fun s => (x, s)

theorem bind_run (m : Effect σ α) (f : α → Effect σ β) (s : σ) :
    (m >>= f) s = match m s with
      | (.ok a, s) => f a s
      | (.error e, s) => (.error e, s) := rfl

theorem bind_of_ok {s' : σ} {a : α} (h : m s = (.ok a, s')) : (m >>= f) s = f a s' := by
  rw [bind_run, h]

theorem bind_assoc {γ : Type} (m : Effect σ α) (f : α → Effect σ β) (g : β → Effect σ γ) :
    m >>= f >>= g = m >>= fun a => f a >>= g := by
  funext s
  rw [bind_run, bind_run, bind_run]
  rcases m s with ⟨_ | a, s'⟩ <;> rfl

@[simp] theorem pure_bind (a : α) (f : α → Effect σ β) : (pure a >>= f : Effect σ β) = f a := rfl

@[simp] theorem lift_ok_bind (a : α) (f : α → Effect σ β) :
    (lift (.ok a) >>= f : Effect σ β) = f a := rfl

/-! ## Programs that only watch -/

/-- What the program returns does not depend on the state. -/
def Returns (m : Effect σ α) (x : Result α) : Prop := ∀ s, (m s).1 = x

theorem returns_pure (a : α) : Returns (pure a : Effect σ α) (pure a) := fun _ => rfl

theorem returns_lift (x : Result α) : Returns (lift x : Effect σ α) x := fun _ => rfl

theorem Returns.bind {x : Result α} {g : α → Result β}
    (hm : Returns m x) (hf : ∀ a, Returns (f a) (g a)) : Returns (m >>= f) (x >>= g) := by
  intro s
  have hx := hm s
  rw [bind_run]
  rcases hrun : m s with ⟨e | a, s'⟩
  · rw [hrun] at hx
    rw [← hx]
    rfl
  · rw [hrun] at hx
    rw [← hx]
    exact hf a s'

/-! ## Programs that append -/

section Appends

variable {ω : Type} {out : σ → List ω} {m : Effect σ α} {f : α → Effect σ β} {a : α} {b : β}
  {text text' : List ω}

/-- From every state the program returns `a`, and appends `text` to the output. -/
def Appends (out : σ → List ω) (m : Effect σ α) (text : List ω) (a : α) : Prop :=
  ∀ s, ∃ s', m s = (.ok a, s') ∧ out s' = out s ++ text

theorem appends_pure (a : α) : Appends out (pure a : Effect σ α) [] a :=
  fun s => ⟨s, rfl, (append_nil _).symm⟩

theorem Appends.bind (hm : Appends out m text a) (hf : Appends out (f a) text' b) :
    Appends out (m >>= f) (text ++ text') b := by
  intro s
  obtain ⟨s₁, hrun₁, hout₁⟩ := hm s
  obtain ⟨s₂, hrun₂, hout₂⟩ := hf s₁
  refine ⟨s₂, ?_, ?_⟩
  · rw [bind_run, hrun₁]
    exact hrun₂
  · rw [hout₂, hout₁, append_assoc]

theorem Appends.bind_pure (hm : Appends out m text a) (hf : f a = pure b) :
    Appends out (m >>= f) text b := by
  have hnil : Appends out (f a) [] b := hf ▸ appends_pure b
  simpa using hm.bind hnil

theorem Appends.unique {a' : α} (s : σ) (h : Appends out m text a) (h' : Appends out m text' a') :
    text = text' := by
  obtain ⟨s₁, hrun₁, hout₁⟩ := h s
  obtain ⟨s₂, hrun₂, hout₂⟩ := h' s
  rw [hrun₁] at hrun₂
  cases hrun₂
  exact append_cancel_left (hout₁.symm.trans hout₂)

end Appends

/-! ## What is kept -/

/-- Whatever the outcome, the property still holds. -/
def Keeps (P : σ → Prop) (m : Effect σ α) : Prop := ∀ s, P s → P (m s).2

theorem keeps_pure (a : α) : Keeps P (pure a : Effect σ α) := fun _ h => h

theorem keeps_lift (x : Result α) : Keeps P (lift x : Effect σ α) := fun _ h => h

/-- What the first part has brought about, and the second keeps. -/
theorem bind_keeps (hm : P (m s).2) (hf : ∀ a, Keeps P (f a)) : P ((m >>= f) s).2 := by
  rw [bind_run]
  split
  · rename_i a s' heq
    rw [heq] at hm
    exact hf a s' hm
  · rename_i e s' heq
    rw [heq] at hm
    exact hm

theorem Keeps.bind (hm : Keeps P m) (hf : ∀ a, Keeps P (f a)) : Keeps P (m >>= f) :=
  fun s hs => bind_keeps (hm s hs) hf

theorem Keeps.ite {c : Prop} [Decidable c] {m' : Effect σ α} (h : Keeps P m) (h' : Keeps P m') :
    Keeps P (if c then m else m') := by
  split
  · exact h
  · exact h'

/-! ## Two programs in step -/

section InStep

variable {τ : Type} {I J : σ → τ → Prop} {m' : Effect τ α} {f' : α → Effect τ β}

/--
From states in step (`I`) both programs return the same, in states in step, or they part (`J`). What
is known of states that have parted is kept by whatever either of them does next.
-/
structure InStep (I J : σ → τ → Prop) (m : Effect σ α) (m' : Effect τ α) : Prop where
  run : ∀ s t, I s t → (m' t).1 = (m s).1 ∧ I (m s).2 (m' t).2 ∨ J (m s).2 (m' t).2
  left : ∀ s t, J s t → J (m s).2 t
  right : ∀ s t, J s t → J s (m' t).2

theorem inStep_lift (x : Result α) : InStep I J (lift x : Effect σ α) (lift x : Effect τ α) :=
  ⟨fun _ _ h => .inl ⟨rfl, h⟩, fun _ _ h => h, fun _ _ h => h⟩

theorem inStep_pure (a : α) : InStep I J (pure a : Effect σ α) (pure a : Effect τ α) :=
  inStep_lift (.ok a)

theorem InStep.ite {c : Prop} [Decidable c] {n : Effect σ α} {n' : Effect τ α}
    (h : InStep I J m m') (h' : InStep I J n n') :
    InStep I J (if c then m else n) (if c then m' else n') := by
  split
  · exact h
  · exact h'

theorem InStep.bind (hm : InStep I J m m') (hf : ∀ a, InStep I J (f a) (f' a)) :
    InStep I J (m >>= f) (m' >>= f') := by
  have hleft (s : σ) (t : τ) (h : J (m s).2 t) : J ((m >>= f) s).2 t :=
    bind_keeps (P := fun s => J s t) h fun a s => (hf a).left s t
  have hright (s : σ) (t : τ) (h : J s (m' t).2) : J s ((m' >>= f') t).2 :=
    bind_keeps (P := fun t => J s t) h fun a t => (hf a).right s t
  refine ⟨?_, fun s t h => hleft s t (hm.left s t h), fun s t h => hright s t (hm.right s t h)⟩
  intro s t hst
  rcases hm.run s t hst with ⟨hresult, hstep⟩ | hpart
  · rw [bind_run, bind_run]
    rcases hs : m s with ⟨e | a, s'⟩
    · rcases ht : m' t with ⟨e' | a', t'⟩
      · rw [hs, ht] at hresult hstep
        cases hresult
        exact .inl ⟨rfl, hstep⟩
      · rw [hs, ht] at hresult
        cases hresult
    · rcases ht : m' t with ⟨e' | a', t'⟩
      · rw [hs, ht] at hresult
        cases hresult
      · rw [hs, ht] at hresult hstep
        cases hresult
        exact (hf a).run s' t' hstep
  · exact .inr (hleft s _ (hright _ t hpart))

end InStep

/-! ## How a run ends -/

section Ends

variable {Q : α → σ → Prop} {E : Fault → σ → Prop} {r : Result α × σ}

/-- A result comes with the one condition, a fault with the other. -/
inductive Ends (Q : α → σ → Prop) (E : Fault → σ → Prop) : Result α × σ → Prop
  | ok {a : α} {s : σ} (h : Q a s) : Ends Q E (.ok a, s)
  | error {e : Fault} {s : σ} (h : E e s) : Ends Q E (.error e, s)

@[simp] theorem ends_ok {a : α} : Ends Q E (.ok a, s) ↔ Q a s :=
  ⟨fun h => by cases h with | ok h => exact h, .ok⟩

@[simp] theorem ends_error {e : Fault} : Ends Q E (.error e, s) ↔ E e s :=
  ⟨fun h => by cases h with | error h => exact h, .error⟩

theorem Ends.of_forall (r : Result α × σ) (hQ : ∀ a s, Q a s) (hE : ∀ e s, E e s) : Ends Q E r := by
  rcases r with ⟨e | a, s⟩
  · exact .error (hE e s)
  · exact .ok (hQ a s)

theorem Ends.mono {Q' : α → σ → Prop} {E' : Fault → σ → Prop} (h : Ends Q E r)
    (hQ : ∀ a s, Q a s → Q' a s) (hE : ∀ e s, E e s → E' e s) : Ends Q' E' r := by
  cases h with
  | ok h => exact .ok (hQ _ _ h)
  | error h => exact .error (hE _ _ h)

theorem Ends.and {Q' : α → σ → Prop} {E' : Fault → σ → Prop} (h : Ends Q E r)
    (h' : Ends Q' E' r) : Ends (fun a s => Q a s ∧ Q' a s) (fun e s => E e s ∧ E' e s) r := by
  cases h with
  | ok h => exact .ok ⟨h, ends_ok.mp h'⟩
  | error h => exact .error ⟨h, ends_error.mp h'⟩

theorem Ends.returns (h : Ends Q (fun _ _ => False) r) : ∃ a s, r = (.ok a, s) ∧ Q a s := by
  cases h with
  | ok h => exact ⟨_, _, rfl, h⟩
  | error h => exact h.elim

theorem Ends.bind {Q' : β → σ → Prop}
    (hm : Ends Q E (m s)) (hf : ∀ a s', Q a s' → Ends Q' E (f a s')) :
    Ends Q' E ((m >>= f) s) := by
  rw [bind_run]
  rcases hrun : m s with ⟨e | a, s'⟩
  · rw [hrun, ends_error] at hm
    exact .error hm
  · rw [hrun, ends_ok] at hm
    exact hf a s' hm

end Ends

/-! ## One call after the other -/

section Runs

variable {ι : Type} {exec : ι → Effect σ Unit} {C : σ → ι → Prop}

/-- The calls in turn, until one fails. -/
def runAll (exec : ι → Effect σ Unit) : List ι → Effect σ Unit
  | [] => pure ()
  | call :: calls => do
    exec call
    runAll exec calls

theorem runAll_append (calls calls' : List ι) :
    runAll exec (calls ++ calls') = (runAll exec calls >>= fun _ => runAll exec calls') := by
  induction calls with
  | nil => rfl
  | cons call calls ih => rw [cons_append, runAll, runAll, ih, bind_assoc]

/-- Every call that is reached meets the condition in the state that it finds. -/
def Each (exec : ι → Effect σ Unit) (C : σ → ι → Prop) : List ι → σ → Prop
  | [], _ => True
  | call :: calls, s => C s call ∧ Ends (fun _ s' => Each exec C calls s') (fun _ _ => True) (exec call s)

/-- The calls behind are reached in the state in which the first ones end. -/
theorem Each.append {calls' : List ι} :
    ∀ {calls : List ι} {s : σ}, Each exec C (calls ++ calls') s →
      Each exec C calls s ∧
        Ends (fun _ => Each exec C calls') (fun _ _ => True) (runAll exec calls s)
  | [], _, h => ⟨trivial, .ok h⟩
  | call :: calls, s, ⟨hcall, hrest⟩ => by
    rw [Each, runAll, bind_run]
    rcases hrun : exec call s with ⟨e | a, s'⟩
    · exact ⟨⟨hcall, .error trivial⟩, .error trivial⟩
    · rw [hrun, ends_ok] at hrest
      obtain ⟨hfirst, hend⟩ := Each.append hrest
      exact ⟨⟨hcall, .ok hfirst⟩, hend⟩

/--
The rule for runs: `I` is what holds while calls are still to come, and a call that meets the
condition takes it on to the calls behind it.
-/
theorem Each.run {I : List ι → σ → Prop} {E : Fault → σ → Prop}
    (hstep : ∀ call calls s, I (call :: calls) s → C s call →
      Ends (fun _ s' => I calls s') E (exec call s)) :
    ∀ {calls : List ι} {s : σ}, I calls s → Each exec C calls s →
      Ends (fun _ s' => I [] s') E (runAll exec calls s)
  | [], _, hI, _ => .ok hI
  | call :: calls, s, hI, hC => by
    have hone := hstep call calls s hI hC.1
    have hrest := hC.2
    rw [runAll, bind_run]
    rcases hrun : exec call s with ⟨e | a, s'⟩
    · rw [hrun, ends_error] at hone
      exact .error hone
    · rw [hrun, ends_ok] at hone hrest
      exact Each.run hstep hone hrest

theorem runAll_ok : ∀ {calls : List ι} {s : σ},
    (runAll exec calls s).1 = .ok () → ∀ call ∈ calls, ∃ s, (exec call s).1 = .ok ()
  | call :: calls, s, h, other, hmem => by
    rw [runAll, bind_run] at h
    split at h
    case h_1 s' hrun =>
      rcases mem_cons.mp hmem with rfl | hmem
      · exact ⟨s, by rw [hrun]⟩
      · exact runAll_ok h other hmem
    case h_2 => cases h

theorem ok_runAll : ∀ {calls : List ι},
    (∀ call ∈ calls, ∀ s, (exec call s).1 = .ok ()) → ∀ s, (runAll exec calls s).1 = .ok ()
  | [], _, _ => rfl
  | call :: calls, h, s => by
    have hcall := h call mem_cons_self s
    rw [runAll, bind_run]
    split
    case h_1 => exact ok_runAll (fun call hmem => h call (mem_cons_of_mem _ hmem)) _
    case h_2 hrun =>
      rw [hrun] at hcall
      cases hcall

theorem keeps_runAll (h : ∀ call, Keeps P (exec call)) :
    ∀ calls : List ι, Keeps P (runAll exec calls)
  | [] => keeps_pure ()
  | call :: calls => (h call).bind fun _ => keeps_runAll h calls

end Runs

end Effect

end OsKernel
