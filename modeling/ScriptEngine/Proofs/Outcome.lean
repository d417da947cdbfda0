/-!
# How a computation with state ends

Compiling and running are computations on a state that may stop early and then keep the state as it
is at that point.  `Ends` states what holds in either case.  The rules below follow the way in which
computations are put together, so that a proof about a composed computation never opens the monad.
-/

namespace ScriptEngine

universe u

variable {ε σ α β : Type u}

/-- From a state, a computation either finishes with a result that meets `done`, or stops early in
a way that meets `stopped`. -/
def Ends (x : EStateM ε σ α) (s : σ) (done : α → σ → Prop) (stopped : ε → σ → Prop) : Prop :=
  match x s with
  | .ok a s => done a s
  | .error e s => stopped e s

namespace Ends

variable {x : EStateM ε σ α} {s s' : σ} {done done' : α → σ → Prop}
  {stopped stopped' : ε → σ → Prop}

theorem of_ok {a : α} (h : x s = .ok a s') (hdone : done a s') : Ends x s done stopped := by
  simpa only [Ends, h] using hdone

theorem of_error {e : ε} (h : x s = .error e s') (hstopped : stopped e s') :
    Ends x s done stopped := by
  simpa only [Ends, h] using hstopped

theorem ok {a : α} (h : Ends x s done stopped) (hx : x s = .ok a s') : done a s' := by
  simpa only [Ends, hx] using h

theorem error {e : ε} (h : Ends x s done stopped) (hx : x s = .error e s') : stopped e s' := by
  simpa only [Ends, hx] using h

/-- Both conditions may be weakened. -/
theorem mono
    (h : Ends x s done stopped)
    (hdone : ∀ a s', done a s' → done' a s')
    (hstopped : ∀ e s', stopped e s' → stopped' e s') :
    Ends x s done' stopped' := by
  cases hx : x s with
  | ok a s' => exact of_ok hx (hdone a s' (h.ok hx))
  | error e s' => exact of_error hx (hstopped e s' (h.error hx))

/-- The condition on results may be weakened. -/
theorem imp
    (h : Ends x s done stopped) (hdone : ∀ a s', done a s' → done' a s') :
    Ends x s done' stopped :=
  h.mono hdone fun _ _ he => he

/-- A computation that is continued ends well if its first part does and the rest does from wherever
the first part leads. -/
theorem bind {f : α → EStateM ε σ β} {done : β → σ → Prop} {between : α → σ → Prop}
    (hx : Ends x s between stopped)
    (hf : ∀ a s', between a s' → Ends (f a) s' done stopped) :
    Ends (x >>= f) s done stopped := by
  cases hs : x s with
  | ok a s' =>
      have hrest := hf a s' (hx.ok hs)
      simp only [Ends, Bind.bind, EStateM.bind, hs] at hrest ⊢
      exact hrest
  | error e s' =>
      have hstop := hx.error hs
      simp only [Ends, Bind.bind, EStateM.bind, hs]
      exact hstop

theorem bind_of_ok {a : α} {f : α → EStateM ε σ β} {done : β → σ → Prop} (hx : x s = .ok a s')
    (hf : Ends (f a) s' done stopped) : Ends (x >>= f) s done stopped := by
  simpa only [Ends, Bind.bind, EStateM.bind, hx] using hf

theorem bind_of_error {e : ε} {f : α → EStateM ε σ β} {done : β → σ → Prop}
    (hx : x s = .error e s') (hstopped : stopped e s') : Ends (x >>= f) s done stopped := by
  simpa only [Ends, Bind.bind, EStateM.bind, hx] using hstopped

theorem of_pure {a : α} (h : done a s) : Ends (pure a : EStateM ε σ α) s done stopped :=
  h

theorem of_throw {e : ε} (h : stopped e s) : Ends (throw e : EStateM ε σ α) s done stopped :=
  h

theorem of_get {done : σ → σ → Prop} (h : done s s) :
    Ends (get : EStateM ε σ σ) s done stopped :=
  h

theorem of_modify {f : σ → σ} {done : PUnit → σ → Prop} (h : done ⟨⟩ (f s)) :
    Ends (modify f : EStateM ε σ PUnit) s done stopped :=
  h

theorem get_bind {f : σ → EStateM ε σ β} {done : β → σ → Prop} (h : Ends (f s) s done stopped) :
    Ends (get >>= f) s done stopped :=
  h

theorem modify_bind {g : σ → σ} {f : PUnit → EStateM ε σ β} {done : β → σ → Prop}
    (h : Ends (f ⟨⟩) (g s) done stopped) : Ends (modify g >>= f) s done stopped :=
  h

/-- Dropping the result changes nothing else. -/
theorem of_discard {done : PUnit → σ → Prop}
    (h : Ends x s (fun _ s' => done ⟨⟩ s') stopped) :
    Ends (discard x) s done stopped := by
  change Ends (EStateM.map (Function.const α PUnit.unit) x) s done stopped
  cases hs : x s with
  | ok a s' =>
      have hdone := h.ok hs
      simpa only [Ends, EStateM.map, hs] using hdone
  | error e s' =>
      have hstop := h.error hs
      simpa only [Ends, EStateM.map, hs] using hstop

theorem discard_bind {f : PUnit → EStateM ε σ β} {done : β → σ → Prop} {between : α → σ → Prop}
    (hx : Ends x s between stopped)
    (hf : ∀ a s', between a s' → Ends (f ⟨⟩) s' done stopped) :
    Ends (discard x >>= f) s done stopped := by
  have hdrop : Ends (discard x) s (fun _ s' => ∃ a, between a s') stopped :=
    of_discard (hx.imp fun a _ ha => ⟨a, ha⟩)
  refine hdrop.bind ?_
  rintro _ s' ⟨a, ha⟩
  exact hf a s' ha

end Ends

end ScriptEngine
