import Mathlib.Data.List.Forall2
import ScriptEngine.Scope.Chain

/-!
# Sound scope chains

A symbol refers to a slot, a captured value or a built-in function.  In a sound chain of scopes
what a symbol refers to is there: slots have been handed out, captured values have been recorded,
and what a scope captures is there in the scope around it.  Declaring and resolving names only adds
to the scopes (`Grows`) and keeps the chain sound.
-/

namespace ScriptEngine

namespace Scope

/-- The second scope has at least what the first one has. -/
structure Grows (s s' : Scope) : Prop where
  isGlobal : s'.isGlobal = s.isGlobal
  definitions : s.definitions ≤ s'.definitions
  captures : s.captures <+: s'.captures

namespace Grows

theorem refl (s : Scope) : s.Grows s :=
  ⟨rfl, Nat.le_refl _, List.prefix_rfl⟩

theorem trans {s₁ s₂ s₃ : Scope} (h₁ : s₁.Grows s₂) (h₂ : s₂.Grows s₃) : s₁.Grows s₃ :=
  ⟨h₂.isGlobal.trans h₁.isGlobal, Nat.le_trans h₁.definitions h₂.definitions,
    h₁.captures.trans h₂.captures⟩

theorem define (s : Scope) (name : String) (isMutable : Bool) (ty : Option Ty) :
    s.Grows (s.define name isMutable ty).2 :=
  ⟨rfl, Nat.le_succ _, List.prefix_rfl⟩

theorem capture (s : Scope) (outer : Symbol) : s.Grows (s.capture outer).2 :=
  ⟨rfl, Nat.le_refl _, List.prefix_append _ _⟩

end Grows

/-- What the symbol refers to is there in the scope. -/
def Covers (s : Scope) (x : Symbol) : Prop :=
  match x.storage with
  | .global => True
  | .builtin => x.index < Builtin.all.length
  | .slot => s.isGlobal = false ∧ x.index < s.definitions
  | .captured => s.isGlobal = false ∧ x.index < s.captures.length
  | .self => s.isGlobal = false

theorem Covers.mono {s s' : Scope} {x : Symbol} (h : s.Covers x) (hs : s.Grows s') :
    s'.Covers x := by
  unfold Covers at h ⊢
  rw [hs.isGlobal]
  split at h
  · trivial
  · exact h
  · exact ⟨h.1, Nat.lt_of_lt_of_le h.2 hs.definitions⟩
  · exact ⟨h.1, Nat.lt_of_lt_of_le h.2 hs.captures.length_le⟩
  · exact h

/-- A shared symbol is there in every scope if it is there in one. -/
theorem Covers.of_shared {s s' : Scope} {x : Symbol} (h : s.Covers x)
    (hx : x.storage.isShared = true) : s'.Covers x := by
  unfold Covers at h ⊢
  split at h <;> simp_all [Storage.isShared]

/-- The next declaration gets a slot that is there afterwards. -/
theorem covers_define (s : Scope) (name : String) (isMutable : Bool) (ty : Option Ty) :
    (s.define name isMutable ty).2.Covers (s.define name isMutable ty).1 := by
  cases hglobal : s.isGlobal <;> simp [Covers, define, nextSymbol, Scope.bind, hglobal]

/-- All symbols that the scope has for names are there. -/
def BindsCovered (s : Scope) : Prop :=
  ∀ name x, s.get? name = some x → s.Covers x

theorem BindsCovered.define {s : Scope} (h : s.BindsCovered) (name : String) (isMutable : Bool)
    (ty : Option Ty) : (s.define name isMutable ty).2.BindsCovered := by
  intro name' x hx
  rw [get?_define] at hx
  split at hx
  · obtain rfl := Option.some.inj hx
    exact covers_define s name isMutable ty
  · exact (h name' x hx).mono (.define s name isMutable ty)

theorem BindsCovered.defineSelf {s : Scope} (h : s.BindsCovered) (hs : s.isGlobal = false)
    (name : String) (ty : Option Ty) : (s.defineSelf name ty).2.BindsCovered := by
  intro name' x hx
  rw [get?_defineSelf] at hx
  split at hx
  · obtain rfl := Option.some.inj hx
    exact hs
  · exact h name' x hx

theorem BindsCovered.capture {s : Scope} (h : s.BindsCovered) (hs : s.isGlobal = false)
    (outer : Symbol) : (s.capture outer).2.BindsCovered := by
  intro name' x hx
  rw [get?_capture] at hx
  split at hx
  · obtain rfl := Option.some.inj hx
    exact ⟨hs, by simp [Scope.capture]⟩
  · exact (h name' x hx).mono (.capture s outer)

theorem BindsCovered.defineBuiltin {s : Scope} (h : s.BindsCovered) {index : Nat}
    (hindex : index < Builtin.all.length) (name : String) :
    (s.defineBuiltin index name).2.BindsCovered := by
  intro name' x hx
  rw [Scope.defineBuiltin, get?_bind] at hx
  split at hx
  · obtain rfl := Option.some.inj hx
    exact hindex
  · exact h name' x hx

/-- The scope is sound among those around it, from the inside out: only the outermost one is global
and captures nothing, and what the others capture is there one scope further out. -/
def SoundIn (s : Scope) : List Scope → Prop
  | [] => s.isGlobal = true ∧ s.captures = [] ∧ s.BindsCovered
  | outer :: rest =>
      s.isGlobal = false ∧ s.BindsCovered ∧ (∀ x ∈ s.captures, outer.Covers x) ∧ outer.SoundIn rest

namespace SoundIn

theorem bindsCovered {s : Scope} {rest : List Scope} (h : s.SoundIn rest) : s.BindsCovered := by
  cases rest with
  | nil => exact h.2.2
  | cons outer rest => exact h.2.1

/-- The innermost scope may change its bindings and hand out slots. -/
theorem of_same_captures {s s' : Scope} {rest : List Scope} (h : s.SoundIn rest)
    (hglobal : s'.isGlobal = s.isGlobal) (hcaptures : s'.captures = s.captures)
    (hbinds : s'.BindsCovered) : s'.SoundIn rest := by
  cases rest with
  | nil => exact ⟨hglobal.trans h.1, hcaptures.trans h.2.1, hbinds⟩
  | cons outer rest => exact ⟨hglobal.trans h.1, hbinds, hcaptures ▸ h.2.2.1, h.2.2.2⟩

/-- The outermost scope is sound on its own. -/
theorem outermost {s : Scope} {rest : List Scope} (h : s.SoundIn rest) :
    (rest.getLastD s).SoundIn [] := by
  induction rest generalizing s with
  | nil => exact h
  | cons outer rest ih =>
      rw [List.getLastD_cons]
      exact ih h.2.2.2

end SoundIn

end Scope

namespace ScopeChain

/-- Every scope of the chain has at least what it had. -/
structure Grows (c c' : ScopeChain) : Prop where
  current : c.current.Grows c'.current
  enclosing : List.Forall₂ Scope.Grows c.enclosing c'.enclosing

namespace Grows

theorem refl (c : ScopeChain) : c.Grows c :=
  ⟨.refl _, List.forall₂_same.mpr fun s _ => .refl s⟩

theorem trans_enclosing {ss₁ ss₂ ss₃ : List Scope} (h₁ : List.Forall₂ Scope.Grows ss₁ ss₂)
    (h₂ : List.Forall₂ Scope.Grows ss₂ ss₃) : List.Forall₂ Scope.Grows ss₁ ss₃ := by
  induction h₁ generalizing ss₃ with
  | nil => exact h₂
  | cons head _ ih =>
      cases h₂ with
      | cons head' tail' => exact .cons (head.trans head') (ih tail')

theorem trans {c₁ c₂ c₃ : ScopeChain} (h₁ : c₁.Grows c₂) (h₂ : c₂.Grows c₃) : c₁.Grows c₃ :=
  ⟨h₁.current.trans h₂.current, trans_enclosing h₁.enclosing h₂.enclosing⟩

theorem depth_eq {c c' : ScopeChain} (h : c.Grows c') : c'.depth = c.depth :=
  h.enclosing.length_eq.symm

theorem define (c : ScopeChain) (name : String) (isMutable : Bool) (ty : Option Ty) :
    c.Grows (c.define name isMutable ty).2 :=
  ⟨.define _ _ _ _, (refl c).enclosing⟩

/-- What holds for the scopes of two chains holds for what is left when the innermost one is
closed. -/
theorem pop? {c c' inner : ScopeChain} {s : Scope} (h : (c.push).Grows inner)
    (hpop : inner.pop? = some (s, c')) : c.Grows c' := by
  have henclosing := h.enclosing
  obtain ⟨current, enclosing⟩ := inner
  cases enclosing with
  | nil => simp [ScopeChain.pop?] at hpop
  | cons outer rest =>
      obtain ⟨-, rfl⟩ : current = s ∧ (⟨outer, rest⟩ : ScopeChain) = c' := by
        simpa [ScopeChain.pop?] using hpop
      cases henclosing with
      | cons head tail => exact ⟨head, tail⟩

end Grows

/-- The scopes of the chain are sound. -/
def Sound (c : ScopeChain) : Prop :=
  c.current.SoundIn c.enclosing

/-- Resolving a name adds to the scopes on the way. -/
theorem grows_resolveFrom? {name : String} {s s' : Scope} {rest rest' : List Scope}
    {r : Resolution} (h : resolveFrom? name s rest = some (r, s', rest')) :
    s.Grows s' ∧ List.Forall₂ Scope.Grows rest rest' := by
  have hsame (ss : List Scope) : List.Forall₂ Scope.Grows ss ss :=
    List.forall₂_same.mpr fun s _ => .refl s
  induction rest generalizing s s' rest' r with
  | nil =>
      simp only [resolveFrom?, Option.map_eq_some_iff, Prod.mk.injEq] at h
      obtain ⟨x, -, -, rfl, rfl⟩ := h
      exact ⟨.refl s, .nil⟩
  | cons outer rest ih =>
      rw [resolveFrom?] at h
      split at h
      · simp only [Option.some.injEq, Prod.mk.injEq] at h
        obtain ⟨-, rfl, rfl⟩ := h
        exact ⟨.refl s, hsame _⟩
      · split at h
        · cases h
        next found outer' rest₁ hfound =>
          obtain ⟨hhead, htail⟩ := ih hfound
          split at h
          · simp only [Option.some.injEq, Prod.mk.injEq] at h
            obtain ⟨-, rfl, rfl⟩ := h
            exact ⟨.refl s, .cons hhead htail⟩
          · simp only [Option.some.injEq, Prod.mk.injEq] at h
            obtain ⟨-, rfl, rfl⟩ := h
            exact ⟨.capture s _, .cons hhead htail⟩

/-- Resolving a name keeps the scopes sound, and what the symbol refers to is there. -/
theorem sound_resolveFrom? {name : String} {s s' : Scope} {rest rest' : List Scope}
    {r : Resolution} (h : resolveFrom? name s rest = some (r, s', rest')) (hs : s.SoundIn rest) :
    s'.SoundIn rest' ∧ s'.Covers r.symbol := by
  induction rest generalizing s s' rest' r with
  | nil =>
      simp only [resolveFrom?, Option.map_eq_some_iff, Prod.mk.injEq] at h
      obtain ⟨x, hx, rfl, rfl, rfl⟩ := h
      exact ⟨hs, hs.bindsCovered name x hx⟩
  | cons outer rest ih =>
      rw [resolveFrom?] at h
      split at h
      next x hx =>
        simp only [Option.some.injEq, Prod.mk.injEq] at h
        obtain ⟨rfl, rfl, rfl⟩ := h
        exact ⟨hs, hs.bindsCovered name x hx⟩
      next =>
        split at h
        · cases h
        next found outer' rest₁ hfound =>
          obtain ⟨hlocal, hbinds, hcaptures, houter⟩ := hs
          obtain ⟨hsound, hcovers⟩ := ih hfound houter
          have hgrows := (grows_resolveFrom? hfound).1
          have hcaptures' : ∀ x ∈ s.captures, outer'.Covers x :=
            fun x hx => (hcaptures x hx).mono hgrows
          split at h
          next hshared =>
            simp only [Option.some.injEq, Prod.mk.injEq] at h
            obtain ⟨rfl, rfl, rfl⟩ := h
            exact ⟨⟨hlocal, hbinds, hcaptures', hsound⟩, hcovers.of_shared hshared⟩
          next =>
            simp only [Option.some.injEq, Prod.mk.injEq] at h
            obtain ⟨rfl, rfl, rfl⟩ := h
            refine ⟨⟨hlocal, hbinds.capture hlocal _, ?_, hsound⟩, hlocal, ?_⟩
            · intro x hx
              rcases List.mem_append.mp hx with hx | hx
              · exact hcaptures' x hx
              · obtain rfl := List.mem_singleton.mp hx
                exact hcovers
            · simp [Scope.capture]

theorem resolve?_eq_some {c c' : ScopeChain} {name : String} {r : Resolution}
    (h : c.resolve? name = some (r, c')) :
    resolveFrom? name c.current c.enclosing = some (r, c'.current, c'.enclosing) := by
  simp only [resolve?, Option.map_eq_some_iff, Prod.mk.injEq] at h
  obtain ⟨⟨_, _, _⟩, hfound, rfl, rfl⟩ := h
  exact hfound

theorem Grows.resolve? {c c' : ScopeChain} {name : String} {r : Resolution}
    (h : c.resolve? name = some (r, c')) : c.Grows c' :=
  ⟨(grows_resolveFrom? (resolve?_eq_some h)).1, (grows_resolveFrom? (resolve?_eq_some h)).2⟩

namespace Sound

variable {c c' : ScopeChain}

theorem resolve? {name : String} {r : Resolution} (hc : c.Sound)
    (h : c.resolve? name = some (r, c')) : c'.Sound ∧ c'.current.Covers r.symbol :=
  sound_resolveFrom? (resolve?_eq_some h) hc

theorem define (hc : c.Sound) (name : String) (isMutable : Bool) (ty : Option Ty) :
    (c.define name isMutable ty).2.Sound :=
  hc.of_same_captures rfl rfl (hc.bindsCovered.define name isMutable ty)

theorem push (hc : c.Sound) : c.push.Sound := by
  refine ⟨rfl, ?_, ?_, hc⟩
  · intro name x hx
    simp [ScopeChain.push] at hx
  · intro x hx
    simp [ScopeChain.push, Scope.empty] at hx

theorem defineSelf (hc : c.Sound) (hlocal : c.current.isGlobal = false) (name : String)
    (ty : Option Ty) : (c.defineSelf name ty).2.Sound :=
  hc.of_same_captures rfl rfl (hc.bindsCovered.defineSelf hlocal name ty)

/-- What a closed scope captures is there in the scope around it. -/
theorem pop? {s : Scope} (hc : c.Sound) (h : c.pop? = some (s, c')) :
    c'.Sound ∧ ∀ x ∈ s.captures, c'.current.Covers x := by
  obtain ⟨current, enclosing⟩ := c
  cases enclosing with
  | nil => simp [ScopeChain.pop?] at h
  | cons outer rest =>
      obtain ⟨rfl, rfl⟩ : current = s ∧ (⟨outer, rest⟩ : ScopeChain) = c' := by
        simpa [ScopeChain.pop?] using h
      obtain ⟨-, -, hcaptures, houter⟩ := hc
      exact ⟨houter, hcaptures⟩

theorem withBuiltins : (ofScope .withBuiltins).Sound := by
  -- binding built-in functions one by one keeps what is said of the global scope
  have hfold : ∀ (bs : List (Builtin × Nat)) (s : Scope),
      (∀ b ∈ bs, b.2 < Builtin.all.length) → s.SoundIn [] →
        (bs.foldl (fun s b => (s.defineBuiltin b.2 b.1.name).2) s).SoundIn [] := by
    intro bs
    induction bs with
    | nil => exact fun s _ hs => hs
    | cons b bs ih =>
        intro s hbs hs
        refine ih _ (fun b' hb' => hbs b' (List.mem_cons_of_mem _ hb')) ?_
        exact ⟨hs.1, hs.2.1, hs.bindsCovered.defineBuiltin (hbs b List.mem_cons_self) _⟩
  refine hfold _ _ ?_ ⟨rfl, rfl, fun name x hx => by simp at hx⟩
  rintro ⟨b, i⟩ hb
  exact (List.mem_zipIdx' hb).1

theorem outermost (hc : c.Sound) : (ofScope c.outermost).Sound :=
  Scope.SoundIn.outermost hc

end Sound

end ScopeChain

end ScriptEngine
