import ScriptEngine.Proofs.Compile.Resumption

/-!
# What a compiler keeps from unit to unit

Code of earlier units refers to constants and global variables by index and is run against the pool
and the global scope of later units.  Whatever a later unit is, and wherever its compilation breaks
off, the pool is continued and every global variable keeps its symbol: only the outermost scope can
lose one, by a declaration there, and a name is declared only if it was free before.
-/

namespace ScriptEngine

/-! ## Global scopes -/

namespace Scope

/-- The global variables have indices of their own, below the number of definitions. -/
structure Numbered (s : Scope) : Prop where
  below : ∀ name x, s.get? name = some x → x.storage = .global → x.index < s.definitions
  distinct : ∀ name name' x x', s.get? name = some x → s.get? name' = some x' →
    x.storage = .global → x'.storage = .global → x.index = x'.index → name = name'

/-- The second scope has the global variables of the first one, and beyond them only such as come
after the definitions of the first one. -/
structure Keeps (s s' : Scope) : Prop where
  definitions : s.definitions ≤ s'.definitions
  symbols : ∀ name x, s.get? name = some x → x.storage = .global → s'.get? name = some x
  new : ∀ name x, s'.get? name = some x → x.storage = .global →
    s.get? name = some x ∨ s.definitions ≤ x.index

theorem Numbered.define {s : Scope} (hs : s.Numbered) (name : String) (isMutable : Bool)
    (ty : Option Ty) : (s.define name isMutable ty).2.Numbered := by
  have hcases : ∀ other x, (s.define name isMutable ty).2.get? other = some x →
      x.storage = .global → (name = other ∧ x.index = s.definitions) ∨
        (s.get? other = some x ∧ x.index < s.definitions) := by
    intro other x hx hglobal
    rw [get?_define] at hx
    split at hx
    next hname =>
      obtain rfl := Option.some.inj hx
      exact .inl ⟨hname, rfl⟩
    next => exact .inr ⟨hx, hs.below other x hx hglobal⟩
  constructor
  · intro other x hx hglobal
    have hdefinitions : (s.define name isMutable ty).2.definitions = s.definitions + 1 := rfl
    rw [hdefinitions]
    rcases hcases other x hx hglobal with ⟨-, hindex⟩ | ⟨-, hindex⟩
    · omega
    · omega
  · intro other other' x x' hx hx' hglobal hglobal' hindex
    rcases hcases other x hx hglobal with ⟨hname, hnew⟩ | ⟨hold, hlt⟩
    · rcases hcases other' x' hx' hglobal' with ⟨hname', -⟩ | ⟨-, hlt'⟩
      · exact hname.symm.trans hname'
      · omega
    · rcases hcases other' x' hx' hglobal' with ⟨-, hnew'⟩ | ⟨hold', -⟩
      · omega
      · exact hs.distinct other other' x x' hold hold' hglobal hglobal' hindex

namespace Keeps

variable {s s₁ s₂ s₃ : Scope}

theorem refl (s : Scope) : s.Keeps s :=
  ⟨Nat.le_refl _, fun _ _ hx _ => hx, fun _ _ hx _ => .inl hx⟩

theorem trans (h₁ : s₁.Keeps s₂) (h₂ : s₂.Keeps s₃) : s₁.Keeps s₃ := by
  refine ⟨Nat.le_trans h₁.definitions h₂.definitions, ?_, ?_⟩
  · intro name x hx hglobal
    exact h₂.symbols name x (h₁.symbols name x hx hglobal) hglobal
  · intro name x hx hglobal
    rcases h₂.new name x hx hglobal with hbefore | hindex
    · exact h₁.new name x hbefore hglobal
    · exact .inr (Nat.le_trans h₁.definitions hindex)

/-- A declaration keeps what there was when its name was found free. -/
theorem define {name : String} (h₁ : s₁.Keeps s₂) (h₂ : s₂.Keeps s₃)
    (free : ∀ x, s₂.get? name = some x → x.storage ≠ .global) (isMutable : Bool)
    (ty : Option Ty) : s₁.Keeps (s₃.define name isMutable ty).2 := by
  have hall := h₁.trans h₂
  refine ⟨Nat.le_succ_of_le hall.definitions, ?_, ?_⟩
  · intro other x hx hglobal
    have hother : name ≠ other := by
      rintro rfl
      exact free x (h₁.symbols name x hx hglobal) hglobal
    rw [get?_define, if_neg hother]
    exact hall.symbols other x hx hglobal
  · intro other x hx hglobal
    rw [get?_define] at hx
    split at hx
    next =>
      obtain rfl := Option.some.inj hx
      exact .inr hall.definitions
    next => exact hall.new other x hx hglobal

end Keeps

/-- The built-in functions are no variables. -/
theorem storage_withBuiltins {name : String} {x : Symbol} (h : withBuiltins.get? name = some x) :
    x.storage = .builtin := by
  have hfold : ∀ (bs : List (Builtin × Nat)) (s : Scope),
      (∀ name x, s.get? name = some x → x.storage = .builtin) →
        ∀ name x, (bs.foldl (fun s b => (s.defineBuiltin b.2 b.1.name).2) s).get? name = some x →
          x.storage = .builtin := by
    intro bs
    induction bs with
    | nil => exact fun s hs => hs
    | cons b bs ih =>
        intro s hs
        apply ih
        intro other y hy
        have hbind := get?_bind s (s.defineBuiltin b.2 b.1.name).1 other
        rw [show (s.defineBuiltin b.2 b.1.name).2.get? other = _ from hbind] at hy
        split at hy
        · obtain rfl := Option.some.inj hy
          rfl
        · exact hs other y hy
  exact hfold _ _ (fun other y hy => by simp at hy) name x h

theorem numbered_withBuiltins : withBuiltins.Numbered := by
  constructor
  · intro name x hx hglobal
    rw [storage_withBuiltins hx] at hglobal
    cases hglobal
  · intro name _ x _ hx _ hglobal
    rw [storage_withBuiltins hx] at hglobal
    cases hglobal

end Scope

/-! ## The outermost scope -/

namespace ScopeChain

/-- Resolving a name leaves the outermost scope as it is. -/
theorem outermost_resolveFrom? {name : String} {s s' : Scope} {outer outer' : List Scope}
    {r : Resolution} (h : resolveFrom? name s outer = some (r, s', outer')) :
    outer'.getLastD s' = outer.getLastD s := by
  induction outer generalizing s s' outer' r with
  | nil =>
      simp only [resolveFrom?, Option.map_eq_some_iff, Prod.mk.injEq] at h
      obtain ⟨x, -, -, rfl, rfl⟩ := h
      rfl
  | cons s₁ outer ih =>
      rw [resolveFrom?] at h
      split at h
      · simp only [Option.some.injEq, Prod.mk.injEq] at h
        obtain ⟨-, rfl, rfl⟩ := h
        rfl
      · split at h
        · cases h
        next found s₂ outer₂ hfound =>
          have hinner := ih hfound
          split at h
          · simp only [Option.some.injEq, Prod.mk.injEq] at h
            obtain ⟨-, -, rfl⟩ := h
            rwa [List.getLastD_cons, List.getLastD_cons]
          · simp only [Option.some.injEq, Prod.mk.injEq] at h
            obtain ⟨-, -, rfl⟩ := h
            rwa [List.getLastD_cons, List.getLastD_cons]

theorem outermost_resolve? {c c' : ScopeChain} {name : String} {r : Resolution}
    (h : c.resolve? name = some (r, c')) : c'.outermost = c.outermost :=
  outermost_resolveFrom? (resolve?_eq_some h)

/-- A declaration in a function leaves the outermost scope as it is. -/
theorem outermost_define {c : ScopeChain} (h : c.enclosing ≠ []) (name : String)
    (isMutable : Bool) (ty : Option Ty) :
    (c.define name isMutable ty).2.outermost = c.outermost := by
  obtain ⟨s, rest, hscopes⟩ := List.exists_cons_of_ne_nil h
  simp only [outermost, define, hscopes, List.getLastD_cons]

end ScopeChain

namespace Env

theorem enclosing_withParameters (E : Env) (parameters : List (String × Ty)) :
    (E.withParameters parameters).chain.enclosing = E.chain.enclosing := by
  induction parameters generalizing E with
  | nil => rfl
  | cons p parameters ih => exact ih _

theorem enclosing_enter (E : Env) (name : Option String) (signature : Signature) :
    (E.enter name signature).chain.enclosing = E.chain.current :: E.chain.enclosing := by
  cases name <;> exact enclosing_withParameters _ _

theorem captures_withParameters (E : Env) (parameters : List (String × Ty)) :
    (E.withParameters parameters).chain.current.captures = E.chain.current.captures := by
  induction parameters generalizing E with
  | nil => rfl
  | cons p parameters ih => exact ih _

theorem captures_enter (E : Env) (name : Option String) (signature : Signature) :
    (E.enter name signature).chain.current.captures = [] := by
  cases name <;> exact captures_withParameters _ _

end Env

namespace Compiler

def globalScope (c : Compiler) : Scope :=
  c.chain.outermost

def global? (c : Compiler) (name : String) : Option Symbol :=
  (c.globalScope.get? name).filter fun x => x.storage = .global

theorem global?_eq_some {c : Compiler} {name : String} {x : Symbol} :
    c.global? name = some x ↔ c.globalScope.get? name = some x ∧ x.storage = .global := by
  simp [global?, Option.filter_eq_some_iff]

/-- Steps leave the global scope as it is. -/
theorem Step.globalScope_eq {c c' : Compiler} (h : c.Step c') :
    c'.globalScope = c.globalScope := by
  cases h with
  | write | keep | register => rfl
  | resolve found => exact ScopeChain.outermost_resolve? found
  | enter name signature =>
      have henclosing := c.env.enclosing_enter name signature
      simp only [globalScope, ScopeChain.outermost, henclosing, List.getLastD_cons]
      rfl
  | leave =>
      cases hscopes : c.chain.enclosing with
      | nil => simp [globalScope, ScopeChain.pop?, hscopes]
      | cons s rest =>
          simp only [globalScope, ScopeChain.outermost, ScopeChain.pop?, hscopes,
            List.getLastD_cons, Option.getD_some]

/-- Steps only add constants. -/
theorem Step.pool_isPrefix {c c' : Compiler} (h : c.Step c') :
    c.pool.toList <+: c'.pool.toList := by
  cases h with
  | write | resolve | enter | leave => exact List.prefix_rfl
  | keep | register =>
      rw [Array.toList_push]
      exact List.prefix_append _ _

/-- At the top level the current scope is the global one. -/
theorem globalScope_of_enclosing {c : Compiler} (h : c.chain.enclosing = []) :
    c.globalScope = c.chain.current := by
  simp [globalScope, ScopeChain.outermost, h]

/-- What is reached keeps the constants and the global variables. -/
theorem Reaches.keeps_globals {c c' : Compiler} (h : c.Reaches c') :
    c.pool.toList <+: c'.pool.toList ∧ c.globalScope.Keeps c'.globalScope := by
  induction h with
  | refl => exact ⟨List.prefix_rfl, .refl _⟩
  | tail _ last ih =>
      rw [last.globalScope_eq]
      exact ⟨ih.1.trans last.pool_isPrefix, ih.2⟩
  | @declare c c₁ c₂ name isMutable ty _ free _ depth ihEarlier ihBetween =>
      refine ⟨ihEarlier.1.trans ihBetween.1, ?_⟩
      by_cases htop : c₂.chain.enclosing = []
      · -- the name was free in the global scope
        have htop₁ : c₁.chain.enclosing = [] := by
          rw [ScopeChain.depth, ScopeChain.depth, htop] at depth
          exact List.length_eq_zero_iff.mp depth.symm
        have hfree : ∀ x, c₁.globalScope.get? name = some x → x.storage ≠ .global := by
          intro x hx hglobal
          rw [globalScope_of_enclosing htop₁] at hx
          simp [ScopeChain.conflict?, hx, hglobal, Storage.isDeclared] at free
        have hkeeps := ihEarlier.2.define ihBetween.2 hfree isMutable ty
        rw [globalScope_of_enclosing htop] at hkeeps
        have hscope : globalScope { c₂ with chain := (c₂.chain.define name isMutable ty).2 } =
            (c₂.chain.current.define name isMutable ty).2 := globalScope_of_enclosing htop
        rwa [hscope]
      · have hscope : globalScope { c₂ with chain := (c₂.chain.define name isMutable ty).2 } =
            c₂.globalScope := ScopeChain.outermost_define htop name isMutable ty
        rw [hscope]
        exact ihEarlier.2.trans ihBetween.2

/-- What is reached has numbered global variables. -/
theorem Reaches.numbered {c c' : Compiler} (h : c.Reaches c') (hc : c.globalScope.Numbered) :
    c'.globalScope.Numbered := by
  refine h.keeps (p := fun c => c.globalScope.Numbered) ?_ ?_ hc
  · intro c c' hstep hc
    rwa [hstep.globalScope_eq]
  · intro c name isMutable ty hc
    by_cases htop : c.chain.enclosing = []
    · have hscope : globalScope { c with chain := (c.chain.define name isMutable ty).2 } =
          (c.globalScope.define name isMutable ty).2 := by
        rw [globalScope_of_enclosing htop]
        exact globalScope_of_enclosing htop
      rw [hscope]
      exact hc.define name isMutable ty
    · have hscope : globalScope { c with chain := (c.chain.define name isMutable ty).2 } =
          c.globalScope := ScopeChain.outermost_define htop name isMutable ty
      rwa [hscope]

/-! ## Several units -/

/-- A unit ends in a state that has the constants and the global scope of a state that was reached,
whether it is accepted or not. -/
theorem exists_reaches_compile (c : Compiler) (program : Program) :
    ∃ c', c.Reaches c' ∧ (c.compile program).2.pool = c'.pool ∧
      (c.compile program).2.globalScope = c'.globalScope := by
  have hends := CompileM.steps_block program c
  unfold compile
  cases hblock : CompileM.block program c with
  | error stop c' => exact ⟨c', hends.error hblock, rfl, rfl⟩
  | ok _ c' => exact ⟨c', hends.ok hblock, rfl, rfl⟩

/-- The compiler after units that are compiled one after another. -/
def after (c : Compiler) (programs : List Program) : Compiler :=
  programs.foldl (fun c program => (c.compile program).2) c

theorem Idle.after {c : Compiler} (hc : c.Idle) (programs : List Program) :
    (c.after programs).Idle := by
  induction programs generalizing c with
  | nil => exact hc
  | cons program programs ih => exact ih (hc.compile program)

theorem numbered_compile {c : Compiler} (hc : c.globalScope.Numbered) (program : Program) :
    (c.compile program).2.globalScope.Numbered := by
  obtain ⟨c', hreach, -, hscope⟩ := c.exists_reaches_compile program
  rw [hscope]
  exact hreach.numbered hc

theorem numbered_after {c : Compiler} (hc : c.globalScope.Numbered) (programs : List Program) :
    (c.after programs).globalScope.Numbered := by
  induction programs generalizing c with
  | nil => exact hc
  | cons program programs ih => exact ih (numbered_compile hc program)

/-- Compiling only adds.  After any units, a further one, accepted or refused, continues the pool
and leaves every global variable its symbol.  New global variables are numbered on from the
definitions before, different ones differently, and no function stays open. -/
theorem compile_onlyAdds (programs : List Program) (program : Program) :
    let c := new.after programs
    let c' := (c.compile program).2
    c.pool.toList <+: c'.pool.toList ∧
      (∀ name x, c.global? name = some x → c'.global? name = some x) ∧
      (∀ name x, c.global? name = none → c'.global? name = some x →
        c.globalScope.definitions ≤ x.index ∧ x.index < c'.globalScope.definitions) ∧
      (∀ name name' x x', c'.global? name = some x → c'.global? name' = some x' →
        name ≠ name' → x.index ≠ x'.index) ∧
      c'.chain.depth = 0 ∧ c'.current = .empty ∧ c'.enclosing = [] := by
  intro c c'
  have hnew : new.globalScope.Numbered := Scope.numbered_withBuiltins
  have hnumbered : c'.globalScope.Numbered :=
    numbered_compile (numbered_after hnew programs) program
  have hidle : c'.Idle :=
    (Idle.after ⟨rfl, rfl, rfl⟩ programs).compile program
  obtain ⟨c₁, hreach, hpool, hscope⟩ := c.exists_reaches_compile program
  obtain ⟨hpools, hkeeps⟩ := hreach.keeps_globals
  rw [← hpool] at hpools
  rw [← hscope] at hkeeps
  refine ⟨hpools, ?_, ?_, ?_, ?_, hidle.current, hidle.enclosing⟩
  · intro name x hx
    rw [global?_eq_some] at hx ⊢
    exact ⟨hkeeps.symbols name x hx.1 hx.2, hx.2⟩
  · intro name x hnone hx
    rw [global?_eq_some] at hx
    refine ⟨?_, hnumbered.below name x hx.1 hx.2⟩
    apply (hkeeps.new name x hx.1 hx.2).resolve_left
    intro hbefore
    rw [global?_eq_some.mpr ⟨hbefore, hx.2⟩] at hnone
    cases hnone
  · intro name name' x x' hx hx' hne hindex
    rw [global?_eq_some] at hx hx'
    exact hne (hnumbered.distinct name name' x x' hx.1 hx'.1 hx.2 hx'.2 hindex)
  · rw [ScopeChain.depth, hidle.chain]
    rfl

end Compiler

end ScriptEngine
