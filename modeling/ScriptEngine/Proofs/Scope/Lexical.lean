import ScriptEngine.Proofs.Scope.Soundness

/-!
# Names are resolved lexically

Resolving a name captures it in the scopes on the way, and what was captured is bound there like
what was declared.  Beside a chain of scopes we keep what was declared in each of them
(`Declarations`), which resolving does not touch.  After any operations a name resolves if and only
if an open scope declares it, and following the captured values back from the symbol that is found
leads to the declaration in the innermost scope that has one (`ScopeChain.resolve?_isLexical`).
-/

namespace ScriptEngine

/-! ## Origins -/

/-- What a name stands for, however it is handed through scopes. -/
inductive Origin
  /-- A global variable or a built-in function. -/
  | shared (x : Symbol)
  /-- A slot of the function at a depth. -/
  | slot (depth index : Nat)
  /-- The function at a depth. -/
  | self (depth : Nat)
deriving DecidableEq

/-- The origin of a symbol that the first of the scopes has, where they are given from the inside
out.  There is none if a captured value is missing. -/
def Symbol.origin? : Symbol → List Scope → Option Origin
  | _, [] => none
  | x, s :: outer =>
      match x.storage with
      | .global | .builtin => some (.shared x)
      | .slot => some (.slot outer.length x.index)
      | .self => some (.self outer.length)
      | .captured =>
          match s.captures[x.index]? with
          | some y => y.origin? outer
          | none => none

namespace Symbol

theorem origin?_of_isShared {x : Symbol} (hx : x.storage.isShared = true) (s : Scope)
    (outer : List Scope) : x.origin? (s :: outer) = some (.shared x) := by
  unfold origin?
  cases hstorage : x.storage <;> simp_all [Storage.isShared]

/-- The bindings of a scope do not matter for origins. -/
theorem origin?_congr {s s' : Scope} (h : s'.captures = s.captures) (x : Symbol)
    (outer : List Scope) : x.origin? (s' :: outer) = x.origin? (s :: outer) := by
  simp only [origin?, h]

/-- Origins stay when scopes capture more values. -/
theorem origin?_mono {x : Symbol} {ss ss' : List Scope} {o : Origin}
    (h : x.origin? ss = some o) (hss : List.Forall₂ Scope.Grows ss ss') :
    x.origin? ss' = some o := by
  induction hss generalizing x with
  | nil => exact h
  | @cons s s' outer outer' hs houter ih =>
      have hlength := houter.length_eq
      unfold origin? at h ⊢
      cases hstorage : x.storage with
      | captured =>
          simp only [hstorage] at h ⊢
          split at h
          · rename_i y hy
            obtain ⟨later, hlater⟩ := hs.captures
            have hindex := (List.getElem?_eq_some_iff.mp hy).1
            rw [← hlater, List.getElem?_append_left hindex, hy]
            exact ih h
          · cases h
      | _ => simpa only [hstorage, hlength] using h

end Symbol

/-! ## Declarations -/

/-- What was declared in a scope. -/
structure Declarations where
  /-- The declared names with what they stand for, the last one first. -/
  names : List (String × Origin)
  /-- The number of variables among them. -/
  slots : Nat

namespace Declarations

def empty : Declarations :=
  { names := [], slots := 0 }

def declare (d : Declarations) (name : String) (o : Origin) : Declarations :=
  { d with names := (name, o) :: d.names }

def Declares (d : Declarations) (name : String) : Prop :=
  ∃ o, (name, o) ∈ d.names

/-- The declarations of the built-in functions. -/
def builtins : Declarations :=
  Builtin.all.zipIdx.foldl
    (fun d b => d.declare b.1.name (.shared ⟨b.1.name, .builtin, b.2, false, none⟩)) empty

end Declarations

/-- What a name stands for by the last declaration in the innermost scope that declares it. -/
def declaration? (ds : List Declarations) (name : String) : Option Origin :=
  ds.findSome? fun d => d.names.lookup name

/-- An operation on a chain of scopes. -/
inductive ScopeOp
  | push
  | pop
  | define (name : String) (isMutable : Bool) (ty : Option Ty)
  | defineSelf (name : String) (ty : Option Ty)
  | resolve (name : String)

namespace ScopeOp

/-- The chain after an operation.  The outermost scope stays open, and a name that is not found
changes nothing. -/
def apply (c : ScopeChain) : ScopeOp → ScopeChain
  | push => c.push
  | pop => (c.pop?.map Prod.snd).getD c
  | define name isMutable ty => (c.define name isMutable ty).2
  | defineSelf name ty => (c.defineSelf name ty).2
  | resolve name => ((c.resolve? name).map Prod.snd).getD c

/-- The declarations in the open scopes, from the inside out, after an operation.  The variables of
a scope take its slots in order; those of the outermost one are global. -/
def record : List Declarations → ScopeOp → List Declarations
  | ds, push => .empty :: ds
  | _ :: d :: ds, pop => d :: ds
  | [d], define name isMutable ty =>
      [{ d.declare name (.shared ⟨name, .global, d.slots, isMutable, ty⟩) with
        slots := d.slots + 1 }]
  | d :: ds, define name _ _ =>
      { d.declare name (.slot ds.length d.slots) with slots := d.slots + 1 } :: ds
  | d :: ds, defineSelf name _ => d.declare name (.self ds.length) :: ds
  | ds, _ => ds

end ScopeOp

/-- The chain after operations on the global scope with the built-in functions. -/
def ScopeChain.after (ops : List ScopeOp) : ScopeChain :=
  ops.foldl ScopeOp.apply (.ofScope .withBuiltins)

/-- The declarations in the open scopes after operations. -/
def declarationsAfter (ops : List ScopeOp) : List Declarations :=
  ops.foldl ScopeOp.record [.builtins]

/-! ## Scopes that follow their declarations -/

/-- The scope has a symbol for every name declared in it, and whatever name it has a symbol for, the
symbol leads to the innermost declaration.  Every captured name is bound, so that it is captured
only once. -/
structure Scope.Tracks (s : Scope) (outer : List Scope) (d : Declarations)
    (ds : List Declarations) : Prop where
  isGlobal : s.isGlobal = outer.isEmpty
  slots : s.definitions = d.slots
  declared : ∀ name o, d.names.lookup name = some o → (s.get? name).isSome = true
  bound : ∀ name x, s.get? name = some x → x.name = name ∧
    ∃ o, x.origin? (s :: outer) = some o ∧ declaration? (d :: ds) name = some o
  captured : ∀ x ∈ s.captures, (s.get? x.name).isSome = true
  nodup : (s.captures.map Symbol.name).Nodup

/-- The scopes of a chain, from the inside out, follow their declarations. -/
inductive Lexical : List Scope → List Declarations → Prop
  | nil : Lexical [] []
  | cons {s : Scope} {outer : List Scope} {d : Declarations} {ds : List Declarations}
      (head : s.Tracks outer d ds) (tail : Lexical outer ds) : Lexical (s :: outer) (d :: ds)

theorem declaration?_cons (d : Declarations) (ds : List Declarations) (name : String) :
    declaration? (d :: ds) name = (d.names.lookup name).or (declaration? ds name) := by
  simp only [declaration?, List.findSome?_cons]
  cases d.names.lookup name <;> rfl

theorem lookup_cons {o : Origin} (names : List (String × Origin)) (name other : String) :
    List.lookup other ((name, o) :: names) =
      if name = other then some o else names.lookup other := by
  by_cases hname : name = other
  · simp [hname]
  · rw [if_neg hname, List.lookup_cons, beq_false_of_ne (Ne.symm hname)]

namespace Scope.Tracks

variable {s s' : Scope} {outer outer' : List Scope} {d d' : Declarations} {ds : List Declarations}

/-- A name without a symbol is not declared. -/
theorem lookup_eq_none (h : s.Tracks outer d ds) {name : String} (hname : s.get? name = none) :
    d.names.lookup name = none := by
  cases hlookup : d.names.lookup name with
  | none => rfl
  | some o =>
      have hsome := h.declared name o hlookup
      rw [hname] at hsome
      cases hsome

theorem declaration?_eq (h : s.Tracks outer d ds) {name : String} (hname : s.get? name = none) :
    declaration? (d :: ds) name = declaration? ds name := by
  rw [declaration?_cons, h.lookup_eq_none hname, Option.none_or]

/-- The scopes further out may capture more. -/
theorem grow (h : s.Tracks outer d ds) (houter : List.Forall₂ Scope.Grows outer outer') :
    s.Tracks outer' d ds := by
  refine ⟨?_, h.slots, h.declared, fun name x hx => ?_, h.captured, h.nodup⟩
  · rw [h.isGlobal]
    cases houter <;> rfl
  · obtain ⟨hname, o, horigin, hdeclaration⟩ := h.bound name x hx
    exact ⟨hname, o, Symbol.origin?_mono horigin (.cons (.refl s) houter), hdeclaration⟩

/-- A new declaration. -/
theorem declare {name : String} {x : Symbol} {o : Origin} (h : s.Tracks outer d ds)
    (hget : ∀ other, s'.get? other = if name = other then some x else s.get? other)
    (hcaptures : s'.captures = s.captures) (hglobal : s'.isGlobal = s.isGlobal)
    (hnames : d'.names = (name, o) :: d.names) (hslots : s'.definitions = d'.slots)
    (hx : x.name = name) (horigin : x.origin? (s :: outer) = some o) : s'.Tracks outer d' ds := by
  have hlookup (other : String) : d'.names.lookup other =
      if name = other then some o else d.names.lookup other := by
    rw [hnames, lookup_cons]
  refine ⟨hglobal.trans h.isGlobal, hslots, ?_, ?_, ?_, hcaptures ▸ h.nodup⟩
  · intro other o' ho'
    rw [hlookup] at ho'
    rw [hget]
    by_cases hother : name = other
    · rw [if_pos hother]
      rfl
    · rw [if_neg hother] at ho' ⊢
      exact h.declared other o' ho'
  · intro other y hy
    rw [hget] at hy
    rw [declaration?_cons, hlookup, Symbol.origin?_congr hcaptures]
    by_cases hother : name = other
    · rw [if_pos hother] at hy ⊢
      cases hy
      exact ⟨hx.trans hother, o, horigin, rfl⟩
    · rw [if_neg hother] at hy ⊢
      rw [← declaration?_cons]
      exact h.bound other y hy
  · intro y hy
    rw [hcaptures] at hy
    rw [hget]
    split
    · rfl
    · exact h.captured y hy

/-- A name is captured for the first time. -/
theorem capture {x : Symbol} {o : Origin} (h : s.Tracks outer d ds)
    (hfree : s.get? x.name = none) (horigin : x.origin? outer = some o)
    (hdeclaration : declaration? (d :: ds) x.name = some o) :
    (s.capture x).2.Tracks outer d ds := by
  have hgrows : List.Forall₂ Scope.Grows (s :: outer) ((s.capture x).2 :: outer) :=
    .cons (.capture s x) (List.forall₂_same.mpr fun s _ => .refl s)
  refine ⟨h.isGlobal, h.slots, ?_, ?_, ?_, ?_⟩
  · intro name o' ho'
    rw [get?_capture]
    split
    · rfl
    · exact h.declared name o' ho'
  · intro name y hy
    rw [get?_capture] at hy
    split at hy
    · rename_i hname
      cases hy
      subst hname
      refine ⟨rfl, o, ?_, hdeclaration⟩
      simpa [Symbol.origin?, Scope.capture] using horigin
    · obtain ⟨hname, o', horigin', hdeclaration'⟩ := h.bound name y hy
      exact ⟨hname, o', Symbol.origin?_mono horigin' hgrows, hdeclaration'⟩
  · intro y hy
    rw [get?_capture]
    split
    · rfl
    · rename_i hname
      rcases List.mem_append.mp hy with hy | hy
      · exact h.captured y hy
      · exact absurd (congrArg Symbol.name (List.mem_singleton.mp hy)).symm hname
  · change ((s.captures ++ [x]).map Symbol.name).Nodup
    rw [List.map_append, List.nodup_append]
    refine ⟨h.nodup, by simp, ?_⟩
    intro a ha b hb
    obtain ⟨y, hy, rfl⟩ := List.mem_map.mp ha
    rw [List.map_singleton, List.mem_singleton] at hb
    rintro hab
    have hbound := h.captured y hy
    rw [hab, hb, hfree] at hbound
    cases hbound

end Scope.Tracks

/-! ## Resolving -/

namespace Lexical

variable {s s' : Scope} {outer outer' : List Scope} {ds : List Declarations} {name : String}

theorem length_eq (h : Lexical outer ds) : outer.length = ds.length := by
  induction h with
  | nil => rfl
  | cons _ _ ih => rw [List.length_cons, List.length_cons, ih]

theorem nodup (h : Lexical outer ds) : ∀ s ∈ outer, (s.captures.map Symbol.name).Nodup := by
  induction h with
  | nil => nofun
  | cons head _ ih =>
      intro s hs
      rcases List.mem_cons.mp hs with rfl | hs
      · exact head.nodup
      · exact ih s hs

/-- A name that does not resolve is not declared. -/
theorem resolveFrom?_eq_none (h : Lexical (s :: outer) ds)
    (hnone : ScopeChain.resolveFrom? name s outer = none) : declaration? ds name = none := by
  induction outer generalizing s ds with
  | nil =>
      obtain _ | ⟨head, tail⟩ := h
      cases tail
      rw [head.declaration?_eq (by simpa [ScopeChain.resolveFrom?] using hnone)]
      rfl
  | cons s₁ outer ih =>
      obtain _ | ⟨head, tail⟩ := h
      rw [ScopeChain.resolveFrom?] at hnone
      split at hnone
      · cases hnone
      · rename_i hget
        rw [head.declaration?_eq hget]
        split at hnone
        · rename_i hresolve
          exact ih tail hresolve
        · split at hnone <;> cases hnone

/-- A name that resolves leads to its innermost declaration, and the scopes still follow their
declarations. -/
theorem resolveFrom?_eq_some {r : Resolution} (h : Lexical (s :: outer) ds)
    (hsome : ScopeChain.resolveFrom? name s outer = some (r, s', outer')) :
    Lexical (s' :: outer') ds ∧ r.symbol.name = name ∧
      ∃ o, r.symbol.origin? (s' :: outer') = some o ∧ declaration? ds name = some o := by
  induction outer generalizing s s' outer' ds r with
  | nil =>
      have hall := h
      obtain _ | ⟨head, tail⟩ := h
      simp only [ScopeChain.resolveFrom?, Option.map_eq_some_iff, Prod.mk.injEq] at hsome
      obtain ⟨x, hx, rfl, rfl, rfl⟩ := hsome
      exact ⟨hall, head.bound name x hx⟩
  | cons s₁ outer ih =>
      have hall := h
      obtain _ | ⟨head, tail⟩ := h
      rw [ScopeChain.resolveFrom?] at hsome
      split at hsome
      · rename_i x hx
        simp only [Option.some.injEq, Prod.mk.injEq] at hsome
        obtain ⟨rfl, rfl, rfl⟩ := hsome
        exact ⟨hall, head.bound name x hx⟩
      · rename_i hget
        split at hsome
        · cases hsome
        · rename_i found s₂ outer₂ hfound
          obtain ⟨htail, hname, o, horigin, hdeclaration⟩ := ih tail hfound
          have hgrows := ScopeChain.grows_resolveFrom? hfound
          have hhead := head.grow (.cons hgrows.1 hgrows.2)
          have hdeclaration' := (head.declaration?_eq hget).trans hdeclaration
          split at hsome
          · rename_i hshared
            simp only [Option.some.injEq, Prod.mk.injEq] at hsome
            obtain ⟨rfl, rfl, rfl⟩ := hsome
            rw [Symbol.origin?_of_isShared hshared] at horigin ⊢
            exact ⟨.cons hhead htail, hname, o, horigin, hdeclaration'⟩
          · simp only [Option.some.injEq, Prod.mk.injEq] at hsome
            obtain ⟨rfl, rfl, rfl⟩ := hsome
            subst hname
            have hcapture := hhead.capture hget horigin hdeclaration'
            refine ⟨.cons hcapture htail, hcapture.bound _ _ ?_⟩
            rw [Scope.get?_capture, if_pos rfl]

end Lexical

namespace ScopeChain

def scopes (c : ScopeChain) : List Scope :=
  c.current :: c.enclosing

/-- What a name resolves to. -/
def resolvedOrigin? (c : ScopeChain) (name : String) : Option Origin :=
  (c.resolve? name).bind fun (r, c') => r.symbol.origin? c'.scopes

variable {c c' : ScopeChain} {ds : List Declarations} {name : String}

theorem declaration?_eq_none (h : Lexical c.scopes ds) (hnone : c.resolve? name = none) :
    declaration? ds name = none :=
  h.resolveFrom?_eq_none (by simpa [resolve?] using hnone)

/-- A name resolves if and only if it is declared. -/
theorem isSome_resolve?_iff (h : Lexical c.scopes ds) (name : String) :
    (c.resolve? name).isSome = true ↔ (declaration? ds name).isSome = true := by
  cases hresolve : c.resolve? name with
  | none =>
      rw [declaration?_eq_none h hresolve]
      exact Iff.rfl
  | some found =>
      obtain ⟨-, -, o, -, hdeclaration⟩ := h.resolveFrom?_eq_some (resolve?_eq_some hresolve)
      rw [hdeclaration]
      exact Iff.rfl

/-- A name resolves to what its innermost declaration says. -/
theorem resolvedOrigin?_eq (h : Lexical c.scopes ds) (name : String) :
    c.resolvedOrigin? name = declaration? ds name := by
  cases hresolve : c.resolve? name with
  | none =>
      rw [declaration?_eq_none h hresolve, resolvedOrigin?, hresolve, Option.bind_none]
  | some found =>
      obtain ⟨r, c'⟩ := found
      obtain ⟨-, -, o, horigin, hdeclaration⟩ := h.resolveFrom?_eq_some (resolve?_eq_some hresolve)
      simp only [resolvedOrigin?, hresolve, Option.bind_some, hdeclaration]
      exact horigin

end ScopeChain

namespace ScopeOp

theorem lexical_define {c : ScopeChain} {ds : List Declarations} (h : Lexical c.scopes ds)
    (name : String) (isMutable : Bool) (ty : Option Ty) :
    Lexical (c.define name isMutable ty).2.scopes ((define name isMutable ty).record ds) := by
  obtain ⟨s, outer⟩ := c
  obtain _ | ⟨head, tail⟩ := h
  have hslots : s.definitions = _ := head.slots
  have hget := s.get?_define name isMutable ty
  cases tail with
  | nil =>
      have hglobal : s.isGlobal = true := head.isGlobal
      refine .cons (head.declare hget rfl rfl rfl (congrArg Nat.succ hslots) rfl ?_) .nil
      simp [Symbol.origin?, Scope.define, Scope.nextSymbol, hglobal, hslots]
  | cons head' tail =>
      have hlocal : s.isGlobal = false := head.isGlobal
      refine .cons (head.declare hget rfl rfl rfl (congrArg Nat.succ hslots) rfl ?_)
        (.cons head' tail)
      simp [Symbol.origin?, Scope.define, Scope.nextSymbol, hlocal, hslots, tail.length_eq]

/-- Every operation keeps the scopes in step with their declarations. -/
theorem lexical_apply {c : ScopeChain} {ds : List Declarations} (h : Lexical c.scopes ds)
    (op : ScopeOp) : Lexical (op.apply c).scopes (op.record ds) := by
  cases op with
  | push =>
      refine .cons ⟨rfl, rfl, nofun, fun name x hx => ?_, nofun, List.nodup_nil⟩ h
      have hempty : (Scope.empty false).get? name = some x := hx
      rw [Scope.get?_empty] at hempty
      cases hempty
  | pop =>
      obtain ⟨s, outer⟩ := c
      obtain _ | ⟨head, tail⟩ := h
      cases tail with
      | nil => exact .cons head .nil
      | cons head' tail' => exact .cons head' tail'
  | define name isMutable ty => exact lexical_define h name isMutable ty
  | defineSelf name ty =>
      obtain ⟨s, outer⟩ := c
      obtain _ | ⟨head, tail⟩ := h
      have hget := s.get?_defineSelf name ty
      refine .cons (head.declare hget rfl rfl rfl head.slots rfl ?_) tail
      rw [← tail.length_eq]
      rfl
  | resolve name =>
      cases hresolve : c.resolve? name with
      | none =>
          rw [apply, hresolve]
          exact h
      | some found =>
          rw [apply, hresolve]
          exact (h.resolveFrom?_eq_some (ScopeChain.resolve?_eq_some hresolve)).1

end ScopeOp

theorem lexical_builtins : Lexical [.withBuiltins] [.builtins] := by
  -- binding the built-in functions one by one declares them one by one
  have hfold : ∀ (bs : List (Builtin × Nat)) (s : Scope) (d : Declarations), s.Tracks [] d [] →
      (bs.foldl (fun s b => (s.defineBuiltin b.2 b.1.name).2) s).Tracks []
        (bs.foldl (fun d b =>
          d.declare b.1.name (.shared ⟨b.1.name, .builtin, b.2, false, none⟩)) d) [] := by
    intro bs
    induction bs with
    | nil => exact fun s d h => h
    | cons b bs ih =>
        intro s d h
        have hget := Scope.get?_bind s (s.defineBuiltin b.2 b.1.name).1
        exact ih _ _ (h.declare hget rfl rfl rfl h.slots rfl rfl)
  refine .cons (hfold _ _ _ ⟨rfl, rfl, nofun, fun name x hx => ?_, nofun, List.nodup_nil⟩) .nil
  rw [Scope.get?_empty] at hx
  cases hx

theorem lexical_after (ops : List ScopeOp) :
    Lexical (ScopeChain.after ops).scopes (declarationsAfter ops) := by
  have hfold : ∀ (c : ScopeChain) (ds : List Declarations), Lexical c.scopes ds →
      Lexical (ops.foldl ScopeOp.apply c).scopes (ops.foldl ScopeOp.record ds) := by
    induction ops with
    | nil => exact fun c ds h => h
    | cons op ops ih => exact fun c ds h => ih _ _ (op.lexical_apply h)
  exact hfold _ _ lexical_builtins

theorem declaration?_isSome_iff (ds : List Declarations) (name : String) :
    (declaration? ds name).isSome = true ↔ ∃ d ∈ ds, d.Declares name := by
  simp [declaration?, List.findSome?_isSome_iff, List.lookup_isSome_iff, Declarations.Declares]

/-- Names are resolved lexically, at any depth and whatever was declared, captured, opened and
closed before.  A name resolves if and only if an open scope declares it.  The symbol that is found
leads to the last declaration in the innermost scope that has one, along captured values all of
which are there.  Resolving does not change what any name resolves to, and no scope captures a name
twice. -/
theorem ScopeChain.resolve?_isLexical (ops : List ScopeOp) (name : String) :
    let c := ScopeChain.after ops
    let ds := declarationsAfter ops
    ((c.resolve? name).isSome = true ↔ ∃ d ∈ ds, d.Declares name) ∧
      (∀ r c', c.resolve? name = some (r, c') →
        (∃ o, r.symbol.origin? c'.scopes = some o ∧ declaration? ds name = some o) ∧
          ∀ other, c'.resolvedOrigin? other = c.resolvedOrigin? other) ∧
      ∀ s ∈ c.scopes, (s.captures.map Symbol.name).Nodup := by
  intro c ds
  have h : Lexical c.scopes ds := lexical_after ops
  refine ⟨?_, fun r c' hresolve => ?_, h.nodup⟩
  · rw [isSome_resolve?_iff h, declaration?_isSome_iff]
  · obtain ⟨h', -, horigin⟩ := h.resolveFrom?_eq_some (resolve?_eq_some hresolve)
    refine ⟨horigin, fun other => ?_⟩
    rw [resolvedOrigin?_eq h, resolvedOrigin?_eq h']

/-- Two functions further in, a variable of the outermost function is still found where it was
declared, and not where it was captured on the way. -/
example :
    (ScopeChain.after [.push, .define "x" true none, .push, .push,
        .resolve "x"]).resolvedOrigin? "x" =
      some (.slot 1 0) := by
  decide +kernel

end ScriptEngine
