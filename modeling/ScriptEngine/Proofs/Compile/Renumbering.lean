import ScriptEngine.Proofs.Compile.Numbering

/-!
# Compiling with other numbers

The numbers of global slots and of constants play no part in compiling beyond being written.  If two
environments agree up to a `Numbering` of what they know, then a phrase that compiles in the first
one compiles in the second one, to the renumbered code, and adds the renumbered constants
(`Compiles.renumbered`).  Struct types are left out: a constant of a struct type is made by whatever
mentions the type first.
-/

namespace ScriptEngine

/-! ## Programs without structs -/

mutual

/-- Whether a type mentions no struct type. -/
def Ty.isStructFree : Ty → Bool
  | .array element => element.isStructFree
  | .hash key value => key.isStructFree && value.isStructFree
  | .func parameters result =>
      Ty.areStructFree parameters &&
        match result with
        | some ty => ty.isStructFree
        | none => true
  | .struct _ _ => false
  | _ => true

def Ty.areStructFree : List Ty → Bool
  | [] => true
  | ty :: tys => ty.isStructFree && Ty.areStructFree tys

end

mutual

/-- Whether an expression mentions no struct literal and no struct type. -/
def Expr.isStructFree : Expr → Bool
  | .int _ | .float _ | .str _ | .bool _ | .null | .ident _ => true
  | .unary _ operand => operand.isStructFree
  | .binary _ left right => left.isStructFree && right.isStructFree
  | .cond condition consequence alternative =>
      condition.isStructFree && Stmt.areStructFree consequence &&
        Stmt.alternativeIsStructFree alternative
  | .function _ signature body => signature.ty.isStructFree && Stmt.areStructFree body
  | .call callee arguments _ => callee.isStructFree && Expr.areStructFree arguments
  | .array elements => Expr.areStructFree elements
  | .hash pairs => Expr.pairsAreStructFree pairs
  | .index container position => container.isStructFree && position.isStructFree
  | .struct _ _ => false
  | .select object _ structType => object.isStructFree && structType.isNone

def Expr.areStructFree : List Expr → Bool
  | [] => true
  | e :: es => e.isStructFree && Expr.areStructFree es

def Expr.pairsAreStructFree : List (Expr × Expr) → Bool
  | [] => true
  | (key, value) :: ps => key.isStructFree && value.isStructFree && Expr.pairsAreStructFree ps

/-- Whether a statement mentions no struct declaration, no struct literal and no struct type. -/
def Stmt.isStructFree : Stmt → Bool
  | .declare _ _ ty value =>
      ty.all Ty.isStructFree &&
        match value with
        | some e => e.isStructFree
        | none => true
  | .assign _ value => value.isStructFree
  | .setIndex container position value =>
      container.isStructFree && position.isStructFree && value.isStructFree
  | .setField object _ value structType =>
      object.isStructFree && value.isStructFree && structType.isNone
  | .ret value =>
      match value with
      | some e => e.isStructFree
      | none => true
  | .loop condition body => condition.isStructFree && Stmt.areStructFree body
  | .function header body => header.signature.ty.isStructFree && Stmt.areStructFree body
  | .structType _ => false
  | .block body => Stmt.areStructFree body
  | .expr value => value.isStructFree

def Stmt.areStructFree : List Stmt → Bool
  | [] => true
  | s :: ss => s.isStructFree && Stmt.areStructFree ss

/-- Whether the block of an alternative mentions no struct declaration, no struct literal and no
struct type. -/
def Stmt.alternativeIsStructFree : Option (List Stmt) → Bool
  | none => true
  | some body => Stmt.areStructFree body

end

def Phrase.isStructFree : Phrase → Bool
  | expr _ e => e.isStructFree
  | use _ => true
  | exprs es => Expr.areStructFree es
  | pairs ps => Expr.pairsAreStructFree ps
  | fields _ _ | field _ _ | zeros _ => false
  | zero ty => ty.isStructFree
  | branch body | stmts body | block body | closure _ _ body => Stmt.areStructFree body
  | otherwise alternative => Stmt.alternativeIsStructFree alternative
  | stmt s => s.isStructFree

variable {ν : Numbering}

/-! ## Values -/

def Function.renumber (ν : Numbering) (f : Function) : Function :=
  { f with code := f.code.renumber ν }

/-- The value with other numbers in the code that it is.  The mark of a constant is its number. -/
def Value.renumber (ν : Numbering) : Value → Value
  | function f => function ⟨ν.constants f.mark, f.content.renumber ν⟩
  | structType t => structType ⟨ν.constants t.mark, t.content⟩
  | v => v

/-! ## Symbols and scopes -/

namespace Symbol

def renumber (ν : Numbering) (x : Symbol) : Symbol :=
  { x with index := if x.storage = .global then ν.slots x.index else x.index }

@[simp] theorem name_renumber (x : Symbol) : (x.renumber ν).name = x.name :=
  rfl

@[simp] theorem storage_renumber (x : Symbol) : (x.renumber ν).storage = x.storage :=
  rfl

@[simp] theorem isMutable_renumber (x : Symbol) : (x.renumber ν).isMutable = x.isMutable :=
  rfl

@[simp] theorem ty_renumber (x : Symbol) : (x.renumber ν).ty = x.ty :=
  rfl

theorem renumber_eq_self {x : Symbol} (h : x.storage = .global → ν.slots x.index = x.index) :
    x.renumber ν = x := by
  unfold renumber
  split
  next hglobal => rw [h hglobal]
  next => rfl

@[simp] theorem load_renumber (x : Symbol) : (x.renumber ν).load = x.load.renumber ν := by
  obtain ⟨name, storage, index, isMutable, ty⟩ := x
  cases storage <;> cases isMutable <;> rfl

/-- What can be stored to can be stored to with other numbers. -/
theorem store?_renumber {x : Symbol} {i : Instruction} (h : x.store? = some i) :
    (x.renumber ν).store? = some (i.renumber ν) := by
  obtain ⟨name, storage, index, isMutable, ty⟩ := x
  cases storage <;> cases isMutable <;> cases h <;> rfl

end Symbol

/-- The second scope is the first one with other numbers for global slots.  Slots that are still to
be handed out keep their numbers. -/
structure Scope.Renumbered (ν : Numbering) (s s' : Scope) : Prop where
  get? : ∀ name, s'.get? name = (s.get? name).map (Symbol.renumber ν)
  definitions : s'.definitions = s.definitions
  isGlobal : s'.isGlobal = s.isGlobal
  captures : s'.captures = s.captures.map (Symbol.renumber ν)
  fixed : s.isGlobal = true → ∀ k, s.definitions ≤ k → ν.slots k = k

namespace Scope.Renumbered

variable {s s' : Scope}

theorem empty : (Scope.empty false).Renumbered ν (.empty false) where
  get? _ := by simp
  definitions := rfl
  isGlobal := rfl
  captures := rfl
  fixed h := by cases h

theorem get?_bind (h : s.Renumbered ν s') (x : Symbol) (name : String) :
    (s'.bind (x.renumber ν)).get? name = ((s.bind x).get? name).map (Symbol.renumber ν) := by
  rw [Scope.get?_bind, Scope.get?_bind, h.get?, x.name_renumber]
  split <;> rfl

theorem nextSymbol (h : s.Renumbered ν s') (name : String) (isMutable : Bool) (ty : Option Ty) :
    s'.nextSymbol name isMutable ty = (s.nextSymbol name isMutable ty).renumber ν := by
  rw [Symbol.renumber_eq_self]
  · simp only [Scope.nextSymbol, h.isGlobal, h.definitions]
  · intro hstorage
    cases hglobal : s.isGlobal with
    | true => exact h.fixed hglobal _ (Nat.le_refl _)
    | false => simp [Scope.nextSymbol, hglobal] at hstorage

theorem define (h : s.Renumbered ν s') (name : String) (isMutable : Bool) (ty : Option Ty) :
    (s.define name isMutable ty).2.Renumbered ν (s'.define name isMutable ty).2 where
  get? other := by
    rw [get?_define, get?_define, h.get?]
    split
    · exact congrArg some (h.nextSymbol name isMutable ty)
    · rfl
  definitions := congrArg Nat.succ h.definitions
  isGlobal := h.isGlobal
  captures := h.captures
  fixed hglobal k hk := h.fixed hglobal k (Nat.le_of_succ_le hk)

theorem defineSelf (h : s.Renumbered ν s') (name : String) (ty : Option Ty) :
    (s.defineSelf name ty).2.Renumbered ν (s'.defineSelf name ty).2 :=
  { h with get? := h.get?_bind (s.defineSelf name ty).1 }

theorem capture_fst (h : s.Renumbered ν s') (x : Symbol) :
    (s'.capture (x.renumber ν)).1 = (s.capture x).1.renumber ν := by
  simp [Scope.capture, Symbol.renumber, h.captures]

theorem capture (h : s.Renumbered ν s') (x : Symbol) :
    (s.capture x).2.Renumbered ν (s'.capture (x.renumber ν)).2 where
  get? other := by
    rw [get?_capture, get?_capture, h.get?, h.capture_fst, x.name_renumber]
    split <;> rfl
  definitions := h.definitions
  isGlobal := h.isGlobal
  captures := by simp [Scope.capture, h.captures]
  fixed := h.fixed

end Scope.Renumbered

/-! ## Scope chains -/

/-- The second chain is the first one with other numbers for global slots. -/
structure ScopeChain.Renumbered (ν : Numbering) (c c' : ScopeChain) : Prop where
  current : c.current.Renumbered ν c'.current
  enclosing : List.Forall₂ (Scope.Renumbered ν) c.enclosing c'.enclosing

namespace ScopeChain

/-- Resolving a name goes the same way in both. -/
theorem resolveFrom?_renumbered {name : String} {s s' s₁ : Scope} {outer outer' outer₁ : List Scope}
    {r : Resolution} (hs : s.Renumbered ν s')
    (houter : List.Forall₂ (Scope.Renumbered ν) outer outer')
    (h : resolveFrom? name s outer = some (r, s₁, outer₁)) :
    ∃ s₁' outer₁',
      resolveFrom? name s' outer' = some (⟨r.symbol.renumber ν, r.isOuter⟩, s₁', outer₁') ∧
      s₁.Renumbered ν s₁' ∧ List.Forall₂ (Scope.Renumbered ν) outer₁ outer₁' := by
  induction houter generalizing s s' s₁ outer₁ r with
  | nil =>
      simp only [resolveFrom?, Option.map_eq_some_iff, Prod.mk.injEq] at h
      obtain ⟨x, hx, rfl, rfl, rfl⟩ := h
      refine ⟨s', [], ?_, hs, .nil⟩
      rw [resolveFrom?, hs.get?, hx]
      rfl
  | @cons s₂ s₂' outer₂ outer₂' hhead htail ih =>
      rw [resolveFrom?] at h
      split at h
      next x hx =>
        simp only [Option.some.injEq, Prod.mk.injEq] at h
        obtain ⟨rfl, rfl, rfl⟩ := h
        refine ⟨s', s₂' :: outer₂', ?_, hs, .cons hhead htail⟩
        rw [resolveFrom?, hs.get?, hx]
        rfl
      next hx =>
        split at h
        · cases h
        next found s₃ outer₃ hfound =>
          obtain ⟨s₃', outer₃', hfound', hhead₃, htail₃⟩ := ih hhead hfound
          have hstep : resolveFrom? name s' (s₂' :: outer₂') =
              if found.symbol.storage.isShared then
                some (⟨found.symbol.renumber ν, true⟩, s', s₃' :: outer₃')
              else
                some (⟨(s'.capture (found.symbol.renumber ν)).1, true⟩,
                  (s'.capture (found.symbol.renumber ν)).2, s₃' :: outer₃') := by
            rw [resolveFrom?, hs.get?, hx]
            simp only [Option.map_none, hfound', Symbol.storage_renumber]
            rfl
          split at h
          next hshared =>
            simp only [Option.some.injEq, Prod.mk.injEq] at h
            obtain ⟨rfl, rfl, rfl⟩ := h
            exact ⟨s', _, by rw [hstep, if_pos hshared], hs, .cons hhead₃ htail₃⟩
          next hshared =>
            simp only [Option.some.injEq, Prod.mk.injEq] at h
            obtain ⟨rfl, rfl, rfl⟩ := h
            refine ⟨_, _, ?_, hs.capture _, .cons hhead₃ htail₃⟩
            rw [hstep, if_neg hshared, hs.capture_fst]

namespace Renumbered

variable {c c' c₁ : ScopeChain}

theorem lookup? (h : c.Renumbered ν c') (name : String) :
    c'.lookup? name = (c.lookup? name).map (Symbol.renumber ν) := by
  have hscopes : List.Forall₂ (Scope.Renumbered ν) (c.current :: c.enclosing)
      (c'.current :: c'.enclosing) := .cons h.current h.enclosing
  unfold ScopeChain.lookup?
  generalize c.current :: c.enclosing = scopes, c'.current :: c'.enclosing = scopes' at hscopes
  induction hscopes with
  | nil => rfl
  | @cons s s' _ _ hs _ ih =>
      rw [List.findSome?_cons, List.findSome?_cons, hs.get?]
      cases s.get? name with
      | none => exact ih
      | some x => rfl

theorem conflict? (h : c.Renumbered ν c') (name : String) :
    c'.conflict? name = (c.conflict? name).map (Symbol.renumber ν) := by
  rw [ScopeChain.conflict?, ScopeChain.conflict?, h.current.get?]
  cases hget : c.current.get? name with
  | none => rfl
  | some x => cases hdeclared : x.storage.isDeclared <;> simp [Option.filter, hdeclared]

theorem depth_eq (h : c.Renumbered ν c') : c'.depth = c.depth :=
  h.enclosing.length_eq.symm

theorem push (h : c.Renumbered ν c') : c.push.Renumbered ν c'.push :=
  ⟨.empty, .cons h.current h.enclosing⟩

theorem pop? {scope : Scope} (h : c.Renumbered ν c') (hpop : c.pop? = some (scope, c₁)) :
    ∃ scope' c₁', c'.pop? = some (scope', c₁') ∧ scope.Renumbered ν scope' ∧
      c₁.Renumbered ν c₁' := by
  obtain ⟨s, outer⟩ := c
  obtain ⟨s', outer'⟩ := c'
  obtain ⟨hcurrent, henclosing⟩ := h
  cases henclosing with
  | nil => cases hpop
  | cons hhead htail =>
      obtain ⟨rfl, rfl⟩ := Prod.mk.inj (Option.some.inj hpop)
      exact ⟨_, _, rfl, hcurrent, hhead, htail⟩

end Renumbered

end ScopeChain

/-! ## Environments -/

namespace Env

/-- The second environment knows what the first one knows, with other numbers for global slots. -/
structure Renumbered (ν : Numbering) (E E' : Env) : Prop where
  chain : E.chain.Renumbered ν E'.chain
  structs : E'.structs = E.structs
  hoisted : ∀ name, name ∈ E'.hoisted ↔ name ∈ E.hoisted

namespace Renumbered

variable {E E' : Env}

theorem contains_hoisted (h : E.Renumbered ν E') (name : String) :
    E'.hoisted.contains name = E.hoisted.contains name := by
  rw [Bool.eq_iff_iff, Std.TreeSet.contains_iff_mem, Std.TreeSet.contains_iff_mem]
  exact h.hoisted name

theorem canLoad (h : E.Renumbered ν E') (x : Symbol) :
    E'.canLoad (x.renumber ν) = E.canLoad x := by
  rw [Env.canLoad, Env.canLoad, x.name_renumber, x.storage_renumber, h.contains_hoisted]

theorem conflict?_eq_none (h : E.Renumbered ν E') {name : String}
    (hfresh : E.chain.conflict? name = none) : E'.chain.conflict? name = none := by
  rw [h.chain.conflict?, hfresh]
  rfl

/-- Static types are the same in both. -/
theorem seesAlike (h : E.Renumbered ν E') : E'.compiler.SeesAlike E.compiler := by
  have hlookup (name : String) :
      E'.compiler.chain.lookup? name = (E.compiler.chain.lookup? name).map (Symbol.renumber ν) :=
    h.chain.lookup? name
  have hstructs : E'.compiler.structs = E.compiler.structs := h.structs
  refine ⟨fun name => ?_, fun name argument => ?_, fun name => ?_⟩
  · rw [hlookup]
    cases E.compiler.chain.lookup? name <;> rfl
  · rw [Compiler.namedResult?, Compiler.namedResult?, hlookup]
    cases E.compiler.chain.lookup? name <;> rfl
  · rw [Compiler.struct?, Compiler.struct?, hstructs]

theorem typeOf_eq (h : E.Renumbered ν E') (e : Expr) :
    E'.compiler.typeOf e = E.compiler.typeOf e :=
  Compiler.typeOf_congr h.seesAlike e

theorem fieldIndex_eq (h : E.Renumbered ν E') (object : Expr) (field : String)
    (given : Option StructType) :
    E'.compiler.fieldIndex object field given = E.compiler.fieldIndex object field given :=
  Compiler.fieldIndex_congr h.seesAlike object field given

end Renumbered

/-- From the first environment to the second one constants are added, and no struct type becomes
known.  Whatever agrees with the first one leads to what agrees with the second one, with the same
constants renumbered, if these are found there under their other numbers. -/
def Carries (ν : Numbering) (E E₁ : Env) (leads : Env → Env → Prop) : Prop :=
  ∃ added : Array Value, E₁.pool = E.pool ++ added ∧ E₁.structs = E.structs ∧
    ∀ E', E.Renumbered ν E' →
      (∀ k < added.size, ν.constants (E.pool.size + k) = E'.pool.size + k) →
      ∃ E₁', leads E' E₁' ∧ E₁.Renumbered ν E₁' ∧
        E₁'.pool = E'.pool ++ added.map (Value.renumber ν)

namespace Carries

variable {E E₁ E₂ : Env} {leads leads' : Env → Env → Prop}

theorem imp (h : E.Carries ν E₁ leads)
    (himp : ∀ E' E₁', E.Renumbered ν E' → E₁.Renumbered ν E₁' → leads E' E₁' → leads' E' E₁') :
    E.Carries ν E₁ leads' := by
  obtain ⟨added, hpool, hstructs, hcarries⟩ := h
  refine ⟨added, hpool, hstructs, fun E' hE hnumbers => ?_⟩
  obtain ⟨E₁', hleads, hE₁, hpool₁⟩ := hcarries E' hE hnumbers
  exact ⟨E₁', himp E' E₁' hE hE₁ hleads, hE₁, hpool₁⟩

theorem andThen (h : E.Carries ν E₁ leads) (h' : E₁.Carries ν E₂ leads') :
    E.Carries ν E₂ fun E' E₂' => ∃ E₁', leads E' E₁' ∧ leads' E₁' E₂' := by
  obtain ⟨added, hpool, hstructs, hcarries⟩ := h
  obtain ⟨added', hpool', hstructs', hcarries'⟩ := h'
  refine ⟨added ++ added', by rw [hpool', hpool, Array.append_assoc], hstructs'.trans hstructs,
    fun E' hE hnumbers => ?_⟩
  rw [Array.size_append] at hnumbers
  obtain ⟨E₁', hleads, hE₁, hpool₁⟩ := hcarries E' hE fun k hk => hnumbers k (by omega)
  have hlater (k : Nat) (hk : k < added'.size) :
      ν.constants (E₁.pool.size + k) = E₁'.pool.size + k := by
    have hnumber := hnumbers (added.size + k) (by omega)
    rw [hpool, hpool₁, Array.size_append, Array.size_append, Array.size_map, Nat.add_assoc,
      hnumber, Nat.add_assoc]
  obtain ⟨E₂', hleads', hE₂, hpool₂⟩ := hcarries' E₁' hE₁ hlater
  refine ⟨E₂', ⟨E₁', hleads, hleads'⟩, hE₂, ?_⟩
  rw [hpool₂, hpool₁, Array.append_assoc, Array.map_append]

/-- Where no constant is added. -/
theorem of_pool_eq (hpool : E₁.pool = E.pool) (hstructs : E₁.structs = E.structs)
    (h : ∀ E', E.Renumbered ν E' → ∃ E₁', leads E' E₁' ∧ E₁.Renumbered ν E₁' ∧ E₁'.pool = E'.pool) :
    E.Carries ν E₁ leads := by
  refine ⟨#[], by rw [hpool, Array.append_empty], hstructs, fun E' hE _ => ?_⟩
  obtain ⟨E₁', hleads, hE₁, hpool₁⟩ := h E' hE
  exact ⟨E₁', hleads, hE₁, by rw [hpool₁, Array.map_empty, Array.append_empty]⟩

/-- Where nothing changes. -/
theorem refl (h : ∀ E', E.Renumbered ν E' → leads E' E') : E.Carries ν E leads :=
  of_pool_eq rfl rfl fun E' hE => ⟨E', h E' hE, hE, rfl⟩

/-- A constant that is no code is added. -/
theorem keep {v : Value} (hv : v.renumber ν = v) :
    E.Carries ν (E.keep v) fun E' E₁' =>
      E₁' = E'.keep v ∧ ν.constants E.pool.size = E'.pool.size := by
  refine ⟨#[v], Array.push_eq_append, rfl, fun E' hE hnumbers => ?_⟩
  refine ⟨E'.keep v, ⟨rfl, hnumbers 0 Nat.one_pos⟩, ⟨hE.chain, hE.structs, hE.hoisted⟩, ?_⟩
  rw [List.map_toArray, List.map_cons, List.map_nil, hv]
  exact Array.push_eq_append

theorem resolve? {name : String} {x : Symbol} (h : E.resolve? name = some (x, E₁)) :
    E.Carries ν E₁ fun E' E₁' => E'.resolve? name = some (x.renumber ν, E₁') := by
  obtain ⟨⟨r, chain⟩, hfound, hr⟩ := Option.map_eq_some_iff.mp h
  obtain ⟨rfl, rfl⟩ := Prod.mk.inj hr
  refine of_pool_eq rfl rfl fun E' hE => ?_
  obtain ⟨⟨r₁, s, rest⟩, hfrom, hr₁⟩ := Option.map_eq_some_iff.mp hfound
  obtain ⟨rfl, rfl⟩ := Prod.mk.inj hr₁
  obtain ⟨s', rest', hfrom', hs, hrest⟩ :=
    ScopeChain.resolveFrom?_renumbered hE.chain.current hE.chain.enclosing hfrom
  refine ⟨{ E' with chain := ⟨s', rest'⟩ }, ?_, ⟨⟨hs, hrest⟩, hE.structs, hE.hoisted⟩, rfl⟩
  rw [Env.resolve?, ScopeChain.resolve?, hfrom']
  rfl

theorem define (name : String) (isMutable : Bool) (ty : Option Ty) :
    E.Carries ν (E.define name isMutable ty).2 fun E' E₁' =>
      E'.define name isMutable ty = ((E.define name isMutable ty).1.renumber ν, E₁') := by
  refine of_pool_eq rfl rfl fun E' hE => ?_
  refine ⟨(E'.define name isMutable ty).2, Prod.ext ?_ rfl, ?_, rfl⟩
  · exact hE.chain.current.nextSymbol name isMutable ty
  · exact ⟨⟨hE.chain.current.define name isMutable ty, hE.chain.enclosing⟩, hE.structs, hE.hoisted⟩

/-- One more function is still to be declared. -/
theorem insertHoisted (bound : String) :
    E.Carries ν { E with hoisted := E.hoisted.insert bound } fun E' E₁' =>
      E₁' = { E' with hoisted := E'.hoisted.insert bound } :=
  of_pool_eq rfl rfl fun E' hE => ⟨_, rfl, ⟨hE.chain, hE.structs, fun name => by
    rw [Std.TreeSet.mem_insert, Std.TreeSet.mem_insert, hE.hoisted]⟩, rfl⟩

/-- One function is no longer to be declared. -/
theorem eraseHoisted (bound : String) :
    E.Carries ν { E with hoisted := E.hoisted.erase bound } fun E' E₁' =>
      E₁' = { E' with hoisted := E'.hoisted.erase bound } :=
  of_pool_eq rfl rfl fun E' hE => ⟨_, rfl, ⟨hE.chain, hE.structs, fun name => by
    rw [Std.TreeSet.mem_erase, Std.TreeSet.mem_erase, hE.hoisted]⟩, rfl⟩

theorem hoist? {ss : List Stmt} (h : E.hoist? ss = some E₁) :
    E.Carries ν E₁ fun E' E₁' => E'.hoist? ss = some E₁' := by
  induction ss generalizing E with
  | nil =>
      obtain rfl := Option.some.inj h
      exact refl fun _ _ => rfl
  | cons s ss ih =>
      cases s with
      | function header body =>
          rw [Env.hoist?] at h
          split at h
          · cases h
          next hfresh =>
            have hbound := (define (E := E) (ν := ν) header.boundName false
              (some header.signature.ty)).andThen (insertHoisted header.boundName)
            refine (hbound.andThen (ih h)).imp ?_
            rintro E' E₁' hE - ⟨_, ⟨E₂', hdefine, rfl⟩, hrest⟩
            rw [Bool.not_eq_true, Option.isSome_eq_false_iff, Option.isNone_iff_eq_none] at hfresh
            simp only [Env.hoist?, hE.conflict?_eq_none hfresh, hdefine]
            exact hrest
      | _ => exact ih h

theorem declared? {header : FunctionHeader} {x : Symbol} (h : E.declared? header = some (x, E₁)) :
    E.Carries ν E₁ fun E' E₁' => E'.declared? header = some (x.renumber ν, E₁') := by
  simp only [Env.declared?] at h
  split at h
  next y hy =>
    obtain ⟨rfl, rfl⟩ := Prod.mk.inj (Option.some.inj h)
    refine (eraseHoisted header.boundName).imp ?_
    rintro E' _ hE - rfl
    simp only [Env.declared?, hE.contains_hoisted, hE.chain.current.get?]
    split at hy
    next hcontains =>
      rw [if_pos hcontains, hy]
      rfl
    next => cases hy
  next hnone =>
    split at h
    · cases h
    next hfresh =>
      obtain ⟨rfl, rfl⟩ := Prod.mk.inj (Option.some.inj h)
      refine ((eraseHoisted header.boundName).andThen
        (define header.boundName false (some header.signature.ty))).imp ?_
      rintro E' E₁' hE - ⟨_, rfl, hdefine⟩
      have hfree : E.chain.conflict? header.boundName = none := by
        rwa [Bool.not_eq_true, Option.isSome_eq_false_iff, Option.isNone_iff_eq_none] at hfresh
      simp only [Env.declared?, hE.contains_hoisted, hE.chain.current.get?]
      have hnone' : (if E.hoisted.contains header.boundName then
          (E.chain.current.get? header.boundName).map (Symbol.renumber ν) else none) = none := by
        split at hnone <;> simp_all
      rw [hnone']
      simp only [hE.conflict?_eq_none hfree, Option.isSome_none, Bool.false_eq_true, if_false]
      exact congrArg some hdefine

theorem withParameters (parameters : List (String × Ty)) :
    E.Carries ν (E.withParameters parameters) fun E' E₁' => E₁' = E'.withParameters parameters := by
  induction parameters generalizing E with
  | nil => exact refl fun _ _ => rfl
  | cons p parameters ih =>
      refine ((define p.1 false (some p.2)).andThen ih).imp ?_
      rintro E' _ - - ⟨E₁', hdefine, rfl⟩
      rw [Env.withParameters, hdefine]

theorem enter (name : Option String) (signature : Signature) :
    E.Carries ν (E.enter name signature) fun E' E₁' => E₁' = E'.enter name signature := by
  cases name with
  | none =>
      have hpush : E.Carries ν { E with chain := E.chain.push, hoisted := ∅ } fun E' E₁' =>
          E₁' = { E' with chain := E'.chain.push, hoisted := ∅ } :=
        of_pool_eq rfl rfl fun E' hE => ⟨_, rfl, ⟨hE.chain.push, hE.structs, fun _ => Iff.rfl⟩, rfl⟩
      refine (hpush.andThen (withParameters signature.parameters)).imp ?_
      rintro E' _ - - ⟨_, rfl, rfl⟩
      rfl
  | some name =>
      have hpush : E.Carries ν
          { E with chain := (E.chain.push.defineSelf name (some signature.ty)).2, hoisted := ∅ }
          fun E' E₁' => E₁' =
            { E' with
              chain := (E'.chain.push.defineSelf name (some signature.ty)).2
              hoisted := ∅ } :=
        of_pool_eq rfl rfl fun E' hE => ⟨_, rfl, ⟨⟨hE.chain.push.current.defineSelf _ _,
          hE.chain.push.enclosing⟩, hE.structs, fun _ => Iff.rfl⟩, rfl⟩
      refine (hpush.andThen (withParameters signature.parameters)).imp ?_
      rintro E' _ - - ⟨_, rfl, rfl⟩
      rfl

end Carries

end Env

/-! ## Phrases -/

/-- What a phrase leads to in other environments: its code, renumbered. -/
def Phrase.CompilesAs (ν : Numbering) (p : Phrase) (t : Assembly) (E E' : Env) : Prop :=
  Compiles E p (t.renumber ν) E'

namespace Env.Carries

variable {E E₁ E₂ : Env} {p q r : Phrase} {t u : Assembly} {i : Instruction}

/-- A phrase whose code is that of a part of it and one more instruction. -/
theorem concat (h : E.Carries ν E₁ (q.CompilesAs ν t))
    (hp : ∀ E' E₁', E.Renumbered ν E' → Compiles E' q (t.renumber ν) E₁' →
      Compiles E' p (t.renumber ν ++ .single (i.renumber ν)) E₁') :
    E.Carries ν E₁ (p.CompilesAs ν (t ++ .single i)) := by
  refine h.imp fun E' E₁' hE _ hq => ?_
  unfold Phrase.CompilesAs
  rw [Assembly.renumber_append]
  exact hp E' E₁' hE hq

/-- A phrase whose code is that of two parts of it and one more instruction. -/
theorem pair (h : E.Carries ν E₁ (q.CompilesAs ν t)) (h' : E₁.Carries ν E₂ (r.CompilesAs ν u))
    (hp : ∀ E' E₁' E₂', E.Renumbered ν E' → Compiles E' q (t.renumber ν) E₁' →
      Compiles E₁' r (u.renumber ν) E₂' →
      Compiles E' p (t.renumber ν ++ (u.renumber ν ++ .single (i.renumber ν))) E₂') :
    E.Carries ν E₂ (p.CompilesAs ν (t ++ (u ++ .single i))) := by
  refine (h.andThen h').imp ?_
  rintro E' E₂' hE - ⟨E₁', hq, hr⟩
  unfold Phrase.CompilesAs
  rw [Assembly.renumber_append, Assembly.renumber_append]
  exact hp E' E₁' E₂' hE hq hr

/-- A constant is added and loaded. -/
theorem constant {v : Value} (hv : v.renumber ν = v)
    (hp : ∀ E', Compiles E' p (.single ⟨.constant, [E'.pool.size]⟩) (E'.keep v)) :
    E.Carries ν (E.keep v) (p.CompilesAs ν (.single ⟨.constant, [E.pool.size]⟩)) := by
  refine (keep hv).imp ?_
  rintro E' _ - - ⟨rfl, hnumber⟩
  unfold Phrase.CompilesAs
  rw [Assembly.renumber_single, Instruction.renumber_cons, Numbering.operand, hnumber]
  exact hp E'

/-- The body of a function is compiled, and a closure of it is made. -/
theorem closure (hν : ν.IsNarrow) {name : Option String} {signature : Signature} {body : List Stmt}
    {scope : Scope} {chain : ScopeChain} {code : Code}
    (hbody : (E.enter name signature).Carries ν E₁ (Phrase.CompilesAs ν (.block body) t))
    (returns : t.Returns u) (written : Code.Adds .empty (u.instrs 0) code)
    (left : E₁.chain.pop? = some (scope, chain))
    (readable : ∀ x ∈ scope.captures, { E₁ with chain, hoisted := E.hoisted }.canLoad x = true) :
    E.Carries ν ({ E₁ with chain, hoisted := E.hoisted }.keep (.function ⟨E₁.pool.size,
        { code, locals := scope.definitions, parameters := signature.parameters.length, name }⟩))
      (Phrase.CompilesAs ν (.closure name signature body)
        (.ofList (scope.captures.map Symbol.load) ++
          .single ⟨.closure, [E₁.pool.size, scope.captures.length]⟩)) := by
  obtain ⟨added, hpool, hstructs, hcarries⟩ := (enter name signature).andThen hbody
  refine ⟨added.push _, by rw [Env.keep, hpool, Array.append_push], hstructs,
    fun E' hE hnumbers => ?_⟩
  rw [Array.size_push] at hnumbers
  obtain ⟨E₁', ⟨_, rfl, hcompiles⟩, hE₁, hpool'⟩ :=
    hcarries E' hE fun k hk => hnumbers k (Nat.lt_succ_of_lt hk)
  obtain ⟨scope', chain', hleft, hscope, hchain⟩ := hE₁.chain.pop? left
  have hnumber : ν.constants E₁.pool.size = E₁'.pool.size := by
    rw [hpool, hpool', Array.size_append, Array.size_append, Array.size_map]
    exact hnumbers added.size (Nat.lt_succ_self _)
  have hafter : Env.Renumbered ν { E₁ with chain, hoisted := E.hoisted }
      { E₁' with chain := chain', hoisted := E'.hoisted } :=
    ⟨hchain, hE₁.structs, hE.hoisted⟩
  have hwritten := written.renumber hν
  rw [← u.instrs_renumber] at hwritten
  have hclosure := Compiles.closure hcompiles returns.renumber hwritten hleft (by
    rw [hscope.captures, List.forall_mem_map]
    intro x hx
    rw [hafter.canLoad]
    exact readable x hx)
  have hloads : scope'.captures.map Symbol.load =
      (scope.captures.map Symbol.load).map (·.renumber ν) := by
    simp only [hscope.captures, List.map_map, Function.comp_def, Symbol.load_renumber]
  have hmake : Assembly.single ⟨.closure, [ν.constants E₁.pool.size, scope.captures.length]⟩ =
      (Assembly.single ⟨.closure, [E₁.pool.size, scope.captures.length]⟩).renumber ν := rfl
  rw [hloads, hscope.captures, List.length_map, ← hnumber, hmake, ← Assembly.renumber_ofList,
    ← Assembly.renumber_append, hscope.definitions] at hclosure
  refine ⟨_, hclosure, ⟨hafter.chain, hafter.structs, hafter.hoisted⟩, ?_⟩
  rw [Array.map_push, Array.append_push, ← hpool', ← hpool]
  rfl

end Env.Carries

open Env.Carries Assembly in
/-- A phrase without structs that compiles does so with other numbers, to the renumbered code and
with the renumbered constants. -/
theorem Compiles.renumbered (hν : ν.IsNarrow) {E E₁ : Env} {p : Phrase} {t : Assembly}
    (h : Compiles E p t E₁) (hfree : p.isStructFree = true) :
    E.Carries ν E₁ (p.CompilesAs ν t) := by
  induction h with
  -- literals and zero values
  | int n => exact constant rfl fun _ => .int n
  | float x => exact constant rfl fun _ => .float x
  | str s => exact constant rfl fun _ => .str s
  | zeroInt => exact constant rfl fun _ => .zeroInt
  | zeroFloat => exact constant rfl fun _ => .zeroFloat
  | zeroString => exact constant rfl fun _ => .zeroString
  | boolTrue => exact refl fun _ _ => .boolTrue
  | boolFalse => exact refl fun _ _ => .boolFalse
  | null => exact refl fun _ _ => .null
  | zeroBool => exact refl fun _ _ => .zeroBool
  | zeroNull => exact refl fun _ _ => .zeroNull
  | zeroFunc => exact refl fun _ _ => .zeroFunc
  | zeroArray => exact refl fun _ _ => .zeroArray
  | zeroHash => exact refl fun _ _ => .zeroHash
  | struct | zeroStruct | structType | fieldsNil | fieldsCons | fieldGiven | fieldLater | fieldZero
  | zerosNil | zerosCons => cases hfree
  -- names and operators
  | @use E E₁ name x resolved readable =>
      refine (resolve? resolved).imp fun E' E₁' _ hE₁ hresolve => ?_
      unfold Phrase.CompilesAs
      rw [renumber_single, ← x.load_renumber]
      exact .use hresolve ((hE₁.canLoad x).trans readable)
  | ident _ ih => exact (ih rfl).imp fun _ _ _ _ h => .ident h
  | unary _ ih => exact (ih hfree).concat fun _ _ _ h => .unary h
  | binary inOrder _ _ ih₁ ih₂ =>
      obtain ⟨hleft, hright⟩ := Bool.and_eq_true_iff.mp hfree
      exact (ih₁ hleft).pair (ih₂ hright) fun _ _ _ _ h₁ h₂ => .binary inOrder h₁ h₂
  | swapped reversed _ _ ih₁ ih₂ =>
      obtain ⟨hleft, hright⟩ := Bool.and_eq_true_iff.mp hfree
      exact (ih₁ hright).pair (ih₂ hleft) fun _ _ _ _ h₁ h₂ => .swapped reversed h₁ h₂
  | cond _ _ _ ih₁ ih₂ ih₃ =>
      obtain ⟨hboth, hno⟩ := Bool.and_eq_true_iff.mp hfree
      obtain ⟨hcondition, hyes⟩ := Bool.and_eq_true_iff.mp hboth
      refine (((ih₁ hcondition).andThen (ih₂ hyes)).andThen (ih₃ hno)).imp ?_
      rintro E' E₄' - - ⟨E₃', ⟨E₂', h₁, h₂⟩, h₃⟩
      exact .cond h₁ h₂ h₃
  | branch _ value ih => exact (ih hfree).imp fun _ _ _ _ h => .branch h value.renumber
  | otherwise _ ih => exact (ih hfree).imp fun _ _ _ _ h => .otherwise h
  | nothing => exact refl fun _ _ => .nothing
  -- containers and calls
  | function _ ih =>
      exact (ih (Bool.and_eq_true_iff.mp hfree).2).imp fun _ _ _ _ h => .function h
  | callNamed named _ _ ih₁ ih₂ =>
      obtain ⟨-, harguments⟩ := Bool.and_eq_true_iff.mp hfree
      exact (ih₁ rfl).pair (ih₂ harguments) fun _ _ _ _ h₁ h₂ => .callNamed named h₁ h₂
  | callValue unnamed _ _ ih₁ ih₂ =>
      obtain ⟨hcallee, harguments⟩ := Bool.and_eq_true_iff.mp hfree
      exact (ih₁ hcallee).pair (ih₂ harguments) fun _ _ _ _ h₁ h₂ => .callValue unnamed h₁ h₂
  | array _ ih => exact (ih hfree).concat fun _ _ _ h => .array h
  | hash _ ih => exact (ih hfree).concat fun _ _ _ h => .hash h
  | index _ _ ih₁ ih₂ =>
      obtain ⟨hcontainer, hposition⟩ := Bool.and_eq_true_iff.mp hfree
      exact (ih₁ hcontainer).pair (ih₂ hposition) fun _ _ _ _ h₁ h₂ => .index h₁ h₂
  | select found _ ih =>
      obtain ⟨hobject, -⟩ := Bool.and_eq_true_iff.mp hfree
      exact (ih hobject).concat fun _ _ hE h => .select ((hE.fieldIndex_eq _ _ _).trans found) h
  | exprsNil => exact refl fun _ _ => .exprsNil
  | exprsCons _ _ ih₁ ih₂ =>
      obtain ⟨hhead, htail⟩ := Bool.and_eq_true_iff.mp hfree
      refine ((ih₁ hhead).andThen (ih₂ htail)).imp ?_
      rintro E' E₃' - - ⟨E₂', h₁, h₂⟩
      unfold Phrase.CompilesAs
      rw [renumber_append]
      exact .exprsCons h₁ h₂
  | pairsNil => exact refl fun _ _ => .pairsNil
  | pairsCons _ _ _ ih₁ ih₂ ih₃ =>
      obtain ⟨hboth, htail⟩ := Bool.and_eq_true_iff.mp hfree
      obtain ⟨hkey, hvalue⟩ := Bool.and_eq_true_iff.mp hboth
      refine (((ih₁ hkey).andThen (ih₂ hvalue)).andThen (ih₃ htail)).imp ?_
      rintro E' E₄' - - ⟨E₃', ⟨E₂', h₁, h₂⟩, h₃⟩
      unfold Phrase.CompilesAs
      rw [renumber_append, renumber_append]
      exact .pairsCons h₁ h₂ h₃
  -- functions
  | closure _ returns written left readable ih =>
      exact Env.Carries.closure hν (ih hfree) returns written left readable
  -- statements
  | expr _ ih => exact (ih hfree).concat fun _ _ _ h => .expr h
  | @declare E E₁ name isMutable ty e t i fresh _ store ih =>
      refine ((ih (Bool.and_eq_true_iff.mp hfree).2).andThen (define _ _ _)).imp ?_
      rintro E' E₂' hE - ⟨E₁', h, hdefine⟩
      rw [← hE.typeOf_eq] at hdefine store
      have hstore : (E₁'.define name isMutable (ty <|> E'.compiler.typeOf e)).1.store? =
          some (i.renumber ν) := by
        rw [hdefine]
        exact Symbol.store?_renumber store
      have hcode := Compiles.declare (hE.conflict?_eq_none fresh) h hstore
      rw [hdefine] at hcode
      unfold Phrase.CompilesAs
      rw [renumber_append]
      exact hcode
  | @declareZero E E₁ name isMutable ty t i fresh _ store ih =>
      have hty : (ty.getD .null).isStructFree = true := by
        cases ty with
        | none => rfl
        | some ty => exact (Bool.and_eq_true_iff.mp hfree).1
      refine ((ih hty).andThen (define _ _ _)).imp ?_
      rintro E' E₂' hE - ⟨E₁', h, hdefine⟩
      have hstore : (E₁'.define name isMutable ty).1.store? = some (i.renumber ν) := by
        rw [hdefine]
        exact Symbol.store?_renumber store
      have hcode := Compiles.declareZero (hE.conflict?_eq_none fresh) h hstore
      rw [hdefine] at hcode
      unfold Phrase.CompilesAs
      rw [renumber_append]
      exact hcode
  | assign resolved assignable _ store ih =>
      refine ((resolve? resolved).andThen (ih hfree)).imp ?_
      rintro E' E₃' - - ⟨E₂', hresolve, h⟩
      unfold Phrase.CompilesAs
      rw [renumber_append]
      exact .assign hresolve assignable h (Symbol.store?_renumber store)
  | setIndex _ _ _ ih₁ ih₂ ih₃ =>
      obtain ⟨hboth, hvalue⟩ := Bool.and_eq_true_iff.mp hfree
      obtain ⟨hcontainer, hposition⟩ := Bool.and_eq_true_iff.mp hboth
      refine (((ih₁ hcontainer).andThen (ih₂ hposition)).andThen (ih₃ hvalue)).imp ?_
      rintro E' E₄' - - ⟨E₃', ⟨E₂', h₁, h₂⟩, h₃⟩
      unfold Phrase.CompilesAs
      rw [renumber_append, renumber_append, renumber_append]
      exact .setIndex h₁ h₂ h₃
  | setField found _ _ ih₁ ih₂ =>
      obtain ⟨hboth, -⟩ := Bool.and_eq_true_iff.mp hfree
      obtain ⟨hobject, hvalue⟩ := Bool.and_eq_true_iff.mp hboth
      exact (ih₁ hobject).pair (ih₂ hvalue) fun _ _ _ hE h₁ h₂ =>
        .setField ((hE.fieldIndex_eq _ _ _).trans found) h₁ h₂
  | ret inFunction _ ih =>
      exact (ih hfree).concat fun _ _ hE h => .ret (hE.chain.depth_eq.symm ▸ inFunction) h
  | retNull inFunction =>
      exact refl fun E' hE => .retNull (hE.chain.depth_eq.symm ▸ inFunction)
  | loop boolean _ _ ih₁ ih₂ =>
      obtain ⟨hcondition, hbody⟩ := Bool.and_eq_true_iff.mp hfree
      refine ((ih₁ hcondition).andThen (ih₂ hbody)).imp ?_
      rintro E' E₃' hE - ⟨E₂', h₁, h₂⟩
      exact .loop ((hE.typeOf_eq _).trans boolean) h₁ h₂
  | declareFunction bound _ store ih =>
      refine ((declared? bound).andThen (ih (Bool.and_eq_true_iff.mp hfree).2)).imp ?_
      rintro E' E₃' - - ⟨E₂', hbound, h⟩
      unfold Phrase.CompilesAs
      rw [renumber_append]
      exact .declareFunction hbound h (Symbol.store?_renumber store)
  | inner _ ih => exact (ih hfree).imp fun _ _ _ _ h => .inner h
  | stmtsNil => exact refl fun _ _ => .stmtsNil
  | stmtsCons _ _ ih₁ ih₂ =>
      obtain ⟨hhead, htail⟩ := Bool.and_eq_true_iff.mp hfree
      refine ((ih₁ hhead).andThen (ih₂ htail)).imp ?_
      rintro E' E₃' - - ⟨E₂', h₁, h₂⟩
      unfold Phrase.CompilesAs
      rw [renumber_append]
      exact .stmtsCons h₁ h₂
  | block hoisted _ ih =>
      refine ((hoist? hoisted).andThen (ih hfree)).imp ?_
      rintro E' E₃' - - ⟨E₂', hhoist, h⟩
      exact .block hhoist h

end ScriptEngine
