import ScriptEngine.Proofs.Compile.Relation
import ScriptEngine.Proofs.SafeCode
import ScriptEngine.Proofs.Scope.Soundness

/-!
# Compiling adds to what is known

Whatever is compiled, constants and slots are only added: the pool is continued and every open scope
has at least what it had.  In particular the number of open scopes is the same before and after.
-/

namespace ScriptEngine

namespace Env

/-- The second environment has at least what the first one has. -/
structure Grows (E E' : Env) : Prop where
  pool : Continues E.pool E'.pool
  chain : E.chain.Grows E'.chain

namespace Grows

theorem refl (E : Env) : E.Grows E :=
  ⟨.refl _, .refl _⟩

theorem trans {E₁ E₂ E₃ : Env} (h₁ : E₁.Grows E₂) (h₂ : E₂.Grows E₃) : E₁.Grows E₃ :=
  ⟨h₁.pool.trans h₂.pool, h₁.chain.trans h₂.chain⟩

theorem keep (E : Env) (v : Value) : E.Grows (E.keep v) :=
  ⟨.push _ _, .refl _⟩

theorem register (E : Env) (type : StructType) : E.Grows (E.register type) :=
  ⟨.push _ _, .refl _⟩

theorem structConstant (E : Env) (type : StructType) : E.Grows (E.structConstant type).2 := by
  rw [Env.structConstant]
  split
  · exact refl E
  · exact ⟨.push _ _, .refl _⟩

theorem define (E : Env) (name : String) (isMutable : Bool) (ty : Option Ty) :
    E.Grows (E.define name isMutable ty).2 :=
  ⟨.refl _, .define _ _ _ _⟩

theorem resolve? {E E' : Env} {name : String} {x : Symbol}
    (h : E.resolve? name = some (x, E')) : E.Grows E' := by
  simp only [Env.resolve?, Option.map_eq_some_iff, Prod.mk.injEq] at h
  obtain ⟨⟨r, chain⟩, hfound, -, rfl⟩ := h
  exact ⟨.refl _, .resolve? hfound⟩

theorem hoist? {ss : List Stmt} {E E' : Env} (h : E.hoist? ss = some E') : E.Grows E' := by
  induction ss generalizing E with
  | nil =>
      obtain rfl := Option.some.inj h
      exact refl E
  | cons s ss ih =>
      cases s with
      | function header body =>
          rw [Env.hoist?] at h
          split at h
          · cases h
          · have hdefine := define E header.boundName false (some header.signature.ty)
            have hrest := ih h
            exact ⟨hdefine.pool.trans hrest.pool, hdefine.chain.trans hrest.chain⟩
      | _ => exact ih h

theorem declared? {E E' : Env} {header : FunctionHeader} {x : Symbol}
    (h : E.declared? header = some (x, E')) : E.Grows E' := by
  simp only [Env.declared?] at h
  split at h
  · simp only [Option.some.injEq, Prod.mk.injEq] at h
    obtain ⟨-, rfl⟩ := h
    exact ⟨.refl _, .refl _⟩
  · split at h
    · cases h
    · simp only [Env.define, Option.some.injEq, Prod.mk.injEq] at h
      obtain ⟨-, rfl⟩ := h
      exact ⟨.refl _, .define _ _ _ _⟩

theorem withParameters (E : Env) (parameters : List (String × Ty)) :
    E.Grows (E.withParameters parameters) := by
  induction parameters generalizing E with
  | nil => exact refl E
  | cons p parameters ih => exact (define E p.1 false (some p.2)).trans (ih _)

/-- Entering a function opens one scope. -/
theorem enter (E : Env) (name : Option String) (signature : Signature) :
    { E with chain := E.chain.push }.Grows (E.enter name signature) := by
  cases name with
  | none =>
      refine trans ?_ (withParameters { E with chain := E.chain.push, hoisted := ∅ } _)
      exact ⟨.refl _, .refl _⟩
  | some name =>
      let self := (E.chain.push.defineSelf name (some signature.ty)).2
      refine trans ?_ (withParameters { E with chain := self, hoisted := ∅ } _)
      exact ⟨.refl _, ⟨rfl, Nat.le_refl _, List.prefix_rfl⟩, (ScopeChain.Grows.refl _).enclosing⟩

end Grows

end Env

namespace Compiles

theorem grows {E E' : Env} {p : Phrase} {t : Assembly} (h : Compiles E p t E') : E.Grows E' := by
  induction h with
  | int | float | str | zeroInt | zeroFloat | zeroString => exact .keep _ _
  | boolTrue | boolFalse | null | nothing | exprsNil | pairsNil | fieldsNil | zeroBool | zeroNull
  | zeroFunc | zeroArray | zeroHash | zerosNil | retNull | stmtsNil => exact .refl _
  | use resolved _ => exact .resolve? resolved
  | ident _ ih | unary _ ih | branch _ _ ih | otherwise _ ih | function _ ih | array _ ih
  | hash _ ih | select _ _ ih | fieldGiven _ ih | fieldLater _ _ ih | fieldZero _ ih | expr _ ih
  | ret _ _ ih | inner _ ih => exact ih
  | binary _ _ _ ih₁ ih₂ | swapped _ _ _ ih₁ ih₂ | callNamed _ _ _ ih₁ ih₂
  | callValue _ _ _ ih₁ ih₂ | index _ _ ih₁ ih₂ | exprsCons _ _ ih₁ ih₂ | fieldsCons _ _ ih₁ ih₂
  | zerosCons _ _ ih₁ ih₂ | setField _ _ _ ih₁ ih₂ | loop _ _ _ ih₁ ih₂ | stmtsCons _ _ ih₁ ih₂ =>
      exact ih₁.trans ih₂
  | cond _ _ _ ih₁ ih₂ ih₃ | pairsCons _ _ _ ih₁ ih₂ ih₃ | setIndex _ _ _ ih₁ ih₂ ih₃ =>
      exact (ih₁.trans ih₂).trans ih₃
  | struct _ _ _ ih | zeroStruct _ ih => exact ih.trans (.structConstant _ _)
  | @closure E E' name signature body t u scope chain code _ _ _ left _ ih =>
      have hinner := (Env.Grows.enter E name signature).trans ih
      exact ⟨hinner.pool.trans (.push _ _), .pop? hinner.chain left⟩
  | declare _ _ _ ih | declareZero _ _ _ ih => exact ih.trans (.define _ _ _ _)
  | assign resolved _ _ _ ih => exact (Env.Grows.resolve? resolved).trans ih
  | declareFunction bound _ _ ih => exact (Env.Grows.declared? bound).trans ih
  | structType type => exact .register _ type
  | block hoisted _ ih => exact (Env.Grows.hoist? hoisted).trans ih

/-- The number of open scopes is the same afterwards. -/
theorem depth_eq {E E' : Env} {p : Phrase} {t : Assembly} (h : Compiles E p t E') :
    E'.chain.depth = E.chain.depth :=
  h.grows.chain.depth_eq

end Compiles

end ScriptEngine
