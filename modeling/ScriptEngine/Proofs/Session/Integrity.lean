import ScriptEngine.Proofs.Compile.Hoisting
import ScriptEngine.Proofs.Machine.Integrity
import ScriptEngine.Proofs.Session.Conduct

/-!
# The integrity of sessions

Containers outlive the units that made them.  The constants of a unit refer to none of them, so that
every machine of a session starts intact and leaves an intact heap to the next unit, however its run
ends (`Session.isIntact_evalAll`).
-/

namespace ScriptEngine

/-! ## The constants of a unit -/

/-- The value refers to no container. -/
def Value.IsStatic (v : Value) : Prop :=
  ∀ h : Heap, h.Owns v

namespace Env

variable {E E' : Env}

/-- No constant refers to a container. -/
def IsStatic (E : Env) : Prop :=
  ∀ v ∈ E.pool, v.IsStatic

theorem IsStatic.of_pool_eq (hE : E.IsStatic) (hpool : E'.pool = E.pool) : E'.IsStatic := by
  rw [IsStatic, hpool]
  exact hE

theorem IsStatic.push (hE : E.IsStatic) {v : Value} (hpool : E'.pool = E.pool.push v)
    (hv : v.IsStatic) : E'.IsStatic := by
  rw [IsStatic, hpool]
  exact Array.forall_mem_push hE hv

theorem IsStatic.structConstant (hE : E.IsStatic) (type : StructType) :
    (E.structConstant type).2.IsStatic := by
  unfold Env.structConstant
  split
  · exact hE
  · exact hE.push rfl fun _ => trivial

theorem pool_resolve? {name : String} {x : Symbol} (h : E.resolve? name = some (x, E')) :
    E'.pool = E.pool := by
  obtain ⟨r, -, hr⟩ := Option.map_eq_some_iff.mp h
  cases hr
  rfl

theorem pool_declared? {header : FunctionHeader} {x : Symbol}
    (h : E.declared? header = some (x, E')) : E'.pool = E.pool := by
  unfold declared? at h
  simp only at h
  split at h
  · cases h
    rfl
  · split at h
    · cases h
    · cases h
      rfl

end Env

/-- Numbers, texts, functions and struct types are all that becomes a constant. -/
theorem Compiles.isStatic {E E' : Env} {p : Phrase} {t : Assembly} (h : Compiles E p t E')
    (hE : E.IsStatic) : E'.IsStatic := by
  induction h with
  | int | float | str | zeroInt | zeroFloat | zeroString => exact hE.push rfl fun _ => trivial
  | structType => exact hE.push rfl fun _ => trivial
  | boolTrue | boolFalse | null | nothing | exprsNil | pairsNil | fieldsNil | zeroBool | zeroNull
  | zeroFunc | zeroArray | zeroHash | zerosNil | retNull | stmtsNil => exact hE
  | use resolved _ => exact hE.of_pool_eq (Env.pool_resolve? resolved)
  | ident _ ih | unary _ ih | branch _ _ ih | otherwise _ ih | function _ ih | array _ ih
  | hash _ ih | select _ _ ih | fieldGiven _ ih | fieldLater _ _ ih | fieldZero _ ih | expr _ ih
  | ret _ _ ih | inner _ ih => exact ih hE
  | declare _ _ _ ih | declareZero _ _ _ ih => exact (ih hE).of_pool_eq rfl
  | binary _ _ _ ih₁ ih₂ | swapped _ _ _ ih₁ ih₂ | callNamed _ _ _ ih₁ ih₂
  | callValue _ _ _ ih₁ ih₂ | index _ _ ih₁ ih₂ | exprsCons _ _ ih₁ ih₂ | fieldsCons _ _ ih₁ ih₂
  | zerosCons _ _ ih₁ ih₂ | setField _ _ _ ih₁ ih₂ | loop _ _ _ ih₁ ih₂
  | stmtsCons _ _ ih₁ ih₂ => exact ih₂ (ih₁ hE)
  | cond _ _ _ ih₁ ih₂ ih₃ | pairsCons _ _ _ ih₁ ih₂ ih₃ | setIndex _ _ _ ih₁ ih₂ ih₃ =>
      exact ih₃ (ih₂ (ih₁ hE))
  | struct _ _ _ ih | zeroStruct _ ih => exact (ih hE).structConstant _
  | assign resolved _ _ _ ih => exact ih (hE.of_pool_eq (Env.pool_resolve? resolved))
  | declareFunction bound _ _ ih => exact ih (hE.of_pool_eq (Env.pool_declared? bound))
  | block hoisted _ ih => exact ih (hE.of_pool_eq (Env.pool_hoist? hoisted))
  | closure _ _ _ _ _ ih =>
      exact (ih (hE.of_pool_eq (Env.same_enter _ _ _).2)).push rfl fun _ => trivial

/-- The constants of a unit are the pool that the compiler goes on with. -/
theorem Compiler.pool_of_compile {c c' : Compiler} {program : Program} {unit : Bytecode}
    (h : c.compile program = (.ok unit, c')) : c'.pool = unit.constants := by
  unfold Compiler.compile at h
  split at h
  · cases h
    rfl
  · cases h

/-! ## Units of a session -/

namespace Session

/-- The constants refer to no container, the globals only to containers that are there, and the heap
is intact. -/
structure IsIntact (s : Session) : Prop where
  pool : ∀ v ∈ s.pool, v.IsStatic
  globals : ∀ v ∈ s.globals.slots, s.heap.Owns v
  heap : s.heap.IsIntact

theorem isIntact_new (limits : Limits) : (Session.new limits).IsIntact where
  pool := by simp [Session.new]
  globals := by
    intro v hv
    obtain ⟨-, rfl⟩ := Array.mem_replicate.mp hv
    trivial
  heap := Heap.isIntact_empty

namespace IsIntact

variable {s : Session} {program : Program}

theorem unit (hs : s.IsIntact) {unit : Bytecode} {c : Compiler}
    (hcompile : (Compiler.resume s.scope s.pool).compile program = (.ok unit, c)) :
    ∀ v ∈ unit.constants, v.IsStatic := by
  obtain ⟨t, E', hunit, -⟩ := Compiler.compilesUnit_of_compile hcompile
  rw [hunit.constants]
  exact hunit.rules.isStatic hs.pool

/-- The machine that runs a unit is intact at every point. -/
theorem run (hs : s.IsIntact) {unit : Bytecode} {c : Compiler}
    (hcompile : (Compiler.resume s.scope s.pool).compile program = (.ok unit, c)) (steps : Nat) :
    ((s.machine unit).run steps).machine.IsIntact :=
  (Machine.isIntact_initial _ _ (fun v hv => hs.unit hcompile v hv _) hs.globals hs.heap).run steps

theorem eval (hs : s.IsIntact) (steps : Nat) (program : Program) :
    (s.eval steps program).2.2.IsIntact := by
  cases hcompile : (Compiler.resume s.scope s.pool).compile program with
  | mk compiled c =>
      cases compiled with
      | error stop =>
          rw [eval_of_error hcompile]
          exact hs
      | ok unit =>
          have hrun := hs.run hcompile steps
          have hpool : ∀ v ∈ c.pool, v.IsStatic := by
            rw [Compiler.pool_of_compile hcompile]
            exact hs.unit hcompile
          rcases eval_of_ok hcompile steps with h | h
          · rw [h]
            exact ⟨hpool, hrun.globals, hrun.heap⟩
          · rw [h]
            exact ⟨hpool, by simp [withoutMachine, Globals.ofSize], hs.heap⟩

theorem evalAll (hs : s.IsIntact) (history : List (Nat × Program)) :
    (s.evalAll history).IsIntact := by
  induction history generalizing s with
  | nil => exact hs
  | cons u history ih => exact ih (hs.eval u.1 u.2)

end IsIntact

/-- Whatever units a session has evaluated, its heap is intact. -/
theorem isIntact_evalAll (limits : Limits) (history : List (Nat × Program)) :
    ((Session.new limits).evalAll history).IsIntact :=
  (isIntact_new limits).evalAll history

end Session

end ScriptEngine
