import ScriptEngine.Proofs.Compile.Balance
import ScriptEngine.Proofs.Compile.Steps

/-!
# Going on from what a compiler releases

Between units a compiler keeps the pool, the global scope and the struct types known by name, but
hands on the first two only.  The third can be read off the pool, at any point of any compilation:
a struct type becomes known exactly when its descriptor is added.  Hence a compiler that goes on
from what another one releases is that other one (`Compiler.renew_compile`), and it does not matter
whether units are compiled by one compiler or each by a new one (`Compiler.answers_eq_renewed`).
-/

namespace ScriptEngine

namespace Compiler

/-! ## The struct types of a pool -/

/-- The struct types known by name after one more constant of the pool is read. -/
def learn (known : Std.TreeMap String KnownStruct) (constant : Nat) :
    Value → Std.TreeMap String KnownStruct
  | .structType t => known.insert t.content.name ⟨t.content, constant⟩
  | _ => known

theorem learn_of_kind_ne {v : Value} (hv : v.kind ≠ .structType)
    (known : Std.TreeMap String KnownStruct) (constant : Nat) : learn known constant v = known := by
  cases v with
  | structType t => exact absurd rfl hv
  | _ => rfl

theorem knownStructs_push (pool : Array Value) (v : Value) :
    knownStructs (pool.push v) = learn (knownStructs pool) pool.size v := by
  rw [knownStructs, Array.toList_push, List.zipIdx_append, List.foldl_append, Array.length_toList,
    Nat.zero_add]
  cases v <;> rfl

/-- A struct type that is known from a pool is a constant of the pool. -/
theorem knownStructs_get? {pool : Array Value} {name : String} {known : KnownStruct}
    (h : (knownStructs pool).get? name = some known) :
    known.type.name = name ∧
      ∃ mark, pool[known.constant]? = some (.structType ⟨mark, known.type⟩) := by
  induction hsize : pool.size generalizing pool with
  | zero =>
      obtain rfl := Array.eq_empty_of_size_eq_zero hsize
      simp [knownStructs] at h
  | succ n ih =>
      obtain ⟨pool, v, rfl⟩ := Array.exists_push_of_size_eq_add_one hsize
      have hpool : pool.size = n := by simpa using hsize
      have hearlier (h : (knownStructs pool).get? name = some known) :
          known.type.name = name ∧
            ∃ mark, (pool.push v)[known.constant]? = some (.structType ⟨mark, known.type⟩) := by
        obtain ⟨hname, mark, hmark⟩ := ih h hpool
        exact ⟨hname, mark, Continues.push pool v _ _ hmark⟩
      rw [knownStructs_push] at h
      cases v with
      | structType t =>
          simp only [learn, Std.TreeMap.get?_eq_getElem?, Std.TreeMap.getElem?_insert] at h
          split at h
          · rename_i heq
            cases h
            exact ⟨by simpa using heq, t.mark, Array.getElem?_push_size⟩
          · exact hearlier h
      | _ => exact hearlier h

theorem sound_resume {scope : Scope} (hscope : (ScopeChain.ofScope scope).Sound)
    (pool : Array Value) : (resume scope pool).env.Sound := by
  refine ⟨hscope, fun name known hknown => ?_⟩
  obtain ⟨-, mark, hmark⟩ := knownStructs_get? hknown
  exact ⟨_, hmark⟩

/-- The struct types known by name are those of the pool. -/
def Registered (c : Compiler) : Prop :=
  c.structs = knownStructs c.pool

theorem registered_resume (scope : Scope) (pool : Array Value) : (resume scope pool).Registered :=
  rfl

theorem Registered.step {c c' : Compiler} (hstep : c.Step c') (hc : c.Registered) :
    c'.Registered := by
  unfold Registered at hc ⊢
  cases hstep with
  | keep other => rw [knownStructs_push, learn_of_kind_ne other, ← hc]
  | register type => rw [knownStructs_push, ← hc, learn]
  | write | resolve | enter | leave => exact hc

theorem Registered.reaches {c c' : Compiler} (hc : c.Registered) (h : c.Reaches c') :
    c'.Registered :=
  h.keeps (fun _ _ => Registered.step) (fun _ _ _ _ hc => hc) hc

/-! ## Compilers between units -/

/-- The compiler that goes on from what this one releases. -/
def renew (c : Compiler) : Compiler :=
  resume c.release.1 c.release.2

/-- No function is open and no code is under construction. -/
structure Idle (c : Compiler) : Prop where
  chain : c.chain.enclosing = []
  current : c.current = .empty
  enclosing : c.enclosing = []

theorem renew_eq {c : Compiler} (hidle : c.Idle) (hc : c.Registered) : c.renew = c := by
  obtain ⟨hchain, hcurrent, henclosing⟩ := hidle
  obtain ⟨pool, ⟨scope, outer⟩, current, enclosing, structs⟩ := c
  cases hchain
  cases hcurrent
  cases henclosing
  have hknown : structs = knownStructs pool := hc
  subst hknown
  rfl

theorem idle_unwind (c : Compiler) : c.unwind.Idle :=
  ⟨rfl, rfl, rfl⟩

/-- A unit leaves no function open, whether it is accepted or not. -/
theorem Idle.compile {c : Compiler} (hc : c.Idle) (program : Program) :
    (c.compile program).2.Idle := by
  have hends := CompileM.block_closes program c
  unfold Compiler.compile
  cases hblock : CompileM.block program c with
  | error stop c' => exact idle_unwind c'
  | ok _ c' =>
      obtain ⟨t, hcompiles, hwrites, -⟩ := hends.ok hblock
      have hdepth : c'.chain.depth = c.chain.depth := hcompiles.depth_eq
      rw [ScopeChain.depth, ScopeChain.depth, hc.chain] at hdepth
      exact ⟨List.length_eq_zero_iff.mp hdepth, rfl, hwrites.enclosing.trans hc.enclosing⟩

/-- A unit keeps the known struct types those of the pool, whether it is accepted or not. -/
theorem Registered.compile {c : Compiler} (hc : c.Registered) (program : Program) :
    (c.compile program).2.Registered := by
  have hends := CompileM.steps_block program c
  unfold Compiler.compile
  cases hblock : CompileM.block program c with
  | error stop c' =>
      have hstopped : c'.Registered := hc.reaches (hends.error hblock)
      exact hstopped
  | ok _ c' =>
      have hdone : c'.Registered := hc.reaches (hends.ok hblock)
      exact hdone

/-- After a unit, the compiler that goes on from what is released is the compiler itself. -/
theorem renew_compile {c : Compiler} (hidle : c.Idle) (hc : c.Registered) (program : Program) :
    (c.compile program).2.renew = (c.compile program).2 :=
  renew_eq (hidle.compile program) (hc.compile program)

/-! ## Several units -/

/-- The answers of one compiler to units that are compiled one after another. -/
def answers (c : Compiler) : List Program → List (Except (Stop CompileError) Bytecode)
  | [] => []
  | program :: rest => (c.compile program).1 :: (c.compile program).2.answers rest

/-- The answers to units that are compiled one after another, each by a compiler that goes on from
what the one before it released. -/
def renewedAnswers (c : Compiler) : List Program → List (Except (Stop CompileError) Bytecode)
  | [] => []
  | program :: rest => (c.compile program).1 :: (c.compile program).2.renew.renewedAnswers rest

theorem answers_eq_renewedAnswers_of_idle {c : Compiler} (hidle : c.Idle) (hc : c.Registered)
    (programs : List Program) : c.answers programs = c.renewedAnswers programs := by
  induction programs generalizing c with
  | nil => rfl
  | cons program rest ih =>
      rw [answers, renewedAnswers, renew_compile hidle hc,
        ih (hidle.compile program) (hc.compile program)]

/-- It does not matter whether units are compiled by one compiler or whether after each of them,
accepted or refused, a new compiler goes on from the global scope and the pool: every unit gets the
same code and the same constants, or is refused for the same reason. -/
theorem answers_eq_renewed (programs : List Program) :
    new.answers programs = new.renewedAnswers programs :=
  answers_eq_renewedAnswers_of_idle ⟨rfl, rfl, rfl⟩ (registered_resume _ _) programs

end Compiler

end ScriptEngine
