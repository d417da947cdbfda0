import ScriptEngine.Proofs.Compile.Events
import ScriptEngine.Proofs.Language.Survey

/-!
# The struct types that code builds

An instruction that builds a struct value refers to its type by a constant, which is found by the
name of the type, and has the number of its fields.  The struct instructions of every stream are
those of the struct values that its region builds, in the same order: the constant is the type that
is known by the name at that time, and the number is that of the fields of the type that is built
(`CompilesUnit.realizes`).
-/

namespace ScriptEngine

/-! ## Struct instructions -/

/-- The instruction builds an instance of the type that is known by the name of the one to build,
from as many values as the latter has fields. -/
structure Instruction.Builds (pool : Array Value) (i : Instruction) (b : Build) : Prop where
  constant : ∃ mark, pool[i.operand 0]? = some (.structType ⟨mark, b.known⟩)
  count : i.operand 1 = b.type.fields.length

/-- The struct instructions are those of the struct values. -/
def BuildsAll (pool : Array Value) (is : List Instruction) (bs : List Build) : Prop :=
  List.Forall₂ (Instruction.Builds pool) (is.filter fun i => i.opcode = .struct) bs

namespace BuildsAll

variable {pool pool' : Array Value} {is js : List Instruction} {bs cs : List Build}

theorem mono (h : BuildsAll pool is bs) (hpool : Continues pool pool') :
    BuildsAll pool' is bs := by
  refine h.imp fun i b hi => ⟨?_, hi.count⟩
  obtain ⟨mark, hmark⟩ := hi.constant
  exact ⟨mark, hpool _ _ hmark⟩

theorem append (h : BuildsAll pool is bs) (h' : BuildsAll pool js cs) :
    BuildsAll pool (is ++ js) (bs ++ cs) := by
  rw [BuildsAll, List.filter_append]
  exact List.rel_append h h'

/-- Instructions that build no struct values. -/
theorem others (h : ∀ i ∈ is, i.opcode ≠ .struct) : BuildsAll pool is [] := by
  rw [BuildsAll, List.filter_eq_nil_iff.mpr (by simpa using h)]
  exact .nil

theorem single {i : Instruction} {b : Build} (hop : i.opcode = .struct) (h : i.Builds pool b) :
    BuildsAll pool [i] [b] := by
  rw [BuildsAll, List.filter_cons_of_pos (by simpa using hop)]
  exact .cons h .nil

/-- What a struct instruction builds is among the struct values. -/
theorem exists_mem {i : Instruction} (h : BuildsAll pool is bs) (hi : i ∈ is)
    (hop : i.opcode = .struct) : ∃ b ∈ bs, i.Builds pool b := by
  apply exists_mem_of_forall₂ h
  rw [List.mem_filter]
  exact ⟨hi, by simpa using hop⟩

end BuildsAll

/-! ## Known struct types are constants -/

namespace Env

/-- The struct types that are known by name are constants. -/
def Registers (E : Env) : Prop :=
  ∀ name known, E.structs.get? name = some known →
    ∃ mark, E.pool[known.constant]? = some (.structType ⟨mark, known.type⟩)

variable {E E' : Env}

theorem Registers.of_same (hE : E.Registers) (hstructs : E'.structs = E.structs)
    (hpool : Continues E.pool E'.pool) : E'.Registers := by
  intro name known hknown
  rw [hstructs] at hknown
  obtain ⟨mark, hmark⟩ := hE name known hknown
  exact ⟨mark, hpool _ _ hmark⟩

theorem Registers.register (hE : E.Registers) (type : StructType) :
    (E.register type).Registers := by
  intro name known hknown
  simp only [Env.register, Std.TreeMap.get?_eq_getElem?, Std.TreeMap.getElem?_insert] at hknown
  split at hknown
  · cases hknown
    exact ⟨_, Array.getElem?_push_size⟩
  · obtain ⟨mark, hmark⟩ := hE name known hknown
    exact ⟨mark, Continues.push _ _ _ _ hmark⟩

/-- The constant of a struct type is the type that is known by its name. -/
theorem Registers.structConstant (hE : E.Registers) (type : StructType) :
    (E.structConstant type).2.Registers ∧ Continues E.pool (E.structConstant type).2.pool ∧
      ∃ mark, (E.structConstant type).2.pool[(E.structConstant type).1]? =
        some (.structType ⟨mark, E.knownAs type⟩) := by
  cases hknown : E.structs.get? type.name with
  | some known =>
      rw [Env.structConstant, knownAs, hknown]
      exact ⟨hE, .refl _, hE _ known hknown⟩
  | none =>
      rw [Env.structConstant, knownAs, hknown]
      exact ⟨hE.register type, .push _ _, _, Array.getElem?_push_size⟩

end Env

theorem Compiler.registers_resume (scope : Scope) (pool : Array Value) :
    (resume scope pool).env.Registers := by
  intro name known hknown
  exact (knownStructs_get? hknown).2

/-! ## Streams and regions -/

/-- A function builds the struct values of a region. -/
structure Function.Realizes (pool : Array Value) (f : Function) (r : Region) : Prop where
  laidOut : f.code.IsLaidOut
  builds : BuildsAll pool f.code.instructions r.builds

/-- The functions from a constant on build the struct values of regions. -/
def RealizesAll (start : Nat) (pool : Array Value) (regions : List Region) : Prop :=
  List.Forall₂ (fun e r => e.2.Realizes pool r) (functionsFrom start pool) regions

theorem RealizesAll.of_same {start : Nat} {pool pool' : Array Value} {regions : List Region}
    (h : RealizesAll start pool regions) (hpool : Continues pool pool')
    (hsame : functionsFrom start pool' = functionsFrom start pool) :
    RealizesAll start pool' regions := by
  rw [RealizesAll, hsame]
  exact h.imp fun _ _ hr => ⟨hr.laidOut, hr.builds.mono hpool⟩

/-- The second environment and survey come from the first ones, and the instructions in between
build what the current region builds. -/
structure Constructs (start : Nat) (E : Env) (σ : Survey) (is : List Instruction) (E' : Env)
    (σ' : Survey) : Prop where
  registers : E'.Registers
  pool : Continues E.pool E'.pool
  size : E.pool.size ≤ E'.pool.size
  enclosing : σ'.enclosing = σ.enclosing
  current : ∃ bs, σ'.current.builds = σ.current.builds ++ bs ∧ BuildsAll E'.pool is bs
  functions : RealizesAll start E'.pool σ'.functions

namespace Constructs

variable {start : Nat} {E E₁ E' : Env} {σ σ₁ σ' : Survey} {is js : List Instruction}

/-- One piece of code after another. -/
theorem trans (h : Constructs start E σ is E₁ σ₁) (h' : Constructs start E₁ σ₁ js E' σ') :
    Constructs start E σ (is ++ js) E' σ' := by
  obtain ⟨bs, hbs, his⟩ := h.current
  obtain ⟨cs, hcs, hjs⟩ := h'.current
  exact
    { registers := h'.registers
      pool := h.pool.trans h'.pool
      size := h.size.trans h'.size
      enclosing := h'.enclosing.trans h.enclosing
      current := ⟨bs ++ cs, by rw [hcs, hbs, List.append_assoc], (his.mono h'.pool).append hjs⟩
      functions := h'.functions }

/-- A change that leaves alone which functions there are, at instructions that build no struct
values. -/
theorem of_same (hE : E'.Registers) (hfunctions : RealizesAll start E.pool σ.functions)
    (hpool : Continues E.pool E'.pool) (hsize : E.pool.size ≤ E'.pool.size)
    (hsame : functionsFrom start E'.pool = functionsFrom start E.pool)
    (henclosing : σ'.enclosing = σ.enclosing) (hbuilds : σ'.current.builds = σ.current.builds)
    (hregions : σ'.functions = σ.functions) (his : ∀ i ∈ is, i.opcode ≠ .struct) :
    Constructs start E σ is E' σ' where
  registers := hE
  pool := hpool
  size := hsize
  enclosing := henclosing
  current := ⟨[], by rw [hbuilds, List.append_nil], .others his⟩
  functions := by
    rw [hregions]
    exact hfunctions.of_same hpool hsame

/-- A struct value is built. -/
theorem build (hE : E.Registers) (hstart : start ≤ E.pool.size)
    (hfunctions : RealizesAll start E.pool σ.functions) (type : StructType) :
    Constructs start E σ [⟨.struct, [(E.structConstant type).1, type.fields.length]⟩]
      (E.structConstant type).2 (σ.modify (Region.build · ⟨type, E.knownAs type⟩)) := by
  obtain ⟨hregisters, hpool, hmark⟩ := hE.structConstant type
  exact
    { registers := hregisters
      pool := hpool
      size := by
        rw [Env.structConstant]
        split <;> simp
      enclosing := rfl
      current := ⟨[⟨type, E.knownAs type⟩], rfl, .single rfl ⟨hmark, rfl⟩⟩
      functions := hfunctions.of_same hpool (E.functionsFrom_structConstant hstart type) }

/-- A function that builds what its region builds becomes a closure. -/
theorem close {E₀ : Env} {name : Option String} {names : List String} {f : Function}
    (captured : List Symbol) (chain : ScopeChain)
    (hbody : Constructs start E₀ (σ.enter name names) js E₁ σ₁) (hstart : start ≤ E.pool.size)
    (hpool : E₀.pool = E.pool) (hlaidOut : f.code.IsLaidOut) (hf : Code.Adds .empty js f.code) :
    Constructs start E σ
      (captured.map Symbol.load ++ [⟨.closure, [E₁.pool.size, captured.length]⟩])
      (E₁.close chain f) σ₁.leave := by
  have hsize := hbody.size
  rw [hpool] at hsize
  -- the region around is still as it was when the function began
  have hleave : σ₁.leave = ⟨σ.current.read σ₁.current.captured, σ.enclosing,
      σ₁.functions ++ [σ₁.current]⟩ := by
    rw [Survey.leave, hbody.enclosing]
    rfl
  have hgrows : Continues E₁.pool (E₁.close chain f).pool := .push _ _
  obtain ⟨bs, hbs, hjs⟩ := hbody.current
  obtain ⟨_, _, hcurrent⟩ := σ.current_enter name names
  have hrealizes : f.Realizes (E₁.close chain f).pool σ₁.current := by
    refine ⟨hlaidOut, ?_⟩
    rw [Code.instructions_of_adds hf, hbs, hcurrent, List.nil_append]
    exact hjs.mono hgrows
  rw [hleave]
  constructor
  · exact hbody.registers.of_same rfl hgrows
  · rw [← hpool]
    exact hbody.pool.trans hgrows
  · rw [Env.close, Env.keep, Array.size_push]
    exact Nat.le_succ_of_le hsize
  · rfl
  · refine ⟨[], (List.append_nil _).symm, .others ?_⟩
    intro i hi hop
    rcases List.mem_append.mp hi with hi | hi
    · obtain ⟨x, -, rfl⟩ := List.mem_map.mp hi
      exact x.load_opcode_ne rfl hop
    · rw [List.mem_singleton.mp hi] at hop
      cases hop
  · have hfs : functionsFrom start (E₁.close chain f).pool =
        functionsFrom start E₁.pool ++ [(E₁.pool.size, f)] :=
      functionsFrom_push (hstart.trans hsize) _
    rw [RealizesAll, hfs]
    refine List.rel_append ?_ (.cons hrealizes .nil)
    exact hbody.functions.imp fun _ _ hr => ⟨hr.laidOut, hr.builds.mono hgrows⟩

end Constructs

/-- Code that renders events builds what their survey says. -/
theorem Renders.constructs {start : Nat} {E E' : Env} {es : List Event} {is : List Instruction}
    (h : Renders E es is E') (hE : E.Registers) (hstart : start ≤ E.pool.size) {σ : Survey}
    (hσ : RealizesAll start E.pool σ.functions) : Constructs start E σ is E' (σ.after es) := by
  induction h generalizing σ with
  | nil => exact .of_same hE hσ (.refl _) (Nat.le_refl _) rfl rfl rfl rfl (by simp)
  | @skip E _ _ _ i plain _ ih =>
      have hop := (Opcode.not_isEventful plain).2.2
      have hstep : Constructs start E σ [i] E σ :=
        .of_same hE hσ (.refl _) (Nat.le_refl _) rfl rfl rfl rfl (by simpa using hop)
      exact hstep.trans (ih hE hstart hσ)
  | @keep E _ _ _ v noFunction _ ih =>
      have hpool : Continues E.pool (E.keep v).pool := .push _ _
      have hsize : E.pool.size ≤ (E.keep v).pool.size := by simp [Env.keep]
      have hsame := functionsFrom_push_of_none hstart (Value.function?_eq_none noFunction)
      have hregisters : (E.keep v).Registers := hE.of_same rfl hpool
      have hstep : Constructs start E σ [] (E.keep v) σ :=
        .of_same hregisters hσ hpool hsize hsame rfl rfl rfl (by simp)
      exact hstep.trans (ih hregisters (hstart.trans hsize) hstep.functions)
  | @await E _ _ _ hoisted _ ih =>
      have hstep : Constructs start E σ [] { E with hoisted } σ :=
        .of_same hE hσ (.refl _) (Nat.le_refl _) rfl rfl rfl rfl (by simp)
      exact hstep.trans (ih hE hstart hσ)
  | @use E E₁ _ es _ name x resolved _ ih =>
      simp only [Env.resolve?, Option.map_eq_some_iff, Prod.mk.injEq] at resolved
      obtain ⟨⟨r, chain⟩, -, rfl, rfl⟩ := resolved
      have hop : r.symbol.load.opcode ≠ .struct := r.symbol.load_opcode_ne rfl
      have hstep : Constructs start E σ [r.symbol.load] { E with chain } (σ.step (.use name)) :=
        .of_same hE hσ (.refl _) (Nat.le_refl _) rfl rfl rfl rfl (by simpa using hop)
      exact hstep.trans (ih hE hstart hσ)
  | @declare E _ es _ name isMutable ty _ ih =>
      have hstep :
          Constructs start E σ [] (E.define name isMutable ty).2
            (σ.step (.declare name isMutable)) :=
        .of_same hE hσ (.refl _) (Nat.le_refl _) rfl rfl rfl rfl (by simp)
      exact hstep.trans (ih hE hstart hσ)
  | @introduce E _ es _ type _ ih =>
      have hsize : E.pool.size ≤ (E.register type).pool.size := by simp [Env.register]
      have hstep : Constructs start E σ [] (E.register type) (σ.step (.introduce type)) :=
        .of_same (hE.register type) hσ (.push _ _) hsize (functionsFrom_push_of_none hstart rfl)
          rfl rfl rfl (by simp)
      exact hstep.trans (ih hstep.registers (hstart.trans hsize) hstep.functions)
  | @build E _ es _ type _ ih =>
      have hstep := Constructs.build hE hstart hσ type
      exact hstep.trans (ih hstep.registers (hstart.trans hstep.size) hstep.functions)
  | @function E _ _ _ _ _ _ name signature code scope chain _ isBody written _ _ ihbody ih =>
      have hpool := (E.same_enter name signature).2
      have hregisters : (E.enter name signature).Registers :=
        hE.of_same (E.same_enter name signature).1 (hpool ▸ .refl _)
      have hbody := ihbody (σ := σ.enter name (signature.parameters.map Prod.fst)) hregisters
        (hpool ▸ hstart) (hpool ▸ hσ)
      let f : Function :=
        { code, locals := scope.definitions, parameters := signature.parameters.length, name }
      have hstep := Constructs.close (f := f) scope.captures chain hbody hstart hpool
        isBody.isLaidOut written
      have hall := hstep.trans (ih hstep.registers (hstart.trans hstep.size) hstep.functions)
      rw [List.append_assoc, List.singleton_append] at hall
      rw [Survey.after, List.foldl_cons, List.foldl_append]
      exact hall

/-- The streams of a unit, the functions from a constant on, are laid out in order and build the
struct values of regions. -/
structure Bytecode.Realizes (unit : Bytecode) (start : Nat) (regions : List Region) : Prop where
  main : unit.code.IsLaidOut
  functions : ∀ e ∈ functionsFrom start unit.constants, e.2.code.IsLaidOut
  builds : List.Forall₂ (fun s r => BuildsAll unit.constants s.instructions r.builds)
    (unit.streams start) regions

/-- The streams of a unit build what the regions of its program build. -/
theorem CompilesUnit.realizes {E E' : Env} {program : Program} {t : Assembly} {unit : Bytecode}
    {k : KnownTypes} (h : CompilesUnit E program t E' unit) (hk : E.Attends k)
    (hE : E.Registers) : unit.Realizes E.pool.size (program.regions k) := by
  have hnone : RealizesAll E.pool.size E.pool Survey.start.functions := by
    rw [RealizesAll, functionsFrom, Nat.sub_self]
    exact .nil
  have hconstructs := (h.renders hk).constructs hE (Nat.le_refl _) hnone
  obtain ⟨bs, hbs, his⟩ := hconstructs.current
  rw [← h.constants] at his
  have hfunctions := hconstructs.functions
  rw [RealizesAll, ← h.constants] at hfunctions
  constructor
  · exact ⟨_, t, 0, h.contains, h.size, h.rules.balanced hk.sound 0⟩
  · intro e he
    obtain ⟨r, -, hr⟩ := exists_mem_of_forall₂ hfunctions he
    exact hr.laidOut
  · refine .cons ?_ ?_
    · rw [hbs]
      exact his
    · rw [List.forall₂_map_left_iff]
      exact hfunctions.imp fun _ _ hr => hr.builds

end ScriptEngine
