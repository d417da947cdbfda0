import ScriptEngine.Proofs.Compile.Acceptance
import ScriptEngine.Proofs.Compile.Relocation
import ScriptEngine.Proofs.Compile.Resumption
import ScriptEngine.Proofs.Compile.Stores

/-!
# Compiling a unit in two parts

If none of the statements of a unit declares a function, nothing is bound ahead of them, and what
the compiler knows after the first of them is what a new compiler knows that goes on from there.
Hence the rest can be compiled as a unit of its own: the code is the same up to the place where it
begins, and so are the constants and the names (`Compiler.compile_append`).
-/

namespace ScriptEngine

open Compiler

/-! ## Functions that are still to be declared -/

namespace Env

variable {E E' : Env} {name : String}

theorem hoisted_structConstant (E : Env) (type : StructType) :
    (E.structConstant type).2.hoisted = E.hoisted := by
  unfold structConstant
  split <;> rfl

theorem hoisted_resolve? {x : Symbol} (h : E.resolve? name = some (x, E')) :
    E'.hoisted = E.hoisted := by
  obtain ⟨r, -, hr⟩ := Option.map_eq_some_iff.mp h
  cases hr
  rfl

theorem mem_hoisted_of_hoist? {ss : List Stmt} (h : E.hoist? ss = some E')
    (hname : name ∈ E'.hoisted) : name ∈ E.hoisted ∨ name ∈ ss.filterMap Stmt.functionName? := by
  induction ss generalizing E with
  | nil =>
      cases h
      exact .inl hname
  | cons s ss ih =>
      cases s with
      | function header body =>
          rw [hoist?] at h
          split at h
          · cases h
          · rcases ih h with hearlier | hlater
            · refine (mem_hoisted_bindAhead.mp hearlier).elim ?_ .inl
              rintro rfl
              exact .inr List.mem_cons_self
            · exact .inr (List.mem_cons_of_mem _ hlater)
      | _ => exact ih h

theorem mem_hoisted_of_declared? {header : FunctionHeader} {x : Symbol}
    (h : E.declared? header = some (x, E')) (hname : name ∈ E'.hoisted) :
    name ∈ E.hoisted ∧ name ≠ header.boundName := by
  have hfulfil : E'.hoisted = (E.fulfil header.boundName).hoisted := by
    unfold declared? at h
    simp only at h
    split at h
    · cases h
      rfl
    · split at h
      · cases h
      · cases h
        rfl
  rw [hfulfil] at hname
  exact mem_hoisted_fulfil.mp hname

end Env

/-- What is still to be declared after a phrase was so before it, and the phrase does not declare
it. -/
theorem Compiles.mem_hoisted {E E' : Env} {p : Phrase} {t : Assembly} (h : Compiles E p t E')
    {name : String} (hname : name ∈ E'.hoisted) : name ∈ E.hoisted ∧ name ∉ p.fulfils := by
  induction h with
  | int | float | str | zeroInt | zeroFloat | zeroString | boolTrue | boolFalse | null | nothing
  | exprsNil | pairsNil | fieldsNil | zeroBool | zeroNull | zeroFunc | zeroArray | zeroHash
  | zerosNil | retNull | stmtsNil | structType | closure => exact ⟨hname, List.not_mem_nil⟩
  | use resolved _ => exact ⟨Env.hoisted_resolve? resolved ▸ hname, List.not_mem_nil⟩
  | ident _ ih | unary _ ih | branch _ _ ih | otherwise _ ih | function _ ih | array _ ih
  | hash _ ih | select _ _ ih | fieldGiven _ ih | fieldLater _ _ ih | fieldZero _ ih | expr _ ih
  | ret _ _ ih | inner _ ih | declare _ _ _ ih | declareZero _ _ _ ih =>
      exact ⟨(ih hname).1, List.not_mem_nil⟩
  | binary _ _ _ ih₁ ih₂ | swapped _ _ _ ih₁ ih₂ | callNamed _ _ _ ih₁ ih₂
  | callValue _ _ _ ih₁ ih₂ | index _ _ ih₁ ih₂ | exprsCons _ _ ih₁ ih₂ | fieldsCons _ _ ih₁ ih₂
  | zerosCons _ _ ih₁ ih₂ | setField _ _ _ ih₁ ih₂ | loop _ _ _ ih₁ ih₂ =>
      exact ⟨(ih₁ (ih₂ hname).1).1, List.not_mem_nil⟩
  | cond _ _ _ ih₁ ih₂ ih₃ | pairsCons _ _ _ ih₁ ih₂ ih₃ | setIndex _ _ _ ih₁ ih₂ ih₃ =>
      exact ⟨(ih₁ (ih₂ (ih₃ hname).1).1).1, List.not_mem_nil⟩
  | struct _ _ _ ih | zeroStruct _ ih =>
      rw [Env.hoisted_structConstant] at hname
      exact ⟨(ih hname).1, List.not_mem_nil⟩
  | assign resolved _ _ _ ih =>
      exact ⟨Env.hoisted_resolve? resolved ▸ (ih hname).1, List.not_mem_nil⟩
  | declareFunction bound _ _ ih =>
      obtain ⟨hbefore, hother⟩ := Env.mem_hoisted_of_declared? bound (ih hname).1
      exact ⟨hbefore, fun hmem => hother (List.mem_singleton.mp hmem)⟩
  | @stmtsCons _ _ _ s ss _ _ _ _ ih₁ ih₂ =>
      obtain ⟨hmiddle, hrest⟩ := ih₂ hname
      obtain ⟨hbefore, hhead⟩ := ih₁ hmiddle
      refine ⟨hbefore, fun hmem => ?_⟩
      obtain ⟨s', hs', hfunction⟩ := List.mem_filterMap.mp hmem
      rcases List.mem_cons.mp hs' with rfl | hlater
      · exact hhead (Option.mem_toList.mpr hfunction)
      · exact hrest (List.mem_filterMap.mpr ⟨s', hlater, hfunction⟩)
  | block hoisted _ ih =>
      obtain ⟨hmiddle, hdeclared⟩ := ih hname
      exact ⟨(Env.mem_hoisted_of_hoist? hoisted hmiddle).resolve_right hdeclared, List.not_mem_nil⟩

/-- A set without members is the empty one. -/
theorem eq_empty_of_forall_not_mem {names : Std.TreeSet String} (h : ∀ name, name ∉ names) :
    names = ∅ := by
  have hempty : names.isEmpty = true := Std.TreeSet.isEmpty_iff_forall_not_mem.mpr h
  obtain ⟨⟨⟨inner, wf⟩⟩⟩ := names
  cases inner with
  | leaf => rfl
  | inner => cases hempty

/-! ## Statements that declare no functions -/

/-- No statement of the program declares a function. -/
def Program.DeclaresNoFunction (program : Program) : Prop :=
  ∀ header body, Stmt.function header body ∉ program

theorem Program.DeclaresNoFunction.tail {s : Stmt} {ss : Program}
    (h : Program.DeclaresNoFunction (s :: ss)) : ss.DeclaresNoFunction :=
  fun header body hmem => h header body (List.mem_cons_of_mem _ hmem)

theorem Env.hoist?_of_declaresNoFunction (E : Env) {ss : Program} (h : ss.DeclaresNoFunction) :
    E.hoist? ss = some E := by
  induction ss with
  | nil => rfl
  | cons s ss ih =>
      cases s with
      | function header body => exact absurd List.mem_cons_self (h header body)
      | _ => exact ih h.tail

namespace CompileM

theorem block_of_declaresNoFunction {ss : Program} (h : ss.DeclaresNoFunction) (c : Compiler) :
    block ss c = stmts ss c := by
  have hhoist : hoist ss c = .ok () c := by
    induction ss with
    | nil => rfl
    | cons s ss ih =>
        cases s with
        | function header body => exact absurd List.mem_cons_self (h header body)
        | _ => exact ih h.tail
  simp only [block, Bind.bind, EStateM.bind, hhoist]

theorem stmts_append (p q : List Stmt) : stmts (p ++ q) = stmts p >>= fun _ => stmts q := by
  induction p with
  | nil => rfl
  | cons s p ih =>
      have hcons (ss : List Stmt) : stmts (s :: ss) = stmt s >>= fun _ => stmts ss := rfl
      rw [List.cons_append, hcons, hcons, ih, bind_assoc]

/-- Statements that are accepted are so part by part. -/
theorem stmts_append_eq_ok {p q : List Stmt} {c c' : Compiler}
    (h : stmts (p ++ q) c = .ok () c') :
    ∃ c₁, stmts p c = .ok () c₁ ∧ stmts q c₁ = .ok () c' := by
  rw [stmts_append] at h
  simp only [Bind.bind, EStateM.bind] at h
  cases hp : stmts p c with
  | error stop c₁ => simp [hp] at h
  | ok u c₁ =>
      rw [hp] at h
      exact ⟨c₁, rfl, h⟩

end CompileM

namespace Compiler

/-- The compiler knows the same without the code that it has written, if nothing is still to be
declared. -/
theorem env_current_empty {c : Compiler} (h : c.env.hoisted = ∅) :
    ({ c with current := .empty } : Compiler).env = c.env := by
  simp only [env] at h ⊢
  rw [h]
  rfl

/-- The rest of a unit is accepted as a unit of its own. -/
theorem compile_rest {q : Program} {u : Assembly} {c₁ c' : Compiler} (hq : q.DeclaresNoFunction)
    (hrules : Compiles c₁.env (.stmts q) u c'.env) (hwrites : c₁.Writes u c')
    (hhoisted : c₁.env.hoisted = ∅) :
    ∃ unit, ({ c₁ with current := .empty } : Compiler).compile q =
        (.ok unit, { c' with current := .empty }) ∧ CompilesUnit c₁.env q u c'.env unit := by
  have henv := env_current_empty hhoisted
  have hblock : Compiles c₁.env (.block q) u c'.env :=
    .block (c₁.env.hoist?_of_declaresNoFunction hq) hrules
  have hwritable : u.Writable 0 := (Assembly.writable_of_adds hwrites.adds).of_le (Nat.zero_le _)
  have haccepted := hblock.accepts _ henv trivial hwritable
  unfold compile
  cases hrun : CompileM.block q { c₁ with current := .empty } with
  | error stop c₂ => exact (haccepted.error hrun).elim
  | ok v c₂ =>
      obtain ⟨henv₂, hwrites₂, -⟩ := haccepted.ok hrun
      have hsize : c₂.current.code.size = u.size := by
        rw [hwrites₂.size]
        exact Nat.zero_add _
      refine ⟨⟨c₂.current.code, c₂.pool⟩, ?_, hblock, congrArg Env.pool henv₂,
        hwrites₂.adds.contains, hsize⟩
      have henclosing : c₂.enclosing = c'.enclosing :=
        hwrites₂.enclosing.trans hwrites.enclosing.symm
      have hpool : c₂.pool = c'.pool := congrArg Env.pool henv₂
      have hchain : c₂.chain = c'.chain := congrArg Env.chain henv₂
      have hstructs : c₂.structs = c'.structs := congrArg Env.structs henv₂
      simp only [hpool, hchain, hstructs, henclosing]

/-- Nothing is still to be declared between the statements of a unit without functions. -/
theorem hoisted_eq_empty {scope : Scope} {pool : Array Value} {p : Program} {t : Assembly} {E : Env}
    (hrules : Compiles (resume scope pool).env (.stmts p) t E) : E.hoisted = ∅ := by
  refine eq_empty_of_forall_not_mem fun name hname => ?_
  have hbefore := (hrules.mem_hoisted hname).1
  simp [env, resume, OpenCode.empty] at hbefore

end Compiler

/-- A unit consists of two others: the code of each of them is found in its code, one after the
other, and it has all their constants. -/
structure Bytecode.ConsistsOf (unit unit₁ unit₂ : Bytecode) : Prop where
  first : unit₁.code.Embeds unit.code 0
  second : unit₂.code.Embeds unit.code unit₁.code.size
  size : unit.code.size = unit₁.code.size + unit₂.code.size
  constants : unit.constants = unit₂.constants
  /-- The second part does not begin with a jump. -/
  plain : ∀ i, unit₂.code.decode 0 = .ok i → i.opcode.isJump = false

theorem CompilesUnit.consistsOf {E₁ E₂ E₃ : Env} {p q : Program} {t u : Assembly}
    {unit unit₁ unit₂ : Bytecode} (hE : E₁.Sound) (hfirst : CompilesUnit E₁ p t E₂ unit₁)
    (hsecond : CompilesUnit E₂ q u E₃ unit₂) (hcontains : unit.code.Contains 0 ((t ++ u).instrs 0))
    (hsize : unit.code.size = (t ++ u).size) (hconstants : unit.constants = E₃.pool) :
    unit.ConsistsOf unit₁ unit₂ := by
  have ht := hfirst.rules.balanced hE 0
  have hu := hsecond.rules.balanced (hfirst.rules.sound hE) 0
  obtain ⟨hpiece₁, hpiece₂⟩ := hcontains.pieces
  rw [Nat.zero_add] at hpiece₂
  refine ⟨Code.embeds_of_balanced hfirst.contains hfirst.size hpiece₁ ht, ?_, ?_, ?_, ?_⟩
  · rw [hfirst.size]
    exact Code.embeds_of_balanced hsecond.contains hsecond.size hpiece₂ hu
  · rw [hsize, Assembly.size_append, hfirst.size, hsecond.size]
  · rw [hconstants, hsecond.constants]
  · intro i hi
    cases hinstrs : u.instrs 0 with
    | nil =>
        have hempty : unit₂.code.size = 0 := by
          rw [hsecond.size, ← Assembly.totalWidth_instrs u 0, hinstrs, totalWidth_nil]
        rw [← hempty] at hi
        exact absurd hi Code.not_decode_size
    | cons j js =>
        have hcode := hsecond.contains
        rw [hinstrs] at hcode
        have hdecode := hcode.decode
        rw [hi] at hdecode
        cases hdecode
        exact hu.head_plain hinstrs

/-- Where there is an expression among the statements, there is code. -/
theorem Compiles.size_pos_of_expr_mem {E E' : Env} {q : Program} {u : Assembly} {e : Expr}
    (h : Compiles E (.stmts q) u E') (he : Stmt.expr e ∈ q) : 0 < u.size := by
  induction q generalizing E u with
  | nil => cases he
  | cons s q ih =>
      cases h with
      | stmtsCons hs hq =>
          rw [Assembly.size_append]
          rcases List.mem_cons.mp he with rfl | hmem
          · cases hs with
            | expr value =>
                rw [Assembly.size_append, Assembly.size_single]
                have hwidth := Opcode.pop.width_pos
                simp only [Instruction.width]
                omega
          · have hrest := ih hq hmem
            omega

namespace Compiler

/-- If a unit without functions is accepted, then so are its two parts, one after the other; the
unit consists of them, and the compiler is left as it is after both. -/
theorem compile_append {scope : Scope} {pool : Array Value} {p q : Program} {unit : Bytecode}
    {c : Compiler} (hscope : (ScopeChain.ofScope scope).Sound) (hp : p.DeclaresNoFunction)
    (hq : q.DeclaresNoFunction)
    (hcompile : (resume scope pool).compile (p ++ q) = (.ok unit, c)) :
    ∃ unit₁ c₁ unit₂, (resume scope pool).compile p = (.ok unit₁, c₁) ∧
      (resume c₁.chain.outermost c₁.pool).compile q = (.ok unit₂, c) ∧
      unit.ConsistsOf unit₁ unit₂ ∧ ∀ e, Stmt.expr e ∈ q → 0 < unit₂.code.size := by
  have hpq : Program.DeclaresNoFunction (p ++ q) := fun header body hmem =>
    (List.mem_append.mp hmem).elim (hp header body) (hq header body)
  unfold compile at hcompile
  rw [CompileM.block_of_declaresNoFunction hpq] at hcompile
  cases hstmts : CompileM.stmts (p ++ q) (resume scope pool) with
  | error stop c' => simp [hstmts] at hcompile
  | ok v c' =>
      simp only [hstmts, Prod.mk.injEq, Except.ok.injEq] at hcompile
      obtain ⟨rfl, rfl⟩ := hcompile
      obtain ⟨c₁, hfirst, hsecond⟩ := CompileM.stmts_append_eq_ok hstmts
      obtain ⟨t, ht, hwt, -⟩ := (CompileM.stmts_closes p _).ok hfirst
      obtain ⟨u, hu, hwu, -⟩ := (CompileM.stmts_closes q _).ok hsecond
      have hcompile₁ : (resume scope pool).compile p =
          (.ok ⟨c₁.current.code, c₁.pool⟩, { c₁ with current := .empty }) := by
        unfold compile
        rw [CompileM.block_of_declaresNoFunction hp, hfirst]
      have hunit₁ : CompilesUnit (resume scope pool).env p t c₁.env
          ⟨c₁.current.code, c₁.pool⟩ := by
        refine ⟨.block ((resume scope pool).env.hoist?_of_declaresNoFunction hp) ht, rfl,
          hwt.adds.contains, ?_⟩
        rw [hwt.size]
        exact Nat.zero_add _
      have hrenew := renew_compile (c := resume scope pool) ⟨rfl, rfl, rfl⟩
        (registered_resume scope pool) p
      rw [hcompile₁] at hrenew
      obtain ⟨unit₂, hcompile₂, hunit₂⟩ := compile_rest hq hu hwu (hoisted_eq_empty ht)
      have hboth := hwt.trans hwu
      have hsize : c'.current.code.size = (t ++ u).size := by
        rw [hboth.size]
        exact Nat.zero_add _
      refine ⟨_, _, unit₂, hcompile₁, ?_, hunit₁.consistsOf (sound_resume hscope pool) hunit₂
        hboth.adds.contains hsize rfl, fun e he => ?_⟩
      · rw [← hcompile₂]
        exact congrArg (fun c : Compiler => c.compile q) hrenew
      · rw [hunit₂.size]
        exact hu.size_pos_of_expr_mem he

end Compiler

end ScriptEngine
