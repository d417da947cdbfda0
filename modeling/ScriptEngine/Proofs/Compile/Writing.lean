import ScriptEngine.Proofs.Compile.Growth
import ScriptEngine.Proofs.Outcome

/-!
# Writing structured code

Each step of the compiler either refuses the program or does what the rules of `Compiles` say: the
bytes that it adds are those of structured code.  In particular patching a jump always meets the
jump that was written for it, and taking an instruction back always meets the last statement of a
block, so that the compiler never breaks off.
-/

namespace ScriptEngine

/-- The early stop is reported: no promise is broken. -/
def Reported {ε σ : Type} (stop : Stop ε) (_ : σ) : Prop :=
  ∃ e, stop = .error e

namespace Compiler

/-- What the compiler knows, apart from the code under construction. -/
def env (c : Compiler) : Env :=
  { pool := c.pool, chain := c.chain, structs := c.structs, hoisted := c.current.hoisted }

/-- The code of the innermost scope grows by structured code; the others stay. -/
structure Writes (c : Compiler) (t : Assembly) (c' : Compiler) : Prop where
  adds : c.current.code.Adds (t.instrs c.current.code.size) c'.current.code
  enclosing : c'.enclosing = c.enclosing

/-- No code changes. -/
structure Silent (c c' : Compiler) : Prop where
  code : c'.current.code = c.current.code
  last : c'.current.last = c.current.last
  enclosing : c'.enclosing = c.enclosing

/-- One instruction is written, and nothing else changes. -/
structure WritesOp (c : Compiler) (i : Instruction) (c' : Compiler) : Prop where
  env : c'.env = c.env
  writes : c.Writes (.single i) c'
  last : c'.current.last = some ⟨i.opcode, c.current.code.size⟩

/-- After structured code is written, the compiler remembers its last instruction. -/
def Remembers (c : Compiler) (t : Assembly) (c' : Compiler) : Prop :=
  (t = .done ∧ c'.current.last = c.current.last) ∨
    ∃ u i, t = u ++ .single i ∧
      c'.current.last = some ⟨i.opcode, c.current.code.size + u.size⟩

namespace Silent

theorem refl (c : Compiler) : c.Silent c :=
  ⟨rfl, rfl, rfl⟩

theorem trans {c₁ c₂ c₃ : Compiler} (h₁ : c₁.Silent c₂) (h₂ : c₂.Silent c₃) : c₁.Silent c₃ :=
  ⟨h₂.code.trans h₁.code, h₂.last.trans h₁.last, h₂.enclosing.trans h₁.enclosing⟩

theorem writes {c c' : Compiler} (h : c.Silent c') : c.Writes .done c' :=
  ⟨by rw [h.code]; exact .refl _, h.enclosing⟩

end Silent

namespace Writes

theorem trans {c₁ c₂ c₃ : Compiler} {t u : Assembly}
    (h₁ : c₁.Writes t c₂) (h₂ : c₂.Writes u c₃) : c₁.Writes (t ++ u) c₃ := by
  refine ⟨?_, h₂.enclosing.trans h₁.enclosing⟩
  have hsize := h₁.adds.size
  rw [Assembly.totalWidth_instrs] at hsize
  rw [Assembly.instrs_append, ← hsize]
  exact h₁.adds.trans h₂.adds

theorem size {c c' : Compiler} {t : Assembly} (h : c.Writes t c') :
    c'.current.code.size = c.current.code.size + t.size := by
  simpa using h.adds.size

theorem of_silent {c₁ c₂ c₃ : Compiler} {t : Assembly}
    (h₁ : c₁.Silent c₂) (h₂ : c₂.Writes t c₃) : c₁.Writes t c₃ := by
  simpa using h₁.writes.trans h₂

theorem then_silent {c₁ c₂ c₃ : Compiler} {t : Assembly}
    (h₁ : c₁.Writes t c₂) (h₂ : c₂.Silent c₃) : c₁.Writes t c₃ := by
  simpa using h₁.trans h₂.writes

/-- Code whose instructions are the same is written as well. -/
theorem of_instrs_eq {c c' : Compiler} {t u : Assembly} (h : c.Writes t c')
    (hinstrs : t.instrs c.current.code.size = u.instrs c.current.code.size) : c.Writes u c' :=
  ⟨hinstrs ▸ h.adds, h.enclosing⟩

/-- The operands of a written instruction are as many as its opcode takes. -/
theorem length_operands {c c' : Compiler} {t : Assembly} {i : Instruction}
    (h : c.Writes (t ++ .single i) c') : i.operands.length = i.opcode.operandWidths.length := by
  obtain ⟨bs, hwritten, -⟩ := h.adds
  rw [Assembly.instrs_append] at hwritten
  obtain ⟨-, cs, -, hlast, -⟩ := hwritten.append_inv
  obtain ⟨as, -, hi, -, -⟩ := hlast.cons_inv
  exact (Instruction.encode_eq_ok hi).1

end Writes

namespace WritesOp

/-- Writing structured code and then an instruction. -/
theorem after {c₁ c₂ c₃ : Compiler} {t : Assembly} {i : Instruction}
    (h₁ : c₁.Writes t c₂) (h₂ : c₂.WritesOp i c₃) :
    c₁.Writes (t ++ .single i) c₃ ∧ c₁.Remembers (t ++ .single i) c₃ :=
  ⟨h₁.trans h₂.writes, Or.inr ⟨t, i, rfl, by rw [h₂.last, h₁.size]⟩⟩

end WritesOp

namespace Remembers

theorem of_silent {c c' : Compiler} (h : c.Silent c') : c.Remembers .done c' :=
  Or.inl ⟨rfl, h.last⟩

theorem trans {c₁ c₂ c₃ : Compiler} {t u : Assembly} (hw : c₁.Writes t c₂)
    (h₁ : c₁.Remembers t c₂) (h₂ : c₂.Remembers u c₃) : c₁.Remembers (t ++ u) c₃ := by
  rcases h₂ with ⟨rfl, hlast⟩ | ⟨v, i, rfl, hlast⟩
  · rw [Assembly.append_done, Remembers, hlast]
    exact h₁
  · refine Or.inr ⟨t ++ v, i, (Assembly.append_assoc t v (.single i)).symm, ?_⟩
    rw [hlast, hw.size, Assembly.size_append, Nat.add_assoc]

/-- A last instruction without operands that was not there before ends the structured code. -/
theorem eq_append_single {c c' : Compiler} {t : Assembly} {e : Emitted}
    (h : c.Remembers t c') (hw : c.Writes t c') (hlast : c'.current.last = some e)
    (hplain : e.opcode.operandWidths = [])
    (hstart : ∀ e', c.current.last = some e' → e'.opcode ≠ e.opcode) :
    ∃ u, t = u ++ .single ⟨e.opcode, []⟩ ∧ e.position = c.current.code.size + u.size := by
  rcases h with ⟨-, hsame⟩ | ⟨u, ⟨op, ns⟩, rfl, hi⟩
  · exact absurd rfl (hstart e (hsame ▸ hlast))
  · obtain rfl : e = ⟨op, c.current.code.size + u.size⟩ := Option.some.inj (hlast.symm.trans hi)
    have hlength := hw.length_operands
    rw [hplain] at hlength
    obtain rfl : ns = [] := List.length_eq_zero_iff.mp hlength
    exact ⟨u, rfl, rfl⟩

theorem last?_ne {c c' : Compiler} {t : Assembly} {op : Opcode} (h : c.Remembers t c')
    (hnot : ¬∃ e, c'.current.last = some e ∧ e.opcode = op) : t.last? ≠ some ⟨op, []⟩ := by
  rcases h with ⟨rfl, -⟩ | ⟨u, i, rfl, hi⟩
  · simp [Assembly.last?]
  · rw [Assembly.last?_append_single]
    rintro hsome
    obtain rfl := Option.some.inj hsome
    exact hnot ⟨_, hi, rfl⟩

end Remembers

end Compiler

open Compiler

namespace CompileM

variable {stopped : Stop CompileError → Compiler → Prop}

/-! ## Steps that write nothing -/

theorem fail_reported {α : Type} {c : Compiler} {e : CompileError} {done : α → Compiler → Prop} :
    Ends (fail e : CompileM α) c done Reported :=
  Ends.of_throw ⟨e, rfl⟩

theorem checkFresh_ends (name : String) (c : Compiler) :
    Ends (checkFresh name) c (fun _ c' => c = c' ∧ c.chain.conflict? name = none) Reported := by
  refine Ends.get_bind ?_
  by_cases hconflict : (c.chain.conflict? name).isSome = true
  · rw [if_pos hconflict]
    exact fail_reported
  · rw [if_neg hconflict]
    exact Ends.of_pure ⟨rfl, by simpa using hconflict⟩

theorem define_ends (name : String) (isMutable : Bool) (ty : Option Ty) (c : Compiler) :
    Ends (define name isMutable ty) c
      (fun x c' => c.env.define name isMutable ty = (x, c'.env) ∧ c.Silent c') stopped :=
  Ends.of_ok rfl ⟨rfl, rfl, rfl, rfl⟩

theorem resolve_ends (name : String) (otherwise : CompileError) (c : Compiler) :
    Ends (resolve name otherwise) c
      (fun x c' => c.env.resolve? name = some (x, c'.env) ∧ c.Silent c') Reported := by
  cases h : c.chain.resolve? name with
  | none =>
      have hrun : resolve name otherwise c = .error (.error otherwise) c := by
        simp only [resolve, h]
      exact Ends.of_error hrun ⟨otherwise, rfl⟩
  | some found =>
      have hrun : resolve name otherwise c = .ok found.1.symbol { c with chain := found.2 } := by
        simp only [resolve, h]
      exact Ends.of_ok hrun ⟨by simp [Env.resolve?, env, h], rfl, rfl, rfl⟩

theorem hoist_ends : ∀ (ss : List Stmt) (c : Compiler),
    Ends (hoist ss) c (fun _ c' => c.env.hoist? ss = some c'.env ∧ c.Silent c') Reported
  | [], c => Ends.of_pure ⟨rfl, .refl c⟩
  | .function header body :: rest, c => by
      rw [hoist]
      refine Ends.bind (checkFresh_ends header.boundName c) ?_
      rintro _ _ ⟨rfl, hfresh⟩
      refine Ends.discard_bind (define_ends _ _ _ _) ?_
      rintro x c₁ ⟨hdefine, hsilent⟩
      refine Ends.modify_bind ?_
      refine (hoist_ends rest _).imp ?_
      rintro _ c₂ ⟨hhoist, hrest⟩
      refine ⟨?_, ⟨hrest.code.trans hsilent.code, hrest.last.trans hsilent.last,
        hrest.enclosing.trans hsilent.enclosing⟩⟩
      have hconflict : (c.env.chain.conflict? header.boundName).isSome = false := by
        simp [env, hfresh]
      rw [Env.hoist?, hconflict, hdefine]
      exact hhoist
  | .expr e :: rest, c => hoist_ends rest c
  | .declare _ _ _ _ :: rest, c => hoist_ends rest c
  | .assign _ _ :: rest, c => hoist_ends rest c
  | .setIndex _ _ _ :: rest, c => hoist_ends rest c
  | .setField _ _ _ _ :: rest, c => hoist_ends rest c
  | .ret _ :: rest, c => hoist_ends rest c
  | .loop _ _ :: rest, c => hoist_ends rest c
  | .structType _ :: rest, c => hoist_ends rest c
  | .block _ :: rest, c => hoist_ends rest c

theorem declaredFunction_ends (header : FunctionHeader) (c : Compiler) :
    Ends (declaredFunction header) c
      (fun x c' => c.env.declared? header = some (x, c'.env) ∧ c.Silent c') Reported := by
  refine Ends.get_bind ?_
  refine Ends.modify_bind ?_
  have hsame : (if c.env.hoisted.contains header.boundName then
      c.env.chain.current.get? header.boundName else none) =
      if c.current.hoisted.contains header.boundName then
        c.chain.current.get? header.boundName else none := rfl
  cases hbound : if c.current.hoisted.contains header.boundName then
    c.chain.current.get? header.boundName else none with
  | some x =>
      refine Ends.of_pure ⟨?_, rfl, rfl, rfl⟩
      simp only [Env.declared?, hsame.trans hbound]
      rfl
  | none =>
      refine Ends.bind (checkFresh_ends _ _) ?_
      rintro _ _ ⟨rfl, hfresh⟩
      refine (define_ends _ _ _ _).imp ?_
      rintro x c' ⟨hdefine, hsilent⟩
      refine ⟨?_, hsilent.code, hsilent.last, hsilent.enclosing⟩
      have hconflict : (c.env.chain.conflict? header.boundName).isSome = false := by
        simpa [env] using hfresh
      simp only [Env.declared?, hsame.trans hbound, hconflict, Bool.false_eq_true, if_false]
      exact congrArg some hdefine

theorem structConstant_ends (type : StructType) (c : Compiler) :
    Ends (structConstant type) c
      (fun k c' => c.env.structConstant type = (k, c'.env) ∧ c.Silent c') stopped := by
  refine Ends.get_bind ?_
  cases h : c.structs.get? type.name with
  | some known => exact Ends.of_pure ⟨by simp only [Env.structConstant, env, h], .refl c⟩
  | none => exact Ends.of_ok rfl ⟨by simp only [Env.structConstant, env, h], rfl, rfl, rfl⟩

/-! ## Steps that write -/

theorem emit_of_encode {op : Opcode} {ns : List Nat} {bytes : List UInt8}
    (hencode : op.encode ns = .ok bytes) (c : Compiler) :
    Ends (emit op ns) c (fun _ c' => c.WritesOp ⟨op, ns⟩ c') stopped := by
  rw [emit, hencode]
  exact Ends.of_modify ⟨rfl, ⟨Code.adds_append hencode, rfl⟩, rfl⟩

theorem emit_ends (op : Opcode) (ns : List Nat) (c : Compiler) :
    Ends (emit op ns) c (fun _ c' => c.WritesOp ⟨op, ns⟩ c') Reported := by
  cases hencode : op.encode ns with
  | ok bytes => exact emit_of_encode hencode c
  | error e =>
      rw [emit, hencode]
      exact fail_reported

theorem addConstant_ends (v : Value) (c : Compiler) :
    Ends (addConstant v) c
      (fun k c' => k = c.env.pool.size ∧ c'.env = c.env.keep v ∧ c.Silent c') stopped :=
  Ends.of_ok rfl ⟨rfl, rfl, rfl, rfl, rfl⟩

theorem emitConstant_ends (v : Value) (c : Compiler) :
    Ends (emitConstant v) c
      (fun _ c' => c'.env = c.env.keep v ∧ c.Writes (.single ⟨.constant, [c.env.pool.size]⟩) c')
      Reported := by
  refine Ends.bind (addConstant_ends v c) ?_
  rintro k c₁ ⟨rfl, henv, hsilent⟩
  refine (emit_ends _ _ c₁).imp ?_
  intro _ c₂ hop
  exact ⟨hop.env.trans henv, .of_silent hsilent hop.writes⟩

theorem emitJump_ends (op : Opcode) (c : Compiler) :
    Ends (emitJump op) c
      (fun offset c' => offset = c.current.code.size ∧ c.WritesOp ⟨op, [unknownTarget]⟩ c')
      Reported := by
  refine Ends.bind (Ends.of_ok rfl ⟨rfl, rfl⟩ :
    Ends position c (fun offset c' => offset = c.current.code.size ∧ c = c') Reported) ?_
  rintro _ _ ⟨rfl, rfl⟩
  refine Ends.bind (emit_ends _ _ c) ?_
  intro _ c' hop
  exact Ends.of_pure ⟨rfl, hop⟩

theorem overwrite_ends {offset : Nat} {bytes : List UInt8} {c : Compiler}
    (hroom : c.current.code.hasRoom offset bytes = true) :
    Ends (overwrite offset bytes) c
      (fun _ c' => c'.env = c.env ∧ c'.enclosing = c.enclosing ∧
        c'.current.last = c.current.last ∧
        c'.current.code = c.current.code.overwrite offset bytes) stopped := by
  refine Ends.get_bind ?_
  rw [if_pos hroom]
  exact Ends.of_modify ⟨rfl, rfl, rfl, rfl⟩

/-- A jump that was written before can be patched if its target can be written. -/
theorem patchJump_of_encode {c₀ c : Compiler} {t u : Assembly} {op : Opcode} {n : Nat}
    (hop : op.isJump = true) (h : c₀.Writes (t ++ (.single ⟨op, [n]⟩ ++ u)) c)
    (hrefused : ∀ e, op.encode [c.current.code.size] = .error e →
      stopped (.error (.encode e)) c) :
    Ends (patchJump (c₀.current.code.size + t.size)) c
      (fun _ c' => c'.env = c.env ∧ c'.current.last = c.current.last ∧
        c₀.Writes (t ++ (.single ⟨op, [c.current.code.size]⟩ ++ u)) c') stopped := by
  have hwidth (k : Nat) : (⟨op, [k]⟩ : Instruction).width = 3 := by
    cases op <;> simp [Opcode.isJump] at hop <;> rfl
  have hadds := h.adds
  simp only [Assembly.instrs_append, Assembly.instrs_single, Assembly.size_single, hwidth,
    List.cons_append, List.nil_append] at hadds
  have hplace := hadds.contains.append_right
  rw [Assembly.totalWidth_instrs] at hplace
  obtain ⟨_, hwritten, hholds⟩ := hplace
  obtain ⟨_, _, hencode, -, rfl⟩ := hwritten.cons_inv
  obtain ⟨-, _, -, rfl⟩ := Instruction.encode_eq_ok hencode
  have hbyte := hholds.append_left.getElem?
  refine Ends.bind (Ends.of_ok rfl ⟨rfl, rfl⟩ :
    Ends position c (fun target c' => target = c.current.code.size ∧ c = c') stopped) ?_
  rintro _ _ ⟨rfl, rfl⟩
  refine Ends.get_bind ?_
  rw [hbyte]
  simp only [Opcode.ofByte?_toByte]
  split
  next e hnew => exact Ends.of_throw (hrefused e hnew)
  next bytes hnew =>
    obtain ⟨hroom, hpatched⟩ := Code.adds_overwrite (j := ⟨op, [c.current.code.size]⟩) hadds hnew
      ((hwidth n).trans (hwidth _).symm)
    rw [Assembly.totalWidth_instrs] at hroom hpatched
    refine (overwrite_ends hroom).imp ?_
    rintro _ c' ⟨henv, henclosing, hlast, hcode⟩
    refine ⟨henv, hlast, ?_, henclosing.trans h.enclosing⟩
    rw [hcode]
    simpa [Assembly.instrs_append, hwidth] using hpatched

theorem patchJump_ends {c₀ c : Compiler} {t u : Assembly} {op : Opcode} {n : Nat}
    (hop : op.isJump = true) (h : c₀.Writes (t ++ (.single ⟨op, [n]⟩ ++ u)) c) :
    Ends (patchJump (c₀.current.code.size + t.size)) c
      (fun _ c' => c'.env = c.env ∧ c'.current.last = c.current.last ∧
        c₀.Writes (t ++ (.single ⟨op, [c.current.code.size]⟩ ++ u)) c') Reported :=
  patchJump_of_encode hop h fun _ _ => ⟨_, rfl⟩

theorem load_ends (x : Symbol) (c : Compiler) :
    Ends (load x) c (fun _ c' => c.env.canLoad x = true ∧ c.WritesOp x.load c') Reported := by
  refine Ends.get_bind ?_
  by_cases hlater : (x.storage.isDeclared && c.current.hoisted.contains x.name) = true
  · rw [if_pos hlater]
    exact fail_reported
  · rw [if_neg hlater]
    refine (emit_ends _ _ c).imp ?_
    intro _ c' hop
    refine ⟨?_, hop⟩
    rw [Env.canLoad, Bool.not_eq_true']
    exact eq_false_of_ne_true hlater

theorem store_ends (x : Symbol) (c : Compiler) :
    Ends (store x) c (fun _ c' => ∃ i, x.store? = some i ∧ c.WritesOp i c') Reported := by
  cases hs : x.storage with
  | global | slot =>
      cases hm : x.isMutable <;> simp only [store, hs, hm] <;>
        exact (emit_ends _ _ c).imp fun _ _ hop => ⟨_, by simp only [Symbol.store?, hs, hm], hop⟩
  | captured | builtin | self =>
      simp only [store, hs]
      exact fail_reported

theorem loadAll_ends : ∀ (xs : List Symbol) (c : Compiler),
    Ends (loadAll xs) c
      (fun _ c' => (∀ x ∈ xs, c.env.canLoad x = true) ∧ c'.env = c.env ∧
        c.Writes (.ofList (xs.map Symbol.load)) c') Reported
  | [], c => Ends.of_pure ⟨by simp, rfl, (Silent.refl c).writes⟩
  | x :: xs, c => by
      refine Ends.bind (load_ends x c) ?_
      rintro _ c₁ ⟨hx, hop⟩
      refine (loadAll_ends xs c₁).imp ?_
      rintro _ c₂ ⟨hxs, henv, hwrites⟩
      rw [hop.env] at hxs henv
      refine ⟨?_, henv, hop.writes.trans hwrites⟩
      intro y hy
      rcases List.mem_cons.mp hy with rfl | hy
      · exact hx
      · exact hxs y hy

/-! ## Ends of blocks -/

theorem lastIs_ends (op : Opcode) (c : Compiler) :
    Ends (lastIs op) c
      (fun b c' => c = c' ∧ (b = true ↔ ∃ e, c.current.last = some e ∧ e.opcode = op)) stopped := by
  refine Ends.of_ok rfl ⟨rfl, ?_⟩
  cases c.current.last with
  | none => simp
  | some e => simp

theorem removeLast_ends {c : Compiler} {e : Emitted} (hlast : c.current.last = some e) :
    Ends removeLast c
      (fun _ c' => c'.env = c.env ∧ c'.enclosing = c.enclosing ∧
        c'.current.code = c.current.code.truncate e.position) stopped := by
  refine Ends.of_modify ?_
  simp only [env, hlast, and_self]

theorem closeBranch_ends {c₀ c : Compiler} {t : Assembly}
    (hwrites : c₀.Writes t c) (hremembers : c₀.Remembers t c)
    (hstart : ∀ e, c₀.current.last = some e → e.opcode ≠ .pop) :
    Ends closeBranch c
      (fun _ c' => c'.env = c.env ∧ ∃ u, t.LeavesValue u ∧ c₀.Writes u c') stopped := by
  refine Ends.bind (lastIs_ends .pop c) ?_
  rintro b _ ⟨rfl, hb⟩
  cases b with
  | true =>
      rw [if_pos rfl]
      obtain ⟨⟨op, position⟩, hlast, rfl⟩ := hb.mp rfl
      obtain ⟨u, rfl, rfl⟩ := hremembers.eq_append_single hwrites hlast rfl hstart
      have hadds := hwrites.adds
      rw [Assembly.instrs_append] at hadds
      have hcut := Code.adds_truncate hadds
      rw [Assembly.totalWidth_instrs] at hcut
      refine (removeLast_ends hlast).imp ?_
      rintro _ c' ⟨henv, henclosing, hcode⟩
      exact ⟨henv, u, .value u, hcode ▸ hcut, henclosing.trans hwrites.enclosing⟩
  | false =>
      rw [if_neg Bool.false_ne_true]
      refine (emit_of_encode rfl c).imp ?_
      intro _ c' hop
      have hnot := hremembers.last?_ne fun he => Bool.false_ne_true (hb.mpr he)
      exact ⟨hop.env, _, .null hnot, hwrites.trans hop.writes⟩

theorem lastToReturn_ends {c₀ c : Compiler} {u : Assembly}
    (hwrites : c₀.Writes (u ++ .single ⟨.pop, []⟩) c)
    (hlast : c.current.last = some ⟨.pop, c₀.current.code.size + u.size⟩) :
    Ends lastToReturn c
      (fun _ c' => c'.env = c.env ∧ (∃ e, c'.current.last = some e ∧ e.opcode = .returnValue) ∧
        c₀.Writes (u ++ .single ⟨.returnValue, []⟩) c') stopped := by
  have hadds := hwrites.adds
  rw [Assembly.instrs_append, Assembly.instrs_single] at hadds
  obtain ⟨hroom, hnew⟩ := Code.adds_overwrite (j := ⟨.returnValue, []⟩) hadds rfl rfl
  rw [Assembly.totalWidth_instrs] at hroom hnew
  refine Ends.get_bind ?_
  rw [hlast]
  refine Ends.bind (overwrite_ends hroom) ?_
  rintro _ c₁ ⟨henv, henclosing, -, hcode⟩
  refine Ends.of_modify ⟨henv, ⟨_, rfl, rfl⟩, ?_, henclosing.trans hwrites.enclosing⟩
  rw [Assembly.instrs_append, Assembly.instrs_single, hcode]
  exact hnew

theorem closeBody_ends {c₀ c : Compiler} {t : Assembly}
    (hwrites : c₀.Writes t c) (hremembers : c₀.Remembers t c) (hstart : c₀.current.last = none) :
    Ends closeBody c
      (fun _ c' => c'.env = c.env ∧ ∃ u, t.Returns u ∧ c₀.Writes u c') stopped := by
  have hfresh {op : Opcode} : ∀ e, c₀.current.last = some e → e.opcode ≠ op := by simp [hstart]
  refine Ends.bind (lastIs_ends .pop c) ?_
  rintro b _ ⟨rfl, hb⟩
  cases b with
  | true =>
      obtain ⟨⟨op, position⟩, hlast, rfl⟩ := hb.mp rfl
      obtain ⟨u, rfl, rfl⟩ := hremembers.eq_append_single hwrites hlast rfl hfresh
      refine Ends.bind (lastToReturn_ends hwrites hlast) ?_
      rintro _ c₁ ⟨henv, hreturn, hnew⟩
      refine Ends.bind (lastIs_ends .returnValue c₁) ?_
      rintro b _ ⟨rfl, hb⟩
      rw [hb.mpr hreturn]
      exact Ends.of_pure ⟨henv, _, .value u, hnew⟩
  | false =>
      have hpop := hremembers.last?_ne fun he => Bool.false_ne_true (hb.mpr he)
      refine Ends.bind (lastIs_ends .returnValue c) ?_
      rintro b' _ ⟨rfl, hb'⟩
      cases b' with
      | true =>
          obtain ⟨⟨op, position⟩, hlast, rfl⟩ := hb'.mp rfl
          obtain ⟨u, rfl, -⟩ := hremembers.eq_append_single hwrites hlast rfl hfresh
          exact Ends.of_pure ⟨rfl, _, .already u, hwrites⟩
      | false =>
          have hreturn := hremembers.last?_ne fun he => Bool.false_ne_true (hb'.mpr he)
          rw [if_pos Bool.not_false]
          refine (emit_of_encode rfl c).imp ?_
          intro _ c' hop
          exact ⟨hop.env, _, .null hpop hreturn, hwrites.trans hop.writes⟩

end CompileM

end ScriptEngine
