import ScriptEngine.Proofs.Compile.Writing

/-!
# The compiler follows the rules

For every form of a phrase, if the parts are compiled by the rules of `Compiles` then so is the
whole: the compiler either refuses the program or writes the code that a rule gives.  Statements
also leave the compiler with the right memory of their last instruction, which decides how a block
ends.  Together with the induction over the syntax this describes every accepted program.
-/

namespace ScriptEngine

open Compiler

/-! ## What static types depend on -/

namespace Compiler

variable {c c' : Compiler}

/-- Both compilers know names of the same types, and the same struct types. -/
structure SeesAlike (c c' : Compiler) : Prop where
  named : ∀ name, (c.chain.lookup? name).bind Symbol.ty = (c'.chain.lookup? name).bind Symbol.ty
  result : ∀ name argument, c.namedResult? name argument = c'.namedResult? name argument
  struct : ∀ name, c.struct? name = c'.struct? name

mutual

/-- Static types depend on the types of names and the known struct types only. -/
theorem typeOf_congr (h : c.SeesAlike c') : ∀ e : Expr, c.typeOf e = c'.typeOf e
  | .int _ | .float _ | .str _ | .bool _ | .null | .unary .bang _ | .function _ _ _ => by
      simp only [typeOf]
  | .ident name => by simp only [typeOf, h.named]
  | .unary .minus operand => by simp only [typeOf, typeOf_congr h operand]
  | .binary op left right => by simp only [typeOf, typeOf_congr h left]
  | .cond _ consequence _ => by simp only [typeOf, typeOfLast_congr h consequence]
  | .call callee arguments overload => by
      simp only [typeOf, h.result, typeOf_congr h callee, typeOfFirst_congr h arguments]
  | .array elements => by simp only [typeOf, typeOfFirst_congr h elements]
  | .hash pairs => by simp only [typeOf, typeOfPairs_congr h pairs]
  | .index container _ => by simp only [typeOf, typeOf_congr h container]
  | .struct typeName _ => by simp only [typeOf, h.struct]
  | .select object field structType => by simp only [typeOf, typeOf_congr h object]

theorem typeOfFirst_congr (h : c.SeesAlike c') :
    ∀ es : List Expr, c.typeOfFirst es = c'.typeOfFirst es
  | [] => by simp only [typeOfFirst]
  | e :: _ => by simp only [typeOfFirst, typeOf_congr h e]

theorem typeOfPairs_congr (h : c.SeesAlike c') :
    ∀ ps : List (Expr × Expr), c.typeOfPairs ps = c'.typeOfPairs ps
  | [] => by simp only [typeOfPairs]
  | (k, v) :: _ => by simp only [typeOfPairs, typeOf_congr h k, typeOf_congr h v]

theorem typeOfLast_congr (h : c.SeesAlike c') :
    ∀ ss : List Stmt, c.typeOfLast ss = c'.typeOfLast ss
  | [] => by simp only [typeOfLast]
  | [.expr e] => by simp only [typeOfLast, typeOf_congr h e]
  | [.declare _ _ _ _] | [.assign _ _] | [.setIndex _ _ _] | [.setField _ _ _ _] | [.ret _]
  | [.loop _ _] | [.function _ _] | [.structType _] | [.block _] => by simp only [typeOfLast]
  | _ :: s :: rest => by simp only [typeOfLast, typeOfLast_congr h (s :: rest)]

end

theorem fieldIndex_congr (h : c.SeesAlike c') (object : Expr) (field : String)
    (given : Option StructType) :
    c.fieldIndex object field given = c'.fieldIndex object field given := by
  simp only [fieldIndex, typeOf_congr h]

theorem seesAlike_env (c : Compiler) : c.env.compiler.SeesAlike c :=
  ⟨fun _ => rfl, fun _ _ => rfl, fun _ => rfl⟩

theorem typeOf_env (c : Compiler) (e : Expr) : c.env.compiler.typeOf e = c.typeOf e :=
  typeOf_congr c.seesAlike_env e

theorem fieldIndex_env (c : Compiler) (object : Expr) (field : String) (given : Option StructType) :
    c.env.compiler.fieldIndex object field given = c.fieldIndex object field given :=
  fieldIndex_congr c.seesAlike_env object field given

end Compiler

namespace CompileM

/-- Compiling refuses the program or follows the rules for the phrase. -/
def Follows (x : CompileM Unit) (p : Phrase) : Prop :=
  ∀ c : Compiler, Ends x c (fun _ c' => ∃ t, Compiles c.env p t c'.env ∧ c.Writes t c') Reported

/-- Compiling refuses the program or follows the rules for the phrase, and remembers the last
instruction. -/
def Closes (x : CompileM Unit) (p : Phrase) : Prop :=
  ∀ c : Compiler, Ends x c
    (fun _ c' => ∃ t, Compiles c.env p t c'.env ∧ c.Writes t c' ∧ c.Remembers t c') Reported

/-! ## Last steps -/

/-- If the rules ask for one more instruction, it is written. -/
theorem emit_closes {c₀ c : Compiler} {p : Phrase} {t u : Assembly} {op : Opcode} {ns : List Nat}
    (hp : Compiles c₀.env p u c.env) (hw : c₀.Writes t c) (hu : t ++ .single ⟨op, ns⟩ = u) :
    Ends (emit op ns) c
      (fun _ c' => ∃ t, Compiles c₀.env p t c'.env ∧ c₀.Writes t c' ∧ c₀.Remembers t c')
      Reported := by
  refine (emit_ends op ns c).imp ?_
  intro _ c' hop
  subst hu
  obtain ⟨hwrites, hremembers⟩ := hop.after hw
  exact ⟨_, hop.env ▸ hp, hwrites, hremembers⟩

theorem emit_follows {c₀ c : Compiler} {p : Phrase} {t u : Assembly} {op : Opcode} {ns : List Nat}
    (hp : Compiles c₀.env p u c.env) (hw : c₀.Writes t c) (hu : t ++ .single ⟨op, ns⟩ = u) :
    Ends (emit op ns) c (fun _ c' => ∃ t, Compiles c₀.env p t c'.env ∧ c₀.Writes t c')
      Reported :=
  (emit_closes hp hw hu).imp fun _ _ ⟨t, ht, hw, _⟩ => ⟨t, ht, hw⟩

theorem store_closes {c₀ c : Compiler} {p : Phrase} {t : Assembly} {x : Symbol}
    (hp : ∀ i, x.store? = some i → Compiles c₀.env p (t ++ .single i) c.env)
    (hw : c₀.Writes t c) :
    Ends (store x) c
      (fun _ c' => ∃ t, Compiles c₀.env p t c'.env ∧ c₀.Writes t c' ∧ c₀.Remembers t c')
      Reported := by
  refine (store_ends x c).imp ?_
  rintro _ c' ⟨i, hi, hop⟩
  obtain ⟨hwrites, hremembers⟩ := hop.after hw
  exact ⟨_, hop.env ▸ hp i hi, hwrites, hremembers⟩

/-! ## Names and operators -/

theorem follows_constant {v : Value} {p : Phrase}
    (hp : ∀ E : Env, Compiles E p (.single ⟨.constant, [E.pool.size]⟩) (E.keep v)) :
    Follows (emitConstant v) p := by
  intro c
  refine (emitConstant_ends v c).imp ?_
  rintro _ c' ⟨henv, hw⟩
  exact ⟨_, henv ▸ hp c.env, hw⟩

theorem follows_emit {op : Opcode} {ns : List Nat} {p : Phrase}
    (hp : ∀ E : Env, Compiles E p (.single ⟨op, ns⟩) E) : Follows (emit op ns) p :=
  fun c => emit_follows (hp c.env) (Silent.refl c).writes rfl

theorem follows_use (name : String) (otherwise : CompileError) :
    Follows (do load (← resolve name otherwise)) (.use name) := by
  intro c
  refine Ends.bind (resolve_ends name otherwise c) ?_
  rintro x c₁ ⟨hresolve, hsilent⟩
  refine (load_ends x c₁).imp ?_
  rintro _ c₂ ⟨hload, hop⟩
  exact ⟨_, hop.env ▸ .use hresolve hload, .of_silent hsilent hop.writes⟩

theorem Follows.ident {bound : Option String} {name : String} :
    Follows (expr bound (.ident name)) (.expr bound (.ident name)) := by
  intro c
  refine (follows_use name (.undefinedVariable name) c).imp ?_
  rintro _ c' ⟨t, ht, hw⟩
  exact ⟨t, .ident ht, hw⟩

theorem Follows.unary {bound : Option String} {op : PrefixOp} {e : Expr}
    (he : Follows (expr none e) (.expr none e)) :
    Follows (expr bound (.unary op e)) (.expr bound (.unary op e)) := by
  intro c
  refine Ends.bind (he c) ?_
  rintro _ c₁ ⟨t, ht, hw⟩
  exact emit_follows (.unary ht) hw rfl

theorem expr_binary (bound : Option String) (op : InfixOp) (l r : Expr) :
    expr bound (.binary op l r) =
      if op.isSwapped then
        expr none r >>= fun _ => expr none l >>= fun _ => emit op.opcode []
      else
        expr none l >>= fun _ => expr none r >>= fun _ => emit op.opcode [] :=
  rfl

theorem Follows.binary {bound : Option String} {op : InfixOp} {l r : Expr}
    (hl : Follows (expr none l) (.expr none l)) (hr : Follows (expr none r) (.expr none r)) :
    Follows (expr bound (.binary op l r)) (.expr bound (.binary op l r)) := by
  intro c
  rw [expr_binary]
  cases hop : op.isSwapped with
  | true =>
      refine Ends.bind (hr c) ?_
      rintro _ c₁ ⟨t, ht, hw⟩
      refine Ends.bind (hl c₁) ?_
      rintro _ c₂ ⟨u, hu, hw'⟩
      exact emit_follows (.swapped hop ht hu) (hw.trans hw') (Assembly.append_assoc t u _)
  | false =>
      refine Ends.bind (hl c) ?_
      rintro _ c₁ ⟨t, ht, hw⟩
      refine Ends.bind (hr c₁) ?_
      rintro _ c₂ ⟨u, hu, hw'⟩
      exact emit_follows (.binary hop ht hu) (hw.trans hw') (Assembly.append_assoc t u _)

/-! ## Containers and calls -/

theorem expr_call (bound : Option String) (callee : Expr) (arguments : List Expr)
    (overload : Option String) :
    expr bound (.call callee arguments overload) = (do
      match callee.calleeName? overload with
      | some name => load (← resolve name (.undefinedFunction name))
      | none => expr none callee
      exprs arguments
      emit .call [arguments.length]) :=
  rfl

theorem Follows.call {bound : Option String} {callee : Expr} {arguments : List Expr}
    {overload : Option String} (hcallee : Follows (expr none callee) (.expr none callee))
    (harguments : Follows (exprs arguments) (.exprs arguments)) :
    Follows (expr bound (.call callee arguments overload))
      (.expr bound (.call callee arguments overload)) := by
  intro c
  rw [expr_call]
  cases hname : callee.calleeName? overload with
  | some name =>
      refine Ends.bind (resolve_ends name (.undefinedFunction name) c) ?_
      rintro x c₁ ⟨hresolve, hsilent⟩
      refine Ends.bind (load_ends x c₁) ?_
      rintro _ c₂ ⟨hload, hop⟩
      have huse : Compiles c.env (.use name) (.single x.load) c₂.env :=
        hop.env ▸ .use hresolve hload
      refine Ends.bind (harguments c₂) ?_
      rintro _ c₃ ⟨u, hu, hw⟩
      exact emit_follows (.callNamed hname huse hu)
        ((Writes.of_silent hsilent hop.writes).trans hw) (Assembly.append_assoc _ u _)
  | none =>
      refine Ends.bind (hcallee c) ?_
      rintro _ c₁ ⟨t, ht, hw⟩
      refine Ends.bind (harguments c₁) ?_
      rintro _ c₂ ⟨u, hu, hw'⟩
      exact emit_follows (.callValue hname ht hu) (hw.trans hw') (Assembly.append_assoc t u _)

theorem Follows.array {bound : Option String} {elements : List Expr}
    (h : Follows (exprs elements) (.exprs elements)) :
    Follows (expr bound (.array elements)) (.expr bound (.array elements)) := by
  intro c
  refine Ends.bind (h c) ?_
  rintro _ c₁ ⟨t, ht, hw⟩
  exact emit_follows (.array ht) hw rfl

theorem Follows.hash {bound : Option String} {pairs : List (Expr × Expr)}
    (h : Follows (exprPairs pairs) (.pairs pairs)) :
    Follows (expr bound (.hash pairs)) (.expr bound (.hash pairs)) := by
  intro c
  refine Ends.bind (h c) ?_
  rintro _ c₁ ⟨t, ht, hw⟩
  exact emit_follows (.hash ht) hw rfl

theorem Follows.index {bound : Option String} {container position : Expr}
    (hcontainer : Follows (expr none container) (.expr none container))
    (hposition : Follows (expr none position) (.expr none position)) :
    Follows (expr bound (.index container position)) (.expr bound (.index container position)) := by
  intro c
  refine Ends.bind (hcontainer c) ?_
  rintro _ c₁ ⟨t, ht, hw⟩
  refine Ends.bind (hposition c₁) ?_
  rintro _ c₂ ⟨u, hu, hw'⟩
  exact emit_follows (.index ht hu) (hw.trans hw') (Assembly.append_assoc t u _)

theorem literalType_ends (typeName : String) (initializers : List (String × Expr)) (c : Compiler) :
    Ends (literalType typeName initializers) c
      (fun st c' => c = c' ∧ c.env.compiler.struct? typeName = some st ∧
        (initializers.find? fun i => (st.fieldIndex? i.1).isNone) = none) Reported := by
  refine Ends.get_bind ?_
  cases hknown : c.struct? typeName with
  | none => exact fail_reported
  | some st =>
      cases hfind : initializers.find? fun i => (st.fieldIndex? i.1).isNone with
      | some i =>
          simp only [hfind]
          exact fail_reported
      | none =>
          simp only [hfind]
          exact Ends.of_pure ⟨rfl, hknown, hfind⟩

theorem fieldIndex_ends (object : Expr) (field : String) (given : Option StructType)
    (c : Compiler) :
    Ends (fieldIndex object field given) c
      (fun i c' => c = c' ∧ c.env.compiler.fieldIndex object field given = .ok i) Reported := by
  refine Ends.get_bind ?_
  cases hindex : c.fieldIndex object field given with
  | error e => exact fail_reported
  | ok i => exact Ends.of_pure ⟨rfl, (fieldIndex_env c object field given).trans hindex⟩

theorem Follows.fields {initializers : List (String × Expr)}
    (h : ∀ f, Follows (initializer f initializers) (.field f initializers)) :
    ∀ fs : List (String × Ty),
      Follows (fs.forM fun f => initializer f initializers) (.fields fs initializers)
  | [] => fun c => Ends.of_pure ⟨_, .fieldsNil, (Silent.refl c).writes⟩
  | f :: fs => by
      intro c
      rw [List.forM]
      refine Ends.bind (h f c) ?_
      rintro _ c₁ ⟨t, ht, hw⟩
      refine (Follows.fields h fs c₁).imp ?_
      rintro _ c₂ ⟨u, hu, hw'⟩
      exact ⟨_, .fieldsCons ht hu, hw.trans hw'⟩

/-- The constant of a struct type is known before the struct is built. -/
theorem struct_follows {c₀ c : Compiler} {p : Phrase} {t : Assembly} {st : StructType} {n : Nat}
    (hp : Compiles c₀.env p (t ++ .single ⟨.struct, [(c.env.structConstant st).1, n]⟩)
      (c.env.structConstant st).2) (hw : c₀.Writes t c) :
    Ends (structConstant st >>= fun k => emit .struct [k, n]) c
      (fun _ c' => ∃ t, Compiles c₀.env p t c'.env ∧ c₀.Writes t c') Reported := by
  refine Ends.bind (structConstant_ends st c) ?_
  rintro k c₁ ⟨hconstant, hsilent⟩
  rw [hconstant] at hp
  exact emit_follows hp (hw.then_silent hsilent) rfl

theorem Follows.struct {bound : Option String} {typeName : String}
    {initializers : List (String × Expr)}
    (h : ∀ f, Follows (initializer f initializers) (.field f initializers)) :
    Follows (expr bound (.struct typeName initializers))
      (.expr bound (.struct typeName initializers)) := by
  intro c
  refine Ends.bind (literalType_ends typeName initializers c) ?_
  rintro st _ ⟨rfl, hknown, hfields⟩
  refine Ends.bind (Follows.fields h st.fields c) ?_
  rintro _ c₁ ⟨t, ht, hw⟩
  exact struct_follows (.struct hknown hfields ht) hw

theorem Follows.select {bound : Option String} {object : Expr} {field : String}
    {given : Option StructType} (h : Follows (expr none object) (.expr none object)) :
    Follows (expr bound (.select object field given))
      (.expr bound (.select object field given)) := by
  intro c
  refine Ends.bind (fieldIndex_ends object field given c) ?_
  rintro i _ ⟨rfl, hindex⟩
  refine Ends.bind (h c) ?_
  rintro _ c₁ ⟨t, ht, hw⟩
  exact emit_follows (.select hindex ht) hw rfl

/-! ## Zero values -/

mutual

theorem follows_zeroValue : ∀ ty : Ty, Follows (zeroValue ty) (.zero ty)
  | .int => by rw [zeroValue]; exact follows_constant fun _ => .zeroInt
  | .float => by rw [zeroValue]; exact follows_constant fun _ => .zeroFloat
  | .string => by rw [zeroValue]; exact follows_constant fun _ => .zeroString
  | .bool => by rw [zeroValue]; exact follows_emit fun _ => .zeroBool
  | .null => by simp only [zeroValue]; exact follows_emit fun _ => .zeroNull
  | .func _ _ => by simp only [zeroValue]; exact follows_emit fun _ => .zeroFunc
  | .array _ => by rw [zeroValue]; exact follows_emit fun _ => .zeroArray
  | .hash _ _ => by rw [zeroValue]; exact follows_emit fun _ => .zeroHash
  | .struct name fields => by
      intro c
      rw [zeroValue]
      refine Ends.bind (follows_zeroFields fields c) ?_
      rintro _ c₁ ⟨t, ht, hw⟩
      exact struct_follows (.zeroStruct ht) hw

theorem follows_zeroFields : ∀ fs : List (String × Ty), Follows (zeroFields fs) (.zeros fs)
  | [] => fun c => by
      rw [zeroFields]
      exact Ends.of_pure ⟨_, .zerosNil, (Silent.refl c).writes⟩
  | (name, ty) :: fs => by
      intro c
      rw [zeroFields]
      refine Ends.bind (follows_zeroValue ty c) ?_
      rintro _ c₁ ⟨t, ht, hw⟩
      refine (follows_zeroFields fs c₁).imp ?_
      rintro _ c₂ ⟨u, hu, hw'⟩
      exact ⟨_, .zerosCons ht hu, hw.trans hw'⟩

end

theorem follows_zeroValueOf : ∀ ty : Option Ty, Follows (zeroValueOf ty) (.zero (ty.getD .null))
  | some ty => follows_zeroValue ty
  | none => follows_emit fun _ => .zeroNull

/-! ## Blocks and choices -/

/-- A block, followed by something else. -/
theorem Closes.block_then {body : List Stmt} {α : Type} {f : CompileM α} {c : Compiler}
    {done : α → Compiler → Prop} (hbody : Closes (stmts body) (.stmts body))
    (hf : ∀ c' t, Compiles c.env (.block body) t c'.env → c.Writes t c' → c.Remembers t c' →
      Ends f c' done Reported) :
    Ends (hoist body >>= fun _ => stmts body >>= fun _ => f) c done Reported := by
  refine Ends.bind (hoist_ends body c) ?_
  rintro _ c₁ ⟨hhoist, hsilent⟩
  refine Ends.bind (hbody c₁) ?_
  rintro _ c₂ ⟨t, ht, hw, hr⟩
  refine hf c₂ t (.block hhoist ht) (.of_silent hsilent hw) ?_
  exact Remembers.trans hsilent.writes (.of_silent hsilent) hr

theorem Closes.block {body : List Stmt} (hbody : Closes (stmts body) (.stmts body)) :
    Closes (block body) (.block body) := by
  intro c
  refine Ends.bind (hoist_ends body c) ?_
  rintro _ c₁ ⟨hhoist, hsilent⟩
  refine (hbody c₁).imp ?_
  rintro _ c₂ ⟨t, ht, hw, hr⟩
  refine ⟨t, .block hhoist ht, .of_silent hsilent hw, ?_⟩
  exact Remembers.trans hsilent.writes (.of_silent hsilent) hr

/-- A block that leaves a value, followed by something else. -/
theorem Closes.branch_then {body : List Stmt} {α : Type} {f : CompileM α} {c : Compiler}
    {done : α → Compiler → Prop} (hbody : Closes (stmts body) (.stmts body))
    (hstart : ∀ e, c.current.last = some e → e.opcode ≠ .pop)
    (hf : ∀ c' t, Compiles c.env (.branch body) t c'.env → c.Writes t c' →
      Ends f c' done Reported) :
    Ends (hoist body >>= fun _ => stmts body >>= fun _ => closeBranch >>= fun _ => f) c done
      Reported := by
  refine hbody.block_then ?_
  intro c₁ t ht hw hr
  refine Ends.bind (closeBranch_ends hw hr hstart) ?_
  rintro _ c₂ ⟨henv, u, hvalue, hw'⟩
  exact hf c₂ u (.branch (henv ▸ ht) hvalue) hw'

/-- When the jump at the end of the first branch is patched, the choice is complete. -/
theorem patchChoice_of_encode {stopped : Stop CompileError → Compiler → Prop} {c c₁ c₂ : Compiler}
    {t u v : Assembly} {other n offset : Nat}
    (hw : c.Writes (t ++ (.single ⟨.jumpNotTruthy, [other]⟩ ++ (u ++ .single ⟨.jump, [n]⟩))) c₁)
    (hv : c₁.Writes v c₂) (hother : other = c₁.current.code.size)
    (hoffset : offset = c.current.code.size + t.size + 3 + u.size)
    (hrefused : ∀ e, Opcode.jump.encode [c₂.current.code.size] = .error e →
      stopped (.error (.encode e)) c₂) :
    Ends (patchJump offset) c₂
      (fun _ c' => c'.env = c₂.env ∧ c.Writes (.choice t u v .done) c') stopped := by
  have hall : c.Writes ((t ++ (.single ⟨.jumpNotTruthy, [other]⟩ ++ u)) ++
      (.single ⟨.jump, [n]⟩ ++ v)) c₂ := by
    simpa only [Assembly.append_assoc] using hw.trans hv
  have hsize₁ := hw.size
  have hsize₂ := hv.size
  simp only [Assembly.size_append, Assembly.size_single, Instruction.width_jump,
    Instruction.width_jumpNotTruthy] at hsize₁
  have hplace : offset = c.current.code.size +
      (t ++ (.single ⟨.jumpNotTruthy, [other]⟩ ++ u)).size := by
    simp only [Assembly.size_append, Assembly.size_single, Instruction.width_jumpNotTruthy]
    omega
  rw [hplace]
  refine (patchJump_of_encode rfl hall hrefused).imp ?_
  rintro _ c' ⟨henv, -, hpatched⟩
  refine ⟨henv, hpatched.of_instrs_eq ?_⟩
  rw [hsize₂, hother, hsize₁]
  simp [Assembly.instrs_append, Assembly.instrs, Nat.add_assoc]

theorem patchChoice_ends {c c₁ c₂ : Compiler} {t u v : Assembly} {other n offset : Nat}
    (hw : c.Writes (t ++ (.single ⟨.jumpNotTruthy, [other]⟩ ++ (u ++ .single ⟨.jump, [n]⟩))) c₁)
    (hv : c₁.Writes v c₂) (hother : other = c₁.current.code.size)
    (hoffset : offset = c.current.code.size + t.size + 3 + u.size) :
    Ends (patchJump offset) c₂
      (fun _ c' => c'.env = c₂.env ∧ c.Writes (.choice t u v .done) c') Reported :=
  patchChoice_of_encode hw hv hother hoffset fun _ _ => ⟨_, rfl⟩

theorem expr_cond (bound : Option String) (condition : Expr) (yes : List Stmt)
    (no : Option (List Stmt)) :
    expr bound (.cond condition yes no) = (do
      expr none condition
      let toAlternative ← emitJump .jumpNotTruthy
      hoist yes
      stmts yes
      closeBranch
      let toEnd ← emitJump .jump
      patchJump toAlternative
      match no with
      | some body =>
          hoist body
          stmts body
          closeBranch
      | none => emit .pushNull []
      patchJump toEnd) := by
  cases no <;> rfl

theorem Follows.cond {bound : Option String} {condition : Expr} {yes : List Stmt}
    {no : Option (List Stmt)} (hcondition : Follows (expr none condition) (.expr none condition))
    (hyes : Closes (stmts yes) (.stmts yes))
    (hno : ∀ body, no = some body → Closes (stmts body) (.stmts body)) :
    Follows (expr bound (.cond condition yes no)) (.expr bound (.cond condition yes no)) := by
  intro c
  rw [expr_cond]
  refine Ends.bind (hcondition c) ?_
  rintro _ c₁ ⟨t, ht, hw₁⟩
  refine Ends.bind (emitJump_ends .jumpNotTruthy c₁) ?_
  rintro _ c₂ ⟨rfl, hbranch⟩
  have hnotPop {c c' : Compiler} {i : Instruction} (h : c.WritesOp i c') (hi : i.opcode ≠ .pop) :
      ∀ e, c'.current.last = some e → e.opcode ≠ .pop := by
    intro e he
    obtain rfl := Option.some.inj (h.last.symm.trans he)
    exact hi
  refine hyes.branch_then (hnotPop hbranch (by decide)) ?_
  intro c₃ u hu hw₃
  refine Ends.bind (emitJump_ends .jump c₃) ?_
  rintro _ c₄ ⟨rfl, hjump⟩
  have hall := hw₁.trans (hbranch.writes.trans (hw₃.trans hjump.writes))
  rw [hw₁.size]
  refine Ends.bind (patchJump_ends rfl hall) ?_
  rintro _ c₅ ⟨henv, hlast, hpatched⟩
  have henv₅ : c₅.env = c₃.env := henv.trans hjump.env
  have hother : c₄.current.code.size = c₅.current.code.size := by
    rw [hall.size, hpatched.size]
    simp only [Assembly.size_append, Assembly.size_single, Instruction.width_jumpNotTruthy]
  have hoffset : c₃.current.code.size = c.current.code.size + t.size + 3 + u.size := by
    rw [hw₃.size, hbranch.writes.size, hw₁.size, Assembly.size_single,
      Instruction.width_jumpNotTruthy]
  rw [hbranch.env] at hu
  cases no with
  | some body =>
      have hstart : ∀ e, c₅.current.last = some e → e.opcode ≠ .pop :=
        hlast ▸ hnotPop hjump (by decide)
      refine (hno body rfl).branch_then hstart ?_
      intro c₆ v hv hw₆
      rw [henv₅] at hv
      refine (patchChoice_ends hpatched hw₆ hother hoffset).imp ?_
      rintro _ c₇ ⟨henv₇, hw₇⟩
      exact ⟨_, henv₇ ▸ .cond ht hu (.otherwise hv), hw₇⟩
  | none =>
      refine Ends.bind (emit_ends .pushNull [] c₅) ?_
      intro _ c₆ hop
      refine (patchChoice_ends hpatched hop.writes hother hoffset).imp ?_
      rintro _ c₇ ⟨henv₇, hw₇⟩
      have henv : c₇.env = c₃.env := henv₇.trans (hop.env.trans henv₅)
      exact ⟨_, henv ▸ .cond ht hu .nothing, hw₇⟩

/-! ## Functions -/

theorem defineParameters_ends {stopped : Stop CompileError → Compiler → Prop} :
    ∀ (parameters : List (String × Ty)) (c : Compiler), Ends (defineParameters parameters) c
      (fun _ c' => c'.env = c.env.withParameters parameters ∧ c.Silent c') stopped
  | [], c => Ends.of_pure ⟨rfl, .refl c⟩
  | (name, ty) :: rest, c => by
      rw [defineParameters]
      refine Ends.discard_bind (define_ends name false (some ty) c) ?_
      rintro x c₁ ⟨hdefine, hsilent⟩
      refine (defineParameters_ends rest c₁).imp ?_
      rintro _ c₂ ⟨henv, hsilent'⟩
      rw [Env.withParameters, hdefine]
      exact ⟨henv, hsilent.trans hsilent'⟩

theorem leave_ends {stopped : Stop CompileError → Compiler → Prop} {c : Compiler} {scope : Scope}
    {chain : ScopeChain} {outer : OpenCode} {rest : List OpenCode}
    (hpop : c.chain.pop? = some (scope, chain))
    (henclosing : c.enclosing = outer :: rest) :
    Ends leave c
      (fun left c' => left = (c.current.code, scope) ∧
        c' = { c with chain, current := outer, enclosing := rest }) stopped := by
  refine Ends.of_ok rfl ⟨?_, ?_⟩
  · simp only [hpop]
  · simp only [hpop, henclosing, List.headD_cons, List.tail_cons]

/-- The body of a function is compiled in a scope of its own, which is closed again. -/
theorem body_then {name : Option String} {signature : Signature} {action : CompileM Unit}
    {body : List Stmt} {c c₁ : Compiler} {α : Type} {done : α → Compiler → Prop}
    {k : Code × Scope → CompileM α} (hbody : Closes action (.block body))
    (henv : c₁.env.withParameters signature.parameters = c.env.enter name signature)
    (hcode : c₁.current.code = .empty) (hlast : c₁.current.last = none)
    (henclosing : c₁.enclosing = c.current :: c.enclosing)
    (hk : ∀ c₂ E' t u scope chain code, Compiles (c.env.enter name signature) (.block body) t E' →
      t.Returns u → Code.Adds .empty (u.instrs 0) code → E'.chain.pop? = some (scope, chain) →
      c₂.env = { E' with chain, hoisted := c.env.hoisted } → c.Silent c₂ →
        Ends (k (code, scope)) c₂ done Reported) :
    Ends (defineParameters signature.parameters >>= fun _ => action >>= fun _ =>
      closeBody >>= fun _ => leave >>= k) c₁ done Reported := by
  refine Ends.bind (defineParameters_ends _ c₁) ?_
  rintro _ c₂ ⟨henv₂, hsilent⟩
  refine Ends.bind (hbody c₂) ?_
  rintro _ c₃ ⟨t, ht, hw, hr⟩
  rw [henv₂, henv] at ht
  refine Ends.bind (closeBody_ends hw hr (hsilent.last.trans hlast)) ?_
  rintro _ c₄ ⟨henv₄, u, hreturns, hw₄⟩
  -- the scope of the function is still open, with the one around it
  have hdepth : c₄.chain.depth = c.chain.depth + 1 := by
    have hbody := ht.depth_eq
    have henter := (Env.Grows.enter c.env name signature).chain.depth_eq
    rw [← henv₄] at hbody
    exact hbody.trans henter
  obtain ⟨scope, chain, hpop⟩ : ∃ scope chain, c₄.chain.pop? = some (scope, chain) := by
    cases hscopes : c₄.chain.enclosing with
    | nil => simp [ScopeChain.depth, hscopes] at hdepth
    | cons outer rest =>
        exact ⟨c₄.chain.current, ⟨outer, rest⟩, by simp only [ScopeChain.pop?, hscopes]⟩
  have houter : c₄.enclosing = c.current :: c.enclosing :=
    hw₄.enclosing.trans (hsilent.enclosing.trans henclosing)
  have hadds := hw₄.adds
  rw [hsilent.code, hcode] at hadds
  refine Ends.bind (leave_ends hpop houter) ?_
  rintro _ c₅ ⟨rfl, rfl⟩
  refine hk _ c₃.env t u scope chain _ ht hreturns hadds ?_ ?_ ⟨rfl, rfl, rfl⟩
  · rw [← henv₄]
    exact hpop
  · rw [← henv₄]
    rfl

theorem closure_follows {name : Option String} {signature : Signature} {body : List Stmt}
    {c c₂ : Compiler} {E' : Env} {t u : Assembly} {scope : Scope} {chain : ScopeChain} {code : Code}
    (ht : Compiles (c.env.enter name signature) (.block body) t E') (hreturns : t.Returns u)
    (hcode : Code.Adds .empty (u.instrs 0) code) (hpop : E'.chain.pop? = some (scope, chain))
    (henv : c₂.env = { E' with chain, hoisted := c.env.hoisted }) (hsilent : c.Silent c₂) :
    Ends (loadAll scope.captures >>= fun _ => get >>= fun c =>
      addConstant (.function ⟨c.pool.size,
        { code := code
          locals := scope.definitions
          parameters := signature.parameters.length
          name := name }⟩) >>= fun constant =>
        emit .closure [constant, scope.captures.length]) c₂
      (fun _ c' => ∃ t, Compiles c.env (.closure name signature body) t c'.env ∧ c.Writes t c')
      Reported := by
  refine Ends.bind (loadAll_ends scope.captures c₂) ?_
  rintro _ c₃ ⟨hreadable, henv₃, hw⟩
  refine Ends.get_bind ?_
  refine Ends.bind (addConstant_ends _ c₃) ?_
  rintro _ c₄ ⟨rfl, henv₄, hsilent₄⟩
  have hpool : c₃.pool = E'.pool := congrArg Env.pool (henv₃.trans henv)
  rw [henv] at hreadable
  have hrule := Compiles.closure ht hreturns hcode hpop hreadable
  refine emit_follows ?_ ((Writes.of_silent hsilent hw).then_silent hsilent₄) rfl
  rw [henv₄, henv₃, henv, hpool]
  exact hrule

theorem function_follows {name : Option String} {signature : Signature} {action : CompileM Unit}
    {body : List Stmt} (hbody : Closes action (.block body)) :
    Follows (function name signature action) (.closure name signature body) := by
  intro c
  rw [function]
  refine Ends.modify_bind ?_
  cases name with
  | none =>
      have henter : { c.env with chain := c.chain.push, hoisted := ∅ }.withParameters
          signature.parameters = c.env.enter none signature := rfl
      refine body_then hbody henter rfl rfl rfl ?_
      intro c₂ E' t u scope chain code ht hreturns hcode hpop henv hsilent
      exact closure_follows ht hreturns hcode hpop henv hsilent
  | some name =>
      let self := (c.chain.push.defineSelf name (some signature.ty)).2
      have henter : { c.env with chain := self, hoisted := ∅ }.withParameters
          signature.parameters = c.env.enter (some name) signature := rfl
      refine Ends.modify_bind ?_
      refine body_then hbody henter rfl rfl rfl ?_
      intro c₂ E' t u scope chain code ht hreturns hcode hpop henv hsilent
      exact closure_follows ht hreturns hcode hpop henv hsilent

/-! ## Statements -/

theorem Closes.expr {e : Expr} (he : Follows (expr none e) (.expr none e)) :
    Closes (stmt (.expr e)) (.stmt (.expr e)) := by
  intro c
  refine Ends.bind (he c) ?_
  rintro _ c₁ ⟨t, ht, hw⟩
  exact emit_closes (.expr ht) hw rfl

theorem Closes.declare {name : String} {isMutable : Bool} {ty : Option Ty} {e : Expr}
    (he : Follows (CompileM.expr (some name) e) (.expr (some name) e)) :
    Closes (stmt (.declare name isMutable ty (some e)))
      (.stmt (.declare name isMutable ty (some e))) := by
  intro c
  refine Ends.bind (checkFresh_ends name c) ?_
  rintro _ _ ⟨rfl, hfresh⟩
  refine Ends.bind (Ends.of_ok rfl ⟨rfl, rfl⟩ : Ends (declaredType ty e) c
    (fun declared c' => declared = (ty <|> c.typeOf e) ∧ c = c') Reported) ?_
  rintro _ _ ⟨rfl, rfl⟩
  refine Ends.bind (he c) ?_
  rintro _ c₁ ⟨t, ht, hw⟩
  refine Ends.bind (define_ends name isMutable _ c₁) ?_
  rintro x c₂ ⟨hdefine, hsilent⟩
  rw [← typeOf_env c e] at hdefine
  refine store_closes (fun i hi => ?_) (hw.then_silent hsilent)
  have hstore : (c₁.env.define name isMutable (ty <|> c.env.compiler.typeOf e)).1.store? =
      some i := by
    rw [hdefine]
    exact hi
  have hrule := Compiles.declare hfresh ht hstore
  rwa [hdefine] at hrule

theorem Closes.declareZero {name : String} {isMutable : Bool} {ty : Option Ty} :
    Closes (stmt (.declare name isMutable ty none)) (.stmt (.declare name isMutable ty none)) := by
  intro c
  refine Ends.bind (checkFresh_ends name c) ?_
  rintro _ _ ⟨rfl, hfresh⟩
  refine Ends.bind (follows_zeroValueOf ty c) ?_
  rintro _ c₁ ⟨t, ht, hw⟩
  refine Ends.bind (define_ends name isMutable ty c₁) ?_
  rintro x c₂ ⟨hdefine, hsilent⟩
  refine store_closes (fun i hi => ?_) (hw.then_silent hsilent)
  have hrule := Compiles.declareZero (i := i) hfresh ht (by rw [hdefine]; exact hi)
  rwa [hdefine] at hrule

theorem checkAssignable_ends (x : Symbol) (c : Compiler) :
    Ends (checkAssignable x) c (fun _ c' => c = c' ∧ x.isAssignable = true) Reported := by
  rw [checkAssignable]
  cases hs : x.storage with
  | captured | self | builtin => exact fail_reported
  | global | slot =>
      cases hm : x.isMutable with
      | false => exact fail_reported
      | true => exact Ends.of_pure ⟨rfl, by simp [Symbol.isAssignable, Storage.isDeclared, hs, hm]⟩

theorem Closes.assign {name : String} {e : Expr}
    (he : Follows (CompileM.expr none e) (.expr none e)) :
    Closes (stmt (.assign name e)) (.stmt (.assign name e)) := by
  intro c
  refine Ends.bind (resolve_ends name _ c) ?_
  rintro x c₁ ⟨hresolve, hsilent⟩
  refine Ends.bind (checkAssignable_ends x c₁) ?_
  rintro _ _ ⟨rfl, hassignable⟩
  refine Ends.bind (he c₁) ?_
  rintro _ c₂ ⟨t, ht, hw⟩
  exact store_closes (fun i hi => .assign hresolve hassignable ht hi) (.of_silent hsilent hw)

theorem Closes.setIndex {container position value : Expr}
    (hcontainer : Follows (CompileM.expr none container) (.expr none container))
    (hposition : Follows (CompileM.expr none position) (.expr none position))
    (hvalue : Follows (CompileM.expr none value) (.expr none value)) :
    Closes (stmt (.setIndex container position value))
      (.stmt (.setIndex container position value)) := by
  intro c
  refine Ends.bind (hcontainer c) ?_
  rintro _ c₁ ⟨t, ht, hw₁⟩
  refine Ends.bind (hposition c₁) ?_
  rintro _ c₂ ⟨u, hu, hw₂⟩
  refine Ends.bind (hvalue c₂) ?_
  rintro _ c₃ ⟨v, hv, hw₃⟩
  exact emit_closes (.setIndex ht hu hv) (hw₁.trans (hw₂.trans hw₃))
    (by simp only [Assembly.append_assoc])

theorem Closes.setField {object value : Expr} {field : String} {given : Option StructType}
    (hobject : Follows (CompileM.expr none object) (.expr none object))
    (hvalue : Follows (CompileM.expr none value) (.expr none value)) :
    Closes (stmt (.setField object field value given))
      (.stmt (.setField object field value given)) := by
  intro c
  refine Ends.bind (fieldIndex_ends object field given c) ?_
  rintro i _ ⟨rfl, hindex⟩
  refine Ends.bind (hobject c) ?_
  rintro _ c₁ ⟨t, ht, hw₁⟩
  refine Ends.bind (hvalue c₁) ?_
  rintro _ c₂ ⟨u, hu, hw₂⟩
  exact emit_closes (.setField hindex ht hu) (hw₁.trans hw₂) (Assembly.append_assoc t u _)

theorem checkInFunction_ends (c : Compiler) :
    Ends checkInFunction c (fun _ c' => c = c' ∧ c.chain.depth ≠ 0) Reported := by
  refine Ends.get_bind ?_
  by_cases hdepth : c.chain.depth = 0
  · rw [if_pos hdepth]
    exact fail_reported
  · rw [if_neg hdepth]
    exact Ends.of_pure ⟨rfl, hdepth⟩

theorem Closes.ret {e : Expr} (he : Follows (CompileM.expr none e) (.expr none e)) :
    Closes (stmt (.ret (some e))) (.stmt (.ret (some e))) := by
  intro c
  refine Ends.bind (checkInFunction_ends c) ?_
  rintro _ _ ⟨rfl, hdepth⟩
  refine Ends.bind (he c) ?_
  rintro _ c₁ ⟨t, ht, hw⟩
  exact emit_closes (.ret hdepth ht) hw rfl

theorem Closes.retNull : Closes (stmt (.ret none)) (.stmt (.ret none)) := by
  intro c
  refine Ends.bind (checkInFunction_ends c) ?_
  rintro _ _ ⟨rfl, hdepth⟩
  exact emit_closes (.retNull hdepth) (Silent.refl c).writes rfl

theorem checkCondition_ends (condition : Expr) (c : Compiler) :
    Ends (checkCondition condition) c
      (fun _ c' => c = c' ∧ c.env.compiler.typeOf condition = some .bool) Reported := by
  refine Ends.get_bind ?_
  rw [typeOf_env]
  split
  next hbool => exact Ends.of_pure ⟨rfl, hbool⟩
  next => exact fail_reported

theorem Closes.loop {condition : Expr} {body : List Stmt}
    (hcondition : Follows (CompileM.expr none condition) (.expr none condition))
    (hbody : Closes (stmts body) (.stmts body)) :
    Closes (stmt (.loop condition body)) (.stmt (.loop condition body)) := by
  intro c
  refine Ends.bind (checkCondition_ends condition c) ?_
  rintro _ _ ⟨rfl, hbool⟩
  refine Ends.bind (Ends.of_ok rfl ⟨rfl, rfl⟩ : Ends position c
    (fun start c' => start = c.current.code.size ∧ c = c') Reported) ?_
  rintro _ _ ⟨rfl, rfl⟩
  refine Ends.bind (hcondition c) ?_
  rintro _ c₁ ⟨t, ht, hw₁⟩
  refine Ends.bind (emitJump_ends .jumpNotTruthy c₁) ?_
  rintro _ c₂ ⟨rfl, hbranch⟩
  refine hbody.block_then ?_
  intro c₃ u hu hw₃ _
  refine Ends.bind (emit_ends .jump [c.current.code.size] c₃) ?_
  intro _ c₄ hjump
  have hall := hw₁.trans (hbranch.writes.trans (hw₃.trans hjump.writes))
  rw [hw₁.size]
  refine Ends.bind (patchJump_ends rfl hall) ?_
  rintro _ c₅ ⟨henv, -, hpatched⟩
  have hloop : c.Writes (.loop t u .done) c₅ := by
    refine hpatched.of_instrs_eq ?_
    rw [hall.size]
    simp [Assembly.instrs_append, Assembly.instrs, Nat.add_assoc]
  refine Ends.bind (emit_ends .pushNull [] c₅) ?_
  intro _ c₆ hop
  have henv₆ : c₆.env = c₃.env := hop.env.trans (henv.trans hjump.env)
  rw [hbranch.env, ← henv₆] at hu
  exact emit_closes (.loop hbool ht hu) (hloop.trans hop.writes) rfl

theorem Closes.function {header : FunctionHeader} {body : List Stmt}
    (hbody : Closes (stmts body) (.stmts body)) :
    Closes (stmt (.function header body)) (.stmt (.function header body)) := by
  intro c
  refine Ends.bind (declaredFunction_ends header c) ?_
  rintro x c₁ ⟨hbound, hsilent⟩
  refine Ends.bind (function_follows hbody.block c₁) ?_
  rintro _ c₂ ⟨t, ht, hw⟩
  exact store_closes (fun i hi => .declareFunction hbound ht hi) (.of_silent hsilent hw)

theorem Closes.structType {type : StructType} :
    Closes (stmt (.structType type)) (.stmt (.structType type)) := by
  intro c
  have hsilent : c.Silent { c with
      pool := c.pool.push (.structType ⟨c.pool.size, type⟩)
      structs := c.structs.insert type.name ⟨type, c.pool.size⟩ } := ⟨rfl, rfl, rfl⟩
  refine Ends.of_discard (Ends.of_ok rfl ?_)
  exact ⟨_, .structType type, hsilent.writes, .of_silent hsilent⟩

theorem Closes.inner {body : List Stmt} (hbody : Closes (stmts body) (.stmts body)) :
    Closes (stmt (.block body)) (.stmt (.block body)) := by
  intro c
  refine (hbody.block c).imp ?_
  rintro _ c' ⟨t, ht, hw⟩
  exact ⟨t, .inner ht, hw⟩

theorem Closes.nil : Closes (stmts []) (.stmts []) := by
  intro c
  exact Ends.of_pure ⟨_, .stmtsNil, (Silent.refl c).writes, .of_silent (.refl c)⟩

theorem Closes.cons {s : Stmt} {ss : List Stmt} (hs : Closes (stmt s) (.stmt s))
    (hss : Closes (stmts ss) (.stmts ss)) : Closes (stmts (s :: ss)) (.stmts (s :: ss)) := by
  intro c
  refine Ends.bind (hs c) ?_
  rintro _ c₁ ⟨t, ht, hw₁, hr₁⟩
  refine (hss c₁).imp ?_
  rintro _ c₂ ⟨u, hu, hw₂, hr₂⟩
  exact ⟨_, .stmtsCons ht hu, hw₁.trans hw₂, hr₁.trans hw₁ hr₂⟩

/-! ## All programs -/

theorem initializer_cons (f : String × Ty) (name : String) (e : Expr)
    (rest : List (String × Expr)) :
    initializer f ((name, e) :: rest) =
      if name = f.1 then expr none e else initializer f rest :=
  rfl

mutual

theorem expr_follows (bound : Option String) :
    ∀ e : Expr, Follows (expr bound e) (.expr bound e)
  | .int n => follows_constant fun _ => .int n
  | .float x => follows_constant fun _ => .float x
  | .str s => follows_constant fun _ => .str s
  | .bool true => follows_emit fun _ => .boolTrue
  | .bool false => follows_emit fun _ => .boolFalse
  | .null => follows_emit fun _ => .null
  | .ident _ => .ident
  | .unary _ e => .unary (expr_follows none e)
  | .binary _ l r => .binary (expr_follows none l) (expr_follows none r)
  | .cond condition yes none =>
      .cond (expr_follows none condition) (stmts_closes yes) (by simp)
  | .cond condition yes (some no) =>
      .cond (expr_follows none condition) (stmts_closes yes) fun _ h =>
        Option.some.inj h ▸ stmts_closes no
  | .function name signature body => by
      intro c
      refine (function_follows (stmts_closes body).block c).imp ?_
      rintro _ c' ⟨t, ht, hw⟩
      exact ⟨t, .function ht, hw⟩
  | .call callee arguments _ => .call (expr_follows none callee) (exprs_follows arguments)
  | .array elements => .array (exprs_follows elements)
  | .hash pairs => .hash (exprPairs_follows pairs)
  | .index container position =>
      .index (expr_follows none container) (expr_follows none position)
  | .struct _ initializers => .struct fun f => initializer_follows f initializers
  | .select object _ _ => .select (expr_follows none object)

theorem exprs_follows : ∀ es : List Expr, Follows (exprs es) (.exprs es)
  | [] => fun c => by
      exact Ends.of_pure ⟨_, .exprsNil, (Silent.refl c).writes⟩
  | e :: es => fun c => by
      refine Ends.bind (expr_follows none e c) ?_
      rintro _ c₁ ⟨t, ht, hw₁⟩
      refine (exprs_follows es c₁).imp ?_
      rintro _ c₂ ⟨u, hu, hw₂⟩
      exact ⟨_, .exprsCons ht hu, hw₁.trans hw₂⟩

theorem exprPairs_follows : ∀ ps : List (Expr × Expr), Follows (exprPairs ps) (.pairs ps)
  | [] => fun c => by
      exact Ends.of_pure ⟨_, .pairsNil, (Silent.refl c).writes⟩
  | (k, v) :: ps => fun c => by
      refine Ends.bind (expr_follows none k c) ?_
      rintro _ c₁ ⟨t, ht, hw₁⟩
      refine Ends.bind (expr_follows none v c₁) ?_
      rintro _ c₂ ⟨u, hu, hw₂⟩
      refine (exprPairs_follows ps c₂).imp ?_
      rintro _ c₃ ⟨w, hps, hw₃⟩
      exact ⟨_, .pairsCons ht hu hps, hw₁.trans (hw₂.trans hw₃)⟩

theorem initializer_follows (f : String × Ty) : ∀ initializers : List (String × Expr),
    Follows (initializer f initializers) (.field f initializers)
  | [] => fun c => by
      refine (follows_zeroValue f.2 c).imp ?_
      rintro _ c' ⟨t, ht, hw⟩
      exact ⟨t, .fieldZero ht, hw⟩
  | (name, e) :: rest => fun c => by
      rw [initializer_cons]
      by_cases hname : name = f.1
      · rw [if_pos hname]
        refine (expr_follows none e c).imp ?_
        rintro _ c' ⟨t, ht, hw⟩
        exact ⟨t, hname ▸ .fieldGiven ht, hw⟩
      · rw [if_neg hname]
        refine (initializer_follows f rest c).imp ?_
        rintro _ c' ⟨t, ht, hw⟩
        exact ⟨t, .fieldLater hname ht, hw⟩

theorem stmt_closes : ∀ s : Stmt, Closes (stmt s) (.stmt s)
  | .expr e => .expr (expr_follows none e)
  | .declare name _ _ (some e) => .declare (expr_follows (some name) e)
  | .declare _ _ _ none => .declareZero
  | .assign _ e => .assign (expr_follows none e)
  | .setIndex container position value =>
      .setIndex (expr_follows none container) (expr_follows none position) (expr_follows none value)
  | .setField object _ value _ =>
      .setField (expr_follows none object) (expr_follows none value)
  | .ret (some e) => .ret (expr_follows none e)
  | .ret none => .retNull
  | .loop condition body => .loop (expr_follows none condition) (stmts_closes body)
  | .function _ body => .function (stmts_closes body)
  | .structType _ => .structType
  | .block body => .inner (stmts_closes body)

theorem stmts_closes : ∀ ss : List Stmt, Closes (stmts ss) (.stmts ss)
  | [] => .nil
  | s :: ss => .cons (stmt_closes s) (stmts_closes ss)

end

/-- The compiler refuses a unit or follows the rules for its block. -/
theorem block_closes (body : List Stmt) : Closes (block body) (.block body) :=
  (stmts_closes body).block

end CompileM

/-! ## Units -/

/-- A unit is compiled by the rules. -/
structure CompilesUnit (E : Env) (program : Program) (t : Assembly) (E' : Env) (unit : Bytecode) :
    Prop where
  rules : Compiles E (.block program) t E'
  constants : unit.constants = E'.pool
  contains : unit.code.Contains 0 (t.instrs 0)
  size : unit.code.size = t.size

/-- Compiling a unit refuses it with a report or follows the rules. -/
theorem Compiler.compile_cases (scope : Scope) (pool : Array Value) (program : Program) :
    (∃ e c, (resume scope pool).compile program = (.error (.error e), c)) ∨
      ∃ unit c t E', (resume scope pool).compile program = (.ok unit, c) ∧
        c.pool = E'.pool ∧ c.chain = E'.chain ∧
        CompilesUnit (resume scope pool).env program t E' unit := by
  have hends := CompileM.block_closes program (resume scope pool)
  unfold compile
  cases hblock : CompileM.block program (resume scope pool) with
  | error stop c =>
      obtain ⟨e, rfl⟩ := hends.error hblock
      exact .inl ⟨e, _, rfl⟩
  | ok u c =>
      obtain ⟨t, hcompiles, hwrites, -⟩ := hends.ok hblock
      have hsize : c.current.code.size = t.size := by
        rw [hwrites.size]
        exact Nat.zero_add _
      exact .inr ⟨_, _, t, c.env, rfl, rfl, rfl, hcompiles, rfl, hwrites.adds.contains, hsize⟩

/-- A unit that is accepted follows the rules. -/
theorem Compiler.compilesUnit_of_compile {scope : Scope} {pool : Array Value} {program : Program}
    {unit : Bytecode} {c : Compiler}
    (h : (resume scope pool).compile program = (.ok unit, c)) :
    ∃ t E', CompilesUnit (resume scope pool).env program t E' unit ∧ c.chain = E'.chain := by
  rcases compile_cases scope pool program with
    ⟨e, c', hc⟩ | ⟨unit', c', t, E', hc, -, hchain, hunit⟩
  · rw [h] at hc
    cases hc
  · rw [h] at hc
    cases hc
    exact ⟨t, E', hunit, hchain⟩

/-- A program that is compiled alone follows the rules. -/
theorem exists_compilesUnit {program : Program} {unit : Bytecode}
    (h : compileProgram program = .ok unit) :
    ∃ t E', CompilesUnit Compiler.new.env program t E' unit := by
  obtain ⟨t, E', hunit, -⟩ := Compiler.compilesUnit_of_compile (Prod.ext h rfl)
  exact ⟨t, E', hunit⟩

end ScriptEngine
