import ScriptEngine.Proofs.Compile.Following

/-!
# Compilations as sequences of steps

Whatever is compiled, and whether it is accepted or refused, the compiler gets from its first state
to its last one by steps of six kinds and by declarations.  The steps change the code under
construction, add a constant, make a struct type known, resolve a name, open a function or close
one.  A declaration binds a name that was found free, in the same scope, at some point before:
between the check and the declaration, the initializer is compiled.  What all of these keep holds
after every compilation, also after one that breaks off in the middle of a function.
-/

namespace ScriptEngine

namespace Compiler

/-- One step of a compilation. -/
inductive Step : Compiler → Compiler → Prop
  | write (c : Compiler) (code : OpenCode) : Step c { c with current := code }
  | keep (c : Compiler) {v : Value} (other : v.kind ≠ .structType) :
      Step c { c with pool := c.pool.push v }
  | register (c : Compiler) (type : StructType) :
      Step c { c with
        pool := c.pool.push (.structType ⟨c.pool.size, type⟩)
        structs := c.structs.insert type.name ⟨type, c.pool.size⟩ }
  | resolve {c : Compiler} {name : String} {r : Resolution} {chain : ScopeChain}
      (found : c.chain.resolve? name = some (r, chain)) : Step c { c with chain }
  /-- The scope of a function is opened, with the function itself and its parameters bound. -/
  | enter (c : Compiler) (name : Option String) (signature : Signature) :
      Step c { c with
        chain := (c.env.enter name signature).chain
        current := .empty
        enclosing := c.current :: c.enclosing }
  | leave (c : Compiler) :
      Step c { c with
        chain := (c.chain.pop?.getD (.empty false, c.chain)).2
        current := c.enclosing.headD .empty
        enclosing := c.enclosing.tail }

/-- The second state is reached from the first one by steps and declarations. -/
inductive Reaches : Compiler → Compiler → Prop
  | refl {c : Compiler} : Reaches c c
  | tail {c c₁ c₂ : Compiler} (earlier : Reaches c c₁) (last : c₁.Step c₂) : Reaches c c₂
  /-- A name is declared that was free at an earlier point, with as many functions around. -/
  | declare {c c₁ c₂ : Compiler} {name : String} (isMutable : Bool) (ty : Option Ty)
      (earlier : Reaches c c₁) (free : c₁.chain.conflict? name = none) (between : Reaches c₁ c₂)
      (depth : c₂.chain.depth = c₁.chain.depth) :
      Reaches c { c₂ with chain := (c₂.chain.define name isMutable ty).2 }

theorem Step.reaches {c c' : Compiler} (h : c.Step c') : c.Reaches c' :=
  .tail .refl h

namespace Reaches

theorem trans {c₁ c₂ c₃ : Compiler} (h₁ : c₁.Reaches c₂) (h₂ : c₂.Reaches c₃) :
    c₁.Reaches c₃ := by
  induction h₂ with
  | refl => exact h₁
  | tail _ last ih => exact .tail (ih h₁) last
  | declare isMutable ty _ free between depth ih _ =>
      exact .declare isMutable ty (ih h₁) free between depth

/-- What every step and every declaration keeps is kept on the way. -/
theorem keeps {p : Compiler → Prop} {c c' : Compiler} (h : c.Reaches c')
    (hstep : ∀ c c', c.Step c' → p c → p c')
    (hdefine : ∀ (c : Compiler) name isMutable ty, p c →
      p { c with chain := (c.chain.define name isMutable ty).2 }) (hc : p c) : p c' := by
  induction h with
  | refl => exact hc
  | tail _ last ih => exact hstep _ _ last (ih hc)
  | declare _ _ _ _ _ _ ihEarlier ihBetween => exact hdefine _ _ _ _ (ihBetween (ihEarlier hc))

end Reaches

end Compiler

open Compiler

namespace CompileM

/-- Wherever a computation is started, it ends in a state that is reached by steps, also if it stops
early. -/
def Steps {α : Type} (x : CompileM α) : Prop :=
  ∀ c : Compiler, Ends x c (fun _ => c.Reaches) (fun _ => c.Reaches)

/-! ## Putting computations together -/

namespace Steps

variable {α β : Type}

theorem pure (a : α) : Steps (Pure.pure a) :=
  fun _ => Ends.of_pure .refl

theorem get : Steps (MonadState.get : CompileM Compiler) :=
  fun _ => Ends.of_get .refl

theorem throw (stop : Stop CompileError) : Steps (MonadExcept.throw stop : CompileM α) :=
  fun _ => Ends.of_throw .refl

theorem bind {x : CompileM α} {f : α → CompileM β} (hx : Steps x) (hf : ∀ a, Steps (f a)) :
    Steps (x >>= f) := by
  intro c
  refine Ends.bind (hx c) ?_
  intro a c₁ h₁
  exact (hf a c₁).mono (fun _ _ h₂ => h₁.trans h₂) fun _ _ h₂ => h₁.trans h₂

theorem discard {x : CompileM α} (hx : Steps x) : Steps (discard x) :=
  fun c => Ends.of_discard (hx c)

/-- A computation that always does one step. -/
theorem of_step {x : CompileM α} {result : Compiler → α} {next : Compiler → Compiler}
    (hx : ∀ c, x c = .ok (result c) (next c)) (hstep : ∀ c : Compiler, c.Step (next c)) : Steps x :=
  fun c => Ends.of_ok (hx c) (hstep c).reaches

/-- A computation that only looks at the state. -/
theorem of_look {x : CompileM α} {result : Compiler → α} (hx : ∀ c, x c = .ok (result c) c) :
    Steps x :=
  fun c => Ends.of_ok (hx c) .refl

theorem ite {p : Prop} [Decidable p] {x y : CompileM α} (hx : Steps x) (hy : Steps y) :
    Steps (if p then x else y) := by
  split
  · exact hx
  · exact hy

end Steps

/-! ## Steps of writing -/

theorem steps_fail {α : Type} (e : CompileError) : Steps (fail e : CompileM α) :=
  .throw _

theorem steps_modifyCurrent (change : OpenCode → OpenCode) : Steps (modifyCurrent change) :=
  .of_step (fun _ => rfl) fun c => .write c (change c.current)

theorem steps_position : Steps position :=
  .of_look fun _ => rfl

theorem steps_lastIs (op : Opcode) : Steps (lastIs op) :=
  .of_look fun _ => rfl

theorem steps_emit (op : Opcode) (ns : List Nat) : Steps (emit op ns) := by
  rw [emit]
  split
  · exact steps_modifyCurrent _
  · exact steps_fail _

theorem steps_overwrite (offset : Nat) (bytes : List UInt8) : Steps (overwrite offset bytes) :=
  .bind .get fun _ => .ite (steps_modifyCurrent _) (.throw _)

theorem steps_lastToReturn : Steps lastToReturn := by
  refine .bind .get fun c => ?_
  split
  · exact .bind (steps_overwrite _ _) fun _ => steps_modifyCurrent _
  · exact .pure _

theorem steps_emitJump (op : Opcode) : Steps (emitJump op) :=
  .bind steps_position fun _ => .bind (steps_emit _ _) fun _ => .pure _

theorem steps_patchJump (offset : Nat) : Steps (patchJump offset) := by
  refine .bind steps_position fun _ => .bind .get fun _ => ?_
  split
  · exact .throw _
  · split
    · exact steps_fail _
    · split
      · exact steps_fail _
      · exact steps_overwrite _ _

theorem steps_closeBranch : Steps closeBranch :=
  .bind (steps_lastIs _) fun _ => .ite (steps_modifyCurrent _) (steps_emit _ _)

theorem steps_closeBody : Steps closeBody := by
  have hreturn : Steps (do if !(← lastIs .returnValue) then emit .returnNull []) :=
    .bind (steps_lastIs _) fun _ => .ite (steps_emit _ _) (.pure _)
  refine .bind (steps_lastIs _) fun isPop => ?_
  cases isPop with
  | true => exact .bind steps_lastToReturn fun _ => hreturn
  | false => exact hreturn

/-! ## Steps of keeping constants and names -/

theorem steps_addConstant {v : Value} (hv : v.kind ≠ .structType) : Steps (addConstant v) :=
  .of_step (fun _ => rfl) fun c => .keep c hv

theorem steps_emitConstant {v : Value} (hv : v.kind ≠ .structType) : Steps (emitConstant v) :=
  .bind (steps_addConstant hv) fun _ => steps_emit _ _

theorem steps_registerStruct (type : StructType) : Steps (registerStruct type) :=
  .of_step (fun _ => rfl) fun c => .register c type

theorem steps_structConstant (type : StructType) : Steps (structConstant type) := by
  refine .bind .get fun c => ?_
  split
  · exact .pure _
  · exact steps_registerStruct type

/-- What follows a check may rely on the name being free. -/
theorem steps_checkFresh {α : Type} {name : String} {rest : Unit → CompileM α}
    (hrest : ∀ c : Compiler, c.chain.conflict? name = none →
      Ends (rest ()) c (fun _ => c.Reaches) fun _ => c.Reaches) :
    Steps (checkFresh name >>= rest) := by
  intro c
  have hcheck : Ends (checkFresh name) c (fun _ c' => c = c' ∧ c.chain.conflict? name = none)
      fun _ => c.Reaches := by
    refine Ends.get_bind ?_
    by_cases hconflict : (c.chain.conflict? name).isSome = true
    · rw [if_pos hconflict]
      exact Ends.of_throw .refl
    · rw [if_neg hconflict]
      exact Ends.of_pure ⟨rfl, by simpa using hconflict⟩
  refine hcheck.bind ?_
  rintro _ _ ⟨rfl, hfree⟩
  exact hrest c hfree

/-- A name that was free is declared. -/
theorem declare_then {α : Type} {name : String} {c c₁ : Compiler} {rest : Symbol → CompileM α}
    (isMutable : Bool) (ty : Option Ty) (free : c.chain.conflict? name = none)
    (hreach : c.Reaches c₁) (hdepth : c₁.chain.depth = c.chain.depth)
    (hrest : ∀ x, Steps (rest x)) :
    Ends (define name isMutable ty >>= rest) c₁ (fun _ => c.Reaches) fun _ => c.Reaches := by
  have hdeclared : c.Reaches { c₁ with chain := (c₁.chain.define name isMutable ty).2 } :=
    .declare isMutable ty .refl free hreach hdepth
  refine Ends.bind_of_ok rfl ?_
  exact (hrest _ _).mono (fun _ _ h => hdeclared.trans h) fun _ _ h => hdeclared.trans h

theorem steps_resolve (name : String) (otherwise : CompileError) :
    Steps (resolve name otherwise) := by
  intro c
  cases h : c.chain.resolve? name with
  | none =>
      have hrun : resolve name otherwise c = .error (.error otherwise) c := by
        simp only [resolve, h]
      exact Ends.of_error hrun .refl
  | some found =>
      have hrun : resolve name otherwise c = .ok found.1.symbol { c with chain := found.2 } := by
        simp only [resolve, h]
      exact Ends.of_ok hrun (Step.resolve h).reaches

theorem steps_load (x : Symbol) : Steps (load x) :=
  .bind .get fun _ => .ite (steps_fail _) (steps_emit _ _)

theorem steps_use (name : String) (otherwise : CompileError) :
    Steps (do load (← resolve name otherwise)) :=
  .bind (steps_resolve _ _) fun _ => steps_load _

theorem steps_loadAll : ∀ xs : List Symbol, Steps (loadAll xs)
  | [] => .pure _
  | x :: xs => .bind (steps_load x) fun _ => steps_loadAll xs

theorem steps_store (x : Symbol) : Steps (store x) := by
  rw [store]
  split <;> first | exact steps_emit _ _ | exact steps_fail _

theorem steps_hoist : ∀ ss : List Stmt, Steps (hoist ss)
  | [] => .pure _
  | .function header _ :: rest =>
      steps_checkFresh fun _ hfree =>
        declare_then false (some header.signature.ty) hfree .refl rfl fun _ =>
          .bind (steps_modifyCurrent _) fun _ => steps_hoist rest
  | .expr _ :: rest | .declare _ _ _ _ :: rest | .assign _ _ :: rest | .setIndex _ _ _ :: rest
  | .setField _ _ _ _ :: rest | .ret _ :: rest | .loop _ _ :: rest | .structType _ :: rest
  | .block _ :: rest => steps_hoist rest

theorem steps_declaredFunction (header : FunctionHeader) : Steps (declaredFunction header) := by
  refine .bind .get fun c => .bind (steps_modifyCurrent _) fun _ => ?_
  split
  · exact .pure _
  · refine steps_checkFresh fun c hfree => ?_
    exact Ends.of_ok rfl (.declare _ _ .refl hfree .refl rfl)

mutual

theorem steps_zeroValue : ∀ ty : Ty, Steps (zeroValue ty)
  | .int | .float | .string => by
      simp only [zeroValue]
      exact steps_emitConstant (by simp [Value.kind])
  | .bool | .null | .array _ | .hash _ _ | .func _ _ => by
      simp only [zeroValue]
      exact steps_emit _ _
  | .struct _ fields => by
      rw [zeroValue]
      exact .bind (steps_zeroFields fields) fun _ =>
        .bind (steps_structConstant _) fun _ => steps_emit _ _

theorem steps_zeroFields : ∀ fs : List (String × Ty), Steps (zeroFields fs)
  | [] => by
      rw [zeroFields]
      exact .pure _
  | (_, ty) :: fs => by
      rw [zeroFields]
      exact .bind (steps_zeroValue ty) fun _ => steps_zeroFields fs

end

theorem steps_zeroValueOf : ∀ ty : Option Ty, Steps (zeroValueOf ty)
  | some ty => steps_zeroValue ty
  | none => steps_emit .pushNull []

/-! ## Checks -/

theorem steps_checkAssignable (x : Symbol) : Steps (checkAssignable x) := by
  rw [checkAssignable]
  split
  · exact steps_fail _
  · exact steps_fail _
  · exact steps_fail _
  · exact .ite (.pure _) (steps_fail _)
  · exact .ite (.pure _) (steps_fail _)

theorem steps_fieldIndex (object : Expr) (field : String) (given : Option StructType) :
    Steps (fieldIndex object field given) := by
  refine .bind .get fun c => ?_
  split
  · exact .pure _
  · exact steps_fail _

theorem steps_literalType (typeName : String) (initializers : List (String × Expr)) :
    Steps (literalType typeName initializers) := by
  refine .bind .get fun c => ?_
  split
  · exact steps_fail _
  · split
    · exact steps_fail _
    · exact .pure _

theorem steps_checkCondition (condition : Expr) : Steps (checkCondition condition) := by
  refine .bind .get fun c => ?_
  split
  · exact .pure _
  · exact steps_fail _

theorem steps_checkInFunction : Steps checkInFunction :=
  .bind .get fun _ => .ite (steps_fail _) (.pure _)

/-! ## All programs -/

theorem defineParameters_eq (parameters : List (String × Ty)) (c : Compiler) :
    defineParameters parameters c =
      .ok () { c with chain := (c.env.withParameters parameters).chain } := by
  induction parameters generalizing c with
  | nil => rfl
  | cons p parameters ih => exact ih { c with chain := (c.chain.define p.1 false (some p.2)).2 }

/-- The body of a function, from its parameters to the end of its scope. -/
theorem body_ends {α : Type} {parameters : List (String × Ty)} {body : CompileM Unit}
    {rest : Code × Scope → CompileM α} {c c₁ : Compiler} (hbody : Steps body)
    (hrest : ∀ left, Steps (rest left))
    (hstep : c.Step { c₁ with chain := (c₁.env.withParameters parameters).chain }) :
    Ends (defineParameters parameters >>= fun _ => body >>= fun _ => closeBody >>= fun _ =>
      leave >>= rest) c₁ (fun _ => c.Reaches) fun _ => c.Reaches := by
  refine Ends.bind_of_ok (defineParameters_eq parameters c₁) ?_
  have hafter : Steps (body >>= fun _ => closeBody >>= fun _ => leave >>= rest) :=
    .bind hbody fun _ => .bind steps_closeBody fun _ => .bind (.of_step (fun _ => rfl) .leave) hrest
  exact (hafter _).mono (fun _ _ h => hstep.reaches.trans h) fun _ _ h => hstep.reaches.trans h

theorem steps_function {name : Option String} {signature : Signature} {body : CompileM Unit}
    (hbody : Steps body) : Steps (function name signature body) := by
  have hclosure (function : Compiler → Marked Function) (captures : List Symbol) :
      Steps (loadAll captures >>= fun _ => get >>= fun c =>
        addConstant (.function (function c)) >>= fun k => emit .closure [k, captures.length]) :=
    .bind (steps_loadAll _) fun _ => .bind .get fun _ =>
      .bind (steps_addConstant (by simp [Value.kind])) fun _ => steps_emit _ _
  intro c
  cases name with
  | none =>
      exact Ends.modify_bind (body_ends hbody (fun _ => hclosure _ _) (.enter c none signature))
  | some name =>
      exact Ends.modify_bind (Ends.modify_bind
        (body_ends hbody (fun _ => hclosure _ _) (.enter c (some name) signature)))

theorem steps_fields {initializers : List (String × Expr)}
    (h : ∀ f, Steps (initializer f initializers)) :
    ∀ fs : List (String × Ty), Steps (fs.forM fun f => initializer f initializers)
  | [] => .pure _
  | f :: fs => .bind (h f) fun _ => steps_fields h fs

/-- A name that was free is declared after the initializer. -/
theorem initialize_ends {name : String} {value : CompileM Unit} {p : Phrase} {c : Compiler}
    (isMutable : Bool) (ty : Option Ty) (free : c.chain.conflict? name = none)
    (hvalue : Steps value) (hfollows : Follows value p) :
    Ends (value >>= fun _ => define name isMutable ty >>= store) c (fun _ => c.Reaches)
      fun _ => c.Reaches := by
  cases hrun : value c with
  | error stop c₁ => exact Ends.bind_of_error hrun ((hvalue c).error hrun)
  | ok _ c₁ =>
      obtain ⟨t, hcompiles, -⟩ := (hfollows c).ok hrun
      exact Ends.bind_of_ok hrun
        (declare_then isMutable ty free ((hvalue c).ok hrun) hcompiles.depth_eq steps_store)

mutual

theorem steps_expr (bound : Option String) : ∀ e : Expr, Steps (expr bound e)
  | .int _ | .float _ | .str _ => steps_emitConstant (by simp [Value.kind])
  | .bool true | .bool false | .null => steps_emit _ _
  | .ident name => steps_use name _
  | .unary _ e => by
      have hoperand := steps_expr none e
      exact .bind hoperand fun _ => steps_emit _ _
  | .binary op l r => by
      have hl := steps_expr none l
      have hr := steps_expr none r
      refine .ite ?_ ?_
      · exact .bind hr fun _ => .bind hl fun _ => steps_emit _ _
      · exact .bind hl fun _ => .bind hr fun _ => steps_emit _ _
  | .cond condition yes none => by
      have hcondition := steps_expr none condition
      have hyes := steps_stmts yes
      refine .bind hcondition fun _ => .bind (steps_emitJump _) fun toAlternative => ?_
      refine .bind (steps_hoist yes) fun _ => .bind hyes fun _ => ?_
      refine .bind steps_closeBranch fun _ => .bind (steps_emitJump _) fun toEnd => ?_
      refine .bind (steps_patchJump _) fun _ => ?_
      exact .bind (steps_emit _ _) fun _ => steps_patchJump _
  | .cond condition yes (some no) => by
      have hcondition := steps_expr none condition
      have hyes := steps_stmts yes
      have hno := steps_stmts no
      refine .bind hcondition fun _ => .bind (steps_emitJump _) fun toAlternative => ?_
      refine .bind (steps_hoist yes) fun _ => .bind hyes fun _ => ?_
      refine .bind steps_closeBranch fun _ => .bind (steps_emitJump _) fun toEnd => ?_
      refine .bind (steps_patchJump _) fun _ => ?_
      refine .bind (steps_hoist no) fun _ => .bind hno fun _ => ?_
      exact .bind steps_closeBranch fun _ => steps_patchJump _
  | .function _ _ body => by
      have hbody := steps_stmts body
      exact steps_function (.bind (steps_hoist body) fun _ => hbody)
  | .call callee arguments overload => by
      have hcallee := steps_expr none callee
      have hvalues : Steps (do exprs arguments; emit .call [arguments.length]) :=
        .bind (steps_exprs arguments) fun _ => steps_emit _ _
      rw [expr_call]
      cases callee.calleeName? overload with
      | some name => exact .bind (steps_resolve _ _) fun _ => .bind (steps_load _) fun _ => hvalues
      | none => exact .bind hcallee fun _ => hvalues
  | .array elements => by
      have helements := steps_exprs elements
      exact .bind helements fun _ => steps_emit _ _
  | .hash pairs => by
      have hpairs := steps_exprPairs pairs
      exact .bind hpairs fun _ => steps_emit _ _
  | .index container position => by
      have hcontainer := steps_expr none container
      have hposition := steps_expr none position
      exact .bind hcontainer fun _ => .bind hposition fun _ => steps_emit _ _
  | .struct _ initializers => by
      have hinitializer (f : String × Ty) := steps_initializer f initializers
      refine .bind (steps_literalType _ _) fun st => ?_
      refine .bind (steps_fields hinitializer st.fields) fun _ => ?_
      exact .bind (steps_structConstant st) fun _ => steps_emit _ _
  | .select object _ _ => by
      have hobject := steps_expr none object
      refine .bind (steps_fieldIndex _ _ _) fun i => ?_
      exact .bind hobject fun _ => steps_emit _ _

theorem steps_exprs : ∀ es : List Expr, Steps (exprs es)
  | [] => .pure _
  | e :: es => by
      have hhead := steps_expr none e
      have htail := steps_exprs es
      exact .bind hhead fun _ => htail

theorem steps_exprPairs : ∀ ps : List (Expr × Expr), Steps (exprPairs ps)
  | [] => .pure _
  | (k, v) :: ps => by
      have hkey := steps_expr none k
      have hvalue := steps_expr none v
      have htail := steps_exprPairs ps
      exact .bind hkey fun _ => .bind hvalue fun _ => htail

theorem steps_initializer (f : String × Ty) :
    ∀ initializers : List (String × Expr), Steps (initializer f initializers)
  | [] => steps_zeroValue f.2
  | (_, e) :: rest => by
      have hvalue := steps_expr none e
      have htail := steps_initializer f rest
      exact .ite hvalue htail

theorem steps_stmt : ∀ s : Stmt, Steps (stmt s)
  | .expr e => by
      have hvalue := steps_expr none e
      exact .bind hvalue fun _ => steps_emit _ _
  | .declare name isMutable _ (some e) => by
      have hvalue := steps_expr (some name) e
      refine steps_checkFresh fun c hfree => Ends.bind_of_ok rfl ?_
      exact initialize_ends isMutable _ hfree hvalue (expr_follows (some name) e)
  | .declare _ isMutable ty none => by
      refine steps_checkFresh fun c hfree => ?_
      exact initialize_ends isMutable ty hfree (steps_zeroValueOf ty) (follows_zeroValueOf ty)
  | .assign _ e => by
      have hvalue := steps_expr none e
      refine .bind (steps_resolve _ _) fun x => .bind (steps_checkAssignable x) fun _ => ?_
      exact .bind hvalue fun _ => steps_store x
  | .setIndex container position value => by
      have hcontainer := steps_expr none container
      have hposition := steps_expr none position
      have hvalue := steps_expr none value
      refine .bind hcontainer fun _ => .bind hposition fun _ => ?_
      exact .bind hvalue fun _ => steps_emit _ _
  | .setField object _ value _ => by
      have hobject := steps_expr none object
      have hvalue := steps_expr none value
      refine .bind (steps_fieldIndex _ _ _) fun i => .bind hobject fun _ => ?_
      exact .bind hvalue fun _ => steps_emit _ _
  | .ret (some e) => by
      have hvalue := steps_expr none e
      refine .bind steps_checkInFunction fun _ => ?_
      exact .bind hvalue fun _ => steps_emit _ _
  | .ret none => .bind steps_checkInFunction fun _ => steps_emit _ _
  | .loop condition body => by
      have hcondition := steps_expr none condition
      have hbody := steps_stmts body
      refine .bind (steps_checkCondition _) fun _ => .bind steps_position fun start => ?_
      refine .bind hcondition fun _ => .bind (steps_emitJump _) fun toEnd => ?_
      refine .bind (steps_hoist body) fun _ => .bind hbody fun _ => ?_
      refine .bind (steps_emit _ _) fun _ => .bind (steps_patchJump _) fun _ => ?_
      exact .bind (steps_emit _ _) fun _ => steps_emit _ _
  | .function header body => by
      have hbody := steps_stmts body
      refine .bind (steps_declaredFunction header) fun x => ?_
      refine .bind (steps_function ?_) fun _ => steps_store x
      exact .bind (steps_hoist body) fun _ => hbody
  | .structType type => .discard (steps_registerStruct type)
  | .block body => by
      have hbody := steps_stmts body
      exact .bind (steps_hoist body) fun _ => hbody

theorem steps_stmts : ∀ ss : List Stmt, Steps (stmts ss)
  | [] => .pure _
  | s :: ss => by
      have hhead := steps_stmt s
      have htail := steps_stmts ss
      exact .bind hhead fun _ => htail

end

/-- The compilation of a block goes by steps. -/
theorem steps_block (body : List Stmt) : Steps (block body) :=
  .bind (steps_hoist body) fun _ => steps_stmts body

end CompileM

end ScriptEngine
