import ScriptEngine.Proofs.Compile.Following

/-!
# Compilations written out

A compilation changes the codes under construction in seven ways, by an `Edit`: it writes an
instruction or a jump whose target is not known yet, fills in a target, takes the last instruction
back or turns it into a return, and opens or closes a function.  Between two edits it only looks, at
names, types and constants.  A `Procedure` is a compilation written out in this way, so that one can
speak about what happens on the way.  A `Plan` of a computation is a procedure that runs like it,
and every part of the compiler has a plan that follows it step by step (`CompileM.planBlock`).
-/

namespace ScriptEngine

/-! ## Looking -/

/-- The codes under construction and the number of open functions are the same. -/
structure Compiler.Unedited (c c' : Compiler) : Prop extends c.Silent c' where
  previous : c'.current.previous = c.current.previous
  depth : c'.chain.depth = c.chain.depth

namespace Compiler.Unedited

theorem refl (c : Compiler) : c.Unedited c :=
  ⟨.refl c, rfl, rfl⟩

theorem trans {c₁ c₂ c₃ : Compiler} (h₁ : c₁.Unedited c₂) (h₂ : c₂.Unedited c₃) :
    c₁.Unedited c₃ :=
  ⟨h₁.toSilent.trans h₂.toSilent, h₂.previous.trans h₁.previous, h₂.depth.trans h₁.depth⟩

end Compiler.Unedited

namespace CompileM

/-- However the computation ends, the codes under construction are as they were, and it does not
crash. -/
def LeavesCode {α : Type} (x : CompileM α) : Prop :=
  ∀ c : Compiler, Ends x c (fun _ c' => c.Unedited c') fun stop c' =>
    c.Unedited c' ∧ ∃ e, stop = .error e

namespace LeavesCode

variable {α β : Type}

theorem pure (a : α) : LeavesCode (Pure.pure a) :=
  fun c => Ends.of_pure (.refl c)

theorem fail (e : CompileError) : LeavesCode (CompileM.fail e : CompileM α) :=
  fun c => Ends.of_throw ⟨.refl c, e, rfl⟩

theorem get : LeavesCode (MonadState.get : CompileM Compiler) :=
  fun c => Ends.of_get (.refl c)

theorem bind {x : CompileM α} {f : α → CompileM β} (hx : LeavesCode x)
    (hf : ∀ a, LeavesCode (f a)) :
    LeavesCode (x >>= f) := by
  intro c
  refine (hx c).bind fun a c₁ h₁ => ?_
  exact (hf a c₁).mono (fun _ _ h₂ => h₁.trans h₂) fun _ _ h₂ => ⟨h₁.trans h₂.1, h₂.2⟩

theorem discard {x : CompileM α} (hx : LeavesCode x) : LeavesCode (discard x) :=
  fun c => Ends.of_discard (hx c)

theorem ite {p : Prop} [Decidable p] {x y : CompileM α} (hx : LeavesCode x) (hy : LeavesCode y) :
    LeavesCode (if p then x else y) := by
  split
  · exact hx
  · exact hy

/-- A computation that always changes the state in one way. -/
theorem of_ok {x : CompileM α} {result : Compiler → α} {next : Compiler → Compiler}
    (hx : ∀ c, x c = .ok (result c) (next c)) (hnext : ∀ c : Compiler, c.Unedited (next c)) :
    LeavesCode x :=
  fun c => Ends.of_ok (hx c) (hnext c)

end LeavesCode

theorem leavesCode_position : LeavesCode position :=
  .of_ok (fun _ => rfl) .refl

theorem leavesCode_lastIs (op : Opcode) : LeavesCode (lastIs op) :=
  .of_ok (fun _ => rfl) .refl

theorem leavesCode_addConstant (v : Value) : LeavesCode (addConstant v) :=
  .of_ok (fun _ => rfl) fun _ => ⟨⟨rfl, rfl, rfl⟩, rfl, rfl⟩

theorem leavesCode_registerStruct (type : StructType) : LeavesCode (registerStruct type) :=
  .of_ok (fun _ => rfl) fun _ => ⟨⟨rfl, rfl, rfl⟩, rfl, rfl⟩

theorem leavesCode_structConstant (type : StructType) : LeavesCode (structConstant type) := by
  refine .bind .get fun c => ?_
  split
  · exact .pure _
  · exact leavesCode_registerStruct type

theorem leavesCode_define (name : String) (isMutable : Bool) (ty : Option Ty) :
    LeavesCode (define name isMutable ty) :=
  .of_ok (fun _ => rfl) fun _ => ⟨⟨rfl, rfl, rfl⟩, rfl, rfl⟩

theorem leavesCode_defineSelf (name : String) (ty : Ty) : LeavesCode (defineSelf name ty) :=
  .of_ok (fun _ => rfl) fun _ => ⟨⟨rfl, rfl, rfl⟩, rfl, rfl⟩

theorem leavesCode_defineParameters : ∀ parameters : List (String × Ty),
    LeavesCode (defineParameters parameters)
  | [] => .pure _
  | _ :: rest => .bind (.discard (leavesCode_define _ _ _)) fun _ =>
      leavesCode_defineParameters rest

theorem leavesCode_checkFresh (name : String) : LeavesCode (checkFresh name) :=
  .bind .get fun _ => .ite (.fail _) (.pure _)

theorem leavesCode_resolve (name : String) (otherwise : CompileError) :
    LeavesCode (resolve name otherwise) := by
  intro c
  cases h : c.chain.resolve? name with
  | none =>
      have hrun : resolve name otherwise c = .error (.error otherwise) c := by
        simp only [resolve, h]
      exact Ends.of_error hrun ⟨.refl c, otherwise, rfl⟩
  | some found =>
      have hrun : resolve name otherwise c = .ok found.1.symbol { c with chain := found.2 } := by
        simp only [resolve, h]
      exact Ends.of_ok hrun ⟨⟨rfl, rfl, rfl⟩, rfl, (ScopeChain.Grows.resolve? h).depth_eq⟩

/-- The functions that are still to be declared may change. -/
theorem leavesCode_modifyCurrent {change : OpenCode → OpenCode}
    (h : ∀ o, change o = { o with hoisted := (change o).hoisted }) :
    LeavesCode (modifyCurrent change) := by
  refine .of_ok (fun _ => rfl) fun c => ?_
  rw [h c.current]
  exact ⟨⟨rfl, rfl, rfl⟩, rfl, rfl⟩

theorem leavesCode_hoist : ∀ ss : List Stmt, LeavesCode (hoist ss)
  | [] => .pure _
  | .function _ _ :: rest =>
      .bind (leavesCode_checkFresh _) fun _ => .bind (.discard (leavesCode_define _ _ _)) fun _ =>
        .bind (leavesCode_modifyCurrent fun _ => rfl) fun _ => leavesCode_hoist rest
  | .expr _ :: rest | .declare _ _ _ _ :: rest | .assign _ _ :: rest | .setIndex _ _ _ :: rest
  | .setField _ _ _ _ :: rest | .ret _ :: rest | .loop _ _ :: rest | .structType _ :: rest
  | .block _ :: rest => leavesCode_hoist rest

theorem leavesCode_declaredFunction (header : FunctionHeader) :
    LeavesCode (declaredFunction header) := by
  refine .bind .get fun c => .bind (leavesCode_modifyCurrent fun _ => rfl) fun _ => ?_
  split
  · exact .pure _
  · exact .bind (leavesCode_checkFresh _) fun _ => leavesCode_define _ _ _

theorem leavesCode_checkAssignable (x : Symbol) : LeavesCode (checkAssignable x) := by
  rw [checkAssignable]
  split
  · exact .fail _
  · exact .fail _
  · exact .fail _
  · exact .ite (.pure _) (.fail _)
  · exact .ite (.pure _) (.fail _)

theorem leavesCode_fieldIndex (object : Expr) (field : String) (given : Option StructType) :
    LeavesCode (fieldIndex object field given) := by
  refine .bind .get fun c => ?_
  split
  · exact .pure _
  · exact .fail _

theorem leavesCode_literalType (typeName : String) (initializers : List (String × Expr)) :
    LeavesCode (literalType typeName initializers) := by
  refine .bind .get fun c => ?_
  split
  · exact .fail _
  · split
    · exact .fail _
    · exact .pure _

theorem leavesCode_declaredType (given : Option Ty) (value : Expr) :
    LeavesCode (declaredType given value) :=
  .of_ok (fun _ => rfl) .refl

theorem leavesCode_checkCondition (condition : Expr) : LeavesCode (checkCondition condition) := by
  refine .bind .get fun c => ?_
  split
  · exact .pure _
  · exact .fail _

theorem leavesCode_checkInFunction : LeavesCode checkInFunction :=
  .bind .get fun _ => .ite (.fail _) (.pure _)

end CompileM

/-! ## Procedures -/

open CompileM

/-- A change of the codes under construction. -/
inductive Edit : Type → Type
  /-- Writes an instruction. -/
  | write (opcode : Opcode) (operands : List Nat) : Edit Unit
  /-- Writes a jump whose target is not known yet, and gives its offset. -/
  | jump (opcode : Opcode) : Edit Nat
  /-- Lets the jump at an offset go to the next instruction. -/
  | patch (offset : Nat) : Edit Unit
  /-- Takes the last instruction away again. -/
  | dropLast : Edit Unit
  /-- Turns the last instruction into a return. -/
  | returnLast : Edit Unit
  /-- Opens the scope of a function. -/
  | enter : Edit Unit
  /-- Closes the scope of a function. -/
  | leave : Edit (Code × Scope)

def Edit.run {α : Type} : Edit α → CompileM α
  | write opcode operands => emit opcode operands
  | jump opcode => emitJump opcode
  | patch offset => patchJump offset
  | dropLast => removeLast
  | returnLast => lastToReturn
  | enter => CompileM.enter
  | leave => CompileM.leave

/-- A compilation written out: it changes the codes under construction by single edits, and looks at
everything else in between. -/
inductive Procedure (α : Type) : Type 1
  | done (a : α)
  | look {β : Type} (x : CompileM β) (leavesCode : LeavesCode x) (next : β → Procedure α)
  | edit {β : Type} (e : Edit β) (next : β → Procedure α)

namespace Procedure

variable {α β : Type}

def run : Procedure α → CompileM α
  | done a => Pure.pure a
  | look x _ next => x >>= fun b => (next b).run
  | edit e next => e.run >>= fun b => (next b).run

def bind : Procedure α → (α → Procedure β) → Procedure β
  | done a, k => k a
  | look x hx next, k => look x hx fun b => (next b).bind k
  | edit e next, k => edit e fun b => (next b).bind k

theorem run_bind (p : Procedure α) (k : α → Procedure β) :
    (p.bind k).run = p.run >>= fun a => (k a).run := by
  induction p with
  | done a => rfl
  | look x hx next ih =>
      rw [bind, run, run, bind_assoc]
      exact congrArg (x >>= ·) (funext fun b => ih b)
  | edit e next ih =>
      rw [bind, run, run, bind_assoc]
      exact congrArg (e.run >>= ·) (funext fun b => ih b)

end Procedure

/-! ## Plans -/

/-- A procedure that runs like a computation. -/
structure Plan {α : Type} (x : CompileM α) : Type 1 where
  procedure : Procedure α
  run_eq : procedure.run = x

namespace Plan

variable {α β : Type}

def pure (a : α) : Plan (Pure.pure a) :=
  ⟨.done a, rfl⟩

def look {x : CompileM α} (hx : LeavesCode x) : Plan x :=
  ⟨.look x hx .done, bind_pure x⟩

def edit (e : Edit α) : Plan e.run :=
  ⟨.edit e .done, bind_pure e.run⟩

def bind {x : CompileM α} {f : α → CompileM β} (p : Plan x) (q : ∀ a, Plan (f a)) :
    Plan (x >>= f) where
  procedure := p.procedure.bind fun a => (q a).procedure
  run_eq := by
    rw [Procedure.run_bind, p.run_eq]
    exact congrArg (x >>= ·) (funext fun a => (q a).run_eq)

def ite (p : Prop) [Decidable p] {x y : CompileM α} (yes : Plan x) (no : Plan y) :
    Plan (if p then x else y) where
  procedure := if p then yes.procedure else no.procedure
  run_eq := by
    split
    · exact yes.run_eq
    · exact no.run_eq

end Plan

namespace CompileM

/-! ### Plans of writing -/

def planEmit (op : Opcode) (ns : List Nat) : Plan (emit op ns) :=
  .edit (.write op ns)

def planEmitConstant (v : Value) : Plan (emitConstant v) :=
  .bind (.look (leavesCode_addConstant v)) fun _ => planEmit _ _

def planLoad (x : Symbol) : Plan (load x) :=
  .bind (.look .get) fun _ => .ite _ (.look (.fail _)) (planEmit _ _)

def planLoadAll : ∀ xs : List Symbol, Plan (loadAll xs)
  | [] => .pure _
  | x :: xs => .bind (planLoad x) fun _ => planLoadAll xs

def planStore (x : Symbol) : Plan (store x) where
  procedure :=
    match x.store? with
    | some i => (planEmit i.opcode i.operands).procedure
    | none => (Plan.look (.fail (.assignToCaptured x.name))).procedure
  run_eq := by
    cases hs : x.storage with
    | global | slot =>
        cases hm : x.isMutable <;> simp only [store, Symbol.store?, hs, hm] <;> exact Plan.run_eq _
    | captured | builtin | self =>
        simp only [store, Symbol.store?, hs]
        exact Plan.run_eq _

mutual

def planZeroValue : ∀ ty : Ty, Plan (zeroValue ty)
  | .int => planEmitConstant (.int 0)
  | .float => planEmitConstant (.float 0)
  | .string => planEmitConstant (.str "")
  | .bool => planEmit .pushFalse []
  | .array _ => planEmit .array [0]
  | .hash _ _ => planEmit .hash [0]
  | .null | .func _ _ => planEmit .pushNull []
  | .struct name fields =>
      .bind (planZeroFields fields) fun _ =>
        .bind (.look (leavesCode_structConstant ⟨name, fields⟩)) fun _ => planEmit _ _

def planZeroFields : ∀ fields : List (String × Ty), Plan (zeroFields fields)
  | [] => .pure _
  | (_, ty) :: fields => .bind (planZeroValue ty) fun _ => planZeroFields fields

end

def planZeroValueOf : ∀ ty : Option Ty, Plan (zeroValueOf ty)
  | some ty => planZeroValue ty
  | none => planEmit .pushNull []

def planCloseBranch : Plan closeBranch :=
  .bind (.look (leavesCode_lastIs .pop)) fun _ => .ite _ (.edit .dropLast) (planEmit .pushNull [])

def planCloseBody : Plan closeBody :=
  .bind (.look (leavesCode_lastIs .pop)) fun _ =>
    .ite _ (.bind (.edit .returnLast) fun _ => planEnd) planEnd
where
  /-- Returns null unless a value is returned. -/
  planEnd : Plan (do if !(← lastIs .returnValue) then emit .returnNull []) :=
    .bind (.look (leavesCode_lastIs .returnValue)) fun _ =>
      .ite _ (planEmit .returnNull []) (.pure _)

/-! ### Plans of programs -/

/-- The body of a function, and the closure that is built of it. -/
def planBody {body : CompileM Unit} (name : Option String) (signature : Signature)
    (plan : Plan body) :
    Plan (defineParameters signature.parameters >>= fun _ => body >>= fun _ =>
      closeBody >>= fun _ => leave >>= fun left => loadAll left.2.captures >>= fun _ =>
        get >>= fun c =>
        addConstant (.function ⟨c.pool.size, {
          code := left.1, locals := left.2.definitions, parameters := signature.parameters.length,
          name }⟩) >>= fun constant => emit .closure [constant, left.2.captures.length]) :=
  .bind (.look (leavesCode_defineParameters _)) fun _ => .bind plan fun _ =>
    .bind planCloseBody fun _ => .bind (.edit .leave) fun _ => .bind (planLoadAll _) fun _ =>
      .bind (.look .get) fun _ => .bind (.look (leavesCode_addConstant _)) fun _ => planEmit _ _

def planFunction {body : CompileM Unit} (signature : Signature) (plan : Plan body) :
    ∀ name : Option String, Plan (function name signature body)
  | none => .bind (.edit .enter) fun _ => planBody none signature plan
  | some name =>
      .bind (.edit .enter) fun _ => .bind (.look (leavesCode_defineSelf name signature.ty)) fun _ =>
        planBody (some name) signature plan

def planCall {bound overload : Option String} {callee : Expr} {arguments : List Expr}
    (calleePlan : Plan (expr none callee)) (argumentsPlan : Plan (exprs arguments)) :
    Plan (expr bound (.call callee arguments overload)) where
  procedure :=
    match callee.calleeName? overload with
    | some name =>
        (Plan.bind (.look (leavesCode_resolve name (.undefinedFunction name))) fun x =>
          .bind (planLoad x) fun _ => planValues).procedure
    | none => (Plan.bind calleePlan fun _ => planValues).procedure
  run_eq := by
    rw [expr_call]
    cases callee.calleeName? overload with
    | some name => exact Plan.run_eq _
    | none => exact Plan.run_eq _
where
  planValues : Plan (do exprs arguments; emit .call [arguments.length]) :=
    .bind argumentsPlan fun _ => planEmit .call [arguments.length]

def planFields {initializers : List (String × Expr)}
    (plan : ∀ f, Plan (initializer f initializers)) :
    ∀ fields : List (String × Ty), Plan (fields.forM fun f => initializer f initializers)
  | [] => .pure _
  | f :: fields => .bind (plan f) fun _ => planFields plan fields

mutual

def planExpr (bound : Option String) : ∀ e : Expr, Plan (expr bound e)
  | .int n => planEmitConstant (.int n)
  | .float x => planEmitConstant (.float x)
  | .str s => planEmitConstant (.str s)
  | .bool true => planEmit .pushTrue []
  | .bool false => planEmit .pushFalse []
  | .null => planEmit .pushNull []
  | .ident name => .bind (.look (leavesCode_resolve name (.undefinedVariable name))) planLoad
  | .unary op e => .bind (planExpr none e) fun _ => planEmit op.opcode []
  | .binary op l r =>
      .ite _
        (.bind (planExpr none r) fun _ => .bind (planExpr none l) fun _ => planEmit op.opcode [])
        (.bind (planExpr none l) fun _ => .bind (planExpr none r) fun _ => planEmit op.opcode [])
  | .cond condition yes none =>
      .bind (planExpr none condition) fun _ =>
        .bind (.edit (.jump .jumpNotTruthy)) fun toAlternative =>
          .bind (.look (leavesCode_hoist yes)) fun _ => .bind (planStmts yes) fun _ =>
            .bind planCloseBranch fun _ => .bind (.edit (.jump .jump)) fun toEnd =>
              .bind (.edit (.patch toAlternative)) fun _ => .bind (planEmit .pushNull []) fun _ =>
                .edit (.patch toEnd)
  | .cond condition yes (some no) =>
      .bind (planExpr none condition) fun _ =>
        .bind (.edit (.jump .jumpNotTruthy)) fun toAlternative =>
          .bind (.look (leavesCode_hoist yes)) fun _ => .bind (planStmts yes) fun _ =>
            .bind planCloseBranch fun _ => .bind (.edit (.jump .jump)) fun toEnd =>
              .bind (.edit (.patch toAlternative)) fun _ =>
                .bind (.look (leavesCode_hoist no)) fun _ => .bind (planStmts no) fun _ =>
                  .bind planCloseBranch fun _ => .edit (.patch toEnd)
  | .function name signature body =>
      planFunction signature
        (.bind (.look (leavesCode_hoist body)) fun _ => planStmts body) (bound <|> name)
  | .call callee arguments _ => planCall (planExpr none callee) (planExprs arguments)
  | .array elements => .bind (planExprs elements) fun _ => planEmit .array [elements.length]
  | .hash pairs => .bind (planExprPairs pairs) fun _ => planEmit .hash [2 * pairs.length]
  | .index container position =>
      .bind (planExpr none container) fun _ => .bind (planExpr none position) fun _ =>
        planEmit .index []
  | .struct typeName initializers =>
      .bind (.look (leavesCode_literalType typeName initializers)) fun st =>
        .bind (planFields (fun f => planInitializer f initializers) st.fields) fun _ =>
          .bind (.look (leavesCode_structConstant st)) fun _ => planEmit .struct [_, _]
  | .select object field structType =>
      .bind (.look (leavesCode_fieldIndex object field structType)) fun _ =>
        .bind (planExpr none object) fun _ => planEmit .getField [_]

def planExprs : ∀ es : List Expr, Plan (exprs es)
  | [] => .pure _
  | e :: es => .bind (planExpr none e) fun _ => planExprs es

def planExprPairs : ∀ pairs : List (Expr × Expr), Plan (exprPairs pairs)
  | [] => .pure _
  | (k, v) :: rest =>
      .bind (planExpr none k) fun _ => .bind (planExpr none v) fun _ => planExprPairs rest

def planInitializer (f : String × Ty) :
    ∀ initializers : List (String × Expr), Plan (initializer f initializers)
  | [] => planZeroValue f.2
  | (_, e) :: rest => .ite _ (planExpr none e) (planInitializer f rest)

def planStmt : ∀ s : Stmt, Plan (stmt s)
  | .expr e => .bind (planExpr none e) fun _ => planEmit .pop []
  | .declare name isMutable ty (some e) =>
      .bind (.look (leavesCode_checkFresh name)) fun _ =>
        .bind (.look (leavesCode_declaredType ty e)) fun _ =>
          .bind (planExpr (some name) e) fun _ =>
            .bind (.look (leavesCode_define name isMutable _)) planStore
  | .declare name isMutable ty none =>
      .bind (.look (leavesCode_checkFresh name)) fun _ => .bind (planZeroValueOf ty) fun _ =>
        .bind (.look (leavesCode_define name isMutable ty)) planStore
  | .assign name e =>
      .bind (.look (leavesCode_resolve name (.assignToUndefined name))) fun x =>
        .bind (.look (leavesCode_checkAssignable x)) fun _ =>
          .bind (planExpr none e) fun _ => planStore x
  | .setIndex container position value =>
      .bind (planExpr none container) fun _ => .bind (planExpr none position) fun _ =>
        .bind (planExpr none value) fun _ => planEmit .setIndex []
  | .setField object field value structType =>
      .bind (.look (leavesCode_fieldIndex object field structType)) fun _ =>
        .bind (planExpr none object) fun _ => .bind (planExpr none value) fun _ =>
          planEmit .setField [_]
  | .ret (some e) =>
      .bind (.look leavesCode_checkInFunction) fun _ => .bind (planExpr none e) fun _ =>
        planEmit .returnValue []
  | .ret none => .bind (.look leavesCode_checkInFunction) fun _ => planEmit .returnNull []
  | .loop condition body =>
      .bind (.look (leavesCode_checkCondition condition)) fun _ =>
        .bind (.look leavesCode_position) fun start => .bind (planExpr none condition) fun _ =>
          .bind (.edit (.jump .jumpNotTruthy)) fun toEnd =>
            .bind (.look (leavesCode_hoist body)) fun _ => .bind (planStmts body) fun _ =>
              .bind (planEmit .jump [start]) fun _ => .bind (.edit (.patch toEnd)) fun _ =>
                .bind (planEmit .pushNull []) fun _ => planEmit .pop []
  | .function header body =>
      .bind (.look (leavesCode_declaredFunction header)) fun x =>
        .bind (planFunction header.signature
          (.bind (.look (leavesCode_hoist body)) fun _ => planStmts body)
          (some header.boundName)) fun _ => planStore x
  | .structType type => .look (.discard (leavesCode_registerStruct type))
  | .block body => .bind (.look (leavesCode_hoist body)) fun _ => planStmts body

def planStmts : ∀ ss : List Stmt, Plan (stmts ss)
  | [] => .pure _
  | s :: rest => .bind (planStmt s) fun _ => planStmts rest

end

/-- The compilation of a unit, written out. -/
def planBlock (body : List Stmt) : Plan (block body) :=
  .bind (.look (leavesCode_hoist body)) fun _ => planStmts body

end CompileM

end ScriptEngine
