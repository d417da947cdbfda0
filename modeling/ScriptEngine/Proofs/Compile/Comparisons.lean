import ScriptEngine.Proofs.Compile.Following

/-!
# Comparisons written the other way round

There are no instructions for `<` and `<=`: they are compiled as `>` and `>=` with the operands
exchanged.  Doing the same to the tree, everywhere in a program (`Stmt.desugaredList`), therefore
changes nothing for the compiler, neither what it writes and keeps nor why it refuses the program
(`Compiler.compile_desugared`).  The static types that the compiler looks at are the same as well,
because all four comparisons give truth values.
-/

namespace ScriptEngine

open Compiler

/-! ## Programs without `<` and `<=` -/

mutual

/-- The expression with every `a < b` in it written as `b > a`, and every `a <= b` as `b >= a`. -/
def Expr.desugared : Expr → Expr
  | .binary .less l r => .binary .greater r.desugared l.desugared
  | .binary .lessOrEqual l r => .binary .greaterOrEqual r.desugared l.desugared
  | .binary op l r => .binary op l.desugared r.desugared
  | .unary op e => .unary op e.desugared
  | .cond e yes none => .cond e.desugared (Stmt.desugaredList yes) none
  | .cond e yes (some no) =>
      .cond e.desugared (Stmt.desugaredList yes) (some (Stmt.desugaredList no))
  | .function name signature body => .function name signature (Stmt.desugaredList body)
  | .call callee arguments overload =>
      .call callee.desugared (Expr.desugaredList arguments) overload
  | .array elements => .array (Expr.desugaredList elements)
  | .hash pairs => .hash (Expr.desugaredPairs pairs)
  | .index container position => .index container.desugared position.desugared
  | .struct typeName initializers => .struct typeName (Expr.desugaredInitializers initializers)
  | .select object field structType => .select object.desugared field structType
  | .int n => .int n
  | .float x => .float x
  | .str s => .str s
  | .bool b => .bool b
  | .null => .null
  | .ident name => .ident name

def Expr.desugaredList : List Expr → List Expr
  | [] => []
  | e :: es => e.desugared :: Expr.desugaredList es

def Expr.desugaredPairs : List (Expr × Expr) → List (Expr × Expr)
  | [] => []
  | (k, v) :: ps => (k.desugared, v.desugared) :: Expr.desugaredPairs ps

def Expr.desugaredInitializers : List (String × Expr) → List (String × Expr)
  | [] => []
  | (name, e) :: is => (name, e.desugared) :: Expr.desugaredInitializers is

def Stmt.desugared : Stmt → Stmt
  | .declare name isMutable ty none => .declare name isMutable ty none
  | .declare name isMutable ty (some e) => .declare name isMutable ty (some e.desugared)
  | .assign name e => .assign name e.desugared
  | .setIndex container position value =>
      .setIndex container.desugared position.desugared value.desugared
  | .setField object field value structType =>
      .setField object.desugared field value.desugared structType
  | .ret none => .ret none
  | .ret (some e) => .ret (some e.desugared)
  | .loop condition body => .loop condition.desugared (Stmt.desugaredList body)
  | .function header body => .function header (Stmt.desugaredList body)
  | .structType type => .structType type
  | .block body => .block (Stmt.desugaredList body)
  | .expr e => .expr e.desugared

def Stmt.desugaredList : List Stmt → List Stmt
  | [] => []
  | s :: ss => s.desugared :: Stmt.desugaredList ss

end

/-! ## What is left of the operators -/

mutual

/-- The operators between operands that occur in an expression. -/
def Expr.operators : Expr → List InfixOp
  | .binary op l r => l.operators ++ op :: r.operators
  | .unary _ e => e.operators
  | .cond e yes none => e.operators ++ Stmt.operatorsOfList yes
  | .cond e yes (some no) => e.operators ++ (Stmt.operatorsOfList yes ++ Stmt.operatorsOfList no)
  | .function _ _ body => Stmt.operatorsOfList body
  | .call callee arguments _ => callee.operators ++ Expr.operatorsOfList arguments
  | .array elements => Expr.operatorsOfList elements
  | .hash pairs => Expr.operatorsOfPairs pairs
  | .index container position => container.operators ++ position.operators
  | .struct _ initializers => Expr.operatorsOfInitializers initializers
  | .select object _ _ => object.operators
  | .int _ | .float _ | .str _ | .bool _ | .null | .ident _ => []

def Expr.operatorsOfList : List Expr → List InfixOp
  | [] => []
  | e :: es => e.operators ++ Expr.operatorsOfList es

def Expr.operatorsOfPairs : List (Expr × Expr) → List InfixOp
  | [] => []
  | (k, v) :: ps => k.operators ++ (v.operators ++ Expr.operatorsOfPairs ps)

def Expr.operatorsOfInitializers : List (String × Expr) → List InfixOp
  | [] => []
  | (_, e) :: is => e.operators ++ Expr.operatorsOfInitializers is

def Stmt.operators : Stmt → List InfixOp
  | .declare _ _ _ (some e) | .assign _ e | .ret (some e) | .expr e => e.operators
  | .setIndex container position value =>
      container.operators ++ (position.operators ++ value.operators)
  | .setField object _ value _ => object.operators ++ value.operators
  | .loop condition body => condition.operators ++ Stmt.operatorsOfList body
  | .function _ body | .block body => Stmt.operatorsOfList body
  | .declare _ _ _ none | .ret none | .structType _ => []

def Stmt.operatorsOfList : List Stmt → List InfixOp
  | [] => []
  | s :: ss => s.operators ++ Stmt.operatorsOfList ss

end

/-- The operator is not one of those whose operands are exchanged. -/
def InfixOp.StaysPut (op : InfixOp) : Prop :=
  op ≠ .less ∧ op ≠ .lessOrEqual

mutual

theorem Expr.staysPut_desugared : ∀ (e : Expr), ∀ op ∈ e.desugared.operators, op.StaysPut
  | .binary op l r => by
      have hl := l.staysPut_desugared
      have hr := r.staysPut_desugared
      cases op <;>
        simp only [Expr.desugared, Expr.operators, List.forall_mem_append, List.forall_mem_cons] <;>
        exact ⟨by assumption, by simp [InfixOp.StaysPut], by assumption⟩
  | .unary _ e => by simpa only [Expr.desugared, Expr.operators] using e.staysPut_desugared
  | .cond e yes none => by
      simp only [Expr.desugared, Expr.operators, List.forall_mem_append]
      exact ⟨e.staysPut_desugared, Stmt.staysPut_desugaredList yes⟩
  | .cond e yes (some no) => by
      simp only [Expr.desugared, Expr.operators, List.forall_mem_append]
      exact ⟨e.staysPut_desugared, Stmt.staysPut_desugaredList yes,
        Stmt.staysPut_desugaredList no⟩
  | .function _ _ body => by
      simpa only [Expr.desugared, Expr.operators] using Stmt.staysPut_desugaredList body
  | .call callee arguments _ => by
      simp only [Expr.desugared, Expr.operators, List.forall_mem_append]
      exact ⟨callee.staysPut_desugared, Expr.staysPut_desugaredList arguments⟩
  | .array elements => by
      simpa only [Expr.desugared, Expr.operators] using Expr.staysPut_desugaredList elements
  | .hash pairs => by
      simpa only [Expr.desugared, Expr.operators] using Expr.staysPut_desugaredPairs pairs
  | .index container position => by
      simp only [Expr.desugared, Expr.operators, List.forall_mem_append]
      exact ⟨container.staysPut_desugared, position.staysPut_desugared⟩
  | .struct _ initializers => by
      simpa only [Expr.desugared, Expr.operators] using
        Expr.staysPut_desugaredInitializers initializers
  | .select object _ _ => by
      simpa only [Expr.desugared, Expr.operators] using object.staysPut_desugared
  | .int _ | .float _ | .str _ | .bool _ | .null | .ident _ => by
      simp [Expr.desugared, Expr.operators]

theorem Expr.staysPut_desugaredList :
    ∀ (es : List Expr), ∀ op ∈ Expr.operatorsOfList (Expr.desugaredList es), op.StaysPut
  | [] => by simp [Expr.desugaredList, Expr.operatorsOfList]
  | e :: es => by
      simp only [Expr.desugaredList, Expr.operatorsOfList, List.forall_mem_append]
      exact ⟨e.staysPut_desugared, Expr.staysPut_desugaredList es⟩

theorem Expr.staysPut_desugaredPairs :
    ∀ (ps : List (Expr × Expr)), ∀ op ∈ Expr.operatorsOfPairs (Expr.desugaredPairs ps), op.StaysPut
  | [] => by simp [Expr.desugaredPairs, Expr.operatorsOfPairs]
  | (k, v) :: ps => by
      simp only [Expr.desugaredPairs, Expr.operatorsOfPairs, List.forall_mem_append]
      exact ⟨k.staysPut_desugared, v.staysPut_desugared, Expr.staysPut_desugaredPairs ps⟩

theorem Expr.staysPut_desugaredInitializers :
    ∀ (is : List (String × Expr)),
      ∀ op ∈ Expr.operatorsOfInitializers (Expr.desugaredInitializers is), op.StaysPut
  | [] => by simp [Expr.desugaredInitializers, Expr.operatorsOfInitializers]
  | (_, e) :: is => by
      simp only [Expr.desugaredInitializers, Expr.operatorsOfInitializers, List.forall_mem_append]
      exact ⟨e.staysPut_desugared, Expr.staysPut_desugaredInitializers is⟩

theorem Stmt.staysPut_desugared : ∀ (s : Stmt), ∀ op ∈ s.desugared.operators, op.StaysPut
  | .declare _ _ _ (some e) | .assign _ e | .ret (some e) | .expr e => by
      simpa only [Stmt.desugared, Stmt.operators] using e.staysPut_desugared
  | .setIndex container position value => by
      simp only [Stmt.desugared, Stmt.operators, List.forall_mem_append]
      exact ⟨container.staysPut_desugared, position.staysPut_desugared, value.staysPut_desugared⟩
  | .setField object _ value _ => by
      simp only [Stmt.desugared, Stmt.operators, List.forall_mem_append]
      exact ⟨object.staysPut_desugared, value.staysPut_desugared⟩
  | .loop condition body => by
      simp only [Stmt.desugared, Stmt.operators, List.forall_mem_append]
      exact ⟨condition.staysPut_desugared, Stmt.staysPut_desugaredList body⟩
  | .function _ body | .block body => by
      simpa only [Stmt.desugared, Stmt.operators] using Stmt.staysPut_desugaredList body
  | .declare _ _ _ none | .ret none | .structType _ => by
      simp [Stmt.desugared, Stmt.operators]

theorem Stmt.staysPut_desugaredList :
    ∀ (ss : List Stmt), ∀ op ∈ Stmt.operatorsOfList (Stmt.desugaredList ss), op.StaysPut
  | [] => by simp [Stmt.desugaredList, Stmt.operatorsOfList]
  | s :: ss => by
      simp only [Stmt.desugaredList, Stmt.operatorsOfList, List.forall_mem_append]
      exact ⟨s.staysPut_desugared, Stmt.staysPut_desugaredList ss⟩

end

/-! ## What the compiler reads off a tree -/

theorem Expr.length_desugaredList (es : List Expr) :
    (Expr.desugaredList es).length = es.length := by
  induction es with
  | nil => rfl
  | cons e es ih => exact congrArg Nat.succ ih

theorem Expr.length_desugaredPairs (ps : List (Expr × Expr)) :
    (Expr.desugaredPairs ps).length = ps.length := by
  induction ps with
  | nil => rfl
  | cons p ps ih => exact congrArg Nat.succ ih

/-- A callee is a name exactly if it was one. -/
theorem Expr.calleeName?_desugared (e : Expr) (overload : Option String) :
    e.desugared.calleeName? overload = e.calleeName? overload := by
  cases overload with
  | some name => rfl
  | none =>
      cases e with
      | binary op l r => cases op <;> rfl
      | cond e yes no => cases no <;> rfl
      | _ => rfl

namespace Compiler

theorem typeOfLast_cons_cons (c : Compiler) (s s' : Stmt) (rest : List Stmt) :
    c.typeOfLast (s :: s' :: rest) = c.typeOfLast (s' :: rest) := by
  simp only [typeOfLast]

mutual

/-- The comparisons are all of the same type, so that exchanging them changes no static type. -/
theorem typeOf_desugared (c : Compiler) : ∀ e : Expr, c.typeOf e.desugared = c.typeOf e
  | .binary op l r => by
      have hl := c.typeOf_desugared l
      cases op with
      | less | lessOrEqual => rfl
      | _ => simp only [Expr.desugared, typeOf, hl]
  | .unary .bang _ => rfl
  | .unary .minus e => by simp only [Expr.desugared, typeOf, c.typeOf_desugared e]
  | .cond _ yes none | .cond _ yes (some _) => by
      simp only [Expr.desugared, typeOf, c.typeOfLast_desugared yes]
  | .call callee arguments overload => by
      simp only [Expr.desugared, typeOf, callee.calleeName?_desugared, c.typeOf_desugared callee,
        c.typeOfFirst_desugared arguments]
  | .array elements => by simp only [Expr.desugared, typeOf, c.typeOfFirst_desugared elements]
  | .hash pairs => by simp only [Expr.desugared, typeOf, c.typeOfPairs_desugared pairs]
  | .index container _ => by simp only [Expr.desugared, typeOf, c.typeOf_desugared container]
  | .select object _ _ => by simp only [Expr.desugared, typeOf, c.typeOf_desugared object]
  | .int _ | .float _ | .str _ | .bool _ | .null | .ident _ | .function _ _ _ | .struct _ _ => rfl

theorem typeOfFirst_desugared (c : Compiler) :
    ∀ es : List Expr, c.typeOfFirst (Expr.desugaredList es) = c.typeOfFirst es
  | [] => rfl
  | e :: _ => by simp only [Expr.desugaredList, typeOfFirst, c.typeOf_desugared e]

theorem typeOfPairs_desugared (c : Compiler) :
    ∀ ps : List (Expr × Expr), c.typeOfPairs (Expr.desugaredPairs ps) = c.typeOfPairs ps
  | [] => rfl
  | (k, v) :: _ => by
      simp only [Expr.desugaredPairs, typeOfPairs, c.typeOf_desugared k, c.typeOf_desugared v]

theorem typeOfLast_desugared (c : Compiler) :
    ∀ ss : List Stmt, c.typeOfLast (Stmt.desugaredList ss) = c.typeOfLast ss
  | [] => rfl
  | [.expr e] => by simp only [Stmt.desugaredList, Stmt.desugared, typeOfLast, c.typeOf_desugared e]
  | [.declare _ _ _ none] | [.declare _ _ _ (some _)] | [.assign _ _] | [.setIndex _ _ _]
  | [.setField _ _ _ _] | [.ret none] | [.ret (some _)] | [.loop _ _] | [.function _ _]
  | [.structType _] | [.block _] => rfl
  | s :: s' :: rest => by
      rw [Stmt.desugaredList, Stmt.desugaredList, typeOfLast_cons_cons, typeOfLast_cons_cons,
        ← Stmt.desugaredList, c.typeOfLast_desugared (s' :: rest)]

end

end Compiler

namespace CompileM

theorem fieldIndex_desugared (e : Expr) (field : String) (given : Option StructType) :
    fieldIndex e.desugared field given = fieldIndex e field given := by
  simp only [fieldIndex, Compiler.fieldIndex, typeOf_desugared]

theorem declaredType_desugared (given : Option Ty) (e : Expr) :
    declaredType given e.desugared = declaredType given e := by
  funext c
  simp only [declaredType, typeOf_desugared]

theorem checkCondition_desugared (e : Expr) : checkCondition e.desugared = checkCondition e := by
  simp only [checkCondition, typeOf_desugared]

/-- A block declares the same functions. -/
theorem hoist_desugared : ∀ ss : List Stmt, hoist (Stmt.desugaredList ss) = hoist ss
  | [] => rfl
  | .function header _ :: rest => by
      simp only [Stmt.desugaredList, Stmt.desugared, hoist, hoist_desugared rest]
  | .declare _ _ _ none :: rest | .declare _ _ _ (some _) :: rest | .assign _ _ :: rest
  | .setIndex _ _ _ :: rest | .setField _ _ _ _ :: rest | .ret none :: rest
  | .ret (some _) :: rest | .loop _ _ :: rest | .structType _ :: rest | .block _ :: rest
  | .expr _ :: rest => hoist_desugared rest

/-- The initialized fields have the same names. -/
theorem literalType_desugared (typeName : String) (is : List (String × Expr)) :
    literalType typeName (Expr.desugaredInitializers is) = literalType typeName is := by
  have hfind (unknown : String → Bool) :
      (Expr.desugaredInitializers is).find? (fun i => unknown i.1) =
        (is.find? fun i => unknown i.1).map fun i => (i.1, i.2.desugared) := by
    induction is with
    | nil => rfl
    | cons i is ih =>
        rw [Expr.desugaredInitializers, List.find?_cons, List.find?_cons, ih]
        cases unknown i.1 <;> rfl
  unfold literalType
  refine congrArg _ (funext fun c => ?_)
  cases c.struct? typeName with
  | none => rfl
  | some st =>
      have hunknown := hfind fun name => (st.fieldIndex? name).isNone
      simp only [hunknown]
      cases is.find? fun i => (st.fieldIndex? i.1).isNone <;> rfl

/-! ## All programs

By recursion on the tree: every form is compiled part by part.  Only for a comparison does the
compiler itself exchange what the tree has exchanged. -/

theorem bind_eq_bind {α β : Type} {x y : CompileM α} {f g : α → CompileM β} (hx : x = y)
    (hf : ∀ a, f a = g a) : x >>= f = y >>= g := by
  rw [hx, funext hf]

theorem function_eq_function (name : Option String) (signature : Signature) {x y : CompileM Unit}
    (h : x = y) : function name signature x = function name signature y := by
  rw [h]

/-- Blocks are compiled alike if their statements are, and so is what comes after them. -/
theorem blockThen_desugared {ss : List Stmt} (hss : stmts (Stmt.desugaredList ss) = stmts ss)
    {f g : Unit → CompileM Unit} (hfg : ∀ a, f a = g a) :
    (hoist (Stmt.desugaredList ss) >>= fun _ => stmts (Stmt.desugaredList ss) >>= f) =
      hoist ss >>= fun _ => stmts ss >>= g := by
  rw [hoist_desugared, hss, funext hfg]

theorem block_of_stmts {ss : List Stmt} (hss : stmts (Stmt.desugaredList ss) = stmts ss) :
    block (Stmt.desugaredList ss) = block ss := by
  rw [block, block, hoist_desugared, hss]

mutual

theorem expr_desugared (bound : Option String) : ∀ e : Expr, expr bound e.desugared = expr bound e
  | .int _ | .float _ | .str _ | .bool _ | .null | .ident _ => rfl
  | .binary op l r => by
      have hl := expr_desugared none l
      have hr := expr_desugared none r
      cases op <;>
        simp only [Expr.desugared, expr_binary, hl, hr, InfixOp.isSwapped, InfixOp.opcode] <;> rfl
  | .unary _ e => by
      have hoperand := expr_desugared none e
      exact bind_eq_bind hoperand fun _ => rfl
  | .cond e yes none => by
      have hcondition := expr_desugared none e
      have hyes := stmts_desugared yes
      refine bind_eq_bind hcondition fun _ => bind_congr fun toAlternative => ?_
      exact blockThen_desugared hyes fun _ => rfl
  | .cond e yes (some no) => by
      have hcondition := expr_desugared none e
      have hyes := stmts_desugared yes
      have hno := stmts_desugared no
      refine bind_eq_bind hcondition fun _ => bind_congr fun toAlternative => ?_
      refine blockThen_desugared hyes fun _ => ?_
      -- the first branch is closed, and the jumps around the second one are written
      refine bind_congr fun _ => bind_congr fun toEnd => bind_congr fun _ => ?_
      exact blockThen_desugared hno fun _ => rfl
  | .function name signature body => by
      have hbody := block_of_stmts (stmts_desugared body)
      exact function_eq_function (bound <|> name) signature hbody
  | .call callee arguments overload => by
      have hcallee := expr_desugared none callee
      have harguments := exprs_desugared arguments
      rw [Expr.desugared, expr_call, expr_call, callee.calleeName?_desugared, hcallee, harguments,
        Expr.length_desugaredList]
  | .array elements => by
      have helements := exprs_desugared elements
      refine bind_eq_bind helements fun _ => ?_
      rw [Expr.length_desugaredList]
  | .hash pairs => by
      have hpairs := exprPairs_desugared pairs
      refine bind_eq_bind hpairs fun _ => ?_
      rw [Expr.length_desugaredPairs]
  | .index container position => by
      have hcontainer := expr_desugared none container
      have hposition := expr_desugared none position
      refine bind_eq_bind hcontainer fun _ => ?_
      exact bind_eq_bind hposition fun _ => rfl
  | .struct typeName initializers => by
      have htype := literalType_desugared typeName initializers
      have hfields := funext fun f => initializer_desugared f initializers
      refine bind_eq_bind htype fun st => ?_
      exact bind_eq_bind (congrArg st.fields.forM hfields) fun _ => rfl
  | .select object field structType => by
      have hindex := fieldIndex_desugared object field structType
      have hobject := expr_desugared none object
      refine bind_eq_bind hindex fun i => ?_
      exact bind_eq_bind hobject fun _ => rfl

theorem exprs_desugared : ∀ es : List Expr, exprs (Expr.desugaredList es) = exprs es
  | [] => rfl
  | e :: es => by
      have hhead := expr_desugared none e
      have htail := exprs_desugared es
      exact bind_eq_bind hhead fun _ => htail

theorem exprPairs_desugared :
    ∀ ps : List (Expr × Expr), exprPairs (Expr.desugaredPairs ps) = exprPairs ps
  | [] => rfl
  | (k, v) :: ps => by
      have hkey := expr_desugared none k
      have hvalue := expr_desugared none v
      have htail := exprPairs_desugared ps
      refine bind_eq_bind hkey fun _ => ?_
      exact bind_eq_bind hvalue fun _ => htail

theorem initializer_desugared (f : String × Ty) :
    ∀ is : List (String × Expr), initializer f (Expr.desugaredInitializers is) = initializer f is
  | [] => rfl
  | (name, e) :: is => by
      rw [Expr.desugaredInitializers, initializer_cons, initializer_cons, expr_desugared none e,
        initializer_desugared f is]

theorem stmt_desugared : ∀ s : Stmt, stmt s.desugared = stmt s
  | .declare _ _ _ none | .ret none | .structType _ => rfl
  | .declare name _ ty (some e) => by
      have htype := declaredType_desugared ty e
      have hvalue := expr_desugared (some name) e
      refine bind_congr fun _ => bind_eq_bind htype fun declared => ?_
      exact bind_eq_bind hvalue fun _ => rfl
  | .assign _ e => by
      have hvalue := expr_desugared none e
      refine bind_congr fun symbol => bind_congr fun _ => ?_
      exact bind_eq_bind hvalue fun _ => rfl
  | .setIndex container position value => by
      have hcontainer := expr_desugared none container
      have hposition := expr_desugared none position
      have hvalue := expr_desugared none value
      refine bind_eq_bind hcontainer fun _ => bind_eq_bind hposition fun _ => ?_
      exact bind_eq_bind hvalue fun _ => rfl
  | .setField object field value structType => by
      have hindex := fieldIndex_desugared object field structType
      have hobject := expr_desugared none object
      have hvalue := expr_desugared none value
      refine bind_eq_bind hindex fun i => bind_eq_bind hobject fun _ => ?_
      exact bind_eq_bind hvalue fun _ => rfl
  | .ret (some e) => by
      have hvalue := expr_desugared none e
      refine bind_congr fun _ => ?_
      exact bind_eq_bind hvalue fun _ => rfl
  | .loop condition body => by
      have hcheck := checkCondition_desugared condition
      have hcondition := expr_desugared none condition
      have hbody := stmts_desugared body
      refine bind_eq_bind hcheck fun _ => bind_congr fun start => ?_
      refine bind_eq_bind hcondition fun _ => bind_congr fun toEnd => ?_
      exact blockThen_desugared hbody fun _ => rfl
  | .function header body => by
      have hbody := block_of_stmts (stmts_desugared body)
      refine bind_congr fun symbol => ?_
      exact bind_eq_bind (function_eq_function _ header.signature hbody) fun _ => rfl
  | .block body => block_of_stmts (stmts_desugared body)
  | .expr e => by
      have hvalue := expr_desugared none e
      exact bind_eq_bind hvalue fun _ => rfl

theorem stmts_desugared : ∀ ss : List Stmt, stmts (Stmt.desugaredList ss) = stmts ss
  | [] => rfl
  | s :: ss => by
      have hhead := stmt_desugared s
      have htail := stmts_desugared ss
      exact bind_eq_bind hhead fun _ => htail

end

end CompileM

/-! ## Units -/

/-- From every state of the compiler, a program is compiled in the same way as the program in which
every `a < b` is written as `b > a` and every `a <= b` as `b >= a`: both are refused for the same
reason, or both give the same code and the same constants, and the compiler is in the same state
afterwards.  No `<` and no `<=` is left in the second program. -/
theorem Compiler.compile_desugared (c : Compiler) (program : Program) :
    c.compile (Stmt.desugaredList program) = c.compile program ∧
      ∀ op ∈ Stmt.operatorsOfList (Stmt.desugaredList program), op ≠ .less ∧ op ≠ .lessOrEqual := by
  constructor
  · unfold compile
    rw [CompileM.block_of_stmts (CompileM.stmts_desugared program)]
  · exact Stmt.staysPut_desugaredList program

/-- Counts up to three, and tells whether it has got there. -/
def countToThree : Program :=
  [.declare "i" true none (some (.int 0)),
    .loop (.binary .less (.ident "i") (.int 3))
      [.assign "i" (.binary .add (.ident "i") (.int 1))],
    .expr (.binary .lessOrEqual (.int 3) (.ident "i"))]

/-- The same without `<` and `<=`. -/
def countToThreeTurned : Program :=
  [.declare "i" true none (some (.int 0)),
    .loop (.binary .greater (.int 3) (.ident "i"))
      [.assign "i" (.binary .add (.ident "i") (.int 1))],
    .expr (.binary .greaterOrEqual (.ident "i") (.int 3))]

/-- A loop whose condition is turned round is accepted as before, with a `>` in it. -/
theorem Compiler.compile_desugared_countToThree :
    Stmt.desugaredList countToThree = countToThreeTurned ∧
      Compiler.new.compile countToThreeTurned = Compiler.new.compile countToThree ∧
      (Compiler.new.compile countToThreeTurned).1.toOption.isSome = true ∧
      InfixOp.greater ∈ Stmt.operatorsOfList countToThreeTurned ∧
      InfixOp.greater ≠ .less ∧ InfixOp.greater ≠ .lessOrEqual :=
  have hturned : InfixOp.greater ∈ Stmt.operatorsOfList countToThreeTurned := by decide
  ⟨rfl, (compile_desugared Compiler.new countToThree).1, by decide +kernel, hturned,
    (compile_desugared Compiler.new countToThree).2 .greater hturned⟩

end ScriptEngine
