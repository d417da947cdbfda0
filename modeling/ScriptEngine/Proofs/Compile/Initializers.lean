import ScriptEngine.Proofs.Compile.Following

/-!
# The order of initializers

A struct literal is compiled field by field in storage order, so that the order in which a program
writes its initializers does not matter as long as none of them is written twice.  Two programs that
differ only in such orders, anywhere in them (`Stmt.PermutedList`), are compiled to the same code or
are both refused.  Only the unknown field that a refusal names may differ: it is the first one in
the order of the program.
-/

namespace ScriptEngine

open Compiler

/-! ## Programs that differ in the order of initializers -/

mutual

/-- The expressions differ at most in the order of the initializers of struct literals that
initialize no field twice. -/
inductive Expr.Permuted : Expr → Expr → Prop
  | refl (e : Expr) : Expr.Permuted e e
  | unary {e e' : Expr} (op : PrefixOp) (operand : Expr.Permuted e e') :
      Expr.Permuted (.unary op e) (.unary op e')
  | binary {l l' r r' : Expr} (op : InfixOp) (left : Expr.Permuted l l')
      (right : Expr.Permuted r r') : Expr.Permuted (.binary op l r) (.binary op l' r')
  | cond {e e' : Expr} {yes yes' : List Stmt} (condition : Expr.Permuted e e')
      (consequence : Stmt.PermutedList yes yes') :
      Expr.Permuted (.cond e yes none) (.cond e' yes' none)
  | condElse {e e' : Expr} {yes yes' no no' : List Stmt} (condition : Expr.Permuted e e')
      (consequence : Stmt.PermutedList yes yes') (alternative : Stmt.PermutedList no no') :
      Expr.Permuted (.cond e yes (some no)) (.cond e' yes' (some no'))
  | function {ss ss' : List Stmt} (name : Option String) (signature : Signature)
      (body : Stmt.PermutedList ss ss') :
      Expr.Permuted (.function name signature ss) (.function name signature ss')
  | call {e e' : Expr} {es es' : List Expr} (overload : Option String)
      (callee : Expr.Permuted e e') (arguments : Expr.PermutedList es es') :
      Expr.Permuted (.call e es overload) (.call e' es' overload)
  | array {es es' : List Expr} (elements : Expr.PermutedList es es') :
      Expr.Permuted (.array es) (.array es')
  | hash {ps ps' : List (Expr × Expr)} (pairs : Expr.PermutedPairs ps ps') :
      Expr.Permuted (.hash ps) (.hash ps')
  | index {e e' i i' : Expr} (container : Expr.Permuted e e') (position : Expr.Permuted i i') :
      Expr.Permuted (.index e i) (.index e' i')
  | struct {is is' : List (String × Expr)} (typeName : String)
      (initializers : Expr.PermutedInitializers is is') :
      Expr.Permuted (.struct typeName is) (.struct typeName is')
  /-- The initializers are written in another order. -/
  | structOrder {is is' js : List (String × Expr)} (typeName : String)
      (initializers : Expr.PermutedInitializers is is') (order : is'.Perm js)
      (distinct : (is.map Prod.fst).Nodup) :
      Expr.Permuted (.struct typeName is) (.struct typeName js)
  | select {e e' : Expr} (field : String) (structType : Option StructType)
      (object : Expr.Permuted e e') :
      Expr.Permuted (.select e field structType) (.select e' field structType)

inductive Expr.PermutedList : List Expr → List Expr → Prop
  | nil : Expr.PermutedList [] []
  | cons {e e' : Expr} {es es' : List Expr} (head : Expr.Permuted e e')
      (tail : Expr.PermutedList es es') : Expr.PermutedList (e :: es) (e' :: es')

inductive Expr.PermutedPairs : List (Expr × Expr) → List (Expr × Expr) → Prop
  | nil : Expr.PermutedPairs [] []
  | cons {k k' v v' : Expr} {ps ps' : List (Expr × Expr)} (key : Expr.Permuted k k')
      (value : Expr.Permuted v v') (tail : Expr.PermutedPairs ps ps') :
      Expr.PermutedPairs ((k, v) :: ps) ((k', v') :: ps')

inductive Expr.PermutedInitializers : List (String × Expr) → List (String × Expr) → Prop
  | nil : Expr.PermutedInitializers [] []
  | cons {e e' : Expr} {is is' : List (String × Expr)} (name : String)
      (value : Expr.Permuted e e') (tail : Expr.PermutedInitializers is is') :
      Expr.PermutedInitializers ((name, e) :: is) ((name, e') :: is')

/-- The statements differ at most in the order of the initializers of struct literals that
initialize no field twice. -/
inductive Stmt.Permuted : Stmt → Stmt → Prop
  | refl (s : Stmt) : Stmt.Permuted s s
  | declare {e e' : Expr} (name : String) (isMutable : Bool) (ty : Option Ty)
      (value : Expr.Permuted e e') :
      Stmt.Permuted (.declare name isMutable ty (some e)) (.declare name isMutable ty (some e'))
  | assign {e e' : Expr} (name : String) (value : Expr.Permuted e e') :
      Stmt.Permuted (.assign name e) (.assign name e')
  | setIndex {e e' i i' v v' : Expr} (container : Expr.Permuted e e')
      (position : Expr.Permuted i i') (value : Expr.Permuted v v') :
      Stmt.Permuted (.setIndex e i v) (.setIndex e' i' v')
  | setField {e e' v v' : Expr} (field : String) (structType : Option StructType)
      (object : Expr.Permuted e e') (value : Expr.Permuted v v') :
      Stmt.Permuted (.setField e field v structType) (.setField e' field v' structType)
  | ret {e e' : Expr} (value : Expr.Permuted e e') :
      Stmt.Permuted (.ret (some e)) (.ret (some e'))
  | loop {e e' : Expr} {ss ss' : List Stmt} (condition : Expr.Permuted e e')
      (body : Stmt.PermutedList ss ss') : Stmt.Permuted (.loop e ss) (.loop e' ss')
  | function {ss ss' : List Stmt} (header : FunctionHeader) (body : Stmt.PermutedList ss ss') :
      Stmt.Permuted (.function header ss) (.function header ss')
  | block {ss ss' : List Stmt} (body : Stmt.PermutedList ss ss') :
      Stmt.Permuted (.block ss) (.block ss')
  | expr {e e' : Expr} (value : Expr.Permuted e e') : Stmt.Permuted (.expr e) (.expr e')

inductive Stmt.PermutedList : List Stmt → List Stmt → Prop
  | nil : Stmt.PermutedList [] []
  | cons {s s' : Stmt} {ss ss' : List Stmt} (head : Stmt.Permuted s s')
      (tail : Stmt.PermutedList ss ss') : Stmt.PermutedList (s :: ss) (s' :: ss')

end

/-! ## What does not depend on the order -/

theorem Expr.PermutedList.length_eq {es es' : List Expr} (h : Expr.PermutedList es es') :
    es.length = es'.length := by
  induction es generalizing es' with
  | nil => cases h; rfl
  | cons e es ih =>
      cases h with
      | cons head tail => rw [List.length_cons, List.length_cons, ih tail]

theorem Expr.PermutedPairs.length_eq {ps ps' : List (Expr × Expr)} (h : Expr.PermutedPairs ps ps') :
    ps.length = ps'.length := by
  induction ps generalizing ps' with
  | nil => cases h; rfl
  | cons p ps ih =>
      cases h with
      | cons key value tail => rw [List.length_cons, List.length_cons, ih tail]

theorem Expr.PermutedInitializers.names_eq {is is' : List (String × Expr)}
    (h : Expr.PermutedInitializers is is') : is.map Prod.fst = is'.map Prod.fst := by
  induction is generalizing is' with
  | nil => cases h; rfl
  | cons i is ih =>
      cases h with
      | cons name value tail => rw [List.map_cons, List.map_cons, ih tail]

theorem Expr.Permuted.calleeName?_eq {e e' : Expr} (h : Expr.Permuted e e')
    (overload : Option String) : e.calleeName? overload = e'.calleeName? overload := by
  cases h <;> cases overload <;> rfl

mutual

theorem Expr.Permuted.typeOf_eq (c : Compiler) :
    ∀ {e e' : Expr}, Expr.Permuted e e' → c.typeOf e = c.typeOf e'
  | _, _, .refl _ => rfl
  | _, _, .unary .bang _ => rfl
  | _, _, .unary .minus operand => by simp only [typeOf, operand.typeOf_eq c]
  | _, _, .binary op left right => by simp only [typeOf, left.typeOf_eq c]
  | _, _, .cond condition consequence => by simp only [typeOf, consequence.typeOfLast_eq c]
  | _, _, .condElse condition consequence alternative => by
      simp only [typeOf, consequence.typeOfLast_eq c]
  | _, _, .function name signature body => by simp only [typeOf]
  | _, _, .call overload callee arguments => by
      simp only [typeOf, callee.calleeName?_eq, callee.typeOf_eq c, arguments.typeOfFirst_eq c]
  | _, _, .array elements => by simp only [typeOf, elements.typeOfFirst_eq c]
  | _, _, .hash pairs => by simp only [typeOf, pairs.typeOfPairs_eq c]
  | _, _, .index container position => by simp only [typeOf, container.typeOf_eq c]
  | _, _, .struct typeName initializers => by simp only [typeOf]
  | _, _, .structOrder typeName initializers order distinct => by simp only [typeOf]
  | _, _, .select field structType object => by simp only [typeOf, object.typeOf_eq c]

theorem Expr.PermutedList.typeOfFirst_eq (c : Compiler) :
    ∀ {es es' : List Expr}, Expr.PermutedList es es' → c.typeOfFirst es = c.typeOfFirst es'
  | _, _, .nil => rfl
  | _, _, .cons head tail => by simp only [typeOfFirst, head.typeOf_eq c]

theorem Expr.PermutedPairs.typeOfPairs_eq (c : Compiler) :
    ∀ {ps ps' : List (Expr × Expr)}, Expr.PermutedPairs ps ps' →
      c.typeOfPairs ps = c.typeOfPairs ps'
  | _, _, .nil => rfl
  | _, _, .cons key value tail => by simp only [typeOfPairs, key.typeOf_eq c, value.typeOf_eq c]

theorem Stmt.PermutedList.typeOfLast_eq (c : Compiler) :
    ∀ {ss ss' : List Stmt}, Stmt.PermutedList ss ss' → c.typeOfLast ss = c.typeOfLast ss'
  | _, _, .nil => rfl
  | _, _, .cons head .nil => head.typeOfLast_singleton_eq c
  | _, _, .cons head (.cons next tail) => by
      have hrest := Stmt.PermutedList.typeOfLast_eq c (.cons next tail)
      simpa only [typeOfLast] using hrest

theorem Stmt.Permuted.typeOfLast_singleton_eq (c : Compiler) :
    ∀ {s s' : Stmt}, Stmt.Permuted s s' → c.typeOfLast [s] = c.typeOfLast [s']
  | _, _, .refl _ => rfl
  | _, _, .expr value => by simp only [typeOfLast, value.typeOf_eq c]
  | _, _, .declare _ _ _ _ | _, _, .assign _ _ | _, _, .setIndex _ _ _ | _, _, .setField _ _ _ _
  | _, _, .ret _ | _, _, .loop _ _ | _, _, .function _ _ | _, _, .block _ => by
      simp only [typeOfLast]

end

namespace CompileM

/-! ## Compilations with the same outcome -/

/-- Two refusals have the same reason, except that they may name different unknown fields of one
struct type. -/
inductive SameReason : Stop CompileError → Stop CompileError → Prop
  | refl (stop : Stop CompileError) : SameReason stop stop
  | unknownField (typeName field field' : String) :
      SameReason (.error (.unknownField typeName field)) (.error (.unknownField typeName field'))

/-- Two compilations end in the same state, both with the same result or both refused. -/
inductive SameOutcome {α : Type} : EStateM.Result (Stop CompileError) Compiler α →
    EStateM.Result (Stop CompileError) Compiler α → Prop
  | ok (a : α) (c : Compiler) : SameOutcome (.ok a c) (.ok a c)
  | error {stop stop' : Stop CompileError} (reason : SameReason stop stop') (c : Compiler) :
      SameOutcome (.error stop c) (.error stop' c)

theorem SameOutcome.refl {α : Type} (r : EStateM.Result (Stop CompileError) Compiler α) :
    SameOutcome r r := by
  cases r with
  | ok a c => exact .ok a c
  | error stop c => exact .error (.refl stop) c

/-- Two compilations have the same outcome from every state. -/
def AgreesWith {α : Type} (x y : CompileM α) : Prop :=
  ∀ c, SameOutcome (x c) (y c)

namespace AgreesWith

variable {α β : Type}

theorem refl (x : CompileM α) : AgreesWith x x :=
  fun c => .refl (x c)

theorem of_eq {x y : CompileM α} (h : x = y) : AgreesWith x y :=
  h ▸ refl x

theorem bind {x y : CompileM α} {f g : α → CompileM β} (hxy : AgreesWith x y)
    (hfg : ∀ a, AgreesWith (f a) (g a)) : AgreesWith (x >>= f) (y >>= g) := by
  intro c
  have hc := hxy c
  simp only [Bind.bind, EStateM.bind]
  generalize x c = r at hc ⊢
  generalize y c = r' at hc ⊢
  cases hc with
  | ok a c' => exact hfg a c'
  | error reason c' => exact .error reason c'

/-- The same computation comes first. -/
theorem after {x : CompileM α} {f g : α → CompileM β} (hfg : ∀ a, AgreesWith (f a) (g a)) :
    AgreesWith (x >>= f) (x >>= g) :=
  bind (refl x) hfg

theorem forM {fs : List α} {f g : α → CompileM Unit} (hfg : ∀ a, AgreesWith (f a) (g a)) :
    AgreesWith (fs.forM f) (fs.forM g) := by
  induction fs with
  | nil => exact .refl _
  | cons a fs ih => exact .bind (hfg a) fun _ => ih

end AgreesWith

/-! ## Struct literals -/

/-- The functions that a block declares are the same. -/
theorem hoist_permuted {ss ss' : List Stmt} (h : Stmt.PermutedList ss ss') :
    hoist ss = hoist ss' := by
  induction ss generalizing ss' with
  | nil => cases h; rfl
  | cons s ss ih =>
      cases h with
      | cons head tail =>
          cases head with
          | refl => cases s <;> simp only [hoist, ih tail]
          | _ => simp only [hoist, ih tail]

/-- Whether a name among the initializers has some property does not depend on their order. -/
theorem find?_eq_none_of_perm {is js : List (String × Expr)} {p : String → Bool}
    (hnames : (is.map Prod.fst).Perm (js.map Prod.fst))
    (hnone : (is.find? fun i => p i.1) = none) : (js.find? fun i => p i.1) = none := by
  rw [List.find?_eq_none] at hnone ⊢
  intro j hj
  have hmem : j.1 ∈ is.map Prod.fst := hnames.mem_iff.mpr (List.mem_map_of_mem hj)
  obtain ⟨i, hi, hname⟩ := List.mem_map.mp hmem
  rw [← hname]
  exact hnone i hi

/-- The initialized fields all occur in the struct type or not, whatever their order. -/
theorem literalType_agrees (typeName : String) {is js : List (String × Expr)}
    (hnames : (is.map Prod.fst).Perm (js.map Prod.fst)) :
    AgreesWith (literalType typeName is) (literalType typeName js) := by
  refine .bind (.refl _) fun c => ?_
  cases c.struct? typeName with
  | none => exact .refl _
  | some st =>
      -- one order has an unknown field exactly if the other one has
      let isUnknown (name : String) : Bool := (st.fieldIndex? name).isNone
      cases hi : is.find? fun i => isUnknown i.1 with
      | none =>
          have hj := find?_eq_none_of_perm hnames hi
          simp only [isUnknown] at hi hj
          simp only [hi, hj]
          exact .refl _
      | some i =>
          cases hj : js.find? fun j => isUnknown j.1 with
          | none =>
              rw [find?_eq_none_of_perm hnames.symm hj] at hi
              cases hi
          | some j =>
              simp only [isUnknown] at hi hj
              simp only [hi, hj]
              exact fun c => .error (.unknownField _ _ _) c

/-- The initializer of a field is the same in every order. -/
theorem initializer_perm (f : String × Ty) {is js : List (String × Expr)} (hperm : is.Perm js)
    (hdistinct : (is.map Prod.fst).Nodup) : initializer f is = initializer f js := by
  induction hperm with
  | nil => rfl
  | cons i _ ih =>
      obtain ⟨name, e⟩ := i
      rw [initializer_cons, initializer_cons, ih (List.nodup_cons.mp hdistinct).2]
  | swap i j is =>
      obtain ⟨name, e⟩ := i
      obtain ⟨name', e'⟩ := j
      have hne : name' ≠ name := by
        rintro rfl
        simp at hdistinct
      simp only [initializer_cons]
      by_cases hname : name = f.1
      · simp [hname, hname ▸ hne]
      · simp [hname]
  | trans hperm _ ih ih' =>
      exact (ih hdistinct).trans (ih' ((hperm.map Prod.fst).nodup_iff.mp hdistinct))

/-! ## All programs -/

theorem function_agrees (name : Option String) (signature : Signature) {x y : CompileM Unit}
    (hbody : AgreesWith x y) :
    AgreesWith (function name signature x) (function name signature y) := by
  unfold function
  refine .after fun _ => ?_
  cases name with
  | none =>
      refine .after fun _ => ?_
      exact .bind hbody fun _ => .refl _
  | some name =>
      refine .after fun _ => .after fun _ => ?_
      exact .bind hbody fun _ => .refl _

/-- Blocks agree if their statements do, and so does what comes after them. -/
theorem blockThen_agrees {ss ss' : List Stmt} (h : Stmt.PermutedList ss ss')
    (hss : AgreesWith (stmts ss) (stmts ss')) {f g : Unit → CompileM Unit}
    (hfg : ∀ a, AgreesWith (f a) (g a)) :
    AgreesWith (hoist ss >>= fun _ => stmts ss >>= f) (hoist ss' >>= fun _ => stmts ss' >>= g) := by
  rw [hoist_permuted h]
  refine .after fun _ => ?_
  exact .bind hss hfg

theorem block_agrees {ss ss' : List Stmt} (h : Stmt.PermutedList ss ss')
    (hss : AgreesWith (stmts ss) (stmts ss')) : AgreesWith (block ss) (block ss') := by
  unfold block
  rw [hoist_permuted h]
  exact .after fun _ => hss

-- what is read off static types is the same

theorem fieldIndex_permuted {e e' : Expr} (h : Expr.Permuted e e') (field : String)
    (given : Option StructType) : fieldIndex e field given = fieldIndex e' field given := by
  simp only [fieldIndex, Compiler.fieldIndex, h.typeOf_eq]

theorem declaredType_permuted {e e' : Expr} (h : Expr.Permuted e e') (given : Option Ty) :
    declaredType given e = declaredType given e' := by
  funext c
  simp only [declaredType, h.typeOf_eq c]

theorem checkCondition_permuted {e e' : Expr} (h : Expr.Permuted e e') :
    checkCondition e = checkCondition e' := by
  simp only [checkCondition, h.typeOf_eq]

/-! By recursion on how the programs differ: each form is compiled part by part, and where the parts
agree so does the whole.  Only for a literal in another order is there more to show. -/

mutual

theorem expr_agrees (bound : Option String) :
    ∀ {e e' : Expr}, Expr.Permuted e e' → AgreesWith (expr bound e) (expr bound e')
  | _, _, .refl _ => .refl _
  | _, _, .unary op operand => by
      have hoperand := expr_agrees none operand
      exact .bind hoperand fun _ => .refl _
  | _, _, .binary op left right => by
      have hleft := expr_agrees none left
      have hright := expr_agrees none right
      rw [expr_binary, expr_binary]
      cases op.isSwapped with
      | true =>
          refine .bind hright fun _ => ?_
          exact .bind hleft fun _ => .refl _
      | false =>
          refine .bind hleft fun _ => ?_
          exact .bind hright fun _ => .refl _
  | _, _, .cond condition consequence => by
      have hcondition := expr_agrees none condition
      have hyes := stmts_agree consequence
      refine .bind hcondition fun _ => .after fun toAlternative => ?_
      exact blockThen_agrees consequence hyes fun _ => .refl _
  | _, _, .condElse condition consequence alternative => by
      have hcondition := expr_agrees none condition
      have hyes := stmts_agree consequence
      have hno := stmts_agree alternative
      refine .bind hcondition fun _ => .after fun toAlternative => ?_
      refine blockThen_agrees consequence hyes fun _ => ?_
      -- the first branch is closed, and the jumps around the second one are written
      refine .after fun _ => .after fun toEnd => .after fun _ => ?_
      exact blockThen_agrees alternative hno fun _ => .refl _
  | _, _, .function name signature body => by
      have hbody := stmts_agree body
      exact function_agrees _ signature (block_agrees body hbody)
  | _, _, .call overload callee arguments => by
      have hcallee := expr_agrees none callee
      have hvalues := exprs_agree arguments
      rw [expr_call, expr_call, callee.calleeName?_eq, arguments.length_eq]
      cases Expr.calleeName? _ overload with
      | some name =>
          refine .after fun _ => .after fun _ => ?_
          exact .bind hvalues fun _ => .refl _
      | none =>
          refine .bind hcallee fun _ => ?_
          exact .bind hvalues fun _ => .refl _
  | _, _, .array elements => by
      have helements := exprs_agree elements
      refine .bind helements fun _ => ?_
      rw [elements.length_eq]
      exact .refl _
  | _, _, .hash pairs => by
      have hpairs := exprPairs_agree pairs
      refine .bind hpairs fun _ => ?_
      rw [pairs.length_eq]
      exact .refl _
  | _, _, .index container position => by
      have hcontainer := expr_agrees none container
      have hposition := expr_agrees none position
      refine .bind hcontainer fun _ => ?_
      exact .bind hposition fun _ => .refl _
  | _, _, .struct typeName initializers => by
      have htype := literalType_agrees typeName (.of_eq initializers.names_eq)
      have hfields (f : String × Ty) := initializer_agrees f initializers
      refine .bind htype fun st => ?_
      exact .bind (.forM hfields) fun _ => .refl _
  | _, _, .structOrder typeName initializers order distinct => by
      have hnames := initializers.names_eq
      have hfields (f : String × Ty) := initializer_agrees f initializers
      have htype := literalType_agrees typeName (hnames ▸ order.map Prod.fst)
      refine .bind htype fun st => ?_
      refine .bind (.forM fun f => ?_) fun _ => .refl _
      rw [← initializer_perm f order (hnames ▸ distinct)]
      exact hfields f
  | _, _, .select field structType object => by
      have hindex := fieldIndex_permuted object field structType
      have hobject := expr_agrees none object
      refine .bind (.of_eq hindex) fun i => ?_
      exact .bind hobject fun _ => .refl _

theorem exprs_agree :
    ∀ {es es' : List Expr}, Expr.PermutedList es es' → AgreesWith (exprs es) (exprs es')
  | _, _, .nil => .refl _
  | _, _, .cons head tail => by
      have hhead := expr_agrees none head
      have htail := exprs_agree tail
      exact .bind hhead fun _ => htail

theorem exprPairs_agree : ∀ {ps ps' : List (Expr × Expr)}, Expr.PermutedPairs ps ps' →
    AgreesWith (exprPairs ps) (exprPairs ps')
  | _, _, .nil => .refl _
  | _, _, .cons key value tail => by
      have hkey := expr_agrees none key
      have hvalue := expr_agrees none value
      have htail := exprPairs_agree tail
      refine .bind hkey fun _ => ?_
      exact .bind hvalue fun _ => htail

theorem initializer_agrees (f : String × Ty) : ∀ {is is' : List (String × Expr)},
    Expr.PermutedInitializers is is' → AgreesWith (initializer f is) (initializer f is')
  | _, _, .nil => .refl _
  | _, _, .cons name value tail => by
      have hvalue := expr_agrees none value
      have hrest := initializer_agrees f tail
      rw [initializer_cons, initializer_cons]
      split
      · exact hvalue
      · exact hrest

theorem stmt_agrees : ∀ {s s' : Stmt}, Stmt.Permuted s s' → AgreesWith (stmt s) (stmt s')
  | _, _, .refl _ => .refl _
  | _, _, .declare name isMutable ty value => by
      have htype := declaredType_permuted value ty
      have hvalue := expr_agrees (some name) value
      refine .after fun _ => .bind (.of_eq htype) fun declared => ?_
      exact .bind hvalue fun _ => .refl _
  | _, _, .assign name value => by
      have hvalue := expr_agrees none value
      refine .after fun symbol => .after fun _ => ?_
      exact .bind hvalue fun _ => .refl _
  | _, _, .setIndex container position value => by
      have hcontainer := expr_agrees none container
      have hposition := expr_agrees none position
      have hvalue := expr_agrees none value
      refine .bind hcontainer fun _ => .bind hposition fun _ => ?_
      exact .bind hvalue fun _ => .refl _
  | _, _, .setField field structType object value => by
      have hindex := fieldIndex_permuted object field structType
      have hobject := expr_agrees none object
      have hvalue := expr_agrees none value
      refine .bind (.of_eq hindex) fun i => .bind hobject fun _ => ?_
      exact .bind hvalue fun _ => .refl _
  | _, _, .ret value => by
      have hvalue := expr_agrees none value
      refine .after fun _ => ?_
      exact .bind hvalue fun _ => .refl _
  | _, _, .loop condition body => by
      have hcheck := checkCondition_permuted condition
      have hcondition := expr_agrees none condition
      have hbody := stmts_agree body
      refine .bind (.of_eq hcheck) fun _ => .after fun start => ?_
      refine .bind hcondition fun _ => .after fun toEnd => ?_
      exact blockThen_agrees body hbody fun _ => .refl _
  | _, _, .function header body => by
      have hbody := block_agrees body (stmts_agree body)
      have hfunction := function_agrees (some header.boundName) header.signature hbody
      refine .after fun symbol => ?_
      exact .bind hfunction fun _ => .refl _
  | _, _, .block body => by
      have hbody := stmts_agree body
      exact block_agrees body hbody
  | _, _, .expr value => by
      have hvalue := expr_agrees none value
      exact .bind hvalue fun _ => .refl _

theorem stmts_agree :
    ∀ {ss ss' : List Stmt}, Stmt.PermutedList ss ss' → AgreesWith (stmts ss) (stmts ss')
  | _, _, .nil => .refl _
  | _, _, .cons head tail => by
      have hhead := stmt_agrees head
      have htail := stmts_agree tail
      exact .bind hhead fun _ => htail

end

end CompileM

/-! ## Units -/

/-- From every state of the compiler, two programs that differ only in the order of initializers are
compiled to the same code with the same constants, or both are refused, for the same reason up to
the name of an unknown field.  The compiler is in the same state afterwards. -/
theorem Compiler.compile_permuted_initializers (c : Compiler) {p q : Program}
    (h : Stmt.PermutedList p q) :
    ((∃ unit, (c.compile p).1 = .ok unit ∧ (c.compile q).1 = .ok unit) ∨
      ∃ stop stop', (c.compile p).1 = .error stop ∧ (c.compile q).1 = .error stop' ∧
        CompileM.SameReason stop stop') ∧
    (c.compile p).2 = (c.compile q).2 := by
  have houtcome := CompileM.block_agrees h (CompileM.stmts_agree h) c
  unfold Compiler.compile
  generalize CompileM.block p c = r at houtcome ⊢
  generalize CompileM.block q c = r' at houtcome ⊢
  cases houtcome with
  | ok a c' => exact ⟨.inl ⟨_, rfl, rfl⟩, rfl⟩
  | error reason c' => exact ⟨.inr ⟨_, _, rfl, rfl, reason⟩, rfl⟩

/-- A program that builds a struct instance out of two others. -/
def segmentWith (initializers : List (String × Expr)) : Program :=
  [.structType ⟨"Point", [("x", .int), ("y", .int)]⟩,
    .structType ⟨"Segment", [("start", .struct "Point" [("x", .int), ("y", .int)]),
      ("stop", .struct "Point" [("x", .int), ("y", .int)])]⟩,
    .expr (.struct "Segment" initializers)]

def segmentInOrder : Program :=
  segmentWith
    [("start", .struct "Point" [("x", .int 1), ("y", .int 2)]),
      ("stop", .struct "Point" [("x", .int 3)])]

def segmentReversed : Program :=
  segmentWith
    [("stop", .struct "Point" [("x", .int 3)]),
      ("start", .struct "Point" [("y", .int 2), ("x", .int 1)])]

/-- The literal and one of the literals in it are written in the opposite order. -/
theorem Compiler.compile_permuted_initializers_segment :
    Stmt.PermutedList segmentInOrder segmentReversed ∧
      ∃ unit, (Compiler.new.compile segmentInOrder).1 = .ok unit ∧
        (Compiler.new.compile segmentReversed).1 = .ok unit ∧ unit.constants.size = 6 := by
  have hpoint : Expr.Permuted (.struct "Point" [("x", .int 1), ("y", .int 2)])
      (.struct "Point" [("y", .int 2), ("x", .int 1)]) :=
    .structOrder _ (.cons "x" (.refl _) (.cons "y" (.refl _) .nil)) (.swap _ _ _) (by decide)
  have hpermuted : Stmt.PermutedList segmentInOrder segmentReversed :=
    .cons (.refl _) (.cons (.refl _) (.cons (.expr (.structOrder _
      (.cons "start" hpoint (.cons "stop" (.refl _) .nil)) (.swap _ _ _) (by decide))) .nil))
  have haccepted :
      (Compiler.new.compile segmentInOrder).1.toOption.map (·.constants.size) = some 6 := by
    decide +kernel
  refine ⟨hpermuted, ?_⟩
  rcases (compile_permuted_initializers Compiler.new hpermuted).1 with
    ⟨unit, hunit, hunit'⟩ | ⟨stop, -, hstop, -⟩
  · rw [hunit] at haccepted
    exact ⟨unit, hunit, hunit', Option.some.inj haccepted⟩
  · rw [hstop] at haccepted
    cases haccepted

end ScriptEngine
