import ScriptEngine.Compile.Program
import ScriptEngine.Proofs.Assembly

/-!
# Compilation as a relation

`Compiles E p t E'` says that a phrase `p` of a program is compiled to the structured code `t`, and
how what the compiler knows changes from `E` to `E'`.  There is one rule for each form of a phrase,
with the checks that the form has to pass.  Writing bytes, patching jumps and taking instructions
back do not occur here; that the compiler follows the rules is shown in `Compile/Writing`.
-/

namespace ScriptEngine

/-- What the compiler knows at one point, apart from the code under construction. -/
structure Env where
  pool : Array Value
  chain : ScopeChain
  structs : Std.TreeMap String KnownStruct
  /-- The functions of the current scope that are still to be declared. -/
  hoisted : Std.TreeSet String

namespace Env

/-- A compiler that knows this and has written nothing. -/
def compiler (E : Env) : Compiler :=
  { pool := E.pool
    chain := E.chain
    current := { OpenCode.empty with hoisted := E.hoisted }
    enclosing := []
    structs := E.structs }

/-- After a constant is added to the pool. -/
def keep (E : Env) (v : Value) : Env :=
  { E with pool := E.pool.push v }

/-- After a name is resolved. -/
def resolve? (E : Env) (name : String) : Option (Symbol × Env) :=
  (E.chain.resolve? name).map fun (r, chain) => (r.symbol, { E with chain })

/-- Whether the value of a symbol can be read: it is not a function that the current scope has yet
to declare. -/
def canLoad (E : Env) (x : Symbol) : Bool :=
  !(x.storage.isDeclared && E.hoisted.contains x.name)

/-- After a name is declared in the current scope. -/
def define (E : Env) (name : String) (isMutable : Bool) (ty : Option Ty) : Symbol × Env :=
  let (symbol, chain) := E.chain.define name isMutable ty
  (symbol, { E with chain })

/-- After the functions that a block declares are bound, unless one of them is declared already. -/
def hoist? (E : Env) : List Stmt → Option Env
  | [] => some E
  | .function header _ :: rest =>
      if (E.chain.conflict? header.boundName).isSome then
        none
      else
        let E := (E.define header.boundName false (some header.signature.ty)).2
        { E with hoisted := E.hoisted.insert header.boundName }.hoist? rest
  | _ :: rest => E.hoist? rest

/-- The symbol of a function that is being declared. -/
def declared? (E : Env) (header : FunctionHeader) : Option (Symbol × Env) :=
  let name := header.boundName
  let bound := if E.hoisted.contains name then E.chain.current.get? name else none
  let E := { E with hoisted := E.hoisted.erase name }
  match bound with
  | some symbol => some (symbol, E)
  | none =>
      if (E.chain.conflict? name).isSome then
        none
      else
        some (E.define name false (some header.signature.ty))

/-- After the parameters of a function are declared. -/
def withParameters (E : Env) : List (String × Ty) → Env
  | [] => E
  | (name, ty) :: rest => (E.define name false (some ty)).2.withParameters rest

/-- At the beginning of the body of a function. -/
def enter (E : Env) (name : Option String) (signature : Signature) : Env :=
  let chain := E.chain.push
  let chain :=
    match name with
    | some name => (chain.defineSelf name (some signature.ty)).2
    | none => chain
  { E with chain, hoisted := ∅ }.withParameters signature.parameters

/-- The constant of a struct type, which becomes known if none of its name is. -/
def structConstant (E : Env) (type : StructType) : Nat × Env :=
  match E.structs.get? type.name with
  | some known => (known.constant, E)
  | none =>
      let constant := E.pool.size
      (constant,
        { E with
          pool := E.pool.push (.structType ⟨constant, type⟩)
          structs := E.structs.insert type.name ⟨type, constant⟩ })

/-- After a struct type is declared. -/
def register (E : Env) (type : StructType) : Env :=
  { E with
    pool := E.pool.push (.structType ⟨E.pool.size, type⟩)
    structs := E.structs.insert type.name ⟨type, E.pool.size⟩ }

end Env

namespace Symbol

def load (x : Symbol) : Instruction :=
  ⟨(CompileM.loadOf x).1, (CompileM.loadOf x).2⟩

/-- The instruction that stores a value in the variable of a symbol. -/
def store? (x : Symbol) : Option Instruction :=
  match x.storage, x.isMutable with
  | .global, true => some ⟨.setGlobal, [x.index]⟩
  | .global, false => some ⟨.setConstGlobal, [x.index]⟩
  | .slot, true => some ⟨.setLocal, [x.index]⟩
  | .slot, false => some ⟨.setConstLocal, [x.index]⟩
  | _, _ => none

/-- Whether a program may assign to the symbol. -/
def isAssignable (x : Symbol) : Bool :=
  x.storage.isDeclared && x.isMutable

end Symbol

namespace Assembly

def ofList : List Instruction → Assembly
  | [] => done
  | i :: is => op i (ofList is)

/-- The instruction at the very end, if no choice or loop is there. -/
def last? : Assembly → Option Instruction
  | done => none
  | op i done => some i
  | op _ rest => rest.last?
  | choice _ _ _ rest => rest.last?
  | loop _ _ rest => rest.last?

@[simp] theorem last?_append_single (t : Assembly) (i : Instruction) :
    (t ++ single i).last? = some i := by
  induction t with
  | done => rfl
  | op j rest ih =>
      cases rest <;> exact ih
  | choice test yes no rest _ _ _ ih => exact ih
  | loop test body rest _ _ ih => exact ih

theorem append_single_ne_done (t : Assembly) (i : Instruction) : t ++ single i ≠ done := by
  cases t <;> nofun

theorem append_eq_done {t u : Assembly} (h : t ++ u = done) : u = done := by
  cases t with
  | done => exact h
  | _ => cases h

theorem last?_append {t u : Assembly} {i : Instruction} (h : u.last? = some i) :
    (t ++ u).last? = some i := by
  induction t with
  | done => exact h
  | op j rest ih =>
      cases hrest : rest ++ u with
      | done => rw [append_eq_done hrest] at h; cases h
      | _ => rw [op_append, hrest]; rw [hrest] at ih; exact ih
  | choice test yes no rest _ _ _ ih => exact ih
  | loop test body rest _ _ ih => exact ih

/-- The last instruction of two pieces of code is that of the second one. -/
theorem append_eq_append_single {t u v : Assembly} {i : Instruction} (hu : u ≠ done)
    (h : t ++ u = v ++ single i) : ∃ w, u = w ++ single i ∧ v = t ++ w := by
  induction t generalizing v with
  | done => exact ⟨v, h, rfl⟩
  | op j rest ih =>
      cases v with
      | done => exact absurd (append_eq_done (Assembly.op.inj h).2) hu
      | op j' rest' =>
          obtain ⟨rfl, hrest⟩ := Assembly.op.inj h
          obtain ⟨w, hw, rfl⟩ := ih hrest
          exact ⟨w, hw, rfl⟩
      | choice | loop => cases h
  | choice test yes no rest _ _ _ ih =>
      cases v with
      | choice test' yes' no' rest' =>
          obtain ⟨rfl, rfl, rfl, hrest⟩ := Assembly.choice.inj h
          obtain ⟨w, hw, rfl⟩ := ih hrest
          exact ⟨w, hw, rfl⟩
      | _ => cases h
  | loop test body rest _ _ ih =>
      cases v with
      | loop test' body' rest' =>
          obtain ⟨rfl, rfl, hrest⟩ := Assembly.loop.inj h
          obtain ⟨w, hw, rfl⟩ := ih hrest
          exact ⟨w, hw, rfl⟩
      | _ => cases h

theorem append_single_inj {t u : Assembly} {i j : Instruction}
    (h : t ++ single i = u ++ single j) : t = u ∧ i = j := by
  obtain ⟨w, hw, rfl⟩ := append_eq_append_single (append_single_ne_done done i) h
  cases w with
  | done => exact ⟨(append_done t).symm, (Assembly.op.inj hw).1⟩
  | op k rest => exact absurd (Assembly.op.inj hw).2.symm (append_single_ne_done rest j)
  | choice | loop => cases hw

/-- A block is made to leave a value: that of its last expression statement, or null. -/
inductive LeavesValue : Assembly → Assembly → Prop
  | value (t : Assembly) : LeavesValue (t ++ single ⟨.pop, []⟩) t
  | null {t : Assembly} (h : t.last? ≠ some ⟨.pop, []⟩) :
      LeavesValue t (t ++ single ⟨.pushNull, []⟩)

/-- A function body is made to return: the value of its last expression statement, or null. -/
inductive Returns : Assembly → Assembly → Prop
  | value (t : Assembly) : Returns (t ++ single ⟨.pop, []⟩) (t ++ single ⟨.returnValue, []⟩)
  | already (t : Assembly) :
      Returns (t ++ single ⟨.returnValue, []⟩) (t ++ single ⟨.returnValue, []⟩)
  | null {t : Assembly} (hpop : t.last? ≠ some ⟨.pop, []⟩)
      (hreturn : t.last? ≠ some ⟨.returnValue, []⟩) :
      Returns t (t ++ single ⟨.returnNull, []⟩)

end Assembly

/-- A part of a program that is compiled as a whole. -/
inductive Phrase
  /-- An expression; a function literal goes by the given name. -/
  | expr (bound : Option String) (e : Expr)
  /-- The use of a name. -/
  | use (name : String)
  | exprs (es : List Expr)
  | pairs (ps : List (Expr × Expr))
  /-- The fields of a struct literal in storage order. -/
  | fields (fs : List (String × Ty)) (initializers : List (String × Expr))
  | field (f : String × Ty) (initializers : List (String × Expr))
  | zero (ty : Ty)
  | zeros (fs : List (String × Ty))
  /-- The value of a block. -/
  | branch (body : List Stmt)
  | otherwise (alternative : Option (List Stmt))
  | closure (name : Option String) (signature : Signature) (body : List Stmt)
  | stmt (s : Stmt)
  | stmts (ss : List Stmt)
  | block (body : List Stmt)

namespace Phrase

/-- The number of values that the code of a phrase leaves on the stack. -/
def gain : Phrase → Nat
  | exprs es => es.length
  | pairs ps => 2 * ps.length
  | fields fs _ => fs.length
  | zeros fs => fs.length
  | stmt _ | stmts _ | block _ => 0
  | _ => 1

/-- Whether a phrase consists of statements. -/
def isStatement : Phrase → Bool
  | stmt _ | stmts _ | block _ => true
  | _ => false

end Phrase

open Assembly in
/-- A phrase is compiled to structured code, and what the compiler knows changes from the first
environment to the second. -/
inductive Compiles : Env → Phrase → Assembly → Env → Prop
  -- literals
  | int {E b} (n : Int64) :
      Compiles E (.expr b (.int n)) (single ⟨.constant, [E.pool.size]⟩) (E.keep (.int n))
  | float {E b} (x : Float) :
      Compiles E (.expr b (.float x)) (single ⟨.constant, [E.pool.size]⟩) (E.keep (.float x))
  | str {E b} (s : String) :
      Compiles E (.expr b (.str s)) (single ⟨.constant, [E.pool.size]⟩) (E.keep (.str s))
  | boolTrue {E b} : Compiles E (.expr b (.bool true)) (single ⟨.pushTrue, []⟩) E
  | boolFalse {E b} : Compiles E (.expr b (.bool false)) (single ⟨.pushFalse, []⟩) E
  | null {E b} : Compiles E (.expr b .null) (single ⟨.pushNull, []⟩) E
  -- names and operators
  | use {E E' name x} (resolved : E.resolve? name = some (x, E')) (readable : E'.canLoad x = true) :
      Compiles E (.use name) (single x.load) E'
  | ident {E E' b name t} (named : Compiles E (.use name) t E') :
      Compiles E (.expr b (.ident name)) t E'
  | unary {E E' b op e t} (operand : Compiles E (.expr none e) t E') :
      Compiles E (.expr b (.unary op e)) (t ++ single ⟨op.opcode, []⟩) E'
  | binary {E₁ E₂ E₃ b op l r t u} (inOrder : op.isSwapped = false)
      (left : Compiles E₁ (.expr none l) t E₂) (right : Compiles E₂ (.expr none r) u E₃) :
      Compiles E₁ (.expr b (.binary op l r)) (t ++ (u ++ single ⟨op.opcode, []⟩)) E₃
  | swapped {E₁ E₂ E₃ b op l r t u} (reversed : op.isSwapped = true)
      (right : Compiles E₁ (.expr none r) t E₂) (left : Compiles E₂ (.expr none l) u E₃) :
      Compiles E₁ (.expr b (.binary op l r)) (t ++ (u ++ single ⟨op.opcode, []⟩)) E₃
  | cond {E₁ E₂ E₃ E₄ b c yes no t u v} (condition : Compiles E₁ (.expr none c) t E₂)
      (consequence : Compiles E₂ (.branch yes) u E₃)
      (alternative : Compiles E₃ (.otherwise no) v E₄) :
      Compiles E₁ (.expr b (.cond c yes no)) (choice t u v done) E₄
  | branch {E E' body t u} (statements : Compiles E (.block body) t E') (value : LeavesValue t u) :
      Compiles E (.branch body) u E'
  | otherwise {E E' body t} (alternative : Compiles E (.branch body) t E') :
      Compiles E (.otherwise (some body)) t E'
  | nothing {E} : Compiles E (.otherwise none) (single ⟨.pushNull, []⟩) E
  -- containers and calls
  | function {E E' b name signature body t}
      (closed : Compiles E (.closure (b <|> name) signature body) t E') :
      Compiles E (.expr b (.function name signature body)) t E'
  | callNamed {E₁ E₂ E₃ b callee arguments overload name t u}
      (named : callee.calleeName? overload = some name)
      (function : Compiles E₁ (.use name) t E₂) (values : Compiles E₂ (.exprs arguments) u E₃) :
      Compiles E₁ (.expr b (.call callee arguments overload))
        (t ++ (u ++ single ⟨.call, [arguments.length]⟩)) E₃
  | callValue {E₁ E₂ E₃ b callee arguments overload t u}
      (unnamed : callee.calleeName? overload = none)
      (function : Compiles E₁ (.expr none callee) t E₂)
      (values : Compiles E₂ (.exprs arguments) u E₃) :
      Compiles E₁ (.expr b (.call callee arguments overload))
        (t ++ (u ++ single ⟨.call, [arguments.length]⟩)) E₃
  | array {E E' b elements t} (values : Compiles E (.exprs elements) t E') :
      Compiles E (.expr b (.array elements)) (t ++ single ⟨.array, [elements.length]⟩) E'
  | hash {E E' b pairs t} (values : Compiles E (.pairs pairs) t E') :
      Compiles E (.expr b (.hash pairs)) (t ++ single ⟨.hash, [2 * pairs.length]⟩) E'
  | index {E₁ E₂ E₃ b container position t u} (object : Compiles E₁ (.expr none container) t E₂)
      (place : Compiles E₂ (.expr none position) u E₃) :
      Compiles E₁ (.expr b (.index container position)) (t ++ (u ++ single ⟨.index, []⟩)) E₃
  | struct {E E' b typeName initializers st t}
      (known : E.compiler.struct? typeName = some st)
      (fieldsKnown : (initializers.find? fun i => (st.fieldIndex? i.1).isNone) = none)
      (values : Compiles E (.fields st.fields initializers) t E') :
      Compiles E (.expr b (.struct typeName initializers))
        (t ++ single ⟨.struct, [(E'.structConstant st).1, st.fields.length]⟩)
        (E'.structConstant st).2
  | select {E E' b object field given i t}
      (found : E.compiler.fieldIndex object field given = .ok i)
      (value : Compiles E (.expr none object) t E') :
      Compiles E (.expr b (.select object field given)) (t ++ single ⟨.getField, [i]⟩) E'
  -- several values in turn
  | exprsNil {E} : Compiles E (.exprs []) done E
  | exprsCons {E₁ E₂ E₃ e es t u} (head : Compiles E₁ (.expr none e) t E₂)
      (tail : Compiles E₂ (.exprs es) u E₃) : Compiles E₁ (.exprs (e :: es)) (t ++ u) E₃
  | pairsNil {E} : Compiles E (.pairs []) done E
  | pairsCons {E₁ E₂ E₃ E₄ k v ps t u w} (key : Compiles E₁ (.expr none k) t E₂)
      (value : Compiles E₂ (.expr none v) u E₃) (tail : Compiles E₃ (.pairs ps) w E₄) :
      Compiles E₁ (.pairs ((k, v) :: ps)) (t ++ (u ++ w)) E₄
  | fieldsNil {E initializers} : Compiles E (.fields [] initializers) done E
  | fieldsCons {E₁ E₂ E₃ f fs initializers t u} (head : Compiles E₁ (.field f initializers) t E₂)
      (tail : Compiles E₂ (.fields fs initializers) u E₃) :
      Compiles E₁ (.fields (f :: fs) initializers) (t ++ u) E₃
  | fieldGiven {E E' f e rest t} (value : Compiles E (.expr none e) t E') :
      Compiles E (.field f ((f.1, e) :: rest)) t E'
  | fieldLater {E E' f name e rest t} (other : name ≠ f.1)
      (value : Compiles E (.field f rest) t E') :
      Compiles E (.field f ((name, e) :: rest)) t E'
  | fieldZero {E E' f t} (value : Compiles E (.zero f.2) t E') : Compiles E (.field f []) t E'
  -- zero values
  | zeroInt {E} : Compiles E (.zero .int) (single ⟨.constant, [E.pool.size]⟩) (E.keep (.int 0))
  | zeroFloat {E} :
      Compiles E (.zero .float) (single ⟨.constant, [E.pool.size]⟩) (E.keep (.float 0))
  | zeroString {E} :
      Compiles E (.zero .string) (single ⟨.constant, [E.pool.size]⟩) (E.keep (.str ""))
  | zeroBool {E} : Compiles E (.zero .bool) (single ⟨.pushFalse, []⟩) E
  | zeroNull {E} : Compiles E (.zero .null) (single ⟨.pushNull, []⟩) E
  | zeroFunc {E parameters result} :
      Compiles E (.zero (.func parameters result)) (single ⟨.pushNull, []⟩) E
  | zeroArray {E element} : Compiles E (.zero (.array element)) (single ⟨.array, [0]⟩) E
  | zeroHash {E key value} : Compiles E (.zero (.hash key value)) (single ⟨.hash, [0]⟩) E
  | zeroStruct {E E' name fields t} (values : Compiles E (.zeros fields) t E') :
      Compiles E (.zero (.struct name fields))
        (t ++ single ⟨.struct, [(E'.structConstant ⟨name, fields⟩).1, fields.length]⟩)
        (E'.structConstant ⟨name, fields⟩).2
  | zerosNil {E} : Compiles E (.zeros []) done E
  | zerosCons {E₁ E₂ E₃ f fs t u} (head : Compiles E₁ (.zero f.2) t E₂)
      (tail : Compiles E₂ (.zeros fs) u E₃) : Compiles E₁ (.zeros (f :: fs)) (t ++ u) E₃
  -- functions
  | closure {E E' name signature body t u scope chain code}
      (statements : Compiles (E.enter name signature) (.block body) t E')
      (returns : Returns t u) (written : Code.Adds .empty (u.instrs 0) code)
      (left : E'.chain.pop? = some (scope, chain))
      (readable : ∀ x ∈ scope.captures, { E' with chain, hoisted := E.hoisted }.canLoad x = true) :
      Compiles E (.closure name signature body)
        (ofList (scope.captures.map Symbol.load) ++
          single ⟨.closure, [E'.pool.size, scope.captures.length]⟩)
        ({ E' with chain, hoisted := E.hoisted }.keep (.function ⟨E'.pool.size,
          { code
            locals := scope.definitions
            parameters := signature.parameters.length
            name }⟩))
  -- statements
  | expr {E E' e t} (value : Compiles E (.expr none e) t E') :
      Compiles E (.stmt (.expr e)) (t ++ single ⟨.pop, []⟩) E'
  | declare {E E' name isMutable ty e t i} (fresh : E.chain.conflict? name = none)
      (value : Compiles E (.expr (some name) e) t E')
      (store : (E'.define name isMutable (ty <|> E.compiler.typeOf e)).1.store? = some i) :
      Compiles E (.stmt (.declare name isMutable ty (some e))) (t ++ single i)
        (E'.define name isMutable (ty <|> E.compiler.typeOf e)).2
  | declareZero {E E' name isMutable ty t i} (fresh : E.chain.conflict? name = none)
      (value : Compiles E (.zero (ty.getD .null)) t E')
      (store : (E'.define name isMutable ty).1.store? = some i) :
      Compiles E (.stmt (.declare name isMutable ty none)) (t ++ single i)
        (E'.define name isMutable ty).2
  | assign {E₁ E₂ E₃ name e x t i} (resolved : E₁.resolve? name = some (x, E₂))
      (assignable : x.isAssignable = true) (value : Compiles E₂ (.expr none e) t E₃)
      (store : x.store? = some i) : Compiles E₁ (.stmt (.assign name e)) (t ++ single i) E₃
  | setIndex {E₁ E₂ E₃ E₄ container position value t u v}
      (object : Compiles E₁ (.expr none container) t E₂)
      (place : Compiles E₂ (.expr none position) u E₃)
      (content : Compiles E₃ (.expr none value) v E₄) :
      Compiles E₁ (.stmt (.setIndex container position value))
        (t ++ (u ++ (v ++ single ⟨.setIndex, []⟩))) E₄
  | setField {E₁ E₂ E₃ object field value given i t u}
      (found : E₁.compiler.fieldIndex object field given = .ok i)
      (target : Compiles E₁ (.expr none object) t E₂)
      (content : Compiles E₂ (.expr none value) u E₃) :
      Compiles E₁ (.stmt (.setField object field value given))
        (t ++ (u ++ single ⟨.setField, [i]⟩)) E₃
  | ret {E E' e t} (inFunction : E.chain.depth ≠ 0) (value : Compiles E (.expr none e) t E') :
      Compiles E (.stmt (.ret (some e))) (t ++ single ⟨.returnValue, []⟩) E'
  | retNull {E} (inFunction : E.chain.depth ≠ 0) :
      Compiles E (.stmt (.ret none)) (single ⟨.returnNull, []⟩) E
  | loop {E₁ E₂ E₃ c body t u} (boolean : E₁.compiler.typeOf c = some .bool)
      (condition : Compiles E₁ (.expr none c) t E₂) (again : Compiles E₂ (.block body) u E₃) :
      Compiles E₁ (.stmt (.loop c body))
        (Assembly.loop t u (single ⟨.pushNull, []⟩) ++ single ⟨.pop, []⟩) E₃
  | declareFunction {E₁ E₂ E₃ header body x t i} (bound : E₁.declared? header = some (x, E₂))
      (value : Compiles E₂ (.closure (some header.boundName) header.signature body) t E₃)
      (store : x.store? = some i) :
      Compiles E₁ (.stmt (.function header body)) (t ++ single i) E₃
  | structType {E} (type : StructType) :
      Compiles E (.stmt (.structType type)) done (E.register type)
  | inner {E E' body t} (statements : Compiles E (.block body) t E') :
      Compiles E (.stmt (.block body)) t E'
  | stmtsNil {E} : Compiles E (.stmts []) done E
  | stmtsCons {E₁ E₂ E₃ s ss t u} (head : Compiles E₁ (.stmt s) t E₂)
      (tail : Compiles E₂ (.stmts ss) u E₃) : Compiles E₁ (.stmts (s :: ss)) (t ++ u) E₃
  | block {E₁ E₂ E₃ body t} (hoisted : E₁.hoist? body = some E₂)
      (statements : Compiles E₂ (.stmts body) t E₃) : Compiles E₁ (.block body) t E₃

end ScriptEngine
