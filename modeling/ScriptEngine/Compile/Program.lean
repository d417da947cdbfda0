import ScriptEngine.Compile.Emission
import ScriptEngine.Compile.Typing

/-!
# Compiling programs

Expressions leave exactly one value on the stack, statements leave none.  Functions are bound at the
beginning of the block that declares them, so that they can refer to one another, but may not be
read there before their declaration.  A unit that is refused leaves behind the globals and the
constants that it had added.
-/

namespace ScriptEngine

def PrefixOp.opcode : PrefixOp → Opcode
  | minus => .negate
  | bang => .not

namespace InfixOp

def opcode : InfixOp → Opcode
  | add => .add
  | subtract => .sub
  | multiply => .mul
  | divide => .div
  | equal => .equal
  | notEqual => .notEqual
  | less | greater => .greater
  | lessOrEqual | greaterOrEqual => .greaterOrEqual
  | and => .and
  | or => .or

/-- Whether the right operand is computed first: `a < b` is compiled as `b > a`. -/
def isSwapped : InfixOp → Bool
  | less | lessOrEqual => true
  | _ => false

end InfixOp

namespace CompileM

/-- Binds the functions that a block declares. -/
def hoist : List Stmt → CompileM Unit
  | [] => pure ()
  | .function header _ :: rest => do
      checkFresh header.boundName
      discard (define header.boundName false (some header.signature.ty))
      modifyCurrent fun o => { o with hoisted := o.hoisted.insert header.boundName }
      hoist rest
  | _ :: rest => hoist rest

/-- Lets a branch leave the value of its last expression statement, or null. -/
def closeBranch : CompileM Unit := do
  if ← lastIs .pop then
    removeLast
  else
    emit .pushNull []

/-- Ends the code of a function: the value of a last expression statement is returned. -/
def closeBody : CompileM Unit := do
  if ← lastIs .pop then
    lastToReturn
  if !(← lastIs .returnValue) then
    emit .returnNull []

def defineParameters : List (String × Ty) → CompileM Unit
  | [] => pure ()
  | (name, ty) :: rest => do
      discard (define name false (some ty))
      defineParameters rest

def loadAll : List Symbol → CompileM Unit
  | [] => pure ()
  | symbol :: rest => do
      load symbol
      loadAll rest

/-- Compiles a function, given how its body is compiled, and builds the closure that captures what
the body needs. -/
def function (name : Option String) (signature : Signature) (body : CompileM Unit) :
    CompileM Unit := do
  enter
  match name with
  | some name => defineSelf name signature.ty
  | none => pure ()
  defineParameters signature.parameters
  body
  closeBody
  let (code, scope) ← leave
  loadAll scope.captures
  let c ← get
  let constant ← addConstant (.function ⟨c.pool.size, {
    code, locals := scope.definitions, parameters := signature.parameters.length, name }⟩)
  emit .closure [constant, scope.captures.length]

/-- The symbol of a function that is being declared: the one bound at the beginning of the block. -/
def declaredFunction (header : FunctionHeader) : CompileM Symbol := do
  let c ← get
  let name := header.boundName
  let bound := if c.current.hoisted.contains name then c.chain.current.get? name else none
  modifyCurrent fun o => { o with hoisted := o.hoisted.erase name }
  match bound with
  | some symbol => return symbol
  | none =>
      checkFresh name
      define name false (some header.signature.ty)

/-- Refuses an assignment to what is not a variable of the current scope or of the top level. -/
def checkAssignable (symbol : Symbol) : CompileM Unit :=
  match symbol.storage with
  | .captured | .self => fail (.assignToCaptured symbol.name)
  | .builtin => fail (.assignToConstant symbol.name)
  | .global | .slot =>
      if symbol.isMutable then pure () else fail (.assignToConstant symbol.name)

/-- The position of a field of an object. -/
def fieldIndex (object : Expr) (field : String) (given : Option StructType) : CompileM Nat := do
  match (← get).fieldIndex object field given with
  | .ok i => return i
  | .error e => fail e

/-- The struct type of a literal, in which all initialized fields must occur. -/
def literalType (typeName : String) (initializers : List (String × Expr)) :
    CompileM StructType := do
  match (← get).struct? typeName with
  | none => fail (.unknownStructType typeName)
  | some st =>
      match initializers.find? fun i => (st.fieldIndex? i.1).isNone with
      | some i => fail (.unknownField st.name i.1)
      | none => return st

/-- The type of a variable: the one that is given for it, or else that of its initializer. -/
def declaredType (given : Option Ty) (value : Expr) : CompileM (Option Ty) := fun c =>
  .ok (given <|> c.typeOf value) c

/-- Refuses a loop whose condition is not seen to be a truth value. -/
def checkCondition (condition : Expr) : CompileM Unit := do
  match (← get).typeOf condition with
  | some .bool => pure ()
  | ty => fail (.nonBooleanCondition ty)

/-- Refuses a return at the top level. -/
def checkInFunction : CompileM Unit := do
  if (← get).chain.depth = 0 then
    fail .returnOutsideFunction

mutual

/-- Compiles an expression.  A function literal that initializes a variable goes by the name of the
variable. -/
def expr (bound : Option String) : Expr → CompileM Unit
  | .int n => emitConstant (.int n)
  | .float x => emitConstant (.float x)
  | .str s => emitConstant (.str s)
  | .bool true => emit .pushTrue []
  | .bool false => emit .pushFalse []
  | .null => emit .pushNull []
  | .ident name => do load (← resolve name (.undefinedVariable name))
  | .unary op operand => do
      expr none operand
      emit op.opcode []
  | .binary op left right => do
      if op.isSwapped then
        expr none right
        expr none left
      else
        expr none left
        expr none right
      emit op.opcode []
  | .cond condition consequence alternative => do
      expr none condition
      let toAlternative ← emitJump .jumpNotTruthy
      hoist consequence
      stmts consequence
      closeBranch
      let toEnd ← emitJump .jump
      patchJump toAlternative
      match alternative with
      | some body =>
          hoist body
          stmts body
          closeBranch
      | none => emit .pushNull []
      patchJump toEnd
  | .function name signature body =>
      function (bound <|> name) signature do
        hoist body
        stmts body
  | .call callee arguments overload => do
      match callee.calleeName? overload with
      | some name => load (← resolve name (.undefinedFunction name))
      | none => expr none callee
      exprs arguments
      emit .call [arguments.length]
  | .array elements => do
      exprs elements
      emit .array [elements.length]
  | .hash pairs => do
      exprPairs pairs
      emit .hash [2 * pairs.length]
  | .index container position => do
      expr none container
      expr none position
      emit .index []
  | .struct typeName initializers => do
      let st ← literalType typeName initializers
      st.fields.forM fun f => initializer f initializers
      let constant ← structConstant st
      emit .struct [constant, st.fields.length]
  | .select object field structType => do
      let i ← fieldIndex object field structType
      expr none object
      emit .getField [i]

def exprs : List Expr → CompileM Unit
  | [] => pure ()
  | e :: es => do
      expr none e
      exprs es

def exprPairs : List (Expr × Expr) → CompileM Unit
  | [] => pure ()
  | (k, v) :: rest => do
      expr none k
      expr none v
      exprPairs rest

/-- Compiles the value of a field of a struct literal: its first initializer, or the zero value. -/
def initializer (field : String × Ty) : List (String × Expr) → CompileM Unit
  | [] => zeroValue field.2
  | (name, e) :: rest =>
      if name = field.1 then expr none e else initializer field rest

def stmt : Stmt → CompileM Unit
  | .expr e => do
      expr none e
      emit .pop []
  | .declare name isMutable ty value => do
      checkFresh name
      match value with
      | some e =>
          let declared ← declaredType ty e
          expr (some name) e
          store (← define name isMutable declared)
      | none =>
          zeroValueOf ty
          store (← define name isMutable ty)
  | .assign name value => do
      let symbol ← resolve name (.assignToUndefined name)
      checkAssignable symbol
      expr none value
      store symbol
  | .setIndex container position value => do
      expr none container
      expr none position
      expr none value
      emit .setIndex []
  | .setField object field value structType => do
      let i ← fieldIndex object field structType
      expr none object
      expr none value
      emit .setField [i]
  | .ret value => do
      checkInFunction
      match value with
      | some e =>
          expr none e
          emit .returnValue []
      | none => emit .returnNull []
  | .loop condition body => do
      checkCondition condition
      let start ← position
      expr none condition
      let toEnd ← emitJump .jumpNotTruthy
      hoist body
      stmts body
      emit .jump [start]
      patchJump toEnd
      emit .pushNull []
      emit .pop []
  | .function header body => do
      let symbol ← declaredFunction header
      function (some header.boundName) header.signature do
        hoist body
        stmts body
      store symbol
  | .structType type => discard (registerStruct type)
  | .block body => do
      hoist body
      stmts body

def stmts : List Stmt → CompileM Unit
  | [] => pure ()
  | s :: rest => do
      stmt s
      stmts rest

end

/-- Compiles a block in the current scope. -/
def block (body : List Stmt) : CompileM Unit := do
  hoist body
  stmts body

end CompileM

/-- A compiled unit: its code and all constants so far. -/
structure Bytecode where
  code : Code
  constants : Array Value
deriving DecidableEq

namespace Compiler

/-- Compiles a unit.  The compiler is ready for the next unit afterwards, whether this one was
accepted or not. -/
def compile (c : Compiler) (program : Program) :
    Except (Stop CompileError) Bytecode × Compiler :=
  match CompileM.block program c with
  | .ok _ c => (.ok ⟨c.current.code, c.pool⟩, { c with current := .empty })
  | .error stop c => (.error stop, c.unwind)

end Compiler

def compileProgram (program : Program) : Except (Stop CompileError) Bytecode :=
  (Compiler.new.compile program).1

end ScriptEngine
