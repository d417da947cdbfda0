import ScriptEngine.Compile.State

/-!
# Writing code

The steps of which a compilation is made: writing instructions, mending the last one, patching jumps
once their target is known, keeping constants and struct types, opening and closing functions, and
loading and storing variables.
-/

namespace ScriptEngine

namespace CompileM

def fail {α : Type} (e : CompileError) : CompileM α :=
  throw (.error e)

@[inline] def modifyCurrent (change : OpenCode → OpenCode) : CompileM Unit :=
  modify fun c => { c with current := change c.current }

def position : CompileM Nat := fun c =>
  .ok c.current.code.size c

/-- Writes the bytes of an instruction and records it as the last one. -/
def append (opcode : Opcode) (bytes : List UInt8) : CompileM Unit :=
  modifyCurrent fun o =>
    let offset := o.code.size
    { o with
      code := o.code.append bytes
      last := some ⟨opcode, offset⟩
      previous := o.last }

def emit (opcode : Opcode) (operands : List Nat) : CompileM Unit :=
  match opcode.encode operands with
  | .ok bytes => append opcode bytes
  | .error e => fail (.encode e)

def addConstant (v : Value) : CompileM Nat := fun c =>
  .ok c.pool.size { c with pool := c.pool.push v }

def emitConstant (v : Value) : CompileM Unit := do
  emit .constant [← addConstant v]

/-- Whether the last instruction has an opcode. -/
def lastIs (opcode : Opcode) : CompileM Bool := fun c =>
  .ok ((c.current.last.map Emitted.opcode) == some opcode) c

/-- Takes the last instruction away again. -/
def removeLast : CompileM Unit :=
  modifyCurrent fun o =>
    match o.last with
    | some last => { o with code := o.code.truncate last.position, last := o.previous }
    | none => o

/-- Writes bytes over those at an offset. -/
def overwrite (offset : Nat) (bytes : List UInt8) : CompileM Unit := do
  let c ← get
  if c.current.code.hasRoom offset bytes then
    modifyCurrent fun o => { o with code := o.code.overwrite offset bytes }
  else
    throw (.crash .overwriteOutOfRange)

/-- Turns the last instruction, which has no operands, into a return of the topmost value. -/
def lastToReturn : CompileM Unit := do
  let c ← get
  match c.current.last with
  | some last =>
      overwrite last.position [Opcode.returnValue.toByte]
      modifyCurrent fun o => { o with last := some { last with opcode := .returnValue } }
  | none => pure ()

/-- The target that is written in a jump until the real one is known. -/
def unknownTarget : Nat :=
  9999

/-- Writes a jump whose target is not known yet and gives its offset. -/
def emitJump (opcode : Opcode) : CompileM Nat := do
  let offset ← position
  emit opcode [unknownTarget]
  return offset

/-- Lets the jump at an offset go to the next instruction. -/
def patchJump (offset : Nat) : CompileM Unit := do
  let target ← position
  let c ← get
  match c.current.code.bytes[offset]? with
  | none => throw (.crash .overwriteOutOfRange)
  | some byte =>
      match Opcode.ofByte? byte with
      | none => fail (.encode (.unknownOpcode byte))
      | some opcode =>
          match opcode.encode [target] with
          | .error e => fail (.encode e)
          | .ok bytes => overwrite offset bytes

def enter : CompileM Unit :=
  modify fun c =>
    { c with chain := c.chain.push, current := .empty, enclosing := c.current :: c.enclosing }

/-- Closes the scope of a function and gives its code and its names. -/
def leave : CompileM (Code × Scope) := fun c =>
  let (scope, chain) := c.chain.pop?.getD (.empty false, c.chain)
  .ok (c.current.code, scope)
    { c with chain, current := c.enclosing.headD .empty, enclosing := c.enclosing.tail }

/-- Refuses a name that the current scope has declared already. -/
def checkFresh (name : String) : CompileM Unit := do
  let c ← get
  if (c.chain.conflict? name).isSome then
    fail (.redeclared name)

def define (name : String) (isMutable : Bool) (ty : Option Ty) : CompileM Symbol := fun c =>
  let (symbol, chain) := c.chain.define name isMutable ty
  .ok symbol { c with chain }

/-- Lets the function of the current scope refer to itself by name. -/
def defineSelf (name : String) (ty : Ty) : CompileM Unit :=
  modify fun c => { c with chain := (c.chain.defineSelf name (some ty)).2 }

/-- Resolves a name, or refuses the program. -/
def resolve (name : String) (otherwise : CompileError) : CompileM Symbol := fun c =>
  match c.chain.resolve? name with
  | some (r, chain) => .ok r.symbol { c with chain }
  | none => .error (.error otherwise) c

/-- The instruction that loads the value of a symbol. -/
def loadOf (symbol : Symbol) : Opcode × List Nat :=
  match symbol.storage, symbol.isMutable with
  | .global, true => (.getGlobal, [symbol.index])
  | .global, false => (.getConstGlobal, [symbol.index])
  | .slot, true => (.getLocal, [symbol.index])
  | .slot, false => (.getConstLocal, [symbol.index])
  | .captured, _ => (.getFree, [symbol.index])
  | .builtin, _ => (.getBuiltin, [symbol.index])
  | .self, _ => (.currentClosure, [])

/-- Loads the value of a symbol.  A function that the current scope has yet to declare has no value
so far. -/
def load (symbol : Symbol) : CompileM Unit := do
  let c ← get
  if symbol.storage.isDeclared && c.current.hoisted.contains symbol.name then
    fail (.usedBeforeDeclaration symbol.name)
  else
    let (opcode, operands) := loadOf symbol
    emit opcode operands

def store (symbol : Symbol) : CompileM Unit :=
  match symbol.storage, symbol.isMutable with
  | .global, true => emit .setGlobal [symbol.index]
  | .global, false => emit .setConstGlobal [symbol.index]
  | .slot, true => emit .setLocal [symbol.index]
  | .slot, false => emit .setConstLocal [symbol.index]
  | _, _ => fail (.assignToCaptured symbol.name)

/-- Makes a struct type known by its name. -/
def registerStruct (type : StructType) : CompileM Nat := fun c =>
  let constant := c.pool.size
  .ok constant
    { c with
      pool := c.pool.push (.structType ⟨constant, type⟩)
      structs := c.structs.insert type.name ⟨type, constant⟩ }

/-- The constant of the struct type that is known by the name of a given one; if there is none, the
given one becomes known. -/
def structConstant (type : StructType) : CompileM Nat := do
  let c ← get
  match c.structs.get? type.name with
  | some known => return known.constant
  | none => registerStruct type

mutual

/-- Puts the zero value of a type on the stack. -/
def zeroValue : Ty → CompileM Unit
  | .int => emitConstant (.int 0)
  | .float => emitConstant (.float 0)
  | .string => emitConstant (.str "")
  | .bool => emit .pushFalse []
  | .array _ => emit .array [0]
  | .hash _ _ => emit .hash [0]
  | .struct name fields => do
      zeroFields fields
      let constant ← structConstant ⟨name, fields⟩
      emit .struct [constant, fields.length]
  | _ => emit .pushNull []

def zeroFields : List (String × Ty) → CompileM Unit
  | [] => pure ()
  | (_, ty) :: fields => do
      zeroValue ty
      zeroFields fields

end

/-- Puts the zero value of a type on the stack, or null if there is no type. -/
def zeroValueOf : Option Ty → CompileM Unit
  | some ty => zeroValue ty
  | none => emit .pushNull []

end CompileM

end ScriptEngine
