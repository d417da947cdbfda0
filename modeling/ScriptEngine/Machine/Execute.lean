import ScriptEngine.Machine.Builtin
import ScriptEngine.Machine.Operation
import ScriptEngine.Machine.State
import ScriptEngine.Value.Index

/-!
# Executing an instruction

What the opcodes do to the machine, once their operands are known and the innermost call has moved
past them.  Values are taken from the stack before anything is checked, and all checks come before
the globals, the heap or the output change.
-/

namespace ScriptEngine

namespace Exec

/-- Takes two values and puts the result of an operation on them. -/
def binary (op : Operation) : Exec Unit := do
  let right ← pop
  let left ← pop
  push (← ofExcept (op.apply left right))

/-- Takes two values and puts whether they are identical, or whether they are not. -/
def equality (expected : Bool) : Exec Unit := do
  let right ← pop
  let left ← pop
  push (.bool (left.identical right == expected))

/-- Goes on at an offset of the running code. -/
def jumpTo (target : Nat) : Exec Unit :=
  modifyFrame fun f => { f with ip := target }

/-- Takes a value and goes on at an offset of the running code if the value does not count as
true. -/
def jumpNotTruthy (target : Nat) : Exec Unit := do
  if !(← pop).isTruthy then
    jumpTo target

def setGlobal (index : Nat) : Exec Unit := do
  let v ← pop
  fun m =>
    if index < m.globals.size then
      .ok () { m with globals := m.globals.put index v }
    else
      .error (.error (.globalOutOfRange index m.globals.size)) m

def getGlobal (index : Nat) : Exec Unit := do
  let m ← get
  push (← ofExcept (m.globals.get index))

def setLocal (index : Nat) : Exec Unit := do
  let slot := (← frame).base + index
  let v ← pop
  fun m =>
    if slot < m.stack.size then
      .ok () { m with stack := m.stack.setIfInBounds slot v }
    else
      .error (.crash .slotOutOfRange) m

def getLocal (index : Nat) : Exec Unit := do
  let slot := (← frame).base + index
  let m ← get
  match m.stack[slot]? with
  | some v => push v
  | none => crash .slotOutOfRange

/-- Reads a captured value of the running closure. -/
def getFree (index : Nat) : Exec Unit := do
  let f ← frame
  let m ← get
  match (m.closureOf f).captured[index]? with
  | some v => push v
  | none => fail (.invalidOperand .getFree index)

def getBuiltin (index : Nat) : Exec Unit :=
  match Builtin.ofIndex? index with
  | some b => push (.builtin b)
  | none => fail (.invalidOperand .getBuiltin index)

/-- Puts the running closure on the stack.  The top level becomes a closure of the heap when it is
asked for first, and is the same one from then on. -/
def currentClosure : Exec Unit := do
  let f ← frame
  let m ← get
  match f.routine, m.mainAddress with
  | .closure address, _ => push (.closure address)
  | .main _, some address => push (.closure address)
  | .main code, none =>
      modify fun m => { m with mainAddress := some m.heap.closures.size }
      push (← allocate fun h => h.newClosure (.main code) #[])

def makeArray (count : Nat) : Exec Unit := do
  let elements ← takeTop count
  push (← allocate fun h => h.newArray elements)

/-- Stores keys and values that alternate in a list; a last key without a value is dropped. -/
def storePairs (d : Dict Value) : List Value → Except RuntimeError (Dict Value)
  | k :: v :: rest =>
      match k.key? with
      | some key => storePairs (d.insert key v) rest
      | none => .error (.unhashableKey k.kind)
  | _ => .ok d

def makeHash (count : Nat) : Exec Unit := do
  let values ← takeTop count
  let entries ← ofExcept (storePairs .empty values.toList)
  push (← allocate fun h => h.newHash entries)

def getIndex : Exec Unit := do
  let position ← pop
  let container ← pop
  let m ← get
  push (← ofExcept (m.heap.index container position))

def setIndex : Exec Unit := do
  let value ← pop
  let position ← pop
  let container ← pop
  let m ← get
  let place ← ofExcept (m.heap.place container position)
  modify fun m => { m with heap := m.heap.write place value }

/-- Opens a call of the closure at an address.  The slots after the arguments start as null. -/
def callClosure (address argc : Nat) : Exec Unit := fun m =>
  let function := (m.heap.closure address).function
  let base := m.sp - argc
  let top := base + function.locals
  if argc ≠ function.parameters then
    .error (.error (.wrongArgumentCount function.parameters argc)) m
  else if m.maxFrames ≤ m.frames.length then
    .error (.error (.frameOverflow m.maxFrames)) m
  else if m.stack.size < top then
    .error (.error .stackOverflow) m
  else if top < m.sp then
    .error (.crash .tooFewLocals) m
  else
    .ok ()
      { m with
        stack := (List.range' m.sp (top - m.sp)).foldl
          (fun stack slot => stack.setIfInBounds slot .null) m.stack
        sp := top
        frames := { routine := .closure address, ip := 0, base } :: m.frames }

/-- Calls a built-in function.  A refused call leaves the arguments on the stack. -/
def callBuiltin (b : Builtin) (argc : Nat) : Exec Unit := do
  let m ← get
  if m.stack.size < m.sp then
    crash .slotOutOfRange
  else
    match b.reply m.heap (m.stack.extract (m.sp - argc) m.sp).toList with
    | .error stop => throw stop
    | .ok reply =>
        modify fun m => { m with sp := m.sp - (argc + 1), output := m.output ++ reply.printed }
        let m ← get
        let (value, heap) := m.heap.answer reply
        set { m with heap }
        push (value.getD .null)

/-- Calls the value below the arguments. -/
def call (argc : Nat) : Exec Unit := do
  let m ← get
  if m.sp < argc + 1 then
    fail .stackUnderflow
  else
    match m.stack[m.sp - (argc + 1)]? with
    | some (.closure address) => callClosure address argc
    | some (.builtin b) => callBuiltin b argc
    | some other => fail (.notCallable other.kind)
    | none => crash .slotOutOfRange

/-- Closes the innermost call and puts its result in the place of the callee. -/
def returnFrom (result : Value) : Exec Unit := do
  modify fun m =>
    match m.frames with
    | [] => m
    | f :: fs => { m with frames := fs, sp := f.base - 1 }
  push result

def makeClosure (index count : Nat) : Exec Unit := do
  match ← constant .closure index with
  | .function f =>
      let captured ← takeTop count
      push (← allocate fun h => h.newClosure f.content captured)
  | other => fail (.notAFunction other.kind)

def makeStruct (index count : Nat) : Exec Unit := do
  match ← constant .struct index with
  | .structType t =>
      let fields ← takeTop count
      push (← allocate fun h => h.newStruct t.content fields)
  | _ => fail (.invalidOperand .struct index)

def getField (index : Nat) : Exec Unit := do
  let object ← pop
  let m ← get
  match object with
  | .struct address =>
      match (m.heap.struct address).fields[index]? with
      | some v => push v
      | none => fail (.invalidOperand .getField index)
  | other => fail (.notAStruct other.kind)

def setField (index : Nat) : Exec Unit := do
  let value ← pop
  let object ← pop
  let m ← get
  match object with
  | .struct address =>
      if index < (m.heap.struct address).fields.size then
        modify fun m => { m with heap := m.heap.setField address index value }
      else
        fail (.invalidOperand .setField index)
  | other => fail (.notAStruct other.kind)

end Exec

end ScriptEngine
