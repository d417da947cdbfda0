/-!
# Opcodes

The vocabulary of the stack machine: forty-one opcodes, the operands that each of them takes, and
the one byte that stands for each.  How an instruction is laid out in bytes is kept in
`Instruction/Code`; what an instruction does is kept in the machine.
-/

namespace ScriptEngine

/-- The room that an operand takes: one byte, or two with the high byte first. -/
inductive Width
  | byte
  | word
deriving DecidableEq, Repr

namespace Width

def bytes : Width → Nat
  | byte => 1
  | word => 2

/-- The least number that is too large for the width. -/
def bound : Width → Nat
  | byte => 256
  | word => 65536

theorem bound_eq (w : Width) : w.bound = Nat.pow 256 w.bytes := by
  cases w <;> rfl

end Width

/-- What an instruction asks the machine to do. -/
inductive Opcode
  /-- Load a constant of the pool. -/
  | constant
  | pushTrue
  | pushFalse
  | pushNull
  | add
  | sub
  | mul
  | div
  | equal
  | notEqual
  | greater
  | greaterOrEqual
  | and
  | or
  | negate
  | not
  /-- Go on at an absolute offset. -/
  | jump
  /-- Take a value and go on at an absolute offset if it is not truthy. -/
  | jumpNotTruthy
  | getGlobal
  | setGlobal
  | getConstGlobal
  | setConstGlobal
  | getLocal
  | setLocal
  | getConstLocal
  | setConstLocal
  /-- Load a captured value of the running closure. -/
  | getFree
  | getBuiltin
  /-- Load the running closure itself. -/
  | currentClosure
  /-- Build an array from the topmost values. -/
  | array
  /-- Build a hash from the topmost values, keys and values in turn. -/
  | hash
  | index
  | setIndex
  /-- Call the value below the arguments. -/
  | call
  | returnValue
  | returnNull
  /-- Build a closure from a function constant and the topmost values. -/
  | closure
  /-- Build a struct instance from a type constant and the topmost values. -/
  | struct
  | getField
  | setField
  | pop
deriving DecidableEq, Repr

namespace Opcode

/-- All opcodes, in the order of their bytes. -/
def all : List Opcode :=
  [constant, pushTrue, pushFalse, pushNull, add, sub, mul, div, equal, notEqual, greater,
    greaterOrEqual, and, or, negate, not, jump, jumpNotTruthy, getGlobal, setGlobal,
    getConstGlobal, setConstGlobal, getLocal, setLocal, getConstLocal, setConstLocal, getFree,
    getBuiltin, currentClosure, array, hash, index, setIndex, call, returnValue, returnNull,
    closure, struct, getField, setField, pop]

/-- The byte that stands for an opcode: its position in `all`. -/
def toByte (op : Opcode) : UInt8 :=
  op.ctorIdx.toUInt8

def ofByte? (b : UInt8) : Option Opcode :=
  all[b.toNat]?

@[simp] theorem ofByte?_toByte (op : Opcode) : ofByte? op.toByte = some op := by
  cases op <;> rfl

/-- The mnemonic of an opcode in listings and messages. -/
def name : Opcode → String
  | constant => "OpConstant"
  | pushTrue => "OpTrue"
  | pushFalse => "OpFalse"
  | pushNull => "OpNull"
  | add => "OpAdd"
  | sub => "OpSub"
  | mul => "OpMul"
  | div => "OpDiv"
  | equal => "OpEqual"
  | notEqual => "OpNotEqual"
  | greater => "OpGreaterThan"
  | greaterOrEqual => "OpGreaterThanOrEqual"
  | and => "OpAnd"
  | or => "OpOr"
  | negate => "OpMinus"
  | not => "OpBang"
  | jump => "OpJump"
  | jumpNotTruthy => "OpJumpNotTruthy"
  | getGlobal => "OpGetGlobal"
  | setGlobal => "OpSetGlobal"
  | getConstGlobal => "OpGetConstGlobal"
  | setConstGlobal => "OpSetConstGlobal"
  | getLocal => "OpGetLocal"
  | setLocal => "OpSetLocal"
  | getConstLocal => "OpGetConstLocal"
  | setConstLocal => "OpSetConstLocal"
  | getFree => "OpGetFree"
  | getBuiltin => "OpGetBuiltin"
  | currentClosure => "OpCurrentClosure"
  | array => "OpArray"
  | hash => "OpHash"
  | index => "OpIndex"
  | setIndex => "OpSetIndex"
  | call => "OpCall"
  | returnValue => "OpReturnValue"
  | returnNull => "OpReturn"
  | closure => "OpClosure"
  | struct => "OpStruct"
  | getField => "OpGetField"
  | setField => "OpSetField"
  | pop => "OpPop"

def ofName? (s : String) : Option Opcode :=
  all.find? fun op => op.name == s

/-- The widths of the operands that follow the opcode byte. -/
def operandWidths : Opcode → List Width
  | constant | jump | jumpNotTruthy | getGlobal | setGlobal | getConstGlobal | setConstGlobal
  | array | hash => [.word]
  | getLocal | setLocal | getConstLocal | setConstLocal | getFree | getBuiltin | call | getField
  | setField => [.byte]
  | closure | struct => [.word, .byte]
  | _ => []

def width (op : Opcode) : Nat :=
  op.operandWidths.foldr (fun w n => w.bytes + n) 1

theorem width_pos (op : Opcode) : 0 < op.width := by
  cases op <;> decide

end Opcode

end ScriptEngine
