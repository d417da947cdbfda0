import ScriptEngine.Instruction.Error
import ScriptEngine.Language.Builtin
import ScriptEngine.Value.Kind

/-!
# Faults of a run

An error is a cause that the machine reports: the run stops and can be taken up again.  A crash is
a broken promise between a code and the machine: nothing is reported beyond the fact itself.
-/

namespace ScriptEngine

/-- A two-place operation that not every pair of values supports. -/
inductive Operation
  | add
  | subtract
  | multiply
  | divide
  | greater
  | greaterOrEqual
  | and
  | or
deriving DecidableEq, Repr

namespace Operation

def symbol : Operation → String
  | add => "+"
  | subtract => "-"
  | multiply => "*"
  | divide => "/"
  | greater => ">"
  | greaterOrEqual => ">="
  | and => "&&"
  | or => "||"

end Operation

/-- Why a built-in function refuses its arguments. -/
inductive BuiltinError
  | argumentCount (actual expected : Nat)
  /-- Values of this kind have no length. -/
  | noLength (kind : Kind)
  /-- The first argument of the function must be an array. -/
  | notAnArray (function : Builtin) (kind : Kind)
deriving DecidableEq, Repr

namespace BuiltinError

def message : BuiltinError → String
  | argumentCount actual expected =>
      s!"wrong number of arguments. got={actual}, want={expected}"
  | noLength kind => "argument to `len` not supported, got " ++ kind.name
  | notAnArray function kind =>
      "argument to `" ++ function.name ++ "` must be array, got " ++ kind.name

end BuiltinError

/-- Why the machine stops with a report. -/
inductive RuntimeError
  | stackOverflow
  | stackUnderflow
  | frameOverflow (limit : Nat)
  | unsupportedOperands (operation : Operation) (left right : Kind)
  /-- Values of this kind have no opposite. -/
  | noOpposite (operand : Kind)
  | divisionByZero
  | notCallable (callee : Kind)
  | wrongArgumentCount (expected actual : Nat)
  | unhashableKey (key : Kind)
  | indexNotSupported (container position : Kind)
  | indexOutOfBounds (index : Int64) (length : Nat)
  | notAStruct (object : Kind)
  | notAFunction (constant : Kind)
  | builtin (function : Builtin) (cause : BuiltinError)
  | globalOutOfRange (index size : Nat)
  /-- An operand names a constant, a built-in function, a capture or a field that is not there. -/
  | invalidOperand (opcode : Opcode) (operand : Nat)
  | decode (cause : FormatError)
deriving DecidableEq, Repr

namespace RuntimeError

def message : RuntimeError → String
  | stackOverflow => "stack overflow"
  | stackUnderflow => "stack underflow"
  | frameOverflow limit => s!"frame stack overflow (max {limit} frames)"
  | unsupportedOperands operation left right =>
      s!"unsupported types for {operation.symbol}: {left.name} {right.name}"
  | noOpposite operand => s!"unsupported type for -: {operand.name}"
  | divisionByZero => "division by zero"
  | notCallable callee => s!"calling non-function: {callee.name}"
  | wrongArgumentCount expected actual =>
      s!"wrong number of arguments: want={expected}, got={actual}"
  | unhashableKey key => s!"unusable as hash key: {key.name}"
  | indexNotSupported container position =>
      s!"index operator not supported: {container.name}[{position.name}]"
  | indexOutOfBounds index length =>
      s!"index {index.toInt} out of bounds for array of length {length}"
  | notAStruct object => s!"field access on non-struct value: {object.name}"
  | notAFunction constant => s!"not a function: {constant.name}"
  | builtin function cause => s!"{function.name}: {cause.message}"
  | globalOutOfRange index size => s!"global index {index} exceeds store size {size}"
  | invalidOperand opcode operand => s!"invalid operand {operand} for {opcode.name}"
  | decode cause => cause.message

end RuntimeError

/-- A promise that is broken without a report. -/
inductive Crash
  /-- A slot lies past the end of the operand stack. -/
  | slotOutOfRange
  /-- No call is open that could be read or moved on. -/
  | noOpenCall
  /-- A called function has fewer slots than arguments. -/
  | tooFewLocals
  /-- The text of a value that contains itself has no end. -/
  | endlessText
  /-- Code is overwritten past its end. -/
  | overwriteOutOfRange
  /-- A row of slots is asked for that takes up too many bytes. -/
  | capacityOverflow
deriving DecidableEq, Repr

/-- How a computation that may report errors ends early. -/
inductive Stop (ε : Type)
  | error (cause : ε)
  | crash (cause : Crash)
deriving DecidableEq, Repr

end ScriptEngine
