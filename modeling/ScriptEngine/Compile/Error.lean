import ScriptEngine.Instruction.Error
import ScriptEngine.Language.Operator
import ScriptEngine.Language.Ty

/-!
# Faults of a program

Why a program is not accepted.
-/

namespace ScriptEngine

/-- Why the compiler refuses a program. -/
inductive CompileError
  | undefinedVariable (name : String)
  | undefinedFunction (name : String)
  | redeclared (name : String)
  /-- A function is read in its own scope before its declaration has stored it. -/
  | usedBeforeDeclaration (name : String)
  | assignToConstant (name : String)
  | assignToUndefined (name : String)
  | assignToCaptured (name : String)
  | unknownOperator (text : String)
  /-- The type of the condition of a loop is another one, or is not known. -/
  | nonBooleanCondition (ty : Option Ty)
  | unknownStructType (name : String)
  | unknownField (struct field : String)
  /-- The type of an object whose field is named is no struct type, or is not known. -/
  | notAStruct (field : String) (ty : Option Ty)
  | returnOutsideFunction
  | encode (cause : FormatError)
deriving DecidableEq, Repr

namespace CompileError

/-- The text of a type that may be unknown. -/
def tyText (ty : Option Ty) : String :=
  (ty.map Ty.text).getD "unknown"

def message : CompileError → String
  | undefinedVariable name => s!"undefined variable {name}"
  | undefinedFunction name => s!"undefined function {name}"
  | redeclared name => s!"{name} is already declared in this scope"
  | usedBeforeDeclaration name => s!"function {name} is used before its declaration"
  | assignToConstant name => s!"cannot assign to constant {name}"
  | assignToUndefined name => s!"cannot assign to undefined variable {name}"
  | assignToCaptured name => s!"cannot assign to captured variable {name}"
  | unknownOperator text => s!"unknown operator: {text}"
  | nonBooleanCondition ty => s!"for loop condition must be bool, got {tyText ty}"
  | unknownStructType name => s!"undefined struct type {name}"
  | unknownField struct field => s!"struct {struct} has no field {field}"
  | notAStruct field ty => s!"cannot access field {field} on non-struct type {tyText ty}"
  | returnOutsideFunction => "return outside function"
  | encode cause => cause.message

end CompileError

/-- Reads an operator that stands between its operands. -/
def InfixOp.parse (text : String) : Except CompileError InfixOp :=
  match InfixOp.ofText? text with
  | some op => .ok op
  | none => .error (.unknownOperator text)

/-- Reads an operator that stands before its operand. -/
def PrefixOp.parse (text : String) : Except CompileError PrefixOp :=
  match PrefixOp.ofText? text with
  | some op => .ok op
  | none => .error (.unknownOperator text)

end ScriptEngine
