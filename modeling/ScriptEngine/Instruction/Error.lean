import ScriptEngine.Instruction.Opcode

/-!
# Faults of the instruction format

The four ways in which numbers fail to be an instruction or bytes fail to hold one.
-/

namespace ScriptEngine

/-- Why an instruction cannot be written or read. -/
inductive FormatError
  /-- The number of operands is not the number that the opcode takes. -/
  | operandCount (opcode : Opcode) (expected actual : Nat)
  /-- An operand is too large for its width. -/
  | operandOverflow (opcode : Opcode) (operand : Nat) (width : Width)
  /-- No opcode has this byte. -/
  | unknownOpcode (byte : UInt8)
  /-- The bytes end inside what should be read at this offset. -/
  | truncated (offset : Nat)
deriving DecidableEq, Repr

namespace FormatError

def message : FormatError → String
  | operandCount op expected actual =>
      s!"opcode {op.name} expects {expected} operands, got {actual}"
  | operandOverflow op operand width =>
      s!"operand {operand} of {op.name} does not fit in {width.bytes} byte(s)"
  | unknownOpcode byte => s!"opcode {byte.toNat} undefined"
  | truncated offset => s!"truncated instruction at offset {offset}"

end FormatError

end ScriptEngine
