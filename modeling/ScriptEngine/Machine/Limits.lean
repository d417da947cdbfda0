/-!
# Limits

How much a machine may hold, and how long its rows of slots may be at most.  The rows are reserved
as a whole before anything runs.
-/

namespace ScriptEngine

/-- The sizes of the parts of a machine. -/
structure Limits where
  /-- The number of slots of the operand stack. -/
  stackSize : Nat := 2048
  /-- The number of calls that may be open at once, the top level included. -/
  maxFrames : Nat := 1024
  /-- The number of slots of the global store. -/
  globalsSize : Nat := 65536
deriving DecidableEq, Repr

/-- Whether a row of so many entries can be reserved.  A value takes up 24 bytes, as does an open
call, and no row may take up more than a signed 64-bit number of bytes. -/
def canReserve (entries : Nat) : Bool :=
  entries * 24 ≤ 9223372036854775807

namespace Limits

/-- Whether the stack and the open calls of a machine can be reserved. -/
def fitMachine (limits : Limits) : Bool :=
  canReserve limits.maxFrames && canReserve limits.stackSize

end Limits

end ScriptEngine
