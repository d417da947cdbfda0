import ScriptEngine.Machine.Execute

/-!
# Running a machine

One step reads the next opcode and does what it asks for; each opcode reads its own operands, one by
one.  An unknown opcode is reported without moving past it; otherwise the innermost call has moved
past whatever was read, even if the step stops early, so that a machine can be run again after an
error.
-/

namespace ScriptEngine

namespace Exec

def advance (count : Nat) : Exec Unit :=
  modifyFrame fun f => { f with ip := f.ip + count }

/-- Reads one operand and moves past it. -/
def fetchOperand (w : Width) : Exec Nat := do
  let f ← frame
  let m ← get
  match (m.codeOf f).read f.ip w with
  | .ok n =>
      advance w.bytes
      return n
  | .error e => fail (.decode e)

/-- Reads the operands of an opcode and does what it asks for. -/
def dispatch (op : Opcode) : Exec Unit := do
  match op with
  | .constant => push (← constant .constant (← fetchOperand .word))
  | .pushTrue => push (.bool true)
  | .pushFalse => push (.bool false)
  | .pushNull => push .null
  | .add => binary .add
  | .sub => binary .subtract
  | .mul => binary .multiply
  | .div => binary .divide
  | .equal => equality true
  | .notEqual => equality false
  | .greater => binary .greater
  | .greaterOrEqual => binary .greaterOrEqual
  | .and => binary .and
  | .or => binary .or
  | .negate => push (← ofExcept (← pop).opposite)
  | .not => push (.bool (!(← pop).isTruthy))
  | .jump => jumpTo (← fetchOperand .word)
  | .jumpNotTruthy => jumpNotTruthy (← fetchOperand .word)
  | .getGlobal | .getConstGlobal => getGlobal (← fetchOperand .word)
  | .setGlobal | .setConstGlobal => setGlobal (← fetchOperand .word)
  | .getLocal | .getConstLocal => getLocal (← fetchOperand .byte)
  | .setLocal | .setConstLocal => setLocal (← fetchOperand .byte)
  | .getFree => getFree (← fetchOperand .byte)
  | .getBuiltin => getBuiltin (← fetchOperand .byte)
  | .currentClosure => currentClosure
  | .array => makeArray (← fetchOperand .word)
  | .hash => makeHash (← fetchOperand .word)
  | .index => getIndex
  | .setIndex => setIndex
  | .call => call (← fetchOperand .byte)
  | .returnValue => returnFrom (← pop)
  | .returnNull => returnFrom .null
  | .closure => makeClosure (← fetchOperand .word) (← fetchOperand .byte)
  | .struct => makeStruct (← fetchOperand .word) (← fetchOperand .byte)
  | .getField => getField (← fetchOperand .byte)
  | .setField => setField (← fetchOperand .byte)
  | .pop => discard pop

/-- Runs the instruction that begins with a byte. -/
def step (byte : UInt8) : Exec Unit :=
  match Opcode.ofByte? byte with
  | none => fail (.decode (.unknownOpcode byte))
  | some op => do
      advance 1
      dispatch op

end Exec

/-- How a run of limited length ends. -/
inductive Run
  /-- The code came to its end. -/
  | finished (m : Machine)
  /-- The machine stopped early. -/
  | stopped (cause : Stop RuntimeError) (m : Machine)
  /-- The steps ran out. -/
  | unfinished (m : Machine)

namespace Machine

/-- Runs a machine for a limited number of steps. -/
def run : Nat → Machine → Run
  | 0, m => .unfinished m
  | steps + 1, m =>
      match m.nextByte? with
      | none => .finished m
      | some byte =>
          match Exec.step byte m with
          | .ok _ m => run steps m
          | .error cause m => .stopped cause m

end Machine

end ScriptEngine
