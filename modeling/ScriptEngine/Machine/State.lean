import ScriptEngine.Machine.Globals
import ScriptEngine.Value.Heap

/-!
# The machine

A machine holds an operand stack of fixed size, the open calls, the global store, the heap and what
was printed.  Values that were taken from the stack stay in their slots until something else is
written there; the value in the first free slot is the one taken last.
-/

namespace ScriptEngine

/-- What a call runs.  The top level of a unit is no object of the heap. -/
inductive Routine
  | main (code : Code)
  | closure (address : Nat)
deriving DecidableEq, Repr

namespace Routine

/-- The function that runs, with the values that it captured. -/
def closureIn (h : Heap) : Routine → Closure
  | main code => ⟨.main code, #[]⟩
  | closure address => h.closure address

end Routine

structure Frame where
  routine : Routine
  /-- The offset of the next byte to read. -/
  ip : Nat
  /-- The stack slot of the first local. -/
  base : Nat
deriving DecidableEq, Repr

/-- A machine at some point of a run. -/
structure Machine where
  constants : Array Value
  stack : Array Value
  /-- The first free slot of the stack. -/
  sp : Nat
  /-- The open calls, the innermost first. -/
  frames : List Frame
  /-- The address of the top level as a closure, once the program has asked for one. -/
  mainAddress : Option Nat
  maxFrames : Nat
  globals : Globals
  heap : Heap
  output : String

namespace Machine

/-- A machine that is about to run a top-level code. -/
def initial
    (code : Code) (constants : Array Value) (limits : Limits) (globals : Globals) (heap : Heap) :
    Machine :=
  { constants
    stack := Array.replicate limits.stackSize .null
    sp := 0
    frames := [{ routine := .main code, ip := 0, base := 0 }]
    mainAddress := none
    maxFrames := limits.maxFrames
    globals
    heap
    output := "" }

/-- Builds a machine for a top-level code.  Its stack and its calls are reserved first. -/
def load
    (code : Code) (constants : Array Value) (limits : Limits) (globals : Globals) (heap : Heap) :
    Except Crash Machine :=
  if limits.fitMachine then
    .ok (initial code constants limits globals heap)
  else
    .error .capacityOverflow

/-- A machine can be built with some limits and not with others, whatever it is to run. -/
theorem load_eq_ok_iff {code : Code} {constants : Array Value} {limits : Limits} {globals : Globals}
    {heap : Heap} {m : Machine} :
    load code constants limits globals heap = .ok m ↔
      limits.fitMachine = true ∧ m = initial code constants limits globals heap := by
  unfold load
  cases limits.fitMachine <;> simp [eq_comm]

/-- The value taken last from the stack. -/
def lastTaken (m : Machine) : Value :=
  m.stack[m.sp]?.getD .null

def closureOf (m : Machine) (f : Frame) : Closure :=
  f.routine.closureIn m.heap

def codeOf (m : Machine) (f : Frame) : Code :=
  (m.closureOf f).function.code

/-- The next byte to run.  There is none when no call is open or the innermost one is at the end of
its code. -/
def nextByte? (m : Machine) : Option UInt8 :=
  match m.frames with
  | [] => none
  | f :: _ => (m.codeOf f).bytes[f.ip]?

end Machine

/-- A computation on a machine that may stop early.  The machine is kept as it is at that point. -/
abbrev Exec := EStateM (Stop RuntimeError) Machine

namespace Exec

def fail {α : Type} (e : RuntimeError) : Exec α :=
  throw (.error e)

def crash {α : Type} (c : Crash) : Exec α :=
  throw (.crash c)

/-- Goes on with the outcome of a computation that does not involve the machine. -/
def ofExcept {α : Type} : Except RuntimeError α → Exec α
  | .ok a => pure a
  | .error e => fail e

def push (v : Value) : Exec Unit := fun m =>
  if m.sp < m.stack.size then
    .ok () { m with stack := m.stack.setIfInBounds m.sp v, sp := m.sp + 1 }
  else
    .error (.error .stackOverflow) m

def pop : Exec Value := fun m =>
  if m.sp = 0 then
    .error (.error .stackUnderflow) m
  else
    match m.stack[m.sp - 1]? with
    | some v => .ok v { m with sp := m.sp - 1 }
    | none => .error (.crash .slotOutOfRange) { m with sp := m.sp - 1 }

/-- Takes the topmost values from the stack, the lowest first. -/
def takeTop (count : Nat) : Exec (Array Value) := fun m =>
  if m.sp < count then
    .error (.error .stackUnderflow) m
  else if m.stack.size < m.sp then
    .error (.crash .slotOutOfRange) m
  else
    .ok (m.stack.extract (m.sp - count) m.sp) { m with sp := m.sp - count }

def frame : Exec Frame := fun m =>
  match m.frames with
  | f :: _ => .ok f m
  | [] => .error (.crash .noOpenCall) m

def modifyFrame (change : Frame → Frame) : Exec Unit := fun m =>
  match m.frames with
  | f :: fs => .ok () { m with frames := change f :: fs }
  | [] => .error (.crash .noOpenCall) m

def constant (opcode : Opcode) (index : Nat) : Exec Value := fun m =>
  match m.constants[index]? with
  | some v => .ok v m
  | none => .error (.error (.invalidOperand opcode index)) m

def allocate (new : Heap → Value × Heap) : Exec Value := fun m =>
  let (v, heap) := new m.heap
  .ok v { m with heap }

end Exec

end ScriptEngine
