import ScriptEngine.Machine.Error
import ScriptEngine.Machine.Limits
import ScriptEngine.Value.Basic

/-!
# The global store

A row of slots of fixed length that outlives the machines that work on it.
-/

namespace ScriptEngine

/-- The slots of global variables. -/
structure Globals where
  slots : Array Value
deriving DecidableEq

namespace Globals

/-- A store of slots that all hold null. -/
def ofSize (size : Nat) : Globals :=
  ⟨Array.replicate size .null⟩

/-- Reserves a store of slots that all hold null. -/
def reserve (size : Nat) : Except Crash Globals :=
  if canReserve size then .ok (.ofSize size) else .error .capacityOverflow

def size (g : Globals) : Nat :=
  g.slots.size

def get (g : Globals) (index : Nat) : Except RuntimeError Value :=
  match g.slots[index]? with
  | some v => .ok v
  | none => .error (.globalOutOfRange index g.size)

/-- Writes a slot if there is one with this index. -/
def put (g : Globals) (index : Nat) (value : Value) : Globals :=
  ⟨g.slots.setIfInBounds index value⟩

def set (g : Globals) (index : Nat) (value : Value) : Except RuntimeError Globals :=
  if index < g.size then
    .ok (g.put index value)
  else
    .error (.globalOutOfRange index g.size)

@[simp] theorem size_put (g : Globals) (index : Nat) (value : Value) :
    (g.put index value).size = g.size := by
  simp [size, put]

end Globals

end ScriptEngine
