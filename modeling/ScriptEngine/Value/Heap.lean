import ScriptEngine.Value.Basic
import ScriptEngine.Value.Dict

/-!
# The heap

The objects behind the handles, one row for each sort of object.  A new object is added at the end
of its row, so that addresses never change their meaning.
-/

namespace ScriptEngine

/-- A struct instance: its type and the values of its fields in storage order. -/
structure Instance where
  type : StructType
  fields : Array Value
deriving DecidableEq

/-- A function body together with the values that it captured. -/
structure Closure where
  function : Function
  captured : Array Value
deriving DecidableEq

/-- The objects that values refer to. -/
structure Heap where
  arrays : Array (Array Value)
  hashes : Array (Dict Value)
  structs : Array Instance
  closures : Array Closure

namespace Heap

def empty : Heap :=
  { arrays := #[], hashes := #[], structs := #[], closures := #[] }

def size (h : Heap) : Nat :=
  h.arrays.size + h.hashes.size + h.structs.size + h.closures.size

def array (h : Heap) (address : Nat) : Array Value :=
  h.arrays[address]?.getD #[]

def hash (h : Heap) (address : Nat) : Dict Value :=
  h.hashes[address]?.getD .empty

def struct (h : Heap) (address : Nat) : Instance :=
  h.structs[address]?.getD ⟨⟨"", []⟩, #[]⟩

def closure (h : Heap) (address : Nat) : Closure :=
  h.closures[address]?.getD ⟨.main .empty, #[]⟩

def newArray (h : Heap) (elements : Array Value) : Value × Heap :=
  (.array h.arrays.size, { h with arrays := h.arrays.push elements })

def newHash (h : Heap) (entries : Dict Value) : Value × Heap :=
  (.hash h.hashes.size, { h with hashes := h.hashes.push entries })

def newStruct (h : Heap) (type : StructType) (fields : Array Value) : Value × Heap :=
  (.struct h.structs.size, { h with structs := h.structs.push ⟨type, fields⟩ })

def newClosure (h : Heap) (function : Function) (captured : Array Value) : Value × Heap :=
  (.closure h.closures.size, { h with closures := h.closures.push ⟨function, captured⟩ })

def setField (h : Heap) (address field : Nat) (value : Value) : Heap :=
  { h with
    structs := h.structs.modify address fun s =>
      { s with fields := s.fields.setIfInBounds field value } }

end Heap

end ScriptEngine
