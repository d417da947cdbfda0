import ScriptEngine.Machine.Error
import ScriptEngine.Value.Heap

/-!
# Reading and writing by index

Arrays are indexed by integers and hashes by keys.  Reading past the end of an array, or under a key
that is not stored, gives null.  Writing is stricter: an array accepts the positions that it has and
the one just past them, at which it grows by one.
-/

namespace ScriptEngine

/-- A place in a container that can be written. -/
inductive Place
  /-- A position that the array has. -/
  | element (address index : Nat)
  /-- The position just past the end of the array. -/
  | tail (address : Nat)
  /-- A key of the hash, stored or not. -/
  | entry (address : Nat) (key : Key)
deriving DecidableEq, Repr

/-- The number that a signed index stands for, if it is not negative. -/
def position? (i : Int64) : Option Nat :=
  i.toInt.toNat?

namespace Heap

def index (h : Heap) (container position : Value) : Except RuntimeError Value :=
  match container, position with
  | .array a, .int i => .ok (((position? i).bind fun n => (h.array a)[n]?).getD .null)
  | .hash a, key =>
      match key.key? with
      | some k => .ok (((h.hash a).get? k).getD .null)
      | none => .error (.unhashableKey key.kind)
  | _, _ => .error (.indexNotSupported container.kind position.kind)

/-- The place that a write to a container at a position goes to. -/
def place (h : Heap) (container position : Value) : Except RuntimeError Place :=
  match container, position with
  | .array a, .int i =>
      let length := (h.array a).size
      match position? i with
      | some n =>
          if n < length then
            .ok (.element a n)
          else if n = length then
            .ok (.tail a)
          else
            .error (.indexOutOfBounds i length)
      | none => .error (.indexOutOfBounds i length)
  | .hash a, key =>
      match key.key? with
      | some k => .ok (.entry a k)
      | none => .error (.unhashableKey key.kind)
  | _, _ => .error (.indexNotSupported container.kind position.kind)

def write (h : Heap) (place : Place) (value : Value) : Heap :=
  match place with
  | .element a n => { h with arrays := h.arrays.modify a fun xs => xs.setIfInBounds n value }
  | .tail a => { h with arrays := h.arrays.modify a fun xs => xs.push value }
  | .entry a k => { h with hashes := h.hashes.modify a fun d => d.insert k value }

def setIndex (h : Heap) (container position value : Value) : Except RuntimeError Heap :=
  (h.place container position).map fun p => h.write p value

end Heap

end ScriptEngine
