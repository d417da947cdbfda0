import ScriptEngine.Instruction.Code
import ScriptEngine.Language.Ty
import ScriptEngine.Language.Builtin
import ScriptEngine.Value.Key
import ScriptEngine.Value.Kind

/-!
# Values

What programs compute with.  Arrays, hashes, struct instances and closures are handles: the value
is the address of the object, and the object itself is kept in the heap.  Function bodies and struct
types never change, so a value holds them directly, with a mark that tells two of them apart that
were made separately.
-/

namespace ScriptEngine

structure Function where
  code : Code
  /-- The number of stack slots that a call needs, parameters first. -/
  locals : Nat
  parameters : Nat
  name : Option String
deriving DecidableEq, Repr

namespace Function

/-- A top-level code as a function without parameters. -/
def main (code : Code) : Function :=
  { code, locals := 0, parameters := 0, name := some "main" }

end Function

/-- Unchangeable content with the mark of its making. -/
structure Marked (α : Type) where
  mark : Nat
  content : α
deriving DecidableEq, Repr

inductive Value
  | null
  | bool (b : Bool)
  | int (n : Int64)
  | float (x : Float)
  | str (s : String)
  | array (address : Nat)
  | hash (address : Nat)
  | struct (address : Nat)
  | closure (address : Nat)
  | function (f : Marked Function)
  | structType (t : Marked StructType)
  | builtin (b : Builtin)
deriving DecidableEq

namespace Value

instance : Inhabited Value := ⟨null⟩

def kind : Value → Kind
  | null => .null
  | bool _ => .bool
  | int _ => .int
  | float _ => .float
  | str _ => .string
  | array _ => .array
  | hash _ => .hash
  | struct _ => .struct
  | closure _ => .closure
  | function _ => .function
  | structType _ => .structType
  | builtin _ => .builtin

/-- Everything but `false` and `null` counts as true. -/
def isTruthy : Value → Bool
  | null => false
  | bool b => b
  | _ => true

/-- The key that a value stands for, if it can be one. -/
def key? : Value → Option Key
  | int n => some (.int n)
  | bool b => some (.bool b)
  | str s => some (.str s)
  | _ => none

/-- Equality of the language.  Numbers, strings and truth values are compared by what they are;
objects, function bodies and struct types are equal only to themselves. -/
def identical : Value → Value → Bool
  | null, null => true
  | bool a, bool b => a == b
  | int m, int n => m == n
  | float x, float y => x == y
  | str s, str t => s == t
  | array a, array b => a == b
  | hash a, hash b => a == b
  | struct a, struct b => a == b
  | closure a, closure b => a == b
  | function f, function g => f == g
  | structType t, structType u => t == u
  | builtin f, builtin g => f == g
  | _, _ => false

end Value

namespace Key

/-- The value that a key stands for. -/
def toValue : Key → Value
  | int n => .int n
  | bool b => .bool b
  | str s => .str s

@[simp] theorem key?_toValue (k : Key) : k.toValue.key? = some k := by
  cases k <;> rfl

end Key

namespace Value

theorem eq_toValue_of_key? {v : Value} {k : Key} (h : v.key? = some k) : v = k.toValue := by
  cases v <;> simp_all [key?] <;> subst h <;> rfl

end Value

end ScriptEngine
