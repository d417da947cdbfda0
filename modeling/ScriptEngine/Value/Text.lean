import ScriptEngine.Decimal.Shortest
import ScriptEngine.Value.Heap

/-!
# The text of values

A value has a text of its own or is shown by its parts.  Closures are shown by name, containers by
what they hold; a struct instance shows the values for which its type has a name.  The text of a
container that is shown inside itself has no end.
-/

namespace ScriptEngine

namespace Key

def shown : Key → String
  | int n => toString n.toInt
  | bool b => if b then "true" else "false"
  | str s => s

end Key

/-- How a value is shown. -/
inductive Layout
  | plain (text : String)
  /-- By values between brackets, each with a label in front of it. -/
  | parts (opening : String) (parts : List (String × Value)) (closing : String)

namespace Heap

def layout (h : Heap) : Value → Layout
  | .null => .plain "null"
  | .bool b => .plain (if b then "true" else "false")
  | .int n => .plain (toString n.toInt)
  | .float x => .plain (Decimal.floatText x)
  | .str s => .plain s
  | .closure a => .plain ("Closure[" ++ (h.closure a).function.name.getD "anonymous" ++ "]")
  | .function f => .plain ("CompiledFunction[" ++ f.content.name.getD "anonymous" ++ "]")
  | .structType t => .plain ("type " ++ t.content.name)
  | .builtin b => .plain ("builtin function " ++ b.name)
  | .array a => .parts "[" ((h.array a).toList.map fun v => ("", v)) "]"
  | .hash a => .parts "\x7b" ((h.hash a).toList.map fun e => (e.1.shown ++ ": ", e.2)) "\x7d"
  | .struct a =>
      -- a value without a name in the type is not shown
      let fields := (h.struct a).type.fields.zip (h.struct a).fields.toList
      .parts ((h.struct a).type.name ++ "\x7b") (fields.map fun f => (f.1.1 ++ ": ", f.2)) "\x7d"

/-- Adds the texts of parts to what is written already, separated by commas. -/
def writeParts (write : String → Value → Option String) (out : String) :
    List (String × Value) → Option String
  | [] => some out
  | [(label, v)] => write (out ++ label) v
  | (label, v) :: rest =>
      (write (out ++ label) v).bind fun out => writeParts write (out ++ ", ") rest

/-- Adds the text of a value to what is written already, down to a depth of containers.  Fails if
there are containers below it. -/
def write? (h : Heap) : Nat → String → Value → Option String
  | 0, out, v =>
      match h.layout v with
      | .plain text => some (out ++ text)
      | .parts _ _ _ => none
  | depth + 1, out, v =>
      match h.layout v with
      | .plain text => some (out ++ text)
      | .parts opening parts closing =>
          (writeParts (h.write? depth) (out ++ opening) parts).map (· ++ closing)

/-- The text of a value, if it has an end.  On a way down that meets no container twice there are at
most as many containers as the heap has. -/
def text? (h : Heap) (v : Value) : Option String :=
  h.write? (h.size + 1) "" v

end Heap

end ScriptEngine
