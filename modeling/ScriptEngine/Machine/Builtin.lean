import ScriptEngine.Machine.Error
import ScriptEngine.Value.Text

/-!
# Built-in functions

A built-in function looks at its arguments and at the heap and replies with what is to be done: give
a value, add an array to the heap, print some text.  It changes nothing itself.
-/

namespace ScriptEngine

/-- What a built-in function asks for. -/
inductive Reply
  /-- There is nothing to give. -/
  | nothing
  | value (v : Value)
  /-- A new array with these elements. -/
  | array (elements : Array Value)
  /-- Text to print; nothing is given. -/
  | print (text : String)
deriving DecidableEq

namespace Builtin

def refuse {α : Type} (b : Builtin) (cause : BuiltinError) : Except (Stop RuntimeError) α :=
  .error (.error (.builtin b cause))

/-- The length of a string, an array or a hash.  A string is as long as it has characters. -/
def length (h : Heap) : Value → Except (Stop RuntimeError) Reply
  | .str s => .ok (.value (.int (.ofNat s.length)))
  | .array a => .ok (.value (.int (.ofNat (h.array a).size)))
  | .hash a => .ok (.value (.int (.ofNat (h.hash a).size)))
  | v => len.refuse (.noLength v.kind)

/-- The texts of values, each on a line of its own. -/
def lines (h : Heap) (out : String) : List Value → Except (Stop RuntimeError) String
  | [] => .ok out
  | v :: vs =>
      match h.text? v with
      | some text => lines h (out ++ text ++ "\n") vs
      | none => .error (.crash .endlessText)

def onArray (b : Builtin) (h : Heap) (v : Value) (f : Array Value → Reply) :
    Except (Stop RuntimeError) Reply :=
  match v with
  | .array a => .ok (f (h.array a))
  | _ => b.refuse (.notAnArray b v.kind)

/-- The reply that gives a value if there is one. -/
def optional : Option Value → Reply
  | some v => .value v
  | none => .nothing

/-- The reply of a built-in function to its arguments.  Their number is checked before any of them
is looked at. -/
def reply (b : Builtin) (h : Heap) (arguments : List Value) : Except (Stop RuntimeError) Reply :=
  match b, arguments with
  | puts, vs => (lines h "" vs).map .print
  | len, [v] => length h v
  | first, [v] => first.onArray h v fun xs => optional xs[0]?
  | last, [v] => last.onArray h v fun xs => optional xs.back?
  | rest, [v] =>
      rest.onArray h v fun xs => if xs.isEmpty then .nothing else .array (xs.extract 1 xs.size)
  | push, [v, w] => push.onArray h v fun xs => .array (xs.push w)
  | push, vs => push.refuse (.argumentCount vs.length 2)
  | b, vs => b.refuse (.argumentCount vs.length 1)

end Builtin

namespace Reply

def printed : Reply → String
  | print text => text
  | _ => ""

end Reply

namespace Heap

/-- The value that a reply gives, and the heap with it. -/
def answer (h : Heap) : Reply → Option Value × Heap
  | .value v => (some v, h)
  | .array elements =>
      let (v, h) := h.newArray elements
      (some v, h)
  | _ => (none, h)

end Heap

end ScriptEngine
