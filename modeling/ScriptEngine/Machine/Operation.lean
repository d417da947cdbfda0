import ScriptEngine.Machine.Error
import ScriptEngine.Value.Basic

/-!
# Operations on two values

Arithmetic is on two integers or two floats, and `+` also joins strings.  Integer arithmetic wraps
around at 64 bits, and division drops the remainder.  Nothing is converted: a pair of values that
an operation does not support is an error.
-/

namespace ScriptEngine

namespace Operation

def onInts (op : Operation) (m n : Int64) : Except RuntimeError Value :=
  match op with
  | add => .ok (.int (m + n))
  | subtract => .ok (.int (m - n))
  | multiply => .ok (.int (m * n))
  | divide => if n = 0 then .error .divisionByZero else .ok (.int (m / n))
  | greater => .ok (.bool (n < m))
  | greaterOrEqual => .ok (.bool (n ≤ m))
  | _ => .error (.unsupportedOperands op .int .int)

def onFloats (op : Operation) (x y : Float) : Except RuntimeError Value :=
  match op with
  | add => .ok (.float (x + y))
  | subtract => .ok (.float (x - y))
  | multiply => .ok (.float (x * y))
  | divide => .ok (.float (x / y))
  | greater => .ok (.bool (x > y))
  | greaterOrEqual => .ok (.bool (x ≥ y))
  | _ => .error (.unsupportedOperands op .float .float)

def apply (op : Operation) (left right : Value) : Except RuntimeError Value :=
  match op, left, right with
  | _, .int m, .int n => op.onInts m n
  | _, .float x, .float y => op.onFloats x y
  | add, .str s, .str t => .ok (.str (s ++ t))
  | and, .bool a, .bool b => .ok (.bool (a && b))
  | or, .bool a, .bool b => .ok (.bool (a || b))
  | _, _, _ => .error (.unsupportedOperands op left.kind right.kind)

end Operation

namespace Value

/-- The opposite of a number. -/
def opposite : Value → Except RuntimeError Value
  | int n => .ok (.int (-n))
  | float x => .ok (.float (-x))
  | v => .error (.noOpposite v.kind)

end Value

end ScriptEngine
