/-!
# Operators

The operators of expressions and their spellings.
-/

namespace ScriptEngine

/-- An operator before its operand. -/
inductive PrefixOp
  | minus
  | bang
deriving DecidableEq, Repr

namespace PrefixOp

def text : PrefixOp → String
  | minus => "-"
  | bang => "!"

def all : List PrefixOp :=
  [minus, bang]

def ofText? (s : String) : Option PrefixOp :=
  all.find? fun op => op.text == s

@[simp] theorem ofText?_text (op : PrefixOp) : ofText? op.text = some op := by
  cases op <;> decide

end PrefixOp

/-- An operator between its operands. -/
inductive InfixOp
  | add
  | subtract
  | multiply
  | divide
  | equal
  | notEqual
  | less
  | lessOrEqual
  | greater
  | greaterOrEqual
  | and
  | or
deriving DecidableEq, Repr

namespace InfixOp

def text : InfixOp → String
  | add => "+"
  | subtract => "-"
  | multiply => "*"
  | divide => "/"
  | equal => "=="
  | notEqual => "!="
  | less => "<"
  | lessOrEqual => "<="
  | greater => ">"
  | greaterOrEqual => ">="
  | and => "&&"
  | or => "||"

def all : List InfixOp :=
  [add, subtract, multiply, divide, equal, notEqual, less, lessOrEqual, greater, greaterOrEqual,
    and, or]

def ofText? (s : String) : Option InfixOp :=
  all.find? fun op => op.text == s

@[simp] theorem ofText?_text (op : InfixOp) : ofText? op.text = some op := by
  cases op <;> decide

/-- Whether the operator always yields a truth value. -/
def isBoolean : InfixOp → Bool
  | add | subtract | multiply | divide => false
  | _ => true

end InfixOp

end ScriptEngine
