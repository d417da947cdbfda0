/-!
# Kinds of values

The names by which messages speak of a value without showing it.
-/

namespace ScriptEngine

inductive Kind
  | null
  | bool
  | int
  | float
  | string
  | array
  | hash
  | struct
  | closure
  | function
  | structType
  | builtin
deriving DecidableEq, Repr

namespace Kind

def name : Kind → String
  | null => "null"
  | bool => "bool"
  | int => "int"
  | float => "float"
  | string => "string"
  | array => "array"
  | hash => "hash"
  | struct => "struct"
  | closure => "closure"
  | function => "function"
  | structType => "struct type"
  | builtin => "builtin"

end Kind

end ScriptEngine
