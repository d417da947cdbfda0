import ScriptEngine.Language.Ty

/-!
# Symbols

What the compiler knows of a name: where its value is kept, whether it may be assigned to, and its
type if there is one.
-/

namespace ScriptEngine

/-- Where the value of a name is kept. -/
inductive Storage
  /-- A slot of the global store. -/
  | global
  /-- A stack slot of the running function. -/
  | slot
  /-- A value that the running closure captured. -/
  | captured
  /-- A built-in function. -/
  | builtin
  /-- The running closure itself. -/
  | self
deriving DecidableEq, Repr

namespace Storage

/-- Whether the value can be reached from every function without being captured. -/
def isShared : Storage → Bool
  | global | builtin => true
  | _ => false

/-- Whether the name took a slot of its own when it was declared. -/
def isDeclared : Storage → Bool
  | global | slot => true
  | _ => false

end Storage

/-- A name as one scope sees it. -/
structure Symbol where
  name : String
  storage : Storage
  /-- The position within the storage. -/
  index : Nat
  isMutable : Bool
  ty : Option Ty
deriving DecidableEq, Repr

end ScriptEngine
