import ScriptEngine.Language.Ty
import ScriptEngine.Language.Operator

/-!
# Program trees

Expressions, statements and units.  Trees arrive checked: a selection may carry the struct type of
its object, and a call may carry the name of the overload that was chosen for it.
-/

namespace ScriptEngine

/-- The parameters and the result type of a function. -/
structure Signature where
  parameters : List (String × Ty)
  result : Option Ty
deriving DecidableEq, Repr

namespace Signature

def ty (s : Signature) : Ty :=
  .func (s.parameters.map Prod.snd) s.result

end Signature

/-- The names and the signature of a declared function. -/
structure FunctionHeader where
  name : String
  /-- The name under which one of several overloads is bound. -/
  overload : Option String
  signature : Signature
deriving DecidableEq, Repr

namespace FunctionHeader

def boundName (h : FunctionHeader) : String :=
  h.overload.getD h.name

end FunctionHeader

mutual

inductive Expr
  | int (value : Int64)
  | float (value : Float)
  | str (value : String)
  | bool (value : Bool)
  | null
  | ident (name : String)
  | unary (op : PrefixOp) (operand : Expr)
  | binary (op : InfixOp) (left right : Expr)
  /-- A choice between two blocks; its value is that of the block taken. -/
  | cond (condition : Expr) (consequence : List Stmt) (alternative : Option (List Stmt))
  /-- A function literal, with a name by which its body may refer to it. -/
  | function (name : Option String) (signature : Signature) (body : List Stmt)
  | call (callee : Expr) (arguments : List Expr) (overload : Option String)
  | array (elements : List Expr)
  | hash (pairs : List (Expr × Expr))
  | index (container position : Expr)
  /-- A struct literal with its initializers in source order. -/
  | struct (typeName : String) (initializers : List (String × Expr))
  | select (object : Expr) (field : String) (structType : Option StructType)

inductive Stmt
  /-- A declaration; without an initializer the variable gets the zero value of its type. -/
  | declare (name : String) (isMutable : Bool) (ty : Option Ty) (value : Option Expr)
  | assign (name : String) (value : Expr)
  | setIndex (container position value : Expr)
  | setField (object : Expr) (field : String) (value : Expr) (structType : Option StructType)
  | ret (value : Option Expr)
  | loop (condition : Expr) (body : List Stmt)
  | function (header : FunctionHeader) (body : List Stmt)
  | structType (declared : StructType)
  | block (body : List Stmt)
  | expr (value : Expr)

end

/-- A unit of compilation: the statements of a program in order. -/
abbrev Program := List Stmt

end ScriptEngine
