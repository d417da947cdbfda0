import ScriptEngine.Compile.State

/-!
# Static types of expressions

Just enough inference to see that the condition of a loop is a truth value and to find the offset of
a field.  Nothing is captured and nothing is checked: a type that cannot be found locally is
unknown.
-/

namespace ScriptEngine

namespace Ty

def element? : Ty → Option Ty
  | array t => some t
  | _ => none

/-- The type of what an array or a hash gives when indexed. -/
def indexed? : Ty → Option Ty
  | array t => some t
  | hash _ t => some t
  | _ => none

def result? : Ty → Option Ty
  | func _ t => t
  | _ => none

end Ty

namespace StructType

def fieldType? (st : StructType) (field : String) : Option Ty :=
  (st.fields.find? fun f => f.1 == field).map Prod.snd

end StructType

/-- The name by which a call finds its callee: the chosen overload, or else the callee itself if it
is a name. -/
def Expr.calleeName? (callee : Expr) (overload : Option String) : Option String :=
  match overload, callee with
  | some name, _ => some name
  | none, .ident name => some name
  | none, _ => none

namespace Compiler

/-- The type of the result of a built-in function, given the type of its first argument. -/
def builtinResult? (b : Builtin) (argument : Option Ty) : Option Ty :=
  match b with
  | .len => some .int
  | .rest | .push => argument
  | .first | .last => argument.bind Ty.element?
  | .puts => none

/-- The type of the result of a call by name, given the type of the first argument. -/
def namedResult? (c : Compiler) (name : String) (argument : Option Ty) : Option Ty :=
  match c.chain.lookup? name with
  | none => none
  | some symbol =>
      match symbol.storage with
      | .builtin => (Builtin.ofName? symbol.name).bind fun b => builtinResult? b argument
      | _ => symbol.ty.bind Ty.result?

mutual

/-- The type of an expression, as far as it can be seen. -/
def typeOf (c : Compiler) : Expr → Option Ty
  | .int _ => some .int
  | .float _ => some .float
  | .str _ => some .string
  | .bool _ => some .bool
  | .null => some .null
  | .ident name => (c.chain.lookup? name).bind Symbol.ty
  | .unary .bang _ => some .bool
  | .unary .minus operand => typeOf c operand
  | .binary op left _ => if op.isBoolean then some .bool else typeOf c left
  | .cond _ consequence _ => typeOfLast c consequence
  | .function _ signature _ => some signature.ty
  | .call callee arguments overload =>
      match callee.calleeName? overload with
      | some name => c.namedResult? name (typeOfFirst c arguments)
      | none => (typeOf c callee).bind Ty.result?
  | .array elements => (typeOfFirst c elements).map .array
  | .hash pairs => typeOfPairs c pairs
  | .index container _ => (typeOf c container).bind Ty.indexed?
  | .struct typeName _ => (c.struct? typeName).map StructType.toTy
  | .select object field structType =>
      match structType with
      | some st => st.fieldType? field
      | none => ((typeOf c object).bind Ty.struct?).bind fun st => st.fieldType? field

def typeOfFirst (c : Compiler) : List Expr → Option Ty
  | [] => none
  | e :: _ => typeOf c e

/-- The type of a hash with these keys and values, read off the first of them. -/
def typeOfPairs (c : Compiler) : List (Expr × Expr) → Option Ty
  | [] => none
  | (k, v) :: _ =>
      match typeOf c k, typeOf c v with
      | some key, some value => some (.hash key value)
      | _, _ => none

/-- The type of the value that a block leaves. -/
def typeOfLast (c : Compiler) : List Stmt → Option Ty
  | [] => none
  | [.expr e] => typeOf c e
  | [_] => none
  | _ :: rest => typeOfLast c rest

end

/-- The position of a field of an object, by the struct type given for the object or else by the
type that can be seen. -/
def fieldIndex (c : Compiler) (object : Expr) (field : String) (given : Option StructType) :
    Except CompileError Nat :=
  let found : Except CompileError StructType :=
    match given with
    | some st => .ok st
    | none =>
        match (c.typeOf object).bind Ty.struct? with
        | some st => .ok st
        | none => .error (.notAStruct field (c.typeOf object))
  match found with
  | .error e => .error e
  | .ok st =>
      match st.fieldIndex? field with
      | some i => .ok i
      | none => .error (.unknownField st.name field)

end Compiler

end ScriptEngine
