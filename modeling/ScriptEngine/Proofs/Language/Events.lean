import ScriptEngine.Compile.Program
import ScriptEngine.Proofs.Language.Outline

/-!
# What programs do with names and struct types

Of a program, what matters for names, functions and struct types is the order in which names are
declared and used, functions are entered and left, and struct types are introduced and built.  These
are its events.  They are read off the tree in the order of compilation: the right operand of a
swapped operator comes first, the fields of a struct literal come in the order of its type, and the
functions of a block are declared at its beginning.  What is never compiled has no events.
-/

namespace ScriptEngine

/-! ## Events -/

/-- A struct type whose literal or zero value is built, and the struct type that is known by its
name at that time. -/
structure Build where
  type : StructType
  known : StructType
deriving DecidableEq

/-- What happens to names, functions and struct types at one point of a program. -/
inductive Event
  /-- The value of a name is read. -/
  | use (name : String)
  /-- A variable, a constant or a function is declared. -/
  | declare (name : String) (isMutable : Bool)
  /-- A struct type is declared. -/
  | introduce (type : StructType)
  /-- The value of a struct type is built from those of its fields. -/
  | build (b : Build)
  /-- A function begins, with the name by which it may refer to itself. -/
  | enter (self : Option String) (parameters : List String)
  /-- The function ends. -/
  | leave
deriving DecidableEq

/-- The struct types that are known by their names. -/
abbrev KnownTypes := String → Option StructType

namespace KnownTypes

/-- A struct type becomes known by a name. -/
def learn (k : KnownTypes) (name : String) (type : StructType) : KnownTypes := fun other =>
  if other = name then some type else k other

/-- The struct type that is known by the name of a given one, or else the given one. -/
def knownAs (k : KnownTypes) (type : StructType) : StructType :=
  (k type.name).getD type

/-- What is known after an event.  A struct type that is built is known afterwards. -/
def after (k : KnownTypes) : Event → KnownTypes
  | .introduce type => k.learn type.name type
  | .build b => k.learn b.type.name b.known
  | _ => k

def afterAll (k : KnownTypes) (es : List Event) : KnownTypes :=
  es.foldl after k

def nothing : KnownTypes := fun _ => none

/-- The struct types of a pool; of several with one name the last counts. -/
def ofPool (pool : Array Value) : KnownTypes := fun name =>
  ((Compiler.knownStructs pool).get? name).map KnownStruct.type

end KnownTypes

/-! ## Walks -/

/-- The events of a part of a program, given the struct types that are known before it. -/
abbrev Walk := KnownTypes → List Event

namespace Walk

def nothing : Walk := fun _ => []

def one (e : Event) : Walk := fun _ => [e]

/-- One part of a program after another. -/
def andThen (a b : Walk) : Walk := fun k =>
  a k ++ b (k.afterAll (a k))

/-- Parts of a program one after another. -/
def all (as : List Walk) : Walk :=
  as.foldr andThen nothing

/-- The value of a struct type is built. -/
def build (type : StructType) : Walk := fun k =>
  [.build ⟨type, k.knownAs type⟩]

/-- A block: its functions are declared before its statements. -/
def block (functions : List String) (statements : Walk) : Walk := fun k =>
  functions.map (.declare · false) ++ statements k

/-- A function with a given body. -/
def function (self : Option String) (signature : Signature) (body : Walk) : Walk := fun k =>
  .enter self (signature.parameters.map Prod.fst) :: (body k ++ [.leave])

/-- A struct literal, given the events of each of its fields. -/
def struct (typeName : String) (field : String × Ty → Walk) : Walk := fun k =>
  match k typeName with
  | some st => andThen (all (st.fields.map field)) (build st) k
  | none => []

end Walk

mutual

/-- The events of the zero value of a type. -/
def Ty.zeroWalk : Ty → Walk
  | .struct name fields => (Ty.zeroWalks fields).andThen (.build ⟨name, fields⟩)
  | _ => .nothing

def Ty.zeroWalks : List (String × Ty) → Walk
  | [] => .nothing
  | (_, ty) :: fields => ty.zeroWalk.andThen (Ty.zeroWalks fields)

end

mutual

/-- The events of an expression.  A function literal that initializes a variable goes by the name of
the variable. -/
def Expr.walk (bound : Option String) : Expr → Walk
  | .int _ | .float _ | .str _ | .bool _ | .null => .nothing
  | .ident name => .one (.use name)
  | .unary _ operand => operand.walk none
  | .binary op left right =>
      if op.isSwapped then
        (right.walk none).andThen (left.walk none)
      else
        (left.walk none).andThen (right.walk none)
  | .cond condition consequence alternative =>
      (condition.walk none).andThen
        ((Walk.block (consequence.filterMap Stmt.functionName?) (Stmt.walks consequence)).andThen
          (match alternative with
          | some body => .block (body.filterMap Stmt.functionName?) (Stmt.walks body)
          | none => .nothing))
  | .function name signature body =>
      .function (bound <|> name) signature
        (.block (body.filterMap Stmt.functionName?) (Stmt.walks body))
  | .call callee arguments overload =>
      Walk.andThen
        (match callee.calleeName? overload with
        | some name => .one (.use name)
        | none => callee.walk none)
        (Expr.walks arguments)
  | .array elements => Expr.walks elements
  | .hash pairs => Expr.pairWalks pairs
  | .index container position => (container.walk none).andThen (position.walk none)
  | .struct typeName initializers => .struct typeName fun f => Expr.fieldWalk f initializers
  | .select object _ _ => object.walk none

def Expr.walks : List Expr → Walk
  | [] => .nothing
  | e :: es => (e.walk none).andThen (Expr.walks es)

def Expr.pairWalks : List (Expr × Expr) → Walk
  | [] => .nothing
  | (k, v) :: rest => (k.walk none).andThen ((v.walk none).andThen (Expr.pairWalks rest))

/-- The events of the value of a field: its first initializer, or the zero value. -/
def Expr.fieldWalk (field : String × Ty) : List (String × Expr) → Walk
  | [] => field.2.zeroWalk
  | (name, e) :: rest => if name = field.1 then e.walk none else Expr.fieldWalk field rest

/-- The events of a statement when its turn comes.  The name of a function is declared before, at
the beginning of the block. -/
def Stmt.walk : Stmt → Walk
  | .declare name isMutable _ (some e) =>
      (e.walk (some name)).andThen (.one (.declare name isMutable))
  | .declare name isMutable ty none =>
      (ty.getD .null).zeroWalk.andThen (.one (.declare name isMutable))
  | .assign _ value => value.walk none
  | .setIndex container position value =>
      (container.walk none).andThen ((position.walk none).andThen (value.walk none))
  | .setField object _ value _ => (object.walk none).andThen (value.walk none)
  | .ret none => .nothing
  | .ret (some e) => e.walk none
  | .loop condition body =>
      (condition.walk none).andThen
        (.block (body.filterMap Stmt.functionName?) (Stmt.walks body))
  | .function header body =>
      .function (some header.boundName) header.signature
        (.block (body.filterMap Stmt.functionName?) (Stmt.walks body))
  | .structType type => .one (.introduce type)
  | .block body => .block (body.filterMap Stmt.functionName?) (Stmt.walks body)
  | .expr e => e.walk none

def Stmt.walks : List Stmt → Walk
  | [] => .nothing
  | s :: ss => s.walk.andThen (Stmt.walks ss)

end

def Stmt.blockWalk (body : List Stmt) : Walk :=
  .block (body.filterMap Stmt.functionName?) (Stmt.walks body)

/-- The events of a program, given the struct types that are known before it. -/
def Program.events (program : Program) (k : KnownTypes) : List Event :=
  Stmt.blockWalk program k

end ScriptEngine
