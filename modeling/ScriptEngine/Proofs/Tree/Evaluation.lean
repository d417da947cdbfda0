import ScriptEngine.Compile.Typing
import ScriptEngine.Machine.Execute

/-!
# Evaluating program trees

A direct evaluator for programs without functions and structs.  It follows the tree and works on the
globals, the heap and the output alone: there is no code, no stack and no jump.  Names stand for
slots of the global store in the order of their declarations.  Loops are cut off by a number of
rounds, so that evaluation always ends.
-/

namespace ScriptEngine

/-! ## What evaluation works on -/

/-- What a program can change and what outlives its run. -/
structure World where
  globals : Globals
  heap : Heap
  output : String

/-- Why evaluation ends early. -/
inductive Halt
  | stop (cause : Stop RuntimeError)
  /-- A loop went through all its rounds. -/
  | outOfRounds

/-- An evaluation; the world is kept as it is when it ends early. -/
abbrev Eval := EStateM Halt World

namespace Eval

def fail {α : Type} (e : RuntimeError) : Eval α :=
  throw (.stop (.error e))

def ofExcept {α : Type} : Except RuntimeError α → Eval α
  | .ok a => pure a
  | .error e => fail e

def readGlobal (slot : Nat) : Eval Value := do
  ofExcept ((← get).globals.get slot)

/-- Changes the world by the result of a computation on it. -/
def update {α : Type} (compute : World → Except RuntimeError α) (put : World → α → World) :
    Eval Unit := fun w =>
  match compute w with
  | .ok a => .ok () (put w a)
  | .error e => .error (.stop (.error e)) w

def writeGlobal (slot : Nat) (v : Value) : Eval Unit :=
  update (fun w => w.globals.set slot v) fun w globals => { w with globals }

def allocate (new : Heap → Value × Heap) : Eval Value := fun w =>
  .ok (new w.heap).1 { w with heap := (new w.heap).2 }

def readIndex (container position : Value) : Eval Value := do
  ofExcept ((← get).heap.index container position)

def writeIndex (container position v : Value) : Eval Unit :=
  update (fun w => w.heap.setIndex container position v) fun w heap => { w with heap }

def callBuiltin (b : Builtin) (arguments : List Value) : Eval Value := fun w =>
  match b.reply w.heap arguments with
  | .error stop => .error (.stop stop) w
  | .ok reply =>
      .ok ((w.heap.answer reply).1.getD .null)
        { w with heap := (w.heap.answer reply).2, output := w.output ++ reply.printed }

/-- Calls a value.  Only built-in functions can be called. -/
def call (callee : Value) (arguments : List Value) : Eval Value :=
  match callee with
  | .builtin b => callBuiltin b arguments
  | v => fail (.notCallable v.kind)

/-- Evaluates a body as long as a test is truthy, for a limited number of rounds. -/
def rounds (test : Eval Value) (body : Eval Unit) : Nat → Eval Unit
  | 0 => throw .outOfRounds
  | n + 1 => do
      if (← test).isTruthy then
        body
        rounds test body n

end Eval

/-- The result of an operator before its operand. -/
def PrefixOp.evaluate : PrefixOp → Value → Eval Value
  | minus, v => Eval.ofExcept v.opposite
  | bang, v => pure (.bool (!v.isTruthy))

/-- Whether an operator evaluates its right operand first. -/
def InfixOp.isRightFirst : InfixOp → Bool
  | less | lessOrEqual => true
  | _ => false

/-- The result of an operator between its operands.  Both operands of every operator are
evaluated. -/
def InfixOp.evaluate (op : InfixOp) (l r : Value) : Eval Value :=
  match op with
  | add => Eval.ofExcept (Operation.apply .add l r)
  | subtract => Eval.ofExcept (Operation.apply .subtract l r)
  | multiply => Eval.ofExcept (Operation.apply .multiply l r)
  | divide => Eval.ofExcept (Operation.apply .divide l r)
  | equal => pure (.bool (l.identical r))
  | notEqual => pure (.bool (!l.identical r))
  | less => Eval.ofExcept (Operation.apply .greater r l)
  | lessOrEqual => Eval.ofExcept (Operation.apply .greaterOrEqual r l)
  | greater => Eval.ofExcept (Operation.apply .greater l r)
  | greaterOrEqual => Eval.ofExcept (Operation.apply .greaterOrEqual l r)
  | and => Eval.ofExcept (Operation.apply .and l r)
  | or => Eval.ofExcept (Operation.apply .or l r)

def Ty.zero : Ty → Eval Value
  | .int => pure (.int 0)
  | .float => pure (.float 0)
  | .string => pure (.str "")
  | .bool => pure (.bool false)
  | .array _ => Eval.allocate fun h => h.newArray #[]
  | .hash _ _ => Eval.allocate fun h => h.newHash .empty
  | _ => pure .null

/-! ## Names -/

/-- Which declarations precede a place: those before it in the text, or those before it in the order
of evaluation. -/
inductive Scoping
  | textual
  | evaluated
deriving DecidableEq

/-- The slot of a name, given the declared names, the last one first. -/
def slot? : List String → String → Option Nat
  | [], _ => none
  | declared :: earlier, name => if declared = name then some earlier.length else slot? earlier name

/-- Reads a name: the variable that was declared last, or else the built-in function. -/
def readName (declared : List String) (name : String) : Eval Value :=
  match slot? declared name with
  | some slot => Eval.readGlobal slot
  | none => pure (((Builtin.ofName? name).map Value.builtin).getD .null)

/-- Whether the declarations in the right operand of an operator precede the left one. -/
def Scoping.rightFirst : Scoping → InfixOp → Bool
  | textual, _ => false
  | evaluated, op => op.isRightFirst

/-- Whether a callee that is replaced by the name of an overload still declares names. -/
def Scoping.readsCallee : Scoping → Option String → Bool
  | textual, _ => true
  | evaluated, named => named.isNone

mutual

/-- The declared names after an expression. -/
def Expr.names (sc : Scoping) : Expr → List String → List String
  | .unary _ operand, ns => operand.names sc ns
  | .binary op left right, ns =>
      if sc.rightFirst op then
        left.names sc (right.names sc ns)
      else
        right.names sc (left.names sc ns)
  | .cond condition consequence alternative, ns =>
      let ns := Stmt.namesAll sc consequence (condition.names sc ns)
      match alternative with
      | some body => Stmt.namesAll sc body ns
      | none => ns
  | .call callee arguments overload, ns =>
      let ns := if sc.readsCallee (callee.calleeName? overload) then callee.names sc ns else ns
      Expr.namesAll sc arguments ns
  | .array elements, ns => Expr.namesAll sc elements ns
  | .hash pairs, ns => Expr.namesPairs sc pairs ns
  | .index container position, ns => position.names sc (container.names sc ns)
  | _, ns => ns

def Expr.namesAll (sc : Scoping) : List Expr → List String → List String
  | [], ns => ns
  | e :: es, ns => Expr.namesAll sc es (e.names sc ns)

def Expr.namesPairs (sc : Scoping) : List (Expr × Expr) → List String → List String
  | [], ns => ns
  | (k, v) :: rest, ns => Expr.namesPairs sc rest (v.names sc (k.names sc ns))

/-- The declared names after a statement.  A variable is declared after its initializer. -/
def Stmt.names (sc : Scoping) : Stmt → List String → List String
  | .declare name _ _ value, ns =>
      match value with
      | some e => name :: e.names sc ns
      | none => name :: ns
  | .assign _ value, ns => value.names sc ns
  | .setIndex container position value, ns =>
      value.names sc (position.names sc (container.names sc ns))
  | .loop condition body, ns => Stmt.namesAll sc body (condition.names sc ns)
  | .block body, ns => Stmt.namesAll sc body ns
  | .expr value, ns => value.names sc ns
  | _, ns => ns

def Stmt.namesAll (sc : Scoping) : List Stmt → List String → List String
  | [], ns => ns
  | s :: rest, ns => Stmt.namesAll sc rest (s.names sc ns)

end

/-! ## Programs without functions and structs -/

/-- Whether the type is not that of a struct. -/
def Ty.isFirstOrder : Ty → Bool
  | .struct _ _ => false
  | _ => true

mutual

/-- Whether an expression has no function and no struct in it. -/
def Expr.isFirstOrder : Expr → Bool
  | .unary _ operand => operand.isFirstOrder
  | .binary _ left right => left.isFirstOrder && right.isFirstOrder
  | .cond condition consequence alternative =>
      condition.isFirstOrder && Stmt.allFirstOrder consequence &&
        match alternative with
        | some body => Stmt.allFirstOrder body
        | none => true
  | .call callee arguments _ => callee.isFirstOrder && Expr.allFirstOrder arguments
  | .array elements => Expr.allFirstOrder elements
  | .hash pairs => Expr.pairsFirstOrder pairs
  | .index container position => container.isFirstOrder && position.isFirstOrder
  | .function _ _ _ | .struct _ _ | .select _ _ _ => false
  | _ => true

def Expr.allFirstOrder : List Expr → Bool
  | [] => true
  | e :: es => e.isFirstOrder && Expr.allFirstOrder es

def Expr.pairsFirstOrder : List (Expr × Expr) → Bool
  | [] => true
  | (k, v) :: rest => k.isFirstOrder && v.isFirstOrder && Expr.pairsFirstOrder rest

/-- Whether a statement is a declaration, an assignment, a loop, a block or an expression, without
functions and structs in it. -/
def Stmt.isFirstOrder : Stmt → Bool
  | .declare _ _ ty value =>
      (ty.getD .null).isFirstOrder &&
        match value with
        | some e => e.isFirstOrder
        | none => true
  | .assign _ value => value.isFirstOrder
  | .setIndex container position value =>
      container.isFirstOrder && position.isFirstOrder && value.isFirstOrder
  | .loop condition body => condition.isFirstOrder && Stmt.allFirstOrder body
  | .block body => Stmt.allFirstOrder body
  | .expr value => value.isFirstOrder
  | _ => false

def Stmt.allFirstOrder : List Stmt → Bool
  | [] => true
  | s :: rest => s.isFirstOrder && Stmt.allFirstOrder rest

end

/-! ## Evaluation -/

/-- What statements leave for the expression that they are part of. -/
inductive Yield
  /-- Nothing was done. -/
  | nothing
  /-- The last thing done was to compute this value. -/
  | value (v : Value)
  /-- The last thing done was a write with this value. -/
  | written (v : Value)

namespace Yield

/-- The value of a block: that of its last statement if this computes one, and null otherwise. -/
def blockValue : Yield → Value
  | value v => v
  | _ => .null

/-- The value that was used last. -/
def last? : Yield → Option Value
  | nothing => none
  | value v | written v => some v

/-- What is left after further statements. -/
def andThen : Yield → Yield → Yield
  | y, nothing => y
  | _, y => y

end Yield

mutual

/-- The value of an expression, where loops have a number of rounds and names are declared. -/
def Expr.eval (fuel : Nat) (sc : Scoping) : Expr → List String → Eval Value
  | .int n, _ => pure (.int n)
  | .float x, _ => pure (.float x)
  | .str s, _ => pure (.str s)
  | .bool b, _ => pure (.bool b)
  | .null, _ => pure .null
  | .ident name, ns => readName ns name
  | .unary op operand, ns => do op.evaluate (← operand.eval fuel sc ns)
  | .binary op left right, ns => do
      let leftNames := if sc.rightFirst op then right.names sc ns else ns
      let rightNames := if sc.rightFirst op then ns else left.names sc ns
      if op.isRightFirst then
        let r ← right.eval fuel sc rightNames
        let l ← left.eval fuel sc leftNames
        op.evaluate l r
      else
        let l ← left.eval fuel sc leftNames
        let r ← right.eval fuel sc rightNames
        op.evaluate l r
  | .cond condition consequence alternative, ns => do
      let c ← condition.eval fuel sc ns
      let ns := condition.names sc ns
      if c.isTruthy then
        return (← Stmt.evalAll fuel sc consequence ns).blockValue
      else
        match alternative with
        | some body =>
            return (← Stmt.evalAll fuel sc body (Stmt.namesAll sc consequence ns)).blockValue
        | none => return .null
  | .call callee arguments overload, ns => do
      let f ←
        match callee.calleeName? overload with
        | some name => readName ns name
        | none => callee.eval fuel sc ns
      let ns := if sc.readsCallee (callee.calleeName? overload) then callee.names sc ns else ns
      let vs ← Expr.evalAll fuel sc arguments ns
      Eval.call f vs
  | .array elements, ns => do
      let vs ← Expr.evalAll fuel sc elements ns
      Eval.allocate fun h => h.newArray vs.toArray
  | .hash pairs, ns => do
      let vs ← Expr.evalPairs fuel sc pairs ns
      let entries ← Eval.ofExcept (Exec.storePairs .empty vs)
      Eval.allocate fun h => h.newHash entries
  | .index container position, ns => do
      let c ← container.eval fuel sc ns
      let p ← position.eval fuel sc (container.names sc ns)
      Eval.readIndex c p
  | _, _ => pure .null

/-- The values of expressions from left to right. -/
def Expr.evalAll (fuel : Nat) (sc : Scoping) : List Expr → List String → Eval (List Value)
  | [], _ => pure []
  | e :: es, ns => do
      let v ← e.eval fuel sc ns
      let vs ← Expr.evalAll fuel sc es (e.names sc ns)
      return v :: vs

def Expr.evalPairs (fuel : Nat) (sc : Scoping) :
    List (Expr × Expr) → List String → Eval (List Value)
  | [], _ => pure []
  | (k, v) :: rest, ns => do
      let key ← k.eval fuel sc ns
      let value ← v.eval fuel sc (k.names sc ns)
      let vs ← Expr.evalPairs fuel sc rest (v.names sc (k.names sc ns))
      return key :: value :: vs

def Stmt.eval (fuel : Nat) (sc : Scoping) : Stmt → List String → Eval Yield
  | .declare _ _ ty value, ns =>
      match value with
      | some e => do
          let v ← e.eval fuel sc ns
          Eval.writeGlobal (e.names sc ns).length v
          return .written v
      | none => do
          let v ← (ty.getD .null).zero
          Eval.writeGlobal ns.length v
          return .written v
  | .assign name value, ns => do
      let v ← value.eval fuel sc ns
      Eval.writeGlobal ((slot? ns name).getD 0) v
      return .written v
  | .setIndex container position value, ns => do
      let c ← container.eval fuel sc ns
      let p ← position.eval fuel sc (container.names sc ns)
      let v ← value.eval fuel sc (position.names sc (container.names sc ns))
      Eval.writeIndex c p v
      return .written c
  | .loop condition body, ns => do
      let body := discard (Stmt.evalAll fuel sc body (condition.names sc ns))
      Eval.rounds (condition.eval fuel sc ns) body fuel
      return .value .null
  | .block body, ns => Stmt.evalAll fuel sc body ns
  | .expr value, ns => do return .value (← value.eval fuel sc ns)
  | _, _ => pure .nothing

def Stmt.evalAll (fuel : Nat) (sc : Scoping) : List Stmt → List String → Eval Yield
  | [], _ => pure .nothing
  | s :: rest, ns => do
      let first ← s.eval fuel sc ns
      let later ← Stmt.evalAll fuel sc rest (s.names sc ns)
      return first.andThen later

end

end ScriptEngine
