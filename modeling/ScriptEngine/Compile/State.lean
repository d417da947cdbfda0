import ScriptEngine.Compile.Error
import ScriptEngine.Language.Program
import ScriptEngine.Machine.Error
import ScriptEngine.Scope.Chain
import ScriptEngine.Value.Basic
import Std.Data.TreeSet

/-!
# The compiler

The state of a compilation: the constant pool, the open scopes, the code under construction of each
open scope, and the struct types known by name.  Between units only the pool, the global scope and
the known struct types are left.
-/

namespace ScriptEngine

/-- An instruction that was written, and where. -/
structure Emitted where
  opcode : Opcode
  position : Nat
deriving DecidableEq, Repr

/-- Code under construction. -/
structure OpenCode where
  code : Code
  /-- The instruction written last. -/
  last : Option Emitted
  /-- The instruction written before the last one. -/
  previous : Option Emitted
  /-- Functions whose names are bound already and whose declarations are still to come. -/
  hoisted : Std.TreeSet String

namespace OpenCode

def empty : OpenCode :=
  { code := .empty, last := none, previous := none, hoisted := ∅ }

end OpenCode

/-- A struct type known by name, and its place in the constant pool. -/
structure KnownStruct where
  type : StructType
  constant : Nat
deriving DecidableEq, Repr

/-- The state of a compilation. -/
structure Compiler where
  pool : Array Value
  chain : ScopeChain
  /-- The code of the innermost open scope. -/
  current : OpenCode
  /-- The codes of the scopes around it, from the inside out. -/
  enclosing : List OpenCode
  structs : Std.TreeMap String KnownStruct

namespace Compiler

/-- The struct types of a pool by name; of several with one name the last counts. -/
def knownStructs (pool : Array Value) : Std.TreeMap String KnownStruct :=
  pool.toList.zipIdx.foldl
    (fun known entry =>
      match entry.1 with
      | .structType t => known.insert t.content.name ⟨t.content, entry.2⟩
      | _ => known)
    ∅

/-- A compiler that goes on from a global scope and a pool. -/
def resume (scope : Scope) (pool : Array Value) : Compiler :=
  { pool
    chain := .ofScope scope
    current := .empty
    enclosing := []
    structs := knownStructs pool }

/-- A compiler that knows the built-in functions only. -/
def new : Compiler :=
  resume .withBuiltins #[]

/-- The global scope and the pool, with which another compiler can go on. -/
def release (c : Compiler) : Scope × Array Value :=
  (c.chain.outermost, c.pool)

/-- Closes all functions and drops the code under construction. -/
def unwind (c : Compiler) : Compiler :=
  { c with chain := .ofScope c.chain.outermost, current := .empty, enclosing := [] }

def struct? (c : Compiler) (name : String) : Option StructType :=
  (c.structs.get? name).map KnownStruct.type

end Compiler

/-- A compilation that may stop early.  The state is kept as it is at that point. -/
abbrev CompileM := EStateM (Stop CompileError) Compiler

end ScriptEngine
