import ScriptEngine.Scope.Symbol
import ScriptEngine.Language.Builtin
import Std.Data.TreeMap

/-!
# The names of one scope

A scope is the top level of a program or the whole body of one function.  It hands out slots in
order, remembers which names of enclosing scopes it has captured, and lets a later binding of a name
take the place of an earlier one.
-/

namespace ScriptEngine

/-- The names bound in one scope. -/
structure Scope where
  bindings : Std.TreeMap String Symbol
  /-- The number of slots handed out. -/
  definitions : Nat
  /-- Whether slots are slots of the global store. -/
  isGlobal : Bool
  /-- The captured names in the order of discovery, each as the enclosing scope sees it. -/
  captures : List Symbol

namespace Scope

def empty (isGlobal : Bool) : Scope :=
  { bindings := ∅, definitions := 0, isGlobal, captures := [] }

/-- The symbol that this scope itself has for a name. -/
def get? (s : Scope) (name : String) : Option Symbol :=
  s.bindings.get? name

def bind (s : Scope) (symbol : Symbol) : Scope :=
  { s with bindings := s.bindings.insert symbol.name symbol }

/-- The symbol that the next declaration of a name gets. -/
def nextSymbol (s : Scope) (name : String) (isMutable : Bool) (ty : Option Ty) : Symbol :=
  { name, storage := if s.isGlobal then .global else .slot, index := s.definitions, isMutable, ty }

def define (s : Scope) (name : String) (isMutable : Bool) (ty : Option Ty) : Symbol × Scope :=
  let symbol := s.nextSymbol name isMutable ty
  (symbol, { s.bind symbol with definitions := s.definitions + 1 })

/-- Binds a name to the built-in function at an index. -/
def defineBuiltin (s : Scope) (index : Nat) (name : String) : Symbol × Scope :=
  let symbol := { name, storage := .builtin, index, isMutable := false, ty := none }
  (symbol, s.bind symbol)

/-- Binds the name of the function being compiled to the running closure. -/
def defineSelf (s : Scope) (name : String) (ty : Option Ty) : Symbol × Scope :=
  let symbol := { name, storage := .self, index := 0, isMutable := false, ty }
  (symbol, s.bind symbol)

/-- Binds a symbol of the enclosing scope as the next captured value. -/
def capture (s : Scope) (outer : Symbol) : Symbol × Scope :=
  let symbol := { outer with storage := .captured, index := s.captures.length }
  (symbol, { s.bind symbol with captures := s.captures ++ [outer] })

/-- The global scope in which the built-in functions are bound. -/
def withBuiltins : Scope :=
  Builtin.all.zipIdx.foldl (fun s b => (s.defineBuiltin b.2 b.1.name).2) (empty true)

@[simp] theorem get?_empty (isGlobal : Bool) (name : String) :
    (empty isGlobal).get? name = none := by
  simp [get?, empty]

@[simp] theorem get?_bind (s : Scope) (symbol : Symbol) (name : String) :
    (s.bind symbol).get? name = if symbol.name = name then some symbol else s.get? name := by
  simp [get?, bind, Std.TreeMap.getElem?_insert]

@[simp] theorem get?_define
    (s : Scope) (x : String) (isMutable : Bool) (ty : Option Ty) (name : String) :
    (s.define x isMutable ty).2.get? name =
      if x = name then some (s.define x isMutable ty).1 else s.get? name :=
  get?_bind s (s.nextSymbol x isMutable ty) name

@[simp] theorem get?_defineSelf (s : Scope) (x : String) (ty : Option Ty) (name : String) :
    (s.defineSelf x ty).2.get? name =
      if x = name then some (s.defineSelf x ty).1 else s.get? name :=
  get?_bind s (s.defineSelf x ty).1 name

@[simp] theorem get?_capture (s : Scope) (outer : Symbol) (name : String) :
    (s.capture outer).2.get? name =
      if outer.name = name then some (s.capture outer).1 else s.get? name :=
  get?_bind s (s.capture outer).1 name

end Scope

end ScriptEngine
