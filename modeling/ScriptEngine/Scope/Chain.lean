import ScriptEngine.Scope.Table

/-!
# Scope chains

The scopes that are open at one point of a compilation, from the innermost outwards.  Resolving a
name that an enclosing function owns captures it in every scope between that function and the place
of use, so that each closure on the way hands the value on.
-/

namespace ScriptEngine

/-- The open scopes: the innermost one and those around it, from the inside out. -/
structure ScopeChain where
  current : Scope
  enclosing : List Scope

/-- A name found: its symbol as seen from the innermost scope. -/
structure Resolution where
  symbol : Symbol
  /-- Whether an enclosing scope bound the name. -/
  isOuter : Bool
deriving DecidableEq, Repr

namespace ScopeChain

def ofScope (s : Scope) : ScopeChain :=
  { current := s, enclosing := [] }

/-- The number of functions around the current place. -/
def depth (c : ScopeChain) : Nat :=
  c.enclosing.length

def push (c : ScopeChain) : ScopeChain :=
  { current := .empty false, enclosing := c.current :: c.enclosing }

/-- Closes the innermost scope; the outermost one stays open. -/
def pop? (c : ScopeChain) : Option (Scope × ScopeChain) :=
  match c.enclosing with
  | [] => none
  | s :: rest => some (c.current, { current := s, enclosing := rest })

def outermost (c : ScopeChain) : Scope :=
  c.enclosing.getLastD c.current

def define
    (c : ScopeChain) (name : String) (isMutable : Bool) (ty : Option Ty) : Symbol × ScopeChain :=
  let (symbol, s) := c.current.define name isMutable ty
  (symbol, { c with current := s })

/-- Binds the name of the function whose scope is innermost. -/
def defineSelf (c : ScopeChain) (name : String) (ty : Option Ty) : Symbol × ScopeChain :=
  let (symbol, s) := c.current.defineSelf name ty
  (symbol, { c with current := s })

/-- The symbol of a name in the innermost scope that binds it, without capturing anything. -/
def lookup? (c : ScopeChain) (name : String) : Option Symbol :=
  (c.current :: c.enclosing).findSome? fun s => s.get? name

/-- A declaration in the innermost scope that a new one of the same name would repeat.  Captured,
built-in and self names may be declared anew. -/
def conflict? (c : ScopeChain) (name : String) : Option Symbol :=
  (c.current.get? name).filter fun s => s.storage.isDeclared

/-- Resolves a name in a scope and those around it.  A symbol that is found further out and is not
shared is captured on the way in. -/
def resolveFrom? (name : String) (s : Scope) :
    List Scope → Option (Resolution × Scope × List Scope)
  | [] => (s.get? name).map fun symbol => (⟨symbol, false⟩, s, [])
  | outer :: rest =>
      match s.get? name with
      | some symbol => some (⟨symbol, false⟩, s, outer :: rest)
      | none =>
          match resolveFrom? name outer rest with
          | none => none
          | some (found, outer, rest) =>
              if found.symbol.storage.isShared then
                some (⟨found.symbol, true⟩, s, outer :: rest)
              else
                let (symbol, s) := s.capture found.symbol
                some (⟨symbol, true⟩, s, outer :: rest)

/-- Resolves a name from the innermost scope outwards, together with the chain after captures. -/
def resolve? (c : ScopeChain) (name : String) : Option (Resolution × ScopeChain) :=
  (resolveFrom? name c.current c.enclosing).map fun (found, s, rest) =>
    (found, { current := s, enclosing := rest })

end ScopeChain

end ScriptEngine
