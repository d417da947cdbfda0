import ScriptEngine.Compile.Program
import ScriptEngine.Machine.Run

/-!
# Sessions

A session evaluates units one after another.  Each unit sees what earlier ones declared, and
closures made by one unit can be called by another.  A unit that is refused leaves no trace; one
that stops with an error keeps its declarations and what it had written until then.
-/

namespace ScriptEngine

/-- Why a unit has no value. -/
inductive UnitError
  | compile (cause : CompileError)
  | runtime (cause : RuntimeError)
deriving DecidableEq, Repr

namespace UnitError

def message : UnitError → String
  | compile cause => "compile error: " ++ cause.message
  | runtime cause => "runtime error: " ++ cause.message

end UnitError

/-- How the evaluation of a unit ends. -/
inductive Outcome
  | value (v : Value)
  | error (cause : UnitError)
  | crash (cause : Crash)
  /-- The steps ran out. -/
  | unfinished
deriving DecidableEq

/-- What is kept from one unit to the next. -/
structure Session where
  limits : Limits
  scope : Scope
  pool : Array Value
  globals : Globals
  heap : Heap

namespace Session

/-- A session that has evaluated nothing so far. -/
def new (limits : Limits) : Session :=
  { limits
    scope := .withBuiltins
    pool := #[]
    globals := .ofSize limits.globalsSize
    heap := .empty }

/-- Starts a session.  Its global store is reserved first. -/
def start (limits : Limits) : Except Crash Session :=
  (Globals.reserve limits.globalsSize).map fun globals => { Session.new limits with globals }

/-- The session after a run on its globals and its heap. -/
def afterRun (s : Session) (m : Machine) : Session :=
  { s with globals := m.globals, heap := m.heap }

/-- Evaluates a unit within a number of machine steps.  Gives how it ended, what it printed and the
session after it.  The globals are handed to the machine before it is built, so that they are lost
if it cannot be. -/
def eval (s : Session) (steps : Nat) (program : Program) : Outcome × String × Session :=
  let (compiled, c) := (Compiler.resume s.scope s.pool).compile program
  match compiled with
  | .error (.error e) => (.error (.compile e), "", s)
  | .error (.crash cause) => (.crash cause, "", s)
  | .ok unit =>
      let s := { s with scope := c.chain.outermost, pool := c.pool }
      match Machine.load unit.code unit.constants s.limits s.globals s.heap with
      | .error cause => (.crash cause, "", { s with globals := .ofSize 0 })
      | .ok m =>
          match m.run steps with
          | .finished m => (.value m.lastTaken, m.output, s.afterRun m)
          | .stopped (.error e) m => (.error (.runtime e), m.output, s.afterRun m)
          | .stopped (.crash cause) m => (.crash cause, m.output, s.afterRun m)
          | .unfinished m => (.unfinished, m.output, s.afterRun m)

end Session

end ScriptEngine
