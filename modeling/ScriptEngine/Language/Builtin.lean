/-!
# Names of the built-in functions

Six functions are known without a declaration, each by its name and by its place in a fixed list.
What they do is kept with the machine.
-/

namespace ScriptEngine

inductive Builtin
  | len
  | puts
  | first
  | last
  | rest
  | push
deriving DecidableEq, Repr

namespace Builtin

/-- The built-in functions in the order of their indices. -/
def all : List Builtin :=
  [len, puts, first, last, rest, push]

/-- The name by which programs call the function. -/
def name : Builtin → String
  | len => "len"
  | puts => "puts"
  | first => "first"
  | last => "last"
  | rest => "rest"
  | push => "push"

def ofIndex? (i : Nat) : Option Builtin :=
  all[i]?

def ofName? (s : String) : Option Builtin :=
  all.find? fun b => b.name == s

@[simp] theorem ofName?_name (b : Builtin) : ofName? b.name = some b := by
  cases b <;> decide

/-- No two functions share a name. -/
@[simp] theorem name_inj {b b' : Builtin} : b.name = b'.name ↔ b = b' := by
  constructor
  · intro hname
    simpa using congrArg ofName? hname
  · rintro rfl
    rfl

end Builtin

end ScriptEngine
