import ScriptEngine.Proofs.Language.Events
import ScriptEngine.Proofs.Lists
import ScriptEngine.Proofs.Scope.Lexical

/-!
# The variables and struct values of each function

A survey follows the events of a program and keeps, for each function, which variables it reads and
which struct values it builds.  A name stands for the innermost declaration so far.  What a function
reads of the functions around it, it captures, in the order of first use (`Region.captured`); the
function around it reads these variables in turn where the closure is made.
-/

namespace ScriptEngine

/-! ## Variables -/

/-- Where the value of a variable is kept, seen from no function in particular. -/
inductive Location
  | global (index : Nat)
  | builtin (index : Nat)
  /-- A slot of the function at a depth. -/
  | slot (depth index : Nat)
  /-- The function at a depth. -/
  | self (depth : Nat)
deriving DecidableEq

/-- The place of what a name stands for. -/
def Origin.place : Origin → Location
  | shared x => if x.storage = .builtin then .builtin x.index else .global x.index
  | slot depth index => .slot depth index
  | self depth => .self depth

/-- What a name stands for at one point of a program. -/
@[ext]
structure Variable where
  name : String
  place : Location
deriving DecidableEq

/-- Whether a function at a depth has to capture the variable in order to read it. -/
def Variable.isFreeAt (depth : Nat) (v : Variable) : Bool :=
  match v.place with
  | .global _ | .builtin _ => false
  | .slot owner _ | .self owner => owner != depth

/-- The variables that a function at a depth captures in order to read variables, in the order of
their first use. -/
def capturedAt (depth : Nat) (reads : List Variable) : List Variable :=
  (reads.filter (Variable.isFreeAt depth)).eraseDups

theorem mem_capturedAt {depth : Nat} {reads : List Variable} {v : Variable} :
    v ∈ capturedAt depth reads ↔ v ∈ reads ∧ v.isFreeAt depth = true := by
  rw [capturedAt, List.mem_eraseDups, List.mem_filter]

theorem nodup_capturedAt (depth : Nat) (reads : List Variable) :
    (capturedAt depth reads).Nodup :=
  nodup_eraseDups _

/-- Reading more captures more. -/
theorem capturedAt_isPrefix (depth : Nat) (reads more : List Variable) :
    capturedAt depth reads <+: capturedAt depth (reads ++ more) := by
  rw [capturedAt, capturedAt, List.filter_append, List.eraseDups_append]
  exact List.prefix_append _ _

/-- What need not be captured, or is captured already, is not captured again. -/
theorem capturedAt_concat_eq {depth : Nat} {reads : List Variable} {v : Variable}
    (h : v.isFreeAt depth = true → v ∈ capturedAt depth reads) :
    capturedAt depth (reads ++ [v]) = capturedAt depth reads := by
  rw [capturedAt, capturedAt, List.filter_append]
  by_cases hfree : v.isFreeAt depth = true
  · have hmem : v ∈ reads.filter (Variable.isFreeAt depth) :=
      List.mem_filter.mpr (mem_capturedAt.mp (h hfree))
    rw [List.filter_cons_of_pos hfree, List.filter_nil, eraseDups_concat, if_pos hmem]
  · rw [List.filter_cons_of_neg hfree, List.filter_nil, List.append_nil]

/-- A variable of another function is captured when it is read for the first time. -/
theorem capturedAt_concat_of_new {depth : Nat} {reads : List Variable} {v : Variable}
    (hfree : v.isFreeAt depth = true) (hnew : v ∉ capturedAt depth reads) :
    capturedAt depth (reads ++ [v]) = capturedAt depth reads ++ [v] := by
  have hmem : v ∉ reads.filter (Variable.isFreeAt depth) := by
    intro hv
    exact hnew (List.mem_eraseDups.mpr hv)
  rw [capturedAt, capturedAt, List.filter_append, List.filter_cons_of_pos hfree, List.filter_nil,
    eraseDups_concat, if_neg hmem]

/-! ## Regions -/

/-- The top level of a program or one function, as far as it has been followed. -/
structure Region where
  /-- The number of functions around it. -/
  depth : Nat
  /-- What the names that are declared in it stand for. -/
  names : String → Option Location
  /-- The number of variables declared in it. -/
  slots : Nat
  /-- The variables that it reads, those included that it hands to closures. -/
  reads : List Variable
  /-- The struct values that it builds. -/
  builds : List Build

namespace Region

def captured (r : Region) : List Variable :=
  capturedAt r.depth r.reads

/-- A name of the region gets a place. -/
def bind (r : Region) (name : String) (place : Location) : Region :=
  { r with names := fun other => if name = other then some place else r.names other }

/-- The place of the next variable. -/
def nextPlace (r : Region) : Location :=
  if r.depth = 0 then .global r.slots else .slot r.depth r.slots

def declare (r : Region) (name : String) : Region :=
  { r.bind name r.nextPlace with slots := r.slots + 1 }

theorem names_bind (r : Region) (name : String) (place : Location) (other : String) :
    (r.bind name place).names other = if name = other then some place else r.names other :=
  rfl

def read (r : Region) (vs : List Variable) : Region :=
  { r with reads := r.reads ++ vs }

def build (r : Region) (b : Build) : Region :=
  { r with builds := r.builds ++ [b] }

theorem exists_foldl_declare (parameters : List String) (r : Region) :
    ∃ names slots, parameters.foldl declare r = { r with names, slots } := by
  induction parameters generalizing r with
  | nil => exact ⟨r.names, r.slots, rfl⟩
  | cons name parameters ih => exact ih (r.declare name)

/-- The region of a function before its parameters are declared. -/
def function (depth : Nat) : Option String → Region
  | some self => bind ⟨depth, fun _ => none, 0, [], []⟩ self (.self depth)
  | none => ⟨depth, fun _ => none, 0, [], []⟩

/-- The top level of a program, where the built-in functions are declared. -/
def main : Region :=
  { depth := 0
    names := fun name => (Declarations.builtins.names.lookup name).map Origin.place
    slots := 0
    reads := []
    builds := [] }

end Region

/-! ## Surveys -/

/-- What has been seen of a program so far. -/
structure Survey where
  current : Region
  /-- The regions around the current one, from the inside out. -/
  enclosing : List Region
  /-- The functions that have ended, in this order. -/
  functions : List Region

namespace Survey

/-- What a name stands for: the last declaration in the innermost region that has one. -/
def place? (σ : Survey) (name : String) : Option Location :=
  (σ.current :: σ.enclosing).findSome? fun r => r.names name

def modify (σ : Survey) (change : Region → Region) : Survey :=
  { σ with current := change σ.current }

def enter (σ : Survey) (self : Option String) (parameters : List String) : Survey :=
  { σ with
    current := parameters.foldl Region.declare (.function (σ.current.depth + 1) self)
    enclosing := σ.current :: σ.enclosing }

/-- A function ends: the one around it hands the captured variables to the closure. -/
def leave (σ : Survey) : Survey :=
  match σ.enclosing with
  | [] => σ
  | outer :: rest =>
      { current := outer.read σ.current.captured
        enclosing := rest
        functions := σ.functions ++ [σ.current] }

def step (σ : Survey) : Event → Survey
  | .use name => σ.modify fun r => r.read ((σ.place? name).map (Variable.mk name)).toList
  | .declare name _ => σ.modify (Region.declare · name)
  | .introduce _ => σ
  | .build b => σ.modify (Region.build · b)
  | .enter self parameters => σ.enter self parameters
  | .leave => σ.leave

def after (σ : Survey) (es : List Event) : Survey :=
  es.foldl step σ

def start : Survey :=
  { current := .main, enclosing := [], functions := [] }

/-- The top level and the functions that have ended. -/
def regions (σ : Survey) : List Region :=
  σ.current :: σ.functions

/-- At its beginning a function has read and built nothing. -/
theorem current_enter (σ : Survey) (self : Option String) (parameters : List String) :
    ∃ names slots, (σ.enter self parameters).current =
      { depth := σ.current.depth + 1, names, slots, reads := [], builds := [] } := by
  obtain ⟨names, slots, hregion⟩ :=
    Region.exists_foldl_declare parameters (.function (σ.current.depth + 1) self)
  refine ⟨names, slots, hregion.trans ?_⟩
  cases self <;> rfl

end Survey

/-- The top level and the functions of a program, in the order in which the functions end, given the
struct types that are known before it.  Of names, only the built-in functions are. -/
def Program.regions (program : Program) (k : KnownTypes) : List Region :=
  (Survey.start.after (program.events k)).regions

end ScriptEngine
