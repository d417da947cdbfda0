import ScriptEngine.Proofs.Language.Events
import ScriptEngine.Proofs.Lists

/-!
# The slots of a program

Every parameter and every declaration gets a slot of its own, in the order of declaration: the slots
of the top level are global ones, those of a function are on the stack of its calls.  A ledger
follows the events of a program and lists the slots of each function, with what they are for.
-/

namespace ScriptEngine

/-- What a slot is for. -/
inductive SlotKind
  | parameter
  /-- A constant or a declared function. -/
  | constant
  | variable
deriving DecidableEq

/-- A slot, with the name that it was given to. -/
structure Slot where
  name : String
  kind : SlotKind
deriving DecidableEq

namespace Slot

/-- The slot of a declaration. -/
def ofDeclaration (name : String) (isMutable : Bool) : Slot :=
  { name, kind := if isMutable then .variable else .constant }

theorem kind_ofDeclaration_eq_variable {name : String} {isMutable : Bool} :
    (ofDeclaration name isMutable).kind = .variable ↔ isMutable = true := by
  cases isMutable <;> simp [ofDeclaration]

theorem kind_ofDeclaration_ne_parameter (name : String) (isMutable : Bool) :
    (ofDeclaration name isMutable).kind ≠ .parameter := by
  cases isMutable <;> simp [ofDeclaration]

end Slot

/-- Whether the slot at an index is that of a variable. -/
def isVariableAt (slots : List Slot) (k : Nat) : Bool :=
  slots[k]?.any fun s => s.kind = .variable

theorem isVariableAt_iff {slots : List Slot} {k : Nat} :
    isVariableAt slots k = true ↔ ∃ s, slots[k]? = some s ∧ s.kind = .variable := by
  simp [isVariableAt, Option.any_eq_true]

theorem isVariableAt_of_isPrefix {slots slots' : List Slot} {k : Nat} (h : slots <+: slots')
    (hk : isVariableAt slots k = true) : isVariableAt slots' k = true := by
  obtain ⟨s, hs, hkind⟩ := isVariableAt_iff.mp hk
  exact isVariableAt_iff.mpr ⟨s, getElem?_of_isPrefix h hs, hkind⟩

/-- What is not the slot of a variable was none before. -/
theorem isVariableAt_eq_false_of_isPrefix {slots slots' : List Slot} {k : Nat}
    (h : slots <+: slots') (hk : isVariableAt slots' k = false) : isVariableAt slots k = false := by
  rw [Bool.eq_false_iff] at hk ⊢
  exact fun hvariable => hk (isVariableAt_of_isPrefix h hvariable)

theorem isVariableAt_eq_false {slots : List Slot} {k : Nat} {s : Slot} (hs : slots[k]? = some s)
    (hkind : s.kind ≠ .variable) : isVariableAt slots k = false := by
  simp [isVariableAt, hs, hkind]

/-- The slots of a program as far as it has been followed. -/
structure Ledger where
  /-- The slots of the function that is being followed, or of the top level. -/
  current : List Slot
  /-- The slots of the functions around it and of the top level, from the inside out. -/
  enclosing : List (List Slot)
  /-- The slots of the functions that have ended, in this order. -/
  functions : List (List Slot)

namespace Ledger

def globals (L : Ledger) : List Slot :=
  L.enclosing.getLastD L.current

/-- A variable, a constant or a function is declared. -/
def declare (L : Ledger) (name : String) (isMutable : Bool) : Ledger :=
  { L with current := L.current ++ [.ofDeclaration name isMutable] }

def enter (L : Ledger) (parameters : List String) : Ledger :=
  { L with
    current := parameters.map fun name => ⟨name, .parameter⟩
    enclosing := L.current :: L.enclosing }

def leave (L : Ledger) : Ledger :=
  { current := L.enclosing.headD []
    enclosing := L.enclosing.tail
    functions := L.functions ++ [L.current] }

def step (L : Ledger) : Event → Ledger
  | .declare name isMutable => L.declare name isMutable
  | .enter _ parameters => L.enter parameters
  | .leave => L.leave
  | .use _ | .introduce _ | .build _ => L

def after (L : Ledger) (es : List Event) : Ledger :=
  es.foldl step L

@[simp] theorem after_nil (L : Ledger) : L.after [] = L :=
  rfl

@[simp] theorem after_cons (L : Ledger) (e : Event) (es : List Event) :
    L.after (e :: es) = (L.step e).after es :=
  rfl

@[simp] theorem after_append (L : Ledger) (es fs : List Event) :
    L.after (es ++ fs) = (L.after es).after fs :=
  List.foldl_append

theorem globals_isPrefix_declare (L : Ledger) (name : String) (isMutable : Bool) :
    L.globals <+: (L.declare name isMutable).globals := by
  rw [globals, globals, declare]
  cases L.enclosing with
  | nil => exact List.prefix_append _ _
  | cons slots tables => simp only [List.getLastD_cons, List.prefix_rfl]

theorem globals_enter (L : Ledger) (parameters : List String) :
    (L.enter parameters).globals = L.globals :=
  List.getLastD_cons

end Ledger

/-- The slots of a program, given the struct types that are known and the global slots that there
are before it. -/
def Program.ledger (program : Program) (k : KnownTypes) (globals : List Slot) : Ledger :=
  Ledger.after ⟨globals, [], []⟩ (program.events k)

end ScriptEngine
