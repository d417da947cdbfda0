/-!
# Static types

The types that declarations carry.  Two types are equal when they are built alike; in particular two
struct types are equal when their names and all their fields agree.  Inference of types is kept with
the compiler.
-/

namespace ScriptEngine

inductive Ty
  | int
  | float
  | string
  | bool
  | null
  | array (element : Ty)
  | hash (key value : Ty)
  /-- A function type; without a result type it returns nothing of note. -/
  | func (parameters : List Ty) (result : Option Ty)
  /-- A declared struct type with its fields in storage order. -/
  | struct (name : String) (fields : List (String × Ty))
deriving Repr

namespace Ty

mutual

/-- Whether two types are built alike. -/
def beq : Ty → Ty → Bool
  | int, int => true
  | float, float => true
  | string, string => true
  | bool, bool => true
  | null, null => true
  | array s, array t => beq s t
  | hash k v, hash k' v' => beq k k' && beq v v'
  | func ps r, func ps' r' => beqList ps ps' && beqOption r r'
  | struct n fs, struct n' fs' => n == n' && beqFields fs fs'
  | _, _ => false

def beqList : List Ty → List Ty → Bool
  | [], [] => true
  | s :: ss, t :: ts => beq s t && beqList ss ts
  | _, _ => false

def beqOption : Option Ty → Option Ty → Bool
  | none, none => true
  | some s, some t => beq s t
  | _, _ => false

/-- Whether two lists of fields agree position by position in name and type. -/
def beqFields : List (String × Ty) → List (String × Ty) → Bool
  | [], [] => true
  | (m, s) :: ss, (n, t) :: ts => m == n && beq s t && beqFields ss ts
  | _, _ => false

end

instance : BEq Ty := ⟨beq⟩

mutual

theorem beq_iff : ∀ s t : Ty, beq s t = true ↔ s = t
  | int, t => by cases t <;> simp [beq]
  | float, t => by cases t <;> simp [beq]
  | string, t => by cases t <;> simp [beq]
  | bool, t => by cases t <;> simp [beq]
  | null, t => by cases t <;> simp [beq]
  | array s, t => by cases t <;> simp [beq, beq_iff s]
  | hash k v, t => by cases t <;> simp [beq, beq_iff k, beq_iff v]
  | func ps r, t => by cases t <;> simp [beq, beqList_iff ps, beqOption_iff r]
  | struct n fs, t => by cases t <;> simp [beq, beqFields_iff fs]

theorem beqList_iff : ∀ ss ts : List Ty, beqList ss ts = true ↔ ss = ts
  | [], ts => by cases ts <;> simp [beqList]
  | s :: ss, ts => by cases ts <;> simp [beqList, beq_iff s, beqList_iff ss]

theorem beqOption_iff : ∀ s t : Option Ty, beqOption s t = true ↔ s = t
  | none, t => by cases t <;> simp [beqOption]
  | some s, t => by cases t <;> simp [beqOption, beq_iff s]

theorem beqFields_iff : ∀ fs gs : List (String × Ty), beqFields fs gs = true ↔ fs = gs
  | [], gs => by cases gs <;> simp [beqFields]
  | (m, s) :: fs, gs => by
      rcases gs with _ | ⟨⟨n, t⟩, gs⟩ <;>
        simp [beqFields, beq_iff s, beqFields_iff fs]

end

instance : DecidableEq Ty := fun s t =>
  decidable_of_iff (beq s t = true) (beq_iff s t)

mutual

def text : Ty → String
  | int => "int"
  | float => "float"
  | string => "string"
  | bool => "bool"
  | null => "null"
  | array element => "[]" ++ element.text
  | hash key value => "map[" ++ key.text ++ "]" ++ value.text
  | func parameters result => "func(" ++ listText parameters ++ ")" ++ resultText result
  | struct name _ => name

/-- The texts of types, separated by commas. -/
def listText : List Ty → String
  | [] => ""
  | [t] => t.text
  | t :: ts => t.text ++ ", " ++ listText ts

/-- The text of a result type after the parameters. -/
def resultText : Option Ty → String
  | none => ""
  | some t => " -> " ++ t.text

end

end Ty

/-- A declared struct type.  The order of the fields is the order of storage. -/
structure StructType where
  name : String
  fields : List (String × Ty)
deriving DecidableEq, Repr

namespace StructType

def toTy (st : StructType) : Ty :=
  .struct st.name st.fields

/-- The position of the first field with a name. -/
def fieldIndex? (st : StructType) (field : String) : Option Nat :=
  st.fields.findIdx? fun f => f.1 == field

end StructType

namespace Ty

/-- The struct type that a type is, if it is one. -/
def struct? : Ty → Option StructType
  | struct name fields => some ⟨name, fields⟩
  | _ => none

@[simp] theorem struct?_toTy (st : StructType) : st.toTy.struct? = some st := rfl

end Ty

end ScriptEngine
