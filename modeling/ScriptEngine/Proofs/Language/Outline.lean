import Mathlib.Data.List.Nodup
import ScriptEngine.Compile.Typing

/-!
# What programs declare

A function scope is the top level of a program or the body of one function, with all blocks,
branches and loops in it but without the functions in it.  The outline of a part of a program lists
what it declares in the function scope around it, and the function scopes that it contains
(`functionScopes`).  The parts of a program that are never compiled do not count: a callee whose
place an overload takes, and further initializers of one field.
-/

namespace ScriptEngine

/-! ## What a program declares -/

/-- The declaration of a variable, a constant or a function. -/
structure Declaration where
  name : String
  /-- The names that its own initializer declares in the same scope. -/
  within : List String
deriving DecidableEq

/-- The parameters and the declarations of one function scope. -/
structure FunctionScope where
  parameters : List String
  declarations : List Declaration
deriving DecidableEq

namespace FunctionScope

/-- All names that are introduced in the scope, as often as they are. -/
def names (s : FunctionScope) : List String :=
  s.parameters ++ s.declarations.map Declaration.name

end FunctionScope

/-- What a part of a program declares: in the function scope around it, and in the functions that it
contains. -/
structure Outline where
  declarations : List Declaration
  functions : List FunctionScope

namespace Outline

def empty : Outline :=
  { declarations := [], functions := [] }

def declare (name : String) (within : List String) : Outline :=
  { declarations := [{ name, within }], functions := [] }

/-- The outline of a function with a given body. -/
def closure (parameters : List (String × Ty)) (body : Outline) : Outline :=
  { declarations := []
    functions :=
      { parameters := parameters.map Prod.fst, declarations := body.declarations } ::
        body.functions }

/-- The outlines of several parts of a program together. -/
def join (os : List Outline) : Outline :=
  { declarations := os.flatMap declarations, functions := os.flatMap functions }

instance : Append Outline :=
  ⟨fun o p => join [o, p]⟩

/-- The names that are declared in the scope around. -/
def names (o : Outline) : List String :=
  o.declarations.map Declaration.name

end Outline

mutual

/-- What an expression declares.  The callee of a call that names its overload is not compiled. -/
def Expr.outline : Expr → Outline
  | .int _ | .float _ | .str _ | .bool _ | .null | .ident _ => .empty
  | .unary _ operand => operand.outline
  | .binary _ left right => left.outline ++ right.outline
  | .cond condition consequence none => condition.outline ++ Stmt.outlines consequence
  | .cond condition consequence (some alternative) =>
      condition.outline ++ (Stmt.outlines consequence ++ Stmt.outlines alternative)
  | .function _ signature body => .closure signature.parameters (Stmt.outlines body)
  | .call callee arguments overload =>
      (if (callee.calleeName? overload).isSome then .empty else callee.outline) ++
        Expr.outlines arguments
  | .array elements => Expr.outlines elements
  | .hash pairs => Expr.pairOutlines pairs
  | .index container position => container.outline ++ position.outline
  | .struct _ initializers => Expr.initializerOutlines [] initializers
  | .select object _ _ => object.outline

def Expr.outlines : List Expr → Outline
  | [] => .empty
  | e :: es => e.outline ++ Expr.outlines es

def Expr.pairOutlines : List (Expr × Expr) → Outline
  | [] => .empty
  | (k, v) :: rest => k.outline ++ (v.outline ++ Expr.pairOutlines rest)

/-- What the initializers of a struct literal declare.  Only the first one of each field is
compiled. -/
def Expr.initializerOutlines (seen : List String) : List (String × Expr) → Outline
  | [] => .empty
  | (name, e) :: rest =>
      if name ∈ seen then
        Expr.initializerOutlines seen rest
      else
        e.outline ++ Expr.initializerOutlines (name :: seen) rest

def Stmt.outline : Stmt → Outline
  | .declare name _ _ none => .declare name []
  | .declare name _ _ (some value) => value.outline ++ .declare name value.outline.names
  | .assign _ value => value.outline
  | .setIndex container position value =>
      container.outline ++ (position.outline ++ value.outline)
  | .setField object _ value _ => object.outline ++ value.outline
  | .ret none => .empty
  | .ret (some value) => value.outline
  | .loop condition body => condition.outline ++ Stmt.outlines body
  | .function header body =>
      .declare header.boundName [] ++ .closure header.signature.parameters (Stmt.outlines body)
  | .structType _ => .empty
  | .block body => Stmt.outlines body
  | .expr value => value.outline

def Stmt.outlines : List Stmt → Outline
  | [] => .empty
  | s :: rest => s.outline ++ Stmt.outlines rest

end

/-- The function scopes of a program: the top level and all its functions, at any depth. -/
def functionScopes (program : Program) : List FunctionScope :=
  { parameters := [], declarations := (Stmt.outlines program).declarations } ::
    (Stmt.outlines program).functions

/-! ## Names that are declared twice -/

namespace Outline

/-- No declaration repeats a name that its own initializer declares. -/
def Clean (o : Outline) : Prop :=
  ∀ d ∈ o.declarations, d.name ∉ d.within

end Outline

namespace FunctionScope

/-- Names are introduced twice only by repeated parameters and by initializers. -/
def Settled (s : FunctionScope) : Prop :=
  s.names.Nodup ↔ s.parameters.Nodup ∧ ∀ d ∈ s.declarations, d.name ∉ d.within

end FunctionScope

namespace Outline

/-- Names are declared twice only by initializers, or in functions by repeated parameters. -/
structure Settled (o : Outline) : Prop where
  nodup : o.names.Nodup ↔ o.Clean
  functions : ∀ s ∈ o.functions, s.Settled

@[simp] theorem names_empty : empty.names = [] := rfl

@[simp] theorem names_declare (name : String) (within : List String) :
    (declare name within).names = [name] := rfl

@[simp] theorem names_closure (parameters : List (String × Ty)) (body : Outline) :
    (closure parameters body).names = [] := rfl

@[simp] theorem names_join (os : List Outline) : (join os).names = os.flatMap names := by
  simp only [names, join, List.map_flatMap]
  rfl

@[simp] theorem names_append (o p : Outline) : (o ++ p).names = o.names ++ p.names := by
  change (join [o, p]).names = _
  simp

theorem declarations_append (o p : Outline) :
    (o ++ p).declarations = o.declarations ++ p.declarations := by
  change [o, p].flatMap declarations = _
  simp

theorem functions_append (o p : Outline) : (o ++ p).functions = o.functions ++ p.functions := by
  change [o, p].flatMap functions = _
  simp

theorem empty_append (o : Outline) : empty ++ o = o := by
  change join [empty, o] = o
  simp [join, empty]

theorem append_empty (o : Outline) : o ++ empty = o := by
  change join [o, empty] = o
  simp [join, empty]

theorem append_join (o : Outline) (os : List Outline) : o ++ join os = join (o :: os) := by
  change join [o, join os] = _
  simp [join]

/-- Outlines without common names. -/
theorem settled_join {os : List Outline} (hos : ∀ o ∈ os, o.Settled)
    (hapart : os.Pairwise fun o p => List.Disjoint o.names p.names) : (join os).Settled := by
  constructor
  · rw [names_join, List.nodup_flatMap]
    constructor
    · rintro ⟨hnodup, -⟩ d hd
      obtain ⟨o, ho, hdo⟩ := List.mem_flatMap.mp hd
      exact (hos o ho).nodup.mp (hnodup o ho) d hdo
    · intro hclean
      refine ⟨fun o ho => (hos o ho).nodup.mpr fun d hd => ?_, hapart⟩
      exact hclean d (List.mem_flatMap.mpr ⟨o, ho, hd⟩)
  · intro s hs
    obtain ⟨o, ho, hso⟩ := List.mem_flatMap.mp hs
    exact (hos o ho).functions s hso

/-- The order of declarations does not matter. -/
theorem Settled.perm {o p : Outline} (ho : o.Settled)
    (hdeclarations : o.declarations.Perm p.declarations)
    (hfunctions : ∀ s ∈ p.functions, s ∈ o.functions) : p.Settled := by
  constructor
  · have hnodup := (hdeclarations.map Declaration.name).nodup_iff
    have hclean : o.Clean ↔ p.Clean := by
      simp only [Clean, hdeclarations.mem_iff]
    rw [names, ← hnodup, ← hclean]
    exact ho.nodup
  · intro s hs
    exact ho.functions s (hfunctions s hs)

/-- A declaration after its initializer. -/
theorem Settled.declare {o : Outline} (ho : o.Settled) (name : String) :
    (o ++ declare name o.names).Settled := by
  constructor
  · have hclean : (o ++ Outline.declare name o.names).Clean ↔ o.Clean ∧ name ∉ o.names := by
      simp only [Clean, declarations_append, List.forall_mem_append]
      simp [Outline.declare]
    rw [hclean, ← ho.nodup, names_append, names_declare, List.nodup_append_comm,
      List.singleton_append, List.nodup_cons, and_comm]
  · simp only [functions_append]
    simpa [Outline.declare] using ho.functions

/-- A function whose body declares none of its parameters. -/
theorem Settled.closure {o : Outline} (ho : o.Settled) {parameters : List (String × Ty)}
    (hfresh : ∀ name ∈ o.names, name ∉ parameters.map Prod.fst) :
    (closure parameters o).Settled := by
  constructor
  · rw [names_closure]
    simp [Clean, Outline.closure]
  · intro s hs
    rcases List.mem_cons.mp hs with rfl | hs
    · have hdisjoint : ∀ a ∈ parameters.map Prod.fst, ∀ b ∈ o.names, a ≠ b := by
        rintro a ha b hb rfl
        exact hfresh a hb ha
      have hnodup := ho.nodup
      rw [FunctionScope.Settled, FunctionScope.names, List.nodup_append]
      constructor
      · rintro ⟨hparameters, hnames, -⟩
        exact ⟨hparameters, hnodup.mp hnames⟩
      · rintro ⟨hparameters, hclean⟩
        exact ⟨hparameters, hnodup.mpr hclean, hdisjoint⟩
    · exact ho.functions s hs

end Outline

/-! ## Blocks -/

namespace Outline

/-- The outline of functions that are bound by name. -/
def ofNames (names : List String) : Outline :=
  { declarations := names.map fun name => { name, within := [] }, functions := [] }

theorem names_ofNames (names : List String) : (ofNames names).names = names := by
  rw [Outline.names, ofNames, List.map_map]
  exact List.map_id _

theorem declare_append_ofNames (name : String) (names : List String) :
    declare name [] ++ ofNames names = ofNames (name :: names) := by
  change join [declare name [], ofNames names] = _
  simp [join, declare, ofNames]

end Outline

namespace Stmt

/-- The name of the function that a statement declares. -/
def functionName? : Stmt → Option String
  | .function header _ => some header.boundName
  | _ => none

/-- What a statement declares when its turn comes.  The name of a function is declared before, at
the beginning of the block. -/
def later : Stmt → Outline
  | .function header body => .closure header.signature.parameters (Stmt.outlines body)
  | s => s.outline

theorem later_eq {s : Stmt} (h : s.functionName? = none) : s.later = s.outline := by
  cases s with
  | function header body => cases h
  | _ => rfl

theorem functions_outlines (ss : List Stmt) :
    (outlines ss).functions = (Outline.join (ss.map later)).functions := by
  induction ss with
  | nil => rfl
  | cons s ss ih =>
      have hs : s.outline.functions = s.later.functions := by
        cases s with
        | function header body =>
            change (Outline.declare _ _ ++ Outline.closure _ _).functions = _
            rw [Outline.functions_append]
            rfl
        | _ => rfl
      rw [outlines, Outline.functions_append, ih, hs]
      simp [Outline.join]

/-- Statements declare the functions among them and what each of them declares when its turn
comes. -/
theorem declarations_outlines (ss : List Stmt) :
    (Outline.ofNames (ss.filterMap functionName?) ++ Outline.join (ss.map later)).declarations.Perm
      (outlines ss).declarations := by
  induction ss with
  | nil => exact .refl _
  | cons s ss ih =>
      rw [Outline.declarations_append] at ih ⊢
      rw [outlines, Outline.declarations_append]
      cases hname : s.functionName? with
      | none =>
          rw [List.filterMap_cons_none hname, ← later_eq hname]
          have hjoin : (Outline.join ((s :: ss).map later)).declarations =
              s.later.declarations ++ (Outline.join (ss.map later)).declarations := by
            simp [Outline.join]
          rw [hjoin]
          exact (List.perm_append_comm_assoc _ _ _).trans (ih.append_left _)
      | some name =>
          rw [List.filterMap_cons_some hname]
          cases s with
          | function header body =>
              obtain rfl := Option.some.inj hname
              have hjoin :
                  (Outline.join ((Stmt.function header body :: ss).map later)).declarations =
                  (Outline.join (ss.map later)).declarations := by
                simp [Outline.join, later, Outline.closure]
              rw [hjoin]
              exact ih.cons _
          | _ => cases hname

end Stmt

/-! ## Struct literals -/

namespace Expr

/-- What the initializer of a field declares. -/
def fieldOutline (field : String) : List (String × Expr) → Outline
  | [] => .empty
  | (name, e) :: rest => if name = field then e.outline else fieldOutline field rest

/-- The initializers that are the first ones of their fields. -/
def firsts (seen : List String) : List (String × Expr) → List (String × Expr)
  | [] => []
  | (name, e) :: rest =>
      if name ∈ seen then firsts seen rest else (name, e) :: firsts (name :: seen) rest

theorem initializerOutlines_eq (seen : List String) (initializers : List (String × Expr)) :
    initializerOutlines seen initializers =
      .join ((firsts seen initializers).map fun i => i.2.outline) := by
  induction initializers generalizing seen with
  | nil => rfl
  | cons i rest ih =>
      obtain ⟨name, e⟩ := i
      rw [initializerOutlines, firsts]
      by_cases hseen : name ∈ seen
      · rw [if_pos hseen, if_pos hseen, ih]
      · rw [if_neg hseen, if_neg hseen, ih]
        change Outline.join [_, _] = _
        simp [Outline.join]

theorem not_mem_of_mem_firsts {seen : List String} {initializers : List (String × Expr)}
    {i : String × Expr} (hi : i ∈ firsts seen initializers) : i.1 ∉ seen := by
  induction initializers generalizing seen with
  | nil => cases hi
  | cons j rest ih =>
      obtain ⟨name, e⟩ := j
      rw [firsts] at hi
      by_cases hseen : name ∈ seen
      · rw [if_pos hseen] at hi
        exact ih hi
      · rw [if_neg hseen] at hi
        rcases List.mem_cons.mp hi with rfl | hi
        · exact hseen
        · exact fun h => ih hi (List.mem_cons_of_mem _ h)

theorem mem_of_mem_firsts {seen : List String} {initializers : List (String × Expr)}
    {i : String × Expr} (hi : i ∈ firsts seen initializers) : i ∈ initializers := by
  induction initializers generalizing seen with
  | nil => cases hi
  | cons j rest ih =>
      obtain ⟨name, e⟩ := j
      rw [firsts] at hi
      by_cases hseen : name ∈ seen
      · rw [if_pos hseen] at hi
        exact List.mem_cons_of_mem _ (ih hi)
      · rw [if_neg hseen] at hi
        rcases List.mem_cons.mp hi with rfl | hi
        · exact List.mem_cons_self
        · exact List.mem_cons_of_mem _ (ih hi)

theorem fieldOutline_of_mem_firsts {seen : List String} {initializers : List (String × Expr)}
    {i : String × Expr} (hi : i ∈ firsts seen initializers) :
    fieldOutline i.1 initializers = i.2.outline := by
  induction initializers generalizing seen with
  | nil => cases hi
  | cons j rest ih =>
      obtain ⟨name, e⟩ := j
      rw [firsts] at hi
      rw [fieldOutline]
      by_cases hseen : name ∈ seen
      · rw [if_pos hseen] at hi
        have hother : name ≠ i.1 := by
          rintro rfl
          exact not_mem_of_mem_firsts hi hseen
        rw [if_neg hother]
        exact ih hi
      · rw [if_neg hseen] at hi
        rcases List.mem_cons.mp hi with rfl | hi
        · exact if_pos rfl
        · have hother : name ≠ i.1 := by
            rintro rfl
            exact not_mem_of_mem_firsts hi List.mem_cons_self
          rw [if_neg hother]
          exact ih hi

theorem exists_mem_firsts {seen : List String} {initializers : List (String × Expr)}
    {field : String} {name : String} (hseen : field ∉ seen)
    (hname : name ∈ (fieldOutline field initializers).names) :
    ∃ i ∈ firsts seen initializers, name ∈ i.2.outline.names := by
  induction initializers generalizing seen with
  | nil => cases hname
  | cons j rest ih =>
      obtain ⟨other, e⟩ := j
      rw [fieldOutline] at hname
      rw [firsts]
      by_cases hfield : other = field
      · rw [if_pos hfield] at hname
        rw [if_neg (hfield ▸ hseen)]
        exact ⟨_, List.mem_cons_self, hname⟩
      · rw [if_neg hfield] at hname
        by_cases hother : other ∈ seen
        · rw [if_pos hother]
          exact ih hseen hname
        · rw [if_neg hother]
          obtain ⟨i, hi, hmem⟩ :=
            ih (List.not_mem_cons_of_ne_of_not_mem (Ne.symm hfield) hseen) hname
          exact ⟨i, List.mem_cons_of_mem _ hi, hmem⟩

theorem pairwise_firsts (seen : List String) (initializers : List (String × Expr)) :
    (firsts seen initializers).Pairwise fun i j => i.1 ≠ j.1 := by
  induction initializers generalizing seen with
  | nil => exact .nil
  | cons i rest ih =>
      obtain ⟨name, e⟩ := i
      rw [firsts]
      by_cases hseen : name ∈ seen
      · rw [if_pos hseen]
        exact ih seen
      · rw [if_neg hseen]
        refine List.pairwise_cons.mpr ⟨fun j hj hname => ?_, ih _⟩
        exact not_mem_of_mem_firsts hj (hname ▸ List.mem_cons_self)

end Expr

end ScriptEngine
