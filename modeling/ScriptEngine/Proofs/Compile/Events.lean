import ScriptEngine.Proofs.Compile.Balance
import ScriptEngine.Proofs.Compile.Declarations
import ScriptEngine.Proofs.Compile.Resumption
import ScriptEngine.Proofs.Compile.Streams
import ScriptEngine.Proofs.Language.Events

/-!
# Code as a rendering of events

Of compiled code, the instructions that load variables, make closures and build struct values render
the events of the program, in the same order (`Renders`).  All other instructions may stand between
them.  There is one rule for each event, so what is shown of names, functions and struct types by
induction on these rules need not go through the forms of phrases again (`Compiles.renders`).
-/

namespace ScriptEngine

namespace Opcode

/-- Whether the opcode puts the value of a variable on the stack. -/
def isLoad : Opcode → Bool
  | getGlobal | getConstGlobal | getLocal | getConstLocal | getFree | getBuiltin | currentClosure =>
      true
  | _ => false

/-- Whether the opcode renders an event. -/
def isEventful : Opcode → Bool
  | closure | struct => true
  | op => op.isLoad

end Opcode

theorem Symbol.isLoad_load (x : Symbol) : x.load.opcode.isLoad = true := by
  cases hstorage : x.storage <;> cases hmutable : x.isMutable <;>
    simp [load, CompileM.loadOf, hstorage, hmutable, Opcode.isLoad]

theorem Symbol.load_opcode_ne (x : Symbol) {op : Opcode} (hop : op.isLoad = false) :
    x.load.opcode ≠ op := by
  rintro rfl
  rw [x.isLoad_load] at hop
  cases hop

theorem Symbol.store?_plain {x : Symbol} {i : Instruction} (h : x.store? = some i) :
    i.opcode.isEventful = false := by
  cases hstorage : x.storage <;> cases hmutable : x.isMutable <;>
    simp only [store?, hstorage, hmutable, Option.some.injEq, reduceCtorEq] at h <;>
    subst h <;> rfl

theorem Opcode.isEventful_of_isLoad {op : Opcode} (h : op.isLoad = true) :
    op.isEventful = true := by
  unfold isEventful
  split <;> first | rfl | exact h

theorem Opcode.not_isEventful {op : Opcode} (h : op.isEventful = false) :
    op.isLoad = false ∧ op ≠ .closure ∧ op ≠ .struct := by
  cases op <;> simp_all [isEventful, isLoad]

theorem Assembly.instrs_ofList (is : List Instruction) (o : Nat) : (ofList is).instrs o = is := by
  induction is generalizing o with
  | nil => rfl
  | cons i is ih => rw [ofList, instrs, ih]

namespace Env

/-- The struct type that is known by the name of a given one, or else the given one. -/
def knownAs (E : Env) (type : StructType) : StructType :=
  ((E.structs.get? type.name).map KnownStruct.type).getD type

/-- After a function is closed and kept as a constant. -/
def close (E : Env) (chain : ScopeChain) (f : Function) : Env :=
  { E with chain }.keep (.function ⟨E.pool.size, f⟩)

end Env

/-- The instructions render the events, and what the compiler knows changes from the first
environment to the second. -/
inductive Renders : Env → List Event → List Instruction → Env → Prop
  | nil {E} : Renders E [] [] E
  /-- An instruction that renders no event. -/
  | skip {E E' es is} (i : Instruction) (plain : i.opcode.isEventful = false)
      (rest : Renders E es is E') : Renders E es (i :: is) E'
  /-- A constant that is not a function. -/
  | keep {E E' es is} (v : Value) (noFunction : ∀ f, v ≠ .function f)
      (rest : Renders (E.keep v) es is E') : Renders E es is E'
  /-- Which functions are still to be declared. -/
  | await {E E' es is} (hoisted : Std.TreeSet String)
      (rest : Renders { E with hoisted } es is E') : Renders E es is E'
  | use {E E₁ E' es is name x} (resolved : E.resolve? name = some (x, E₁))
      (rest : Renders E₁ es is E') : Renders E (.use name :: es) (x.load :: is) E'
  | declare {E E' es is name} (isMutable : Bool) (ty : Option Ty)
      (rest : Renders (E.define name isMutable ty).2 es is E') :
      Renders E (.declare name isMutable :: es) is E'
  | introduce {E E' es is} (type : StructType) (rest : Renders (E.register type) es is E') :
      Renders E (.introduce type :: es) is E'
  | build {E E' es is} (type : StructType) (rest : Renders (E.structConstant type).2 es is E') :
      Renders E (.build ⟨type, E.knownAs type⟩ :: es)
        (⟨.struct, [(E.structConstant type).1, type.fields.length]⟩ :: is) E'
  | function {E E₁ E' es is inner js name signature code scope chain}
      (body : Renders (E.enter name signature) inner js E₁) (isBody : code.IsBody)
      (written : Code.Adds .empty js code) (left : E₁.chain.pop? = some (scope, chain))
      (rest : Renders
        (E₁.close chain
          { code
            locals := scope.definitions
            parameters := signature.parameters.length
            name }) es is E') :
      Renders E (.enter name (signature.parameters.map Prod.fst) :: (inner ++ .leave :: es))
        (scope.captures.map Symbol.load ++
          ⟨.closure, [E₁.pool.size, scope.captures.length]⟩ :: is) E'

namespace Renders

variable {E E₁ E' : Env} {es fs : List Event} {is js : List Instruction}

theorem append (h : Renders E es is E₁) (h' : Renders E₁ fs js E') :
    Renders E (es ++ fs) (is ++ js) E' := by
  induction h with
  | nil => exact h'
  | skip i plain _ ih => exact skip i plain (ih h')
  | keep v noFunction _ ih => exact keep v noFunction (ih h')
  | await hoisted _ ih => exact await hoisted (ih h')
  | use resolved _ ih => exact use resolved (ih h')
  | declare isMutable ty _ ih => exact declare isMutable ty (ih h')
  | introduce type _ ih => exact introduce type (ih h')
  | build type _ ih => exact build type (ih h')
  | function body isBody written left _ _ ih =>
      have hfunction := function body isBody written left (ih h')
      simpa only [List.cons_append, List.append_assoc] using hfunction

theorem single {i : Instruction} (plain : i.opcode.isEventful = false) : Renders E [] [i] E :=
  skip i plain nil

theorem silent (plain : ∀ i ∈ is, i.opcode.isEventful = false) : Renders E [] is E := by
  induction is with
  | nil => exact nil
  | cons i is ih =>
      rw [List.forall_mem_cons] at plain
      exact skip i plain.1 (ih plain.2)

/-- Further instructions that render no event. -/
theorem extend (h : Renders E es is E') (plain : ∀ i ∈ js, i.opcode.isEventful = false) :
    Renders E es (is ++ js) E' := by
  have happend := h.append (silent plain)
  rwa [List.append_nil] at happend

theorem concat {i : Instruction} (h : Renders E es is E') (plain : i.opcode.isEventful = false) :
    Renders E es (is ++ [i]) E' :=
  h.extend (List.forall_mem_singleton.mpr plain)

/-- A last instruction that renders no event can be left out. -/
theorem dropLast {i : Instruction} (h : Renders E es (is ++ [i]) E')
    (plain : i.opcode.isEventful = false) : Renders E es is E' := by
  generalize hall : is ++ [i] = all at h
  induction h generalizing is with
  | nil => simp at hall
  | skip j _ rest ih =>
      cases is with
      | nil =>
          obtain ⟨rfl, rfl⟩ := List.cons.inj hall
          exact rest
      | cons j' is =>
          obtain ⟨rfl, htail⟩ := List.cons.inj hall
          exact skip j' ‹_› (ih htail)
  | keep v noFunction _ ih => exact keep v noFunction (ih hall)
  | await hoisted _ ih => exact await hoisted (ih hall)
  | @use _ _ _ _ _ _ x resolved _ ih =>
      cases is with
      | nil =>
          obtain ⟨rfl, -⟩ := List.cons.inj hall
          rw [Opcode.isEventful_of_isLoad x.isLoad_load] at plain
          cases plain
      | cons j' is =>
          obtain ⟨rfl, htail⟩ := List.cons.inj hall
          exact use resolved (ih htail)
  | declare isMutable ty _ ih => exact declare isMutable ty (ih hall)
  | introduce type _ ih => exact introduce type (ih hall)
  | build type _ ih =>
      cases is with
      | nil =>
          obtain ⟨rfl, -⟩ := List.cons.inj hall
          cases plain
      | cons j' is =>
          obtain ⟨rfl, htail⟩ := List.cons.inj hall
          exact build type (ih htail)
  | @function _ _ _ _ rest _ _ _ _ _ _ _ body isBody written left _ _ ih =>
      rcases List.eq_nil_or_concat' rest with rfl | ⟨rest, j, rfl⟩
      · obtain ⟨-, hlast⟩ := List.append_inj' hall rfl
        obtain rfl := List.singleton_inj.mp hlast
        cases plain
      · rw [← List.cons_append, ← List.append_assoc] at hall
        obtain ⟨rfl, hlast⟩ := List.append_inj' hall rfl
        obtain rfl := List.singleton_inj.mp hlast
        exact function body isBody written left (ih rfl)

end Renders

/-! ## Known struct types -/

namespace Env

/-- The struct types that are known by name. -/
def Types (E : Env) (k : KnownTypes) : Prop :=
  ∀ name, k name = (E.structs.get? name).map KnownStruct.type

namespace Types

variable {E : Env} {k : KnownTypes}

theorem knownAs_eq (hk : E.Types k) (type : StructType) : k.knownAs type = E.knownAs type := by
  rw [KnownTypes.knownAs, hk type.name]
  rfl

theorem register (hk : E.Types k) (type : StructType) :
    (E.register type).Types (k.learn type.name type) := by
  intro other
  simp only [Env.register, KnownTypes.learn, Std.TreeMap.get?_eq_getElem?,
    Std.TreeMap.getElem?_insert, Std.LawfulEqCmp.compare_eq_iff_eq]
  by_cases hname : other = type.name
  · rw [if_pos hname, if_pos hname.symm]
    rfl
  · rw [if_neg hname, if_neg (Ne.symm hname)]
    exact hk other

theorem structConstant (hk : E.Types k) (type : StructType) :
    (E.structConstant type).2.Types (k.learn type.name (E.knownAs type)) := by
  cases hknown : E.structs.get? type.name with
  | some known =>
      intro other
      rw [Env.structConstant, hknown, KnownTypes.learn]
      by_cases hother : other = type.name
      · rw [if_pos hother, hother, knownAs, hknown]
        rfl
      · rw [if_neg hother]
        exact hk other
  | none =>
      have hself : E.knownAs type = type := by
        rw [knownAs, hknown]
        rfl
      rw [Env.structConstant, hknown, hself]
      exact hk.register type

end Types

theorem functionsFrom_structConstant (E : Env) {start : Nat} (h : start ≤ E.pool.size)
    (type : StructType) :
    functionsFrom start (E.structConstant type).2.pool = functionsFrom start E.pool := by
  rw [structConstant]
  split
  · rfl
  · exact functionsFrom_push_of_none h rfl

theorem same_withParameters (E : Env) (parameters : List (String × Ty)) :
    (E.withParameters parameters).structs = E.structs ∧
      (E.withParameters parameters).pool = E.pool := by
  induction parameters generalizing E with
  | nil => exact ⟨rfl, rfl⟩
  | cons p parameters ih => exact ih _

/-- Entering a function changes the scopes only. -/
theorem same_enter (E : Env) (name : Option String) (signature : Signature) :
    (E.enter name signature).structs = E.structs ∧ (E.enter name signature).pool = E.pool := by
  cases name <;> exact same_withParameters _ _

end Env

/-- The struct types that are known after events. -/
theorem Renders.types {E E' : Env} {es : List Event} {is : List Instruction} {k : KnownTypes}
    (h : Renders E es is E') (hk : E.Types k) : E'.Types (k.afterAll es) := by
  induction h generalizing k with
  | nil => exact hk
  | skip _ _ _ ih | keep _ _ _ ih | await _ _ ih | declare _ _ _ ih => exact ih hk
  | use resolved _ ih =>
      simp only [Env.resolve?, Option.map_eq_some_iff, Prod.mk.injEq] at resolved
      obtain ⟨⟨r, chain⟩, -, -, rfl⟩ := resolved
      exact ih hk
  | introduce type _ ih => exact ih (hk.register type)
  | build type _ ih => exact ih (hk.structConstant type)
  | @function E _ _ _ _ _ _ name signature _ _ _ _ _ _ _ _ ihbody ih =>
      have henter : (E.enter name signature).Types k := by
        intro other
        rw [(E.same_enter name signature).1]
        exact hk other
      rw [KnownTypes.afterAll, List.foldl_cons, List.foldl_append]
      exact ih (ihbody henter)

/-! ## Phrases -/

def Phrase.walk : Phrase → Walk
  | .expr bound e => e.walk bound
  | .use name => .one (.use name)
  | .exprs es => Expr.walks es
  | .pairs ps => Expr.pairWalks ps
  | .fields fs initializers => .all (fs.map fun f => Expr.fieldWalk f initializers)
  | .field f initializers => Expr.fieldWalk f initializers
  | .zero ty => ty.zeroWalk
  | .zeros fs => Ty.zeroWalks fs
  | .branch body | .block body | .otherwise (some body) => Stmt.blockWalk body
  | .otherwise none => .nothing
  | .closure name signature body => .function name signature (Stmt.blockWalk body)
  | .stmt s => s.walk
  | .stmts ss => Stmt.walks ss

/-- What is found without capturing leaves the scopes as they are. -/
theorem ScopeChain.resolveFrom?_eq_self {name : String} {s s' : Scope} {outer outer' : List Scope}
    {r : Resolution} (h : resolveFrom? name s outer = some (r, s', outer'))
    (hstorage : r.symbol.storage ≠ .captured) : s' = s ∧ outer' = outer := by
  induction outer generalizing s s' outer' r with
  | nil =>
      simp only [resolveFrom?, Option.map_eq_some_iff, Prod.mk.injEq] at h
      obtain ⟨x, -, -, rfl, rfl⟩ := h
      exact ⟨rfl, rfl⟩
  | cons s₁ outer ih =>
      rw [resolveFrom?] at h
      split at h
      · simp only [Option.some.injEq, Prod.mk.injEq] at h
        obtain ⟨-, rfl, rfl⟩ := h
        exact ⟨rfl, rfl⟩
      · split at h
        · cases h
        · rename_i found s₂ outer₂ hfound
          split at h
          · simp only [Option.some.injEq, Prod.mk.injEq] at h
            obtain ⟨rfl, rfl, rfl⟩ := h
            obtain ⟨rfl, rfl⟩ := ih hfound hstorage
            exact ⟨rfl, rfl⟩
          · simp only [Option.some.injEq, Prod.mk.injEq] at h
            obtain ⟨rfl, -, -⟩ := h
            exact absurd rfl hstorage

/-- A variable that may be assigned to is not captured. -/
theorem Env.resolve?_eq_self {E E' : Env} {name : String} {x : Symbol}
    (h : E.resolve? name = some (x, E')) (hx : x.isAssignable = true) : E' = E := by
  simp only [Env.resolve?, Option.map_eq_some_iff, Prod.mk.injEq] at h
  obtain ⟨⟨r, chain⟩, hfound, rfl, rfl⟩ := h
  have hstorage : r.symbol.storage ≠ .captured := by
    intro hcaptured
    simp [Symbol.isAssignable, hcaptured, Storage.isDeclared] at hx
  obtain ⟨hcurrent, henclosing⟩ :=
    ScopeChain.resolveFrom?_eq_self (ScopeChain.resolve?_eq_some hfound) hstorage
  obtain ⟨current, enclosing⟩ := chain
  simp only at hcurrent henclosing
  rw [hcurrent, henclosing]

/-- Binding the functions of a block. -/
theorem Renders.hoist? {E E' : Env} {ss : List Stmt} (h : E.hoist? ss = some E') :
    Renders E ((ss.filterMap Stmt.functionName?).map (.declare · false)) [] E' := by
  induction ss generalizing E with
  | nil =>
      obtain rfl := Option.some.inj h
      exact .nil
  | cons s ss ih =>
      cases s with
      | function header body =>
          rw [Env.hoist?] at h
          split at h
          · cases h
          · exact .declare false (some header.signature.ty) (.await _ (ih h))
      | _ => exact ih h

/-- What the compiler knows fits, and the struct types are those given. -/
structure Env.Attends (E : Env) (k : KnownTypes) : Prop where
  sound : E.Sound
  named : E.chain.Named
  types : E.Types k

namespace Env.Attends

variable {E E' : Env} {k : KnownTypes}

theorem enter (hE : E.Attends k) (name : Option String) (signature : Signature) :
    (E.enter name signature).Attends k := by
  refine ⟨hE.sound.enter name signature, (E.declared_enter hE.named name signature).2.2, ?_⟩
  intro other
  rw [(E.same_enter name signature).1]
  exact hE.types other

theorem hoist? {ss : List Stmt} (hE : E.Attends k) (h : E.hoist? ss = some E') :
    E'.Attends k := by
  refine ⟨hE.sound.hoist? h, (Introduces.hoist? hE.named h).named, ?_⟩
  have htypes := (Renders.hoist? h).types hE.types
  have hsame : k.afterAll ((ss.filterMap Stmt.functionName?).map (.declare · false)) = k := by
    induction ss.filterMap Stmt.functionName? with
    | nil => rfl
    | cons name names ih => exact ih
  rwa [hsame] at htypes

/-- After a phrase. -/
theorem next {p : Phrase} {t : Assembly} {is : List Instruction} (hE : E.Attends k)
    (h : Compiles E p t E') (hp : p.Bound E) (hr : Renders E (p.walk k) is E') :
    E'.Attends (k.afterAll (p.walk k)) :=
  ⟨h.sound hE.sound, (h.introduces hE.named hp).named, hr.types hE.types⟩

end Env.Attends

namespace Renders

variable {E E₁ E₂ E' : Env} {k : KnownTypes} {is js : List Instruction}

theorem leavesValue {t u : Assembly} {es : List Event} {o : Nat}
    (h : Renders E es (t.instrs o) E') (hu : t.LeavesValue u) : Renders E es (u.instrs o) E' := by
  cases hu with
  | value =>
      rw [Assembly.instrs_append, Assembly.instrs_single] at h
      exact h.dropLast rfl
  | null =>
      rw [Assembly.instrs_append, Assembly.instrs_single]
      exact h.concat rfl

theorem returns {t u : Assembly} {es : List Event} {o : Nat}
    (h : Renders E es (t.instrs o) E') (hu : t.Returns u) : Renders E es (u.instrs o) E' := by
  cases hu with
  | value =>
      rw [Assembly.instrs_append, Assembly.instrs_single] at h ⊢
      exact (h.dropLast rfl).concat rfl
  | already => exact h
  | null =>
      rw [Assembly.instrs_append, Assembly.instrs_single]
      exact h.concat rfl

end Renders

/-- The code of a phrase renders its events. -/
theorem Compiles.renders {E E' : Env} {p : Phrase} {t : Assembly} (h : Compiles E p t E')
    {k : KnownTypes} (hE : E.Attends k) (hp : p.Bound E) (o : Nat) :
    Renders E (p.walk k) (t.instrs o) E' := by
  induction h generalizing k o with
  | int | float | str | zeroInt | zeroFloat | zeroString =>
      exact .keep _ (by simp) (.single rfl)
  | boolTrue | boolFalse | null | nothing | zeroBool | zeroNull | zeroFunc | zeroArray | zeroHash
  | retNull => exact .single rfl
  | exprsNil | pairsNil | fieldsNil | zerosNil | stmtsNil => exact .nil
  | use resolved _ => exact .use resolved .nil
  | structType type => exact .introduce type .nil
  | ident _ ih | otherwise _ ih | function _ ih | fieldZero _ ih | inner _ ih =>
      exact ih hE trivial o
  | unary _ ih =>
      rw [Assembly.instrs_append]
      exact (ih hE trivial o).concat (by cases ‹PrefixOp› <;> rfl)
  | binary inOrder left right ih₁ ih₂ =>
      have h₁ := ih₁ hE trivial o
      have h₂ := ih₂ (hE.next left trivial h₁) trivial
      rw [Assembly.instrs_append, Assembly.instrs_append]
      simp only [Phrase.walk, Expr.walk, inOrder]
      exact h₁.append ((h₂ _).concat (by cases ‹InfixOp› <;> rfl))
  | swapped reversed right left ih₁ ih₂ =>
      have h₁ := ih₁ hE trivial o
      have h₂ := ih₂ (hE.next right trivial h₁) trivial
      rw [Assembly.instrs_append, Assembly.instrs_append]
      simp only [Phrase.walk, Expr.walk, reversed]
      exact h₁.append ((h₂ _).concat (by cases ‹InfixOp› <;> rfl))
  | @cond _ _ _ _ _ _ _ no _ _ _ condition consequence alternative ih₁ ih₂ ih₃ =>
      have h₁ := ih₁ hE trivial o
      have hE₂ := hE.next condition trivial h₁
      have h₂ := ih₂ hE₂ trivial
      have h₃ := ih₃ (hE₂.next consequence trivial (h₂ o)) trivial
      simp only [Assembly.instrs, List.append_nil]
      cases no with
      | none => exact h₁.append (.skip _ rfl ((h₂ _).append (.skip _ rfl (h₃ _))))
      | some body => exact h₁.append (.skip _ rfl ((h₂ _).append (.skip _ rfl (h₃ _))))
  | branch _ value ih => exact (ih hE trivial o).leavesValue value
  | callNamed named function values ih₁ ih₂ =>
      have h₁ := ih₁ hE trivial o
      have h₂ := ih₂ (hE.next function trivial h₁) trivial
      rw [Assembly.instrs_append, Assembly.instrs_append]
      simp only [Phrase.walk, Expr.walk, named]
      exact h₁.append ((h₂ _).concat rfl)
  | callValue unnamed function values ih₁ ih₂ =>
      have h₁ := ih₁ hE trivial o
      have h₂ := ih₂ (hE.next function trivial h₁) trivial
      rw [Assembly.instrs_append, Assembly.instrs_append]
      simp only [Phrase.walk, Expr.walk, unnamed]
      exact h₁.append ((h₂ _).concat rfl)
  | array _ ih | hash _ ih | select _ _ ih | expr _ ih | ret _ _ ih =>
      rw [Assembly.instrs_append]
      exact (ih hE trivial o).concat rfl
  | index first second ih₁ ih₂ | setField _ first second ih₁ ih₂ =>
      have h₁ := ih₁ hE trivial o
      have h₂ := ih₂ (hE.next first trivial h₁) trivial
      rw [Assembly.instrs_append, Assembly.instrs_append]
      exact h₁.append ((h₂ _).concat rfl)
  | exprsCons head tail ih₁ ih₂ | fieldsCons head tail ih₁ ih₂ | zerosCons head tail ih₁ ih₂ =>
      have h₁ := ih₁ hE trivial o
      have h₂ := ih₂ (hE.next head trivial h₁) trivial
      rw [Assembly.instrs_append]
      exact h₁.append (h₂ _)
  | pairsCons key value tail ih₁ ih₂ ih₃ =>
      have h₁ := ih₁ hE trivial o
      have hE₂ := hE.next key trivial h₁
      have h₂ := ih₂ hE₂ trivial
      have h₃ := ih₃ (hE₂.next value trivial (h₂ o)) trivial
      rw [Assembly.instrs_append, Assembly.instrs_append]
      exact h₁.append ((h₂ _).append (h₃ _))
  | setIndex first second third ih₁ ih₂ ih₃ =>
      have h₁ := ih₁ hE trivial o
      have hE₂ := hE.next first trivial h₁
      have h₂ := ih₂ hE₂ trivial
      have h₃ := ih₃ (hE₂.next second trivial (h₂ o)) trivial
      rw [Assembly.instrs_append, Assembly.instrs_append, Assembly.instrs_append]
      exact h₁.append ((h₂ _).append ((h₃ _).concat rfl))
  | @struct E₁ E₂ _ typeName initializers st _ known _ values ih =>
      have h₁ := ih hE trivial o
      have htypes := (hE.next values trivial h₁).types
      have hknown : k typeName = some st := (hE.types typeName).trans known
      have hbuild : Renders E₂ _ _ _ := .build st .nil
      rw [← htypes.knownAs_eq] at hbuild
      rw [Assembly.instrs_append]
      simp only [Phrase.walk, Expr.walk, Walk.struct, hknown]
      exact h₁.append hbuild
  | fieldGiven _ ih =>
      simp only [Phrase.walk, Expr.fieldWalk, if_true]
      exact ih hE trivial o
  | fieldLater other _ ih =>
      simp only [Phrase.walk, Expr.fieldWalk, if_neg other]
      exact ih hE trivial o
  | @zeroStruct E₁ E₂ name fields _ values ih =>
      have h₁ := ih hE trivial o
      have htypes := (hE.next values trivial h₁).types
      have hbuild : Renders E₂ _ _ _ := .build ⟨name, fields⟩ .nil
      rw [← htypes.knownAs_eq] at hbuild
      rw [Assembly.instrs_append]
      exact h₁.append hbuild
  | @closure E₁ E₂ name signature body t u scope chain code statements returns written left _ ih =>
      have hE₁ := hE.enter name signature
      have hbody := (ih hE₁ trivial 0).returns returns
      have hdepth : E₂.chain.depth ≠ 0 := by
        intro hzero
        rw [ScopeChain.pop?, List.length_eq_zero_iff.mp hzero] at left
        cases left
      have hlocal : E₂.chain.current.isGlobal = false := by
        simpa [Env.room] using (statements.sound hE₁.sound).room_inFunction hdepth
      obtain ⟨v, last, height, rfl, hbalanced, hlast⟩ :=
        (statements.balanced hE₁.sound 0).returns returns hlocal
      have hisBody : code.IsBody := by
        refine ⟨_, v, last, height, written.contains, ?_, hbalanced, hlast⟩
        rw [written.size, Assembly.totalWidth_instrs]
        exact Nat.zero_add _
      rw [Assembly.instrs_append, Assembly.instrs_ofList]
      exact .function hbody hisBody written left (.await E₁.hoisted .nil)
  | declare _ _ store ih | declareZero _ _ store ih =>
      rw [Assembly.instrs_append]
      exact (ih hE trivial o).append (.declare _ _ (.single (Symbol.store?_plain store)))
  | assign resolved assignable _ store ih =>
      obtain rfl := Env.resolve?_eq_self resolved assignable
      rw [Assembly.instrs_append]
      exact (ih hE trivial o).concat (Symbol.store?_plain store)
  | loop _ condition again ih₁ ih₂ =>
      have h₁ := ih₁ hE trivial o
      have h₂ := ih₂ (hE.next condition trivial h₁) trivial
      have hsilent : ∀ i ∈ [⟨.jump, [o]⟩, ⟨.pushNull, []⟩, (⟨.pop, []⟩ : Instruction)],
          i.opcode.isEventful = false := by simp [Opcode.isEventful, Opcode.isLoad]
      exact h₁.append (.skip _ rfl ((h₂ _).extend hsilent))
  | declareFunction bound _ store ih =>
      obtain ⟨-, -, rfl⟩ := Env.declared?_eq (hp _ rfl) bound
      have hE₂ := (hE.sound.declared? bound).1
      rw [Assembly.instrs_append]
      exact .await _ ((ih ⟨hE₂, hE.named, hE.types⟩ trivial o).concat (Symbol.store?_plain store))
  | stmtsCons head _ ih₁ ih₂ =>
      have h₁ := ih₁ hE hp.head o
      have hrest := hp.tail (head.introduces hE.named hp.head)
      have h₂ := ih₂ (hE.next head hp.head h₁) hrest
      rw [Assembly.instrs_append]
      exact h₁.append (h₂ _)
  | block hoisted _ ih =>
      have hbody := Phrase.bound_of_hoist? hE.named hoisted
      exact (Renders.hoist? hoisted).append (ih (hE.hoist? hoisted) hbody o)

/-- What the compiler knows after a phrase fits again, with the struct types of its events. -/
theorem Compiles.attends {E E' : Env} {p : Phrase} {t : Assembly} {k : KnownTypes}
    (h : Compiles E p t E') (hE : E.Attends k) (hp : p.Bound E) :
    E'.Attends (k.afterAll (p.walk k)) :=
  hE.next h hp (h.renders hE hp 0)

/-- A compiler that goes on from a pool knows its struct types. -/
theorem Compiler.attends_resume {scope : Scope} (hsound : (ScopeChain.ofScope scope).Sound)
    (hnamed : (ScopeChain.ofScope scope).Named) (pool : Array Value) :
    (resume scope pool).env.Attends (.ofPool pool) :=
  ⟨sound_resume hsound pool, hnamed, fun _ => rfl⟩

theorem Compiler.attends_new : Compiler.new.env.Attends .nothing := by
  refine ⟨sound_resume ScopeChain.Sound.withBuiltins #[], ?_, ?_⟩
  · intro s hs
    obtain rfl := List.mem_singleton.mp hs
    exact Scope.named_withBuiltins
  · intro name
    simp [Compiler.env, Compiler.new, resume, knownStructs, KnownTypes.nothing]

/-- The instructions of a unit are those of the structured code. -/
theorem CompilesUnit.instructions_eq {E E' : Env} {program : Program} {t : Assembly}
    {unit : Bytecode} (h : CompilesUnit E program t E' unit) :
    unit.code.instructions = t.instrs 0 := by
  refine Code.instructionsFrom_eq h.contains ?_
  rw [Assembly.totalWidth_instrs, h.size, Nat.zero_add]

/-- The code of a unit renders the events of its program. -/
theorem CompilesUnit.renders {E E' : Env} {program : Program} {t : Assembly} {unit : Bytecode}
    {k : KnownTypes} (h : CompilesUnit E program t E' unit) (hE : E.Attends k) :
    Renders E (program.events k) unit.code.instructions E' := by
  rw [h.instructions_eq]
  exact h.rules.renders hE trivial 0

end ScriptEngine
