import ScriptEngine.Proofs.Compile.Growth

/-!
# Compiled code is balanced

In a sound environment, compiling a phrase keeps the environment sound, and the code leaves as many
values on the stack as the phrase is worth, whatever the height at which it starts.  All that the
code refers to is there in the environment afterwards, and the functions that it builds closures of
are safe.
-/

namespace ScriptEngine

open Assembly (Balanced)

/-! ## Sound environments -/

namespace Env

/-- The scopes are sound, and the known struct types are in the pool. -/
structure Sound (E : Env) : Prop where
  chain : E.chain.Sound
  structs : ∀ name known, E.structs.get? name = some known →
    ∃ t, E.pool[known.constant]? = some (.structType t)

namespace Sound

variable {E E' : Env}

theorem of_chain (hE : E.Sound) {chain : ScopeChain} (hchain : chain.Sound)
    (hoisted : Std.TreeSet String) : { E with chain, hoisted }.Sound :=
  ⟨hchain, hE.structs⟩

theorem keep (hE : E.Sound) (v : Value) : (E.keep v).Sound := by
  refine ⟨hE.chain, fun name known hknown => ?_⟩
  obtain ⟨t, ht⟩ := hE.structs name known hknown
  exact ⟨t, Continues.push _ _ _ _ ht⟩

theorem register (hE : E.Sound) (type : StructType) : (E.register type).Sound := by
  refine ⟨hE.chain, fun name known hknown => ?_⟩
  simp only [Env.register, Std.TreeMap.get?_eq_getElem?, Std.TreeMap.getElem?_insert] at hknown
  split at hknown
  · obtain rfl := Option.some.inj hknown
    exact ⟨⟨E.pool.size, type⟩, by simp [Env.register]⟩
  · obtain ⟨t, ht⟩ := hE.structs name known hknown
    exact ⟨t, Continues.push _ _ _ _ ht⟩

/-- The constant of a struct type is in the pool. -/
theorem structConstant (hE : E.Sound) (type : StructType) :
    (E.structConstant type).2.Sound ∧
      ∃ t, (E.structConstant type).2.pool[(E.structConstant type).1]? = some (.structType t) := by
  cases hknown : E.structs.get? type.name with
  | some known =>
      simp only [Env.structConstant, hknown]
      exact ⟨hE, hE.structs _ known hknown⟩
  | none =>
      simp only [Env.structConstant, hknown]
      exact ⟨hE.register type, ⟨E.pool.size, type⟩, by simp⟩

theorem resolve? {name : String} {x : Symbol} (hE : E.Sound)
    (h : E.resolve? name = some (x, E')) : E'.Sound ∧ E'.chain.current.Covers x := by
  simp only [Env.resolve?, Option.map_eq_some_iff, Prod.mk.injEq] at h
  obtain ⟨⟨r, chain⟩, hfound, rfl, rfl⟩ := h
  obtain ⟨hchain, hcovers⟩ := hE.chain.resolve? hfound
  exact ⟨hE.of_chain hchain _, hcovers⟩

theorem define (hE : E.Sound) (name : String) (isMutable : Bool) (ty : Option Ty) :
    (E.define name isMutable ty).2.Sound :=
  hE.of_chain (hE.chain.define name isMutable ty) _

theorem hoist? {ss : List Stmt} (hE : E.Sound) (h : E.hoist? ss = some E') : E'.Sound := by
  induction ss generalizing E with
  | nil =>
      obtain rfl := Option.some.inj h
      exact hE
  | cons s ss ih =>
      cases s with
      | function header body =>
          rw [Env.hoist?] at h
          split at h
          · cases h
          · exact ih ((hE.define _ _ _).of_chain (hE.define _ _ _).chain _) h
      | _ => exact ih hE h

/-- The symbol of a function that is being declared is there in its scope. -/
theorem declared? {header : FunctionHeader} {x : Symbol} (hE : E.Sound)
    (h : E.declared? header = some (x, E')) : E'.Sound ∧ E'.chain.current.Covers x := by
  simp only [Env.declared?] at h
  split at h
  next y hy =>
    simp only [Option.some.injEq, Prod.mk.injEq] at h
    obtain ⟨rfl, rfl⟩ := h
    refine ⟨hE.of_chain hE.chain _, ?_⟩
    split at hy
    · exact hE.chain.bindsCovered _ _ hy
    · cases hy
  next =>
    split at h
    · cases h
    · simp only [Env.define, Option.some.injEq, Prod.mk.injEq] at h
      obtain ⟨rfl, rfl⟩ := h
      exact ⟨hE.of_chain (hE.chain.define _ _ _) _, Scope.covers_define _ _ _ _⟩

theorem withParameters (hE : E.Sound) (parameters : List (String × Ty)) :
    (E.withParameters parameters).Sound := by
  induction parameters generalizing E with
  | nil => exact hE
  | cons p parameters ih => exact ih (hE.define p.1 false (some p.2))

theorem enter (hE : E.Sound) (name : Option String) (signature : Signature) :
    (E.enter name signature).Sound := by
  cases name with
  | none => exact (hE.of_chain hE.chain.push ∅).withParameters _
  | some name =>
      exact (hE.of_chain (hE.chain.push.defineSelf rfl name _) ∅).withParameters _

end Sound

end Env

namespace Compiles

theorem sound {E E' : Env} {p : Phrase} {t : Assembly} (h : Compiles E p t E') (hE : E.Sound) :
    E'.Sound := by
  induction h with
  | int | float | str | zeroInt | zeroFloat | zeroString => exact hE.keep _
  | boolTrue | boolFalse | null | nothing | exprsNil | pairsNil | fieldsNil | zeroBool | zeroNull
  | zeroFunc | zeroArray | zeroHash | zerosNil | retNull | stmtsNil => exact hE
  | use resolved _ => exact (hE.resolve? resolved).1
  | ident _ ih | unary _ ih | branch _ _ ih | otherwise _ ih | function _ ih | array _ ih
  | hash _ ih | select _ _ ih | fieldGiven _ ih | fieldLater _ _ ih | fieldZero _ ih | expr _ ih
  | ret _ _ ih | inner _ ih => exact ih hE
  | binary _ _ _ ih₁ ih₂ | swapped _ _ _ ih₁ ih₂ | callNamed _ _ _ ih₁ ih₂
  | callValue _ _ _ ih₁ ih₂ | index _ _ ih₁ ih₂ | exprsCons _ _ ih₁ ih₂ | fieldsCons _ _ ih₁ ih₂
  | zerosCons _ _ ih₁ ih₂ | setField _ _ _ ih₁ ih₂ | loop _ _ _ ih₁ ih₂ | stmtsCons _ _ ih₁ ih₂ =>
      exact ih₂ (ih₁ hE)
  | cond _ _ _ ih₁ ih₂ ih₃ | pairsCons _ _ _ ih₁ ih₂ ih₃ | setIndex _ _ _ ih₁ ih₂ ih₃ =>
      exact ih₃ (ih₂ (ih₁ hE))
  | struct _ _ _ ih | zeroStruct _ ih => exact ((ih hE).structConstant _).1
  | closure _ _ _ left _ ih =>
      have hbody := ih (hE.enter _ _)
      exact (hbody.of_chain (hbody.chain.pop? left).1 _).keep _
  | declare _ _ _ ih | declareZero _ _ _ ih => exact (ih hE).define _ _ _
  | assign resolved _ _ _ ih => exact ih (hE.resolve? resolved).1
  | declareFunction bound _ _ ih => exact ih (hE.declared? bound).1
  | structType type => exact hE.register type
  | block hoisted _ ih => exact ih (hE.hoist? hoisted)

end Compiles

/-! ## Balanced code in an environment -/

namespace Env

/-- What code that is written in this environment may refer to. -/
def room (E : Env) : Room :=
  { pool := E.pool
    slots := if E.chain.current.isGlobal then 0 else E.chain.current.definitions
    captures := E.chain.current.captures.length
    inFunction := !E.chain.current.isGlobal }

/-- Code that leads from one height to another and refers only to what is there. -/
def Balances (E : Env) (height : Nat) (t : Assembly) (height' : Nat) : Prop :=
  Balanced (E.room.Admits (Function.Safe E.pool)) height t height'

theorem Grows.room {E E' : Env} (h : E.Grows E') : E.room.Le E'.room := by
  refine ⟨h.pool, ?_, h.chain.current.captures.length_le, ?_⟩
  · simp only [Env.room, h.chain.current.isGlobal]
    split
    · exact Nat.le_refl _
    · exact h.chain.current.definitions
  · simp only [Env.room, h.chain.current.isGlobal]

/-- Below the top level the current scope belongs to a function. -/
theorem Sound.room_inFunction {E : Env} (hE : E.Sound) (hdepth : E.chain.depth ≠ 0) :
    E.room.inFunction = true := by
  have hchain := hE.chain
  rw [ScopeChain.Sound] at hchain
  rw [ScopeChain.depth] at hdepth
  cases hscopes : E.chain.enclosing with
  | nil => simp [hscopes] at hdepth
  | cons outer rest =>
      rw [hscopes] at hchain
      simp [room, hchain.1]

namespace Balances

variable {E E' : Env} {t u : Assembly} {h k l : Nat}

theorem mono (ht : E.Balances h t k) (hE : E.Grows E') : E'.Balances h t k :=
  Balanced.mono (fun _ hi => hi.mono hE.room fun _ _ hf => hf.mono hE.pool) ht

theorem append (ht : E.Balances h t k) (hu : E.Balances k u l) : E.Balances h (t ++ u) l :=
  Balanced.append ht hu

theorem of_eq (ht : E.Balances h t k) (hk : k = l) : E.Balances h t l :=
  hk ▸ ht

/-- An instruction takes its operands from the top and leaves what is below. -/
theorem single {i : Instruction} (below : Nat) (hi : E.room.Admits (Function.Safe E.pool) i)
    (plain : i.opcode.isJump = false) (hh : h = below + i.taken) (hk : k = below + i.given) :
    E.Balances h (.single i) k := by
  have hafter : i.after h = k := by
    rw [Instruction.after, hh, hk]
    omega
  exact hafter ▸ Balanced.single hi plain (by omega)

end Balances

theorem admits_load {E : Env} {x : Symbol} (hx : E.chain.current.Covers x) :
    E.room.Admits (Function.Safe E.pool) x.load := by
  unfold Scope.Covers at hx
  cases hs : x.storage with
  | global =>
      cases hm : x.isMutable <;>
        simp [Symbol.load, CompileM.loadOf, hs, hm, Room.Admits]
  | slot =>
      cases hm : x.isMutable <;>
        simp_all [Symbol.load, CompileM.loadOf, Room.Admits, Env.room, Instruction.operand]
  | captured | builtin | self =>
      simp_all [Symbol.load, CompileM.loadOf, Room.Admits, Env.room, Instruction.operand]

theorem admits_store {E : Env} {x : Symbol} {i : Instruction} (hx : E.chain.current.Covers x)
    (hi : x.store? = some i) : E.room.Admits (Function.Safe E.pool) i := by
  unfold Scope.Covers at hx
  cases hs : x.storage with
  | global =>
      cases hm : x.isMutable <;> simp only [Symbol.store?, hs, hm, Option.some.injEq] at hi <;>
        subst hi <;> trivial
  | slot =>
      rw [hs] at hx
      cases hm : x.isMutable <;> simp only [Symbol.store?, hs, hm, Option.some.injEq] at hi <;>
        subst hi <;> simp [Room.Admits, Env.room, Instruction.operand, hx]
  | captured | builtin | self => simp [Symbol.store?, hs] at hi

end Env

namespace Symbol

theorem load_plain (x : Symbol) :
    x.load.opcode.isJump = false ∧ x.load.taken = 0 ∧ x.load.given = 1 := by
  cases hs : x.storage <;> cases hm : x.isMutable <;>
    simp [load, CompileM.loadOf, hs, hm, Opcode.isJump, Instruction.taken, Instruction.given]

theorem store_plain {x : Symbol} {i : Instruction} (hi : x.store? = some i) :
    i.opcode.isJump = false ∧ i.taken = 1 ∧ i.given = 0 := by
  cases hs : x.storage <;> cases hm : x.isMutable <;>
    simp only [store?, hs, hm, Option.some.injEq, reduceCtorEq] at hi <;>
    subst hi <;> exact ⟨rfl, rfl, rfl⟩

end Symbol

namespace Env.Balances

variable {E : Env}

theorem load {x : Symbol} (hx : E.chain.current.Covers x) (h : Nat) :
    E.Balances h (.single x.load) (h + 1) := by
  obtain ⟨hplain, htaken, hgiven⟩ := x.load_plain
  exact .single h (admits_load hx) hplain (by rw [htaken]; rfl) (by rw [hgiven])

theorem store {x : Symbol} {i : Instruction} (hx : E.chain.current.Covers x)
    (hi : x.store? = some i) (h : Nat) : E.Balances (h + 1) (.single i) h := by
  obtain ⟨hplain, htaken, hgiven⟩ := Symbol.store_plain hi
  exact .single h (admits_store hx hi) hplain (by rw [htaken]) (by rw [hgiven]; rfl)

theorem constant {v : Value} (hv : v.isPlain = true) (h : Nat) :
    (E.keep v).Balances h (.single ⟨.constant, [E.pool.size]⟩) (h + 1) :=
  .single h ⟨v, by simp [Env.keep, Env.room, Instruction.operand], hv⟩ rfl rfl rfl

theorem prefixOp (op : PrefixOp) (h : Nat) :
    E.Balances (h + 1) (.single ⟨op.opcode, []⟩) (h + 1) := by
  cases op <;> exact .single h trivial rfl rfl rfl

theorem infixOp (op : InfixOp) (h : Nat) :
    E.Balances (h + 2) (.single ⟨op.opcode, []⟩) (h + 1) := by
  cases op <;> exact .single h trivial rfl rfl rfl

theorem loads {xs : List Symbol} (hxs : ∀ x ∈ xs, E.chain.current.Covers x) (h : Nat) :
    E.Balances h (.ofList (xs.map Symbol.load)) (h + xs.length) := by
  induction xs generalizing h with
  | nil => exact .done h
  | cons x xs ih =>
      have hrest := ih (fun y hy => hxs y (List.mem_cons_of_mem _ hy)) (h + 1)
      rw [List.length_cons, Nat.add_comm xs.length, ← Nat.add_assoc]
      exact (load (hxs x List.mem_cons_self) h).append hrest

theorem struct {t : Assembly} {h n : Nat} (ht : E.Balances h t (h + n)) (hE : E.Sound)
    (st : StructType) :
    (E.structConstant st).2.Balances h
      (t ++ .single ⟨.struct, [(E.structConstant st).1, n]⟩) (h + 1) :=
  (ht.mono (.structConstant E st)).append (.single h (hE.structConstant st).2 rfl rfl rfl)

theorem closure {f : Marked Function} {n : Nat} (hf : f.content.Safe E.pool n) (h : Nat) :
    (E.keep (.function f)).Balances (h + n) (.single ⟨.closure, [E.pool.size, n]⟩) (h + 1) :=
  .single h ⟨f, by simp [Env.keep, Env.room, Instruction.operand], hf.mono (.push _ _)⟩ rfl rfl rfl

theorem leavesValue {t u : Assembly} {h : Nat} (ht : E.Balances h t h) (hu : t.LeavesValue u) :
    E.Balances h u (h + 1) := by
  cases hu with
  | value =>
      obtain ⟨mid, hbalanced, -, henough, hafter⟩ := Balanced.append_single_inv ht
      have htaken : 1 ≤ mid := henough
      have hmid : h = mid - 1 + 0 := hafter
      obtain rfl : mid = h + 1 := by omega
      exact hbalanced
  | null => exact ht.append (.single h trivial rfl rfl rfl)

/-- Code that is made to return ends with a return. -/
theorem returns {t u : Assembly} (ht : E.Balances 0 t 0) (hu : t.Returns u)
    (hfunction : E.chain.current.isGlobal = false) :
    ∃ v last k, u = v ++ .single last ∧ E.Balances 0 u k ∧
      (last.opcode = .returnValue ∨ last.opcode = .returnNull) := by
  have hinside : E.room.inFunction = true := by simp [Env.room, hfunction]
  cases hu with
  | value v =>
      obtain ⟨mid, hbalanced, -, henough, -⟩ := Balanced.append_single_inv ht
      obtain ⟨below, rfl⟩ : ∃ below, mid = below + 1 := Nat.exists_eq_add_of_le' henough
      have hv : E.Balances 0 v (below + 1) := hbalanced
      exact ⟨v, _, below, rfl, hv.append (.single below hinside rfl rfl rfl), Or.inl rfl⟩
  | already v => exact ⟨v, _, 0, rfl, ht, Or.inl rfl⟩
  | null => exact ⟨t, _, 0, rfl, ht.append (.single 0 hinside rfl rfl rfl), Or.inr rfl⟩

end Env.Balances

/-- A function whose body is balanced is safe with the values that its scope captures. -/
theorem safe_of_body {E : Env} {t u : Assembly} {scope : Scope} {chain : ScopeChain} {code : Code}
    {parameters : Nat} {name : Option String} (hE : E.Sound) (ht : E.Balances 0 t 0)
    (hu : t.Returns u) (hcode : Code.Adds .empty (u.instrs 0) code)
    (hpop : E.chain.pop? = some (scope, chain)) (hparameters : parameters ≤ scope.definitions) :
    Function.Safe E.pool { code, locals := scope.definitions, parameters, name }
      scope.captures.length := by
  obtain ⟨rfl, hlocal⟩ : E.chain.current = scope ∧ E.chain.current.isGlobal = false := by
    have hchain := hE.chain
    rw [ScopeChain.pop?] at hpop
    rw [ScopeChain.Sound] at hchain
    split at hpop
    · cases hpop
    next henclosing =>
      rw [henclosing] at hchain
      simp only [Option.some.injEq, Prod.mk.injEq] at hpop
      exact ⟨hpop.1, hchain.1⟩
  obtain ⟨v, last, k, rfl, hbalanced, hlast⟩ := ht.returns hu hlocal
  have hroom : E.room =
      Function.room { code, locals := E.chain.current.definitions, parameters, name } E.pool
        E.chain.current.captures.length := by
    simp [Env.room, Function.room, hlocal]
  rw [Env.Balances, hroom] at hbalanced
  exact .of_balanced hparameters hcode.contains hbalanced hlast

namespace Env

theorem definitions_withParameters (E : Env) (parameters : List (String × Ty)) :
    (E.withParameters parameters).chain.current.definitions =
      E.chain.current.definitions + parameters.length := by
  induction parameters generalizing E with
  | nil => rfl
  | cons p parameters ih =>
      have hdefine : (E.define p.1 false (some p.2)).2.chain.current.definitions =
          E.chain.current.definitions + 1 := rfl
      rw [Env.withParameters, ih, hdefine, List.length_cons]
      omega

theorem definitions_enter (E : Env) (name : Option String) (signature : Signature) :
    (E.enter name signature).chain.current.definitions = signature.parameters.length := by
  cases name with
  | none => exact (definitions_withParameters _ _).trans (Nat.zero_add _)
  | some name => exact (definitions_withParameters _ _).trans (Nat.zero_add _)

end Env

namespace Compiles

/-- Compiled code leaves as many values as the phrase is worth. -/
theorem balanced {E E' : Env} {p : Phrase} {t : Assembly} (hp : Compiles E p t E')
    (hE : E.Sound) (h : Nat) : E'.Balances h t (h + p.gain) := by
  induction hp generalizing h with
  | int | float | str | zeroInt | zeroFloat | zeroString => exact .constant rfl h
  | boolTrue | boolFalse | null | nothing | zeroBool | zeroNull | zeroFunc | zeroArray | zeroHash =>
      exact .single h trivial rfl rfl rfl
  | exprsNil | pairsNil | fieldsNil | zerosNil | structType | stmtsNil => exact .done h
  | use resolved _ => exact .load (hE.resolve? resolved).2 h
  | ident _ ih | otherwise _ ih | function _ ih | fieldGiven _ ih | fieldLater _ _ ih
  | fieldZero _ ih | inner _ ih => exact ih hE h
  | unary _ ih => exact (ih hE h).append (.prefixOp _ h)
  | binary _ left right ih₁ ih₂ | swapped _ left right ih₁ ih₂ =>
      have hfirst := (ih₁ hE h).mono right.grows
      exact hfirst.append ((ih₂ (left.sound hE) (h + 1)).append (.infixOp _ h))
  | cond condition consequence alternative ih₁ ih₂ ih₃ =>
      have hE₂ := condition.sound hE
      have hE₃ := consequence.sound hE₂
      exact .choice ((ih₁ hE h).mono (consequence.grows.trans alternative.grows))
        ((ih₂ hE₂ h).mono alternative.grows) (ih₃ hE₃ h) (.done _)
  | branch _ value ih => exact (ih hE h).leavesValue value
  | @callNamed E₁ E₂ E₃ b callee arguments overload name t u _ function values ih₁ ih₂
  | @callValue E₁ E₂ E₃ b callee arguments overload t u _ function values ih₁ ih₂ =>
      have hfunction := (ih₁ hE h).mono values.grows
      have hvalues := ih₂ (function.sound hE) (h + 1)
      refine hfunction.append (hvalues.append (.single h trivial rfl ?_ rfl))
      simp only [Phrase.gain, Instruction.taken, Instruction.operand]
      simp
      omega
  | array _ ih => exact (ih hE h).append (.single h trivial rfl rfl rfl)
  | hash _ ih => exact (ih hE h).append (.single h trivial rfl rfl rfl)
  | index object place ih₁ ih₂ =>
      have hobject := (ih₁ hE h).mono place.grows
      exact hobject.append ((ih₂ (object.sound hE) (h + 1)).append (.single h trivial rfl rfl rfl))
  | struct _ _ values ih | zeroStruct values ih => exact (ih hE h).struct (values.sound hE) _
  | select _ _ ih => exact (ih hE h).append (.single h trivial rfl rfl rfl)
  | exprsCons head tail ih₁ ih₂ | fieldsCons head tail ih₁ ih₂ | zerosCons head tail ih₁ ih₂ =>
      have hhead := (ih₁ hE h).mono tail.grows
      refine hhead.append ((ih₂ (head.sound hE) (h + 1)).of_eq ?_)
      simp only [Phrase.gain, List.length_cons]
      omega
  | pairsCons key value tail ih₁ ih₂ ih₃ =>
      have hE₂ := key.sound hE
      have hkey := (ih₁ hE h).mono (value.grows.trans tail.grows)
      have hvalue := (ih₂ hE₂ (h + 1)).mono tail.grows
      refine hkey.append (hvalue.append ((ih₃ (value.sound hE₂) (h + 2)).of_eq ?_))
      simp only [Phrase.gain, List.length_cons]
      omega
  | @closure E E' name signature body t u scope chain code statements returns written left _ ih =>
      have hE' := statements.sound (hE.enter name signature)
      have hpop := hE'.chain.pop? left
      have hcurrent : E'.chain.current = scope := by
        rw [ScopeChain.pop?] at left
        split at left <;> simp_all
      have hparameters : signature.parameters.length ≤ scope.definitions := by
        rw [← Env.definitions_enter E name signature, ← hcurrent]
        exact statements.grows.chain.current.definitions
      let f : Function :=
        { code, locals := scope.definitions, parameters := signature.parameters.length, name }
      have hsafe : f.Safe E'.pool scope.captures.length :=
        safe_of_body hE' (ih (hE.enter _ _) 0) returns written left hparameters
      exact (Env.Balances.loads hpop.2 h).append (.closure hsafe h)
  | expr _ ih => exact (ih hE h).append (.single h trivial rfl rfl rfl)
  | declare _ value store ih | declareZero _ value store ih =>
      exact ((ih hE h).mono (.define _ _ _ _)).append
        (.store (Scope.covers_define _ _ _ _) store h)
  | assign resolved _ value store ih =>
      obtain ⟨hE₂, hcovers⟩ := hE.resolve? resolved
      exact (ih hE₂ h).append (.store (hcovers.mono value.grows.chain.current) store h)
  | setIndex object place content ih₁ ih₂ ih₃ =>
      have hE₂ := object.sound hE
      have hobject := (ih₁ hE h).mono (place.grows.trans content.grows)
      have hplace := (ih₂ hE₂ (h + 1)).mono content.grows
      have hcontent := ih₃ (place.sound hE₂) (h + 2)
      exact hobject.append (hplace.append (hcontent.append (.single h trivial rfl rfl rfl)))
  | setField _ target content ih₁ ih₂ =>
      have htarget := (ih₁ hE h).mono content.grows
      have hcontent := ih₂ (target.sound hE) (h + 1)
      exact htarget.append (hcontent.append (.single h trivial rfl rfl rfl))
  | ret inFunction value ih =>
      have hinside := (value.sound hE).room_inFunction (value.depth_eq ▸ inFunction)
      exact (ih hE h).append (.single h hinside rfl rfl rfl)
  | retNull inFunction => exact .single h (hE.room_inFunction inFunction) rfl rfl rfl
  | loop _ condition again ih₁ ih₂ =>
      have hcondition := (ih₁ hE h).mono again.grows
      have hagain := ih₂ (condition.sound hE) h
      have hvalue (E : Env) : E.Balances h (.single ⟨.pushNull, []⟩) (h + 1) :=
        .single h trivial rfl rfl rfl
      exact .loop hcondition hagain ((hvalue _).append (.single h trivial rfl rfl rfl))
  | declareFunction bound value store ih =>
      obtain ⟨hE₂, hcovers⟩ := hE.declared? bound
      exact (ih hE₂ h).append (.store (hcovers.mono value.grows.chain.current) store h)
  | stmtsCons head tail ih₁ ih₂ =>
      have hhead := (ih₁ hE h).mono tail.grows
      exact hhead.append (ih₂ (head.sound hE) h)
  | block hoisted _ ih => exact ih (hE.hoist? hoisted) h

end Compiles

end ScriptEngine
