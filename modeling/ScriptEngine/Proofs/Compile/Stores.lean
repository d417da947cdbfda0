import ScriptEngine.Proofs.Compile.Accounts

/-!
# The stores of compiled code

Compiling a phrase accounts for the slots of its events (`Compiles.stores`).  Hence in a unit, every
constant is stored to once, by the code of the function or of the top level that declares it, and
parameters are never stored to.
-/

namespace ScriptEngine

/-! ## Phrases -/

/-- The functions that are declared when a phrase is compiled, of those that were bound before. -/
def Phrase.fulfils : Phrase → List String
  | .stmt s => s.functionName?.toList
  | .stmts ss => ss.filterMap Stmt.functionName?
  | _ => []

/-- The instructions account for the slots of the events, and some functions are no longer to be
declared. -/
structure Stores (start : Nat) (E : Env) (L : Ledger) (fulfilled : List String) (es : List Event)
    (is : List Instruction) (E' : Env) : Prop extends Accounts start E L is E' (L.after es) where
  hoisted : ∀ name, name ∈ E'.hoisted ↔ name ∈ E.hoisted ∧ name ∉ fulfilled

namespace Stores

variable {start : Nat} {E E₁ E' : Env} {L : Ledger} {fulfilled fulfilled' : List String}
  {es fs : List Event} {is js : List Instruction}

theorem append (h : Stores start E L fulfilled es is E₁)
    (h' : Stores start E₁ (L.after es) fulfilled' fs js E') :
    Stores start E L (fulfilled ++ fulfilled') (es ++ fs) (is ++ js) E' where
  toAccounts := by
    rw [Ledger.after_append]
    exact h.toAccounts.trans h'.toAccounts
  hoisted name := by
    rw [h'.hoisted, h.hoisted, List.mem_append, not_or, and_assoc]

/-- Code that changes no slots and awaits what it awaited. -/
theorem of_accounts (h : Accounts start E L is E' (L.after es))
    (hhoisted : E'.hoisted = E.hoisted) : Stores start E L [] es is E' :=
  ⟨h, fun name => by rw [hhoisted, List.mem_nil_iff, not_false_eq_true, and_true]⟩

theorem silent (hL : E.Tallies start L) (his : ∀ i ∈ is, i.opcode.isStore = false) :
    Stores start E L [] [] is E :=
  of_accounts (.silent hL his) rfl

theorem single {i : Instruction} (hL : E.Tallies start L) (hi : i.opcode.isStore = false) :
    Stores start E L [] [] [i] E :=
  silent hL (List.forall_mem_singleton.mpr hi)

/-- Further instructions that store nothing. -/
theorem extend (h : Stores start E L fulfilled es is E')
    (hjs : ∀ j ∈ js, j.opcode.isStore = false) :
    Stores start E L fulfilled es (is ++ js) E' := by
  have happend := h.append (silent h.tallies hjs)
  rwa [List.append_nil, List.append_nil] at happend

theorem concat {i : Instruction} (h : Stores start E L fulfilled es is E')
    (hi : i.opcode.isStore = false) : Stores start E L fulfilled es (is ++ [i]) E' :=
  h.extend (List.forall_mem_singleton.mpr hi)

/-- Other instructions with the same stores. -/
theorem congr (h : Stores start E L fulfilled es is E')
    (hjs : ∀ isGlobal k, storeCount isGlobal k js = storeCount isGlobal k is) :
    Stores start E L fulfilled es js E' where
  toAccounts :=
    { h.toAccounts with
      own := fun k hk => by rw [hjs]; exact h.own k hk
      foreign := fun k hk => by rw [hjs] at hk; exact h.foreign k hk }
  hoisted := h.hoisted

theorem skip {i : Instruction} (hi : i.opcode.isStore = false)
    (h : Stores start E L fulfilled es is E') : Stores start E L fulfilled es (i :: is) E' := by
  apply h.congr
  intro isGlobal k
  rw [← List.singleton_append, storeCount_append,
    storeCount_eq_zero (List.forall_mem_singleton.mpr hi), Nat.zero_add]

/-- A constant that is no function. -/
theorem keep (hL : E.Tallies start L) (hstart : start ≤ E.pool.size) {v : Value}
    (hv : ∀ f, v ≠ .function f) : Stores start E L [] [] [] (E.keep v) :=
  of_accounts (.still hL rfl rfl (by simp [Env.keep])
    (functionsFrom_push_of_none hstart (Value.function?_eq_none hv)) (by simp)) rfl

theorem use {name : String} {x : Symbol} (hL : E.Tallies start L) (hnamed : E.chain.Named)
    (h : E.resolve? name = some (x, E')) : Stores start E L [] [.use name] [x.load] E' := by
  refine of_accounts (.use hL hnamed h) ?_
  simp only [Env.resolve?, Option.map_eq_some_iff, Prod.mk.injEq] at h
  obtain ⟨_, -, -, rfl⟩ := h
  rfl

theorem introduce (hL : E.Tallies start L) (hstart : start ≤ E.pool.size) (type : StructType) :
    Stores start E L [] [.introduce type] [] (E.register type) :=
  of_accounts (.still hL rfl rfl (by simp [Env.register])
    (functionsFrom_push_of_none hstart rfl) (by simp)) rfl

theorem structConstant (hL : E.Tallies start L) (hstart : start ≤ E.pool.size)
    (type : StructType) (e : Build) (i : Instruction) (hi : i.opcode.isStore = false) :
    Stores start E L [] [.build e] [i] (E.structConstant type).2 := by
  have hhoisted : (E.structConstant type).2.hoisted = E.hoisted := by
    rw [Env.structConstant]
    split <;> rfl
  have hsize : E.pool.size ≤ (E.structConstant type).2.pool.size := by
    rw [Env.structConstant]
    split <;> simp
  exact of_accounts (.still hL (E.chain_structConstant type) hhoisted hsize
    (E.functionsFrom_structConstant hstart type) (List.forall_mem_singleton.mpr hi)) hhoisted

/-- A store to what was a variable before. -/
theorem assign {x : Symbol} {i : Instruction} (h : Stores start E L fulfilled es is E')
    (hi : x.store? = some i)
    (hx : (x.storage = .declared E.chain.current.isGlobal ∧
        isVariableAt L.current x.index = true) ∨
      (E.chain.current.isGlobal = false ∧ x.storage = .global ∧
        isVariableAt L.globals x.index = true)) :
    Stores start E L fulfilled es (is ++ [i]) E' := by
  have hlater := hx.imp
    (And.imp_right (isVariableAt_of_isPrefix h.current_isPrefix))
    (And.imp_right (And.imp_right (isVariableAt_of_isPrefix h.globals_isPrefix)))
  rw [← h.isGlobal] at hlater
  have hstore : Stores start E' (L.after es) [] [] [i] E' :=
    of_accounts (.store h.tallies hi hlater) rfl
  have happend := h.append hstore
  rwa [List.append_nil, List.append_nil] at happend

/-- The declaration of a function that was bound ahead. -/
theorem fulfil {name : String} {x : Symbol} {i : Instruction} (hL : E.Tallies start L)
    (hname : name ∈ E.hoisted) (hx : E.chain.current.get? name = some x)
    (h : Stores start (E.fulfil name) L [] es is E') (hi : x.store? = some i) :
    Stores start E L [name] es (is ++ [i]) E' where
  toAccounts := h.toAccounts.fulfil hL hname hx hi
  hoisted other := by
    rw [h.hoisted, Env.mem_hoisted_fulfil, List.mem_nil_iff, not_false_eq_true, and_true,
      List.mem_singleton]

/-- The names that a block binds ahead are awaited in addition. -/
theorem hoist? {ss : List Stmt} (hL : E.Tallies start L) (hnamed : E.chain.Named)
    (h : E.hoist? ss = some E') :
    Accounts start E L [] E' (L.after ((ss.filterMap Stmt.functionName?).map (.declare · false))) ∧
      ∀ name, name ∈ E'.hoisted ↔
        name ∈ E.hoisted ∨ name ∈ ss.filterMap Stmt.functionName? := by
  induction ss generalizing E L with
  | nil =>
      obtain rfl := Option.some.inj h
      exact ⟨.silent hL (by simp), by simp⟩
  | cons s ss ih =>
      cases s with
      | function header body =>
          rw [Env.hoist?] at h
          split at h
          · cases h
          next hconflict =>
            have hfree : header.boundName ∉ E.chain.current.declared :=
              ScopeChain.conflict?_eq_none_iff.mp (by simpa using hconflict)
            have hbind := Accounts.bindAhead hL hfree (some header.signature.ty)
            have hnamed₁ :
                (E.bindAhead header.boundName (some header.signature.ty)).chain.Named := by
              rintro s (_ | ⟨_, hs⟩)
              · exact Scope.named_bind (hnamed _ List.mem_cons_self) _
              · exact hnamed s (List.mem_cons_of_mem _ hs)
            obtain ⟨hrest, hhoisted⟩ := ih hbind.tallies hnamed₁ h
            refine ⟨hbind.trans hrest, fun name => ?_⟩
            have hnames : (Stmt.function header body :: ss).filterMap Stmt.functionName? =
                header.boundName :: ss.filterMap Stmt.functionName? := rfl
            rw [hhoisted, Env.mem_hoisted_bindAhead, hnames, List.mem_cons, or_comm (a := name = _),
              or_assoc]
      | _ => exact ih hL hnamed h

/-- A block binds its functions ahead and declares all of them. -/
theorem block {ss : List Stmt} (hL : E.Tallies start L) (hnamed : E.chain.Named)
    (h : E.hoist? ss = some E₁)
    (hstatements : Stores start E₁
      (L.after ((ss.filterMap Stmt.functionName?).map (.declare · false)))
      (ss.filterMap Stmt.functionName?) es is E') :
    Stores start E L [] ((ss.filterMap Stmt.functionName?).map (.declare · false) ++ es) is E' := by
  obtain ⟨hbind, hhoisted⟩ := hoist? hL hnamed h
  constructor
  · rw [Ledger.after_append]
    exact hbind.trans hstatements.toAccounts
  · intro name
    have hfresh (hname : name ∈ ss.filterMap Stmt.functionName?) : name ∉ E.hoisted := by
      intro hhoisted
      refine (Introduces.hoist? hnamed h).fresh _ List.mem_cons_self name ?_
        (hL.mem_declared hhoisted)
      rwa [Outline.names_ofNames]
    rw [hstatements.hoisted, hhoisted, List.mem_nil_iff, not_false_eq_true, and_true]
    tauto

end Stores

/-- What may be assigned to is a variable of the current function or a global one. -/
theorem Env.Tallies.isVariableAt_of_resolve? {start : Nat} {E E' : Env} {L : Ledger}
    {name : String} {x : Symbol} (hL : E.Tallies start L) (hE : E.Sound)
    (h : E.resolve? name = some (x, E')) (hx : x.isAssignable = true) :
    (x.storage = .declared E.chain.current.isGlobal ∧ isVariableAt L.current x.index = true) ∨
      (E.chain.current.isGlobal = false ∧ x.storage = .global ∧
        isVariableAt L.globals x.index = true) := by
  simp only [Env.resolve?, Option.map_eq_some_iff, Prod.mk.injEq] at h
  obtain ⟨⟨r, chain⟩, hfound, rfl, rfl⟩ := h
  have hsound : E.chain.current.SoundIn E.chain.enclosing := hE.chain
  rcases ScopeChain.isVariableAt_of_resolveFrom? (ScopeChain.resolve?_eq_some hfound) hsound
    hL.scopes hx with ⟨hstorage, hlocal, hvariable⟩ | ⟨hstorage, hvariable⟩
  · rw [hlocal]
    exact .inl ⟨hstorage, hvariable⟩
  · have hscopes := hL.enclosing
    cases hglobal : E.chain.current.isGlobal with
    | false => exact .inr ⟨rfl, hstorage, hvariable⟩
    | true =>
        cases henclosing : E.chain.enclosing with
        | nil =>
            rw [henclosing] at hscopes
            rw [List.forall₂_nil_left_iff.mp hscopes] at hvariable
            exact .inl ⟨hstorage, hvariable⟩
        | cons s ss =>
            rw [henclosing] at hsound
            rw [hsound.1] at hglobal
            cases hglobal

/-- The code of a phrase accounts for the slots of its events. -/
theorem Compiles.stores {E E' : Env} {p : Phrase} {t : Assembly} (h : Compiles E p t E')
    {k : KnownTypes} (hE : E.Attends k) (hp : p.Bound E) {start : Nat} {L : Ledger}
    (hL : E.Tallies start L) (hstart : start ≤ E.pool.size) (o : Nat) :
    Stores start E L p.fulfils (p.walk k) (t.instrs o) E' := by
  induction h generalizing k L o with
  | int | float | str | zeroInt | zeroFloat | zeroString =>
      exact (Stores.keep hL hstart (by simp)).concat rfl
  | boolTrue | boolFalse | null | nothing | zeroBool | zeroNull | zeroFunc | zeroArray | zeroHash
  | retNull => exact .single hL rfl
  | exprsNil | pairsNil | fieldsNil | zerosNil | stmtsNil =>
      exact .silent hL (List.forall_mem_nil _)
  | use resolved _ => exact .use hL hE.named resolved
  | structType type => exact .introduce hL hstart type
  | ident _ ih | otherwise _ ih | function _ ih | fieldZero _ ih | inner _ ih =>
      exact ih hE trivial hL hstart o
  | unary _ ih =>
      rw [Assembly.instrs_append]
      exact (ih hE trivial hL hstart o).concat (by cases ‹PrefixOp› <;> rfl)
  | binary inOrder left right ih₁ ih₂ =>
      have hE₂ := left.attends hE trivial
      have h₁ := ih₁ hE trivial hL hstart o
      have h₂ := ih₂ hE₂ trivial h₁.tallies (hstart.trans h₁.size)
      rw [Assembly.instrs_append, Assembly.instrs_append]
      simp only [Phrase.walk, Expr.walk, inOrder]
      exact h₁.append ((h₂ _).concat (by cases ‹InfixOp› <;> rfl))
  | swapped reversed right left ih₁ ih₂ =>
      have hE₂ := right.attends hE trivial
      have h₁ := ih₁ hE trivial hL hstart o
      have h₂ := ih₂ hE₂ trivial h₁.tallies (hstart.trans h₁.size)
      rw [Assembly.instrs_append, Assembly.instrs_append]
      simp only [Phrase.walk, Expr.walk, reversed]
      exact h₁.append ((h₂ _).concat (by cases ‹InfixOp› <;> rfl))
  | @cond _ _ _ _ _ _ _ no _ _ _ condition consequence alternative ih₁ ih₂ ih₃ =>
      have hE₂ := condition.attends hE trivial
      have hE₃ := consequence.attends hE₂ trivial
      have h₁ := ih₁ hE trivial hL hstart o
      have hstart₂ := hstart.trans h₁.size
      have h₂ := ih₂ hE₂ trivial h₁.tallies hstart₂
      have h₃ := ih₃ hE₃ trivial (h₂ o).tallies (hstart₂.trans (h₂ o).size)
      simp only [Assembly.instrs, List.append_nil]
      cases no with
      | none => exact h₁.append (((h₂ _).append ((h₃ _).skip rfl)).skip rfl)
      | some body => exact h₁.append (((h₂ _).append ((h₃ _).skip rfl)).skip rfl)
  | branch _ value ih =>
      exact (ih hE trivial hL hstart o).congr fun _ _ => value.storeCount_eq o
  | callNamed named function values ih₁ ih₂ =>
      have hE₂ := function.attends hE trivial
      have h₁ := ih₁ hE trivial hL hstart o
      have h₂ := ih₂ hE₂ trivial h₁.tallies (hstart.trans h₁.size)
      rw [Assembly.instrs_append, Assembly.instrs_append]
      simp only [Phrase.walk, Expr.walk, named]
      exact h₁.append ((h₂ _).concat rfl)
  | callValue unnamed function values ih₁ ih₂ =>
      have hE₂ := function.attends hE trivial
      have h₁ := ih₁ hE trivial hL hstart o
      have h₂ := ih₂ hE₂ trivial h₁.tallies (hstart.trans h₁.size)
      rw [Assembly.instrs_append, Assembly.instrs_append]
      simp only [Phrase.walk, Expr.walk, unnamed]
      exact h₁.append ((h₂ _).concat rfl)
  | array _ ih | hash _ ih | select _ _ ih | expr _ ih | ret _ _ ih =>
      rw [Assembly.instrs_append]
      exact (ih hE trivial hL hstart o).concat rfl
  | index first second ih₁ ih₂ | setField _ first second ih₁ ih₂ =>
      have hE₂ := first.attends hE trivial
      have h₁ := ih₁ hE trivial hL hstart o
      have h₂ := ih₂ hE₂ trivial h₁.tallies (hstart.trans h₁.size)
      rw [Assembly.instrs_append, Assembly.instrs_append]
      exact h₁.append ((h₂ _).concat rfl)
  | exprsCons head tail ih₁ ih₂ | fieldsCons head tail ih₁ ih₂ | zerosCons head tail ih₁ ih₂ =>
      have hE₂ := head.attends hE trivial
      have h₁ := ih₁ hE trivial hL hstart o
      have h₂ := ih₂ hE₂ trivial h₁.tallies (hstart.trans h₁.size)
      rw [Assembly.instrs_append]
      exact h₁.append (h₂ _)
  | pairsCons key value tail ih₁ ih₂ ih₃ =>
      have hE₂ := key.attends hE trivial
      have hE₃ := value.attends hE₂ trivial
      have h₁ := ih₁ hE trivial hL hstart o
      have hstart₂ := hstart.trans h₁.size
      have h₂ := ih₂ hE₂ trivial h₁.tallies hstart₂
      have h₃ := ih₃ hE₃ trivial (h₂ o).tallies (hstart₂.trans (h₂ o).size)
      rw [Assembly.instrs_append, Assembly.instrs_append]
      exact h₁.append ((h₂ _).append (h₃ _))
  | setIndex first second third ih₁ ih₂ ih₃ =>
      have hE₂ := first.attends hE trivial
      have hE₃ := second.attends hE₂ trivial
      have h₁ := ih₁ hE trivial hL hstart o
      have hstart₂ := hstart.trans h₁.size
      have h₂ := ih₂ hE₂ trivial h₁.tallies hstart₂
      have h₃ := ih₃ hE₃ trivial (h₂ o).tallies (hstart₂.trans (h₂ o).size)
      rw [Assembly.instrs_append, Assembly.instrs_append, Assembly.instrs_append]
      exact h₁.append ((h₂ _).append ((h₃ _).concat rfl))
  | @struct E₁ E₂ _ typeName initializers st _ known _ values ih =>
      have h₁ := ih hE trivial hL hstart o
      have hknown : k typeName = some st := (hE.types typeName).trans known
      rw [Assembly.instrs_append]
      simp only [Phrase.walk, Expr.walk, Walk.struct, hknown]
      exact h₁.append (.structConstant h₁.tallies (hstart.trans h₁.size) st _ _ rfl)
  | fieldGiven _ ih =>
      simp only [Phrase.walk, Expr.fieldWalk, if_true]
      exact ih hE trivial hL hstart o
  | fieldLater other _ ih =>
      simp only [Phrase.walk, Expr.fieldWalk, if_neg other]
      exact ih hE trivial hL hstart o
  | @zeroStruct E₁ E₂ name fields _ values ih =>
      have h₁ := ih hE trivial hL hstart o
      rw [Assembly.instrs_append]
      exact h₁.append (.structConstant h₁.tallies (hstart.trans h₁.size) ⟨name, fields⟩ _ _ rfl)
  | @closure E₁ E₂ name signature body t u scope chain code statements returns written left _ ih =>
      have hstart₁ : start ≤ (E₁.enter name signature).pool.size := by
        rw [(E₁.same_enter name signature).2]
        exact hstart
      have hbody :=
        ih (hE.enter name signature) trivial (hL.enter hE.named name signature) hstart₁ 0
      have hdone (other : String) : other ∉ E₂.hoisted := by
        intro hother
        exact E₁.not_mem_hoisted_enter name signature other ((hbody.hoisted other).mp hother).1
      let f : Function :=
        { code, locals := scope.definitions, parameters := signature.parameters.length, name }
      have hlocals : f.locals = E₂.chain.current.definitions :=
        congrArg Scope.definitions (ScopeChain.eq_of_pop? left).1.symm
      have hcode (isGlobal : Bool) (k : Nat) :
          storeCount isGlobal k f.code.instructions = storeCount isGlobal k (t.instrs 0) := by
        rw [Code.instructions_of_adds written]
        exact returns.storeCount_eq 0
      have hsettles := hbody.settles hdone hlocals hcode
      have hledger : L.after ((Phrase.closure name signature body).walk k) =
          ((L.enter (signature.parameters.map Prod.fst)).after
            ((Phrase.block body).walk k)).leave :=
        Ledger.after_append _ _ [.leave]
      rw [Assembly.instrs_append, Assembly.instrs_ofList]
      refine .of_accounts ?_ rfl
      rw [hledger]
      exact hbody.close hL hE.named hstart left hsettles scope.captures scope.captures.length
  | declare fresh value store ih | declareZero fresh value store ih =>
      have h₁ := ih hE trivial hL hstart o
      have hname := fun hhoisted =>
        ScopeChain.conflict?_eq_none_iff.mp fresh (hL.mem_declared ((h₁.hoisted _).mp hhoisted).1)
      rw [Assembly.instrs_append]
      exact h₁.append (.of_accounts (.define h₁.tallies hname store) rfl)
  | assign resolved assignable _ store ih =>
      have htarget := hL.isVariableAt_of_resolve? hE.sound resolved assignable
      obtain rfl := Env.resolve?_eq_self resolved assignable
      rw [Assembly.instrs_append]
      exact (ih hE trivial hL hstart o).assign store htarget
  | loop _ condition again ih₁ ih₂ =>
      have hE₂ := condition.attends hE trivial
      have h₁ := ih₁ hE trivial hL hstart o
      have h₂ := ih₂ hE₂ trivial h₁.tallies (hstart.trans h₁.size)
      have hsilent : ∀ i ∈ [⟨.jump, [o]⟩, ⟨.pushNull, []⟩, (⟨.pop, []⟩ : Instruction)],
          i.opcode.isStore = false := by simp [Opcode.isStore]
      exact h₁.append (((h₂ _).extend hsilent).skip rfl)
  | @declareFunction E₁ E₂ E₃ header body x t i bound value store ih =>
      have hE₂ := (hE.sound.declared? bound).1
      obtain ⟨hhoisted, hx, rfl⟩ := Env.declared?_eq (hp _ rfl) bound
      have h₁ := ih ⟨hE₂, hE.named, hE.types⟩ trivial (hL.fulfil _) hstart o
      rw [Assembly.instrs_append]
      exact .fulfil hL hhoisted hx h₁ store
  | @stmtsCons _ _ _ s ss _ _ head _ ih₁ ih₂ =>
      have hE₂ := head.attends hE hp.head
      have hrest := hp.tail (head.introduces hE.named hp.head)
      have h₁ := ih₁ hE hp.head hL hstart o
      have h₂ := ih₂ hE₂ hrest h₁.tallies (hstart.trans h₁.size)
      have hnames : (Phrase.stmts (s :: ss)).fulfils =
          (Phrase.stmt s).fulfils ++ (Phrase.stmts ss).fulfils := by
        simp only [Phrase.fulfils, List.filterMap_cons]
        cases s.functionName? <;> rfl
      rw [Assembly.instrs_append, hnames]
      exact h₁.append (h₂ _)
  | block hoisted _ ih =>
      have hbody := Phrase.bound_of_hoist? hE.named hoisted
      have hbind := (Stores.hoist? hL hE.named hoisted).1
      have hstatements := ih (hE.hoist? hoisted) hbody hbind.tallies (hstart.trans hbind.size) o
      exact .block hL hE.named hoisted hstatements

/-! ## Units -/

/-- The code of a unit stores once to each global constant that the unit declares and to no earlier
one, and its functions settle their slots. -/
structure Bytecode.Settles (unit : Bytecode) (start : Nat) (before : List Slot) (L : Ledger) :
    Prop where
  isPrefix : before <+: L.current
  main : ∀ k, isVariableAt L.current k = false → storeCount true k unit.code.instructions =
    if before.length ≤ k ∧ k < L.current.length then 1 else 0
  functions : List.Forall₂ (fun e slots => e.2.Settles L.current slots)
    (functionsFrom start unit.constants) L.functions

/-- A unit settles the slots of its program. -/
theorem CompilesUnit.settles {E E' : Env} {program : Program} {t : Assembly} {unit : Bytecode}
    {k : KnownTypes} {globals : List Slot} (h : CompilesUnit E program t E' unit)
    (hk : E.Attends k) (hglobals : E.chain.current.Records globals)
    (htop : E.chain.enclosing = []) (hhoisted : E.hoisted = ∅) :
    unit.Settles E.pool.size globals (program.ledger k globals) ∧
      E'.chain.outermost.Records (program.ledger k globals).current := by
  have hnone (name : String) : name ∉ E.hoisted := by
    rw [hhoisted]
    exact Std.TreeSet.not_mem_emptyc
  have htallies : E.Tallies E.pool.size ⟨globals, [], []⟩ := by
    refine ⟨?_, fun name hname => absurd hname (hnone name), ?_⟩
    · rw [htop]
      exact .cons hglobals .nil
    · rw [SettlesAll, functionsFrom, Nat.sub_self]
      exact .nil
  have hstores := h.rules.stores hk trivial htallies (Nat.le_refl _) 0
  have hisGlobal : E.chain.current.isGlobal = true := by
    have hsound := hk.sound.chain
    rw [ScopeChain.Sound, htop] at hsound
    exact hsound.1
  have hafter (name : String) : name ∉ E'.hoisted := by
    intro hname
    exact hnone name ((hstores.hoisted name).mp hname).1
  have htop' : E'.chain.enclosing = [] := by
    have haround := hstores.around
    rw [htop] at haround
    exact List.forall₂_nil_left_iff.mp haround
  have hledger : (program.ledger k globals).enclosing = [] := hstores.enclosing
  constructor
  · refine ⟨hstores.current_isPrefix, ?_, ?_⟩
    · intro j hj
      have hown := hstores.own j hj
      rw [hisGlobal, Env.pending_of_not_mem hnone, Env.pending_of_not_mem hafter, Nat.zero_add,
        Nat.add_zero] at hown
      rw [h.instructions_eq]
      exact hown
    · have hfunctions := hstores.tallies.functions
      rw [h.constants]
      have hglobals : (program.ledger k globals).globals = (program.ledger k globals).current := by
        rw [Ledger.globals, hledger]
        rfl
      rw [SettlesAll] at hfunctions
      exact hglobals ▸ hfunctions
  · rw [ScopeChain.outermost, htop']
    exact hstores.tallies.current

end ScriptEngine
