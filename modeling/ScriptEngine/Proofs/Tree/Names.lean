import ScriptEngine.Proofs.Compile.Relation
import ScriptEngine.Proofs.Tree.Evaluation

/-!
# Names of first-order programs

At the top level a name stands for the slot of its last declaration, or else for a built-in
function.  The compiler meets declarations in the order of evaluation, so what it knows of names at
any place is what the evaluator takes them for there.
-/

namespace ScriptEngine

/-! ## Phrases without functions and structs -/

namespace Phrase

/-- Whether the phrase is part of a program without functions and structs. -/
def isFirstOrder : Phrase → Bool
  | expr _ e => e.isFirstOrder
  | use _ => true
  | exprs es => Expr.allFirstOrder es
  | pairs ps => Expr.pairsFirstOrder ps
  | zero ty => ty.isFirstOrder
  | branch body | block body => Stmt.allFirstOrder body
  | otherwise (some body) => Stmt.allFirstOrder body
  | otherwise none => true
  | stmt s => s.isFirstOrder
  | stmts ss => Stmt.allFirstOrder ss
  | fields _ _ | field _ _ | zeros _ | closure _ _ _ => false

/-- The declared names after the phrase. -/
def names : Phrase → List String → List String
  | expr _ e, ns => e.names .evaluated ns
  | exprs es, ns => Expr.namesAll .evaluated es ns
  | pairs ps, ns => Expr.namesPairs .evaluated ps ns
  | branch body, ns | block body, ns => Stmt.namesAll .evaluated body ns
  | otherwise (some body), ns => Stmt.namesAll .evaluated body ns
  | stmt s, ns => s.names .evaluated ns
  | stmts ss, ns => Stmt.namesAll .evaluated ss ns
  | _, ns => ns

theorem names_binary (b : Option String) (op : InfixOp) (l r : Expr) (ns : List String) :
    (expr b (.binary op l r)).names ns =
      if op.isRightFirst then
        (expr none l).names ((expr none r).names ns)
      else
        (expr none r).names ((expr none l).names ns) :=
  rfl

theorem names_call (b : Option String) (callee : Expr) (arguments : List Expr)
    (overload : Option String) (ns : List String) :
    (expr b (.call callee arguments overload)).names ns =
      (exprs arguments).names
        (if (callee.calleeName? overload).isNone then (expr none callee).names ns else ns) :=
  rfl

end Phrase

theorem Expr.isFirstOrder_cond {condition : Expr} {consequence : List Stmt}
    {alternative : Option (List Stmt)}
    (h : (cond condition consequence alternative).isFirstOrder = true) :
    condition.isFirstOrder = true ∧ Stmt.allFirstOrder consequence = true ∧
      (Phrase.otherwise alternative).isFirstOrder = true := by
  cases alternative with
  | some body =>
      obtain ⟨hboth, hbody⟩ := Bool.and_eq_true_iff.mp h
      exact ⟨(Bool.and_eq_true_iff.mp hboth).1, (Bool.and_eq_true_iff.mp hboth).2, hbody⟩
  | none =>
      obtain ⟨hboth, -⟩ := Bool.and_eq_true_iff.mp h
      exact ⟨(Bool.and_eq_true_iff.mp hboth).1, (Bool.and_eq_true_iff.mp hboth).2, rfl⟩

theorem InfixOp.isRightFirst_eq (op : InfixOp) : op.isRightFirst = op.isSwapped := by
  cases op <;> rfl

/-! ## What the compiler knows of names -/

/-- The symbol of a name stands for what the evaluator takes the name for. -/
def Symbol.StandsFor (x : Symbol) (ns : List String) (name : String) : Prop :=
  match slot? ns name with
  | some slot => x.storage = .global ∧ x.index = slot
  | none => x.storage = .builtin ∧ ∃ b, Builtin.ofIndex? x.index = some b ∧
      Builtin.ofName? name = some b

/-- What a program may assign to is a variable. -/
theorem Symbol.StandsFor.of_isAssignable {x : Symbol} {ns : List String} {name : String}
    (h : x.StandsFor ns name) (hx : x.isAssignable = true) :
    ∃ slot, slot? ns name = some slot ∧ x.storage = .global ∧ x.index = slot := by
  unfold StandsFor at h
  cases hslot : slot? ns name with
  | some slot =>
      rw [hslot] at h
      exact ⟨slot, rfl, h⟩
  | none =>
      rw [hslot] at h
      simp [isAssignable, h.1, Storage.isDeclared] at hx

/-- The compiler is at the top level and has the given names declared. -/
structure Env.Knows (E : Env) (ns : List String) : Prop where
  top : E.chain.enclosing = []
  isGlobal : E.chain.current.isGlobal = true
  definitions : E.chain.current.definitions = ns.length
  get? : ∀ name x, E.chain.current.get? name = some x → x.StandsFor ns name

namespace Env.Knows

variable {E E' : Env} {ns : List String}

theorem keep (hE : E.Knows ns) (v : Value) : (E.keep v).Knows ns :=
  ⟨hE.top, hE.isGlobal, hE.definitions, hE.get?⟩

/-- At the top level nothing is captured. -/
theorem resolve? (hE : E.Knows ns) {name : String} {x : Symbol}
    (h : E.resolve? name = some (x, E')) : E' = E ∧ x.StandsFor ns name := by
  simp only [Env.resolve?, ScopeChain.resolve?, hE.top, ScopeChain.resolveFrom?, Option.map_map,
    Option.map_eq_some_iff] at h
  obtain ⟨y, hy, hpair⟩ := h
  simp only [Function.comp_apply, Prod.mk.injEq] at hpair
  obtain ⟨rfl, rfl⟩ := hpair
  refine ⟨?_, hE.get? name y hy⟩
  have htop := hE.top
  obtain ⟨pool, ⟨current, enclosing⟩, structs, hoisted⟩ := E
  cases htop
  rfl

theorem define (hE : E.Knows ns) (name : String) (isMutable : Bool) (ty : Option Ty) :
    (E.define name isMutable ty).2.Knows (name :: ns) := by
  refine ⟨hE.top, hE.isGlobal, ?_, fun other x hx => ?_⟩
  · change E.chain.current.definitions + 1 = ns.length + 1
    rw [hE.definitions]
  · change ((E.chain.current.define name isMutable ty).2.get? other) = some x at hx
    rw [Scope.get?_define] at hx
    unfold Symbol.StandsFor slot?
    by_cases hname : name = other
    · rw [if_pos hname] at hx ⊢
      cases hx
      simp [Scope.define, Scope.nextSymbol, hE.isGlobal, hE.definitions]
    · rw [if_neg hname] at hx ⊢
      exact hE.get? other x hx

/-- The symbol of a new variable stands for the next slot. -/
theorem define_symbol (hE : E.Knows ns) (name : String) (isMutable : Bool) (ty : Option Ty) :
    (E.define name isMutable ty).1.storage = .global ∧
      (E.define name isMutable ty).1.index = ns.length := by
  simp [Env.define, ScopeChain.define, Scope.define, Scope.nextSymbol, hE.isGlobal,
    hE.definitions]

/-- Blocks without functions bind nothing beforehand. -/
theorem hoist? {ss : List Stmt} (hss : Stmt.allFirstOrder ss = true)
    (h : E.hoist? ss = some E') : E' = E := by
  induction ss with
  | nil =>
      cases h
      rfl
  | cons s ss ih =>
      have hboth : s.isFirstOrder = true ∧ Stmt.allFirstOrder ss = true :=
        Bool.and_eq_true_iff.mp hss
      cases s with
      | function header body => cases hboth.1
      | _ => exact ih hboth.2 h

end Env.Knows

/-- The compiler starts with the built-in functions. -/
theorem Scope.standsFor_withBuiltins {name : String} {x : Symbol}
    (h : withBuiltins.get? name = some x) : x.StandsFor [] name := by
  -- the statement is kept as the built-in functions are bound one by one
  have hfold : ∀ (bs : List (Builtin × Nat)) (s : Scope),
      (∀ b ∈ bs, Builtin.ofIndex? b.2 = some b.1) →
      (∀ name x, s.get? name = some x → x.StandsFor [] name) →
      ∀ name x, (bs.foldl (fun s b => (s.defineBuiltin b.2 b.1.name).2) s).get? name = some x →
        x.StandsFor [] name := by
    intro bs
    induction bs with
    | nil => exact fun s _ hs => hs
    | cons b bs ih =>
        intro s hbs hs
        refine ih _ (fun b' hb' => hbs b' (List.mem_cons_of_mem _ hb')) ?_
        intro other y hy
        have hbind := Scope.get?_bind s (s.defineBuiltin b.2 b.1.name).1 other
        rw [show (s.defineBuiltin b.2 b.1.name).2.get? other = _ from hbind] at hy
        split at hy
        · rename_i hname
          cases hy
          subst hname
          exact ⟨rfl, b.1, hbs b List.mem_cons_self, Builtin.ofName?_name b.1⟩
        · exact hs other y hy
  refine hfold Builtin.all.zipIdx (empty true) ?_ (by simp) name x h
  intro b hb
  exact List.mem_zipIdx_iff_getElem?.mp hb

theorem Env.knows_withBuiltins {E : Env} (h : E.chain = .ofScope .withBuiltins) : E.Knows [] := by
  have hglobal : Scope.withBuiltins.isGlobal = true := by decide +kernel
  have hdefinitions : Scope.withBuiltins.definitions = 0 := by decide +kernel
  obtain ⟨pool, chain, structs, hoisted⟩ := E
  subst h
  exact ⟨rfl, hglobal, hdefinitions, fun _ _ => Scope.standsFor_withBuiltins⟩

namespace Compiles

/-- Compiling a phrase declares the names that it declares when it is evaluated. -/
theorem knows {E E' : Env} {p : Phrase} {t : Assembly} {ns : List String}
    (h : Compiles E p t E') (hfirst : p.isFirstOrder = true) (hE : E.Knows ns) :
    E'.Knows (p.names ns) := by
  induction h generalizing ns with
  | int | float | str | zeroInt | zeroFloat | zeroString => exact hE.keep _
  | boolTrue | boolFalse | null | nothing | exprsNil | pairsNil | zeroBool | zeroNull | zeroFunc
  | zeroArray | zeroHash | stmtsNil => exact hE
  | use resolved _ =>
      rw [(hE.resolve? resolved).1]
      exact hE
  | ident _ ih | unary _ ih | branch _ _ ih | otherwise _ ih | array _ ih | hash _ ih | expr _ ih
  | inner _ ih => exact ih hfirst hE
  | binary inOrder _ _ ihl ihr =>
      obtain ⟨hl, hr⟩ := Bool.and_eq_true_iff.mp hfirst
      rw [Phrase.names_binary, InfixOp.isRightFirst_eq, inOrder]
      exact ihr hr (ihl hl hE)
  | swapped reversed _ _ ihr ihl =>
      obtain ⟨hl, hr⟩ := Bool.and_eq_true_iff.mp hfirst
      rw [Phrase.names_binary, InfixOp.isRightFirst_eq, reversed]
      exact ihl hl (ihr hr hE)
  | @cond _ _ _ _ _ c yes no _ _ _ _ _ _ ihc ihyes ihno =>
      obtain ⟨hc, hyes, hno⟩ := Expr.isFirstOrder_cond hfirst
      have hknows := ihno hno (ihyes hyes (ihc hc hE))
      cases no <;> exact hknows
  | callNamed named _ _ ihname ihvalues =>
      obtain ⟨-, hvalues⟩ := Bool.and_eq_true_iff.mp hfirst
      rw [Phrase.names_call, named]
      exact ihvalues hvalues (ihname rfl hE)
  | callValue unnamed _ _ ihcallee ihvalues =>
      obtain ⟨hcallee, hvalues⟩ := Bool.and_eq_true_iff.mp hfirst
      rw [Phrase.names_call, unnamed]
      exact ihvalues hvalues (ihcallee hcallee hE)
  | index _ _ ih₁ ih₂ | exprsCons _ _ ih₁ ih₂ | stmtsCons _ _ ih₁ ih₂ | loop _ _ _ ih₁ ih₂ =>
      obtain ⟨h₁, h₂⟩ := Bool.and_eq_true_iff.mp hfirst
      exact ih₂ h₂ (ih₁ h₁ hE)
  | pairsCons _ _ _ ihk ihv ihrest | setIndex _ _ _ ihk ihv ihrest =>
      obtain ⟨hboth, hrest⟩ := Bool.and_eq_true_iff.mp hfirst
      obtain ⟨hk, hv⟩ := Bool.and_eq_true_iff.mp hboth
      exact ihrest hrest (ihv hv (ihk hk hE))
  | declare _ _ _ ih =>
      obtain ⟨-, he⟩ := Bool.and_eq_true_iff.mp hfirst
      exact (ih he hE).define _ _ _
  | declareZero _ _ _ ih =>
      obtain ⟨hty, -⟩ := Bool.and_eq_true_iff.mp hfirst
      exact (ih hty hE).define _ _ _
  | assign resolved _ _ _ ih =>
      obtain ⟨rfl, -⟩ := hE.resolve? resolved
      exact ih hfirst hE
  | block hoisted _ ih =>
      obtain rfl := Env.Knows.hoist? hfirst hoisted
      exact ih hfirst hE
  | function | struct | select | fieldsNil | fieldsCons | fieldGiven | fieldLater | fieldZero
  | zeroStruct | zerosNil | zerosCons | closure | setField | ret | retNull | declareFunction
  | structType => cases hfirst

end Compiles

end ScriptEngine
