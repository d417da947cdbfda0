import Mathlib.Data.List.Pairwise
import Mathlib.Data.Set.Insert
import ScriptEngine.Proofs.Compile.Following
import ScriptEngine.Proofs.Language.Outline

/-!
# Names that an accepted program declares

The compiler refuses a declaration whose name the function scope has declared already, at two
places: when it binds the functions of a block and before it compiles the initializer of a variable.
It does not look at repeated parameters, and not again after the initializer.  These are the only
two ways in which an accepted program introduces a name twice in one function scope
(`compileProgram_nodup_iff`).
-/

namespace ScriptEngine

/-! ## The names that a scope has declared -/

namespace Scope

/-- The names that took a slot of the scope when they were declared. -/
def declared (s : Scope) : Set String :=
  { name | ∃ x, s.get? name = some x ∧ x.storage.isDeclared = true }

theorem mem_declared {s : Scope} {name : String} :
    name ∈ s.declared ↔ ∃ x, s.get? name = some x ∧ x.storage.isDeclared = true :=
  Iff.rfl

/-- Every symbol is bound to its own name. -/
def Named (s : Scope) : Prop :=
  ∀ name x, s.get? name = some x → x.name = name

theorem named_bind {s : Scope} (hs : s.Named) (x : Symbol) : (s.bind x).Named := by
  intro name y hy
  rw [get?_bind] at hy
  by_cases hname : x.name = name
  · rw [if_pos hname] at hy
    exact Option.some.inj hy ▸ hname
  · rw [if_neg hname] at hy
    exact hs name y hy

theorem declared_define (s : Scope) (name : String) (isMutable : Bool) (ty : Option Ty) :
    (s.define name isMutable ty).2.declared = insert name s.declared := by
  ext other
  simp only [Set.mem_insert_iff, mem_declared, get?_define]
  by_cases hname : name = other
  · subst hname
    have hslot : (s.define name isMutable ty).1.storage.isDeclared = true := by
      cases hglobal : s.isGlobal <;> simp [define, nextSymbol, Storage.isDeclared, hglobal]
    simp [hslot]
  · simp [hname, Ne.symm hname]

/-- What is captured is not declared. -/
theorem declared_capture {s : Scope} {x : Symbol} (hfree : s.get? x.name = none) :
    (s.capture x).2.declared = s.declared := by
  ext other
  simp only [mem_declared, get?_capture]
  by_cases hname : x.name = other
  · subst hname
    simp [hfree, capture, Storage.isDeclared]
  · simp [hname]

theorem declared_empty (isGlobal : Bool) : (empty isGlobal).declared = ∅ := by
  ext name
  simp [mem_declared]

theorem declared_defineSelf_empty (name : String) (ty : Option Ty) :
    ((empty false).defineSelf name ty).2.declared = ∅ := by
  ext other
  by_cases hname : name = other
  · simp [mem_declared, hname, defineSelf, Storage.isDeclared]
  · simp [mem_declared, hname]

theorem named_empty (isGlobal : Bool) : (empty isGlobal).Named := by
  intro name x hx
  simp at hx

theorem named_withBuiltins : withBuiltins.Named := by
  -- binding built-in functions one by one keeps what is said
  have hfold : ∀ (bs : List (Builtin × Nat)) (s : Scope), s.Named →
      (bs.foldl (fun s b => (s.defineBuiltin b.2 b.1.name).2) s).Named := by
    intro bs
    induction bs with
    | nil => exact fun s hs => hs
    | cons b bs ih => exact fun s hs => ih _ (named_bind hs _)
  exact hfold _ _ (named_empty true)

end Scope

namespace ScopeChain

/-- Every symbol of every open scope is bound to its own name. -/
def Named (c : ScopeChain) : Prop :=
  ∀ s ∈ c.current :: c.enclosing, s.Named

theorem conflict?_eq_none_iff {c : ScopeChain} {name : String} :
    c.conflict? name = none ↔ name ∉ c.current.declared := by
  simp only [conflict?, Scope.mem_declared, Option.filter_eq_none_iff]
  constructor
  · rintro h ⟨x, hx, hdeclared⟩
    exact h x hx hdeclared
  · intro h x hx hdeclared
    exact h ⟨x, hx, hdeclared⟩

/-- Resolving a name declares nothing in any scope. -/
theorem declared_resolveFrom? {name : String} {s s' : Scope} {outer outer' : List Scope}
    {r : Resolution} (hnamed : ∀ s₁ ∈ s :: outer, s₁.Named)
    (h : resolveFrom? name s outer = some (r, s', outer')) :
    r.symbol.name = name ∧ s'.declared = s.declared ∧
      outer'.map Scope.declared = outer.map Scope.declared ∧ ∀ s₁ ∈ s' :: outer', s₁.Named := by
  induction outer generalizing s s' outer' r with
  | nil =>
      simp only [resolveFrom?, Option.map_eq_some_iff, Prod.mk.injEq] at h
      obtain ⟨x, hx, rfl, rfl, rfl⟩ := h
      exact ⟨hnamed s List.mem_cons_self name x hx, rfl, rfl, hnamed⟩
  | cons s₁ outer ih =>
      rw [resolveFrom?] at h
      split at h
      · rename_i x hx
        simp only [Option.some.injEq, Prod.mk.injEq] at h
        obtain ⟨rfl, rfl, rfl⟩ := h
        exact ⟨hnamed s List.mem_cons_self name x hx, rfl, rfl, hnamed⟩
      · rename_i hget
        split at h
        · cases h
        · rename_i found s₂ outer₂ hfound
          obtain ⟨hname, hhead, htail, houter⟩ :=
            ih (fun s₃ hs₃ => hnamed s₃ (List.mem_cons_of_mem _ hs₃)) hfound
          have henclosing : (s₂ :: outer₂).map Scope.declared =
              (s₁ :: outer).map Scope.declared := by
            rw [List.map_cons, List.map_cons, hhead, htail]
          have hs := hnamed s List.mem_cons_self
          split at h
          · simp only [Option.some.injEq, Prod.mk.injEq] at h
            obtain ⟨rfl, rfl, rfl⟩ := h
            exact ⟨hname, rfl, henclosing, List.forall_mem_cons.mpr ⟨hs, houter⟩⟩
          · simp only [Option.some.injEq, Prod.mk.injEq] at h
            obtain ⟨rfl, rfl, rfl⟩ := h
            rw [← hname] at hget
            exact ⟨hname, Scope.declared_capture hget, henclosing,
              List.forall_mem_cons.mpr ⟨Scope.named_bind hs _, houter⟩⟩

end ScopeChain

/-! ## What compiling a phrase declares -/

/-- From one environment to the other, names of the given outlines and no others are declared in the
current scope, none of which it had declared before; nothing is declared further out. -/
structure Introduces (E : Env) (os : List Outline) (E' : Env) : Prop where
  current : ∀ name, name ∈ E'.chain.current.declared ↔
    name ∈ E.chain.current.declared ∨ ∃ o ∈ os, name ∈ o.names
  enclosing : E'.chain.enclosing.map Scope.declared = E.chain.enclosing.map Scope.declared
  fresh : ∀ o ∈ os, ∀ name ∈ o.names, name ∉ E.chain.current.declared
  apart : os.Pairwise fun o p => List.Disjoint o.names p.names
  settled : ∀ o ∈ os, o.Settled
  named : E'.chain.Named

namespace Introduces

variable {E E₁ E₂ E₃ E' : Env} {o p : Outline} {os ps : List Outline}

theorem of_same (hnamed : E'.chain.Named)
    (hcurrent : E'.chain.current.declared = E.chain.current.declared)
    (henclosing : E'.chain.enclosing.map Scope.declared = E.chain.enclosing.map Scope.declared) :
    Introduces E [] E' where
  current := by simp [hcurrent]
  enclosing := henclosing
  fresh := by simp
  apart := List.Pairwise.nil
  settled := by simp
  named := hnamed

theorem append (h₁ : Introduces E₁ os E₂) (h₂ : Introduces E₂ ps E₃) :
    Introduces E₁ (os ++ ps) E₃ where
  current := by
    intro name
    simp only [h₂.current, h₁.current, List.mem_append, or_and_right, exists_or, or_assoc]
  enclosing := h₂.enclosing.trans h₁.enclosing
  fresh := by
    intro o ho name hname hdeclared
    rcases List.mem_append.mp ho with ho | ho
    · exact h₁.fresh o ho name hname hdeclared
    · exact h₂.fresh o ho name hname ((h₁.current name).mpr (.inl hdeclared))
  apart := by
    refine List.pairwise_append.mpr ⟨h₁.apart, h₂.apart, ?_⟩
    intro o ho p hp name hname hother
    exact h₂.fresh p hp name hother ((h₁.current name).mpr (.inr ⟨o, ho, hname⟩))
  settled := by
    intro o ho
    rcases List.mem_append.mp ho with ho | ho
    · exact h₁.settled o ho
    · exact h₂.settled o ho
  named := h₂.named

/-- Another reading of the same declarations. -/
theorem congr (h : Introduces E os E')
    (hnames : ∀ name, (∃ o ∈ os, name ∈ o.names) ↔ ∃ p ∈ ps, name ∈ p.names)
    (hapart : ps.Pairwise fun o p => List.Disjoint o.names p.names)
    (hsettled : ∀ p ∈ ps, p.Settled) : Introduces E ps E' where
  current := by
    intro name
    rw [h.current, hnames]
  enclosing := h.enclosing
  fresh := by
    intro p hp name hname hdeclared
    obtain ⟨o, ho, hname'⟩ := (hnames name).mpr ⟨p, hp, hname⟩
    exact h.fresh o ho name hname' hdeclared
  apart := hapart
  settled := hsettled
  named := h.named

theorem join (h : Introduces E os E') : Introduces E [.join os] E' := by
  refine h.congr ?_ (List.pairwise_singleton _ _) ?_
  · intro name
    simp
  · intro p hp
    rw [List.mem_singleton] at hp
    exact hp ▸ Outline.settled_join h.settled h.apart

theorem empty (h : Introduces E [] E') : Introduces E [.empty] E' := by
  exact h.join

theorem two (h₁ : Introduces E₁ [o] E₂) (h₂ : Introduces E₂ [p] E₃) :
    Introduces E₁ [o ++ p] E₃ :=
  (h₁.append h₂).join

theorem perm (h : Introduces E [o] E') (hdeclarations : o.declarations.Perm p.declarations)
    (hfunctions : ∀ s ∈ p.functions, s ∈ o.functions) : Introduces E [p] E' := by
  refine h.congr ?_ (List.pairwise_singleton _ _) ?_
  · intro name
    have hmem := (hdeclarations.map Declaration.name).mem_iff (a := name)
    simpa [Outline.names] using hmem
  · intro q hq
    rw [List.mem_singleton] at hq
    exact hq ▸ (h.settled o List.mem_cons_self).perm hdeclarations hfunctions

theorem of_chain_eq (hE : E.chain.Named) (hchain : E'.chain = E.chain) : Introduces E [] E' :=
  of_same (hchain ▸ hE) (by rw [hchain]) (by rw [hchain])

theorem nothing (hE : E.chain.Named) (hchain : E'.chain = E.chain) : Introduces E [.empty] E' :=
  (of_chain_eq hE hchain).empty

theorem after_chain_eq (h : Introduces E os E₁) (hchain : E'.chain = E₁.chain) :
    Introduces E os E' := by
  simpa using h.append (of_chain_eq h.named hchain)

theorem before_chain_eq (h : Introduces E₁ os E') (hchain : E₁.chain = E.chain) :
    Introduces E os E' :=
  ⟨hchain ▸ h.current, hchain ▸ h.enclosing, hchain ▸ h.fresh, h.apart, h.settled, h.named⟩

theorem resolve? {name : String} {x : Symbol} (hE : E.chain.Named)
    (h : E.resolve? name = some (x, E')) : Introduces E [] E' := by
  simp only [Env.resolve?, Option.map_eq_some_iff, Prod.mk.injEq] at h
  obtain ⟨⟨r, chain⟩, hfound, -, rfl⟩ := h
  obtain ⟨-, hcurrent, henclosing, hnamed⟩ :=
    ScopeChain.declared_resolveFrom? hE (ScopeChain.resolve?_eq_some hfound)
  exact of_same hnamed hcurrent henclosing

/-- The order in which two parts are compiled does not matter. -/
theorem comm (h : Introduces E [o ++ p] E') : Introduces E [p ++ o] E' := by
  refine h.perm ?_ fun s hs => ?_
  · rw [Outline.declarations_append, Outline.declarations_append]
    exact List.perm_append_comm
  · rw [Outline.functions_append, List.mem_append] at hs ⊢
    exact hs.symm

/-- A declaration, after what its initializer declares. -/
theorem declare {name : String} (h : Introduces E [o] E') (hname : E.chain.conflict? name = none)
    (isMutable : Bool) (ty : Option Ty) :
    Introduces E [o ++ .declare name o.names] (E'.define name isMutable ty).2 where
  current := by
    intro other
    have hdefine : other ∈ (E'.define name isMutable ty).2.chain.current.declared ↔
        other = name ∨ other ∈ E'.chain.current.declared := by
      change other ∈ (E'.chain.current.define name isMutable ty).2.declared ↔ _
      rw [Scope.declared_define, Set.mem_insert_iff]
    rw [hdefine, h.current]
    simp only [List.mem_singleton, exists_eq_left, Outline.names_append, Outline.names_declare,
      List.mem_append]
    tauto
  enclosing := h.enclosing
  fresh := by
    intro p hp other hother hdeclared
    rw [List.mem_singleton] at hp
    subst hp
    rw [Outline.names_append, Outline.names_declare, List.mem_append, List.mem_singleton] at hother
    rcases hother with hother | rfl
    · exact h.fresh o List.mem_cons_self other hother hdeclared
    · exact ScopeChain.conflict?_eq_none_iff.mp hname hdeclared
  apart := List.pairwise_singleton _ _
  settled := by
    intro p hp
    rw [List.mem_singleton] at hp
    exact hp ▸ (h.settled o List.mem_cons_self).declare name
  named := by
    intro s hs
    rcases List.mem_cons.mp hs with rfl | hs
    · exact Scope.named_bind (h.named _ List.mem_cons_self) _
    · exact h.named s (List.mem_cons_of_mem _ hs)

end Introduces

/-- Binding the functions of a block declares their names. -/
theorem Introduces.hoist? {E E' : Env} {ss : List Stmt} (hE : E.chain.Named)
    (h : E.hoist? ss = some E') :
    Introduces E [.ofNames (ss.filterMap Stmt.functionName?)] E' := by
  induction ss generalizing E with
  | nil =>
      obtain rfl := Option.some.inj h
      exact .nothing hE rfl
  | cons s ss ih =>
      cases s with
      | function header body =>
          rw [Env.hoist?] at h
          split at h
          · cases h
          · rename_i hconflict
            have hfresh : E.chain.conflict? header.boundName = none := by simpa using hconflict
            have hdefine := (Introduces.nothing hE rfl).declare hfresh false
              (some header.signature.ty)
            rw [Outline.empty_append] at hdefine
            have hrest := ih (by exact hdefine.named) h
            have hall := hdefine.two (hrest.before_chain_eq rfl)
            rwa [Outline.names_empty, Outline.declare_append_ofNames] at hall
      | _ => exact ih hE h

/-! ## Functions -/

namespace Env

theorem declared_withParameters (E : Env) (hE : E.chain.Named) (parameters : List (String × Ty)) :
    (∀ name, name ∈ (E.withParameters parameters).chain.current.declared ↔
      name ∈ E.chain.current.declared ∨ name ∈ parameters.map Prod.fst) ∧
      (E.withParameters parameters).chain.enclosing = E.chain.enclosing ∧
      (E.withParameters parameters).chain.Named := by
  induction parameters generalizing E with
  | nil => exact ⟨by simp [withParameters], rfl, hE⟩
  | cons p parameters ih =>
      have hnamed : (E.define p.1 false (some p.2)).2.chain.Named := by
        intro s hs
        rcases List.mem_cons.mp hs with rfl | hs
        · exact Scope.named_bind (hE _ List.mem_cons_self) _
        · exact hE s (List.mem_cons_of_mem _ hs)
      obtain ⟨hcurrent, henclosing, hrest⟩ := ih _ hnamed
      refine ⟨fun name => ?_, henclosing, hrest⟩
      have hdefine : name ∈ (E.define p.1 false (some p.2)).2.chain.current.declared ↔
          name = p.1 ∨ name ∈ E.chain.current.declared := by
        change name ∈ (E.chain.current.define p.1 false (some p.2)).2.declared ↔ _
        rw [Scope.declared_define, Set.mem_insert_iff]
      rw [withParameters, hcurrent, hdefine, List.map_cons, List.mem_cons]
      tauto

/-- At the beginning of a body its parameters are declared. -/
theorem declared_enter (E : Env) (hE : E.chain.Named) (name : Option String)
    (signature : Signature) :
    (∀ other, other ∈ (E.enter name signature).chain.current.declared ↔
      other ∈ signature.parameters.map Prod.fst) ∧
      (E.enter name signature).chain.enclosing = E.chain.current :: E.chain.enclosing ∧
      (E.enter name signature).chain.Named := by
  have hparameters (s : Scope) (hs : s.Named) (hnone : s.declared = ∅) :=
    declared_withParameters
      { E with chain := ⟨s, E.chain.current :: E.chain.enclosing⟩, hoisted := ∅ }
      (List.forall_mem_cons.mpr ⟨hs, hE⟩) signature.parameters
  cases name with
  | none =>
      obtain ⟨hcurrent, henclosing, hnamed⟩ :=
        hparameters (.empty false) (Scope.named_empty _) (Scope.declared_empty _)
      refine ⟨fun other => (hcurrent other).trans ?_, henclosing, hnamed⟩
      simp [Scope.declared_empty]
  | some self =>
      obtain ⟨hcurrent, henclosing, hnamed⟩ :=
        hparameters ((Scope.empty false).defineSelf self (some signature.ty)).2
          (Scope.named_bind (Scope.named_empty _) _) (Scope.declared_defineSelf_empty _ _)
      refine ⟨fun other => (hcurrent other).trans ?_, henclosing, hnamed⟩
      simp [Scope.declared_defineSelf_empty]

end Env

/-- A function declares nothing in the scope around it. -/
theorem Introduces.closure {E E₁ E' : Env} {name : Option String} {signature : Signature}
    {o : Outline} {scope : Scope} (hE : E.chain.Named)
    (hbody : Introduces (E.enter name signature) [o] E₁)
    (hpop : E₁.chain.pop? = some (scope, E'.chain)) :
    Introduces E [.closure signature.parameters o] E' := by
  obtain ⟨hcurrent, henclosing, -⟩ := E.declared_enter hE name signature
  obtain ⟨hscope, hchain⟩ : E₁.chain.current = scope ∧
      E₁.chain.enclosing = E'.chain.current :: E'.chain.enclosing := by
    unfold ScopeChain.pop? at hpop
    split at hpop
    · cases hpop
    · rename_i hrest
      obtain ⟨h₁, h₂⟩ := Prod.mk.inj (Option.some.inj hpop)
      rw [hrest, ← h₂]
      exact ⟨h₁, rfl⟩
  have hdeclared := hbody.enclosing
  rw [hchain, henclosing, List.map_cons, List.map_cons, List.cons.injEq] at hdeclared
  have hnamed : E'.chain.Named := by
    intro s hs
    rw [← hchain] at hs
    exact hbody.named s (List.mem_cons_of_mem _ hs)
  have hsettled : (Outline.closure signature.parameters o).Settled := by
    refine (hbody.settled o List.mem_cons_self).closure fun other hother hparameter => ?_
    exact hbody.fresh o List.mem_cons_self other hother ((hcurrent other).mpr hparameter)
  refine (Introduces.of_same hnamed hdeclared.1 hdeclared.2).congr
    ?_ (List.pairwise_singleton _ _) ?_
  · simp
  · intro p hp
    rw [List.mem_singleton] at hp
    exact hp ▸ hsettled

theorem Env.chain_structConstant (E : Env) (type : StructType) :
    (E.structConstant type).2.chain = E.chain := by
  rw [structConstant]
  split <;> rfl

/-- The declaration of a function that is bound already: it was still to be declared, and no longer
is. -/
theorem Env.declared?_eq {E E' : Env} {header : FunctionHeader} {x : Symbol}
    (hbound : header.boundName ∈ E.chain.current.declared)
    (h : E.declared? header = some (x, E')) :
    header.boundName ∈ E.hoisted ∧ E.chain.current.get? header.boundName = some x ∧
      E' = { E with hoisted := E.hoisted.erase header.boundName } := by
  have hconflict : (E.chain.conflict? header.boundName).isSome = true := by
    rw [Option.isSome_iff_ne_none]
    exact fun hnone => ScopeChain.conflict?_eq_none_iff.mp hnone hbound
  simp only [Env.declared?, hconflict, if_true] at h
  split at h
  next y hy =>
    obtain ⟨rfl, rfl⟩ := Prod.mk.inj (Option.some.inj h)
    split at hy
    next hcontains => exact ⟨Std.TreeSet.contains_iff_mem.mp hcontains, hy, rfl⟩
    next => cases hy
  next => cases h

/-- The fields of a struct literal declare what its initializers declare. -/
theorem Introduces.struct {E E' : Env} {fs : List (String × Ty)}
    {initializers : List (String × Expr)}
    (hknown : ∀ i ∈ initializers, ∃ f ∈ fs, f.1 = i.1)
    (h : Introduces E (fs.map fun f => Expr.fieldOutline f.1 initializers) E') :
    Introduces E [Expr.initializerOutlines [] initializers] E' := by
  rw [Expr.initializerOutlines_eq]
  have hfield (i : String × Expr) (hi : i ∈ Expr.firsts [] initializers) :
      ∃ f ∈ fs, f.1 = i.1 ∧ Expr.fieldOutline f.1 initializers = i.2.outline := by
    obtain ⟨f, hf, hname⟩ := hknown i (Expr.mem_of_mem_firsts hi)
    exact ⟨f, hf, hname, hname ▸ Expr.fieldOutline_of_mem_firsts hi⟩
  refine (h.congr ?_ ?_ ?_).join
  · intro name
    constructor
    · rintro ⟨o, ho, hname⟩
      obtain ⟨f, -, rfl⟩ := List.mem_map.mp ho
      obtain ⟨i, hi, hmem⟩ := Expr.exists_mem_firsts List.not_mem_nil hname
      exact ⟨_, List.mem_map.mpr ⟨i, hi, rfl⟩, hmem⟩
    · rintro ⟨o, ho, hname⟩
      obtain ⟨i, hi, rfl⟩ := List.mem_map.mp ho
      obtain ⟨f, hf, -, heq⟩ := hfield i hi
      exact ⟨_, List.mem_map.mpr ⟨f, hf, rfl⟩, heq ▸ hname⟩
  · rw [List.pairwise_map]
    refine (Expr.pairwise_firsts [] initializers).imp_of_mem fun {i j} hi hj hne => ?_
    obtain ⟨f, hf, hfi, hi⟩ := hfield i hi
    obtain ⟨g, hg, hgj, hj⟩ := hfield j hj
    rw [← hi, ← hj]
    have hfg : f ≠ g := by
      rintro rfl
      exact hne (hfi.symm.trans hgj)
    have hsymm : Std.Symm fun f g : String × Ty =>
        (Expr.fieldOutline f.1 initializers).names.Disjoint
          (Expr.fieldOutline g.1 initializers).names := ⟨fun _ _ => List.disjoint_symm⟩
    exact (List.pairwise_map.mp h.apart).forall hf hg hfg
  · intro o ho
    obtain ⟨i, hi, rfl⟩ := List.mem_map.mp ho
    obtain ⟨f, hf, -, heq⟩ := hfield i hi
    exact heq ▸ h.settled _ (List.mem_map.mpr ⟨f, hf, rfl⟩)

/-! ## All phrases -/

namespace Phrase

/-- What is declared when a phrase is compiled. -/
def outlines : Phrase → List Outline
  | .expr _ e => [e.outline]
  | .exprs es => [Expr.outlines es]
  | .pairs ps => [Expr.pairOutlines ps]
  | .fields fs initializers => fs.map fun f => Expr.fieldOutline f.1 initializers
  | .field f initializers => [Expr.fieldOutline f.1 initializers]
  | .branch body | .block body | .otherwise (some body) => [Stmt.outlines body]
  | .closure _ signature body => [.closure signature.parameters (Stmt.outlines body)]
  | .stmt s => [s.later]
  | .stmts ss => [.join (ss.map Stmt.later)]
  | .use _ | .zero _ | .zeros _ | .otherwise none => [.empty]

/-- The functions that statements declare are bound already. -/
def Bound (E : Env) : Phrase → Prop
  | .stmt s => ∀ name, s.functionName? = some name → name ∈ E.chain.current.declared
  | .stmts ss => ∀ name ∈ ss.filterMap Stmt.functionName?, name ∈ E.chain.current.declared
  | _ => True

section

variable {E E' : Env} {s : Stmt} {ss : List Stmt}

theorem Bound.head (h : (stmts (s :: ss)).Bound E) : (stmt s).Bound E := by
  intro name hname
  exact h name (List.mem_filterMap.mpr ⟨s, List.mem_cons_self, hname⟩)

/-- Functions stay bound whatever the statements before them introduce. -/
theorem Bound.tail {os : List Outline} (h : (stmts (s :: ss)).Bound E)
    (hhead : Introduces E os E') : (stmts ss).Bound E' := by
  intro name hname
  obtain ⟨s', hs', hname⟩ := List.mem_filterMap.mp hname
  have hdeclared := h name (List.mem_filterMap.mpr ⟨s', List.mem_cons_of_mem _ hs', hname⟩)
  exact (hhead.current name).mpr (.inl hdeclared)

/-- Hoisting binds the functions of a block. -/
theorem bound_of_hoist? (hE : E.chain.Named) (h : E.hoist? ss = some E') :
    (stmts ss).Bound E' := by
  intro name hname
  refine ((Introduces.hoist? hE h).current name).mpr (.inr ⟨_, List.mem_cons_self, ?_⟩)
  rwa [Outline.names_ofNames]

end

end Phrase

/-- Compiling a phrase declares the names of its outline, none of which was declared before. -/
theorem Compiles.introduces {E E' : Env} {p : Phrase} {t : Assembly} (h : Compiles E p t E')
    (hE : E.chain.Named) (hp : p.Bound E) : Introduces E p.outlines E' := by
  induction h with
  | int | float | str | zeroInt | zeroFloat | zeroString => exact .nothing hE rfl
  | boolTrue | boolFalse | null | nothing | exprsNil | pairsNil | zeroBool | zeroNull
  | zeroFunc | zeroArray | zeroHash | zerosNil | retNull | stmtsNil =>
      exact .nothing hE rfl
  | structType type => exact .nothing hE rfl
  | use resolved _ => exact (Introduces.resolve? hE resolved).empty
  | ident _ ih | unary _ ih | branch _ _ ih | otherwise _ ih | function _ ih | array _ ih
  | hash _ ih | select _ _ ih | fieldZero _ ih | expr _ ih | ret _ _ ih | inner _ ih =>
      exact ih hE trivial
  | binary _ _ _ ih₁ ih₂ | index _ _ ih₁ ih₂ | exprsCons _ _ ih₁ ih₂ | setField _ _ _ ih₁ ih₂
  | loop _ _ _ ih₁ ih₂ =>
      have h₁ := ih₁ hE trivial
      exact h₁.two (ih₂ h₁.named trivial)
  | swapped _ _ _ ih₁ ih₂ =>
      have h₁ := ih₁ hE trivial
      exact (h₁.two (ih₂ h₁.named trivial)).comm
  | @cond _ _ _ _ _ _ _ no _ _ _ _ _ _ ih₁ ih₂ ih₃ =>
      have h₁ := ih₁ hE trivial
      have h₂ := ih₂ h₁.named trivial
      have h₃ := ih₃ h₂.named trivial
      cases no with
      | none =>
          have hall := h₁.two (h₂.two h₃)
          rwa [Outline.append_empty] at hall
      | some body => exact h₁.two (h₂.two h₃)
  | callNamed named _ _ ih₁ ih₂ =>
      have h₁ := ih₁ hE trivial
      have hall := h₁.two (ih₂ h₁.named trivial)
      simpa [Phrase.outlines, Expr.outline, named] using hall
  | callValue unnamed _ _ ih₁ ih₂ =>
      have h₁ := ih₁ hE trivial
      have hall := h₁.two (ih₂ h₁.named trivial)
      simpa [Phrase.outlines, Expr.outline, unnamed] using hall
  | struct known fieldsKnown _ ih =>
      refine ((ih hE trivial).struct fun i hi => ?_).after_chain_eq (Env.chain_structConstant _ _)
      have hknown := List.find?_eq_none.mp fieldsKnown i hi
      simp only [Bool.not_eq_true, Option.isNone_eq_false_iff, StructType.fieldIndex?,
        List.findIdx?_isSome, List.any_eq_true, beq_iff_eq] at hknown
      exact hknown
  | pairsCons _ _ _ ih₁ ih₂ ih₃ | setIndex _ _ _ ih₁ ih₂ ih₃ =>
      have h₁ := ih₁ hE trivial
      have h₂ := ih₂ h₁.named trivial
      exact h₁.two (h₂.two (ih₃ h₂.named trivial))
  | fieldsNil => exact .of_chain_eq hE rfl
  | fieldsCons _ _ ih₁ ih₂ =>
      have h₁ := ih₁ hE trivial
      exact h₁.append (ih₂ h₁.named trivial)
  | fieldGiven _ ih =>
      have hvalue := ih hE trivial
      simpa only [Phrase.outlines, Expr.fieldOutline, if_true] using hvalue
  | fieldLater other _ ih =>
      have hvalue := ih hE trivial
      simpa only [Phrase.outlines, Expr.fieldOutline, if_neg other] using hvalue
  | zeroStruct _ ih => exact (ih hE trivial).after_chain_eq (Env.chain_structConstant _ _)
  | zerosCons _ _ ih₁ ih₂ =>
      have h₁ := ih₁ hE trivial
      have hall := h₁.two (ih₂ h₁.named trivial)
      rwa [Outline.append_empty] at hall
  | closure _ _ _ left _ ih =>
      have hbody := ih (Env.declared_enter _ hE _ _).2.2 trivial
      exact hbody.closure hE left
  | declare fresh _ _ ih => exact (ih hE trivial).declare fresh _ _
  | @declareZero _ _ _ isMutable ty _ _ fresh _ _ ih =>
      have hall := (ih hE trivial).declare fresh isMutable ty
      rwa [Outline.empty_append] at hall
  | assign resolved _ _ _ ih =>
      have hresolve := Introduces.resolve? hE resolved
      exact hresolve.append (ih hresolve.named trivial)
  | declareFunction bound _ _ ih =>
      have hchain := congrArg Env.chain (Env.declared?_eq (hp _ rfl) bound).2.2
      have hbound := Introduces.of_chain_eq hE hchain
      exact hbound.append (ih hbound.named trivial)
  | stmtsCons _ _ ih₁ ih₂ =>
      have h₁ := ih₁ hE hp.head
      have hall := h₁.two (ih₂ h₁.named (hp.tail h₁))
      rwa [Outline.append_join] at hall
  | @block _ _ _ body _ hoisted _ ih =>
      have h₁ := Introduces.hoist? hE hoisted
      have h₂ := ih h₁.named (Phrase.bound_of_hoist? hE hoisted)
      refine (h₁.two h₂).perm (Stmt.declarations_outlines body) fun s hs => ?_
      rw [Stmt.functions_outlines] at hs
      rw [Outline.functions_append]
      exact List.mem_append_right _ hs

/-! ## Programs -/

/-- In an accepted program a name is introduced twice in one function scope only if a parameter is
repeated or if the initializer of a variable declares a variable of the same name.  In all other
scopes every name is introduced once. -/
theorem compileProgram_nodup_iff {program : Program} {unit : Bytecode}
    (h : compileProgram program = .ok unit) {s : FunctionScope}
    (hs : s ∈ functionScopes program) :
    s.names.Nodup ↔ s.parameters.Nodup ∧ ∀ d ∈ s.declarations, d.name ∉ d.within := by
  have hE : Compiler.new.env.chain.Named :=
    List.forall_mem_cons.mpr ⟨Scope.named_withBuiltins, List.forall_mem_nil _⟩
  rcases Compiler.compile_cases .withBuiltins #[] program with
    ⟨e, c, hc⟩ | ⟨_, c, t, E', -, -, -, hunit⟩
  · have herror : compileProgram program = .error (.error e) := congrArg Prod.fst hc
    rw [h] at herror
    cases herror
  · have hsettled := (hunit.rules.introduces hE trivial).settled _ List.mem_cons_self
    rcases List.mem_cons.mp hs with rfl | hs
    · simpa [FunctionScope.names, Outline.names, Outline.Clean] using hsettled.nodup
    · exact hsettled.functions s hs

/-- Functions that use the same names again, one inside the other. -/
def nestedScopes : Program :=
  [.declare "x" true none (some (.int 1)),
    .function ⟨"f", none, ⟨[("x", .int)], none⟩⟩
      [.declare "y" true none (some (.function none ⟨[("y", .int)], none⟩
        [.declare "x" true none (some (.ident "y"))])),
        .block [.declare "z" true none none]]]

theorem compileProgram_nodup_iff_nestedScopes :
    ∃ unit, compileProgram nestedScopes = .ok unit ∧
      ∀ s ∈ functionScopes nestedScopes, s.names.Nodup := by
  have haccepted : (compileProgram nestedScopes).isOk = true := by decide +kernel
  have hscopes : ∀ s ∈ functionScopes nestedScopes,
      s.parameters.Nodup ∧ ∀ d ∈ s.declarations, d.name ∉ d.within := by decide +kernel
  cases hunit : compileProgram nestedScopes with
  | error stop => simp [hunit, Except.isOk, Except.toBool] at haccepted
  | ok unit => exact ⟨unit, rfl, fun s hs => (compileProgram_nodup_iff hunit hs).mpr (hscopes s hs)⟩

/-- A variable whose initializer declares a variable of the same name, and a function with two
parameters of one name. -/
def repeatedNames : Program :=
  [.declare "x" true none (some (.cond (.bool true)
      [.declare "x" true none (some (.int 1)), .expr (.ident "x")] (some [.expr (.int 0)]))),
    .expr (.function none ⟨[("a", .int), ("a", .int)], none⟩ [.expr (.ident "a")])]

/-- Not every program that introduces a name twice in one function scope is refused. -/
theorem repeatedNames_accepted :
    (∃ unit, compileProgram repeatedNames = .ok unit) ∧
      (functionScopes repeatedNames).map FunctionScope.names = [["x", "x"], ["a", "a"]] := by
  have haccepted : (compileProgram repeatedNames).isOk = true := by decide +kernel
  constructor
  · cases hunit : compileProgram repeatedNames with
    | error stop => simp [hunit, Except.isOk, Except.toBool] at haccepted
    | ok unit => exact ⟨unit, rfl⟩
  · decide +kernel

end ScriptEngine