import ScriptEngine.Proofs.Compile.Accounts
import ScriptEngine.Proofs.Compile.Persistence
import ScriptEngine.Proofs.Compile.Splitting

/-!
# Functions of the top level

A function that is declared on the top level captures nothing, because whatever it finds outside
itself is shared: a global variable or a built-in function.  So compiling it leaves the scopes as
they are, its code is one instruction that makes the closure and one that stores it, and it does not
matter to it which functions are still to be declared.  Declarations at the beginning of a program
therefore fill the first global slots, one after another (`Compiles.declarations`).
-/

namespace ScriptEngine

/-! ## Inside a function of the top level -/

namespace Scope

/-- The scope belongs to a function.  Of the functions around it, the outermost one stands in the
scope `top` and captures nothing. -/
inductive Above (top : Scope) : Scope → List Scope → Prop
  | first {s : Scope} (nothing : s.captures = []) : Above top s [top]
  | inner {s outer : Scope} {rest : List Scope} (around : Above top outer rest) :
      Above top s (outer :: rest)

/-- Every function can reach what the names of the scope stand for. -/
def BindsShared (s : Scope) : Prop :=
  ∀ name x, s.get? name = some x → x.storage.isShared = true

/-- The names of a global scope stand for global variables and built-in functions. -/
theorem BindsCovered.bindsShared {s : Scope} (h : s.BindsCovered) (hs : s.isGlobal = true) :
    s.BindsShared := by
  intro name x hx
  have hcovers := h name x hx
  unfold Covers at hcovers
  split at hcovers <;> simp_all [Storage.isShared]

namespace Above

variable {top s s' : Scope} {rest : List Scope}

theorem of_captures_eq (h : top.Above s rest) (hs : s'.captures = s.captures) :
    top.Above s' rest := by
  cases h with
  | first nothing => exact .first (hs.trans nothing)
  | inner around => exact .inner around

theorem ne_nil (h : top.Above s rest) : rest ≠ [] := by
  cases h <;> exact List.cons_ne_nil _ _

theorem of_length_eq_one (h : top.Above s rest) (hrest : rest.length = 1) :
    s.captures = [] ∧ rest = [top] := by
  cases h with
  | first nothing => exact ⟨nothing, rfl⟩
  | inner around =>
      exact absurd (List.length_eq_zero_iff.mp (Nat.succ.inj hrest)) around.ne_nil

end Above

end Scope

namespace ScopeChain

variable {top : Scope}

/-- Resolving a name captures nothing for the function that stands in the outermost scope. -/
theorem above_resolveFrom? (htop : top.BindsShared) {name : String} {s s' : Scope}
    {outer outer' : List Scope} {r : Resolution} (hs : top.Above s outer)
    (h : resolveFrom? name s outer = some (r, s', outer')) : top.Above s' outer' := by
  induction hs generalizing s' outer' r with
  | first nothing =>
      rw [resolveFrom?] at h
      split at h
      · simp only [Option.some.injEq, Prod.mk.injEq] at h
        obtain ⟨-, rfl, rfl⟩ := h
        exact .first nothing
      · split at h
        · cases h
        next found s₁ outer₁ hfound =>
          simp only [resolveFrom?, Option.map_eq_some_iff, Prod.mk.injEq] at hfound
          obtain ⟨x, hx, rfl, rfl, rfl⟩ := hfound
          rw [if_pos (htop name x hx)] at h
          simp only [Option.some.injEq, Prod.mk.injEq] at h
          obtain ⟨-, rfl, rfl⟩ := h
          exact .first nothing
  | inner around ih =>
      rw [resolveFrom?] at h
      split at h
      · simp only [Option.some.injEq, Prod.mk.injEq] at h
        obtain ⟨-, rfl, rfl⟩ := h
        exact .inner around
      · split at h
        · cases h
        next found s₁ outer₁ hfound =>
          have houter := ih hfound
          split at h
          · simp only [Option.some.injEq, Prod.mk.injEq] at h
            obtain ⟨-, rfl, rfl⟩ := h
            exact .inner houter
          · simp only [Option.some.injEq, Prod.mk.injEq] at h
            obtain ⟨-, rfl, rfl⟩ := h
            exact .inner houter

/-- The current scope belongs to a function that stands, possibly in others, in the scope `top`. -/
def StandsIn (c : ScopeChain) (top : Scope) : Prop :=
  top.Above c.current c.enclosing

namespace StandsIn

variable {c c' : ScopeChain}

theorem define (h : c.StandsIn top) (name : String) (isMutable : Bool) (ty : Option Ty) :
    (c.define name isMutable ty).2.StandsIn top :=
  Scope.Above.of_captures_eq h rfl

theorem depth_ne_zero (h : c.StandsIn top) : c.depth ≠ 0 :=
  fun hdepth => Scope.Above.ne_nil h (List.length_eq_zero_iff.mp hdepth)

/-- The function around a function stands in the same scope. -/
theorem pop? {s : Scope} (h : c.StandsIn top) (hdepth : c.depth ≠ 1)
    (hpop : c.pop? = some (s, c')) : c'.StandsIn top := by
  obtain ⟨current, enclosing⟩ := c
  cases h with
  | first => exact absurd rfl hdepth
  | inner around =>
      obtain ⟨-, rfl⟩ := Prod.mk.inj (Option.some.inj hpop)
      exact around

end StandsIn

end ScopeChain

namespace Env

variable {E E' : Env} {top : Scope}

theorem standsIn_resolve? (htop : top.BindsShared) {name : String} {x : Symbol}
    (hE : E.chain.StandsIn top) (h : E.resolve? name = some (x, E')) : E'.chain.StandsIn top := by
  simp only [Env.resolve?, Option.map_eq_some_iff, Prod.mk.injEq] at h
  obtain ⟨⟨r, chain⟩, hfound, -, rfl⟩ := h
  exact ScopeChain.above_resolveFrom? htop hE (ScopeChain.resolve?_eq_some hfound)

theorem standsIn_hoist? {ss : List Stmt} (hE : E.chain.StandsIn top) (h : E.hoist? ss = some E') :
    E'.chain.StandsIn top := by
  induction ss generalizing E with
  | nil =>
      obtain rfl := Option.some.inj h
      exact hE
  | cons s ss ih =>
      cases s with
      | function header body =>
          rw [Env.hoist?] at h
          split at h
          · cases h
          · exact ih (hE.define header.boundName false (some header.signature.ty)) h
      | _ => exact ih hE h

theorem standsIn_declared? {header : FunctionHeader} {x : Symbol} (hE : E.chain.StandsIn top)
    (h : E.declared? header = some (x, E')) : E'.chain.StandsIn top := by
  simp only [Env.declared?] at h
  split at h
  next =>
    obtain ⟨-, rfl⟩ := Prod.mk.inj (Option.some.inj h)
    exact hE
  next =>
    split at h
    · cases h
    · obtain ⟨-, rfl⟩ := Prod.mk.inj (Option.some.inj h)
      exact hE.define header.boundName false (some header.signature.ty)

theorem standsIn_enter (hE : E.chain.StandsIn top) (name : Option String)
    (signature : Signature) : (E.enter name signature).chain.StandsIn top := by
  rw [ScopeChain.StandsIn, enclosing_enter]
  exact .inner hE

/-- A function of the top level stands in its scope. -/
theorem standsIn_enter_of_enclosing (htop : E.chain.enclosing = []) (name : Option String)
    (signature : Signature) :
    (E.enter name signature).chain.StandsIn E.chain.current := by
  rw [ScopeChain.StandsIn, enclosing_enter, htop]
  exact .first (E.captures_enter name signature)

theorem depth_enter (E : Env) (name : Option String) (signature : Signature) :
    (E.enter name signature).chain.depth = E.chain.depth + 1 := by
  rw [ScopeChain.depth, enclosing_enter]
  rfl

end Env

/-- Whatever is compiled inside a function of the top level, the scope that this stands in stays as
it is. -/
theorem Compiles.standsIn {top : Scope} (htop : top.BindsShared) {E E' : Env} {p : Phrase}
    {t : Assembly} (h : Compiles E p t E') (hE : E.chain.StandsIn top) : E'.chain.StandsIn top := by
  induction h with
  | int | float | str | zeroInt | zeroFloat | zeroString | boolTrue | boolFalse | null | nothing
  | exprsNil | pairsNil | fieldsNil | zeroBool | zeroNull | zeroFunc | zeroArray | zeroHash
  | zerosNil | retNull | stmtsNil | structType => exact hE
  | use resolved _ => exact Env.standsIn_resolve? htop hE resolved
  | ident _ ih | unary _ ih | branch _ _ ih | otherwise _ ih | function _ ih | array _ ih
  | hash _ ih | select _ _ ih | fieldGiven _ ih | fieldLater _ _ ih | fieldZero _ ih | expr _ ih
  | ret _ _ ih | inner _ ih => exact ih hE
  | binary _ _ _ ih₁ ih₂ | swapped _ _ _ ih₁ ih₂ | callNamed _ _ _ ih₁ ih₂
  | callValue _ _ _ ih₁ ih₂ | index _ _ ih₁ ih₂ | exprsCons _ _ ih₁ ih₂ | fieldsCons _ _ ih₁ ih₂
  | zerosCons _ _ ih₁ ih₂ | setField _ _ _ ih₁ ih₂ | loop _ _ _ ih₁ ih₂ | stmtsCons _ _ ih₁ ih₂ =>
      exact ih₂ (ih₁ hE)
  | cond _ _ _ ih₁ ih₂ ih₃ | pairsCons _ _ _ ih₁ ih₂ ih₃ | setIndex _ _ _ ih₁ ih₂ ih₃ =>
      exact ih₃ (ih₂ (ih₁ hE))
  | struct _ _ _ ih | zeroStruct _ ih =>
      rw [Env.chain_structConstant]
      exact ih hE
  | @closure E E' name signature _ _ _ _ _ _ statements _ _ left _ ih =>
      have hdepth : E'.chain.depth ≠ 1 := by
        rw [statements.depth_eq, E.depth_enter]
        have houter := hE.depth_ne_zero
        omega
      exact (ih (Env.standsIn_enter hE name signature)).pop? hdepth left
  | declare _ _ _ ih | declareZero _ _ _ ih => exact (ih hE).define _ _ _
  | assign resolved _ _ _ ih => exact ih (Env.standsIn_resolve? htop hE resolved)
  | declareFunction bound _ _ ih => exact ih (Env.standsIn_declared? hE bound)
  | block hoisted _ ih => exact ih (Env.standsIn_hoist? hE hoisted)

/-! ## Closures of the top level -/

/-- The environment with nothing still to be declared. -/
def Env.settled (E : Env) : Env :=
  { E with hoisted := ∅ }

namespace Compiles

variable {E E₁ : Env} {name : Option String} {signature : Signature} {body : List Stmt}
  {t : Assembly}

/-- A function of the top level captures nothing.  Compiling it leaves the scopes as they are and
adds the function as the last constant; which functions are still to be declared is of no
importance. -/
theorem closure_of_enclosing (hE : E.Sound) (htop : E.chain.enclosing = [])
    (h : Compiles E (.closure name signature body) t E₁) :
    ∃ k f, t = .single ⟨.closure, [k, 0]⟩ ∧ E₁.pool.size = k + 1 ∧
      E₁.pool[k]? = some (.function ⟨k, f⟩) ∧ E₁.chain = E.chain ∧ E₁.hoisted = E.hoisted ∧
      ∀ hoisted, Compiles { E with hoisted } (.closure name signature body) t
        { E₁ with hoisted } := by
  have hchain := hE.chain
  rw [ScopeChain.Sound, htop] at hchain
  have hshared := hchain.2.2.bindsShared hchain.1
  cases h with
  | @closure _ E' _ _ _ t' u scope chain code statements returns written left readable =>
      have hinside := statements.standsIn hshared (Env.standsIn_enter_of_enclosing htop _ _)
      have hdepth : E'.chain.depth = 1 := by
        rw [statements.depth_eq, E.depth_enter, ScopeChain.depth, htop]
        rfl
      obtain ⟨hcaptures, henclosing⟩ := hinside.of_length_eq_one hdepth
      have hpop : E'.chain.pop? = some (E'.chain.current, E.chain) := by
        rw [ScopeChain.pop?, henclosing]
        exact congrArg (fun outer => some (E'.chain.current, ScopeChain.mk _ outer)) htop.symm
      rw [left] at hpop
      obtain ⟨rfl, rfl⟩ := Prod.mk.inj (Option.some.inj hpop)
      refine ⟨E'.pool.size, _, ?_, Array.size_push _, Array.getElem?_push_size, rfl, rfl, ?_⟩
      · rw [hcaptures]
        rfl
      · intro hoisted
        have henter : Env.enter { E with hoisted } name signature = E.enter name signature := by
          cases name <;> rfl
        have hbody : Compiles (Env.enter { E with hoisted } name signature)
            (.block body) t' E' := by
          rw [henter]
          exact statements
        refine Compiles.closure hbody returns written left ?_
        rw [hcaptures]
        exact fun x hx => absurd hx List.not_mem_nil

end Compiles

/-! ## Declarations -/

structure FunctionDeclaration where
  header : FunctionHeader
  body : List Stmt

namespace FunctionDeclaration

def stmt (d : FunctionDeclaration) : Stmt :=
  .function d.header d.body

def name (d : FunctionDeclaration) : String :=
  d.header.boundName

/-- What is compiled to make the closure that the declaration stores. -/
def closure (d : FunctionDeclaration) : Phrase :=
  .closure (some d.name) d.header.signature d.body

def symbol (d : FunctionDeclaration) (slot : Nat) : Symbol :=
  ⟨d.name, .global, slot, false, some d.header.signature.ty⟩

end FunctionDeclaration

namespace Assembly

/-- Code that makes closures of constants and stores them in global slots. -/
def declaring : List (Nat × Nat) → Assembly
  | [] => done
  | (constant, slot) :: rest =>
      op ⟨.closure, [constant, 0]⟩ (op ⟨.setConstGlobal, [slot]⟩ (declaring rest))

theorem declaring_append (places more : List (Nat × Nat)) :
    declaring (places ++ more) = declaring places ++ declaring more := by
  induction places with
  | nil => rfl
  | cons place places ih => simp only [List.cons_append, declaring, ih, op_append]

/-- Where code begins with fewer closures, the others come afterwards. -/
theorem declaring_append_eq {places first : List (Nat × Nat)} {t u : Assembly}
    (hlength : first.length ≤ places.length) (h : declaring places ++ t = declaring first ++ u) :
    ∃ later, places = first ++ later ∧ u = declaring later ++ t := by
  induction first generalizing places with
  | nil => exact ⟨places, rfl, h.symm⟩
  | cons place first ih =>
      cases places with
      | nil => simp at hlength
      | cons place' places =>
          simp only [declaring, op_append, op.injEq, Instruction.mk.injEq, List.cons.injEq,
            true_and, and_true] at h
          obtain ⟨hconstant, hslot, hrest⟩ := h
          obtain ⟨later, rfl, hu⟩ := ih (Nat.le_of_succ_le_succ hlength) hrest
          exact ⟨later, congrArg (· :: _) (Prod.ext hconstant hslot), hu⟩

/-- How many closures are stored first tells code apart. -/
theorem declaring_append_inj {places places' : List (Nat × Nat)} {t t' : Assembly}
    (hlength : places'.length = places.length)
    (h : declaring places ++ t = declaring places' ++ t') : places = places' ∧ t = t' := by
  obtain ⟨later, rfl, rfl⟩ := declaring_append_eq hlength.le h
  have hnone : later = [] := by
    rw [List.length_append] at hlength
    exact List.length_eq_zero_iff.mp (by omega)
  subst hnone
  exact ⟨List.append_nil _, rfl⟩

end Assembly

namespace Env

variable {E E₁ : Env}

theorem declared?_of_mem {header : FunctionHeader} {x : Symbol}
    (hname : header.boundName ∈ E.hoisted)
    (hx : E.chain.current.get? header.boundName = some x) :
    E.declared? header = some (x, E.fulfil header.boundName) := by
  simp only [Env.declared?, Std.TreeSet.contains_iff_mem.mpr hname, if_true, hx]
  rfl

/-- Functions are bound to global slots, one after another, and are still to be declared. -/
structure Promises (E : Env) (slot : Nat) (ds : List FunctionDeclaration) : Prop where
  bound : ∀ d k, (d, k) ∈ ds.zipIdx slot →
    d.name ∈ E.hoisted ∧ E.chain.current.get? d.name = some (d.symbol k)
  distinct : (ds.map FunctionDeclaration.name).Nodup

/-- When the first function is declared, the others are still to be. -/
theorem Promises.tail {slot : Nat} {d : FunctionDeclaration} {ds : List FunctionDeclaration}
    (h : E.Promises slot (d :: ds)) (hchain : E₁.chain = E.chain)
    (hhoisted : E₁.hoisted = (E.fulfil d.name).hoisted) : E₁.Promises (slot + 1) ds := by
  obtain ⟨hfirst, hdistinct⟩ := List.nodup_cons.mp h.distinct
  refine ⟨fun d' k hd' => ?_, hdistinct⟩
  obtain ⟨hmem, hget⟩ := h.bound d' k (List.mem_cons_of_mem _ hd')
  have hne : d'.name ≠ d.name := by
    intro hsame
    refine hfirst (List.mem_map.mpr ⟨d', ?_, hsame⟩)
    exact (List.mem_zipIdx_iff_le_and_getElem?_sub.mp hd').2 |> List.mem_of_getElem?
  rw [hchain, hhoisted]
  exact ⟨Env.mem_hoisted_fulfil.mpr ⟨hmem, hne⟩, hget⟩

/-! ### Binding ahead -/

theorem hoist?_append (E : Env) (ss rest : List Stmt) :
    E.hoist? (ss ++ rest) = (E.hoist? ss).bind (·.hoist? rest) := by
  induction ss generalizing E with
  | nil => rfl
  | cons s ss ih =>
      cases s with
      | function header body =>
          simp only [List.cons_append, Env.hoist?]
          split
          · rfl
          · exact ih _
      | _ => exact ih E

/-- After a function is bound ahead of its declaration. -/
def promise (E : Env) (d : FunctionDeclaration) : Env :=
  E.bindAhead d.name (some d.header.signature.ty)

theorem get?_promise (E : Env) (d : FunctionDeclaration) (other : String) :
    (E.promise d).chain.current.get? other =
      if d.name = other then
        some (E.chain.current.nextSymbol d.name false (some d.header.signature.ty))
      else E.chain.current.get? other :=
  Scope.get?_define _ _ _ _ _

theorem nextSymbol_eq_symbol {E : Env} (hE : E.chain.current.isGlobal = true)
    (d : FunctionDeclaration) :
    E.chain.current.nextSymbol d.name false (some d.header.signature.ty) =
      d.symbol E.chain.current.definitions := by
  simp only [Scope.nextSymbol, hE]
  rfl

theorem declared_promise (E : Env) (d : FunctionDeclaration) :
    (E.promise d).chain.current.declared = insert d.name E.chain.current.declared :=
  E.chain.current.declared_define d.name false (some d.header.signature.ty)

theorem hoist?_cons_eq_some {d : FunctionDeclaration} {ss : List Stmt} :
    E.hoist? (d.stmt :: ss) = some E₁ ↔
      d.name ∉ E.chain.current.declared ∧ (E.promise d).hoist? ss = some E₁ := by
  rw [FunctionDeclaration.stmt, Env.hoist?, ← ScopeChain.conflict?_eq_none_iff]
  split
  next hconflict =>
    constructor
    · intro h
      cases h
    · rintro ⟨hfree, -⟩
      exact absurd hconflict (Option.not_isSome_iff_eq_none.mpr hfree)
  next hconflict =>
    rw [Option.not_isSome_iff_eq_none] at hconflict
    exact ⟨fun h => ⟨hconflict, h⟩, fun h => h.2⟩

/-- Binding functions ahead leaves alone what is declared already. -/
theorem hoist?_keeps {ds : List FunctionDeclaration} {name : String}
    (h : E.hoist? (ds.map FunctionDeclaration.stmt) = some E₁)
    (hname : name ∈ E.chain.current.declared) :
    E₁.chain.current.get? name = E.chain.current.get? name ∧
      (name ∈ E.hoisted → name ∈ E₁.hoisted) ∧ name ∉ ds.map FunctionDeclaration.name := by
  induction ds generalizing E with
  | nil =>
      obtain rfl := Option.some.inj h
      exact ⟨rfl, id, List.not_mem_nil⟩
  | cons d ds ih =>
      obtain ⟨hfree, hrest⟩ := hoist?_cons_eq_some.mp h
      have hne : d.name ≠ name := fun hsame => hfree (hsame ▸ hname)
      obtain ⟨hget, hhoisted, hlater⟩ := ih hrest (by
        rw [declared_promise]
        exact Set.mem_insert_of_mem _ hname)
      refine ⟨?_, fun hmem => hhoisted (Env.mem_hoisted_bindAhead.mpr (.inr hmem)), ?_⟩
      · rw [hget, get?_promise, if_neg hne]
      · rw [List.map_cons, List.mem_cons, not_or]
        exact ⟨hne.symm, hlater⟩

/-- On the top level the functions of a block are bound to the next global slots. -/
theorem promises_of_hoist? {ds : List FunctionDeclaration}
    (hglobal : E.chain.current.isGlobal = true)
    (h : E.hoist? (ds.map FunctionDeclaration.stmt) = some E₁) :
    E₁.Promises E.chain.current.definitions ds := by
  induction ds generalizing E with
  | nil => exact ⟨fun d k hd => absurd hd List.not_mem_nil, List.nodup_nil⟩
  | cons d ds ih =>
      obtain ⟨-, hrest⟩ := hoist?_cons_eq_some.mp h
      have hself : (E.promise d).chain.current.get? d.name =
          some (d.symbol E.chain.current.definitions) := by
        rw [get?_promise, if_pos rfl, nextSymbol_eq_symbol hglobal]
      obtain ⟨hget, hhoisted, hlater⟩ := hoist?_keeps hrest (by
        rw [declared_promise]
        exact Set.mem_insert _ _)
      have hpromises := ih (E := E.promise d) hglobal hrest
      refine ⟨fun d' k hd' => ?_, List.nodup_cons.mpr ⟨hlater, hpromises.distinct⟩⟩
      rw [List.zipIdx_cons, List.mem_cons] at hd'
      rcases hd' with hfirst | hmem
      · obtain ⟨rfl, rfl⟩ := Prod.mk.inj hfirst
        exact ⟨hhoisted (Env.mem_hoisted_bindAhead.mpr (.inl rfl)), hget.trans hself⟩
      · exact hpromises.bound d' k hmem

theorem definitions_hoist? {ds : List FunctionDeclaration}
    (h : E.hoist? (ds.map FunctionDeclaration.stmt) = some E₁) :
    E₁.chain.current.definitions = E.chain.current.definitions + ds.length := by
  induction ds generalizing E with
  | nil =>
      obtain rfl := Option.some.inj h
      rfl
  | cons d ds ih =>
      have hlater := ih (hoist?_cons_eq_some.mp h).2
      rw [List.length_cons, Nat.add_comm ds.length 1, ← Nat.add_assoc]
      exact hlater

theorem pool_hoist? {ss : List Stmt} (h : E.hoist? ss = some E₁) : E₁.pool = E.pool := by
  induction ss generalizing E with
  | nil =>
      obtain rfl := Option.some.inj h
      rfl
  | cons s ss ih =>
      cases s with
      | function header body =>
          rw [Env.hoist?] at h
          split at h
          · cases h
          · have hlater := ih h
            exact hlater
      | _ => exact ih h

theorem numbered_hoist? {ss : List Stmt} (hE : E.chain.current.Numbered)
    (h : E.hoist? ss = some E₁) : E₁.chain.current.Numbered := by
  induction ss generalizing E with
  | nil =>
      obtain rfl := Option.some.inj h
      exact hE
  | cons s ss ih =>
      cases s with
      | function header body =>
          rw [Env.hoist?] at h
          split at h
          · cases h
          · exact ih (hE.define header.boundName false (some header.signature.ty)) h
      | _ => exact ih hE h

end Env

/-! ### Declaring -/

namespace Compiles

variable {E E₁ : Env} {t : Assembly}

theorem stmts_append_iff {ss rest : List Stmt} :
    Compiles E (.stmts (ss ++ rest)) t E₁ ↔
      ∃ u v F, t = u ++ v ∧ Compiles E (.stmts ss) u F ∧ Compiles F (.stmts rest) v E₁ := by
  induction ss generalizing E t with
  | nil =>
      constructor
      · intro h
        exact ⟨.done, t, E, rfl, .stmtsNil, h⟩
      · rintro ⟨u, v, F, rfl, hss, hrest⟩
        cases hss
        exact hrest
  | cons s ss ih =>
      constructor
      · intro h
        cases h with
        | @stmtsCons _ F _ _ _ u v head tail =>
            obtain ⟨v₁, v₂, G, rfl, hss, hrest⟩ := ih.mp tail
            exact ⟨u ++ v₁, v₂, G, (Assembly.append_assoc _ _ _).symm, .stmtsCons head hss, hrest⟩
      · rintro ⟨u, v, F, rfl, hss, hrest⟩
        cases hss with
        | stmtsCons head tail =>
            rw [Assembly.append_assoc]
            exact .stmtsCons head (ih.mpr ⟨_, v, F, rfl, tail, hrest⟩)

/-- A function of the top level that is bound already is declared by making its closure and storing
it in its slot. -/
theorem declaration_iff (hE : E.Sound) (htop : E.chain.enclosing = []) {d : FunctionDeclaration}
    {slot : Nat} (hname : d.name ∈ E.hoisted)
    (hslot : E.chain.current.get? d.name = some (d.symbol slot)) :
    Compiles E (.stmt d.stmt) t E₁ ↔ ∃ k F, t = .declaring [(k, slot)] ∧
      Compiles E.settled d.closure (.single ⟨.closure, [k, 0]⟩) F ∧
      E₁ = { F with hoisted := (E.fulfil d.name).hoisted } := by
  have hbound := Env.declared?_of_mem hname hslot
  constructor
  · intro h
    cases h with
    | declareFunction bound value store =>
        rw [hbound] at bound
        obtain ⟨rfl, rfl⟩ := Prod.mk.inj (Option.some.inj bound)
        obtain rfl := Option.some.inj store
        obtain ⟨k, f, rfl, -, -, -, hhoisted, hany⟩ :=
          closure_of_enclosing (E := E.fulfil d.name) (hE.of_chain hE.chain _) htop value
        refine ⟨k, E₁.settled, rfl, hany ∅, ?_⟩
        rw [← show E₁.hoisted = (E.fulfil d.name).hoisted from hhoisted]
        rfl
  · rintro ⟨k, F, rfl, hclosure, rfl⟩
    obtain ⟨-, -, -, -, -, -, -, hany⟩ :=
      closure_of_enclosing (E := E.settled) (hE.of_chain hE.chain ∅) htop hclosure
    exact .declareFunction hbound (hany (E.fulfil d.name).hoisted) rfl

/-- Declaring a function of the top level adds it as the last constant and leaves the scopes as they
are. -/
theorem declaration (hE : E.Sound) (htop : E.chain.enclosing = []) {d : FunctionDeclaration}
    {slot : Nat} (hname : d.name ∈ E.hoisted)
    (hslot : E.chain.current.get? d.name = some (d.symbol slot))
    (h : Compiles E (.stmt d.stmt) t E₁) :
    ∃ k f, t = .declaring [(k, slot)] ∧ E₁.pool.size = k + 1 ∧
      E₁.pool[k]? = some (.function ⟨k, f⟩) ∧ E₁.chain = E.chain ∧
      E₁.hoisted = (E.fulfil d.name).hoisted := by
  obtain ⟨k, F, rfl, hclosure, rfl⟩ := (declaration_iff hE htop hname hslot).mp h
  obtain ⟨k', f, hk, hsize, hconstant, hchain, -, -⟩ :=
    closure_of_enclosing (E := E.settled) (hE.of_chain hE.chain ∅) htop hclosure
  cases hk
  exact ⟨k, f, rfl, hsize, hconstant, hchain, rfl⟩

/-- Declarations of functions of the top level fill global slots, one after another, with closures
of constants, and leave the scopes as they are. -/
theorem declarations {ds more : List FunctionDeclaration} {slot : Nat} (hE : E.Sound)
    (htop : E.chain.enclosing = []) (hpromises : E.Promises slot (ds ++ more))
    (h : Compiles E (.stmts (ds.map FunctionDeclaration.stmt)) t E₁) :
    ∃ places, t = .declaring places ∧ places.map Prod.snd = List.range' slot ds.length ∧
      (∀ place ∈ places, ∃ f, E₁.pool[place.1]? = some (.function ⟨place.1, f⟩)) ∧
      E₁.chain = E.chain ∧ E₁.Promises (slot + ds.length) more := by
  induction ds generalizing E t slot with
  | nil =>
      cases h
      exact ⟨[], rfl, rfl, fun _ hplace => absurd hplace List.not_mem_nil, rfl, hpromises⟩
  | cons d ds ih =>
      cases h with
      | stmtsCons head tail =>
          obtain ⟨hname, hslot⟩ := hpromises.bound d slot List.mem_cons_self
          obtain ⟨k, f, rfl, -, hconstant, hchain, hhoisted⟩ := declaration hE htop hname hslot head
          obtain ⟨places, rfl, hslots, hfunctions, hafter, hrest⟩ :=
            ih (head.sound hE) (hchain ▸ htop) (hpromises.tail hchain hhoisted) tail
          refine ⟨(k, slot) :: places, rfl, ?_, ?_, hafter.trans hchain, ?_⟩
          · rw [List.map_cons, hslots, List.length_cons, List.range'_succ]
          · rw [List.forall_mem_cons]
            exact ⟨⟨f, tail.grows.pool k _ hconstant⟩, hfunctions⟩
          · rw [List.length_cons, Nat.add_comm ds.length 1, ← Nat.add_assoc]
            exact hrest

end Compiles

end ScriptEngine
