import ScriptEngine.Proofs.Compile.Events
import ScriptEngine.Proofs.Scope.Captures

/-!
# Closures capture what their functions read

Every stream of an accepted program loads the variables that its region reads, in the same order.  A
closure is made right after the variables that its function captures were loaded, one by one and in
the order in which the function numbers them (`compileProgram_capturesExactly`).
-/

namespace ScriptEngine

/-! ## What instructions load -/

/-- In a region, the instruction loads the variable. -/
def Instruction.Loads (r : Region) (i : Instruction) (v : Variable) : Prop :=
  match i.opcode with
  | .getGlobal | .getConstGlobal => v.place = .global (i.operand 0)
  | .getBuiltin => v.place = .builtin (i.operand 0)
  | .getLocal | .getConstLocal => v.place = .slot r.depth (i.operand 0)
  | .currentClosure => v.place = .self r.depth
  | .getFree => r.captured[i.operand 0]? = some v
  | _ => False

/-- Whether the opcode loads something that can be captured. -/
def Opcode.isLocalLoad : Opcode → Bool
  | getLocal | getConstLocal | getFree | currentClosure => true
  | _ => false

/-- The region at a later point. -/
structure Region.Le (r r' : Region) : Prop where
  depth : r'.depth = r.depth
  captured : r.captured <+: r'.captured

theorem Instruction.Loads.mono {r r' : Region} {i : Instruction} {v : Variable}
    (h : i.Loads r v) (hr : r.Le r') : i.Loads r' v := by
  obtain ⟨op, ns⟩ := i
  by_cases hop : op = .getFree
  · subst hop
    obtain ⟨later, hlater⟩ := hr.captured
    have hindex := (List.getElem?_eq_some_iff.mp h).1
    change r'.captured[_]? = some v
    rw [← hlater, List.getElem?_append_left hindex]
    exact h
  · unfold Instruction.Loads at h ⊢
    rw [hr.depth]
    cases op <;> first | exact h | exact absurd rfl hop

/-- The instruction that loads a symbol loads its variable. -/
theorem Symbol.Denotes.loads {s : Scope} {outer : List Scope} {r : Region} {rs : List Region}
    {x : Symbol} {v : Variable} (hx : x.Denotes (s :: outer) v)
    (h : Captures (s :: outer) (r :: rs) []) : x.load.Loads r v := by
  by_cases hstorage : x.storage = .captured
  · have hcaptured := h.getElem?_capturedAt hx hstorage
    rw [List.append_nil] at hcaptured
    simpa [Symbol.load, CompileM.loadOf, hstorage, Instruction.Loads, Instruction.operand,
      Region.captured] using hcaptured
  · obtain ⟨o, horigin, hplace⟩ := hx.origin
    obtain _ | ⟨hdepth, -, -, -⟩ := h
    unfold Symbol.origin? at horigin
    cases hcase : x.storage with
    | captured => exact absurd hcase hstorage
    | _ =>
        simp only [hcase, Option.some.injEq] at horigin
        subst horigin
        cases hmutable : x.isMutable <;>
          simp [Symbol.load, CompileM.loadOf, hcase, hmutable, Instruction.Loads,
            Instruction.operand, ← hplace, Origin.place, hdepth]

/-- What a function captures is not loaded from where all functions can reach it. -/
theorem Symbol.Denotes.isLocalLoad {s : Scope} {outer : List Scope} {x : Symbol} {v : Variable}
    {depth : Nat} (hx : x.Denotes (s :: outer) v) (hv : v.isFreeAt depth = true) :
    x.load.opcode.isLocalLoad = true := by
  by_cases hstorage : x.storage = .captured
  · simp [Symbol.load, CompileM.loadOf, hstorage, Opcode.isLocalLoad]
  · have hshared := ((hx.isFreeAt_iff hstorage).mp hv).1
    cases hcase : x.storage <;> cases hmutable : x.isMutable <;>
      simp_all [Symbol.load, CompileM.loadOf, Opcode.isLocalLoad, Storage.isShared]

/-! ## Instructions before others -/

/-- Before every closure that is made stand instructions that prepare it. -/
def Prepared (P : Instruction → List Instruction → Prop) (is : List Instruction) : Prop :=
  ∀ before i after, is = before ++ i :: after → i.opcode = .closure →
    ∃ earlier loads, before = earlier ++ loads ∧ P i loads

namespace Prepared

variable {P Q : Instruction → List Instruction → Prop} {is js : List Instruction}

theorem mono (h : Prepared P is) (hPQ : ∀ i loads, P i loads → Q i loads) : Prepared Q is := by
  intro before i after his hop
  obtain ⟨earlier, loads, hbefore, hP⟩ := h before i after his hop
  exact ⟨earlier, loads, hbefore, hPQ i loads hP⟩

theorem nil : Prepared P [] := by
  intro before i after his
  simp at his

theorem append (his : Prepared P is) (hjs : Prepared P js) : Prepared P (is ++ js) := by
  intro before i after hall hop
  rcases List.append_eq_append_iff.mp hall with ⟨middle, rfl, hjs'⟩ | ⟨middle, his', hjs'⟩
  · obtain ⟨earlier, loads, rfl, hP⟩ := hjs middle i after hjs' hop
    exact ⟨is ++ earlier, loads, by rw [List.append_assoc], hP⟩
  · cases middle with
    | nil =>
        rw [List.append_nil] at his'
        obtain ⟨earlier, loads, hnil, hP⟩ := hjs [] i after hjs'.symm hop
        obtain ⟨rfl, rfl⟩ := List.append_eq_nil_iff.mp hnil.symm
        exact ⟨before, [], (List.append_nil _).symm, hP⟩
    | cons j middle =>
        obtain ⟨rfl, -⟩ := List.cons.inj hjs'
        exact his before i middle his' hop

theorem single {i : Instruction} (hi : i.opcode ≠ .closure) : Prepared P [i] := by
  intro before j after hall hop
  cases before with
  | nil =>
      obtain ⟨rfl, -⟩ := List.cons.inj hall
      exact absurd hop hi
  | cons i' before => simp at hall

/-- A closure that is made right after its loads. -/
theorem closure {i : Instruction} (his : ∀ j ∈ is, j.opcode ≠ .closure) (hP : P i is) :
    Prepared P (is ++ [i]) := by
  intro before j after hall hop
  rcases List.eq_nil_or_concat' after with rfl | ⟨after, j', rfl⟩
  · obtain ⟨rfl, hlast⟩ := List.append_inj' hall rfl
    obtain rfl := List.singleton_inj.mp hlast
    exact ⟨[], is, rfl, hP⟩
  · rw [← List.cons_append, ← List.append_assoc] at hall
    obtain ⟨rfl, -⟩ := List.append_inj' hall rfl
    exact absurd hop (his j (by simp))

end Prepared

/-! ## Streams and regions -/

/-- The instruction makes the closure of a function, and the instructions before it load what the
function captures. -/
def Makes (fs : List (Nat × Function)) (regions : List Region) (r : Region) (i : Instruction)
    (loads : List Instruction) : Prop :=
  ∃ (m k : Nat) (f : Function) (inner : Region), fs[m]? = some (k, f) ∧
    regions[m]? = some inner ∧ inner.depth = r.depth + 1 ∧
    i = ⟨.closure, [k, inner.captured.length]⟩ ∧
    List.Forall₂ (fun j v => j.opcode.isLocalLoad = true ∧ j.Loads r v) loads inner.captured

/-- In a region, the instructions load variables in order, and make closures of functions. -/
structure Implements (fs : List (Nat × Function)) (regions : List Region) (r : Region)
    (is : List Instruction) (reads : List Variable) : Prop where
  loads : List.Forall₂ (Instruction.Loads r) (is.filter fun i => i.opcode.isLoad) reads
  closures : Prepared (Makes fs regions r) is

namespace Implements

variable {fs fs' : List (Nat × Function)} {regions regions' : List Region} {r r' : Region}
  {is js : List Instruction} {reads more : List Variable}

theorem mono (h : Implements fs regions r is reads) (hfs : fs <+: fs')
    (hregions : regions <+: regions') (hr : r.Le r') : Implements fs' regions' r' is reads := by
  refine ⟨h.loads.imp fun _ _ hi => hi.mono hr, h.closures.mono ?_⟩
  rintro i loads ⟨m, k, f, inner, hf, hinner, hdepth, hi, hloads⟩
  refine ⟨m, k, f, inner, getElem?_of_isPrefix hfs hf, getElem?_of_isPrefix hregions hinner, ?_, hi,
    hloads.imp fun _ _ hj => ⟨hj.1, hj.2.mono hr⟩⟩
  rw [hdepth, hr.depth]

theorem nil : Implements fs regions r [] [] :=
  ⟨.nil, .nil⟩

theorem append (h : Implements fs regions r is reads) (h' : Implements fs regions r js more) :
    Implements fs regions r (is ++ js) (reads ++ more) := by
  refine ⟨?_, h.closures.append h'.closures⟩
  rw [List.filter_append]
  exact List.rel_append h.loads h'.loads

/-- An instruction that neither loads a variable nor makes a closure. -/
theorem other {i : Instruction} (hload : i.opcode.isLoad = false) (hclosure : i.opcode ≠ .closure) :
    Implements fs regions r [i] [] := by
  refine ⟨?_, .single hclosure⟩
  rw [List.filter_cons_of_neg (by simp [hload])]
  exact .nil

theorem load {i : Instruction} {v : Variable} (hload : i.opcode.isLoad = true)
    (hv : i.Loads r v) : Implements fs regions r [i] [v] := by
  refine ⟨?_, .single fun hclosure => ?_⟩
  · rw [List.filter_cons_of_pos (by simpa using hload)]
    exact .cons hv .nil
  · rw [hclosure] at hload
    cases hload

end Implements

/-- A closure is made after what its function captures was loaded. -/
theorem Implements.closure {fs : List (Nat × Function)} {regions : List Region} {r inner : Region}
    {m k : Nat} {f : Function} {xs : List Symbol} (hf : fs[m]? = some (k, f))
    (hinner : regions[m]? = some inner) (hdepth : inner.depth = r.depth + 1)
    (hxs : List.Forall₂ (fun x v => x.load.opcode.isLocalLoad = true ∧ x.load.Loads r v) xs
      inner.captured) :
    Implements fs regions r (xs.map Symbol.load ++ [⟨.closure, [k, xs.length]⟩])
      inner.captured := by
  have hloads : List.Forall₂ (fun j v => j.opcode.isLocalLoad = true ∧ j.Loads r v)
      (xs.map Symbol.load) inner.captured := by
    rw [List.forall₂_map_left_iff]
    exact hxs
  constructor
  · have hall : ∀ i ∈ xs.map Symbol.load, i.opcode.isLoad = true := by
      intro i hi
      obtain ⟨x, -, rfl⟩ := List.mem_map.mp hi
      exact x.isLoad_load
    have hclosure : Opcode.closure.isLoad = false := rfl
    rw [List.filter_append, List.filter_eq_self.mpr hall,
      List.filter_cons_of_neg (by simp [hclosure]), List.filter_nil, List.append_nil]
    exact hloads.imp fun _ _ hj => hj.2
  · refine .closure ?_ ⟨m, k, f, inner, hf, hinner, hdepth, ?_, hloads⟩
    · intro i hi
      obtain ⟨x, -, rfl⟩ := List.mem_map.mp hi
      exact x.load_opcode_ne rfl
    · rw [hxs.length_eq]

/-- Every function implements its region. -/
def Aligned (fs : List (Nat × Function)) (regions : List Region) : Prop :=
  List.Forall₂ (fun e r => Implements fs regions r e.2.code.instructions r.reads) fs regions

theorem Aligned.concat {fs : List (Nat × Function)} {regions : List Region} {e : Nat × Function}
    {r : Region} (h : Aligned fs regions)
    (hr : Implements fs regions r e.2.code.instructions r.reads) :
    Aligned (fs ++ [e]) (regions ++ [r]) := by
  have hfs : fs <+: fs ++ [e] := List.prefix_append _ _
  have hregions : regions <+: regions ++ [r] := List.prefix_append _ _
  have hmono {r' : Region} {is : List Instruction} {reads : List Variable}
      (h' : Implements fs regions r' is reads) :
      Implements (fs ++ [e]) (regions ++ [r]) r' is reads :=
    h'.mono hfs hregions ⟨rfl, List.prefix_rfl⟩
  exact List.rel_append (h.imp fun _ _ h' => hmono h') (.cons (hmono hr) .nil)

/-! ## Following events -/

namespace Env

theorem agrees_withParameters {E : Env} {σ : Survey} {ds : List Declarations}
    (h : E.chain.Agrees σ ds) (parameters : List (String × Ty)) :
    ∃ ds', (E.withParameters parameters).chain.Agrees
      (σ.modify fun r => (parameters.map Prod.fst).foldl Region.declare r) ds' := by
  induction parameters generalizing E σ ds with
  | nil => exact ⟨ds, h⟩
  | cons p parameters ih =>
      exact ih (E := (E.define p.1 false (some p.2)).2) (h.define p.1 false (some p.2))

/-- At the beginning of a function. -/
theorem agrees_enter {E : Env} {σ : Survey} {ds : List Declarations} (h : E.chain.Agrees σ ds)
    (name : Option String) (signature : Signature) :
    ∃ ds', (E.enter name signature).chain.Agrees
      (σ.enter name (signature.parameters.map Prod.fst)) ds' := by
  cases name with
  | none => exact agrees_withParameters (E := { E with chain := _, hoisted := ∅ }) h.push _
  | some name =>
      exact agrees_withParameters (E := { E with chain := _, hoisted := ∅ })
        (h.push.defineSelf name (some signature.ty)) _

end Env

/-- The second environment and survey come from the first ones, and the instructions in between load
the variables. -/
structure Follows (E : Env) (σ : Survey) (is : List Instruction) (vs : List Variable) (E' : Env)
    (σ' : Survey) : Prop where
  agrees : ∃ ds, E'.chain.Agrees σ' ds
  aligned : Aligned (functionsFrom 0 E'.pool) σ'.functions
  enclosing : σ'.enclosing = σ.enclosing
  depth : σ'.current.depth = σ.current.depth
  reads : σ'.current.reads = σ.current.reads ++ vs
  pool : functionsFrom 0 E.pool <+: functionsFrom 0 E'.pool
  functions : σ.functions <+: σ'.functions
  implements : Implements (functionsFrom 0 E'.pool) σ'.functions σ'.current is vs

namespace Follows

variable {E E₁ E' : Env} {σ σ₁ σ' : Survey} {is js : List Instruction} {vs ws : List Variable}

theorem le (h : Follows E σ is vs E' σ') : σ.current.Le σ'.current := by
  refine ⟨h.depth, ?_⟩
  rw [Region.captured, Region.captured, h.depth, h.reads]
  exact capturedAt_isPrefix _ _ _

/-- One piece of code after another. -/
theorem trans (h : Follows E σ is vs E₁ σ₁) (h' : Follows E₁ σ₁ js ws E' σ') :
    Follows E σ (is ++ js) (vs ++ ws) E' σ' where
  agrees := h'.agrees
  aligned := h'.aligned
  enclosing := h'.enclosing.trans h.enclosing
  depth := h'.depth.trans h.depth
  reads := by rw [h'.reads, h.reads, List.append_assoc]
  pool := h.pool.trans h'.pool
  functions := h.functions.trans h'.functions
  implements := (h.implements.mono h'.pool h'.functions h'.le).append h'.implements

/-- A change that leaves alone which functions there are. -/
theorem of_same {ds : List Declarations} (haligned : Aligned (functionsFrom 0 E.pool) σ.functions)
    (hagrees : E'.chain.Agrees σ' ds) (hpool : functionsFrom 0 E'.pool = functionsFrom 0 E.pool)
    (hfunctions : σ'.functions = σ.functions) (henclosing : σ'.enclosing = σ.enclosing)
    (hdepth : σ'.current.depth = σ.current.depth)
    (hreads : σ'.current.reads = σ.current.reads ++ vs)
    (himplements : Implements (functionsFrom 0 E'.pool) σ'.functions σ'.current is vs) :
    Follows E σ is vs E' σ' where
  agrees := ⟨ds, hagrees⟩
  aligned := by rw [hpool, hfunctions]; exact haligned
  enclosing := henclosing
  depth := hdepth
  reads := hreads
  pool := hpool ▸ List.prefix_rfl
  functions := hfunctions ▸ List.prefix_rfl
  implements := himplements

end Follows

/-- A function that was followed to its end becomes a closure. -/
theorem Follows.close {E E₀ E₁ : Env} {σ σ₁ : Survey} {js : List Instruction}
    {vs : List Variable} {name : Option String} {names : List String} {scope : Scope}
    {chain : ScopeChain} {f : Function}
    (hbody : Follows E₀ (σ.enter name names) js vs E₁ σ₁) (hpool : E₀.pool = E.pool)
    (hf : Code.Adds .empty js f.code) (hpop : E₁.chain.pop? = some (scope, chain)) :
    Follows E σ
      (scope.captures.map Symbol.load ++ [⟨.closure, [E₁.pool.size, scope.captures.length]⟩])
      σ₁.current.captured (E₁.close chain f) σ₁.leave := by
  obtain ⟨ds₁, hagrees⟩ := hbody.agrees
  obtain ⟨outer, rest, ds₂, henclosing, hdepth, hagrees₂, hcaptured⟩ := hagrees.leave hpop
  -- the region around is still as it was when the function began
  have hsame : σ₁.enclosing = σ.current :: σ.enclosing := hbody.enclosing
  obtain ⟨rfl, rfl⟩ := List.cons.inj (henclosing.symm.trans hsame)
  have hleave : σ₁.leave = ⟨σ.current.read σ₁.current.captured, σ.enclosing,
      σ₁.functions ++ [σ₁.current]⟩ := by
    rw [Survey.leave, hsame]
  have hfs : functionsFrom 0 (E₁.close chain f).pool =
      functionsFrom 0 E₁.pool ++ [(E₁.pool.size, f)] :=
    functionsFrom_push (Nat.zero_le _) _
  have hstart : (σ.enter name names).current.reads = [] := by
    obtain ⟨_, _, hcurrent⟩ := σ.current_enter name names
    rw [hcurrent]
  have hreads : σ₁.current.reads = vs := by
    rw [hbody.reads, hstart, List.nil_append]
  have hinner : Implements (functionsFrom 0 E₁.pool) σ₁.functions σ₁.current f.code.instructions
      σ₁.current.reads := by
    rw [hreads, Code.instructions_of_adds hf]
    exact hbody.implements
  have haligned := hbody.aligned.concat (e := (E₁.pool.size, f)) hinner
  have hlength := hbody.aligned.length_eq
  rw [hleave] at hagrees₂ ⊢
  constructor
  · exact ⟨ds₂, hagrees₂⟩
  · rw [hfs]
    exact haligned
  · rfl
  · rfl
  · rfl
  · rw [hfs, ← hpool]
    exact hbody.pool.trans (List.prefix_append _ _)
  · exact hbody.functions.trans (List.prefix_append _ _)
  · rw [hfs]
    refine .closure (m := (functionsFrom 0 E₁.pool).length) (f := f) ?_ ?_ hdepth.symm ?_
    · simp
    · simp [hlength]
    · have hfree : ∀ v ∈ σ₁.current.captured, v.isFreeAt σ₁.current.depth = true :=
        fun v hv => (mem_capturedAt.mp hv).2
      have hboth := (List.forall₂_and_left _ _).mpr ⟨hfree, hcaptured.flip⟩
      refine hboth.flip.imp fun x v hx => ⟨hx.2.isLocalLoad hx.1, ?_⟩
      exact hx.2.loads hagrees₂.captures

/-- Code that renders events follows their survey. -/
theorem Renders.follows {E E' : Env} {es : List Event} {is : List Instruction}
    (h : Renders E es is E') {σ : Survey} {ds : List Declarations} (hσ : E.chain.Agrees σ ds)
    (haligned : Aligned (functionsFrom 0 E.pool) σ.functions) :
    ∃ vs, Follows E σ is vs E' (σ.after es) := by
  induction h generalizing σ ds with
  | nil =>
      exact ⟨[], .of_same haligned hσ rfl rfl rfl rfl (List.append_nil _).symm .nil⟩
  | @skip E _ es _ i plain _ ih =>
      obtain ⟨vs, hrest⟩ := ih hσ haligned
      obtain ⟨hload, hclosure, -⟩ := Opcode.not_isEventful plain
      have hstep : Follows E σ [i] [] E σ :=
        .of_same haligned hσ rfl rfl rfl rfl (List.append_nil _).symm (.other hload hclosure)
      exact ⟨_, hstep.trans hrest⟩
  | @keep E _ es _ v noFunction _ ih =>
      have hpool : functionsFrom 0 (E.keep v).pool = functionsFrom 0 E.pool :=
        functionsFrom_push_of_none (Nat.zero_le _) (Value.function?_eq_none noFunction)
      obtain ⟨vs, hrest⟩ := ih hσ (hpool ▸ haligned)
      have hstep : Follows E σ [] [] (E.keep v) σ :=
        .of_same haligned hσ hpool rfl rfl rfl (List.append_nil _).symm .nil
      exact ⟨_, hstep.trans hrest⟩
  | @await E _ es _ hoisted _ ih =>
      obtain ⟨vs, hrest⟩ := ih hσ haligned
      have hstep : Follows E σ [] [] { E with hoisted } σ :=
        .of_same haligned hσ rfl rfl rfl rfl (List.append_nil _).symm .nil
      exact ⟨_, hstep.trans hrest⟩
  | @use E E₁ _ es _ name x resolved _ ih =>
      simp only [Env.resolve?, Option.map_eq_some_iff, Prod.mk.injEq] at resolved
      obtain ⟨⟨r, chain⟩, hresolve, rfl, rfl⟩ := resolved
      obtain ⟨v, hv, hagrees, hdenotes⟩ := hσ.resolve? hresolve
      obtain ⟨vs, hrest⟩ := ih hagrees haligned
      have hstep : Follows E σ [r.symbol.load] [v] { E with chain }
          (σ.modify (Region.read · [v])) :=
        .of_same haligned hagrees rfl rfl rfl rfl rfl
          (.load r.symbol.isLoad_load (hdenotes.loads hagrees.captures))
      have hafter : σ.after (.use name :: es) = (σ.modify (Region.read · [v])).after es := by
        rw [Survey.after, List.foldl_cons, Survey.step, hv]
        rfl
      rw [hafter]
      exact ⟨_, hstep.trans hrest⟩
  | @declare E _ es _ name isMutable ty _ ih =>
      have hagrees := hσ.define name isMutable ty
      obtain ⟨vs, hrest⟩ := ih hagrees haligned
      have hstep : Follows E σ [] [] (E.define name isMutable ty).2
          (σ.modify (Region.declare · name)) :=
        .of_same haligned hagrees rfl rfl rfl rfl (List.append_nil _).symm .nil
      exact ⟨_, hstep.trans hrest⟩
  | @introduce E _ es _ type _ ih =>
      have hpool : functionsFrom 0 (E.register type).pool = functionsFrom 0 E.pool :=
        functionsFrom_push_of_none (Nat.zero_le _) rfl
      obtain ⟨vs, hrest⟩ := ih hσ (hpool ▸ haligned)
      have hstep : Follows E σ [] [] (E.register type) σ :=
        .of_same haligned hσ hpool rfl rfl rfl (List.append_nil _).symm .nil
      exact ⟨_, hstep.trans hrest⟩
  | @build E _ es _ type _ ih =>
      have hpool := E.functionsFrom_structConstant (Nat.zero_le _) type
      have hagrees : (E.structConstant type).2.chain.Agrees
          (σ.modify (Region.build · ⟨type, E.knownAs type⟩)) ds := by
        rw [E.chain_structConstant]
        exact hσ.build _
      obtain ⟨vs, hrest⟩ := ih hagrees (hpool ▸ haligned)
      have hstep : Follows E σ [⟨.struct, [(E.structConstant type).1, type.fields.length]⟩] []
          (E.structConstant type).2 (σ.modify (Region.build · ⟨type, E.knownAs type⟩)) :=
        .of_same haligned hagrees hpool rfl rfl rfl (List.append_nil _).symm
          (.other rfl (by simp))
      exact ⟨_, hstep.trans hrest⟩
  | @function E E₁ _ es _ inner js name signature code scope chain _ _ written left _ ihbody ih =>
      obtain ⟨ds₀, hagrees₀⟩ := Env.agrees_enter hσ name signature
      have hpool₀ := (E.same_enter name signature).2
      obtain ⟨vs₁, hbody⟩ := ihbody hagrees₀ (by rw [hpool₀]; exact haligned)
      let f : Function :=
        { code, locals := scope.definitions, parameters := signature.parameters.length, name }
      have hstep := hbody.close (f := f) hpool₀ written left
      obtain ⟨ds₂, hagrees₂⟩ := hstep.agrees
      obtain ⟨vs, hrest⟩ := ih hagrees₂ hstep.aligned
      have hall := hstep.trans hrest
      rw [List.append_assoc, List.singleton_append] at hall
      rw [Survey.after, List.foldl_cons, List.foldl_append]
      exact ⟨_, hall⟩

/-! ## The indices of captured variables -/

/-- The index of the captured variable that the instruction loads. -/
def Instruction.freeIndex? (i : Instruction) : Option Nat :=
  if i.opcode = .getFree then some (i.operand 0) else none

/-- The instructions that load captured variables load those that have to be captured. -/
theorem freeIndex?_forall₂ {r : Region} {is : List Instruction} {reads : List Variable}
    (h : List.Forall₂ (Instruction.Loads r) is reads) :
    List.Forall₂ (fun n v => r.captured[n]? = some v) (is.filterMap Instruction.freeIndex?)
      (reads.filter (Variable.isFreeAt r.depth)) := by
  induction h with
  | nil => exact .nil
  | @cons i v is reads hi _ ih =>
      by_cases hop : i.opcode = .getFree
      · have hcaptured : r.captured[i.operand 0]? = some v := by
          simpa only [Instruction.Loads, hop] using hi
        have hfree := (mem_capturedAt.mp (List.mem_of_getElem? hcaptured)).2
        have hindex : i.freeIndex? = some (i.operand 0) := if_pos hop
        rw [List.filterMap_cons_some hindex, List.filter_cons_of_pos hfree]
        exact .cons hcaptured ih
      · have hfree : v.isFreeAt r.depth = false := by
          unfold Instruction.Loads at hi
          split at hi <;> simp_all [Variable.isFreeAt]
        have hindex : i.freeIndex? = none := if_neg hop
        rw [List.filterMap_cons_none hindex, List.filter_cons_of_neg (by simp [hfree])]
        exact ih

/-- The captured variables of a region are numbered in the order in which they are first loaded. -/
theorem eraseDups_freeIndex? {r : Region} {is : List Instruction}
    (h : List.Forall₂ (Instruction.Loads r) (is.filter fun i => i.opcode.isLoad) r.reads) :
    (is.filterMap Instruction.freeIndex?).eraseDups = List.range r.captured.length := by
  have hnodup : r.captured.Nodup := nodup_capturedAt _ _
  have hloads : (is.filter fun i => i.opcode.isLoad).filterMap Instruction.freeIndex? =
      is.filterMap Instruction.freeIndex? := by
    rw [List.filterMap_filter]
    refine List.filterMap_congr fun i _ => ?_
    by_cases hop : i.opcode = .getFree
    · rw [hop]
      rfl
    · rw [Instruction.freeIndex?, if_neg hop, ite_self]
  have hindices := freeIndex?_forall₂ h
  rw [hloads] at hindices
  have hmap : is.filterMap Instruction.freeIndex? =
      (r.reads.filter (Variable.isFreeAt r.depth)).map (r.captured.idxOf ·) := by
    rw [← List.forall₂_eq_eq_eq, List.forall₂_map_right_iff]
    refine hindices.imp fun n v hn => ?_
    obtain ⟨hlt, rfl⟩ := List.getElem?_eq_some_iff.mp hn
    exact (hnodup.idxOf_getElem n hlt).symm
  have hinjective : ∀ v ∈ r.reads.filter (Variable.isFreeAt r.depth),
      ∀ w ∈ r.reads.filter (Variable.isFreeAt r.depth),
        r.captured.idxOf v = r.captured.idxOf w → v = w := by
    intro v hv w _ hvw
    exact (List.idxOf_inj (List.mem_eraseDups.mpr hv)).mp hvw
  rw [hmap, eraseDups_map hinjective]
  change r.captured.map (r.captured.idxOf ·) = _
  apply List.ext_getElem
  · simp
  · intro n hn _
    simp [hnodup.idxOf_getElem]

/-! ## Every function has one closure -/

/-- The constant of which the instruction makes a closure. -/
def Instruction.closureConstant? (i : Instruction) : Option Nat :=
  if i.opcode = .closure then some (i.operand 0) else none

/-- The constants of which the functions make closures. -/
def closedIn (fs : List (Nat × Function)) : List Nat :=
  fs.flatMap fun e => e.2.code.instructions.filterMap Instruction.closureConstant?

/-- Code that renders events makes one closure of each new function. -/
theorem Renders.count_closures {E E' : Env} {es : List Event} {is : List Instruction}
    (h : Renders E es is E') (k : Nat) :
    ((functionsFrom 0 E'.pool).map Prod.fst).count k + (closedIn (functionsFrom 0 E.pool)).count k =
      ((functionsFrom 0 E.pool).map Prod.fst).count k +
        (closedIn (functionsFrom 0 E'.pool)).count k +
        (is.filterMap Instruction.closureConstant?).count k := by
  have hother {i : Instruction} (is : List Instruction) (hi : i.opcode ≠ .closure) :
      (i :: is).filterMap Instruction.closureConstant? =
        is.filterMap Instruction.closureConstant? :=
    List.filterMap_cons_none (if_neg hi)
  induction h with
  | nil => simp
  | skip i plain _ ih =>
      rw [hother _ (Opcode.not_isEventful plain).2.1]
      exact ih
  | @keep E _ _ _ v noFunction _ ih =>
      have hpool : functionsFrom 0 (E.keep v).pool = functionsFrom 0 E.pool :=
        functionsFrom_push_of_none (Nat.zero_le _) (Value.function?_eq_none noFunction)
      rwa [hpool] at ih
  | await hoisted _ ih => exact ih
  | @use _ _ _ _ _ _ x resolved _ ih =>
      simp only [Env.resolve?, Option.map_eq_some_iff, Prod.mk.injEq] at resolved
      obtain ⟨⟨r, chain⟩, -, -, rfl⟩ := resolved
      rw [hother _ (x.load_opcode_ne rfl)]
      exact ih
  | declare isMutable ty _ ih => exact ih
  | @introduce E _ _ _ type _ ih =>
      have hpool : functionsFrom 0 (E.register type).pool = functionsFrom 0 E.pool :=
        functionsFrom_push_of_none (Nat.zero_le _) rfl
      rwa [hpool] at ih
  | @build E _ _ _ type _ ih =>
      rw [E.functionsFrom_structConstant (Nat.zero_le _)] at ih
      rw [hother _ (by simp)]
      exact ih
  | @function E E₁ _ es is _ _ name signature _ scope _ _ _ written _ _ ihbody ih =>
      have hloads :
          (scope.captures.map Symbol.load).filterMap Instruction.closureConstant? = [] := by
        rw [List.filterMap_eq_nil_iff]
        intro i hi
        obtain ⟨x, -, rfl⟩ := List.mem_map.mp hi
        exact if_neg (x.load_opcode_ne rfl)
      have hclosure : (⟨.closure, [E₁.pool.size, scope.captures.length]⟩ :: is).filterMap
          Instruction.closureConstant? =
            E₁.pool.size :: is.filterMap Instruction.closureConstant? :=
        List.filterMap_cons_some rfl
      rw [(E.same_enter name signature).2] at ihbody
      simp only [Env.close, Env.keep, functionsFrom_push (Nat.zero_le _), Value.function?,
        Option.map_some, Option.toList_some, List.map_append, List.map_singleton, closedIn,
        List.flatMap_append, List.flatMap_singleton, Code.instructions_of_adds written,
        List.count_append, List.count_singleton] at ih
      rw [List.filterMap_append, hloads, hclosure, List.nil_append, List.count_cons]
      unfold closedIn at ihbody ⊢
      omega

/-! ## Programs -/

/-- Streams implement regions, and no two closures are made of one function. -/
structure Bytecode.Covers (unit : Bytecode) (regions : List Region) : Prop where
  implements : List.Forall₂ (fun s r =>
    Implements (functionsFrom 0 unit.constants) regions.tail r s.instructions r.reads)
      (unit.streams 0) regions
  nodup : ((unit.streams 0).flatMap fun s =>
    s.instructions.filterMap Instruction.closureConstant?).Nodup

theorem CompilesUnit.covers {E E' : Env} {program : Program} {t : Assembly} {unit : Bytecode}
    {ds : List Declarations} {k : KnownTypes}
    (h : CompilesUnit E program t E' unit) (hk : E.Attends k) (hE : E.chain.Agrees Survey.start ds)
    (hpool : functionsFrom 0 E.pool = []) : unit.Covers (program.regions k) := by
  have hrenders := h.renders hk
  obtain ⟨vs, hfollows⟩ := hrenders.follows hE (by rw [hpool]; exact .nil)
  have hreads : (Survey.start.after (program.events k)).current.reads = vs := hfollows.reads
  constructor
  · refine .cons ?_ ?_
    · rw [hreads, h.constants]
      exact hfollows.implements
    · rw [List.forall₂_map_left_iff, h.constants]
      exact hfollows.aligned
  · have hperm : ((unit.streams 0).flatMap fun s =>
        s.instructions.filterMap Instruction.closureConstant?).Perm
          ((functionsFrom 0 E'.pool).map Prod.fst) := by
      rw [List.perm_iff_count]
      intro k
      have hcount := hrenders.count_closures k
      have hnew : (closedIn (functionsFrom 0 E.pool)).count k = 0 := by rw [hpool]; rfl
      have hold : ((functionsFrom 0 E.pool).map Prod.fst).count k = 0 := by rw [hpool]; rfl
      rw [Bytecode.streams, List.flatMap_cons, List.flatMap_map, List.count_append, h.constants]
      change (unit.code.instructions.filterMap Instruction.closureConstant?).count k +
        (closedIn (functionsFrom 0 E'.pool)).count k = _
      omega
    exact hperm.nodup_iff.mpr (nodup_functionsFrom _ _)

/-- The streams of an accepted program implement its regions. -/
theorem covers_regions {program : Program} {unit : Bytecode}
    (h : compileProgram program = .ok unit) : unit.Covers (program.regions .nothing) := by
  obtain ⟨t, E', hunit⟩ := exists_compilesUnit h
  exact hunit.covers Compiler.attends_new ScopeChain.agrees_start rfl

/-- Closures capture exactly what their functions need.  In an accepted program, every stream loads
the variables that its region reads, one by one; no function is the constant of two closures; and
whatever stream makes the closure of a function, right before it stand the loads of the variables
that the function captures, all of them local to the stream, in the order in which the function
first loads them by the indices from 0 on. -/
theorem compileProgram_capturesExactly {program : Program} {unit : Bytecode}
    (h : compileProgram program = .ok unit) :
    let streams := unit.streams 0
    let regions := program.regions .nothing
    List.Forall₂ (fun s r => List.Forall₂ (Instruction.Loads r)
        (s.instructions.filter fun i => i.opcode.isLoad) r.reads) streams regions ∧
      (streams.flatMap fun s => s.instructions.filterMap Instruction.closureConstant?).Nodup ∧
      ∀ s r, (s, r) ∈ streams.zip regions →
        ∀ before k n after, s.instructions = before ++ ⟨.closure, [k, n]⟩ :: after →
          ∃ f inner earlier loads, unit.constants[k]? = some (.function f) ∧
            (Stream.ofFunction (k, f.content), inner) ∈ streams.zip regions ∧
            inner.depth = r.depth + 1 ∧ before = earlier ++ loads ∧ loads.length = n ∧
            List.Forall₂ (fun i v => i.opcode.isLocalLoad = true ∧ i.Loads r v) loads
              inner.captured ∧
            (f.content.code.instructions.filterMap Instruction.freeIndex?).eraseDups =
              List.range n := by
  intro streams regions
  obtain ⟨himplements, hnodup⟩ := covers_regions h
  have hloads := himplements.imp fun _ _ hs => hs.loads
  refine ⟨hloads, hnodup, ?_⟩
  intro s r hs before k n after his
  obtain ⟨earlier, loads, hbefore, m, k', f, inner, hf, hinner, hdepth, hi, hlocal⟩ :=
    ((List.forall₂_iff_zip.mp himplements).2 hs).closures before _ after his rfl
  obtain ⟨rfl, rfl⟩ : k = k' ∧ n = inner.captured.length := by simpa using hi
  obtain ⟨-, mark, hconstant⟩ := mem_functionsFrom.mp (List.mem_of_getElem? hf)
  -- the stream of the function has the position of its region
  have hzip : (Stream.ofFunction (k, f), inner) ∈ streams.zip regions := by
    refine List.mem_of_getElem? (List.getElem?_zip_eq_some.mpr ⟨?_, ?_⟩ : _[m + 1]? = _)
    · change ((functionsFrom 0 unit.constants).map Stream.ofFunction)[m]? = _
      rw [List.getElem?_map, hf]
      rfl
    · exact hinner
  exact ⟨_, inner, earlier, loads, hconstant, hzip, hdepth, hbefore, hlocal.length_eq, hlocal,
    eraseDups_freeIndex? ((List.forall₂_iff_zip.mp hloads).2 hzip)⟩

/-- A function in a function in a function, where the innermost one reads variables of both others
and calls the outermost one. -/
def chainedCaptures : Program :=
  [.function ⟨"outer", none, ⟨[("a", .int), ("b", .int)], none⟩⟩
    [.expr (.function none ⟨[("c", .int)], none⟩
      [.expr (.ident "b"),
        .expr (.function none ⟨[], none⟩
          [.expr (.ident "c"), .expr (.ident "a"), .expr (.ident "b"), .expr (.ident "a"),
            .expr (.call (.ident "outer") [] none)])])]]

theorem compileProgram_capturesExactly_chained :
    ∃ unit, compileProgram chainedCaptures = .ok unit ∧ ∃ f earlier loads after,
      (unit.streams 0)[2]?.map Stream.instructions =
        some ((earlier ++ loads) ++ ⟨.closure, [0, 4]⟩ :: after) ∧
      unit.constants[0]? = some (.function f) ∧ loads.length = 4 ∧
      (f.content.code.instructions.filterMap Instruction.freeIndex?).eraseDups = [0, 1, 2, 3] := by
  have hmiddle : (compileProgram chainedCaptures).toOption.bind
      (fun unit => (unit.streams 0)[2]?.map Stream.instructions) =
        some ([⟨.getFree, [0]⟩, ⟨.pop, []⟩, ⟨.getConstLocal, [0]⟩, ⟨.getFree, [1]⟩, ⟨.getFree, [0]⟩,
          ⟨.getFree, [2]⟩] ++ ⟨.closure, [0, 4]⟩ :: [⟨.returnValue, []⟩]) := by decide +kernel
  cases hunit : compileProgram chainedCaptures with
  | error stop => simp [hunit, Except.toOption] at hmiddle
  | ok unit =>
      simp only [hunit, Except.toOption, Option.bind_some] at hmiddle
      obtain ⟨s, hs, his⟩ := Option.map_eq_some_iff.mp hmiddle
      obtain ⟨-, -, hclosures⟩ := compileProgram_capturesExactly hunit
      have hindex : 2 < (chainedCaptures.regions .nothing).length := by decide +kernel
      have hr := List.getElem?_eq_getElem hindex
      have hzip := List.mem_of_getElem? (List.getElem?_zip_eq_some (z := (s, _)).mpr ⟨hs, hr⟩)
      obtain ⟨f, -, earlier, loads, hconstant, -, -, hbefore, hlength, -, hindices⟩ :=
        hclosures s _ hzip _ _ _ _ his
      refine ⟨unit, rfl, f, earlier, loads, [⟨.returnValue, []⟩], ?_, hconstant, hlength, hindices⟩
      rw [hmiddle, hbefore]

end ScriptEngine
