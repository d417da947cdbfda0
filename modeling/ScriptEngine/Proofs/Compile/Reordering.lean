import ScriptEngine.Proofs.Compile.Hoisting
import ScriptEngine.Proofs.Compile.Renumbering
import ScriptEngine.Proofs.Compile.Structs

/-!
# The order of function declarations

A program may begin with declarations of functions.  If it mentions no structs, then it makes no
difference to its being accepted in which order they stand, and the units of two orders are the same
up to a `Numbering`: the constants are renumbered, and so is the code of the rest.

Two neighbours are exchanged first.  The functions that are bound ahead then have other slots, and
the constants of the two bodies change places; all the rest keeps its numbers.  Permutations are put
together from such exchanges.
-/

namespace ScriptEngine

/-! ## Exchanged numbers -/

namespace Numbering

/-- Two blocks of numbers change places: the `a` numbers from `p` on and the next `b` numbers. -/
def exchange (p a b : Nat) : Equiv.Perm Nat where
  toFun k :=
    if k < p then k else if k < p + a then k + b else if k < p + a + b then k - a else k
  invFun k :=
    if k < p then k else if k < p + b then k + a else if k < p + b + a then k - b else k
  left_inv k := by grind
  right_inv k := by grind

variable {p a b k : Nat}

theorem exchange_apply : exchange p a b k =
    if k < p then k else if k < p + a then k + b else if k < p + a + b then k - a else k :=
  rfl

theorem exchange_of_lt (h : k < p) : exchange p a b k = k := by
  rw [exchange_apply, if_pos h]

theorem exchange_of_le (h : p + a + b ≤ k) : exchange p a b k = k := by
  grind [exchange_apply]

theorem exchange_first (h : k < a) : exchange p a b (p + k) = p + b + k := by
  grind [exchange_apply]

theorem exchange_second (h : k < b) : exchange p a b (p + a + k) = p + k := by
  grind [exchange_apply]

theorem exchange_lt {n : Nat} (hn : p + a + b ≤ n) (hk : k < n) : exchange p a b k < n := by
  grind [exchange_apply]

/-- Where blocks of an array change places, its members are found under the exchanged numbers. -/
theorem getElem?_exchange {α : Type} (xs ys zs ws : Array α) (k : Nat) :
    (xs ++ (zs ++ (ys ++ ws)))[exchange xs.size ys.size zs.size k]? =
      (xs ++ (ys ++ (zs ++ ws)))[k]? := by
  by_cases hbefore : k < xs.size
  · rw [exchange_of_lt hbefore, Array.getElem?_append_left hbefore,
      Array.getElem?_append_left hbefore]
  obtain ⟨i, rfl⟩ := Nat.exists_eq_add_of_le (Nat.le_of_not_lt hbefore)
  by_cases hfirst : i < ys.size
  · rw [exchange_first hfirst, Nat.add_assoc]
    simp only [Array.getElem?_append_right, Nat.le_add_right, Nat.add_sub_cancel_left,
      Array.getElem?_append_left hfirst]
  obtain ⟨j, rfl⟩ := Nat.exists_eq_add_of_le (Nat.le_of_not_lt hfirst)
  rw [← Nat.add_assoc]
  by_cases hsecond : j < zs.size
  · rw [exchange_second hsecond, Nat.add_assoc]
    simp only [Array.getElem?_append_right, Nat.le_add_right, Nat.add_sub_cancel_left,
      Array.getElem?_append_left hsecond]
  obtain ⟨m, rfl⟩ := Nat.exists_eq_add_of_le (Nat.le_of_not_lt hsecond)
  rw [exchange_of_le (by omega), Nat.add_assoc]
  conv_lhs => rw [Nat.add_left_comm ys.size]
  simp only [Array.getElem?_append_right, Nat.le_add_right, Nat.add_sub_cancel_left]

end Numbering

variable {ν μ : Numbering}

/-! ## Declarations with other numbers -/

theorem FunctionDeclaration.renumber_symbol (d : FunctionDeclaration) (slot : Nat) :
    (d.symbol slot).renumber ν = d.symbol (ν.slots slot) :=
  rfl

namespace Assembly

theorem renumber_declaring (places : List (Nat × Nat)) :
    (declaring places).renumber ν = declaring (places.map (Prod.map ν.constants ν.slots)) := by
  induction places with
  | nil => rfl
  | cons place places ih => simp only [declaring, renumber, ih, List.map_cons]; rfl

theorem size_declaring (places : List (Nat × Nat)) :
    (declaring places).size = 7 * places.length := by
  induction places with
  | nil => rfl
  | cons place places ih =>
      have hclosure : (⟨.closure, [place.1, 0]⟩ : Instruction).width = 4 := rfl
      have hstore : (⟨.setConstGlobal, [place.2]⟩ : Instruction).width = 3 := rfl
      rw [declaring, size, size, ih, hclosure, hstore, List.length_cons]
      omega

/-- Closures can be stored if the numbers of their constants and slots fit in two bytes. -/
theorem writable_declaring {places : List (Nat × Nat)} {p : Nat} :
    (declaring places).Writable p ↔ ∀ place ∈ places, place.1 < 65536 ∧ place.2 < 65536 := by
  have hclosure (k : Nat) : (⟨.closure, [k, 0]⟩ : Instruction).FitsFormat ↔ k < 65536 := by
    simp [Instruction.FitsFormat, Opcode.operandWidths, Width.bytes]
  have hstore (k : Nat) : (⟨.setConstGlobal, [k]⟩ : Instruction).FitsFormat ↔ k < 65536 := by
    simp [Instruction.FitsFormat, Opcode.operandWidths, Width.bytes]
  induction places generalizing p with
  | nil => simp [declaring, Writable, instrs]
  | cons place places ih =>
      have hrest := @ih (p + 4 + 3)
      simp only [Writable, declaring, instrs, List.forall_mem_cons, hclosure, hstore, and_assoc]
        at hrest ⊢
      exact and_congr_right' (and_congr_right' hrest)

end Assembly

namespace Compiles

variable {A A₁ : Env} {t : Assembly}

/-- A function of the top level is compiled with other numbers in any environment that has the
scopes with other numbers and in which the function is still to be declared. -/
theorem declaration_renumbered (hν : ν.IsNarrow) {d : FunctionDeclaration} {slot : Nat}
    (hA : A.Sound) (htop : A.chain.enclosing = []) (hname : d.name ∈ A.hoisted)
    (hslot : A.chain.current.get? d.name = some (d.symbol slot))
    (hfree : Stmt.areStructFree d.body = true) (h : Compiles A (.stmt d.stmt) t A₁) :
    ∃ added : Array Value, A₁.pool = A.pool ++ added ∧ A₁.structs = A.structs ∧
      A₁.chain = A.chain ∧ A₁.hoisted = (A.fulfil d.name).hoisted ∧
      ∀ A' : Env, A'.Sound → A.chain.Renumbered ν A'.chain → A'.structs = A.structs →
        d.name ∈ A'.hoisted →
        (∀ k < added.size, ν.constants (A.pool.size + k) = A'.pool.size + k) →
        ∃ A₁', Compiles A' (.stmt d.stmt) (t.renumber ν) A₁' ∧ A₁'.structs = A'.structs ∧
          A₁'.chain = A'.chain ∧ A₁'.hoisted = (A'.fulfil d.name).hoisted ∧
          A₁'.pool = A'.pool ++ added.map (Value.renumber ν) := by
  obtain ⟨k, F, rfl, hclosure, rfl⟩ := (declaration_iff hA htop hname hslot).mp h
  obtain ⟨-, -, -, -, -, hchain, -, -⟩ :=
    closure_of_enclosing (E := A.settled) (hA.of_chain hA.chain ∅) htop hclosure
  obtain ⟨added, hpool, hstructs, hcarries⟩ := hclosure.renumbered hν hfree
  refine ⟨added, hpool, hstructs, hchain, rfl, fun A' hA' hscopes hsame hname' hnumbers => ?_⟩
  have htop' : A'.chain.enclosing = [] := by
    have henclosing := hscopes.enclosing
    rw [htop] at henclosing
    exact List.forall₂_nil_left_iff.mp henclosing
  have hslot' : A'.chain.current.get? d.name = some (d.symbol (ν.slots slot)) := by
    rw [hscopes.current.get?, hslot, Option.map_some, d.renumber_symbol]
  obtain ⟨F', hclosure', hF, hpool'⟩ :=
    hcarries A'.settled ⟨hscopes, hsame, fun _ => Iff.rfl⟩ hnumbers
  obtain ⟨-, -, -, -, -, hchain', -, -⟩ :=
    closure_of_enclosing (E := A'.settled) (hA'.of_chain hA'.chain ∅) htop' hclosure'
  refine ⟨{ F' with hoisted := (A'.fulfil d.name).hoisted }, ?_, ?_, hchain', rfl, hpool'⟩
  · exact (declaration_iff hA' htop' hname' hslot').mpr ⟨_, F', rfl, hclosure', rfl⟩
  · exact (hF.structs.trans hstructs).trans hsame.symm

/-- Two functions of the top level are declared in the other order.  The constants of their bodies
change places. -/
theorem swap_declarations (hν : ν.IsNarrow) {B C E A' : Env} {f g : FunctionDeclaration}
    {ds : List FunctionDeclaration} {ss : List Stmt} {slot : Nat} {u v : Assembly}
    (hA : A.Sound) (hA' : A'.Sound) (htop : A.chain.enclosing = [])
    (hpromises : A.Promises slot (f :: g :: ds)) (hf : Compiles A (.stmt f.stmt) t B)
    (hg : Compiles B (.stmt g.stmt) u C) (hss : Compiles C (.stmts ss) v E)
    (hfreef : Stmt.areStructFree f.body = true) (hfreeg : Stmt.areStructFree g.body = true)
    (hfree : Stmt.areStructFree ss = true) (hAA' : A.Renumbered ν A')
    (hsize : A'.pool.size = A.pool.size)
    (hconstants : ν.constants = Numbering.exchange A.pool.size (B.pool.size - A.pool.size)
      (C.pool.size - B.pool.size)) :
    ∃ E' xs ys zs, Compiles A' (.stmts (g.stmt :: f.stmt :: ss))
        (u.renumber ν ++ (t.renumber ν ++ v.renumber ν)) E' ∧
      E.pool = A.pool ++ xs ++ ys ++ zs ∧
      E'.pool = A'.pool ++ ys.map (Value.renumber ν) ++ xs.map (Value.renumber ν) ++
        zs.map (Value.renumber ν) ∧
      xs.size = B.pool.size - A.pool.size ∧ ys.size = C.pool.size - B.pool.size := by
  obtain ⟨hnamef, hslotf⟩ := hpromises.bound f slot List.mem_cons_self
  have hne : f.name ≠ g.name := by
    intro hsame
    have hdistinct := (List.nodup_cons.mp hpromises.distinct).1
    rw [hsame] at hdistinct
    exact hdistinct List.mem_cons_self
  obtain ⟨xs, hpoolB, hstructsB, hchainB, hhoistedB, hmovef⟩ :=
    hf.declaration_renumbered hν hA htop hnamef hslotf hfreef
  have hB := hf.sound hA
  obtain ⟨hnameg, hslotg⟩ :=
    (hpromises.tail hchainB hhoistedB).bound g (slot + 1) List.mem_cons_self
  obtain ⟨ys, hpoolC, hstructsC, hchainC, hhoistedC, hmoveg⟩ :=
    hg.declaration_renumbered hν hB (hchainB ▸ htop) hnameg hslotg hfreeg
  obtain ⟨zs, hpoolE, -, hmove⟩ := hss.renumbered hν hfree
  have hxs : xs.size = B.pool.size - A.pool.size := by
    rw [hpoolB, Array.size_append]
    omega
  have hys : ys.size = C.pool.size - B.pool.size := by
    rw [hpoolC, Array.size_append]
    omega
  rw [← hxs, ← hys] at hconstants
  -- the second function comes first
  obtain ⟨B', hg', hstructsB', hchainB', hhoistedB', hpoolB'⟩ :=
    hmoveg A' hA' (hchainB ▸ hAA'.chain) (hAA'.structs.trans hstructsB.symm)
      ((hAA'.hoisted _).mpr (by
        rw [hhoistedB, Env.mem_hoisted_fulfil] at hnameg
        exact hnameg.1))
      (by
        intro k hk
        rw [hconstants, hpoolB, Array.size_append, hsize]
        exact Numbering.exchange_second hk)
  -- and the first one second
  obtain ⟨C', hf', hstructsC', hchainC', hhoistedC', hpoolC'⟩ :=
    hmovef B' (hg'.sound hA') (hchainB' ▸ hAA'.chain) (hstructsB'.trans hAA'.structs)
      (by
        rw [hhoistedB', Env.mem_hoisted_fulfil]
        exact ⟨(hAA'.hoisted _).mpr hnamef, hne⟩)
      (by
        intro k hk
        rw [hconstants, hpoolB', Array.size_append, Array.size_map, hsize]
        exact Numbering.exchange_first hk)
  have hCC' : C.Renumbered ν C' := by
    refine ⟨?_, ?_, fun name => ?_⟩
    · rw [hchainC, hchainB, hchainC', hchainB']
      exact hAA'.chain
    · rw [hstructsC, hstructsB, hstructsC', hstructsB']
      exact hAA'.structs
    · simp only [hhoistedC, hhoistedB, hhoistedC', hhoistedB', Env.mem_hoisted_fulfil,
        hAA'.hoisted]
      exact and_right_comm
  obtain ⟨E', hss', -, hpoolE'⟩ := hmove C' hCC' (by
    intro k hk
    have hsizes : C'.pool.size = C.pool.size := by
      rw [hpoolC', hpoolB', hpoolC, hpoolB]
      simp only [Array.size_append, Array.size_map, hsize]
      omega
    rw [hsizes, hconstants]
    apply Numbering.exchange_of_le
    rw [hpoolC, hpoolB, Array.size_append, Array.size_append]
    omega)
  refine ⟨E', xs, ys, zs, .stmtsCons hg' (.stmtsCons hf' hss'), ?_, ?_, hxs, hys⟩
  · rw [hpoolE, hpoolC, hpoolB]
  · rw [hpoolE', hpoolC', hpoolB']

end Compiles

/-- Two functions of the top level are bound ahead in the other order, and get each other's slot. -/
theorem Env.swap_promises {E : Env} (hE : E.Sound) (htop : E.chain.enclosing = [])
    (hnumbered : E.chain.current.Numbered) {f g : FunctionDeclaration} (hne : f.name ≠ g.name)
    (hslots : ν.slots = Numbering.exchange E.chain.current.definitions 1 1) :
    ((E.promise f).promise g).Renumbered ν ((E.promise g).promise f) := by
  have hchain := hE.chain
  rw [ScopeChain.Sound, htop] at hchain
  obtain ⟨hglobal, hcaptures, -⟩ := hchain
  have hfirst : ν.slots E.chain.current.definitions = E.chain.current.definitions + 1 := by
    rw [hslots]
    exact Numbering.exchange_first (k := 0) Nat.one_pos
  have hsecond : ν.slots (E.chain.current.definitions + 1) = E.chain.current.definitions := by
    rw [hslots]
    exact Numbering.exchange_second (k := 0) Nat.one_pos
  refine ⟨⟨⟨fun name => ?_, rfl, rfl, ?_, fun _ k hk => ?_⟩, ?_⟩, rfl, fun name => ?_⟩
  · have hsymbol (F : Env) (hF : F.chain.current.isGlobal = true) (d : FunctionDeclaration) :
        (F.promise d).chain.current.get? name =
          if d.name = name then some (d.symbol F.chain.current.definitions)
          else F.chain.current.get? name := by
      rw [Env.get?_promise, Env.nextSymbol_eq_symbol hF]
    rw [hsymbol (E.promise g) hglobal, hsymbol E hglobal, hsymbol (E.promise f) hglobal,
      hsymbol E hglobal]
    by_cases hf : f.name = name
    · have hg : g.name ≠ name := fun hg => hne (hf.trans hg.symm)
      rw [if_pos hf, if_neg hg, if_pos hf, Option.map_some, f.renumber_symbol, hfirst]
      rfl
    by_cases hg : g.name = name
    · rw [if_neg hf, if_pos hg, if_pos hg, Option.map_some, g.renumber_symbol]
      exact congrArg (fun k => some (g.symbol k)) hsecond.symm
    rw [if_neg hf, if_neg hg, if_neg hg, if_neg hf]
    cases hx : E.chain.current.get? name with
    | none => rfl
    | some x =>
        rw [Option.map_some, Symbol.renumber_eq_self]
        intro hstorage
        rw [hslots]
        exact Numbering.exchange_of_lt (hnumbered.below name x hx hstorage)
  · exact hcaptures.trans (congrArg (List.map _) hcaptures.symm)
  · rw [hslots]
    exact Numbering.exchange_of_le hk
  · exact htop.symm ▸ .nil
  · simp only [Env.promise, Env.mem_hoisted_bindAhead]
    exact or_left_comm

/-- Two neighbours among the functions that are bound ahead change places. -/
theorem Env.hoist?_swap {E H : Env} {before : List FunctionDeclaration} {f g : FunctionDeclaration}
    {ss : List Stmt} (hE : E.Sound) (htop : E.chain.enclosing = [])
    (hnumbered : E.chain.current.Numbered)
    (hslots : ν.slots =
      Numbering.exchange (E.chain.current.definitions + before.length) 1 1)
    (h : E.hoist? (before.map FunctionDeclaration.stmt ++ f.stmt :: g.stmt :: ss) = some H) :
    ∃ H', E.hoist? (before.map FunctionDeclaration.stmt ++ g.stmt :: f.stmt :: ss) = some H' ∧
      H.Renumbered ν H' := by
  rw [Env.hoist?_append] at h
  obtain ⟨F, hF, hlater⟩ := Option.bind_eq_some_iff.mp h
  obtain ⟨hf, hlater⟩ := Env.hoist?_cons_eq_some.mp hlater
  obtain ⟨hg, hlater⟩ := Env.hoist?_cons_eq_some.mp hlater
  rw [Env.declared_promise, Set.mem_insert_iff, not_or] at hg
  obtain ⟨hne, hg⟩ := hg
  have htopF : F.chain.enclosing = [] := by
    have hdepth := (Env.Grows.hoist? hF).chain.depth_eq
    rw [ScopeChain.depth, ScopeChain.depth, htop] at hdepth
    exact List.length_eq_zero_iff.mp hdepth
  rw [← Env.definitions_hoist? hF] at hslots
  have hswap := Env.swap_promises (hE.hoist? hF) htopF (Env.numbered_hoist? hnumbered hF)
    (Ne.symm hne) hslots
  obtain ⟨added, hpool, -, hcarries⟩ := Env.Carries.hoist? (ν := ν) hlater
  have hadded : added.size = 0 := by
    have hsize := congrArg Array.size hpool
    rw [Env.pool_hoist? hlater, Array.size_append] at hsize
    omega
  obtain ⟨H', hH', hrenumbered, -⟩ := hcarries _ hswap (by
    intro k hk
    omega)
  refine ⟨H', ?_, hrenumbered⟩
  rw [Env.hoist?_append, hF, Option.bind_some, Env.hoist?_cons_eq_some, Env.hoist?_cons_eq_some,
    Env.declared_promise, Set.mem_insert_iff, not_or]
  exact ⟨hg, ⟨Ne.symm hne, hf⟩, hH'⟩

/-! ## Programs that begin with declarations -/

/-- No statement of the program mentions a struct declaration, a struct literal or a struct type. -/
def Program.IsStructFree (program : Program) : Prop :=
  ∀ s ∈ program, s.isStructFree = true

theorem Stmt.areStructFree_iff {ss : List Stmt} :
    areStructFree ss = true ↔ ∀ s ∈ ss, s.isStructFree = true := by
  induction ss with
  | nil => simp [areStructFree]
  | cons s ss ih => rw [areStructFree, Bool.and_eq_true_iff, List.forall_mem_cons, ih]

/-- A program that begins with declarations of functions is compiled on its own: to code that fills
the first global slots with closures of constants, and the code of the rest. -/
structure DeclaresFirst (ds : List FunctionDeclaration) (rest : Program)
    (places : List (Nat × Nat)) (t : Assembly) (E : Env) : Prop where
  compiles : Compiles Compiler.new.env (.block (ds.map FunctionDeclaration.stmt ++ rest))
    (.declaring places ++ t) E
  slots : places.map Prod.snd = List.range ds.length
  functions : ∀ place ∈ places, ∃ f, E.pool[place.1]? = some (.function ⟨place.1, f⟩)
  afterwards : ∃ F : Env, F.Sound ∧ Compiles F (.stmts rest) t E

variable {ds before after : List FunctionDeclaration} {f g : FunctionDeclaration} {rest : Program}
  {places places' : List (Nat × Nat)} {t : Assembly} {E : Env}

theorem DeclaresFirst.length_places (h : DeclaresFirst ds rest places t E) :
    places.length = ds.length := by
  have hlength := congrArg List.length h.slots
  rwa [List.length_map, List.length_range] at hlength

/-- Where functions are bound ahead on the top level. -/
theorem Compiler.promises_new {H : Env} (hrest : rest.DeclaresNoFunction)
    (h : Compiler.new.env.hoist? (ds.map FunctionDeclaration.stmt ++ rest) = some H) :
    Compiler.new.env.hoist? (ds.map FunctionDeclaration.stmt) = some H ∧ H.Promises 0 ds ∧ H.Sound ∧
      H.chain.enclosing = [] := by
  rw [Env.hoist?_append] at h
  obtain ⟨H', hds, hH⟩ := Option.bind_eq_some_iff.mp h
  rw [H'.hoist?_of_declaresNoFunction hrest] at hH
  obtain rfl := Option.some.inj hH
  have hglobal : Compiler.new.env.chain.current.isGlobal = true := rfl
  refine ⟨hds, Env.promises_of_hoist? hglobal hds, attends_new.sound.hoist? hds, ?_⟩
  exact List.length_eq_zero_iff.mp (Env.Grows.hoist? hds).chain.depth_eq

/-- The code of an accepted program that begins with declarations. -/
theorem Compiles.exists_declaresFirst (hrest : rest.DeclaresNoFunction)
    (h : Compiles Compiler.new.env (.block (ds.map FunctionDeclaration.stmt ++ rest)) t E) :
    ∃ places u, t = .declaring places ++ u ∧ DeclaresFirst ds rest places u E := by
  cases id h with
  | @block _ H _ _ _ hoisted statements =>
      obtain ⟨-, hpromises, hH, htop⟩ := Compiler.promises_new hrest hoisted
      obtain ⟨v, u, F, rfl, hds, hafter⟩ := stmts_append_iff.mp statements
      rw [← List.append_nil ds] at hpromises
      obtain ⟨places, rfl, hslots, hfunctions, -, -⟩ := hds.declarations hH htop hpromises
      refine ⟨places, u, rfl, h, ?_, fun place hplace => ?_, F, hds.sound hH, hafter⟩
      · rw [hslots, List.range_eq_range']
      · obtain ⟨f, hf⟩ := hfunctions place hplace
        exact ⟨f, hafter.grows.pool _ _ hf⟩

/-- How two neighbours among the declarations are compiled. -/
theorem DeclaresFirst.exists_neighbours (hrest : rest.DeclaresNoFunction)
    (h : DeclaresFirst (before ++ f :: g :: after) rest places t E) :
    ∃ (H A B C : Env) (first later : List (Nat × Nat)) (kf kg : Nat),
      Compiler.new.env.hoist? (before.map FunctionDeclaration.stmt ++
        f.stmt :: g.stmt :: (after.map FunctionDeclaration.stmt ++ rest)) = some H ∧
      H.Sound ∧ A.chain.enclosing = [] ∧ A.Promises before.length (f :: g :: after) ∧
      Compiles H (.stmts (before.map FunctionDeclaration.stmt)) (.declaring first) A ∧
      Compiles A (.stmt f.stmt) (.declaring [(kf, before.length)]) B ∧
      Compiles B (.stmt g.stmt) (.declaring [(kg, before.length + 1)]) C ∧ C.pool.size = kg + 1 ∧
      Compiles C (.stmts (after.map FunctionDeclaration.stmt ++ rest)) (.declaring later ++ t) E ∧
      places = first ++ (kf, before.length) :: (kg, before.length + 1) :: later := by
  have hcompiles := h.compiles
  cases hcompiles with
  | @block _ H _ _ _ hoisted statements =>
  obtain ⟨-, hpromises, hH, htop⟩ := Compiler.promises_new hrest hoisted
  simp only [List.map_append, List.map_cons, List.append_assoc, List.cons_append]
    at hoisted statements
  obtain ⟨u, v, A, hcode, hbefore, hnext⟩ := Compiles.stmts_append_iff.mp statements
  obtain ⟨first, rfl, hslots, -, hchainA, hpromisesA⟩ := hbefore.declarations hH htop hpromises
  rw [Nat.zero_add] at hpromisesA
  have hA := hbefore.sound hH
  have htopA : A.chain.enclosing = [] := hchainA ▸ htop
  cases hnext with
  | @stmtsCons _ B _ _ _ tf _ hf hnext =>
  cases hnext with
  | @stmtsCons _ C _ _ _ tg w hg hafter =>
  obtain ⟨hnamef, hslotf⟩ := hpromisesA.bound f _ List.mem_cons_self
  obtain ⟨kf, -, rfl, -, -, hchainB, hhoistedB⟩ := hf.declaration hA htopA hnamef hslotf
  obtain ⟨hnameg, hslotg⟩ :=
    (hpromisesA.tail hchainB hhoistedB).bound g _ List.mem_cons_self
  obtain ⟨kg, -, rfl, hsizeC, -, -, -⟩ :=
    hg.declaration (hf.sound hA) (hchainB ▸ htopA) hnameg hslotg
  have hparts : Assembly.declaring places ++ t =
      .declaring (first ++ [(kf, before.length), (kg, before.length + 1)]) ++ w := by
    rw [hcode, Assembly.declaring_append, Assembly.append_assoc]
    rfl
  have hshorter : (first ++ [(kf, before.length), (kg, before.length + 1)]).length ≤
      places.length := by
    have hfirst := congrArg List.length hslots
    rw [h.length_places]
    simp only [List.length_append, List.length_cons, List.length_map, List.length_range',
      List.length_nil] at hfirst ⊢
    omega
  obtain ⟨later, rfl, rfl⟩ := Assembly.declaring_append_eq hshorter hparts
  refine ⟨H, A, B, C, first, later, kf, kg, hoisted, hH, htopA, hpromisesA, hbefore, hf, hg, hsizeC,
    hafter, ?_⟩
  rw [List.append_assoc]
  rfl

/-- The second unit is the first one with other numbers, apart from the order in which the functions
are declared. -/
structure Rearranges (ν : Numbering) (n : Nat) (places places' : List (Nat × Nat))
    (pool pool' : Array Value) : Prop where
  narrow : ν.IsNarrow
  /-- Only the slots of the functions have other numbers. -/
  fixed : ∀ k, n ≤ k → ν.slots k = k
  places : places'.Perm (places.map (Prod.map ν.constants ν.slots))
  constants : ∀ k, pool'[ν.constants k]? = pool[k]?.map (Value.renumber ν)

/-- Two neighbours among the declarations change places. -/
theorem DeclaresFirst.swap (hrest : rest.DeclaresNoFunction)
    (hfree : Program.IsStructFree
      ((before ++ f :: g :: after).map FunctionDeclaration.stmt ++ rest))
    (h : DeclaresFirst (before ++ f :: g :: after) rest places t E)
    (hwritable : (.declaring places ++ t : Assembly).Writable 0) :
    ∃ ν places' E', DeclaresFirst (before ++ g :: f :: after) rest places' (t.renumber ν) E' ∧
      Rearranges ν (before ++ f :: g :: after).length places places' E.pool E'.pool := by
  obtain ⟨H, A, B, C, first, later, kf, kg, hhoist, hH, htop, hpromises, hbefore, hf, hg, hsize,
    hafter, rfl⟩ := h.exists_neighbours hrest
  simp only [Program.IsStructFree, List.map_append, List.map_cons, List.append_assoc,
    List.cons_append, List.forall_mem_append, List.forall_mem_cons] at hfree
  obtain ⟨hfreeBefore, hfreef, hfreeg, hfreeAfter⟩ := hfree
  rw [← List.forall_mem_append, ← Stmt.areStructFree_iff] at hfreeAfter
  rw [← Stmt.areStructFree_iff] at hfreeBefore
  -- the other numbers can be written
  obtain ⟨hconstant, hslot⟩ := Assembly.writable_declaring.mp
    (Assembly.writable_append.mp hwritable).1 (kg, before.length + 1) (by simp)
  have hgrowsf := hf.grows.pool.size_le
  have hgrowsg := hg.grows.pool.size_le
  let ν : Numbering := ⟨Numbering.exchange before.length 1 1,
    Numbering.exchange A.pool.size (B.pool.size - A.pool.size) (C.pool.size - B.pool.size)⟩
  have hν : ν.IsNarrow :=
    ⟨fun k hk => Numbering.exchange_lt (by omega) hk,
      fun k hk => Numbering.exchange_lt (by omega) hk⟩
  -- the second program is compiled with them
  obtain ⟨H', hhoist', hHH'⟩ := Env.hoist?_swap (ν := ν) Compiler.attends_new.sound rfl
    Scope.numbered_withBuiltins (congrArg (Numbering.exchange · 1 1) (Nat.zero_add _).symm) hhoist
  have hpoolH : H.pool = #[] := Env.pool_hoist? hhoist
  have hpoolH' : H'.pool = #[] := Env.pool_hoist? hhoist'
  obtain ⟨ws, hpoolA, -, hmove⟩ := hbefore.renumbered hν hfreeBefore
  rw [hpoolH, Array.empty_append] at hpoolA
  obtain ⟨A', hbefore', hAA', hpoolA'⟩ := hmove H' hHH' (by
    intro k hk
    rw [hpoolH, hpoolH']
    refine Numbering.exchange_of_lt ?_
    rw [hpoolA]
    exact (Nat.zero_add k).trans_lt hk)
  rw [hpoolH', Array.empty_append] at hpoolA'
  have hH'sound := Compiler.attends_new.sound.hoist? hhoist'
  obtain ⟨E', xs, ys, zs, hnext', hpoolE, hpoolE', hxs, hys⟩ :=
    Compiles.swap_declarations hν (hbefore.sound hH) (hbefore'.sound hH'sound) htop hpromises hf hg
      hafter (Bool.and_eq_true_iff.mp hfreef).2 (Bool.and_eq_true_iff.mp hfreeg).2 hfreeAfter hAA'
      (by rw [hpoolA, hpoolA', Array.size_map]) rfl
  have hblock : Compiles Compiler.new.env
      (.block ((before ++ g :: f :: after).map FunctionDeclaration.stmt ++ rest))
      (.declaring ((first ++ (kg, before.length + 1) :: (kf, before.length) :: later).map
        (Prod.map ν.constants ν.slots)) ++ t.renumber ν) E' := by
    have hall := Compiles.block hhoist'
      (Compiles.stmts_append_iff.mpr ⟨_, _, A', rfl, hbefore', hnext'⟩)
    simp only [Assembly.renumber_append, Assembly.renumber_declaring] at hall
    rw [List.map_append, List.append_assoc, List.map_append, Assembly.declaring_append,
      Assembly.append_assoc]
    exact hall
  -- which has the shape of such code
  obtain ⟨places', u, hcode, hfirst⟩ := hblock.exists_declaresFirst hrest
  obtain ⟨rfl, rfl⟩ := Assembly.declaring_append_inj (by
    have hlength := h.length_places
    rw [hfirst.length_places, List.length_map]
    simp only [List.length_append, List.length_cons] at hlength ⊢
    omega) hcode
  refine ⟨ν, _, E', hfirst, hν, fun k hk => ?_, ?_, fun k => ?_⟩
  · refine Numbering.exchange_of_le ?_
    simp only [List.length_append, List.length_cons] at hk
    omega
  · exact ((List.Perm.swap _ _ later).append_left first).map _
  · have hsizes : ν.constants = Numbering.exchange ws.size xs.size ys.size := by
      rw [hxs, hys, ← hpoolA]
    rw [hpoolE, hpoolE', hpoolA, hpoolA', hsizes]
    simp only [Array.append_assoc, ← Array.map_append, Array.getElem?_map]
    rw [Numbering.getElem?_exchange]

/-! ## Permutations -/

/-- The functions among the constants have code that was written. -/
def HoldsWritten (pool : Array Value) : Prop :=
  ∀ (k : Nat) (f : Marked Function), pool[k]? = some (.function f) →
    ∃ is, Code.Adds .empty is f.content.code

theorem DeclaresFirst.holdsWritten (h : DeclaresFirst ds rest places t E)
    (hwritable : (.declaring places ++ t : Assembly).Writable 0) : HoldsWritten E.pool := by
  obtain ⟨unit, -, hunit⟩ := compileProgram_of_compiles h.compiles hwritable
  intro k f hf
  rw [← hunit.constants] at hf
  exact ((hunit.realizes Compiler.attends_new (Compiler.registers_resume _ _)).functions
    (k, f.content)
    (mem_functionsFrom.mpr ⟨Nat.zero_le _, f.mark, hf⟩)).exists_adds

theorem Function.renumber_renumber {f : Function} {is : List Instruction}
    (hf : Code.Adds .empty is f.code) (hν : ν.IsNarrow) (hμ : μ.IsNarrow) :
    (f.renumber ν).renumber μ = f.renumber (ν.trans μ) := by
  simp only [Function.renumber, Code.renumber_renumber hf hν hμ]

namespace Rearranges

variable {n : Nat} {places'' : List (Nat × Nat)} {pool pool' pool'' : Array Value}

theorem refl (hpool : HoldsWritten pool) : Rearranges .refl n places places pool pool := by
  refine ⟨.refl, fun _ _ => rfl, ?_, fun k => ?_⟩
  · exact (List.map_id places).symm ▸ .refl _
  · cases hv : pool[k]? with
    | none => exact hv
    | some v =>
        refine hv.trans (congrArg some ?_)
        cases v with
        | function f =>
            obtain ⟨is, his⟩ := hpool k f hv
            simp only [Value.renumber, Function.renumber, Code.renumber_refl his]
            rfl
        | _ => rfl

theorem trans (hpool : HoldsWritten pool) (h : Rearranges ν n places places' pool pool')
    (h' : Rearranges μ n places' places'' pool' pool'') :
    Rearranges (ν.trans μ) n places places'' pool pool'' := by
  refine ⟨h.narrow.trans h'.narrow, fun k hk => ?_, ?_, fun k => ?_⟩
  · exact (congrArg μ.slots (h.fixed k hk)).trans (h'.fixed k hk)
  · have hboth := h'.places.trans (h.places.map _)
    rw [List.map_map] at hboth
    exact hboth
  · calc pool''[μ.constants (ν.constants k)]?
        = pool'[ν.constants k]?.map (Value.renumber μ) := h'.constants _
      _ = (pool[k]?.map (Value.renumber ν)).map (Value.renumber μ) := by rw [h.constants]
      _ = pool[k]?.map (Value.renumber (ν.trans μ)) := by
        cases hv : pool[k]? with
        | none => rfl
        | some v =>
            cases v with
            | function f =>
                obtain ⟨is, his⟩ := hpool k f hv
                simp only [Option.map_some, Value.renumber,
                  Function.renumber_renumber his h.narrow h'.narrow]
                rfl
            | _ => rfl

/-- What can be written can be written with the other numbers. -/
theorem writable (h : Rearranges ν n places places' pool pool')
    (hwritable : (.declaring places ++ t : Assembly).Writable 0) :
    (.declaring places' ++ t.renumber ν : Assembly).Writable 0 := by
  rw [Assembly.writable_append, Assembly.writable_declaring, Assembly.size_declaring] at hwritable ⊢
  have hlength := h.places.length_eq
  rw [List.length_map] at hlength
  rw [hlength]
  refine ⟨fun place hplace => ?_, hwritable.2.renumber h.narrow⟩
  obtain ⟨origin, horigin, rfl⟩ := List.mem_map.mp (h.places.mem_iff.mp hplace)
  obtain ⟨hconstant, hslot⟩ := hwritable.1 origin horigin
  exact ⟨h.narrow.constants _ hconstant, h.narrow.slots _ hslot⟩

end Rearranges

theorem Program.IsStructFree.perm {ds ds' : List FunctionDeclaration} (hperm : ds.Perm ds')
    (h : IsStructFree (ds.map FunctionDeclaration.stmt ++ rest)) :
    IsStructFree (ds'.map FunctionDeclaration.stmt ++ rest) := by
  intro s hs
  exact h s (((hperm.map _).append_right rest).mem_iff.mpr hs)

/-- Among the declarations that a program begins with, the last ones stand in another order. -/
theorem DeclaresFirst.perm {ds' : List FunctionDeclaration} (before : List FunctionDeclaration)
    (h : DeclaresFirst (before ++ ds) rest places t E) (hperm : ds.Perm ds')
    (hrest : rest.DeclaresNoFunction)
    (hfree : Program.IsStructFree ((before ++ ds).map FunctionDeclaration.stmt ++ rest))
    (hwritable : (.declaring places ++ t : Assembly).Writable 0) :
    ∃ ν places' E', DeclaresFirst (before ++ ds') rest places' (t.renumber ν) E' ∧
      Rearranges ν (before ++ ds).length places places' E.pool E'.pool := by
  induction hperm generalizing before places t E with
  | nil =>
      refine ⟨.refl, places, E, ?_, .refl (h.holdsWritten hwritable)⟩
      rw [t.renumber_refl]
      exact h
  | @cons d ds ds' _ ih =>
      rw [List.append_cons before d ds] at hfree h ⊢
      rw [List.append_cons before d ds']
      exact ih _ h hfree hwritable
  | swap f g after => exact h.swap hrest hfree hwritable
  | @trans ds₁ ds₂ ds₃ first second ihFirst ihSecond =>
      obtain ⟨ν, places', E', h', hrearranges⟩ := ihFirst before h hfree hwritable
      have hfree' := hfree.perm (first.append_left before)
      obtain ⟨μ, places'', E'', h'', hrearranges'⟩ :=
        ihSecond before h' hfree' (hrearranges.writable hwritable)
      rw [t.renumber_renumber] at h''
      rw [← (first.append_left before).length_eq] at hrearranges'
      exact ⟨ν.trans μ, places'', E'', h'',
        hrearranges.trans (h.holdsWritten hwritable) hrearranges'⟩

/-! ## Statements without code -/

mutual

/-- Whether a statement is a block that holds nothing but such blocks. -/
def Stmt.isIdle : Stmt → Bool
  | .block body => Stmt.areIdle body
  | _ => false

def Stmt.areIdle : List Stmt → Bool
  | [] => true
  | s :: ss => s.isIdle && Stmt.areIdle ss

end

theorem Stmt.areIdle_iff {ss : List Stmt} : areIdle ss = true ↔ ∀ s ∈ ss, s.isIdle = true := by
  induction ss with
  | nil => simp [areIdle]
  | cons s ss ih => rw [areIdle, Bool.and_eq_true, ih, List.forall_mem_cons]

def Phrase.isIdle : Phrase → Bool
  | stmt s => s.isIdle
  | stmts ss | block ss => Stmt.areIdle ss
  | _ => true

/-- Every statement that is not idle is compiled to code, unless it is the declaration of a struct
type. -/
theorem Compiles.isIdle {E E' : Env} {p : Phrase} {t : Assembly} (h : Compiles E p t E')
    (hfree : p.isStructFree = true) (hsize : t.size = 0) : p.isIdle = true := by
  have hlast (u : Assembly) (i : Instruction) : (u ++ Assembly.single i).size ≠ 0 := by
    have hwidth := i.opcode.width_pos
    rw [Assembly.size_append, Assembly.size_single, Instruction.width]
    omega
  induction h with
  | expr | declare | declareZero | assign | ret | loop | declareFunction =>
      exact absurd hsize (hlast _ _)
  | setIndex =>
      rw [← Assembly.append_assoc, ← Assembly.append_assoc] at hsize
      exact absurd hsize (hlast _ _)
  | setField =>
      rw [← Assembly.append_assoc] at hsize
      exact absurd hsize (hlast _ _)
  | retNull => exact absurd hsize (hlast .done _)
  | structType => cases hfree
  | inner _ ih => exact ih hfree hsize
  | stmtsNil => rfl
  | stmtsCons _ _ ihhead ihtail =>
      simp only [Phrase.isStructFree, Stmt.areStructFree, Bool.and_eq_true] at hfree
      rw [Assembly.size_append, Nat.add_eq_zero_iff] at hsize
      simp only [Phrase.isIdle, Stmt.areIdle, Bool.and_eq_true]
      exact ⟨ihhead hfree.1 hsize.1, ihtail hfree.2 hsize.2⟩
  | block _ _ ih => exact ih hfree hsize
  | _ => rfl

end ScriptEngine
