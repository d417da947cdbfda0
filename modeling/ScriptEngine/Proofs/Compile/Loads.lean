import ScriptEngine.Proofs.Compile.Accounts
import ScriptEngine.Proofs.Compile.Persistence
import ScriptEngine.Proofs.Compile.Verification

/-!
# Loads follow stores

A name can be used once it has been declared, and a function that is bound ahead of its declaration
cannot be read before it.  So in compiled code no slot is loaded unless an instruction at a smaller
offset stores to it, the slots of parameters apart (`compileProgram_storesFirst`).  Branches and
loops play no part in this: the order is that of the text.

What is carried along a compilation is that every name of the current scope has been supplied with a
value by the code so far (`Env.Supplied`), and that a function captures what the scope around it
binds (`Scope.HandedDown`), so that the loads in front of a closure are uses like any others.
-/

namespace ScriptEngine

/-! ## Load instructions -/

/-- Whether the instruction loads the slot at an index, of the global store or else of the running
function. -/
def Instruction.loads (isGlobal : Bool) (k : Nat) (i : Instruction) : Bool :=
  match i.opcode with
  | .getGlobal | .getConstGlobal => isGlobal && i.operand 0 == k
  | .getLocal | .getConstLocal => !isGlobal && i.operand 0 == k
  | _ => false

theorem Instruction.loads_eq_false {i : Instruction} (h : i.opcode.isLoad = false)
    (isGlobal : Bool) (k : Nat) : i.loads isGlobal k = false := by
  obtain ⟨op, operands⟩ := i
  cases op <;> first | rfl | cases h

/-- The load of a symbol reads its own slot. -/
theorem Symbol.loads_load {x : Symbol} {isGlobal : Bool} {k : Nat}
    (h : x.load.loads isGlobal k = true) : x.storage = .declared isGlobal ∧ x.index = k := by
  cases hstorage : x.storage <;> cases hmutable : x.isMutable <;> cases isGlobal <;>
    simp_all [Instruction.loads, load, CompileM.loadOf, Instruction.operand, Storage.declared]

/-- The store of a symbol goes to its own slot. -/
theorem Symbol.stores_store {x : Symbol} {i : Instruction} {isGlobal : Bool}
    (h : x.store? = some i) (hx : x.storage = .declared isGlobal) :
    i.stores isGlobal x.index = true := by
  have hcount : storeCount isGlobal x.index [i] = 1 := by
    rw [storeCount_store h, if_pos ⟨hx, rfl⟩]
  simpa [storeCount] using hcount

/-- One of the instructions stores to the slot at an index. -/
def Supplies (isGlobal : Bool) (is : List Instruction) (k : Nat) : Prop :=
  ∃ i ∈ is, i.stores isGlobal k = true

theorem Supplies.mono {isGlobal : Bool} {is js : List Instruction} {k : Nat}
    (h : Supplies isGlobal is k) (hsub : is ⊆ js) : Supplies isGlobal js k := by
  obtain ⟨i, hi, hstores⟩ := h
  exact ⟨i, hsub hi, hstores⟩

/-- After instructions that came before, each of these instructions loads only slots that were
stored to earlier or that come before a first one. -/
def LoadsFollow (isGlobal : Bool) (first : Nat) (before : List Instruction) :
    List Instruction → Prop
  | [] => True
  | i :: is =>
      (∀ k, first ≤ k → i.loads isGlobal k = true → Supplies isGlobal before k) ∧
        LoadsFollow isGlobal first (before ++ [i]) is

namespace LoadsFollow

variable {isGlobal : Bool} {first : Nat} {before is js : List Instruction} {i : Instruction}

theorem append_iff :
    LoadsFollow isGlobal first before (is ++ js) ↔
      LoadsFollow isGlobal first before is ∧ LoadsFollow isGlobal first (before ++ is) js := by
  induction is generalizing before with
  | nil => simp [LoadsFollow]
  | cons i is ih => simp [LoadsFollow, ih, and_assoc]

theorem append (h : LoadsFollow isGlobal first before is)
    (h' : LoadsFollow isGlobal first (before ++ is) js) :
    LoadsFollow isGlobal first before (is ++ js) :=
  append_iff.mpr ⟨h, h'⟩

/-- An instruction that loads nothing. -/
theorem single (h : i.opcode.isLoad = false) : LoadsFollow isGlobal first before [i] := by
  refine ⟨fun k _ hloads => ?_, trivial⟩
  rw [Instruction.loads_eq_false h] at hloads
  cases hloads

theorem concat (h : LoadsFollow isGlobal first before is) (hi : i.opcode.isLoad = false) :
    LoadsFollow isGlobal first before (is ++ [i]) :=
  h.append (single hi)

/-- Loads of slots that were all stored to before. -/
theorem of_forall
    (h : ∀ i ∈ is, ∀ k, first ≤ k → i.loads isGlobal k = true → Supplies isGlobal before k) :
    LoadsFollow isGlobal first before is := by
  induction is generalizing before with
  | nil => trivial
  | cons i is ih =>
      rw [List.forall_mem_cons] at h
      refine ⟨h.1, ih fun j hj k hk hloads => ?_⟩
      exact (h.2 j hj k hk hloads).mono (List.subset_append_left _ _)

end LoadsFollow

/-- In the code, a slot from the first one on is loaded only if an instruction at a smaller offset
stores to it. -/
def Code.StoresFirst (c : Code) (isGlobal : Bool) (first : Nat) : Prop :=
  ∀ load ∈ placedFrom 0 c.instructions, ∀ k, first ≤ k → load.2.loads isGlobal k = true →
    ∃ store ∈ placedFrom 0 c.instructions, store.1 < load.1 ∧ store.2.stores isGlobal k = true

theorem exists_mem_placedFrom {i : Instruction} {is : List Instruction} (h : i ∈ is) (p : Nat) :
    ∃ offset, (offset, i) ∈ placedFrom p is ∧ offset < p + totalWidth is := by
  induction is generalizing p with
  | nil => cases h
  | cons j is ih =>
      rw [placedFrom, totalWidth_cons]
      rcases List.mem_cons.mp h with rfl | hi
      · have hwidth : 0 < i.width := i.opcode.width_pos
        exact ⟨p, List.mem_cons_self, by omega⟩
      · obtain ⟨offset, hmem, hlt⟩ := ih hi (p + j.width)
        exact ⟨offset, List.mem_cons_of_mem _ hmem, by omega⟩

theorem LoadsFollow.exists_placed {isGlobal : Bool} {first : Nat} {before is : List Instruction}
    (h : LoadsFollow isGlobal first before is) {load : Nat × Instruction}
    (hload : load ∈ placedFrom (totalWidth before) is) {k : Nat} (hk : first ≤ k)
    (hloads : load.2.loads isGlobal k = true) :
    ∃ store ∈ placedFrom 0 (before ++ is),
      store.1 < load.1 ∧ store.2.stores isGlobal k = true := by
  induction is generalizing before with
  | nil => cases hload
  | cons i is ih =>
      rcases List.mem_cons.mp hload with rfl | htail
      · obtain ⟨j, hj, hstores⟩ := h.1 k hk hloads
        obtain ⟨offset, hmem, hlt⟩ := exists_mem_placedFrom hj 0
        refine ⟨(offset, j), ?_, by simpa using hlt, hstores⟩
        rw [placedFrom_append]
        exact List.mem_append_left _ hmem
      · have hwidth : totalWidth (before ++ [i]) = totalWidth before + i.width := by
          simp [totalWidth_append]
        rw [← hwidth] at htail
        have hrest := ih h.2 htail
        rwa [List.append_assoc] at hrest

theorem LoadsFollow.storesFirst {isGlobal : Bool} {first : Nat} {c : Code}
    (h : LoadsFollow isGlobal first [] c.instructions) : c.StoresFirst isGlobal first :=
  fun _ hload _ hk hloads => h.exists_placed hload hk hloads

/-! ## What functions capture -/

namespace Scope

/-- What the scope captured is what the scope around it binds, and so on outwards. -/
def HandedDown (s : Scope) : List Scope → Prop
  | [] => True
  | outer :: rest =>
      s.isGlobal = false ∧ (∀ x ∈ s.captures, outer.get? x.name = some x) ∧ outer.HandedDown rest

theorem HandedDown.of_same_captures {s s' : Scope} {rest : List Scope} (h : s.HandedDown rest)
    (hcaptures : s'.captures = s.captures) (hglobal : s'.isGlobal = s.isGlobal) :
    s'.HandedDown rest := by
  cases rest with
  | nil => trivial
  | cons outer rest =>
      rw [HandedDown, hcaptures, hglobal]
      exact h

/-- The second scope binds what the first one binds, and has captured only other names since. -/
structure Widens (s s' : Scope) : Prop where
  bound : ∀ name, s'.get? name = none → s.get? name = none
  captures : ∀ x ∈ s'.captures, x ∈ s.captures ∨ s.get? x.name = none

namespace Widens

variable {s s₁ s₂ : Scope}

theorem refl (s : Scope) : s.Widens s :=
  ⟨fun _ h => h, fun _ h => .inl h⟩

theorem trans (h₁ : s.Widens s₁) (h₂ : s₁.Widens s₂) : s.Widens s₂ where
  bound name h := h₁.bound name (h₂.bound name h)
  captures x hx := by
    rcases h₂.captures x hx with hx | hfree
    · exact h₁.captures x hx
    · exact .inr (h₁.bound x.name hfree)

theorem define (s : Scope) (name : String) (isMutable : Bool) (ty : Option Ty) :
    s.Widens (s.define name isMutable ty).2 where
  bound other h := by
    rw [get?_define] at h
    split at h
    · cases h
    · exact h
  captures _ h := .inl h

theorem capture {x : Symbol} (hfree : s.get? x.name = none) : s.Widens (s.capture x).2 where
  bound other h := by
    rw [get?_capture] at h
    split at h
    · cases h
    · exact h
  captures y hy := by
    rcases List.mem_append.mp hy with hy | hy
    · exact .inl hy
    · obtain rfl := List.mem_singleton.mp hy
      exact .inr hfree

end Widens

/-- The second scope is the first one after it captured further names. -/
structure Absorbs (s s' : Scope) : Prop extends SameSlots s s', Widens s s'

namespace Absorbs

theorem refl (s : Scope) : s.Absorbs s :=
  ⟨.refl s, .refl s⟩

theorem refl_all (ss : List Scope) : List.Forall₂ Absorbs ss ss :=
  List.forall₂_same.mpr fun s _ => refl s

theorem trans {s s₁ s₂ : Scope} (h₁ : s.Absorbs s₁) (h₂ : s₁.Absorbs s₂) : s.Absorbs s₂ :=
  ⟨h₁.toSameSlots.trans h₂.toSameSlots, h₁.toWidens.trans h₂.toWidens⟩

theorem trans_all {ss ss₁ ss₂ : List Scope} (h₁ : List.Forall₂ Absorbs ss ss₁)
    (h₂ : List.Forall₂ Absorbs ss₁ ss₂) : List.Forall₂ Absorbs ss ss₂ := by
  induction h₁ generalizing ss₂ with
  | nil => exact h₂
  | cons hhead _ ih =>
      cases h₂ with
      | cons hhead₂ htail₂ => exact .cons (hhead.trans hhead₂) (ih htail₂)

end Absorbs

end Scope

/-- A name that is found has a symbol of the innermost scope afterwards, or its value is shared.
What the scopes capture on the way is handed down. -/
theorem ScopeChain.handedDown_resolveFrom? {name : String} {s s' : Scope}
    {outer outer' : List Scope} {r : Resolution} (hnamed : ∀ s₁ ∈ s :: outer, s₁.Named)
    (hs : s.HandedDown outer) (h : resolveFrom? name s outer = some (r, s', outer')) :
    s'.HandedDown outer' ∧ s.Absorbs s' ∧ List.Forall₂ Scope.Absorbs outer outer' ∧
      (s'.get? name = some r.symbol ∨ (s.isGlobal = false ∧ r.symbol.storage.isShared = true)) := by
  induction outer generalizing s s' outer' r with
  | nil =>
      simp only [resolveFrom?, Option.map_eq_some_iff, Prod.mk.injEq] at h
      obtain ⟨x, hget, rfl, rfl, rfl⟩ := h
      exact ⟨trivial, .refl s, .nil, .inl hget⟩
  | cons s₁ outer ih =>
      obtain ⟨hlocal, hcaptures, hrest⟩ := hs
      rw [resolveFrom?] at h
      split at h
      next x hget =>
        simp only [Option.some.injEq, Prod.mk.injEq] at h
        obtain ⟨rfl, rfl, rfl⟩ := h
        exact ⟨⟨hlocal, hcaptures, hrest⟩, .refl s, Scope.Absorbs.refl_all _, .inl hget⟩
      next hget =>
        split at h
        · cases h
        next found s₂ outer₂ hfound =>
          have houter := fun s₃ hs₃ => hnamed s₃ (List.mem_cons_of_mem _ hs₃)
          obtain ⟨hhanded, hhead, htail, hbound⟩ := ih houter hrest hfound
          have hkept : ∀ x ∈ s.captures, s₂.get? x.name = some x := fun x hx =>
            hhead.kept x.name x (hcaptures x hx)
          split at h
          next hshared =>
            simp only [Option.some.injEq, Prod.mk.injEq] at h
            obtain ⟨rfl, rfl, rfl⟩ := h
            exact ⟨⟨hlocal, hkept, hhanded⟩, .refl s, .cons hhead htail, .inr ⟨hlocal, hshared⟩⟩
          next hshared =>
            simp only [Option.some.injEq, Prod.mk.injEq] at h
            obtain ⟨rfl, rfl, rfl⟩ := h
            have hname := (declared_resolveFrom? houter hfound).1
            have hfree : s.get? found.symbol.name = none := by rw [hname, hget]
            have hfound₂ : s₂.get? found.symbol.name = some found.symbol := by
              rcases hbound with hbound | ⟨-, hbound⟩
              · rw [hname, hbound]
              · exact absurd hbound hshared
            refine ⟨⟨hlocal, ?_, hhanded⟩, ⟨.capture hfree, .capture hfree⟩, .cons hhead htail,
              .inl ?_⟩
            · exact List.forall_mem_append.mpr ⟨hkept, List.forall_mem_singleton.mpr hfound₂⟩
            · rw [Scope.get?_capture, if_pos hname]

/-! ## Names that have a value -/

/-- The functions among the constants load no slot of their own before they store to it, the slots
of parameters apart. -/
def FunctionsStoreFirst (pool : Array Value) : Prop :=
  ∀ f, Value.function f ∈ pool → f.content.code.StoresFirst false f.content.parameters

theorem FunctionsStoreFirst.push {pool : Array Value} {v : Value} (h : FunctionsStoreFirst pool)
    (hv : ∀ f, v = .function f → f.content.code.StoresFirst false f.content.parameters) :
    FunctionsStoreFirst (pool.push v) := by
  intro f hf
  rcases Array.mem_push.mp hf with hf | rfl
  · exact h f hf
  · exact hv f rfl

/-- The slot of every name of the current scope has been stored to by the code so far, or it is that
of a parameter.  Left out are functions that are still to be declared, and a name with its slot that
is awaited. -/
structure Env.Supplied (E : Env) (first : Nat) (awaited : Option (String × Nat))
    (before : List Instruction) : Prop where
  named : E.chain.Named
  handed : E.chain.current.HandedDown E.chain.enclosing
  storage : ∀ name x, E.chain.current.get? name = some x → x.storage.isDeclared = true →
    x.storage = .declared E.chain.current.isGlobal
  stored : ∀ name x, E.chain.current.get? name = some x → x.storage.isDeclared = true →
    awaited = some (name, x.index) ∨ name ∈ E.hoisted ∨ x.index < first ∨
      Supplies E.chain.current.isGlobal before x.index
  functions : FunctionsStoreFirst E.pool

theorem Scope.eq_of_get?_define {s : Scope} {name other : String} {isMutable : Bool}
    {ty : Option Ty} {x : Symbol} (h : (s.define name isMutable ty).2.get? other = some x) :
    (other = name ∧ x = (s.define name isMutable ty).1) ∨ s.get? other = some x := by
  rw [get?_define] at h
  split at h
  next hname => exact .inl ⟨hname.symm, (Option.some.inj h).symm⟩
  next => exact .inr h

theorem Scope.Widens.withParameters (E : Env) (parameters : List (String × Ty)) :
    E.chain.current.Widens (E.withParameters parameters).chain.current := by
  induction parameters generalizing E with
  | nil => exact .refl _
  | cons p parameters ih =>
      exact (define E.chain.current _ _ _).trans (ih (E.define p.1 false (some p.2)).2)

/-- At the beginning of a function, its name is bound. -/
theorem Env.get?_enter_self (E : Env) (name : String) (signature : Signature) :
    (E.enter (some name) signature).chain.current.get? name ≠ none := by
  intro hnone
  have hwidens := Scope.Widens.withParameters
    { E with chain := (E.chain.push.defineSelf name (some signature.ty)).2, hoisted := ∅ }
    signature.parameters
  have hbound := hwidens.bound name hnone
  simp [ScopeChain.defineSelf] at hbound

namespace Env.Supplied

variable {E E' : Env} {first : Nat} {awaited : Option (String × Nat)}
  {before before' is : List Instruction}

theorem named_current (h : E.Supplied first awaited before) : E.chain.current.Named :=
  h.named _ List.mem_cons_self

theorem mono (h : E.Supplied first awaited before)
    (hsub : ∀ k, Supplies E.chain.current.isGlobal before k →
      Supplies E.chain.current.isGlobal before' k) : E.Supplied first awaited before' where
  named := h.named
  handed := h.handed
  storage := h.storage
  stored name x hx hdeclared :=
    (h.stored name x hx hdeclared).imp_right (.imp_right (.imp_right (hsub x.index)))
  functions := h.functions

/-- With other constants. -/
theorem of_chain_eq (h : E.Supplied first awaited before) (hchain : E'.chain = E.chain)
    (hhoisted : E'.hoisted = E.hoisted) (hfunctions : FunctionsStoreFirst E'.pool) :
    E'.Supplied first awaited before := by
  obtain ⟨pool, chain, structs, hoisted⟩ := E'
  obtain rfl : chain = E.chain := hchain
  obtain rfl : hoisted = E.hoisted := hhoisted
  exact ⟨h.named, h.handed, h.storage, h.stored, hfunctions⟩

/-- The current scope has captured further names. -/
theorem absorbs {chain : ScopeChain} (h : E.Supplied first awaited before)
    (hnamed : chain.Named) (hhanded : chain.current.HandedDown chain.enclosing)
    (hcurrent : E.chain.current.Absorbs chain.current) :
    { E with chain }.Supplied first awaited before where
  named := hnamed
  handed := hhanded
  storage name x hx hdeclared := by
    rw [hcurrent.isGlobal]
    exact h.storage name x (hcurrent.declared name x hx hdeclared) hdeclared
  stored name x hx hdeclared := by
    rw [hcurrent.isGlobal]
    exact h.stored name x (hcurrent.declared name x hx hdeclared) hdeclared
  functions := h.functions

/-- A symbol of the current scope that can be read has a value. -/
theorem supplies_of_canLoad (h : E.Supplied first awaited before) {name : String} {x : Symbol}
    (hx : E.chain.current.get? name = some x) (hdeclared : x.storage.isDeclared = true)
    (hawaited : awaited ≠ some (name, x.index)) (hreadable : E.canLoad x = true)
    (hfirst : first ≤ x.index) : Supplies E.chain.current.isGlobal before x.index := by
  rcases h.stored name x hx hdeclared with hawaits | hhoisted | hparameter | hsupplies
  · exact absurd hawaits hawaited
  · rw [← h.named_current name x hx] at hhoisted
    have hcontains : E.hoisted.contains x.name = true := Std.TreeSet.contains_iff_mem.mpr hhoisted
    simp [canLoad, hdeclared, hcontains] at hreadable
  · omega
  · exact hsupplies

/-- After a name is declared, its slot is awaited. -/
theorem define (h : E.Supplied first none before) (name : String) (isMutable : Bool)
    (ty : Option Ty) :
    (E.define name isMutable ty).2.Supplied first
      (some (name, (E.define name isMutable ty).1.index)) before where
  named := List.forall_mem_cons.mpr ⟨Scope.named_bind h.named_current _,
    fun s hs => h.named s (List.mem_cons_of_mem _ hs)⟩
  handed := h.handed.of_same_captures rfl rfl
  storage other x hx hdeclared := by
    rcases Scope.eq_of_get?_define hx with ⟨-, rfl⟩ | hx
    · rfl
    · exact h.storage other x hx hdeclared
  stored other x hx hdeclared := by
    rcases Scope.eq_of_get?_define hx with ⟨rfl, rfl⟩ | hx
    · exact .inl rfl
    · rcases h.stored other x hx hdeclared with hawaits | hstored
      · cases hawaits
      · exact .inr hstored
  functions := h.functions

/-- A function that is bound ahead is still to be declared. -/
theorem bindAhead (h : E.Supplied first none before) (name : String) (ty : Option Ty) :
    (E.bindAhead name ty).Supplied first none before where
  named := (h.define name false ty).named
  handed := (h.define name false ty).handed
  storage := (h.define name false ty).storage
  stored other x hx hdeclared := by
    rcases (h.define name false ty).stored other x hx hdeclared with hawaits | hhoisted | hstored
    · obtain ⟨rfl, -⟩ := Prod.mk.inj (Option.some.inj hawaits)
      exact .inr (.inl (mem_hoisted_bindAhead.mpr (.inl rfl)))
    · exact .inr (.inl (mem_hoisted_bindAhead.mpr (.inr hhoisted)))
    · exact .inr (.inr hstored)
  functions := h.functions

/-- What is awaited is stored. -/
theorem store {name : String} {x : Symbol} {i : Instruction}
    (h : E.Supplied first (some (name, x.index)) before)
    (hx : x.storage = .declared E.chain.current.isGlobal) (hstore : x.store? = some i) :
    E.Supplied first none (before ++ [i]) where
  named := h.named
  handed := h.handed
  storage := h.storage
  stored other y hy hdeclared := by
    rcases h.stored other y hy hdeclared with hawaits | hhoisted | hparameter | hsupplies
    · obtain ⟨-, hindex⟩ := Prod.mk.inj (Option.some.inj hawaits)
      refine .inr (.inr (.inr ⟨i, List.mem_append_right _ List.mem_cons_self, ?_⟩))
      rw [← hindex]
      exact Symbol.stores_store hstore hx
    · exact .inr (.inl hhoisted)
    · exact .inr (.inr (.inl hparameter))
    · exact .inr (.inr (.inr (hsupplies.mono (List.subset_append_left _ _))))
  functions := h.functions

/-- At the beginning of a function, only the parameters have slots. -/
theorem enter (h : E.Supplied first awaited before) (name : Option String)
    (signature : Signature) :
    (E.enter name signature).Supplied signature.parameters.length none [] := by
  obtain ⟨hrecords, hlocal, -⟩ := E.records_enter name signature
  obtain ⟨-, henclosing, hnamed⟩ := E.declared_enter h.named name signature
  refine ⟨hnamed, ?_, ?_, ?_, ?_⟩
  · rw [henclosing]
    refine ⟨hlocal, ?_, h.handed⟩
    rw [E.captures_enter]
    exact List.forall_mem_nil _
  · intro other x hx hdeclared
    exact (hrecords.declared other x hx hdeclared).1
  · intro other x hx hdeclared
    obtain ⟨-, slot, hslot, -⟩ := hrecords.declared other x hx hdeclared
    have hlt := (List.getElem?_eq_some_iff.mp hslot).1
    rw [List.length_map, List.length_map] at hlt
    exact .inr (.inr (.inl hlt))
  · rw [(E.same_enter name signature).2]
    exact h.functions

end Env.Supplied

/-! ## Compiled code -/

/-- From one environment to the other the instructions load only what has a value, and what has none
yet is supplied with one, but for what is awaited.  Around the current scope nothing is declared. -/
structure Loads (first : Nat) (before : List Instruction) (E : Env) (is : List Instruction)
    (awaited : Option (String × Nat)) (E' : Env) : Prop where
  follow : LoadsFollow E.chain.current.isGlobal first before is
  supplied : E'.Supplied first awaited (before ++ is)
  isGlobal : E'.chain.current.isGlobal = E.chain.current.isGlobal
  widens : E.chain.current.Widens E'.chain.current
  around : List.Forall₂ Scope.Absorbs E.chain.enclosing E'.chain.enclosing

namespace Loads

variable {first : Nat} {before is js : List Instruction} {E E₁ E' : Env}
  {awaited : Option (String × Nat)} {i : Instruction}

/-- One piece of code after another. -/
theorem andThen (h : Loads first before E is awaited E₁) {awaited' : Option (String × Nat)}
    (h' : ∀ {before}, E₁.Supplied first awaited before →
      Loads first before E₁ js awaited' E') :
    Loads first before E (is ++ js) awaited' E' := by
  obtain ⟨hfollow, hsupplied, hglobal, hwidens, haround⟩ := h' h.supplied
  rw [h.isGlobal] at hfollow hglobal
  rw [List.append_assoc] at hsupplied
  exact ⟨h.follow.append hfollow, hsupplied, hglobal, h.widens.trans hwidens,
    Scope.Absorbs.trans_all h.around haround⟩

/-- No code. -/
theorem silent (h : E'.Supplied first awaited before)
    (hglobal : E'.chain.current.isGlobal = E.chain.current.isGlobal)
    (hwidens : E.chain.current.Widens E'.chain.current)
    (haround : E'.chain.enclosing = E.chain.enclosing) :
    Loads first before E [] awaited E' := by
  refine ⟨trivial, ?_, hglobal, hwidens, ?_⟩
  · rw [List.append_nil]
    exact h
  · rw [haround]
    exact Scope.Absorbs.refl_all _

/-- An instruction that loads nothing. -/
theorem single (h : E.Supplied first awaited before) (hi : i.opcode.isLoad = false) :
    Loads first before E [i] awaited E where
  follow := .single hi
  supplied := h.mono fun _ hk => hk.mono (List.subset_append_left _ _)
  isGlobal := rfl
  widens := .refl _
  around := Scope.Absorbs.refl_all _

theorem concat (h : Loads first before E is awaited E') (hi : i.opcode.isLoad = false) :
    Loads first before E (is ++ [i]) awaited E' :=
  h.andThen fun h' => single h' hi

/-- Other constants, none of them a new function. -/
theorem of_chain_eq (h : E.Supplied first awaited before) (hchain : E'.chain = E.chain)
    (hhoisted : E'.hoisted = E.hoisted) (hfunctions : FunctionsStoreFirst E'.pool) :
    Loads first before E [] awaited E' := by
  refine silent (h.of_chain_eq hchain hhoisted hfunctions) ?_ ?_ ?_
  · rw [hchain]
  · rw [hchain]
    exact .refl _
  · rw [hchain]

/-- A constant that is not a function. -/
theorem keep (h : E.Supplied first awaited before) {v : Value} (hv : ∀ f, v ≠ .function f) :
    Loads first before E [] awaited (E.keep v) :=
  of_chain_eq h rfl rfl (h.functions.push fun f hf => absurd hf (hv f))

theorem register (h : E.Supplied first awaited before) (type : StructType) :
    Loads first before E [] awaited (E.register type) :=
  of_chain_eq h rfl rfl (h.functions.push fun f hf => by cases hf)

theorem structConstant (h : E.Supplied first awaited before) (type : StructType) :
    Loads first before E [] awaited (E.structConstant type).2 := by
  cases hknown : E.structs.get? type.name with
  | some known =>
      simp only [Env.structConstant, hknown]
      exact of_chain_eq h rfl rfl h.functions
  | none =>
      simp only [Env.structConstant, hknown]
      exact of_chain_eq h rfl rfl (h.functions.push fun f hf => by cases hf)

/-- The use of a name that can be read. -/
theorem use (h : E.Supplied first none before) {name : String} {x : Symbol}
    (resolved : E.resolve? name = some (x, E')) (readable : E'.canLoad x = true) :
    Loads first before E [x.load] none E' := by
  simp only [Env.resolve?, Option.map_eq_some_iff, Prod.mk.injEq] at resolved
  obtain ⟨⟨r, chain⟩, hfound, rfl, rfl⟩ := resolved
  have hresolved := ScopeChain.resolve?_eq_some hfound
  obtain ⟨-, -, -, hnamed⟩ := ScopeChain.declared_resolveFrom? h.named hresolved
  obtain ⟨hhanded, hcurrent, haround, hbound⟩ :=
    ScopeChain.handedDown_resolveFrom? h.named h.handed hresolved
  have hsupplied := h.absorbs hnamed hhanded hcurrent
  refine ⟨⟨fun k hk hloads => ?_, trivial⟩, ?_, hcurrent.isGlobal, hcurrent.toWidens, haround⟩
  · obtain ⟨hstorage, rfl⟩ := Symbol.loads_load hloads
    have hdeclared : r.symbol.storage.isDeclared = true := by
      rw [hstorage]
      cases E.chain.current.isGlobal <;> rfl
    rcases hbound with hbound | ⟨hlocal, hshared⟩
    · have hsupplies := hsupplied.supplies_of_canLoad hbound hdeclared (by simp) readable hk
      rwa [← hcurrent.isGlobal]
    · -- a shared value is not kept in a slot of the function
      rw [hstorage, hlocal] at hshared
      cases hshared
  · exact hsupplied.mono fun _ hk => hk.mono (List.subset_append_left _ _)

/-- A declaration stores to the slot of the name. -/
theorem define (h : E.Supplied first none before) {name : String} {isMutable : Bool}
    {ty : Option Ty} (store : (E.define name isMutable ty).1.store? = some i) :
    Loads first before E [i] none (E.define name isMutable ty).2 where
  follow := .single (Opcode.not_isEventful (Symbol.store?_plain store)).1
  supplied := (h.define name isMutable ty).store rfl store
  isGlobal := rfl
  widens := .define _ _ _ _
  around := Scope.Absorbs.refl_all _

/-- The functions of a block are bound ahead. -/
theorem hoist? {ss : List Stmt} (h : E.Supplied first none before)
    (hhoist : E.hoist? ss = some E') : Loads first before E [] none E' := by
  induction ss generalizing E before with
  | nil =>
      obtain rfl := Option.some.inj hhoist
      exact silent h rfl (.refl _) rfl
  | cons s ss ih =>
      cases s with
      | function header body =>
          rw [Env.hoist?] at hhoist
          split at hhoist
          · cases hhoist
          · have hsupplied := h.bindAhead header.boundName (some header.signature.ty)
            have hbind : Loads first before E [] none
                (E.bindAhead header.boundName (some header.signature.ty)) :=
              silent hsupplied rfl (.define _ _ _ _) rfl
            exact hbind.andThen fun h' => ih h' hhoist
      | _ => exact ih h hhoist

/-- The declaration of a function begins: its slot is awaited. -/
theorem declared? (h : E.Supplied first none before) {header : FunctionHeader} {x : Symbol}
    (hdeclared : E.declared? header = some (x, E')) (store : x.store? = some i) :
    Loads first before E [] (some (header.boundName, x.index)) E' ∧
      x.storage = .declared E'.chain.current.isGlobal := by
  have hslot : x.storage.isDeclared = true := by
    cases hstorage : x.storage <;> cases hmutable : x.isMutable <;>
      simp_all [Symbol.store?, Storage.isDeclared]
  rw [Env.declared?] at hdeclared
  split at hdeclared
  next y hy =>
    -- the function was bound ahead
    obtain ⟨rfl, rfl⟩ := Prod.mk.inj (Option.some.inj hdeclared)
    have hbound : E.chain.current.get? header.boundName = some y := by
      split at hy
      · exact hy
      · cases hy
    refine ⟨silent ?_ rfl (.refl _) rfl, h.storage _ y hbound hslot⟩
    refine ⟨h.named, h.handed, h.storage, fun other z hz hother => ?_, h.functions⟩
    by_cases hname : other = header.boundName
    · subst hname
      obtain rfl : y = z := Option.some.inj (hbound.symm.trans hz)
      exact .inl rfl
    · rcases h.stored other z hz hother with hawaits | hhoisted | hstored
      · cases hawaits
      · exact .inr (.inl (Env.mem_hoisted_fulfil.mpr ⟨hhoisted, hname⟩))
      · exact .inr (.inr hstored)
  next =>
    split at hdeclared
    · cases hdeclared
    next hconflict =>
      obtain ⟨rfl, rfl⟩ := Prod.mk.inj (Option.some.inj hdeclared)
      have hfree : header.boundName ∉ E.chain.current.declared :=
        ScopeChain.conflict?_eq_none_iff.mp (by simpa using hconflict)
      have hfulfil : (E.fulfil header.boundName).Supplied first none before := by
        refine ⟨h.named, h.handed, h.storage, fun other z hz hother => ?_, h.functions⟩
        rcases h.stored other z hz hother with hawaits | hhoisted | hstored
        · cases hawaits
        · refine .inr (.inl (Env.mem_hoisted_fulfil.mpr ⟨hhoisted, ?_⟩))
          rintro rfl
          exact hfree ⟨z, hz, hother⟩
        · exact .inr (.inr hstored)
      exact ⟨silent (hfulfil.define _ _ _) rfl (.define _ _ _ _) rfl, rfl⟩

/-- What is awaited is stored. -/
theorem store {name : String} {x : Symbol}
    (h : Loads first before E is (some (name, x.index)) E')
    (hx : x.storage = .declared E'.chain.current.isGlobal) (hstore : x.store? = some i) :
    Loads first before E (is ++ [i]) none E' where
  follow := h.follow.concat (Opcode.not_isEventful (Symbol.store?_plain hstore)).1
  supplied := by
    rw [← List.append_assoc]
    exact h.supplied.store hx hstore
  isGlobal := h.isGlobal
  widens := h.widens
  around := h.around

theorem leavesValue {t u : Assembly} {o : Nat} (h : Loads first before E (t.instrs o) awaited E')
    (value : t.LeavesValue u) : Loads first before E (u.instrs o) awaited E' := by
  cases value with
  | value u =>
      rw [Assembly.instrs_append, Assembly.instrs_single] at h
      refine ⟨(LoadsFollow.append_iff.mp h.follow).1, ?_, h.isGlobal, h.widens, h.around⟩
      refine h.supplied.mono fun k hk => ?_
      obtain ⟨j, hj, hstores⟩ := hk
      rw [← List.append_assoc, List.mem_append, List.mem_singleton] at hj
      rcases hj with hj | rfl
      · exact ⟨j, hj, hstores⟩
      · cases hstores
  | null =>
      rw [Assembly.instrs_append, Assembly.instrs_single]
      exact h.concat rfl

/-- The code of a function body, with the return at its end. -/
theorem follow_of_returns {t u : Assembly} {o : Nat}
    (h : Loads first before E (t.instrs o) awaited E') (returns : t.Returns u) :
    LoadsFollow E.chain.current.isGlobal first before (u.instrs o) := by
  have hfollow := h.follow
  cases returns with
  | value t =>
      rw [Assembly.instrs_append, Assembly.instrs_single] at hfollow ⊢
      exact (LoadsFollow.append_iff.mp hfollow).1.concat rfl
  | already => exact hfollow
  | null =>
      rw [Assembly.instrs_append, Assembly.instrs_single]
      exact hfollow.concat rfl

/-- A function is made into a closure: what it captures is loaded, and its own name is not among
that. -/
theorem closure {name : Option String} {signature : Signature} {t u : Assembly} {scope : Scope}
    {chain : ScopeChain} {code : Code} (h : E.Supplied first awaited before)
    (hself : ∀ a, awaited = some a → name = some a.1)
    (body : Loads signature.parameters.length [] (E.enter name signature) (t.instrs 0) none E')
    (returns : t.Returns u) (written : Code.Adds .empty (u.instrs 0) code)
    (left : E'.chain.pop? = some (scope, chain))
    (readable : ∀ x ∈ scope.captures, { E' with chain, hoisted := E.hoisted }.canLoad x = true) :
    Loads first before E
      (scope.captures.map Symbol.load ++ [⟨.closure, [E'.pool.size, scope.captures.length]⟩])
      awaited
      ({ E' with chain, hoisted := E.hoisted }.keep (.function ⟨E'.pool.size,
        { code
          locals := scope.definitions
          parameters := signature.parameters.length
          name }⟩)) := by
  obtain ⟨hcurrent, henclosing⟩ := ScopeChain.eq_of_pop? left
  have haround := body.around
  rw [(E.declared_enter h.named name signature).2.1, henclosing] at haround
  obtain ⟨hhead, htail⟩ := List.forall₂_cons.mp haround
  have hhanded := body.supplied.handed
  rw [henclosing, hcurrent] at hhanded
  obtain ⟨-, hcaptures, hrest⟩ := hhanded
  have hnamed : chain.Named := by
    intro s hs
    apply body.supplied.named s
    rw [henclosing]
    exact List.mem_cons_of_mem _ hs
  have hfunction : code.StoresFirst false signature.parameters.length := by
    have hfollow := body.follow_of_returns returns
    rw [(E.records_enter name signature).2.1, ← Code.instructions_of_adds written] at hfollow
    exact hfollow.storesFirst
  have hsupplied := h.absorbs hnamed hrest hhead
  refine ⟨LoadsFollow.concat (.of_forall fun i hi k hk hloads => ?_) rfl, ?_, hhead.isGlobal,
    hhead.toWidens, htail⟩
  · obtain ⟨x, hx, rfl⟩ := List.mem_map.mp hi
    obtain ⟨hstorage, rfl⟩ := Symbol.loads_load hloads
    have hdeclared : x.storage.isDeclared = true := by
      rw [hstorage]
      cases E.chain.current.isGlobal <;> rfl
    have hawaited : awaited ≠ some (x.name, x.index) := by
      intro hawaited
      obtain rfl := hself _ hawaited
      rcases body.widens.captures x (hcurrent ▸ hx) with hmem | hfree
      · rw [E.captures_enter] at hmem
        cases hmem
      · exact E.get?_enter_self x.name signature hfree
    have hsupplies :=
      hsupplied.supplies_of_canLoad (hcaptures x hx) hdeclared hawaited (readable x hx) hk
    rwa [← hhead.isGlobal]
  · have hfunctions := body.supplied.functions.push (v := .function ⟨E'.pool.size,
      { code
        locals := scope.definitions
        parameters := signature.parameters.length
        name }⟩) fun f hf => by cases hf; exact hfunction
    refine Env.Supplied.mono ?_ fun _ hk => hk.mono (List.subset_append_left _ _)
    exact hsupplied.of_chain_eq rfl rfl hfunctions

end Loads

/-- What is said of a phrase: its code loads only what has a value.  The slot of a function may be
awaited while the function is made into a closure. -/
def Phrase.LoadsStored (E : Env) (t : Assembly) (E' : Env) : Phrase → Prop
  | closure name _ _ => ∀ first awaited before o, (∀ a, awaited = some a → name = some a.1) →
      E.Supplied first awaited before → Loads first before E (t.instrs o) awaited E'
  | _ => ∀ first before o, E.Supplied first none before →
      Loads first before E (t.instrs o) none E'

/-- The code of a phrase loads only what has a value. -/
theorem Compiles.loads {E E' : Env} {p : Phrase} {t : Assembly} (h : Compiles E p t E') :
    p.LoadsStored E t E' := by
  induction h with
  | int | float | str | zeroInt | zeroFloat | zeroString =>
      intro first before o hE
      exact (Loads.keep hE (by simp)).concat rfl
  | boolTrue | boolFalse | null | nothing | zeroBool | zeroNull | zeroFunc | zeroArray | zeroHash
  | retNull =>
      intro first before o hE
      exact .single hE rfl
  | exprsNil | pairsNil | fieldsNil | zerosNil | stmtsNil =>
      intro first before o hE
      exact .silent hE rfl (.refl _) rfl
  | use resolved readable =>
      intro first before o hE
      exact .use hE resolved readable
  | structType type =>
      intro first before o hE
      exact .register hE type
  | ident _ ih | otherwise _ ih | fieldZero _ ih | inner _ ih | fieldGiven _ ih
  | fieldLater _ _ ih => exact ih
  | function _ ih =>
      intro first before o hE
      exact ih first none before o (by simp) hE
  | unary _ ih =>
      intro first before o hE
      rw [Assembly.instrs_append]
      exact (ih first before o hE).concat (by cases ‹PrefixOp› <;> rfl)
  | binary _ _ _ ih₁ ih₂ | swapped _ _ _ ih₁ ih₂ =>
      intro first before o hE
      rw [Assembly.instrs_append, Assembly.instrs_append]
      exact (ih₁ first before o hE).andThen fun h₁ =>
        (ih₂ first _ _ h₁).concat (by cases ‹InfixOp› <;> rfl)
  | cond _ _ _ ih₁ ih₂ ih₃ =>
      intro first before o hE
      simp only [Assembly.instrs, List.append_nil]
      exact (ih₁ first before o hE).andThen fun h₁ => (Loads.single h₁ rfl).andThen fun h₁ =>
        (ih₂ first _ _ h₁).andThen fun h₂ => (Loads.single h₂ rfl).andThen fun h₂ =>
          ih₃ first _ _ h₂
  | branch _ value ih =>
      intro first before o hE
      exact (ih first before o hE).leavesValue value
  | callNamed _ _ _ ih₁ ih₂ | callValue _ _ _ ih₁ ih₂ | index _ _ ih₁ ih₂
  | setField _ _ _ ih₁ ih₂ =>
      intro first before o hE
      rw [Assembly.instrs_append, Assembly.instrs_append]
      exact (ih₁ first before o hE).andThen fun h₁ => (ih₂ first _ _ h₁).concat rfl
  | array _ ih | hash _ ih | select _ _ ih | expr _ ih | ret _ _ ih =>
      intro first before o hE
      rw [Assembly.instrs_append]
      exact (ih first before o hE).concat rfl
  | exprsCons _ _ ih₁ ih₂ | fieldsCons _ _ ih₁ ih₂ | zerosCons _ _ ih₁ ih₂
  | stmtsCons _ _ ih₁ ih₂ =>
      intro first before o hE
      rw [Assembly.instrs_append]
      exact (ih₁ first before o hE).andThen fun h₁ => ih₂ first _ _ h₁
  | pairsCons _ _ _ ih₁ ih₂ ih₃ =>
      intro first before o hE
      rw [Assembly.instrs_append, Assembly.instrs_append]
      exact (ih₁ first before o hE).andThen fun h₁ =>
        (ih₂ first _ _ h₁).andThen fun h₂ => ih₃ first _ _ h₂
  | setIndex _ _ _ ih₁ ih₂ ih₃ =>
      intro first before o hE
      rw [Assembly.instrs_append, Assembly.instrs_append, Assembly.instrs_append]
      exact (ih₁ first before o hE).andThen fun h₁ =>
        (ih₂ first _ _ h₁).andThen fun h₂ => (ih₃ first _ _ h₂).concat rfl
  | struct _ _ _ ih =>
      intro first before o hE
      rw [Assembly.instrs_append]
      exact (ih first before o hE).andThen fun h₁ => (Loads.structConstant h₁ _).concat rfl
  | zeroStruct _ ih =>
      intro first before o hE
      rw [Assembly.instrs_append]
      exact (ih first before o hE).andThen fun h₁ => (Loads.structConstant h₁ _).concat rfl
  | closure _ returns written left readable ih =>
      intro first awaited before o hself hE
      rw [Assembly.instrs_append, Assembly.instrs_ofList]
      exact .closure hE hself (ih _ [] 0 (hE.enter _ _)) returns written left readable
  | declare _ _ store ih | declareZero _ _ store ih =>
      intro first before o hE
      rw [Assembly.instrs_append]
      exact (ih first before o hE).andThen fun h₁ => .define h₁ store
  | assign resolved assignable _ store ih =>
      intro first before o hE
      obtain rfl := Env.resolve?_eq_self resolved assignable
      rw [Assembly.instrs_append]
      exact (ih first before o hE).concat (Opcode.not_isEventful (Symbol.store?_plain store)).1
  | loop _ _ _ ih₁ ih₂ =>
      intro first before o hE
      exact (ih₁ first before o hE).andThen fun h₁ => (Loads.single h₁ rfl).andThen fun h₁ =>
        (ih₂ first _ _ h₁).andThen fun h₂ => ((Loads.single h₂ rfl).concat rfl).concat rfl
  | @declareFunction E₁ E₂ E₃ header body x t i bound _ store ih =>
      intro first before o hE
      obtain ⟨hbegin, hx⟩ := Loads.declared? hE bound store
      have hclosure : Loads first before E₁ (t.instrs o) (some (header.boundName, x.index)) E₃ :=
        hbegin.andThen fun h₁ => ih first _ _ _ (by simp) h₁
      rw [hbegin.isGlobal, ← hclosure.isGlobal] at hx
      rw [Assembly.instrs_append]
      exact hclosure.store hx store
  | block hoisted _ ih =>
      intro first before o hE
      exact (Loads.hoist? hE hoisted).andThen fun h₁ => ih first _ o h₁

/-! ## Programs -/

/-- A compiler that begins has supplied everything: only built-in functions are bound. -/
theorem Compiler.supplied_new : Compiler.new.env.Supplied 0 none [] := by
  have hnone (name : String) (x : Symbol) (hx : Compiler.new.env.chain.current.get? name = some x) :
      x.storage.isDeclared ≠ true := by
    rw [Scope.storage_withBuiltins hx]
    simp [Storage.isDeclared]
  refine ⟨Compiler.attends_new.named, trivial, ?_, ?_, ?_⟩
  · exact fun name x hx hdeclared => absurd hdeclared (hnone name x hx)
  · exact fun name x hx hdeclared => absurd hdeclared (hnone name x hx)
  · intro f hf
    simp [Compiler.env, Compiler.new, resume] at hf

/-- In the code of an accepted program, every load of a global slot at the top level, and every load
of a slot that is not a parameter within a function, stands at a larger offset than a store to the
slot. -/
theorem compileProgram_storesFirst {program : Program} {unit : Bytecode}
    (h : compileProgram program = .ok unit) :
    unit.code.StoresFirst true 0 ∧
      ∀ f, Value.function f ∈ unit.constants →
        f.content.code.StoresFirst false f.content.parameters := by
  obtain ⟨t, E', hunit⟩ := exists_compilesUnit h
  have hloads := hunit.rules.loads 0 [] 0 Compiler.supplied_new
  constructor
  · apply LoadsFollow.storesFirst
    rw [hunit.instructions_eq]
    exact hloads.follow
  · rw [hunit.constants]
    exact hloads.supplied.functions

/-- A function that captures its parameter and a variable of its own in another function. -/
def capturedVariable : Program :=
  [.declare "x" true none (some (.int 1)),
    .function ⟨"outer", none, ⟨[("p", .int)], none⟩⟩
      [.declare "y" true none (some (.ident "p")),
        .expr (.function none ⟨[], none⟩ [.expr (.binary .add (.ident "y") (.ident "p"))])],
    .expr (.call (.ident "outer") [.ident "x"] none)]

theorem compileProgram_storesFirst_capturedVariable :
    ∃ unit f, compileProgram capturedVariable = .ok unit ∧ unit.code.StoresFirst true 0 ∧
      unit.constants[2]? = some (.function f) ∧
      f.content.code.instructions =
        [⟨.getConstLocal, [0]⟩, ⟨.setLocal, [1]⟩, ⟨.getLocal, [1]⟩, ⟨.getConstLocal, [0]⟩,
          ⟨.closure, [1, 2]⟩, ⟨.returnValue, []⟩] ∧
      f.content.code.StoresFirst false f.content.parameters := by
  have hinstructions : ((compileProgram capturedVariable).toOption.bind
      fun unit => (unit.constants[2]?.bind Value.function?).map fun f => f.code.instructions) =
        some [⟨.getConstLocal, [0]⟩, ⟨.setLocal, [1]⟩, ⟨.getLocal, [1]⟩, ⟨.getConstLocal, [0]⟩,
          ⟨.closure, [1, 2]⟩, ⟨.returnValue, []⟩] := by
    decide +kernel
  cases hunit : compileProgram capturedVariable with
  | error stop => simp [hunit, Except.toOption] at hinstructions
  | ok unit =>
      simp only [hunit, Except.toOption, Option.bind_some, Option.map_eq_some_iff,
        Option.bind_eq_some_iff, Value.function?_eq_some] at hinstructions
      obtain ⟨f, ⟨v, hv, mark, rfl⟩, hcode⟩ := hinstructions
      obtain ⟨hmain, hfunctions⟩ := compileProgram_storesFirst hunit
      exact ⟨unit, ⟨mark, f⟩, rfl, hmain, hv, hcode, hfunctions _ (Array.mem_of_getElem? hv)⟩

end ScriptEngine
