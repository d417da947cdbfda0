import ScriptEngine.Proofs.Compile.Events
import ScriptEngine.Proofs.Scope.Slots

/-!
# Accounts of slots

The machine stores to constants and to variables alike, so it is the compiler that keeps constants
from being stored to again.  Along a compilation, every slot that is handed out is accounted for
(`Accounts`): a constant slot is stored to once, by its own declaration; the slot of a function that
is bound ahead of its declaration is awaited until then; and all other stores go to variables.
-/

namespace ScriptEngine

/-! ## Store instructions -/

def Opcode.isStore : Opcode → Bool
  | setGlobal | setConstGlobal | setLocal | setConstLocal => true
  | _ => false

/-- Whether the instruction stores to the slot at an index, of the global store or else of the
running function. -/
def Instruction.stores (isGlobal : Bool) (k : Nat) (i : Instruction) : Bool :=
  match i.opcode with
  | .setGlobal | .setConstGlobal => isGlobal && i.operand 0 == k
  | .setLocal | .setConstLocal => !isGlobal && i.operand 0 == k
  | _ => false

/-- The number of instructions that store to a slot. -/
def storeCount (isGlobal : Bool) (k : Nat) (is : List Instruction) : Nat :=
  is.countP (Instruction.stores isGlobal k)

theorem Symbol.isStore_load (x : Symbol) : x.load.opcode.isStore = false := by
  have hload := x.isLoad_load
  generalize x.load.opcode = op at hload
  cases op <;> first | rfl | cases hload

section

variable {isGlobal : Bool} {k : Nat}

theorem storeCount_append (is js : List Instruction) :
    storeCount isGlobal k (is ++ js) = storeCount isGlobal k is + storeCount isGlobal k js :=
  List.countP_append

theorem storeCount_eq_zero {is : List Instruction} (h : ∀ i ∈ is, i.opcode.isStore = false) :
    storeCount isGlobal k is = 0 := by
  rw [storeCount, List.countP_eq_zero]
  intro i hi hstores
  have hplain := h i hi
  obtain ⟨op, ns⟩ := i
  cases op <;> simp_all [Instruction.stores, Opcode.isStore]

/-- The store of a symbol goes to its own slot. -/
theorem storeCount_store {x : Symbol} {i : Instruction} (h : x.store? = some i) :
    storeCount isGlobal k [i] = if x.storage = .declared isGlobal ∧ x.index = k then 1 else 0 := by
  cases hstorage : x.storage <;> cases hmutable : x.isMutable <;>
    simp only [Symbol.store?, hstorage, hmutable, Option.some.injEq, reduceCtorEq] at h <;>
    subst h <;> cases isGlobal <;>
    simp [storeCount, List.countP_cons, Instruction.stores, Instruction.operand, Storage.declared]

theorem storeCount_concat {is : List Instruction} {i : Instruction}
    (h : i.opcode.isStore = false) :
    storeCount isGlobal k (is ++ [i]) = storeCount isGlobal k is := by
  rw [storeCount_append, storeCount_eq_zero (List.forall_mem_singleton.mpr h), Nat.add_zero]

theorem Assembly.LeavesValue.storeCount_eq {t u : Assembly} (h : t.LeavesValue u) (o : Nat) :
    storeCount isGlobal k (u.instrs o) = storeCount isGlobal k (t.instrs o) := by
  cases h with
  | value | null =>
      rw [Assembly.instrs_append, Assembly.instrs_single, storeCount_concat rfl]

theorem Assembly.Returns.storeCount_eq {t u : Assembly} (h : t.Returns u) (o : Nat) :
    storeCount isGlobal k (u.instrs o) = storeCount isGlobal k (t.instrs o) := by
  cases h with
  | value =>
      rw [Assembly.instrs_append, Assembly.instrs_append, Assembly.instrs_single,
        Assembly.instrs_single, storeCount_concat rfl, storeCount_concat rfl]
  | already => rfl
  | null => rw [Assembly.instrs_append, Assembly.instrs_single, storeCount_concat rfl]

end

/-! ## Awaited slots -/

namespace Env

/-- The slot at an index belongs to a function that is bound and still to be declared. -/
def Awaits (E : Env) (k : Nat) : Prop :=
  ∃ name x, name ∈ E.hoisted ∧ E.chain.current.get? name = some x ∧ x.index = k

/-- The number of stores to a slot that its declaration is still to make. -/
noncomputable def pending (E : Env) (k : Nat) : Nat := by
  classical
  exact if E.Awaits k then 1 else 0

theorem pending_eq_one {E : Env} {k : Nat} (h : E.Awaits k) : E.pending k = 1 := by
  simp [pending, h]

theorem pending_eq_zero {E : Env} {k : Nat} (h : ¬E.Awaits k) : E.pending k = 0 := by
  simp [pending, h]

theorem pending_of_not_mem {E : Env} (h : ∀ name, name ∉ E.hoisted) (k : Nat) :
    E.pending k = 0 := by
  apply pending_eq_zero
  rintro ⟨name, -, hname, -⟩
  exact h name hname

theorem pending_congr {E E' : Env} {k : Nat} (h : E'.Awaits k ↔ E.Awaits k) :
    E'.pending k = E.pending k := by
  by_cases hk : E.Awaits k
  · rw [pending_eq_one hk, pending_eq_one (h.mpr hk)]
  · rw [pending_eq_zero hk, pending_eq_zero (h.not.mpr hk)]

end Env

/-! ## Tallies -/

/-- A function stores once to each of its constants and never to its parameters; of the global slots
it stores to variables only. -/
structure Function.Settles (globals : List Slot) (f : Function) (slots : List Slot) : Prop where
  locals : f.locals = slots.length
  constants : ∀ k s, slots[k]? = some s → s.kind = .constant →
    storeCount false k f.code.instructions = 1
  parameters : ∀ k s, slots[k]? = some s → s.kind = .parameter →
    storeCount false k f.code.instructions = 0
  globals : ∀ k, storeCount true k f.code.instructions ≠ 0 → isVariableAt globals k = true

theorem Function.Settles.mono {globals globals' slots : List Slot} {f : Function}
    (h : f.Settles globals slots) (hglobals : globals <+: globals') : f.Settles globals' slots :=
  ⟨h.locals, h.constants, h.parameters,
    fun k hk => isVariableAt_of_isPrefix hglobals (h.globals k hk)⟩

/-- The functions from a constant on settle the slots listed. -/
def SettlesAll (start : Nat) (pool : Array Value) (L : Ledger) : Prop :=
  List.Forall₂ (fun e slots => e.2.Settles L.globals slots) (functionsFrom start pool) L.functions

/-- The ledger lists the slots of all open scopes and of the functions so far.  What is still to be
declared has the slot of a constant. -/
structure Env.Tallies (start : Nat) (E : Env) (L : Ledger) : Prop where
  scopes : List.Forall₂ Scope.Records (E.chain.current :: E.chain.enclosing)
    (L.current :: L.enclosing)
  awaits : ∀ name ∈ E.hoisted, ∃ x, E.chain.current.get? name = some x ∧
    x.storage.isDeclared = true ∧ L.current[x.index]? = some ⟨name, .constant⟩
  functions : SettlesAll start E.pool L

namespace Env.Tallies

variable {start : Nat} {E E' : Env} {L L' : Ledger}

theorem current (hL : E.Tallies start L) : E.chain.current.Records L.current :=
  (List.forall₂_cons.mp hL.scopes).1

theorem enclosing (hL : E.Tallies start L) :
    List.Forall₂ Scope.Records E.chain.enclosing L.enclosing :=
  (List.forall₂_cons.mp hL.scopes).2

/-- What is still to be declared counts as declared. -/
theorem mem_declared (hL : E.Tallies start L) {name : String} (hname : name ∈ E.hoisted) :
    name ∈ E.chain.current.declared := by
  obtain ⟨x, hx, hdeclared, -⟩ := hL.awaits name hname
  exact ⟨x, hx, hdeclared⟩

theorem not_awaits_of_le (hL : E.Tallies start L) {k : Nat} (hk : L.current.length ≤ k) :
    ¬E.Awaits k := by
  rintro ⟨name, x, hname, hx, rfl⟩
  obtain ⟨y, hy, -, hslot⟩ := hL.awaits name hname
  obtain rfl : x = y := Option.some.inj (hx.symm.trans hy)
  rw [List.getElem?_eq_none hk] at hslot
  cases hslot

end Env.Tallies

/-! ## Accounts -/

/-- Between two points of a compilation, every slot is accounted for by the instructions in between.
A constant slot that is new or was awaited has been stored to once or is still awaited.  Other
stores go to variables, of the current function or of the top level. -/
structure Accounts (start : Nat) (E : Env) (L : Ledger) (is : List Instruction) (E' : Env)
    (L' : Ledger) : Prop where
  tallies : E'.Tallies start L'
  enclosing : L'.enclosing = L.enclosing
  around : List.Forall₂ Scope.SameSlots E.chain.enclosing E'.chain.enclosing
  isGlobal : E'.chain.current.isGlobal = E.chain.current.isGlobal
  slots : ∃ new, L'.current = L.current ++ new ∧ ∀ s ∈ new, s.kind ≠ .parameter
  size : E.pool.size ≤ E'.pool.size
  own : ∀ k, isVariableAt L'.current k = false →
    storeCount E.chain.current.isGlobal k is + E'.pending k =
      E.pending k + if L.current.length ≤ k ∧ k < L'.current.length then 1 else 0
  foreign : ∀ k, storeCount (!E.chain.current.isGlobal) k is ≠ 0 →
    E.chain.current.isGlobal = false ∧ isVariableAt L'.globals k = true

namespace Accounts

variable {start : Nat} {E E₁ E' : Env} {L L₁ L' : Ledger} {is js : List Instruction}

theorem current_isPrefix (h : Accounts start E L is E' L') : L.current <+: L'.current := by
  obtain ⟨new, hnew, -⟩ := h.slots
  exact ⟨new, hnew.symm⟩

theorem globals_isPrefix (h : Accounts start E L is E' L') : L.globals <+: L'.globals := by
  rw [Ledger.globals, Ledger.globals, h.enclosing]
  cases hscopes : L.enclosing with
  | nil => exact h.current_isPrefix
  | cons slots tables => simp only [List.getLastD_cons, List.prefix_rfl]

/-- One piece of code after another. -/
theorem trans (h : Accounts start E L is E₁ L₁) (h' : Accounts start E₁ L₁ js E' L') :
    Accounts start E L (is ++ js) E' L' where
  tallies := h'.tallies
  enclosing := h'.enclosing.trans h.enclosing
  around := Scope.SameSlots.trans_all h.around h'.around
  isGlobal := h'.isGlobal.trans h.isGlobal
  slots := by
    obtain ⟨new, hnew, hkinds⟩ := h.slots
    obtain ⟨new', hnew', hkinds'⟩ := h'.slots
    refine ⟨new ++ new', by rw [hnew', hnew, List.append_assoc], ?_⟩
    exact List.forall_mem_append.mpr ⟨hkinds, hkinds'⟩
  size := h.size.trans h'.size
  own k hk := by
    have hfirst := h.own k (isVariableAt_eq_false_of_isPrefix h'.current_isPrefix hk)
    have hsecond := h'.own k hk
    have hlength := h.current_isPrefix.length_le
    have hlength' := h'.current_isPrefix.length_le
    rw [h.isGlobal] at hsecond
    rw [storeCount_append]
    split at hfirst <;> split at hsecond <;> split <;> omega
  foreign k hk := by
    rw [storeCount_append] at hk
    by_cases hfirst : storeCount (!E.chain.current.isGlobal) k is = 0
    · rw [hfirst, Nat.zero_add, ← h.isGlobal] at hk
      rw [← h.isGlobal]
      exact h'.foreign k hk
    · obtain ⟨hlocal, hvariable⟩ := h.foreign k hfirst
      exact ⟨hlocal, isVariableAt_of_isPrefix h'.globals_isPrefix hvariable⟩

/-- Names are captured and functions are added, at instructions that store nothing. -/
theorem of_sameSlots (hL : E.Tallies start L)
    (hcurrent : E.chain.current.SameSlots E'.chain.current)
    (haround : List.Forall₂ Scope.SameSlots E.chain.enclosing E'.chain.enclosing)
    (hhoisted : E'.hoisted = E.hoisted) (hsize : E.pool.size ≤ E'.pool.size)
    (hslots : L'.current = L.current) (henclosing : L'.enclosing = L.enclosing)
    (hfunctions : SettlesAll start E'.pool L') (his : ∀ i ∈ is, i.opcode.isStore = false) :
    Accounts start E L is E' L' where
  tallies := by
    refine ⟨?_, ?_, hfunctions⟩
    · rw [hslots, henclosing]
      exact .cons (hL.current.sameSlots hcurrent) (Scope.Records.sameSlots_all hL.enclosing haround)
    · intro name hname
      rw [hhoisted] at hname
      obtain ⟨x, hx, hrest⟩ := hL.awaits name hname
      rw [hslots]
      exact ⟨x, hcurrent.kept name x hx, hrest⟩
  enclosing := henclosing
  around := haround
  isGlobal := hcurrent.isGlobal
  slots := ⟨[], by rw [hslots, List.append_nil], by simp⟩
  size := hsize
  own k hk := by
    have hawaits : E'.Awaits k ↔ E.Awaits k := by
      unfold Env.Awaits
      rw [hhoisted]
      constructor
      · rintro ⟨name, x, hname, hx, hindex⟩
        obtain ⟨y, hy, -⟩ := hL.awaits name hname
        obtain rfl : x = y := Option.some.inj (hx.symm.trans (hcurrent.kept name y hy))
        exact ⟨name, x, hname, hy, hindex⟩
      · rintro ⟨name, x, hname, hx, hindex⟩
        exact ⟨name, x, hname, hcurrent.kept name x hx, hindex⟩
    rw [storeCount_eq_zero his, Env.pending_congr hawaits, hslots, if_neg (by omega), Nat.zero_add,
      Nat.add_zero]
  foreign k hk := absurd (storeCount_eq_zero his) hk

/-- Constants are added that are no functions. -/
theorem still (hL : E.Tallies start L) (hchain : E'.chain = E.chain)
    (hhoisted : E'.hoisted = E.hoisted) (hsize : E.pool.size ≤ E'.pool.size)
    (hsame : functionsFrom start E'.pool = functionsFrom start E.pool)
    (his : ∀ i ∈ is, i.opcode.isStore = false) : Accounts start E L is E' L := by
  apply of_sameSlots hL _ _ hhoisted hsize rfl rfl _ his
  · rw [hchain]
    exact .refl _
  · rw [hchain]
    exact Scope.SameSlots.refl_all _
  · rw [SettlesAll, hsame]
    exact hL.functions

theorem silent (hL : E.Tallies start L) (his : ∀ i ∈ is, i.opcode.isStore = false) :
    Accounts start E L is E L :=
  still hL rfl rfl (Nat.le_refl _) rfl his

theorem use {name : String} {x : Symbol} (hL : E.Tallies start L) (hnamed : E.chain.Named)
    (h : E.resolve? name = some (x, E')) : Accounts start E L [x.load] E' L := by
  simp only [Env.resolve?, Option.map_eq_some_iff, Prod.mk.injEq] at h
  obtain ⟨⟨r, chain⟩, hfound, rfl, rfl⟩ := h
  obtain ⟨hcurrent, haround⟩ :=
    ScopeChain.sameSlots_resolveFrom? hnamed (ScopeChain.resolve?_eq_some hfound)
  exact of_sameSlots hL hcurrent haround rfl (Nat.le_refl _) rfl rfl hL.functions
    (List.forall_mem_singleton.mpr (Symbol.isStore_load _))

/-- A store to a variable. -/
theorem store {x : Symbol} {i : Instruction} (hL : E.Tallies start L) (hi : x.store? = some i)
    (hx : (x.storage = .declared E.chain.current.isGlobal ∧
        isVariableAt L.current x.index = true) ∨
      (E.chain.current.isGlobal = false ∧ x.storage = .global ∧
        isVariableAt L.globals x.index = true)) :
    Accounts start E L [i] E L where
  tallies := hL
  enclosing := rfl
  around := Scope.SameSlots.refl_all _
  isGlobal := rfl
  slots := ⟨[], (List.append_nil _).symm, by simp⟩
  size := Nat.le_refl _
  own k hk := by
    have hother : ¬(x.storage = .declared E.chain.current.isGlobal ∧ x.index = k) := by
      rintro ⟨hstorage, rfl⟩
      rcases hx with ⟨-, hvariable⟩ | ⟨hlocal, hglobal, -⟩
      · rw [hvariable] at hk
        cases hk
      · rw [hglobal, hlocal] at hstorage
        cases hstorage
    rw [storeCount_store hi, if_neg hother, if_neg (by omega), Nat.zero_add, Nat.add_zero]
  foreign k hk := by
    rw [storeCount_store hi] at hk
    obtain ⟨hstorage, rfl⟩ : x.storage = .declared !E.chain.current.isGlobal ∧ x.index = k := by
      by_contra hother
      exact hk (if_neg hother)
    rcases hx with ⟨hown, -⟩ | ⟨hlocal, -, hvariable⟩
    · exact absurd (hown.symm.trans hstorage) (Storage.declared_not_ne _)
    · exact ⟨hlocal, hvariable⟩

end Accounts

/-! ## Declarations -/

section

variable {start : Nat} {E E' : Env} {L L' : Ledger} {is : List Instruction} {name : String}
  {i : Instruction}

theorem Env.Tallies.records_define (hL : E.Tallies start L) (name : String) (isMutable : Bool)
    (ty : Option Ty) :
    List.Forall₂ Scope.Records
      ((E.define name isMutable ty).2.chain.current ::
        (E.define name isMutable ty).2.chain.enclosing)
      ((L.declare name isMutable).current :: (L.declare name isMutable).enclosing) :=
  .cons (hL.current.define (.ofDeclaration name isMutable)
    Slot.kind_ofDeclaration_eq_variable ty) hL.enclosing

theorem Env.Tallies.settlesAll_declare (hL : E.Tallies start L) (name : String)
    (isMutable : Bool) : SettlesAll start E.pool (L.declare name isMutable) :=
  List.Forall₂.imp (fun _ _ hf => hf.mono (L.globals_isPrefix_declare name isMutable)) hL.functions

/-- The names that are still to be declared keep their slots when another one is declared. -/
theorem Env.Tallies.awaits_define (hL : E.Tallies start L) {other : String}
    (hother : other ∈ E.hoisted) (hname : name ≠ other) (isMutable : Bool) (ty : Option Ty) :
    ∃ x, (E.define name isMutable ty).2.chain.current.get? other = some x ∧
      x.storage.isDeclared = true ∧
      (L.declare name isMutable).current[x.index]? = some ⟨other, .constant⟩ := by
  obtain ⟨x, hx, hdeclared, hslot⟩ := hL.awaits other hother
  refine ⟨x, ?_, hdeclared, getElem?_of_isPrefix (List.prefix_append _ _) hslot⟩
  exact (Scope.get?_define _ _ _ _ _).trans ((if_neg hname).trans hx)

/-- A declaration stores to the slot that it takes. -/
theorem Accounts.define (hL : E.Tallies start L) (hname : name ∉ E.hoisted) {isMutable : Bool}
    {ty : Option Ty} (hi : (E.define name isMutable ty).1.store? = some i) :
    Accounts start E L [i] (E.define name isMutable ty).2 (L.declare name isMutable) := by
  have hindex : (E.define name isMutable ty).1.index = L.current.length :=
    hL.current.definitions
  have hstorage :
      (E.define name isMutable ty).1.storage = .declared E.chain.current.isGlobal := rfl
  have hne (other : String) (hother : other ∈ E.hoisted) : name ≠ other := by
    rintro rfl
    exact hname hother
  have hget (other : String) (hother : other ∈ E.hoisted) :
      (E.define name isMutable ty).2.chain.current.get? other = E.chain.current.get? other :=
    (Scope.get?_define _ _ _ _ _).trans (if_neg (hne other hother))
  constructor
  · exact ⟨hL.records_define name isMutable ty,
      fun other hother => hL.awaits_define hother (hne other hother) isMutable ty,
      hL.settlesAll_declare name isMutable⟩
  · rfl
  · exact Scope.SameSlots.refl_all _
  · rfl
  · exact ⟨[.ofDeclaration name isMutable], rfl,
      List.forall_mem_singleton.mpr (Slot.kind_ofDeclaration_ne_parameter _ _)⟩
  · exact Nat.le_refl _
  · intro k _
    have hawaits : (E.define name isMutable ty).2.Awaits k ↔ E.Awaits k := by
      constructor
      · rintro ⟨other, x, hother, hx, hk⟩
        rw [hget other hother] at hx
        exact ⟨other, x, hother, hx, hk⟩
      · rintro ⟨other, x, hother, hx, hk⟩
        refine ⟨other, x, hother, ?_, hk⟩
        rw [hget other hother]
        exact hx
    rw [storeCount_store hi, Env.pending_congr hawaits, hindex]
    simp only [hstorage, true_and, Ledger.declare, List.length_append, List.length_singleton]
    split <;> split <;> omega
  · intro k hk
    rw [storeCount_store hi, if_neg] at hk
    · exact absurd rfl hk
    · rintro ⟨hforeign, -⟩
      exact Storage.declared_not_ne _ (hstorage.symm.trans hforeign)

/-- After a function is bound ahead of its declaration. -/
def Env.bindAhead (E : Env) (name : String) (ty : Option Ty) : Env :=
  { (E.define name false ty).2 with hoisted := E.hoisted.insert name }

theorem Env.mem_hoisted_bindAhead {ty : Option Ty} {other : String} :
    other ∈ (E.bindAhead name ty).hoisted ↔ other = name ∨ other ∈ E.hoisted := by
  rw [bindAhead, Std.TreeSet.mem_insert, Std.LawfulEqCmp.compare_eq_iff_eq, eq_comm]

/-- A function that is bound ahead of its declaration takes a slot, which is awaited. -/
theorem Accounts.bindAhead (hL : E.Tallies start L) (hfree : name ∉ E.chain.current.declared)
    (ty : Option Ty) : Accounts start E L [] (E.bindAhead name ty) (L.declare name false) := by
  have hself : (E.bindAhead name ty).chain.current.get? name = some (E.define name false ty).1 :=
    (Scope.get?_define _ _ _ _ _).trans (if_pos rfl)
  have hindex : (E.define name false ty).1.index = L.current.length := hL.current.definitions
  have hne (other : String) (hother : other ∈ E.hoisted) : name ≠ other := by
    rintro rfl
    exact hfree (hL.mem_declared hother)
  have hget (other : String) (hother : other ∈ E.hoisted) :
      (E.bindAhead name ty).chain.current.get? other = E.chain.current.get? other :=
    (Scope.get?_define _ _ _ _ _).trans (if_neg (hne other hother))
  constructor
  · refine ⟨hL.records_define name false ty, ?_, hL.settlesAll_declare name false⟩
    intro other hother
    rcases Env.mem_hoisted_bindAhead.mp hother with rfl | hother
    · refine ⟨_, hself, ?_, ?_⟩
      · cases hglobal : E.chain.current.isGlobal <;>
          simp [Env.define, ScopeChain.define, Scope.define, Scope.nextSymbol, hglobal,
            Storage.isDeclared]
      · rw [hindex]
        exact List.getElem?_concat_length
    · exact hL.awaits_define hother (hne other hother) false ty
  · rfl
  · exact Scope.SameSlots.refl_all _
  · rfl
  · exact ⟨[.ofDeclaration name false], rfl,
      List.forall_mem_singleton.mpr (Slot.kind_ofDeclaration_ne_parameter _ _)⟩
  · exact Nat.le_refl _
  · intro k _
    have hlength : (L.declare name false).current.length = L.current.length + 1 :=
      List.length_append
    by_cases hk : k = L.current.length
    · have hnow : (E.bindAhead name ty).Awaits k :=
        ⟨name, _, Env.mem_hoisted_bindAhead.mpr (.inl rfl), hself, hindex.trans hk.symm⟩
      rw [Env.pending_eq_one hnow, Env.pending_eq_zero (hL.not_awaits_of_le hk.ge), hlength,
        if_pos (by omega)]
      rfl
    · have hawaits : (E.bindAhead name ty).Awaits k ↔ E.Awaits k := by
        constructor
        · rintro ⟨other, x, hother, hx, rfl⟩
          rcases Env.mem_hoisted_bindAhead.mp hother with rfl | hother
          · rw [hself] at hx
            obtain rfl := Option.some.inj hx
            exact absurd hindex hk
          · rw [hget other hother] at hx
            exact ⟨other, x, hother, hx, rfl⟩
        · rintro ⟨other, x, hother, hx, rfl⟩
          refine ⟨other, x, Env.mem_hoisted_bindAhead.mpr (.inr hother), ?_, rfl⟩
          rw [hget other hother]
          exact hx
      rw [Env.pending_congr hawaits, hlength, if_neg (by omega), Nat.add_zero]
      exact Nat.zero_add _
  · intro k hk
    exact absurd rfl hk

/-- After the declaration of a function begins. -/
def Env.fulfil (E : Env) (name : String) : Env :=
  { E with hoisted := E.hoisted.erase name }

theorem Env.mem_hoisted_fulfil {other : String} :
    other ∈ (E.fulfil name).hoisted ↔ other ∈ E.hoisted ∧ other ≠ name := by
  rw [fulfil, Std.TreeSet.mem_erase, ne_eq, Std.LawfulEqCmp.compare_eq_iff_eq, and_comm]
  exact and_congr_right' ne_comm

theorem Env.Tallies.fulfil (hL : E.Tallies start L) (name : String) :
    (E.fulfil name).Tallies start L :=
  ⟨hL.scopes, fun other hother => hL.awaits other (Env.mem_hoisted_fulfil.mp hother).1,
    hL.functions⟩

/-- The declaration of a function no longer awaits the slot of the function. -/
theorem Env.Tallies.pending_fulfil {x : Symbol} (hL : E.Tallies start L) (hname : name ∈ E.hoisted)
    (hx : E.chain.current.get? name = some x) (k : Nat) :
    E.pending k = (E.fulfil name).pending k + if x.index = k then 1 else 0 := by
  have hslot (other : String) (y : Symbol) (hother : other ∈ E.hoisted)
      (hy : E.chain.current.get? other = some y) :
      L.current[y.index]? = some ⟨other, .constant⟩ := by
    obtain ⟨z, hz, -, hslot⟩ := hL.awaits other hother
    obtain rfl : y = z := Option.some.inj (hy.symm.trans hz)
    exact hslot
  by_cases hk : x.index = k
  · have hbefore : E.Awaits k := ⟨name, x, hname, hx, hk⟩
    have hafter : ¬(E.fulfil name).Awaits k := by
      rintro ⟨other, y, hother, hy, rfl⟩
      obtain ⟨hother, hne⟩ := Env.mem_hoisted_fulfil.mp hother
      -- two names cannot have the same slot
      have hsame := hslot other y hother hy
      rw [← hk, hslot name x hname hx] at hsame
      obtain rfl := (Slot.mk.inj (Option.some.inj hsame)).1
      exact hne rfl
    rw [Env.pending_eq_one hbefore, Env.pending_eq_zero hafter, if_pos hk]
  · have hawaits : (E.fulfil name).Awaits k ↔ E.Awaits k := by
      constructor
      · rintro ⟨other, y, hother, hy, hindex⟩
        exact ⟨other, y, (Env.mem_hoisted_fulfil.mp hother).1, hy, hindex⟩
      · rintro ⟨other, y, hother, hy, hindex⟩
        refine ⟨other, y, Env.mem_hoisted_fulfil.mpr ⟨hother, ?_⟩, hy, hindex⟩
        rintro rfl
        obtain rfl : x = y := Option.some.inj (hx.symm.trans hy)
        exact hk hindex
    rw [Env.pending_congr hawaits, if_neg hk, Nat.add_zero]

/-- The declaration of a function that was bound ahead stores to the slot that was awaited. -/
theorem Accounts.fulfil {x : Symbol} (hL : E.Tallies start L) (hname : name ∈ E.hoisted)
    (hx : E.chain.current.get? name = some x) (h : Accounts start (E.fulfil name) L is E' L')
    (hi : x.store? = some i) : Accounts start E L (is ++ [i]) E' L' := by
  have hstorage : x.storage = .declared E.chain.current.isGlobal := by
    obtain ⟨y, hy, hdeclared, -⟩ := hL.awaits name hname
    obtain rfl : x = y := Option.some.inj (hx.symm.trans hy)
    exact (hL.current.declared name x hx hdeclared).1
  refine ⟨h.tallies, h.enclosing, h.around, h.isGlobal, h.slots, h.size, ?_, ?_⟩
  · intro k hk
    have hown : storeCount E.chain.current.isGlobal k is + E'.pending k =
        (E.fulfil name).pending k +
          if L.current.length ≤ k ∧ k < L'.current.length then 1 else 0 := h.own k hk
    rw [storeCount_append, storeCount_store hi, hL.pending_fulfil hname hx]
    simp only [hstorage, true_and]
    omega
  · intro k hk
    have hforeign : ¬(x.storage = .declared !E.chain.current.isGlobal ∧ x.index = k) := by
      rintro ⟨hforeign, -⟩
      exact Storage.declared_not_ne _ (hstorage.symm.trans hforeign)
    rw [storeCount_append, storeCount_store hi, if_neg hforeign, Nat.add_zero] at hk
    exact h.foreign k hk

end

/-! ## Functions -/

namespace Env

/-- The slots of the parameters of a function. -/
theorem records_withParameters (E : Env) {slots : List Slot}
    (h : E.chain.current.Records slots) (parameters : List (String × Ty)) :
    (E.withParameters parameters).chain.current.Records
        (slots ++ (parameters.map Prod.fst).map fun name => ⟨name, .parameter⟩) ∧
      (E.withParameters parameters).chain.current.isGlobal = E.chain.current.isGlobal ∧
      (E.withParameters parameters).hoisted = E.hoisted := by
  induction parameters generalizing E slots with
  | nil =>
      rw [List.map_nil, List.map_nil, List.append_nil]
      exact ⟨h, rfl, rfl⟩
  | cons p parameters ih =>
      have hdefine : (E.define p.1 false (some p.2)).2.chain.current.Records
          (slots ++ [⟨p.1, .parameter⟩]) :=
        h.define ⟨p.1, .parameter⟩ (by simp) (some p.2)
      have hrest := ih _ hdefine
      rw [List.append_assoc] at hrest
      exact hrest

theorem records_enter (E : Env) (name : Option String) (signature : Signature) :
    (E.enter name signature).chain.current.Records
        ((signature.parameters.map Prod.fst).map fun name => ⟨name, .parameter⟩) ∧
      (E.enter name signature).chain.current.isGlobal = false ∧
      (E.enter name signature).hoisted = ∅ := by
  have hparameters (s : Scope) (hs : s.Records []) :=
    records_withParameters
      { E with chain := ⟨s, E.chain.current :: E.chain.enclosing⟩, hoisted := ∅ } hs
      signature.parameters
  cases name with
  | none => exact hparameters (.empty false) (.empty false)
  | some self =>
      exact hparameters ((Scope.empty false).defineSelf self (some signature.ty)).2
        ((Scope.Records.empty false).defineSelf self _)

theorem not_mem_hoisted_enter (E : Env) (name : Option String) (signature : Signature)
    (other : String) : other ∉ (E.enter name signature).hoisted := by
  rw [(E.records_enter name signature).2.2]
  exact Std.TreeSet.not_mem_emptyc

theorem Tallies.enter {start : Nat} {E : Env} {L : Ledger} (hL : E.Tallies start L)
    (hnamed : E.chain.Named) (name : Option String) (signature : Signature) :
    (E.enter name signature).Tallies start (L.enter (signature.parameters.map Prod.fst)) := by
  refine ⟨?_, ?_, ?_⟩
  · rw [(E.declared_enter hnamed name signature).2.1]
    exact .cons (E.records_enter name signature).1 hL.scopes
  · intro other hother
    exact absurd hother (E.not_mem_hoisted_enter name signature other)
  · rw [SettlesAll, (E.same_enter name signature).2, Ledger.globals_enter]
    exact hL.functions

end Env

section

variable {start : Nat} {E E₁ : Env} {L L₁ : Ledger} {js : List Instruction}
  {name : Option String} {signature : Signature}

/-- A function settles its slots when nothing is awaited at its end. -/
theorem Accounts.settles {f : Function}
    (hbody : Accounts start (E.enter name signature)
      (L.enter (signature.parameters.map Prod.fst)) js E₁ L₁)
    (hdone : ∀ other, other ∉ E₁.hoisted) (hlocals : f.locals = E₁.chain.current.definitions)
    (hcode : ∀ isGlobal k,
      storeCount isGlobal k f.code.instructions = storeCount isGlobal k js) :
    f.Settles L₁.globals L₁.current := by
  obtain ⟨-, hlocal, -⟩ := E.records_enter name signature
  obtain ⟨new, hslots, hnew⟩ := hbody.slots
  have hparameter (k : Nat) (s : Slot) (hk : k < signature.parameters.length)
      (hs : L₁.current[k]? = some s) : s.kind = .parameter := by
    rw [hslots, Ledger.enter, List.getElem?_append_left (by simpa using hk), List.getElem?_map,
      Option.map_eq_some_iff] at hs
    obtain ⟨-, -, rfl⟩ := hs
    rfl
  have hcount (k : Nat) (s : Slot) (hs : L₁.current[k]? = some s) (hkind : s.kind ≠ .variable) :
      storeCount false k f.code.instructions =
        if signature.parameters.length ≤ k then 1 else 0 := by
    have hvariable : isVariableAt L₁.current k = false := by
      simpa [isVariableAt, hs] using hkind
    have hown := hbody.own k hvariable
    rw [hlocal, Env.pending_of_not_mem hdone,
      Env.pending_of_not_mem (E.not_mem_hoisted_enter name signature)] at hown
    have hlt := (List.getElem?_eq_some_iff.mp hs).1
    simpa [hcode, hlt, Ledger.enter] using hown
  constructor
  · exact hlocals.trans hbody.tallies.current.definitions
  · intro k s hs hkind
    rw [hcount k s hs (by simp [hkind]), if_pos]
    by_contra hk
    rw [hparameter k s (Nat.lt_of_not_le hk) hs] at hkind
    cases hkind
  · intro k s hs hkind
    rw [hcount k s hs (by simp [hkind]), if_neg]
    intro hk
    rw [hslots, List.getElem?_append_right (by simpa [Ledger.enter] using hk)] at hs
    exact hnew s (List.mem_of_getElem? hs) hkind
  · intro k hk
    rw [hcode] at hk
    have hforeign := hbody.foreign k
    rw [hlocal] at hforeign
    exact (hforeign hk).2

/-- A function that settles its slots becomes a closure. -/
theorem Accounts.close {f : Function} {scope : Scope} {chain : ScopeChain}
    (hL : E.Tallies start L) (hnamed : E.chain.Named) (hstart : start ≤ E.pool.size)
    (hbody : Accounts start (E.enter name signature)
      (L.enter (signature.parameters.map Prod.fst)) js E₁ L₁)
    (hleft : E₁.chain.pop? = some (scope, chain)) (hf : f.Settles L₁.globals L₁.current)
    (captured : List Symbol) (n : Nat) :
    Accounts start E L (captured.map Symbol.load ++ [⟨.closure, [E₁.pool.size, n]⟩])
      ({ E₁ with chain, hoisted := E.hoisted }.keep (.function ⟨E₁.pool.size, f⟩)) L₁.leave := by
  have hsize := hbody.size
  rw [(E.same_enter name signature).2] at hsize
  have haround := hbody.around
  rw [(E.declared_enter hnamed name signature).2.1, (ScopeChain.eq_of_pop? hleft).2] at haround
  obtain ⟨hcurrent, haround⟩ := List.forall₂_cons.mp haround
  have henclosing : L₁.enclosing = L.current :: L.enclosing := hbody.enclosing
  refine of_sameSlots hL hcurrent haround rfl ?_ ?_ ?_ ?_ ?_
  · rw [Env.keep, Array.size_push]
    exact Nat.le_succ_of_le hsize
  · rw [Ledger.leave, henclosing]
    rfl
  · rw [Ledger.leave, henclosing]
    rfl
  · have hglobals : L₁.leave.globals = L₁.globals := by
      rw [Ledger.globals, Ledger.globals, Ledger.leave, henclosing, List.getLastD_cons]
      rfl
    have hfs : functionsFrom start
          ({ E₁ with chain, hoisted := E.hoisted }.keep (.function ⟨E₁.pool.size, f⟩)).pool =
        functionsFrom start E₁.pool ++ [(E₁.pool.size, f)] :=
      functionsFrom_push (hstart.trans hsize) _
    rw [SettlesAll, hfs, hglobals]
    exact List.rel_append hbody.tallies.functions (.cons hf .nil)
  · intro i hi
    rcases List.mem_append.mp hi with hi | hi
    · obtain ⟨x, -, rfl⟩ := List.mem_map.mp hi
      exact x.isStore_load
    · rw [List.mem_singleton.mp hi]
      rfl

end

end ScriptEngine
