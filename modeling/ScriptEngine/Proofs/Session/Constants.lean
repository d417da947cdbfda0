import ScriptEngine.Proofs.Compile.Persistence
import ScriptEngine.Proofs.Compile.Stores
import ScriptEngine.Proofs.Compile.Structs
import ScriptEngine.Proofs.Session.Conduct

/-!
# Constants of sessions

The slots of global variables outlive the units that declare them, and so do the functions that
store to them.  In every session, the slot of a constant or of a declared function is stored to by
one instruction of all code, which belongs to the top level of the unit that declares it.  Hence no
later unit changes its value, whatever it calls (`Session.constants_areStoredOnce`).
-/

namespace ScriptEngine

/-! ## Code that leaves a global slot alone -/

theorem Globals.get_put_of_ne {g : Globals} {j k : Nat} (h : j ≠ k) (v : Value) :
    (g.put j v).get k = g.get k := by
  simp [get, put, size, Array.getElem?_setIfInBounds_ne h]

/-- Instructions that do not store to a global slot leave its value. -/
theorem Globals.get_keptBy (pool : Array Value) (k : Nat) (v : Except RuntimeError Value) :
    KeptBy (fun i => i.stores true k = false) pool fun globals _ => globals.get k = v := by
  rintro w i args globals heap - hi - h hv
  cases h with
  | setGlobal store u =>
      rw [Globals.get_put_of_ne _ u]
      · exact hv
      · rintro rfl
        rcases store with hop | hop <;> simp [Instruction.stores, hop] at hi
  | _ => exact hv

/-- A code that does not store to a global slot anywhere does not do so in any run. -/
theorem Code.IsLaidOut.leaves {c : Code} (h : c.IsLaidOut) {k : Nat}
    (hc : storeCount true k c.instructions = 0) : c.Obeys fun i => i.stores true k = false := by
  refine h.obeys ?_ ?_
  · intro i hjump
    obtain ⟨op, ns⟩ := i
    cases op <;> first | rfl | cases hjump
  · intro i hi
    simpa using List.countP_eq_zero.mp hc i hi

/-- Code that stores to variables only does not store to a constant. -/
theorem storeCount_of_constant {is : List Instruction} {slots : List Slot} {k : Nat}
    (h : ∀ k, storeCount true k is ≠ 0 → isVariableAt slots k = true)
    (hk : isVariableAt slots k = false) : storeCount true k is = 0 := by
  by_contra hcount
  rw [h k hcount] at hk
  cases hk

/-- A unit stores to a global constant if it declares it, and then once, at its top level. -/
theorem Bytecode.Settles.storeCount_streams {unit : Bytecode} {start : Nat} {before : List Slot}
    {L : Ledger} (h : unit.Settles start before L) {k : Nat}
    (hk : isVariableAt L.current k = false) :
    storeCount true k ((unit.streams start).flatMap Stream.instructions) =
      if before.length ≤ k ∧ k < L.current.length then 1 else 0 := by
  have hfunctions : storeCount true k
      (((functionsFrom start unit.constants).map Stream.ofFunction).flatMap Stream.instructions) =
        0 := by
    rw [storeCount, List.countP_eq_zero]
    intro i hi hstores
    obtain ⟨stream, hstream, hi⟩ := List.mem_flatMap.mp hi
    obtain ⟨e, he, rfl⟩ := List.mem_map.mp hstream
    obtain ⟨slots, -, hsettles⟩ := exists_mem_of_forall₂ h.functions he
    exact List.countP_eq_zero.mp (storeCount_of_constant hsettles.globals hk) i hi hstores
  rw [Bytecode.streams, List.flatMap_cons, storeCount_append, hfunctions, Nat.add_zero]
  exact h.main k hk

/-! ## Units of a session -/

/-- A unit that was accepted. -/
structure Entry where
  /-- The global slots before the unit. -/
  before : List Slot
  /-- The global slots after the unit, and those of its functions. -/
  ledger : Ledger
  /-- The number of constants before the unit. -/
  start : Nat
  unit : Bytecode

/-- The instructions of all streams of a unit. -/
def Entry.instructions (e : Entry) : List Instruction :=
  (e.unit.streams e.start).flatMap Stream.instructions

namespace Session

/-- The entry of a unit, if it is accepted, given the global slots before it. -/
def accepted? (s : Session) (globals : List Slot) (program : Program) : Option Entry :=
  match ((Compiler.resume s.scope s.pool).compile program).1 with
  | .ok unit => some ⟨globals, program.ledger (.ofPool s.pool) globals, s.pool.size, unit⟩
  | .error _ => none

/-- The global slots after a unit. -/
def slotsAfter (s : Session) (globals : List Slot) (program : Program) : List Slot :=
  ((s.accepted? globals program).map fun e => e.ledger.current).getD globals

theorem slotsAfter_of_none {s : Session} {globals : List Slot} {program : Program}
    (h : s.accepted? globals program = none) : s.slotsAfter globals program = globals := by
  rw [slotsAfter, h]
  rfl

theorem slotsAfter_of_some {s : Session} {globals : List Slot} {program : Program} {e : Entry}
    (h : s.accepted? globals program = some e) :
    s.slotsAfter globals program = e.ledger.current := by
  rw [slotsAfter, h]
  rfl

/-- The entries of units that are evaluated one after another. -/
def entries (s : Session) (globals : List Slot) : List (Nat × Program) → List Entry
  | [] => []
  | (steps, program) :: rest =>
      (s.accepted? globals program).toList ++
        (s.eval steps program).2.2.entries (s.slotsAfter globals program) rest

/-- The global slots after units that are evaluated one after another. -/
def slots (s : Session) (globals : List Slot) : List (Nat × Program) → List Slot
  | [] => globals
  | (steps, program) :: rest =>
      (s.eval steps program).2.2.slots (s.slotsAfter globals program) rest

/-- The global slots of an orderly session are those listed, and its functions store to variables
among them only.  If no machine can be built, then the store is gone once a unit was accepted. -/
structure Keeps (s : Session) (globals : List Slot) : Prop where
  orderly : s.Orderly
  scope : s.scope.Records globals
  functions : ∀ f, Value.function f ∈ s.pool → f.content.code.IsLaidOut ∧
    ∀ k, storeCount true k f.content.code.instructions ≠ 0 → isVariableAt globals k = true
  lost : s.limits.fitMachine = false → globals ≠ [] → s.globals = .ofSize 0

theorem keeps_new (limits : Limits) : (Session.new limits).Keeps [] := by
  refine ⟨orderly_new limits, ⟨rfl, ?_⟩, ?_, ?_⟩
  · intro name x hx hdeclared
    rw [Scope.storage_withBuiltins hx] at hdeclared
    cases hdeclared
  · simp [Session.new]
  · intro _ hne
    exact absurd rfl hne

namespace Keeps

variable {s : Session} {globals : List Slot} {program : Program} {k : Nat} {slot : Slot}

/-- What a session compiles settles the slots of the program. -/
theorem settles (hs : s.Keeps globals) {unit : Bytecode} {c : Compiler}
    (hcompile : (Compiler.resume s.scope s.pool).compile program = (.ok unit, c)) :
    unit.Settles s.pool.size globals (program.ledger (.ofPool s.pool) globals) ∧
      c.chain.outermost.Records (program.ledger (.ofPool s.pool) globals).current ∧
      unit.code.IsLaidOut ∧
      ∀ e ∈ functionsFrom s.pool.size unit.constants, e.2.code.IsLaidOut := by
  obtain ⟨t, E', hunit, hchain⟩ := Compiler.compilesUnit_of_compile hcompile
  obtain ⟨hsettles, hrecords⟩ := hunit.settles hs.orderly.attends hs.scope rfl rfl
  have hrealizes := hunit.realizes hs.orderly.attends (Compiler.registers_resume _ _)
  rw [hchain]
  exact ⟨hsettles, hrecords, hrealizes.main, hrealizes.functions⟩

/-- Units keep the slots and add to them. -/
theorem eval (hs : s.Keeps globals) (steps : Nat) (program : Program) :
    (s.eval steps program).2.2.Keeps (s.slotsAfter globals program) ∧
      globals <+: s.slotsAfter globals program := by
  have horderly := hs.orderly.eval steps program
  cases hcompile : (Compiler.resume s.scope s.pool).compile program with
  | mk compiled c =>
      cases compiled with
      | error stop =>
          have hslots : s.slotsAfter globals program = globals := by
            simp [slotsAfter, accepted?, hcompile]
          rw [eval_of_error hcompile, hslots]
          exact ⟨hs, List.prefix_rfl⟩
      | ok unit =>
          have hslots : s.slotsAfter globals program =
              (program.ledger (.ofPool s.pool) globals).current := by
            simp [slotsAfter, accepted?, hcompile]
          obtain ⟨hsettles, hrecords, -, hlaidOut⟩ := hs.settles hcompile
          have hunit := hs.orderly.sound.unit_of_compile hcompile
          have hfunctions (f : Marked Function) (hf : Value.function f ∈ c.pool) :
              f.content.code.IsLaidOut ∧ ∀ k, storeCount true k f.content.code.instructions ≠ 0 →
                isVariableAt (s.slotsAfter globals program) k = true := by
            rw [hslots]
            rw [hunit.constants] at hf
            rcases mem_or_mem_functionsFrom hunit.continues hf with hf | ⟨j, hj⟩
            · obtain ⟨hold, hstores⟩ := hs.functions f hf
              exact ⟨hold, fun k hk => isVariableAt_of_isPrefix hsettles.isPrefix (hstores k hk)⟩
            · obtain ⟨slots, -, hf⟩ := exists_mem_of_forall₂ hsettles.functions hj
              exact ⟨hlaidOut _ hj, hf.globals⟩
          have hafter : c.chain.outermost.Records (s.slotsAfter globals program) := by
            rw [hslots]
            exact hrecords
          refine ⟨?_, by rw [hslots]; exact hsettles.isPrefix⟩
          cases hfits : s.limits.fitMachine with
          | true =>
              rw [eval_of_fits hcompile hfits] at horderly ⊢
              refine ⟨horderly, hafter, hfunctions, ?_⟩
              intro hunfit
              exact absurd (hfits.symm.trans hunfit) Bool.noConfusion
          | false =>
              rw [eval_of_not_fits hcompile hfits] at horderly ⊢
              exact ⟨horderly, hafter, hfunctions, fun _ _ => rfl⟩

theorem evalAll (hs : s.Keeps globals) (history : List (Nat × Program)) :
    (s.evalAll history).Keeps (s.slots globals history) ∧
      globals <+: s.slots globals history := by
  induction history generalizing s globals with
  | nil => exact ⟨hs, List.prefix_rfl⟩
  | cons u history ih =>
      obtain ⟨hunit, hisPrefix⟩ := hs.eval u.1 u.2
      obtain ⟨hrest, hisPrefix'⟩ := ih hunit
      exact ⟨hrest, hisPrefix.trans hisPrefix'⟩

/-- No unit changes what is in the slot of an earlier constant. -/
theorem get_eval (hs : s.Keeps globals) (hslot : globals[k]? = some slot)
    (hkind : slot.kind ≠ .variable) (steps : Nat) (program : Program) :
    (s.eval steps program).2.2.globals.get k = s.globals.get k := by
  cases hcompile : (Compiler.resume s.scope s.pool).compile program with
  | mk compiled c =>
      cases compiled with
      | error stop => rw [eval_of_error hcompile]
      | ok unit =>
          obtain ⟨hsettles, -, hmain, hlaidOut⟩ := hs.settles hcompile
          have hlater := getElem?_of_isPrefix hsettles.isPrefix hslot
          have hconstant := isVariableAt_eq_false hlater hkind
          have hold (f : Marked Function) (hf : Value.function f ∈ s.pool) :
              f.content.code.Obeys fun i => i.stores true k = false := by
            obtain ⟨hf, hstores⟩ := hs.functions f hf
            have hearlier := isVariableAt_eq_false hslot hkind
            exact hf.leaves (storeCount_of_constant hstores hearlier)
          have hnew (e : Nat × Function) (he : e ∈ functionsFrom s.pool.size unit.constants) :
              e.2.code.Obeys fun i => i.stores true k = false := by
            obtain ⟨slots, -, hf⟩ := exists_mem_of_forall₂ hsettles.functions he
            exact (hlaidOut e he).leaves (storeCount_of_constant hf.globals hconstant)
          have htop : unit.code.Obeys fun i => i.stores true k = false := by
            refine hmain.leaves ?_
            rw [hsettles.main k hconstant, if_neg]
            have hlt := (List.getElem?_eq_some_iff.mp hslot).1
            omega
          have hrun := hs.orderly.run_keeps hcompile hold hnew htop
            (Globals.get_keptBy unit.constants k (s.globals.get k)) rfl steps
          cases hfits : s.limits.fitMachine with
          | true =>
              rw [eval_of_fits hcompile hfits]
              exact hrun.2
          | false =>
              -- An earlier unit declared the constant, and the store went with that unit.
              rw [eval_of_not_fits hcompile hfits, hs.lost hfits (List.ne_nil_of_mem
                (List.mem_of_getElem? hslot))]
              rfl

theorem get_evalAll (hs : s.Keeps globals) (hslot : globals[k]? = some slot)
    (hkind : slot.kind ≠ .variable) (later : List (Nat × Program)) :
    (s.evalAll later).globals.get k = s.globals.get k := by
  induction later generalizing s globals with
  | nil => rfl
  | cons u later ih =>
      obtain ⟨hunit, hisPrefix⟩ := hs.eval u.1 u.2
      exact (ih hunit (getElem?_of_isPrefix hisPrefix hslot)).trans
        (hs.get_eval hslot hkind u.1 u.2)

/-- The entry of a unit settles the slots of its program. -/
theorem settles_of_accepted? (hs : s.Keeps globals) {e : Entry}
    (he : s.accepted? globals program = some e) :
    e.before = globals ∧ e.unit.Settles e.start e.before e.ledger := by
  cases hcompile : (Compiler.resume s.scope s.pool).compile program with
  | mk compiled c =>
      cases compiled with
      | error stop => simp [accepted?, hcompile] at he
      | ok unit =>
          simp only [accepted?, hcompile, Option.some.injEq] at he
          subst he
          exact ⟨rfl, (hs.settles hcompile).1⟩

/-- Every entry of a history settles the slots of its program. -/
theorem settles_of_mem (hs : s.Keeps globals) {history : List (Nat × Program)} {e : Entry}
    (he : e ∈ s.entries globals history) : e.unit.Settles e.start e.before e.ledger := by
  induction history generalizing s globals with
  | nil => cases he
  | cons u history ih =>
      rcases List.mem_append.mp he with he | he
      · exact (hs.settles_of_accepted? (Option.mem_toList.mp he)).2
      · exact ih (hs.eval u.1 u.2).1 he

/-- All code of a history stores once to each constant that is declared in it. -/
theorem storeCount_entries (hs : s.Keeps globals) {history : List (Nat × Program)}
    (hslot : (s.slots globals history)[k]? = some slot) (hkind : slot.kind ≠ .variable) :
    storeCount true k ((s.entries globals history).flatMap Entry.instructions) =
      if globals.length ≤ k then 1 else 0 := by
  induction history generalizing s globals with
  | nil =>
      have hlt : k < globals.length := (List.getElem?_eq_some_iff.mp hslot).1
      rw [if_neg (Nat.not_le.mpr hlt)]
      rfl
  | cons u history ih =>
      obtain ⟨hunit, hisPrefix⟩ := hs.eval u.1 u.2
      have hrest := ih hunit hslot
      rw [entries, List.flatMap_append, storeCount_append, hrest]
      cases he : s.accepted? globals u.2 with
      | none =>
          rw [slotsAfter_of_none he]
          exact Nat.zero_add _
      | some e =>
          obtain ⟨hbefore, hsettles⟩ := hs.settles_of_accepted? he
          have hlater := (hunit.evalAll history).2
          rw [slotsAfter_of_some he] at hisPrefix hlater ⊢
          have hconstant : isVariableAt e.ledger.current k = false := by
            rw [slots, slotsAfter_of_some he] at hslot
            exact isVariableAt_eq_false_of_isPrefix hlater (isVariableAt_eq_false hslot hkind)
          have hcount := hsettles.storeCount_streams hconstant
          rw [Option.toList_some, List.flatMap_singleton, Entry.instructions, hcount, hbefore]
          have hlength := hisPrefix.length_le
          split_ifs <;> omega

/-- Every slot that a history adds is declared by one of its units. -/
theorem exists_declaring_entry (hs : s.Keeps globals) {history : List (Nat × Program)}
    (hadded : globals.length ≤ k) (hslot : (s.slots globals history)[k]? = some slot) :
    ∃ e ∈ s.entries globals history, e.before.length ≤ k ∧ e.ledger.current[k]? = some slot := by
  induction history generalizing s globals with
  | nil => exact absurd (List.getElem?_eq_some_iff.mp hslot).1 (Nat.not_lt.mpr hadded)
  | cons u history ih =>
      have hunit := (hs.eval u.1 u.2).1
      by_cases hlater : (s.slotsAfter globals u.2).length ≤ k
      · obtain ⟨e, he, hdeclares⟩ := ih hunit hlater hslot
        exact ⟨e, List.mem_append_right _ he, hdeclares⟩
      · have hhere : (s.slotsAfter globals u.2)[k]? = some slot := by
          obtain ⟨rest, hrest⟩ := (hunit.evalAll history).2
          rw [slots, ← hrest] at hslot
          rwa [List.getElem?_append_left (Nat.not_le.mp hlater)] at hslot
        cases he : s.accepted? globals u.2 with
        | none =>
            rw [slotsAfter_of_none he] at hlater
            exact absurd hadded hlater
        | some e =>
            rw [slotsAfter_of_some he] at hhere
            rw [← (hs.settles_of_accepted? he).1] at hadded
            refine ⟨e, ?_, hadded, hhere⟩
            simp [entries, he]

end Keeps

/-- In every session, the names of the global scope have the slots that their declarations gave
them.  The slot of a global constant or declared function is stored to by one instruction of all
code that was compiled, at the top level of the unit that declares it.  A function stores once to
the slot of each constant that it declares, and never to those of its parameters.  Hence, whatever
is evaluated later, a global constant keeps the value that it has after its unit. -/
theorem constants_areStoredOnce (limits : Limits) (history later : List (Nat × Program)) :
    let s := (Session.new limits).evalAll history
    let slots := (Session.new limits).slots [] history
    let entries := (Session.new limits).entries [] history
    (∀ name x, s.scope.get? name = some x → x.storage = .global →
      ∃ slot, slots[x.index]? = some slot ∧ slot.name = name ∧
        (slot.kind = .variable ↔ x.isMutable = true)) ∧
      (∀ k slot, slots[k]? = some slot → slot.kind ≠ .variable →
        storeCount true k (entries.flatMap Entry.instructions) = 1 ∧
          (∃ e ∈ entries, e.before.length ≤ k ∧ e.ledger.current[k]? = some slot ∧
            storeCount true k e.unit.code.instructions = 1) ∧
          (s.evalAll later).globals.get k = s.globals.get k) ∧
      ∀ e ∈ entries, List.Forall₂ (fun f locals => f.2.locals = locals.length ∧
          ∀ k slot, locals[k]? = some slot →
            (slot.kind = .constant → storeCount false k f.2.code.instructions = 1) ∧
            (slot.kind = .parameter → storeCount false k f.2.code.instructions = 0))
        (functionsFrom e.start e.unit.constants) e.ledger.functions := by
  intro s slots entries
  have hnew := keeps_new limits
  have hs : s.Keeps slots := (hnew.evalAll history).1
  refine ⟨?_, ?_, ?_⟩
  · intro name x hx hglobal
    exact (hs.scope.declared name x hx (by rw [hglobal]; rfl)).2
  · intro k slot hslot hkind
    refine ⟨hnew.storeCount_entries hslot hkind, ?_, hs.get_evalAll hslot hkind later⟩
    obtain ⟨e, he, hbefore, hdeclared⟩ := hnew.exists_declaring_entry (Nat.zero_le k) hslot
    refine ⟨e, he, hbefore, hdeclared, ?_⟩
    have hconstant := isVariableAt_eq_false hdeclared hkind
    have hlt := (List.getElem?_eq_some_iff.mp hdeclared).1
    rw [(hnew.settles_of_mem he).main k hconstant, if_pos ⟨hbefore, hlt⟩]
  · intro e he
    refine (hnew.settles_of_mem he).functions.imp ?_
    intro f locals hf
    exact ⟨hf.locals, fun k slot hslot => ⟨hf.constants k slot hslot, hf.parameters k slot hslot⟩⟩

/-- A variable, and in the next unit a function that stores its argument to it and a constant.  The
units after that assign to the constant and to the function, and declare the constant again. -/
def refusedStores : List (Nat × Program) :=
  [(9, [.declare "v" true none (some (.int 0))]),
    (9, [.function ⟨"f", none, ⟨[("x", .int)], none⟩⟩
        [.declare "y" false none (some (.ident "x")), .assign "v" (.ident "y")],
      .declare "a" false none (some (.int 1))]),
    (9, [.assign "a" (.int 5)]),
    (9, [.assign "f" (.int 5)]),
    (9, [.declare "a" false none (some (.int 7))])]

/-- A call of the function stores to the variable, and the constant keeps its value. -/
theorem constants_areStoredOnce_refusedStores :
    let start := Session.new ⟨8, 2, 4⟩
    let s := start.evalAll refusedStores
    let later := [(20, [.expr (.call (.ident "f") [.int 9] none)])]
    start.slots [] refusedStores = [⟨"v", .variable⟩, ⟨"f", .constant⟩, ⟨"a", .constant⟩] ∧
      storeCount true 2 ((start.entries [] refusedStores).flatMap Entry.instructions) = 1 ∧
      s.globals.slots[0]? = some (.int 0) ∧
      (s.evalAll later).globals.slots[0]? = some (.int 9) ∧
      (s.evalAll later).globals.get 2 = s.globals.get 2 := by
  intro start s later
  have hslots : start.slots [] refusedStores =
      [⟨"v", .variable⟩, ⟨"f", .constant⟩, ⟨"a", .constant⟩] := by decide +kernel
  have hslot : (start.slots [] refusedStores)[2]? = some ⟨"a", .constant⟩ := by
    rw [hslots]
    rfl
  obtain ⟨hcount, -, hkept⟩ :=
    (constants_areStoredOnce ⟨8, 2, 4⟩ refusedStores later).2.1 2 _ hslot (by decide)
  exact ⟨hslots, hcount, by decide +kernel, by decide +kernel, hkept⟩

end Session

end ScriptEngine
