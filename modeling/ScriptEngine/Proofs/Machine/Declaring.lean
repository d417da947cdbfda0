import ScriptEngine.Proofs.Compile.Hoisting
import ScriptEngine.Proofs.Machine.Excerpt
import ScriptEngine.Proofs.Tree.Correctness

/-!
# Running declarations

A program that begins with the declarations of functions makes their closures one after another and
stores them in the first global slots.  What a machine holds when it has done so is known in full
(`Machine.HasDeclared`), and so is how it fails to: for want of a stack slot or of a global slot.
Hence two programs that declare equally many functions run alike if they do so from the end of the
declarations on (`Machine.HasDeclared.alike`).
-/

namespace ScriptEngine

/-! ## Runs alike -/

/-- Two runs of the same length print the same and end in the same way: both are unfinished, both
stopped for the same reason, or both finished, with machines that are the same in some sense. -/
inductive Run.Alike (same : Machine → Machine → Prop) : Run → Run → Prop
  | unfinished {m m' : Machine} (output : m'.output = m.output) :
      Alike same (.unfinished m) (.unfinished m')
  | stopped {stop : Stop RuntimeError} {m m' : Machine} (output : m'.output = m.output) :
      Alike same (.stopped stop m) (.stopped stop m')
  | finished {m m' : Machine} (output : m'.output = m.output) (agree : same m m') :
      Alike same (.finished m) (.finished m')

namespace Run.Alike

variable {same : Machine → Machine → Prop} {m m' n n' : Machine}

theorem imp {same' : Machine → Machine → Prop} {r r' : Run} (h : Alike same r r')
    (himp : ∀ m m', same m m' → same' m m') : Alike same' r r' := by
  cases h with
  | unfinished output => exact .unfinished output
  | stopped output => exact .stopped output
  | finished output agree => exact .finished output (himp _ _ agree)

/-- Machines run alike if they do so after a step. -/
theorem of_step (houtput : m'.output = m.output) (hn : m.run 1 = .unfinished n)
    (hn' : m'.run 1 = .unfinished n') (h : ∀ steps, Alike same (n.run steps) (n'.run steps))
    (steps : Nat) : Alike same (m.run steps) (m'.run steps) := by
  cases steps with
  | zero => exact .unfinished houtput
  | succ steps =>
      rw [Nat.add_comm, Machine.run_add hn, Machine.run_add hn']
      exact h steps

/-- Machines run alike if they stop at once for the same reason. -/
theorem of_stop {stop : Stop RuntimeError} (houtput : m'.output = m.output)
    (hn : m.run 1 = .stopped stop n) (hn' : m'.run 1 = .stopped stop n')
    (hprinted : n'.output = n.output) (steps : Nat) : Alike same (m.run steps) (m'.run steps) := by
  cases steps with
  | zero => exact .unfinished houtput
  | succ steps =>
      have hle : 1 ≤ steps + 1 := Nat.le_add_left 1 steps
      rw [Machine.run_of_le (by simp [hn]) hle, Machine.run_of_le (by simp [hn']) hle, hn, hn']
      exact .stopped hprinted

end Run.Alike

/-! ## What declarations leave -/

namespace Globals

/-- A store whose first slots hold the first closures. -/
def holding (size count : Nat) : Globals :=
  ⟨Array.ofFn fun k : Fin size => if k < count then .closure k else .null⟩

theorem size_holding (size count : Nat) : (holding size count).size = size :=
  Array.size_ofFn

theorem getElem?_holding (size count k : Nat) :
    (holding size count).slots[k]? =
      if k < size then some (if k < count then .closure k else .null) else none := by
  simp only [holding, Array.getElem?_ofFn]
  split <;> rfl

theorem holding_zero (size : Nat) : holding size 0 = ofSize size := by
  refine congrArg mk (Array.ext_getElem? fun k => ?_)
  change (holding size 0).slots[k]? = (Array.replicate size .null)[k]?
  rw [getElem?_holding, Array.getElem?_replicate]
  rfl

theorem put_holding (size count : Nat) :
    (holding size count).put count (.closure count) = holding size (count + 1) := by
  have hsize : (holding size count).slots.size = size := size_holding size count
  refine congrArg mk (Array.ext_getElem? fun k => ?_)
  change _ = (holding size (count + 1)).slots[k]?
  rw [Array.getElem?_setIfInBounds, getElem?_holding, getElem?_holding, hsize]
  by_cases hk : count = k
  · subst hk
    rw [if_pos rfl, if_pos (Nat.lt_succ_self _)]
  · have hlt : k < count + 1 ↔ k < count := by omega
    simp only [if_neg hk, hlt]

end Globals

/-- The closures of functions that capture nothing. -/
def closuresOf (fs : List Function) : Array Closure :=
  (fs.map fun f => (⟨f, #[]⟩ : Closure)).toArray

theorem size_closuresOf (fs : List Function) : (closuresOf fs).size = fs.length := by
  simp [closuresOf]

theorem getElem?_closuresOf (fs : List Function) (k : Nat) :
    (closuresOf fs)[k]? = fs[k]?.map fun f => ⟨f, #[]⟩ := by
  simp [closuresOf]

theorem push_closuresOf (fs : List Function) (f : Function) :
    (closuresOf fs).push ⟨f, #[]⟩ = closuresOf (fs ++ [f]) := by
  simp [closuresOf]

/-- From the given slot on, the code declares functions among the constants. -/
inductive Code.Declares (c : Code) (constants : Array Value) : Nat → List Function → Prop
  | done (slot : Nat) : Declares c constants slot []
  | next {slot k : Nat} {f : Marked Function} {fs : List Function}
      (closure : c.decode (7 * slot) = .ok ⟨.closure, [k, 0]⟩)
      (store : c.decode (7 * slot + 4) = .ok ⟨.setConstGlobal, [slot]⟩)
      (function : constants[k]? = some (.function f))
      (rest : Declares c constants (slot + 1) fs) : Declares c constants slot (f.content :: fs)

/-- The function among the constants under a number. -/
def functionAt (constants : Array Value) (k : Nat) : Function :=
  (constants[k]?.bind Value.function?).getD (.main .empty)

theorem functionAt_eq {constants : Array Value} {k : Nat} {f : Marked Function}
    (h : constants[k]? = some (.function f)) : functionAt constants k = f.content := by
  rw [functionAt, h]
  rfl

/-- Code that makes closures of constants and stores them in slots one after another declares the
functions. -/
theorem Code.declares_of_contains {c : Code} {constants : Array Value} {places : List (Nat × Nat)}
    {slot : Nat} (hcode : c.Contains (7 * slot) ((Assembly.declaring places).instrs (7 * slot)))
    (hslots : places.map Prod.snd = List.range' slot places.length)
    (hfunctions : ∀ place ∈ places, ∃ f, constants[place.1]? = some (.function f)) :
    c.Declares constants slot (places.map fun place => functionAt constants place.1) := by
  induction places generalizing slot with
  | nil => exact .done slot
  | cons place places ih =>
      obtain ⟨k, s⟩ := place
      rw [List.map_cons, List.length_cons, List.range'_succ] at hslots
      obtain ⟨rfl, hslots⟩ := List.cons.inj hslots
      rw [List.forall_mem_cons] at hfunctions
      obtain ⟨⟨f, hf⟩, hfunctions⟩ := hfunctions
      have hstore := hcode.tail
      have hrest := hstore.tail
      have hplace : 7 * s + 4 + 3 = 7 * (s + 1) := by omega
      rw [List.map_cons, functionAt_eq hf]
      refine .next hcode.decode hstore.decode hf (ih ?_ hslots hfunctions)
      rw [← hplace]
      exact hrest

namespace Machine

/-- The machine has declared functions and has done nothing else. -/
structure HasDeclared (unit : Bytecode) (limits : Limits) (fs : List Function) (m : Machine) :
    Prop where
  frames : m.frames = [{ routine := .main unit.code, ip := 7 * fs.length, base := 0 }]
  sp : m.sp = 0
  stack : m.stack.size = limits.stackSize
  maxFrames : m.maxFrames = limits.maxFrames
  constants : m.constants = unit.constants
  fits : fs.length ≤ limits.globalsSize
  globals : m.globals = .holding limits.globalsSize fs.length
  heap : m.heap = { Heap.empty with closures := closuresOf fs }
  output : m.output = ""

theorem hasDeclared_nil (unit : Bytecode) (limits : Limits) :
    (unit.machine limits).HasDeclared unit limits [] where
  frames := rfl
  sp := rfl
  stack := Array.size_replicate
  maxFrames := rfl
  constants := rfl
  fits := Nat.zero_le _
  globals := (Globals.holding_zero _).symm
  heap := rfl
  output := rfl

namespace HasDeclared

variable {unit unit' : Bytecode} {limits : Limits} {fs fs' : List Function} {m m' : Machine}

/-- The machine on its way through a declaration, with the closure on the stack. -/
def making (unit : Bytecode) (m : Machine) (fs : List Function) (f : Function) : Machine :=
  { m with
    stack := m.stack.setIfInBounds 0 (.closure fs.length)
    sp := 1
    frames := [{ routine := .main unit.code, ip := 7 * fs.length + 4, base := 0 }]
    heap := { m.heap with closures := m.heap.closures.push ⟨f, #[]⟩ } }

section

variable {k : Nat} {f : Marked Function}

/-- A declaration begins by making the closure. -/
theorem performs_closure (h : m.HasDeclared unit limits fs)
    (hclosure : unit.code.decode (7 * fs.length) = .ok ⟨.closure, [k, 0]⟩)
    (hfunction : unit.constants[k]? = some (.function f)) :
    ∃ byte, m.nextByte? = some byte ∧ m.Performs ⟨.main unit.code, 7 * fs.length + 4, 0⟩ [] 0
      (.ok ((m.view ⟨.main unit.code, 7 * fs.length, 0⟩).giveNew (m.heap.newClosure f.content #[])))
      (Exec.step byte) m := by
  have htop : m.Top 0 [] := by
    refine ⟨h.sp, ?_, by simp⟩
    rw [h.sp]
    exact Nat.zero_le _
  have heffect : (⟨.closure, [k, 0]⟩ : Instruction).effect
      (m.view ⟨.main unit.code, 7 * fs.length, 0⟩) [] =
      .ok ((m.view ⟨.main unit.code, 7 * fs.length, 0⟩).giveNew
        (m.heap.newClosure f.content #[])) := by
    have hconstant : (m.view ⟨.main unit.code, 7 * fs.length, 0⟩).constants[
        (⟨.closure, [k, 0]⟩ : Instruction).operand 0]? = some (.function f) := by
      rw [← hfunction, ← h.constants]
      rfl
    simp only [Instruction.effect, View.closure, hconstant]
    rfl
  obtain ⟨byte, hbyte, hperforms⟩ := step_performs h.frames hclosure htop rfl trivial (by simp)
  rw [heffect] at hperforms
  exact ⟨byte, hbyte, hperforms⟩

/-- Without room on the stack, a declaration fails. -/
theorem run_full (h : m.HasDeclared unit limits fs)
    (hclosure : unit.code.decode (7 * fs.length) = .ok ⟨.closure, [k, 0]⟩)
    (hfunction : unit.constants[k]? = some (.function f)) (hempty : limits.stackSize = 0) :
    ∃ n, m.run 1 = .stopped (.error .stackOverflow) n ∧ n.output = "" := by
  obtain ⟨byte, hbyte, hperforms⟩ := h.performs_closure hclosure hfunction
  have hfull : m.stack.size ≤ 0 := by rw [h.stack, hempty]
  obtain ⟨n, hn, -, -, houtput⟩ := hperforms.eq_full rfl hfull
  refine ⟨n, run_one_error hbyte hn, houtput.trans ?_⟩
  rw [h.output]
  rfl

theorem run_making (h : m.HasDeclared unit limits fs)
    (hclosure : unit.code.decode (7 * fs.length) = .ok ⟨.closure, [k, 0]⟩)
    (hfunction : unit.constants[k]? = some (.function f)) (hroom : 0 < limits.stackSize) :
    m.run 1 = .unfinished (making unit m fs f.content) := by
  obtain ⟨byte, hbyte, hperforms⟩ := h.performs_closure hclosure hfunction
  have hstep := hperforms.eq_ok fun _ => by rw [h.stack]; exact hroom
  have haddress : m.heap.closures.size = fs.length := by
    rw [h.heap]
    exact size_closuresOf _
  rw [run_one_ok hbyte hstep]
  simp only [perform, making, stackAfter, slotsAfter, View.giveNew, View.nothing, Heap.newClosure,
    haddress, String.append_empty]
  rfl

/-- A declaration ends by storing the closure. -/
theorem performs_store (h : m.HasDeclared unit limits fs)
    (hstore : unit.code.decode (7 * fs.length + 4) = .ok ⟨.setConstGlobal, [fs.length]⟩)
    (hroom : 0 < limits.stackSize) (g : Function) :
    let n := making unit m fs g
    ∃ byte, n.nextByte? = some byte ∧ n.Performs ⟨.main unit.code, 7 * (fs.length + 1), 0⟩ [] 0
      (if fs.length < limits.globalsSize then
        .ok { (n.view ⟨.main unit.code, 7 * fs.length + 4, 0⟩).nothing with
          globals := .holding limits.globalsSize (fs.length + 1) }
      else .error (.error (.globalOutOfRange fs.length limits.globalsSize)))
      (Exec.step byte) n := by
  intro n
  have hframes : n.frames = [⟨.main unit.code, 7 * fs.length + 4, 0⟩] := rfl
  have hslots : 0 < m.stack.size := by rwa [h.stack]
  have htop : n.Top 0 [.closure fs.length] := by
    refine ⟨rfl, ?_, fun k v hv => ?_⟩
    · change 1 ≤ (m.stack.setIfInBounds 0 _).size
      rw [Array.size_setIfInBounds]
      exact hslots
    · obtain ⟨rfl, rfl⟩ : k = 0 ∧ .closure fs.length = v := by
        cases k with
        | zero => exact ⟨rfl, Option.some.inj hv⟩
        | succ k => cases hv
      exact Array.getElem?_setIfInBounds_self_of_lt hslots
  have hset : (n.view ⟨.main unit.code, 7 * fs.length + 4, 0⟩).globals.set
      ((⟨.setConstGlobal, [fs.length]⟩ : Instruction).operand 0) (.closure fs.length) =
      if fs.length < limits.globalsSize then .ok (.holding limits.globalsSize (fs.length + 1))
      else .error (.globalOutOfRange fs.length limits.globalsSize) := by
    change m.globals.set fs.length _ = _
    rw [h.globals, Globals.set, Globals.size_holding, Globals.put_holding]
  obtain ⟨byte, hbyte, hperforms⟩ := step_performs hframes hstore htop rfl trivial (by simp)
  refine ⟨byte, hbyte, ?_⟩
  simp only [Instruction.effect, hset] at hperforms
  by_cases hslot : fs.length < limits.globalsSize
  · simp only [if_pos hslot] at hperforms ⊢
    exact hperforms
  · simp only [if_neg hslot] at hperforms ⊢
    exact hperforms

/-- Without a slot for the closure, a declaration fails. -/
theorem run_refused (h : m.HasDeclared unit limits fs)
    (hstore : unit.code.decode (7 * fs.length + 4) = .ok ⟨.setConstGlobal, [fs.length]⟩)
    (hroom : 0 < limits.stackSize) (hfew : limits.globalsSize ≤ fs.length) (g : Function) :
    ∃ n, (making unit m fs g).run 1 =
      .stopped (.error (.globalOutOfRange fs.length limits.globalsSize)) n ∧ n.output = "" := by
  obtain ⟨byte, hbyte, hperforms⟩ := h.performs_store hstore hroom g
  rw [if_neg (Nat.not_lt.mpr hfew)] at hperforms
  obtain ⟨n, hn, -, -, houtput⟩ := hperforms.eq_error
  exact ⟨n, run_one_error hbyte hn, houtput.trans h.output⟩

theorem run_stored (h : m.HasDeclared unit limits fs)
    (hstore : unit.code.decode (7 * fs.length + 4) = .ok ⟨.setConstGlobal, [fs.length]⟩)
    (hroom : 0 < limits.stackSize) (hslot : fs.length < limits.globalsSize) (g : Function) :
    ∃ n, (making unit m fs g).run 1 = .unfinished n ∧ n.HasDeclared unit limits (fs ++ [g]) := by
  obtain ⟨byte, hbyte, hperforms⟩ := h.performs_store hstore hroom g
  rw [if_pos hslot] at hperforms
  refine ⟨_, run_one_ok hbyte (hperforms.eq_ok (by simp [View.nothing])), ?_⟩
  have hlength : (fs ++ [g]).length = fs.length + 1 := by simp
  refine ⟨?_, rfl, ?_, h.maxFrames, h.constants, ?_, ?_, ?_, ?_⟩
  · rw [hlength]
    rfl
  · exact Array.size_setIfInBounds.trans h.stack
  · rw [hlength]
    exact hslot
  · rw [hlength]
    rfl
  · change { m.heap with closures := m.heap.closures.push ⟨g, #[]⟩ } = _
    rw [h.heap, push_closuresOf]
  · change m.output ++ "" = ""
    rw [h.output]
    rfl

end

/-- Machines that have declared equally many functions, and go on to declare equally many, run alike
if they do so when all are declared. -/
theorem alike {same : Machine → Machine → Prop} {gs gs' : List Function}
    (h : m.HasDeclared unit limits fs) (h' : m'.HasDeclared unit' limits fs')
    (hlength : fs'.length = fs.length) (hgs : unit.code.Declares unit.constants fs.length gs)
    (hgs' : unit'.code.Declares unit'.constants fs'.length gs') (hcount : gs'.length = gs.length)
    (hend : ∀ k n n', m.run k = .unfinished n → m'.run k = .unfinished n' →
      n.HasDeclared unit limits (fs ++ gs) → n'.HasDeclared unit' limits (fs' ++ gs') →
        ∀ steps, Run.Alike same (n.run steps) (n'.run steps)) (steps : Nat) :
    Run.Alike same (m.run steps) (m'.run steps) := by
  have houtput : m'.output = m.output := h'.output.trans h.output.symm
  induction gs generalizing fs fs' gs' m m' steps with
  | nil =>
      obtain rfl := List.length_eq_zero_iff.mp hcount
      rw [List.append_nil, List.append_nil] at hend
      exact hend 0 m m' rfl rfl h h' steps
  | cons g gs ih =>
      cases hgs with
      | @next _ _ f _ closure store function rest =>
      cases hgs' with
      | done => cases hcount
      | @next _ _ f' gs' closure' store' function' rest' =>
      by_cases hempty : limits.stackSize = 0
      · obtain ⟨n, hn, hprinted⟩ := h.run_full closure function hempty
        obtain ⟨n', hn', hprinted'⟩ := h'.run_full closure' function' hempty
        exact .of_stop houtput hn hn' (hprinted'.trans hprinted.symm) steps
      have hroom := Nat.pos_of_ne_zero hempty
      have hmaking := h.run_making closure function hroom
      have hmaking' := h'.run_making closure' function' hroom
      have hmade : (making unit' m' fs' f'.content).output = (making unit m fs f.content).output :=
        houtput
      refine .of_step houtput hmaking hmaking' (fun steps => ?_) steps
      by_cases hslot : fs.length < limits.globalsSize
      · obtain ⟨n, hn, hdeclared⟩ := h.run_stored store hroom hslot f.content
        obtain ⟨n', hn', hdeclared'⟩ := h'.run_stored store' hroom (hlength ▸ hslot) f'.content
        have hone (fs : List Function) (g : Function) :
            (fs ++ [g]).length = fs.length + 1 := by simp
        have houtput' : n'.output = n.output := hdeclared'.output.trans hdeclared.output.symm
        refine .of_step hmade hn hn' (fun steps => ?_) steps
        refine ih hdeclared hdeclared' ?_ ?_ ?_ (Nat.succ.inj hcount) ?_ steps houtput'
        · rw [hone, hone, hlength]
        · rwa [hone]
        · rwa [hone]
        · intro k j j' hj hj' hall hall'
          rw [List.append_assoc] at hall hall'
          refine hend (1 + (1 + k)) j j' ?_ ?_ hall hall'
          · rw [run_add hmaking, run_add hn, hj]
          · rw [run_add hmaking', run_add hn', hj']
      · have hfew := Nat.le_of_not_lt hslot
        obtain ⟨n, hn, hprinted⟩ := h.run_refused store hroom hfew f.content
        obtain ⟨n', hn', hprinted'⟩ := h'.run_refused store' hroom (hlength ▸ hfew) f'.content
        rw [hlength] at hn'
        exact .of_stop hmade hn hn' (hprinted'.trans hprinted.symm) steps

end HasDeclared

end Machine

end ScriptEngine
