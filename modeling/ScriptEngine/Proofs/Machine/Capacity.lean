import ScriptEngine.Proofs.Machine.Fetching

/-!
# Capacity

The sizes of a machine hold for arbitrary code and constants, however often the machine is run again
after it has reported an error.  They leave exactly three ways in which a step can crash: a local
slot past the end of the stack, a call of a closure with fewer slots than arguments, and printing a
value that contains itself.  The limits are arbitrary; a machine can be built only with those that
fit (`Machine.load_eq_ok_iff`).
-/

namespace ScriptEngine

/-! ## Machines that are run again -/

namespace Machine

/-- The machines that a machine becomes by being run, for any number of steps, and run again after
it came to the end of its code or reported an error. -/
inductive Resumed (m₀ : Machine) : Machine → Prop
  | start : m₀.Resumed m₀
  | run {m m' : Machine} {n : Nat} (before : m₀.Resumed m)
      (run : m.run n = .unfinished m' ∨ m.run n = .finished m' ∨
        ∃ e, m.run n = .stopped (.error e) m') : m₀.Resumed m'

/-- A machine has come to an end, or its innermost call has bytes left. -/
theorem run_one_eq_finished_or (m : Machine) :
    m.run 1 = .finished m ∨ ∃ f fs, m.frames = f :: fs ∧ f.ip < (m.codeOf f).size := by
  cases hbyte : m.nextByte? with
  | none =>
      left
      simp only [run, hbyte]
  | some byte =>
      right
      cases hframes : m.frames with
      | nil => simp [nextByte?, hframes] at hbyte
      | cons f fs =>
          refine ⟨f, fs, rfl, ?_⟩
          simp only [nextByte?, hframes] at hbyte
          exact (Array.getElem?_eq_some_iff.mp hbyte).1

/-- What every step keeps holds of the machine at the end of every run. -/
theorem run_induction {p : Machine → Prop} (hstep : ∀ m, p m → p (m.run 1).machine) {m : Machine}
    (hm : p m) (n : Nat) : p (m.run n).machine := by
  induction n generalizing m with
  | zero => exact hm
  | succ n ih =>
      have hone := hstep m hm
      cases hrun : m.run 1 with
      | unfinished m' =>
          rw [hrun] at hone
          rw [Nat.add_comm, run_add hrun]
          exact ih hone
      | finished m' | stopped stop m' =>
          rw [run_of_le (n := 1) (by simp [hrun]) (by omega)]
          exact hone

theorem Resumed.induction {p : Machine → Prop} (hstep : ∀ m, p m → p (m.run 1).machine)
    {m₀ m : Machine} (h : m₀.Resumed m) (hm₀ : p m₀) : p m := by
  induction h with
  | start => exact hm₀
  | @run m m' n _ run ih =>
      have hend := run_induction hstep ih n
      rcases run with run | run | ⟨e, run⟩ <;> rw [run] at hend <;> exact hend

end Machine

/-! ## Limits -/

/-- Where the slots of the open calls begin, the innermost first: those of the top level at the
bottom of the stack, those of every other call above the slot of its callee. -/
def Seated (stackSize : Nat) : List Frame → Prop
  | [] => True
  | [f] => f.base = 0
  | f :: g :: fs => 1 ≤ f.base ∧ f.base ≤ stackSize ∧ Seated stackSize (g :: fs)

namespace Seated

variable {stackSize : Nat} {f : Frame} {fs : List Frame}

theorem goTo (h : Seated stackSize (f :: fs)) (ip : Nat) : Seated stackSize (f.goTo ip :: fs) := by
  cases fs <;> exact h

theorem tail (h : Seated stackSize (f :: fs)) : Seated stackSize fs := by
  cases fs with
  | nil => trivial
  | cons g fs => exact h.2.2

theorem base_le (h : Seated stackSize (f :: fs)) : f.base ≤ stackSize := by
  cases fs with
  | nil =>
      rw [show f.base = 0 from h]
      exact Nat.zero_le _
  | cons g fs => exact h.2.1

/-- Every call but the bottom one leaves room for its callee. -/
theorem base_of_mem_dropLast {fs : List Frame} (h : Seated stackSize fs) (hf : f ∈ fs.dropLast) :
    1 ≤ f.base ∧ f.base ≤ stackSize := by
  induction fs with
  | nil => cases hf
  | cons g fs ih =>
      cases fs with
      | nil => cases hf
      | cons g' fs =>
          rw [List.dropLast_cons_cons] at hf
          rcases List.mem_cons.mp hf with rfl | hf
          · exact ⟨h.1, h.2.1⟩
          · exact ih h.2.2 hf

end Seated

namespace Machine

/-- The sizes of the parts of a machine. -/
structure WithinLimits (limits : Limits) (slots : Nat) (m : Machine) : Prop where
  stack : m.stack.size = limits.stackSize
  sp : m.sp ≤ limits.stackSize
  maxFrames : m.maxFrames = limits.maxFrames
  globals : m.globals.size = slots
  length : m.frames.length ≤ max 1 limits.maxFrames
  seated : Seated limits.stackSize m.frames

variable {limits : Limits} {slots : Nat} {m : Machine} {f : Frame} {fs : List Frame}

theorem withinLimits_initial (code : Code) (constants : Array Value) (limits : Limits)
    (globals : Globals) (heap : Heap) :
    (initial code constants limits globals heap).WithinLimits limits globals.size where
  stack := Array.size_replicate
  sp := Nat.zero_le _
  maxFrames := rfl
  globals := rfl
  length := Nat.le_max_left _ _
  seated := rfl

theorem Keeps.withinLimits {m' : Machine} (hkeeps : m.Keeps m') (h : m.WithinLimits limits slots) :
    m'.WithinLimits limits slots where
  stack := hkeeps.stack.trans h.stack
  sp := h.stack ▸ hkeeps.sp (h.stack.symm ▸ h.sp)
  maxFrames := hkeeps.maxFrames.trans h.maxFrames
  globals := hkeeps.globals.trans h.globals
  length := hkeeps.frames.symm ▸ h.length
  seated := hkeeps.frames.symm ▸ h.seated

namespace WithinLimits

theorem goTo (h : m.WithinLimits limits slots) (hframes : m.frames = f :: fs) (ip : Nat) :
    { m with frames := f.goTo ip :: fs }.WithinLimits limits slots where
  stack := h.stack
  sp := h.sp
  maxFrames := h.maxFrames
  globals := h.globals
  length := by
    have hlength := h.length
    rwa [hframes] at hlength
  seated := by
    have hseated := h.seated
    rw [hframes] at hseated
    exact hseated.goTo ip

/-- Whatever an instruction does to the calls, the limits hold. -/
theorem shifts {i : Instruction} {m' : Machine} (h : m.WithinLimits limits slots)
    (hframes : m.frames = f :: fs) (hshifts : m.Shifts f fs i m') :
    m'.WithinLimits limits slots := by
  have hseated := h.seated
  have hlength := h.length
  rw [hframes] at hseated hlength
  cases hshifts with
  | stays _ keeps => exact keeps.withinLimits (h.goTo hframes _)
  | opens _ enough room keeps =>
      have hsp := h.sp
      rw [h.maxFrames, hframes] at room
      refine keeps.withinLimits ⟨h.stack, h.sp, h.maxFrames, h.globals, ?_, ?_⟩
      · exact Nat.le_trans room (Nat.le_max_right _ _)
      · exact ⟨by dsimp only; omega, by dsimp only; omega, hseated⟩
  | closes _ keeps =>
      refine keeps.withinLimits
        ⟨h.stack, ?_, h.maxFrames, h.globals, ?_, hseated.tail⟩
      · exact Nat.le_trans (Nat.sub_le _ _) hseated.base_le
      · exact Nat.le_trans (Nat.le_succ _) hlength

/-- One step keeps within the limits, however it ends. -/
theorem run_one (h : m.WithinLimits limits slots) :
    (m.run 1).machine.WithinLimits limits slots := by
  rcases m.run_one_eq_finished_or with hrun | ⟨f, fs, hframes, hip⟩
  · rw [hrun]
    exact h
  · cases hdecode : (m.codeOf f).decode f.ip with
    | error e =>
        rcases run_one_of_decode_eq_error hframes hip hdecode with
          ⟨byte, -, hrun⟩ | ⟨-, offset, hrun⟩ <;> rw [hrun]
        · exact h
        · exact h.goTo hframes offset
    | ok i =>
        have hshifts := (run_one_shifts hframes hdecode).1
        exact (h.goTo hframes _).shifts rfl hshifts

end WithinLimits

/-! ## Crashes -/

theorem getLocal_eq_crash {index : Nat} (hframes : m.frames = f :: fs)
    (hslot : m.stack.size ≤ f.base + index) :
    Exec.getLocal index m = .error (.crash .slotOutOfRange) m := by
  have hget : (get : Exec Machine) m = .ok m m := rfl
  simp only [Exec.getLocal, Bind.bind, EStateM.bind, Exec.frame_eq hframes, hget,
    Array.getElem?_eq_none hslot]
  rfl

theorem setLocal_eq_crash {index : Nat} (hframes : m.frames = f :: fs) (hpos : 0 < m.sp)
    (hsp : m.sp ≤ m.stack.size) (hslot : m.stack.size ≤ f.base + index) :
    Exec.setLocal index m = .error (.crash .slotOutOfRange) { m with sp := m.sp - 1 } := by
  have htop : m.stack[m.sp - 1]? = some (m.stack[m.sp - 1]) := Array.getElem?_eq_getElem (by omega)
  have hpop : Exec.pop m = .ok (m.stack[m.sp - 1]) { m with sp := m.sp - 1 } := by
    simp only [Exec.pop, Nat.ne_of_gt hpos, if_false, htop]
  simp only [Exec.setLocal, Bind.bind, EStateM.bind, Exec.frame_eq hframes, hpop]
  rw [if_neg (Nat.not_lt.mpr hslot)]

/-- What a call finds below its arguments decides how it goes on. -/
theorem call_of_callee {argc : Nat} {v : Value} (h : m.callee? argc = some v) :
    argc < m.sp ∧ m.stack[m.sp - (argc + 1)]? = some v := by
  unfold callee? at h
  split at h
  · cases h
  · exact ⟨by omega, h⟩

theorem call_eq_tooFewLocals {argc a : Nat} (hsp : m.sp ≤ m.stack.size)
    (hcallee : m.callee? argc = some (.closure a))
    (hparameters : (m.heap.closure a).function.parameters = argc)
    (hlocals : (m.heap.closure a).function.locals < argc) (hroom : m.frames.length < m.maxFrames) :
    Exec.call argc m = .error (.crash .tooFewLocals) m := by
  obtain ⟨henough, hslot⟩ := call_of_callee hcallee
  have hget : (get : Exec Machine) m = .ok m m := rfl
  simp only [Exec.call, Bind.bind, EStateM.bind, hget, if_neg (show ¬m.sp < argc + 1 by omega),
    hslot]
  unfold Exec.callClosure
  dsimp only
  rw [if_neg (not_not.mpr hparameters.symm), if_neg (Nat.not_le_of_lt hroom), if_neg (by omega),
    if_pos (by omega)]

theorem call_eq_endlessText {argc : Nat} {v : Value} (hsp : m.sp ≤ m.stack.size)
    (hcallee : m.callee? argc = some (.builtin .puts)) (hv : v ∈ m.arguments argc)
    (hnone : m.heap.text? v = none) : Exec.call argc m = .error (.crash .endlessText) m := by
  obtain ⟨henough, hslot⟩ := call_of_callee hcallee
  have hget : (get : Exec Machine) m = .ok m m := rfl
  have hreply : Builtin.puts.reply m.heap (m.stack.extract (m.sp - argc) m.sp).toList =
      .error (.crash .endlessText) := Builtin.reply_eq_crash_iff.mpr ⟨rfl, rfl, v, hv, hnone⟩
  simp only [Exec.call, Bind.bind, EStateM.bind, hget, if_neg (show ¬m.sp < argc + 1 by omega),
    hslot, Exec.callBuiltin, if_neg (Nat.not_lt.mpr hsp), hreply]
  rfl

/-- Every crash that is foreseen happens. -/
theorem execute_eq_crash {i : Instruction} {c : Crash} (hframes : m.frames = f :: fs)
    (hsp : m.sp ≤ m.stack.size) (h : m.CrashesAt f i c) :
    ∃ m', Exec.execute i m = .error (.crash c) m' := by
  obtain ⟨op, ns⟩ := i
  cases h with
  | load opcode slot =>
      rcases opcode with rfl | rfl <;> exact ⟨_, getLocal_eq_crash hframes slot⟩
  | store opcode pos slot =>
      rcases opcode with rfl | rfl <;> exact ⟨_, setLocal_eq_crash hframes pos hsp slot⟩
  | call opcode callee parameters locals room =>
      cases opcode
      exact ⟨_, call_eq_tooFewLocals hsp callee parameters locals room⟩
  | print opcode callee argument endless =>
      cases opcode
      exact ⟨_, call_eq_endlessText hsp callee argument (Heap.text?_eq_none_iff.mpr endless)⟩

theorem crashesAt_goTo_iff {i : Instruction} {c : Crash} (hframes : m.frames = f :: fs) (ip : Nat) :
    { m with frames := f.goTo ip :: fs }.CrashesAt (f.goTo ip) i c ↔ m.CrashesAt f i c := by
  have hlength : (f.goTo ip :: fs).length = m.frames.length := by rw [hframes]; rfl
  constructor
  · intro h
    cases h with
    | load opcode slot => exact .load opcode slot
    | store opcode sp slot => exact .store opcode sp slot
    | call opcode callee parameters locals room =>
        exact .call opcode callee parameters locals (hlength ▸ room)
    | print opcode callee argument endless => exact .print opcode callee argument endless
  · intro h
    cases h with
    | load opcode slot => exact .load opcode slot
    | store opcode sp slot => exact .store opcode sp slot
    | call opcode callee parameters locals room =>
        exact .call opcode callee parameters locals (hlength.symm ▸ room)
    | print opcode callee argument endless => exact .print opcode callee argument endless

/-- A step crashes exactly if its instruction can be read and is foreseen to crash. -/
theorem WithinLimits.run_one_eq_crash_iff {c : Crash} (h : m.WithinLimits limits slots) :
    (∃ m', m.run 1 = .stopped (.crash c) m') ↔
      ∃ f fs i, m.frames = f :: fs ∧ (m.codeOf f).decode f.ip = .ok i ∧ m.CrashesAt f i c := by
  have hsp : m.sp ≤ m.stack.size := h.stack.symm ▸ h.sp
  constructor
  · rintro ⟨m', hcrash⟩
    rcases m.run_one_eq_finished_or with hrun | ⟨f, fs, hframes, hip⟩
    · cases hrun.symm.trans hcrash
    · cases hdecode : (m.codeOf f).decode f.ip with
      | error e =>
          rcases run_one_of_decode_eq_error hframes hip hdecode with
            ⟨byte, -, hrun⟩ | ⟨-, offset, hrun⟩ <;> cases hrun.symm.trans hcrash
      | ok i =>
          refine ⟨f, fs, i, hframes, hdecode, ?_⟩
          have hadmits := (run_one_shifts hframes hdecode).2 _ m' hcrash
          exact (crashesAt_goTo_iff hframes _).mp (hadmits hsp)
  · rintro ⟨f, fs, i, hframes, hdecode, hcrash⟩
    obtain ⟨m', hexec⟩ := execute_eq_crash (m := { m with frames := f.goTo (f.ip + i.width) :: fs })
      rfl hsp ((crashesAt_goTo_iff hframes _).mpr hcrash)
    refine ⟨m', ?_⟩
    rw [run_one_of_decode_eq_ok hframes hdecode, hexec]
    rfl

/-- Whatever the code, the constants, the globals, the heap and the limits are, and however often
the machine has been run and has reported errors before, its sizes hold, and its next step crashes
only by reaching past the stack for a local slot, by calling a closure that has fewer slots than
arguments, or by printing a value that contains itself.  Every other step goes on, ends the run or
reports an error. -/
theorem Resumed.capacity {code : Code} {constants : Array Value} {globals : Globals} {heap : Heap}
    (h : (initial code constants limits globals heap).Resumed m) :
    m.stack.size = limits.stackSize ∧ m.sp ≤ limits.stackSize ∧ m.globals.size = globals.size ∧
      m.frames.length ≤ max 1 limits.maxFrames ∧
      (∀ f ∈ m.frames.dropLast, 1 ≤ f.base ∧ f.base ≤ limits.stackSize) ∧
      ∀ c, (∃ m', m.run 1 = .stopped (.crash c) m') ↔
        ∃ f fs i, m.frames = f :: fs ∧ (m.codeOf f).decode f.ip = .ok i ∧ m.CrashesAt f i c := by
  have hlimits : m.WithinLimits limits globals.size :=
    h.induction (fun _ => WithinLimits.run_one)
      (withinLimits_initial code constants limits globals heap)
  exact ⟨hlimits.stack, hlimits.sp, hlimits.globals, hlimits.length,
    fun f => hlimits.seated.base_of_mem_dropLast, fun c => hlimits.run_one_eq_crash_iff⟩

/-- An addition without operands is reported; run again, the machine crashes at the local slot
behind it, which lies past its two slots. -/
theorem Resumed.capacity_after_underflow :
    let m₀ := initial ⟨#[4, 22, 2]⟩ #[] ⟨2, 1, 1⟩ (.ofSize 1) .empty
    ∃ m, m₀.Resumed m ∧ m₀.run 5 = .stopped (.error .stackUnderflow) m ∧
      m.stack.size = 2 ∧ ∃ m', m.run 1 = .stopped (.crash .slotOutOfRange) m' := by
  intro m₀
  have hrun : m₀.run 5 =
      .stopped (.error .stackUnderflow) { m₀ with frames := [⟨.main ⟨#[4, 22, 2]⟩, 1, 0⟩] } := by
    rfl
  have hresumed : m₀.Resumed { m₀ with frames := [⟨.main ⟨#[4, 22, 2]⟩, 1, 0⟩] } :=
    .run .start (.inr (.inr ⟨_, hrun⟩))
  obtain ⟨hstack, -, -, -, -, hcrash⟩ := hresumed.capacity
  refine ⟨_, hresumed, hrun, hstack, (hcrash .slotOutOfRange).mpr ?_⟩
  exact ⟨⟨.main ⟨#[4, 22, 2]⟩, 1, 0⟩, [], ⟨.getLocal, [2]⟩, rfl, by decide +kernel,
    .load (.inl rfl) (by decide)⟩

end Machine

end ScriptEngine
