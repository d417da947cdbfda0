import ScriptEngine.Proofs.Machine.Admitted

/-!
# Opening and closing calls

The machine after a call is opened or closed, and the invariant on the open calls of a machine:
each of them runs code that is safe from where it stands, with as many values on the stack as the
code counts on.
-/

namespace ScriptEngine

namespace Machine

def nullFrom (stack : Array Value) (start count : Nat) : Array Value :=
  (List.range' start count).foldl (fun stack slot => stack.setIfInBounds slot .null) stack

/-- The machine after opening a call of the closure at an address. -/
def enter (m : Machine) (address base locals : Nat) : Machine :=
  { m with
    stack := nullFrom m.stack m.sp (base + locals - m.sp)
    sp := base + locals
    frames := { routine := .closure address, ip := 0, base } :: m.frames }

/-- The machine after closing its innermost call. -/
def leave (m : Machine) (f : Frame) (fs : List Frame) (result : Value) : Machine :=
  { m with
    stack := m.stack.setIfInBounds (f.base - 1) result
    sp := f.base
    frames := fs }

theorem size_nullFrom (stack : Array Value) (start count : Nat) :
    (nullFrom stack start count).size = stack.size := by
  unfold nullFrom
  induction count generalizing stack start with
  | zero => rfl
  | succ count ih => rw [List.range'_succ, List.foldl_cons, ih, Array.size_setIfInBounds]

theorem nullFrom_forall {p : Value → Prop} {stack : Array Value} {start count : Nat}
    (hstack : ∀ v ∈ stack, p v) (hnull : p .null) : ∀ v ∈ nullFrom stack start count, p v := by
  unfold nullFrom
  induction count generalizing stack start with
  | zero => exact hstack
  | succ count ih =>
      rw [List.range'_succ, List.foldl_cons]
      exact ih (Array.forall_mem_set hstack hnull)

end Machine

namespace Exec

/-- Opening a call fails only if the number of arguments is wrong or there is no room for it. -/
theorem callClosure_ends {m : Machine} {address argc : Nat} {c : Closure}
    (hc : m.heap.closures[address]? = some c) (hargc : argc ≤ m.sp)
    (hlocals : c.function.parameters ≤ c.function.locals) :
    Ends (callClosure address argc) m
      (fun _ m' => argc = c.function.parameters ∧ m.frames.length < m.maxFrames ∧
        m.sp - argc + c.function.locals ≤ m.stack.size ∧
        m' = m.enter address (m.sp - argc) c.function.locals)
      (fun stop m' => m' = m ∧
        (argc ≠ c.function.parameters ∧
            stop = .error (.wrongArgumentCount c.function.parameters argc) ∨
          stop = .error (.frameOverflow m.maxFrames) ∨ stop = .error .stackOverflow)) := by
  have hclosure : m.heap.closure address = c := by simp [Heap.closure, hc]
  unfold Ends callClosure
  simp only [hclosure]
  by_cases hcount : argc = c.function.parameters
  · by_cases hframes : m.maxFrames ≤ m.frames.length
    · simp [hcount, hframes]
    · by_cases hroom : m.stack.size < m.sp - argc + c.function.locals
      · simp [← hcount, hframes, hroom]
      · have henough : ¬m.sp - argc + c.function.locals < m.sp := by omega
        simp only [hcount.symm, ne_eq, not_true_eq_false, if_false, hframes, hroom, henough]
        exact ⟨trivial, Nat.lt_of_not_le hframes, Nat.le_of_not_lt hroom, rfl⟩
  · simp [hcount]

/-- A call of a closure opens a call. -/
theorem call_eq_callClosure {m : Machine} {below a : Nat} {vs : List Value}
    (htop : m.Top below (.closure a :: vs)) : call vs.length m = callClosure a vs.length m := by
  have hsp := htop.sp
  rw [List.length_cons] at hsp
  have henough : ¬m.sp < vs.length + 1 := by omega
  have hbelow : m.sp - (vs.length + 1) = below := by omega
  have hget : (get : Exec Machine) m = .ok m m := rfl
  simp [call, Bind.bind, EStateM.bind, hget, henough, hbelow, htop.head]

/-- Closing a call puts the result in the place of the callee. -/
theorem returnFrom_eq {m : Machine} {f : Frame} {fs : List Frame} {v : Value}
    (hframes : m.frames = f :: fs) (hpos : 1 ≤ f.base) (hle : f.base ≤ m.stack.size) :
    returnFrom v m = .ok () (m.leave f fs v) := by
  have hroom : f.base - 1 < m.stack.size := by omega
  have hsp : f.base - 1 + 1 = f.base := by omega
  have hmodify (change : Machine → Machine) :
      (modify change : Exec PUnit) m = .ok ⟨⟩ (change m) := rfl
  simp [returnFrom, Bind.bind, EStateM.bind, hmodify, hframes, push, hroom, hsp, Machine.leave]

/-- Both ways to return close the innermost call. -/
theorem execute_return {m : Machine} {f : Frame} {fs : List Frame} {i : Instruction}
    {args : List Value} (hop : i.opcode = .returnValue ∨ i.opcode = .returnNull)
    (hframes : m.frames = f :: fs) (hpos : 1 ≤ f.base) (hle : f.base ≤ m.stack.size)
    (htop : m.Top (m.sp - i.taken) args) (hlength : args.length = i.taken) :
    execute i m = .ok () (m.leave f fs (args.headD .null)) := by
  obtain ⟨op, ns⟩ := i
  rcases hop with rfl | rfl
  · obtain ⟨v, rfl⟩ := List.length_eq_one_iff.mp hlength
    have hlast : m.Top (m.sp - 1) ([] ++ [v]) := htop
    have hreturn := returnFrom_eq (m := { m with sp := m.sp - 1 }) (v := v) hframes hpos hle
    simp only [execute, Bind.bind, EStateM.bind]
    rw [hlast.pop]
    exact hreturn
  · obtain rfl := List.length_eq_zero_iff.mp hlength
    exact returnFrom_eq hframes hpos hle

section

variable {m : Machine} {f : Frame} {fs : List Frame} {i : Instruction}

/-- A step at a call of a closure opens the call, with the calling one moved past the
instruction. -/
theorem step_eq_callClosure {below a : Nat} {vs : List Value} (hframes : m.frames = f :: fs)
    (hdecode : (m.codeOf f).decode f.ip = .ok i) (hop : i.opcode = .call)
    (htop : m.Top below (.closure a :: vs)) (hlength : vs.length + 1 = i.taken) :
    ∃ byte, m.nextByte? = some byte ∧ step byte m =
      callClosure a vs.length { m with frames := f.goTo (f.ip + i.width) :: fs } := by
  obtain ⟨byte, hbyte, hstep⟩ := step_eq_execute hframes hdecode
  refine ⟨byte, hbyte, ?_⟩
  have htop₁ : { m with frames := f.goTo (f.ip + i.width) :: fs }.Top below (.closure a :: vs) :=
    ⟨htop.sp, htop.le, htop.get⟩
  rw [hstep, ← call_eq_callClosure htop₁]
  obtain ⟨op, ns⟩ := i
  cases hop
  rw [Nat.succ.inj hlength]
  rfl

/-- A step at a return closes the innermost call. -/
theorem step_eq_leave {args : List Value} (hframes : m.frames = f :: fs)
    (hdecode : (m.codeOf f).decode f.ip = .ok i)
    (hop : i.opcode = .returnValue ∨ i.opcode = .returnNull) (hpos : 1 ≤ f.base)
    (hle : f.base ≤ m.stack.size) (htop : m.Top (m.sp - i.taken) args)
    (hlength : args.length = i.taken) :
    ∃ byte, m.nextByte? = some byte ∧ step byte m = .ok () (m.leave f fs (args.headD .null)) := by
  obtain ⟨byte, hbyte, hstep⟩ := step_eq_execute hframes hdecode
  have hexec := execute_return (m := { m with frames := f.goTo (f.ip + i.width) :: fs }) hop rfl
    hpos hle ⟨htop.sp, htop.le, htop.get⟩ hlength
  exact ⟨byte, hbyte, hstep.trans hexec⟩

end

end Exec

/-! ## Closures that can be called -/

/-- The closure that the value refers to, if it refers to one, is there and safe to run. -/
def Value.ValidIn (pool : Array Value) (closures : Array Closure) (v : Value) : Prop :=
  ∀ a, v = .closure a →
    ∃ c, closures[a]? = some c ∧ c.function.Safe pool c.captured.size

/-- What is added to a row of closures leaves those that are there. -/
def ClosuresKept (closures closures' : Array Closure) : Prop :=
  ∀ (a : Nat) (c : Closure), closures[a]? = some c → closures'[a]? = some c

theorem ClosuresKept.push (closures : Array Closure) (c : Closure) :
    ClosuresKept closures (closures.push c) := by
  intro a d hd
  have ha : a < closures.size := (Array.getElem?_eq_some_iff.mp hd).1
  rw [Array.getElem?_push, if_neg (by omega), hd]

namespace Value.ValidIn

variable {pool pool' : Array Value} {closures closures' : Array Closure}

theorem holdsOfData : HoldsOfData (ValidIn pool closures) :=
  fun _ hv a ha => absurd ha (hv a)

theorem mono {v : Value} (hv : v.ValidIn pool closures) (hpool : Continues pool pool')
    (hclosures : ClosuresKept closures closures') : v.ValidIn pool' closures' := by
  intro a ha
  obtain ⟨c, hc, hsafe⟩ := hv a ha
  exact ⟨c, hclosures a c hc, hsafe.mono hpool⟩

end Value.ValidIn

/-- All closures that can be reached from the globals and the heap are safe to call. -/
structure StoreValid (pool : Array Value) (globals : Globals) (heap : Heap) : Prop where
  globals : ∀ v ∈ globals.slots, v.ValidIn pool heap.closures
  heap : heap.All (Value.ValidIn pool heap.closures)

theorem StoreValid.continues {pool pool' : Array Value} {globals : Globals} {heap : Heap}
    (h : StoreValid pool globals heap) (hpool : Continues pool pool') :
    StoreValid pool' globals heap :=
  ⟨fun v hv => (h.globals v hv).mono hpool fun _ _ hc => hc,
    h.heap.imp fun _ hv => hv.mono hpool fun _ _ hc => hc⟩

/-! ## The open calls -/

/-- What a call runs is this closure, and it is there. -/
def Routine.Runs (closures : Array Closure) : Routine → Closure → Prop
  | main code, c => c = ⟨.main code, #[]⟩
  | closure address, c => closures[address]? = some c

namespace Routine.Runs

theorem mono {closures closures' : Array Closure} {r : Routine} {c : Closure}
    (h : r.Runs closures c) (hclosures : ClosuresKept closures closures') :
    r.Runs closures' c := by
  cases r with
  | main code => exact h
  | closure address => exact hclosures address c h

theorem eq {closures : Array Closure} {r : Routine} {c d : Closure} (hc : r.Runs closures c)
    (hd : r.Runs closures d) : c = d := by
  cases r with
  | main code => exact Eq.trans hc (Eq.symm hd)
  | closure address => exact Option.some.inj (Eq.trans (Eq.symm hc) hd)

theorem closureIn_eq {h : Heap} {r : Routine} {c : Closure} (hc : r.Runs h.closures c) :
    r.closureIn h = c := by
  cases r with
  | main code => exact hc.symm
  | closure address => simp [Routine.closureIn, Heap.closure, show h.closures[address]? = _ from hc]

end Routine.Runs

/-- The open calls, the innermost first, with a number of values on the stack.  The outermost one
runs the code `main`. -/
inductive Calls (pool : Array Value) (closures : Array Closure) (main : Code) :
    List Frame → Nat → Prop
  | main {f : Frame} {within : Nat → Nat → Prop} {h : Nat} (runs : f.routine = .main main)
      (base : f.base = 0) (safe : main.SafeMain pool within) (here : within f.ip h) :
      Calls pool closures main [f] h
  | call {f : Frame} {fs : List Frame} {a : Nat} {c : Closure} {within : Nat → Nat → Prop}
      {h : Nat} (base : 1 ≤ f.base) (runs : f.routine = .closure a)
      (closure : closures[a]? = some c)
      (safe : c.function.Safe pool c.captured.size)
      (steps : ∀ o m, within o m → Assembly.StepsTo
        ((c.function.room pool c.captured.size).Admits (Function.Safe pool)) c.function.code
        within o m)
      (here : within f.ip h) (rest : Calls pool closures main fs f.base) :
      Calls pool closures main (f :: fs) (f.base + c.function.locals + h)

/-- The innermost call is at an instruction and has what the instruction needs. -/
structure Turn (pool : Array Value) (closures : Array Closure) (main : Code) (f : Frame)
    (fs : List Frame) (c : Closure) (r : Room) (i : Instruction) (h : Nat) : Prop where
  runs : f.routine.Runs closures c
  decode : c.function.code.decode f.ip = .ok i
  admits : i.opcode.isJump = false → r.Admits (Function.Safe pool) i
  enough : i.taken ≤ h
  constants : r.pool = pool
  captures : r.captures ≤ c.captured.size
  inFunction : r.inFunction = true → 1 ≤ f.base ∧ (∃ a, f.routine = .closure a) ∧
    c.function.Safe pool c.captured.size ∧ Calls pool closures main fs f.base
  /-- The call can go on wherever the instruction leads. -/
  resume : ∀ target, i.Next f.ip target →
    Calls pool closures main (f.goTo target :: fs) (f.base + r.slots + i.after h)

namespace Calls

variable {pool : Array Value} {closures closures' : Array Closure} {main : Code}

theorem mono {fs : List Frame} {sp : Nat} (hcalls : Calls pool closures main fs sp)
    (hclosures : ClosuresKept closures closures') : Calls pool closures' main fs sp := by
  induction hcalls with
  | main runs base safe here => exact .main runs base safe here
  | call base runs closure safe steps here _ ih =>
      exact .call base runs (hclosures _ _ closure) safe steps here ih

/-- All code at the top level is `main`. -/
theorem eq_main {fs : List Frame} {sp : Nat} (hcalls : Calls pool closures main fs sp) {f : Frame}
    (hf : f ∈ fs) {code : Code} (hcode : f.routine = .main code) : code = main := by
  induction hcalls with
  | main runs =>
      obtain rfl := List.mem_singleton.mp hf
      exact Routine.main.inj (hcode.symm.trans runs)
  | call _ runs _ _ _ _ _ ih =>
      rcases List.mem_cons.mp hf with rfl | hf
      · cases hcode.symm.trans runs
      · exact ih hf

/-- Either the top level has come to its end, or there is an instruction to run. -/
theorem turn {f : Frame} {fs : List Frame} {sp : Nat}
    (hcalls : Calls pool closures main (f :: fs) sp) :
    (fs = [] ∧ f.routine = .main main ∧ f.base = 0 ∧ sp = 0 ∧ f.ip = main.size) ∨
    ∃ c r i h, sp = f.base + r.slots + h ∧ Turn pool closures main f fs c r i h := by
  cases hcalls with
  | @main _ within _ runs base safe here =>
      rcases safe.2 f.ip sp here with ⟨hip, rfl⟩ | ⟨i, hdecode, hadmits, henough, hnext⟩
      · exact .inl ⟨rfl, runs, base, rfl, hip⟩
      · refine .inr ⟨⟨.main main, #[]⟩, Code.mainRoom pool, i, sp, ?_, ?_⟩
        · simp [base, Code.mainRoom]
        · refine ⟨?_, hdecode, hadmits, henough, rfl, Nat.zero_le _, nofun, ?_⟩
          · rw [runs]
            rfl
          · intro target htarget
            have hmain : Calls pool closures main [f.goTo target] (i.after sp) :=
              .main runs base safe (hnext target htarget)
            simpa [base, Code.mainRoom] using hmain
  | @call _ _ a c within h base runs closure safe steps here rest =>
      obtain ⟨i, hdecode, hadmits, henough, hnext⟩ := steps f.ip h here
      refine .inr ⟨c, c.function.room pool c.captured.size, i, h, rfl, ?_⟩
      refine ⟨?_, hdecode, hadmits, henough, rfl, Nat.le_refl _,
        fun _ => ⟨base, ⟨a, runs⟩, safe, rest⟩, ?_⟩
      · rw [runs]
        exact closure
      · intro target htarget
        exact Calls.call (f := f.goTo target) base runs closure safe steps (hnext target htarget)
          rest

/-- Opening a call of a safe closure. -/
theorem open_call {fs : List Frame} {a base : Nat} {c : Closure} (hbase : 1 ≤ base)
    (hcalls : Calls pool closures main fs base) (hc : closures[a]? = some c)
    (hsafe : c.function.Safe pool c.captured.size) :
    Calls pool closures main ({ routine := .closure a, ip := 0, base } :: fs)
      (base + c.function.locals) := by
  obtain ⟨within, hstart, hsteps⟩ := hsafe.exists_heights
  exact Calls.call (f := { routine := .closure a, ip := 0, base }) hbase rfl hc hsafe hsteps hstart
    hcalls

end Calls

end ScriptEngine
