import ScriptEngine.Proofs.Machine.Calls

/-!
# Safety of runs

A sound machine has its open calls in order and only valid values.  A step of a sound machine leads
to a sound machine or stops for a reason that is not internal; either way the globals and the heap
stay valid.  A sound machine at the end of its code has nothing left on the stack and no open call
but the outermost one.
-/

namespace ScriptEngine

namespace Machine

/-- The open calls are in order, and all values of the machine are valid. -/
structure Sound (main : Code) (m : Machine) : Prop where
  sp_le : m.sp ≤ m.stack.size
  calls : Calls m.constants m.heap.closures main m.frames m.sp
  stack : ∀ v ∈ m.stack, v.ValidIn m.constants m.heap.closures
  store : StoreValid m.constants m.globals m.heap
  /-- The top level is no closure. -/
  mainAddress : m.mainAddress = none

/-- What is left of a machine that stopped early. -/
structure SoundStop (pool : Array Value) (stop : Stop RuntimeError) (m : Machine) : Prop where
  notInternal : stop.isInternal = false
  store : StoreValid pool m.globals m.heap

variable {main : Code} {m : Machine}

/-- The values on top of the stack of a machine. -/
theorem exists_top (taken : Nat) (hle : m.sp ≤ m.stack.size) (htaken : taken ≤ m.sp) :
    ∃ args : List Value, args.length = taken ∧ m.Top (m.sp - taken) args := by
  refine ⟨(m.stack.extract (m.sp - taken) m.sp).toList, ?_, ?_, hle, ?_⟩
  · simp
    omega
  · simp
    omega
  · intro k v hv
    have hk := (List.getElem?_eq_some_iff.mp hv).1
    simp only [Array.length_toList, Array.size_extract] at hk
    rw [Array.getElem?_toList, Array.getElem?_extract, if_pos (by omega)] at hv
    exact hv

end Machine

/-- The effect keeps all closures that are there, and its values are valid. -/
structure Effect.Valid (pool : Array Value) (w : View) (e : Effect) : Prop where
  closures : ClosuresKept w.heap.closures e.heap.closures
  value : ∀ v, e.value = some v → v.ValidIn pool e.heap.closures
  written : ∀ k v, e.written = some (k, v) → v.ValidIn pool e.heap.closures
  store : StoreValid pool e.globals e.heap
  mainAddress : e.mainAddress = w.mainAddress

namespace Instruction

theorem valid_effect_closure {pool : Array Value} {w : View} {i : Instruction} {args : List Value}
    {e : Effect} {g : Marked Function} (hw : w.All (Value.ValidIn pool w.heap.closures))
    (hargs : ∀ v ∈ args, v.ValidIn pool w.heap.closures)
    (hg : w.constants[i.operand 0]? = some (.function g)) (hsafe : g.content.Safe pool args.length)
    (he : w.closure i args = .ok e) : e.Valid pool w := by
  have hkeeps := ClosuresKept.push w.heap.closures ⟨g.content, args.toArray⟩
  have hlater (v : Value) (hv : v.ValidIn pool w.heap.closures) :
      v.ValidIn pool (w.heap.newClosure g.content args.toArray).2.closures :=
    hv.mono (.refl pool) hkeeps
  have hcaptured : ∀ v ∈ args.toArray, v.ValidIn pool w.heap.closures := by simpa using hargs
  simp only [View.closure, hg] at he
  cases he
  refine ⟨hkeeps, ?_, by simp [View.giveNew, View.nothing], ⟨?_, ?_⟩, rfl⟩
  · rintro _ ⟨⟩ a ha
    cases ha
    refine ⟨⟨g.content, args.toArray⟩, Array.getElem?_push_size, ?_⟩
    simpa using hsafe
  · exact fun v hv => hlater v (hw.globals v hv)
  · exact (hw.heap.newClosure hcaptured).imp hlater

/-- The effect of an admitted instruction on valid values is valid. -/
theorem valid_effect {pool : Array Value} {r : Room} {w : View} {i : Instruction}
    {args : List Value} {e : Effect} (hw : w.All (Value.ValidIn pool w.heap.closures))
    (hargs : ∀ v ∈ args, v.ValidIn pool w.heap.closures) (hlength : args.length = i.taken)
    (hpool : w.constants = r.pool)
    (hadmits : i.opcode.isJump = false → r.Admits (Function.Safe pool) i)
    (hcurrent : i.opcode = .currentClosure → ∃ a, w.routine = .closure a ∧
      (Value.closure a).ValidIn pool w.heap.closures)
    (he : i.effect w args = .ok e) : e.Valid pool w := by
  by_cases hclosure : i.opcode = .closure
  · obtain ⟨op, ns⟩ := i
    cases hclosure
    obtain ⟨g, hg, hsafe⟩ := hadmits rfl
    have hcount : args.length = Instruction.operand ⟨.closure, ns⟩ 1 := hlength
    rw [← hpool] at hg
    rw [← hcount] at hsafe
    exact valid_effect_closure hw hargs hg hsafe he
  · have hconstant : i.opcode = .constant →
        ∀ v, w.constants[i.operand 0]? = some v → v.ValidIn pool w.heap.closures := by
      intro hop v hv
      obtain ⟨op, ns⟩ := i
      cases hop
      obtain ⟨u, hu, hplain⟩ := hadmits rfl
      rw [← hpool, hv] at hu
      cases hu
      refine Value.ValidIn.holdsOfData v ?_
      rintro a rfl
      cases hplain
    obtain ⟨hvalue, hwritten, hglobals, hheap, hsame, hmain⟩ :=
      keeps_effect Value.ValidIn.holdsOfData hw hargs hlength hclosure hconstant hcurrent e he
    rw [← hsame] at hvalue hwritten hglobals hheap
    exact ⟨fun a c hc => hsame ▸ hc, hvalue, hwritten, ⟨hglobals, hheap⟩, hmain⟩

end Instruction

/-! ## Steps of a sound machine -/

namespace Machine

variable {main : Code} {m : Machine} {f : Frame} {fs : List Frame}

/-- The machine after a valid effect of its innermost call. -/
theorem Sound.perform {below : Nat} {e : Effect} (hm : m.Sound main)
    (he : e.Valid m.constants (m.view f)) {f' : Frame}
    (hroom : below + (if e.value.isSome then 1 else 0) ≤ m.stack.size)
    (hcalls : Calls m.constants m.heap.closures main (f'.goTo (e.target.getD f'.ip) :: fs)
      (below + if e.value.isSome then 1 else 0)) :
    (m.perform f' fs below e).Sound main where
  sp_le := by
    change _ ≤ (m.stackAfter f'.base below e).size
    rw [size_stackAfter]
    exact hroom
  calls := hcalls.mono he.closures
  stack := by
    refine stackAfter_forall (fun v hv => ?_) he.value he.written
    exact (hm.stack v hv).mono (.refl _) he.closures
  store := he.store
  mainAddress := he.mainAddress.trans hm.mainAddress

/-- What an instruction of a sound machine sees is valid. -/
theorem Sound.view_all (hm : m.Sound main) (f : Frame) :
    (m.view f).All (Value.ValidIn m.constants m.heap.closures) where
  captured := captured_all hm.store.heap f
  slot _ v hv := hm.stack v (Array.mem_of_getElem? hv)
  globals := hm.store.globals
  heap := hm.store.heap

/-- The innermost call is about to run an instruction that takes the given values. -/
structure Ready (main : Code) (m : Machine) (f : Frame) (fs : List Frame) (c : Closure) (r : Room)
    (i : Instruction) (h : Nat) (args : List Value) : Prop where
  frames : m.frames = f :: fs
  turn : Turn m.constants m.heap.closures main f fs c r i h
  sp : m.sp = f.base + r.slots + h
  top : m.Top (m.sp - i.taken) args
  length : args.length = i.taken

theorem closureOf_eq {c : Closure} (hc : f.routine.Runs m.heap.closures c) : m.closureOf f = c :=
  hc.closureIn_eq

theorem codeOf_eq {c : Closure} (hc : f.routine.Runs m.heap.closures c) :
    m.codeOf f = c.function.code := by
  rw [codeOf, closureOf_eq hc]

theorem codeOf_main {code : Code} (hf : f.routine = .main code) : m.codeOf f = code := by
  rw [codeOf, closureOf, hf]
  rfl

/-- Either a sound machine has come to the end of the top level, or its innermost call has an
instruction to run. -/
theorem Sound.ready (hm : m.Sound main) :
    (m.sp = 0 ∧ ∃ f, m.frames = [f] ∧ f.routine = .main main ∧ f.base = 0 ∧
        f.ip = (m.codeOf f).size) ∨
      ∃ f fs c r i h args, m.Ready main f fs c r i h args := by
  have hcalls := hm.calls
  cases hframes : m.frames with
  | nil =>
      rw [hframes] at hcalls
      cases hcalls
  | cons f fs =>
      rw [hframes] at hcalls
      rcases hcalls.turn with ⟨rfl, hmain, hbase, hsp, hip⟩ | ⟨c, r, i, h, hsp, hturn⟩
      · refine .inl ⟨hsp, f, rfl, hmain, hbase, ?_⟩
        rw [codeOf_main hmain, hip]
      · have henough := hturn.enough
        obtain ⟨args, hlength, htop⟩ := exists_top i.taken hm.sp_le (by omega)
        exact .inr ⟨f, fs, c, r, i, h, args, hframes, hturn, hsp, htop, hlength⟩

/-- What a step of a sound machine does: it goes on or stops. -/
def StepsSoundly (main : Code) (m : Machine) : Prop :=
  ∃ byte, m.nextByte? = some byte ∧ Ends (Exec.step byte) m
    (fun _ m' => m'.Sound main ∧ m'.constants = m.constants) (SoundStop m.constants)

section

variable {c : Closure} {r : Room} {i : Instruction} {h : Nat} {args : List Value}

namespace Ready

theorem decode (hr : m.Ready main f fs c r i h args) : (m.codeOf f).decode f.ip = .ok i := by
  rw [codeOf_eq hr.turn.runs, hr.turn.decode]

/-- The instruction takes its values from above the local slots. -/
theorem slots_le (hr : m.Ready main f fs c r i h args) : f.base + r.slots ≤ m.sp - i.taken := by
  have hsp := hr.sp
  have henough := hr.turn.enough
  omega

/-- What an instruction reads or writes as a local slot is one. -/
theorem operand_lt (hr : m.Ready main f fs c r i h args)
    (hop : (i.opcode = .getLocal ∨ i.opcode = .getConstLocal) ∨
      (i.opcode = .setLocal ∨ i.opcode = .setConstLocal)) : i.operand 0 < r.slots := by
  have hadmits := hr.turn.admits
  obtain ⟨op, ns⟩ := i
  rcases hop with (rfl | rfl) | (rfl | rfl) <;> exact hadmits rfl

/-- A return closes a call that is not the outermost one. -/
theorem of_return (hr : m.Ready main f fs c r i h args)
    (hop : i.opcode = .returnValue ∨ i.opcode = .returnNull) :
    1 ≤ f.base ∧ Calls m.constants m.heap.closures main fs f.base := by
  have hin : r.inFunction = true := by
    have hadmits := hr.turn.admits
    obtain ⟨op, ns⟩ := i
    rcases hop with rfl | rfl <;> exact hadmits rfl
  obtain ⟨hpos, -, -, hcalls⟩ := hr.turn.inFunction hin
  exact ⟨hpos, hcalls⟩

/-- Only a function refers to the closure that runs, and it is there and safe to call. -/
theorem of_currentClosure (hr : m.Ready main f fs c r i h args)
    (hop : i.opcode = .currentClosure) :
    ∃ a, f.routine = .closure a ∧
      (Value.closure a).ValidIn m.constants m.heap.closures := by
  have hin : r.inFunction = true := by
    have hadmits := hr.turn.admits
    obtain ⟨op, ns⟩ := i
    cases hop
    exact hadmits rfl
  obtain ⟨-, ⟨a, ha⟩, hsafe, -⟩ := hr.turn.inFunction hin
  have hruns := hr.turn.runs
  rw [ha] at hruns
  refine ⟨a, ha, ?_⟩
  rintro _ ⟨⟩
  exact ⟨c, hruns, hsafe⟩

theorem runs_closure (hr : m.Ready main f fs c r i h args) (hop : i.opcode = .currentClosure) :
    ∃ a, f.routine = .closure a := by
  obtain ⟨a, ha, -⟩ := hr.of_currentClosure hop
  exact ⟨a, ha⟩

/-- A step at an instruction that stays in its call performs its effect. -/
theorem step_stays (hr : m.Ready main f fs c r i h args) (hle : m.sp ≤ m.stack.size)
    (hstays : i.StaysIn args) :
    ∃ byte, m.nextByte? = some byte ∧
      m.Performs (f.goTo (f.ip + i.width)) fs (m.sp - i.taken) (i.effect (m.view f) args)
        (Exec.step byte) m := by
  have hslots := hr.slots_le
  refine step_performs hr.frames hr.decode hr.top hr.length hstays fun hop => ?_
  have hlt := hr.operand_lt (.inr hop)
  omega

/-- A step at a return closes the call. -/
theorem step_return (hr : m.Ready main f fs c r i h args) (hle : m.sp ≤ m.stack.size)
    (hop : i.opcode = .returnValue ∨ i.opcode = .returnNull) :
    ∃ byte, m.nextByte? = some byte ∧
      Exec.step byte m = .ok () (m.leave f fs (args.headD .null)) := by
  have hslots := hr.slots_le
  exact Exec.step_eq_leave hr.frames hr.decode hop (hr.of_return hop).1 (by omega) hr.top hr.length

theorem fits_view (hr : m.Ready main f fs c r i h args) (hle : m.sp ≤ m.stack.size) :
    (m.view f).Fits r where
  constants := hr.turn.constants.symm
  captured := by
    change r.captures ≤ (m.closureOf f).captured.size
    rw [closureOf_eq hr.turn.runs]
    exact hr.turn.captures
  slot k hk := by
    have hslots := hr.slots_le
    exact ⟨_, Array.getElem?_eq_getElem (by omega)⟩

end Ready

/-- The effect of the instruction of a sound machine is valid. -/
theorem Sound.valid_effect (hm : m.Sound main) (hr : m.Ready main f fs c r i h args) {e : Effect}
    (he : i.effect (m.view f) args = .ok e) : e.Valid m.constants (m.view f) :=
  Instruction.valid_effect (hm.view_all f) (hr.top.forall_mem hm.stack) hr.length
    hr.turn.constants.symm hr.turn.admits hr.of_currentClosure he

/-- An instruction that stays in its call. -/
theorem Sound.step_stays (hm : m.Sound main) (hr : m.Ready main f fs c r i h args)
    (hstays : i.StaysIn args) : m.StepsSoundly main := by
  have hle := hm.sp_le
  have hsp := hr.sp
  have henough := hr.turn.enough
  obtain ⟨byte, hbyte, hstep⟩ := hr.step_stays hle hstays
  refine ⟨byte, hbyte, hstep.mono ?_ ?_⟩
  · rintro _ m' ⟨e, he, hroom, rfl⟩
    have hsuits := Instruction.suits_effect hstays hr.length he
    have hheight : m.sp - i.taken + (if e.value.isSome then 1 else 0) =
        f.base + r.slots + i.after h := by
      rw [hsuits.given, Instruction.after]
      omega
    refine ⟨hm.perform (hm.valid_effect hr he) ?_ ?_, rfl⟩
    · split
      · rename_i hsome
        exact hroom hsome
      · omega
    · rw [hheight]
      exact hr.turn.resume _ (hsuits.next f.ip)
  · intro stop m' hbreaks
    cases hbreaks with
    | refused heffect hglobals hheap _ =>
        refine ⟨Instruction.faultless_effect (hr.fits_view hle) hr.turn.admits hr.length stop
          heffect, ?_⟩
        rw [hglobals, hheap]
        exact hm.store
    | full heffect _ _ hglobals hheap _ =>
        refine ⟨rfl, ?_⟩
        rw [hglobals, hheap]
        exact (hm.valid_effect hr heffect).store

/-- A call of a closure opens the call unless the number of arguments is wrong or there is no room
for it. -/
theorem Sound.step_closure (hm : m.Sound main) {a : Nat} {vs : List Value}
    (hr : m.Ready main f fs c r i h (.closure a :: vs)) (hop : i.opcode = .call) :
    ∃ byte callee, m.nextByte? = some byte ∧ m.heap.closures[a]? = some callee ∧
      callee.function.Safe m.constants callee.captured.size ∧
      Ends (Exec.step byte) m
        (fun _ m' => vs.length = callee.function.parameters ∧
          m.sp - vs.length + callee.function.locals ≤ m.stack.size ∧
          m' = { m with frames := f.goTo (f.ip + i.width) :: fs }.enter a (m.sp - vs.length)
            callee.function.locals)
        (fun stop m' => m' = { m with frames := f.goTo (f.ip + i.width) :: fs } ∧
          (vs.length ≠ callee.function.parameters ∧
              stop = .error (.wrongArgumentCount callee.function.parameters vs.length) ∨
            stop = .error (.frameOverflow m.maxFrames) ∨ stop = .error .stackOverflow)) := by
  have htaken : vs.length ≤ m.sp := by
    have hsp := hr.top.sp
    rw [List.length_cons] at hsp
    omega
  obtain ⟨callee, hcallee, hsafe⟩ := hr.top.forall_mem hm.stack _ List.mem_cons_self a rfl
  obtain ⟨byte, hbyte, hstep⟩ :=
    Exec.step_eq_callClosure hr.frames hr.decode hop hr.top hr.length
  have hends := Exec.callClosure_ends (m := { m with frames := f.goTo (f.ip + i.width) :: fs })
    hcallee htaken hsafe.parameters_le
  refine ⟨byte, callee, hbyte, hcallee, hsafe, ?_⟩
  unfold Ends at hends ⊢
  rw [hstep]
  exact Ends.mono hends (fun _ _ hdone => ⟨hdone.1, hdone.2.2⟩) fun _ _ hstop => hstop

/-- A call of a closure. -/
theorem Sound.step_call (hm : m.Sound main) {a : Nat} {vs : List Value}
    (hr : m.Ready main f fs c r i h (.closure a :: vs)) (hop : i.opcode = .call) :
    m.StepsSoundly main := by
  have hsp := hr.sp
  have henough := hr.turn.enough
  have hlength := hr.length
  rw [List.length_cons] at hlength
  obtain ⟨byte, callee, hbyte, hcallee, hsafe, hstep⟩ := hm.step_closure hr hop
  refine ⟨byte, hbyte, hstep.mono ?_ ?_⟩
  · rintro _ m' ⟨-, hroom, rfl⟩
    have hbase : m.sp - vs.length = f.base + r.slots + i.after h := by
      have hgiven : i.given = 1 := by
        obtain ⟨op, ns⟩ := i
        cases hop
        rfl
      rw [Instruction.after, hgiven]
      omega
    have hnext : i.Next f.ip (f.ip + i.width) := by
      obtain ⟨op, ns⟩ := i
      cases hop
      rfl
    have hpos : 1 ≤ m.sp - vs.length := by omega
    have hcalls := hr.turn.resume _ hnext
    rw [← hbase] at hcalls
    refine ⟨⟨?_, hcalls.open_call hpos hcallee hsafe, ?_, hm.store, hm.mainAddress⟩, rfl⟩
    · change m.sp - vs.length + callee.function.locals ≤ (nullFrom _ _ _).size
      rw [size_nullFrom]
      exact hroom
    · exact nullFrom_forall hm.stack (Value.ValidIn.holdsOfData _ (by simp))
  · rintro stop m' ⟨rfl, hstop⟩
    refine ⟨?_, hm.store⟩
    rcases hstop with ⟨-, rfl⟩ | rfl | rfl <;> rfl

/-- A return. -/
theorem Sound.step_return (hm : m.Sound main) (hr : m.Ready main f fs c r i h args)
    (hop : i.opcode = .returnValue ∨ i.opcode = .returnNull) : m.StepsSoundly main := by
  have hle := hm.sp_le
  have hslots := hr.slots_le
  obtain ⟨byte, hbyte, hstep⟩ := hr.step_return hle hop
  refine ⟨byte, hbyte, Ends.of_ok hstep
    ⟨⟨?_, (hr.of_return hop).2, ?_, hm.store, hm.mainAddress⟩, rfl⟩⟩
  · change f.base ≤ (m.stack.setIfInBounds _ _).size
    rw [Array.size_setIfInBounds]
    omega
  · refine Array.forall_mem_set hm.stack ?_
    cases args with
    | nil => exact Value.ValidIn.holdsOfData _ (by simp)
    | cons v vs => exact hr.top.forall_mem hm.stack v List.mem_cons_self

end

/-- A sound machine at the end of its code has come to the end of the top level, with nothing left
on the stack. -/
theorem Sound.finished (hm : m.Sound main) (hbyte : m.nextByte? = none) :
    m.sp = 0 ∧ ∃ f, m.frames = [f] ∧ f.routine = .main main ∧ f.base = 0 ∧
      f.ip = (m.codeOf f).size := by
  rcases hm.ready with hend | ⟨f, fs, c, r, i, h, args, hr⟩
  · exact hend
  · obtain ⟨byte, hsome, -⟩ := Exec.step_eq_execute hr.frames hr.decode
    rw [hbyte] at hsome
    cases hsome

/-- A step of a sound machine. -/
theorem Sound.step (hm : m.Sound main) {byte : UInt8} (hbyte : m.nextByte? = some byte) :
    Ends (Exec.step byte) m (fun _ m' => m'.Sound main ∧ m'.constants = m.constants)
      (SoundStop m.constants) := by
  suffices hsteps : m.StepsSoundly main by
    obtain ⟨byte', hbyte', hends⟩ := hsteps
    rw [hbyte] at hbyte'
    cases hbyte'
    exact hends
  rcases hm.ready with ⟨-, f, hframes, -, -, hip⟩ | ⟨f, fs, c, r, i, h, args, hr⟩
  · simp [nextByte?, hframes, hip, Code.size] at hbyte
  · by_cases hstays : i.StaysIn args
    · exact hm.step_stays hr hstays
    · rcases Instruction.not_staysIn hstays with hop | ⟨hop, a, vs, rfl⟩
      · exact hm.step_return hr hop
      · exact hm.step_call hr hop

/-- How a run of a sound machine ends. -/
def EndsSoundly (main : Code) (pool : Array Value) : Run → Prop
  | .finished m => m.nextByte? = none ∧ m.Sound main ∧ m.constants = pool
  | .stopped stop m => SoundStop pool stop m
  | .unfinished m => m.Sound main ∧ m.constants = pool

/-- A run of a sound machine stays sound. -/
theorem Sound.run (hm : m.Sound main) (steps : Nat) :
    EndsSoundly main m.constants (m.run steps) := by
  induction steps generalizing m with
  | zero => exact ⟨hm, rfl⟩
  | succ steps ih =>
      unfold Machine.run
      split
      · rename_i hbyte
        exact ⟨hbyte, hm, rfl⟩
      · rename_i byte hbyte
        have hstep := hm.step hbyte
        split
        · rename_i m' hm'
          obtain ⟨hsound, hconstants⟩ := hstep.ok hm'
          rw [← hconstants]
          exact ih hsound
        · rename_i stop m' hm'
          exact hstep.error hm'

end Machine

end ScriptEngine
