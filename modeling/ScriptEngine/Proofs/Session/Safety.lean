import ScriptEngine.Proofs.Compile.Balance
import ScriptEngine.Proofs.Compile.Resumption
import ScriptEngine.Proofs.Compile.Streams
import ScriptEngine.Proofs.Machine.Safety
import ScriptEngine.Session

/-!
# Safety of sessions

A session is sound if its scope is and all closures that its globals and its heap hold are safe to
call.  Units keep it sound, whether they are accepted or refused and however their runs end.  Hence
no run of a unit ever stops for an internal reason, and a run that comes to its end has used up the
stack and closed all calls but the outermost one.  All that can go wrong is that the limits of the
session are too large for a machine to be built (`Session.eval_isSafe`).
-/

namespace ScriptEngine

/-! ## Compiling a unit -/

/-- At the top level code may refer to constants and globals only. -/
theorem Env.Sound.room_eq_mainRoom {E : Env} (hE : E.Sound) (hdepth : E.chain.depth = 0) :
    E.room = Code.mainRoom E.pool := by
  have hchain := hE.chain
  rw [ScopeChain.Sound, List.length_eq_zero_iff.mp hdepth] at hchain
  obtain ⟨hglobal, hcaptures, -⟩ := hchain
  simp [Env.room, Code.mainRoom, hglobal, hcaptures]

/-- A compiled unit: its code is safe with its constants, the constants so far are kept, and the
scope after it is sound. -/
structure SoundUnit (pool : Array Value) (unit : Bytecode) (c : Compiler) : Prop where
  constants : c.pool = unit.constants
  continues : Continues pool unit.constants
  scope : (ScopeChain.ofScope c.chain.outermost).Sound
  code : ∃ within, unit.code.SafeMain unit.constants within

/-- Compiling refuses a unit with a report or gives safe code. -/
theorem Compiler.compile_resume {scope : Scope} (pool : Array Value)
    (hscope : (ScopeChain.ofScope scope).Sound) (program : Program) :
    (∃ e c, (resume scope pool).compile program = (.error (.error e), c)) ∨
      ∃ unit c, (resume scope pool).compile program = (.ok unit, c) ∧ SoundUnit pool unit c := by
  have hE := sound_resume hscope pool
  rcases compile_cases scope pool program with
    herror | ⟨unit, c, t, E', hcompile, hpool, hchain, hunit⟩
  · exact .inl herror
  · have hsound := hunit.rules.sound hE
    have hdepth : E'.chain.depth = 0 := hunit.rules.depth_eq
    have hbalanced := hunit.rules.balanced hE 0
    rw [Env.Balances, hsound.room_eq_mainRoom hdepth, ← hunit.constants] at hbalanced
    refine .inr ⟨unit, c, hcompile, hpool.trans hunit.constants.symm, ?_, ?_, ?_⟩
    · rw [hunit.constants]
      exact hunit.rules.grows.pool
    · rw [hchain]
      exact hsound.chain.outermost
    · exact Code.safeMain_of_balanced hunit.contains hunit.size hbalanced

/-! ## The evaluation of a unit -/

def Outcome.ofStop : Stop RuntimeError → Outcome
  | .error e => .error (.runtime e)
  | .crash cause => .crash cause

def Run.outcome : Run → Outcome
  | .finished m => .value m.lastTaken
  | .stopped stop _ => .ofStop stop
  | .unfinished _ => .unfinished

namespace Session

variable {s : Session} {program : Program}

/-- The machine that is about to run a unit. -/
def machine (s : Session) (unit : Bytecode) : Machine :=
  .initial unit.code unit.constants s.limits s.globals s.heap

/-- The session after the run of a unit. -/
def after (s : Session) (c : Compiler) (m : Machine) : Session :=
  { s with scope := c.chain.outermost, pool := c.pool }.afterRun m

/-- The session after a unit for which no machine could be built. -/
def withoutMachine (s : Session) (c : Compiler) : Session :=
  { s with scope := c.chain.outermost, pool := c.pool, globals := .ofSize 0 }

/-- A unit that is refused leaves the session as it is. -/
theorem eval_of_error {stop : Stop CompileError} {c : Compiler}
    (hcompile : (Compiler.resume s.scope s.pool).compile program = (.error stop, c)) (steps : Nat) :
    (s.eval steps program).2.2 = s := by
  simp only [Session.eval, hcompile]
  cases stop <;> rfl

section

variable {unit : Bytecode} {c : Compiler}

/-- What the evaluation of an accepted unit gives is read off its run. -/
theorem eval_of_fits (hcompile : (Compiler.resume s.scope s.pool).compile program = (.ok unit, c))
    (hfits : s.limits.fitMachine = true) (steps : Nat) :
    s.eval steps program =
      let r := (s.machine unit).run steps
      (r.outcome, r.machine.output, s.after c r.machine) := by
  simp only [Session.eval, hcompile, Machine.load, hfits, if_true, machine, after]
  generalize Machine.run steps _ = r
  cases r with
  | finished m => rfl
  | unfinished m => rfl
  | stopped stop m => cases stop <;> rfl

/-- Where no machine can be built, an accepted unit is not run. -/
theorem eval_of_not_fits
    (hcompile : (Compiler.resume s.scope s.pool).compile program = (.ok unit, c))
    (hfits : s.limits.fitMachine = false) (steps : Nat) :
    s.eval steps program = (.crash .capacityOverflow, "", s.withoutMachine c) := by
  simp only [Session.eval, hcompile, Machine.load, hfits]
  rfl

/-- The session after an accepted unit: the unit has been run, or no machine could be built. -/
theorem eval_of_ok (hcompile : (Compiler.resume s.scope s.pool).compile program = (.ok unit, c))
    (steps : Nat) :
    (s.eval steps program).2.2 = s.after c ((s.machine unit).run steps).machine ∨
      (s.eval steps program).2.2 = s.withoutMachine c := by
  cases hfits : s.limits.fitMachine with
  | true =>
      rw [eval_of_fits hcompile hfits]
      exact .inl rfl
  | false =>
      rw [eval_of_not_fits hcompile hfits]
      exact .inr rfl

end

/-- The session after units that are evaluated one after another, each within a number of steps. -/
def evalAll (s : Session) : List (Nat × Program) → Session
  | [] => s
  | (steps, program) :: rest => (s.eval steps program).2.2.evalAll rest

theorem limits_eval (steps : Nat) (program : Program) :
    (s.eval steps program).2.2.limits = s.limits := by
  cases hcompile : (Compiler.resume s.scope s.pool).compile program with
  | mk compiled c =>
      cases compiled with
      | error stop => rw [eval_of_error hcompile]
      | ok unit => rcases eval_of_ok hcompile steps with h | h <;> rw [h] <;> rfl

theorem limits_evalAll (history : List (Nat × Program)) :
    (s.evalAll history).limits = s.limits := by
  induction history generalizing s with
  | nil => rfl
  | cons u history ih => exact ih.trans (limits_eval u.1 u.2)

end Session

/-! ## Sound sessions -/

/-- A machine that is about to run safe code is sound. -/
theorem Machine.sound_initial {unit : Bytecode} {within : Nat → Nat → Prop} {globals : Globals}
    {heap : Heap} (limits : Limits) (hcode : unit.code.SafeMain unit.constants within)
    (hstore : StoreValid unit.constants globals heap) :
    (Machine.initial unit.code unit.constants limits globals heap).Sound unit.code := by
  refine ⟨Nat.zero_le _, .main rfl rfl hcode hcode.1, ?_, hstore, rfl⟩
  intro v hv
  obtain ⟨-, rfl⟩ := Array.mem_replicate.mp hv
  exact Value.ValidIn.holdsOfData _ (by simp)

/-- Whether the evaluation of a unit ends for an internal reason. -/
def Outcome.isInternal : Outcome → Bool
  | .error (.runtime cause) => cause.isInternal
  | .crash cause => cause.isPanic
  | _ => false

theorem Outcome.isInternal_ofStop (stop : Stop RuntimeError) :
    (Outcome.ofStop stop).isInternal = stop.isInternal := by
  cases stop <;> rfl

theorem StoreValid.ofSize {pool : Array Value} {globals : Globals} {heap : Heap}
    (h : StoreValid pool globals heap) (size : Nat) : StoreValid pool (.ofSize size) heap := by
  refine ⟨fun v hv => ?_, h.heap⟩
  obtain ⟨-, rfl⟩ := Array.mem_replicate.mp hv
  exact Value.ValidIn.holdsOfData _ (by simp)

namespace Session

/-- The scope is sound, and all closures that the session holds are safe to call. -/
structure Sound (s : Session) : Prop where
  scope : (ScopeChain.ofScope s.scope).Sound
  store : StoreValid s.pool s.globals s.heap

theorem sound_new (limits : Limits) : (Session.new limits).Sound := by
  have hempty : StoreValid #[] ⟨#[]⟩ .empty := ⟨by simp, .empty⟩
  exact ⟨ScopeChain.Sound.withBuiltins, hempty.ofSize limits.globalsSize⟩

variable {s : Session}

/-- What a sound session compiles is a sound unit. -/
theorem Sound.unit_of_compile (hs : s.Sound) {program : Program} {unit : Bytecode} {c : Compiler}
    (hcompile : (Compiler.resume s.scope s.pool).compile program = (.ok unit, c)) :
    SoundUnit s.pool unit c := by
  rcases Compiler.compile_resume s.pool hs.scope program with ⟨e, c', hc⟩ | ⟨unit', c', hc, hunit⟩
  · rw [hcompile] at hc
    cases hc
  · rw [hcompile] at hc
    cases hc
    exact hunit

/-- The machine that is about to run a unit of a sound session is sound. -/
theorem Sound.machine (hs : s.Sound) {unit : Bytecode} {c : Compiler}
    (hunit : SoundUnit s.pool unit c) : (s.machine unit).Sound unit.code := by
  obtain ⟨within, hcode⟩ := hunit.code
  exact Machine.sound_initial s.limits hcode (hs.store.continues hunit.continues)

/-- The run of a unit keeps a session sound and does not end for an internal reason. -/
theorem Sound.after (hs : s.Sound) {unit : Bytecode} {c : Compiler}
    (hunit : SoundUnit s.pool unit c) (steps : Nat) :
    ((s.machine unit).run steps).outcome.isInternal = false ∧
      (s.after c ((s.machine unit).run steps).machine).Sound := by
  have hrun : Machine.EndsSoundly unit.code unit.constants ((s.machine unit).run steps) :=
    (hs.machine hunit).run steps
  have hafter (m : Machine) (hm : StoreValid unit.constants m.globals m.heap) :
      (s.after c m).Sound :=
    ⟨hunit.scope, by rw [Session.after, afterRun, hunit.constants]; exact hm⟩
  generalize (s.machine unit).run steps = r at hrun ⊢
  cases r with
  | finished m =>
      obtain ⟨-, hm, hconstants⟩ := hrun
      exact ⟨rfl, hafter m (hconstants ▸ hm.store)⟩
  | stopped stop m =>
      exact ⟨(Outcome.isInternal_ofStop stop).trans hrun.notInternal, hafter m hrun.store⟩
  | unfinished m =>
      obtain ⟨hm, hconstants⟩ := hrun
      exact ⟨rfl, hafter m (hconstants ▸ hm.store)⟩

/-- A session stays sound if no machine can be built. -/
theorem Sound.withoutMachine (hs : s.Sound) {unit : Bytecode} {c : Compiler}
    (hunit : SoundUnit s.pool unit c) : (s.withoutMachine c).Sound := by
  have hstore := (hs.store.continues hunit.continues).ofSize 0
  exact ⟨hunit.scope, by rw [Session.withoutMachine, hunit.constants]; exact hstore⟩

/-- A unit keeps a session sound. -/
theorem Sound.eval (hs : s.Sound) (steps : Nat) (program : Program) :
    (s.eval steps program).2.2.Sound := by
  cases hcompile : (Compiler.resume s.scope s.pool).compile program with
  | mk compiled c =>
      cases compiled with
      | error stop =>
          rw [eval_of_error hcompile]
          exact hs
      | ok unit =>
          have hunit := hs.unit_of_compile hcompile
          rcases eval_of_ok hcompile steps with h | h
          · rw [h]
            exact (hs.after hunit steps).2
          · rw [h]
            exact hs.withoutMachine hunit

/-- Units keep a session sound. -/
theorem Sound.evalAll (hs : s.Sound) (history : List (Nat × Program)) :
    (s.evalAll history).Sound := by
  induction history generalizing s with
  | nil => exact hs
  | cons u history ih => exact ih (hs.eval u.1 u.2)

/-- How the evaluation of a unit ends in a sound session: for an internal reason exactly if the unit
is accepted and no machine can be built for it, and the reason is then that. -/
theorem Sound.isInternal_eval_iff (hs : s.Sound) (steps : Nat) (program : Program) :
    ((s.eval steps program).1.isInternal = true ↔ s.limits.fitMachine = false ∧
        ∃ unit c, (Compiler.resume s.scope s.pool).compile program = (.ok unit, c)) ∧
      ((s.eval steps program).1.isInternal = true →
        (s.eval steps program).1 = .crash .capacityOverflow) := by
  rcases Compiler.compile_resume s.pool hs.scope program with ⟨e, c, hc⟩ | ⟨unit, c, hc, hunit⟩
  · have heval : (s.eval steps program).1 = .error (.compile e) := by
      simp only [Session.eval, hc]
    simp [heval, hc, Outcome.isInternal]
  · cases hfits : s.limits.fitMachine with
    | true =>
        rw [eval_of_fits hc hfits]
        simp [(hs.after hunit steps).1]
    | false =>
        rw [eval_of_not_fits hc hfits]
        exact ⟨⟨fun _ => ⟨rfl, unit, c, hc⟩, fun _ => rfl⟩, fun _ => rfl⟩

/-- Whatever units a session has evaluated, with whatever limits and however they ended, all that
can go wrong with the next one is that no machine can be built for it: otherwise it neither breaks a
promise between code and machine nor is reported as wrong code.  When its run comes to an end,
nothing is left on the stack and only the top level is open. -/
theorem eval_isSafe (limits : Limits) (history : List (Nat × Program)) (steps : Nat)
    (program : Program) :
    let s := (Session.new limits).evalAll history
    ((s.eval steps program).1.isInternal = true ↔ limits.fitMachine = false ∧
        ∃ unit c, (Compiler.resume s.scope s.pool).compile program = (.ok unit, c)) ∧
      ((s.eval steps program).1.isInternal = true →
        (s.eval steps program).1 = .crash .capacityOverflow) ∧
      ∀ unit c m₀ m, (Compiler.resume s.scope s.pool).compile program = (.ok unit, c) →
        Machine.load unit.code unit.constants s.limits s.globals s.heap = .ok m₀ →
        m₀.run steps = .finished m →
        m.sp = 0 ∧
          m.frames = [{ routine := .main unit.code, ip := unit.code.size, base := 0 }] := by
  intro s
  have hs : s.Sound := (sound_new limits).evalAll history
  have hlimits : s.limits = limits := limits_evalAll history
  obtain ⟨hiff, hcause⟩ := hs.isInternal_eval_iff steps program
  rw [hlimits] at hiff
  refine ⟨hiff, hcause, fun unit c m₀ m hcompile hload hrun => ?_⟩
  obtain ⟨-, rfl⟩ := Machine.load_eq_ok_iff.mp hload
  have hfinished := (hs.machine (hs.unit_of_compile hcompile)).run steps
  rw [Session.machine, hrun] at hfinished
  obtain ⟨hbyte, hm, -⟩ := hfinished
  obtain ⟨hsp, ⟨routine, ip, base⟩, hframes, hroutine, hbase, hip⟩ := hm.finished hbyte
  rw [Machine.codeOf_main hroutine] at hip
  exact ⟨hsp, by rw [hframes]; congr⟩

-- a machine can be built with the usual limits
example : Limits.fitMachine {} = true := by
  decide

/-- An empty unit of a new session can go wrong: no machine has so many calls. -/
theorem eval_capacityOverflow :
    ((Session.new { maxFrames := 18446744073709551615 }).eval 0 []).1 =
      .crash .capacityOverflow := by
  decide

end Session

end ScriptEngine
