import ScriptEngine.Proofs.Compile.Streams
import ScriptEngine.Proofs.Machine.Safety

/-!
# The conduct of runs

A run does to the globals and the heap what the instructions do to which it comes, and makes
closures only of functions among the constants; the code of the top level is never called.  Hence if
this code and that of all functions have allowed instructions only, then a run executes no others,
and whatever these keep holds after every run (`Machine.Conducts.run`).
-/

namespace ScriptEngine

/-! ## What an instruction does to the store -/

/-- The globals and the heap to which an instruction can change those that it sees. -/
inductive View.Changes (w : View) (i : Instruction) (args : List Value) : Globals → Heap → Prop
  | same : Changes w i args w.globals w.heap
  | setGlobal (store : i.opcode = .setGlobal ∨ i.opcode = .setConstGlobal) (v : Value) :
      Changes w i args (w.globals.put (i.operand 0) v) w.heap
  | newArray (elements : Array Value) : Changes w i args w.globals (w.heap.newArray elements).2
  | newHash (entries : Dict Value) : Changes w i args w.globals (w.heap.newHash entries).2
  | write (place : Place) (v : Value) : Changes w i args w.globals (w.heap.write place v)
  | setField (a k : Nat) (v : Value) : Changes w i args w.globals (w.heap.setField a k v)
  | newClosure {f : Marked Function} (closure : i.opcode = .closure)
      (constant : w.constants[i.operand 0]? = some (.function f)) :
      Changes w i args w.globals (w.heap.newClosure f.content args.toArray).2
  | newStruct {t : Marked StructType} (struct : i.opcode = .struct)
      (constant : w.constants[i.operand 0]? = some (.structType t)) :
      Changes w i args w.globals (w.heap.newStruct t.content args.toArray).2

/-- If there is an effect, then the instruction can change the globals and the heap to those that
result. -/
def View.ChangesIfOk (w : View) (i : Instruction) (args : List Value)
    (r : Except (Stop RuntimeError) Effect) : Prop :=
  ∀ e, r = .ok e → w.Changes i args e.globals e.heap

namespace View.ChangesIfOk

variable {w : View} {i : Instruction} {args : List Value}

theorem of_error (stop : Stop RuntimeError) : w.ChangesIfOk i args (.error stop) := by
  intro e he
  cases he

theorem of_ok {e : Effect} (h : w.Changes i args e.globals e.heap) :
    w.ChangesIfOk i args (.ok e) := by
  rintro e ⟨⟩
  exact h

theorem giveResult (r : Except RuntimeError Value) : w.ChangesIfOk i args (w.giveResult r) := by
  cases r with
  | ok v => exact of_ok .same
  | error e => exact of_error _

theorem giveFound (r : Option Value) : w.ChangesIfOk i args (w.giveFound i r) := by
  cases r with
  | some v => exact of_ok .same
  | none => exact of_error _

theorem call (callee : Value) (vs : List Value) : w.ChangesIfOk i args (w.call callee vs) := by
  cases callee with
  | builtin b =>
      rw [View.call]
      cases b.reply w.heap vs with
      | error stop => exact of_error _
      | ok r =>
          cases r with
          | array elements => exact of_ok (.newArray elements)
          | _ => exact of_ok .same
  | _ => exact of_error _

theorem closure (hop : i.opcode = .closure) : w.ChangesIfOk i args (w.closure i args) := by
  unfold View.closure
  split
  · exact of_ok (.newClosure hop ‹_›)
  · exact of_error _
  · exact of_error _

theorem struct (hop : i.opcode = .struct) : w.ChangesIfOk i args (w.struct i args) := by
  unfold View.struct
  split
  · exact of_ok (.newStruct hop ‹_›)
  · exact of_error _

theorem setGlobal (hop : i.opcode = .setGlobal ∨ i.opcode = .setConstGlobal) {v : Value}
    {globals : Globals} (h : w.globals.set (i.operand 0) v = .ok globals) :
    w.ChangesIfOk i args (.ok { w.nothing with globals }) := by
  rw [Globals.set] at h
  split at h
  · obtain rfl := Except.ok.inj h
    exact of_ok (.setGlobal hop v)
  · cases h

theorem getField (object : Value) : w.ChangesIfOk i args (w.getField i object) := by
  cases object with
  | struct a => exact giveFound _
  | _ => exact of_error _

theorem setField (object v : Value) : w.ChangesIfOk i args (w.setField i object v) := by
  cases object with
  | struct a =>
      simp only [View.setField]
      split
      · exact of_ok (.setField a (i.operand 0) v)
      · exact of_error _
  | _ => exact of_error _

end View.ChangesIfOk

open View.ChangesIfOk in
/-- What an instruction does to the globals and the heap. -/
theorem Instruction.changes_effect {i : Instruction} {w : View} {args : List Value} {e : Effect}
    (hlength : args.length = i.taken)
    (hcurrent : i.opcode = .currentClosure → ∃ a, w.routine = .closure a)
    (he : i.effect w args = .ok e) : w.Changes i args e.globals e.heap := by
  have hone (h : i.taken = 1) : ∃ v, args = [v] :=
    List.length_eq_one_iff.mp (hlength.trans h)
  have htwo (h : i.taken = 2) : ∃ v w, args = [v, w] :=
    List.length_eq_two.mp (hlength.trans h)
  revert e
  change w.ChangesIfOk i args (i.effect w args)
  obtain ⟨op, ns⟩ := i
  cases op with
  | constant | getFree | getBuiltin => exact giveFound _
  | getGlobal | getConstGlobal => exact giveResult _
  | pushTrue | pushFalse | pushNull | jump => exact of_ok .same
  | currentClosure =>
      obtain ⟨a, hroutine⟩ := hcurrent rfl
      simp only [effect, View.giveCurrent_of_closure hroutine]
      exact of_ok .same
  | getLocal | getConstLocal =>
      simp only [effect]
      split
      · exact of_ok .same
      · exact of_error _
  | add | sub | mul | div | greater | greaterOrEqual | and | or | index =>
      obtain ⟨l, r, rfl⟩ := htwo rfl
      exact giveResult _
  | equal | notEqual =>
      obtain ⟨l, r, rfl⟩ := htwo rfl
      exact of_ok .same
  | negate =>
      obtain ⟨v, rfl⟩ := hone rfl
      exact giveResult _
  | not | jumpNotTruthy | setLocal | setConstLocal | pop | returnValue =>
      obtain ⟨v, rfl⟩ := hone rfl
      exact of_ok .same
  | returnNull =>
      obtain rfl := List.length_eq_zero_iff.mp hlength
      exact of_ok .same
  | setGlobal =>
      obtain ⟨v, rfl⟩ := hone rfl
      simp only [effect]
      split
      · exact setGlobal (.inl rfl) ‹_›
      · exact of_error _
  | setConstGlobal =>
      obtain ⟨v, rfl⟩ := hone rfl
      simp only [effect]
      split
      · exact setGlobal (.inr rfl) ‹_›
      · exact of_error _
  | getField =>
      obtain ⟨object, rfl⟩ := hone rfl
      exact getField object
  | setField =>
      obtain ⟨object, v, rfl⟩ := htwo rfl
      exact setField object v
  | setIndex =>
      obtain ⟨container, position, v, rfl⟩ := List.length_eq_three.mp hlength
      simp only [effect, Heap.setIndex]
      cases w.heap.place container position with
      | ok place => exact of_ok (.write place v)
      | error e => exact of_error _
  | array => exact of_ok (.newArray _)
  | hash =>
      simp only [effect]
      split
      · exact of_ok (.newHash _)
      · exact of_error _
  | closure => exact closure rfl
  | struct => exact struct rfl
  | call =>
      cases args with
      | nil => cases hlength
      | cons callee vs => exact call callee vs

/-! ## Code with allowed instructions -/

/-- All instructions to which a run of the code can come are allowed. -/
def Code.Obeys (allowed : Instruction → Prop) (c : Code) : Prop :=
  ∀ offset i, c.Reaches offset → c.decode offset = .ok i → allowed i

theorem Code.Obeys.imp {allowed allowed' : Instruction → Prop} {c : Code} (h : c.Obeys allowed)
    (himp : ∀ i, allowed i → allowed' i) : c.Obeys allowed' :=
  fun offset i ho hi => himp i (h offset i ho hi)

theorem Code.IsLaidOut.obeys {allowed : Instruction → Prop} {c : Code} (h : c.IsLaidOut)
    (hjump : ∀ i : Instruction, i.opcode.isJump = true → allowed i)
    (hc : ∀ i ∈ c.instructions, allowed i) : c.Obeys allowed := by
  intro offset i ho hi
  cases hop : i.opcode.isJump with
  | true => exact hjump i hop
  | false => exact hc i (h.mem_instructions ho hi hop)

/-- The functions of a pool that goes on another one are those of the other one and those after
it. -/
theorem mem_or_mem_functionsFrom {pool pool' : Array Value} {f : Marked Function}
    (hpool : Continues pool pool') (hf : Value.function f ∈ pool') :
    Value.function f ∈ pool ∨ ∃ k, (k, f.content) ∈ functionsFrom pool.size pool' := by
  obtain ⟨k, hk⟩ := Array.mem_iff_getElem?.mp hf
  by_cases hold : k < pool.size
  · have hsame := hpool k _ (Array.getElem?_eq_getElem hold)
    rw [hk] at hsame
    rw [Option.some.inj hsame]
    exact .inl (Array.getElem_mem hold)
  · exact .inr ⟨k, mem_functionsFrom.mpr ⟨Nat.le_of_not_lt hold, f.mark, hk⟩⟩

/-- Every closure is that of a function among the constants. -/
def ClosuresStem (pool : Array Value) (closures : Array Closure) : Prop :=
  ∀ c ∈ closures, ∃ mark, Value.function ⟨mark, c.function⟩ ∈ pool

namespace ClosuresStem

variable {pool pool' : Array Value} {closures : Array Closure}

theorem continues (h : ClosuresStem pool closures) (hpool : Continues pool pool') :
    ClosuresStem pool' closures := by
  intro c hc
  obtain ⟨mark, hmark⟩ := h c hc
  obtain ⟨k, hk⟩ := Array.mem_iff_getElem?.mp hmark
  exact ⟨mark, Array.mem_of_getElem? (hpool k _ hk)⟩

/-- Instructions make closures of constants only. -/
theorem changes {w : View} {i : Instruction} {args : List Value} {globals : Globals} {heap : Heap}
    (hw : ClosuresStem w.constants w.heap.closures) (h : w.Changes i args globals heap) :
    ClosuresStem w.constants heap.closures := by
  cases h with
  | same | setGlobal | newArray | newHash | setField | newStruct => exact hw
  | write place v => cases place <;> exact hw
  | @newClosure f _ constant =>
      exact Array.forall_mem_push hw ⟨f.mark, Array.mem_of_getElem? constant⟩

end ClosuresStem

/-! ## Runs -/

/-- Allowed instructions keep what is said of the globals and the heap. -/
def KeptBy (allowed : Instruction → Prop) (pool : Array Value) (p : Globals → Heap → Prop) : Prop :=
  ∀ (w : View) (i : Instruction) (args : List Value) (globals : Globals) (heap : Heap),
    w.constants = pool → allowed i → args.length = i.taken → w.Changes i args globals heap →
      p w.globals w.heap → p globals heap

namespace Machine

/-- All functions have allowed instructions only, and so have the open calls, which are where a run
of their code can come. -/
structure Conducts (allowed : Instruction → Prop) (m : Machine) : Prop where
  functions : ∀ f, Value.function f ∈ m.constants → f.content.code.Obeys allowed
  closures : ClosuresStem m.constants m.heap.closures
  frames : ∀ f ∈ m.frames, ∃ c, f.routine.Runs m.heap.closures c ∧
    c.function.code.Obeys allowed ∧ c.function.code.Reaches f.ip

namespace Conducts

variable {allowed : Instruction → Prop} {p : Globals → Heap → Prop} {main : Code} {m : Machine}
  {f : Frame} {fs : List Frame} {c : Closure} {r : Room} {i : Instruction} {h : Nat}
  {args : List Value}

/-- The instruction of the innermost call is allowed, and one to which a run of its code can
come. -/
theorem here (hm : m.Conducts allowed) (hr : m.Ready main f fs c r i h args) :
    c.function.code.Obeys allowed ∧ c.function.code.Reaches f.ip ∧ allowed i := by
  obtain ⟨c', hc', hobeys, hreaches⟩ := hm.frames f (by simp [hr.frames])
  obtain rfl := hr.turn.runs.eq hc'
  exact ⟨hobeys, hreaches, hobeys f.ip i hreaches hr.turn.decode⟩

/-- The open calls after the innermost one goes on, with more closures on the heap. -/
theorem frames_goTo (hm : m.Conducts allowed) (hr : m.Ready main f fs c r i h args) {target : Nat}
    (hnext : i.Next f.ip target) {closures : Array Closure}
    (hkept : ClosuresKept m.heap.closures closures) :
    ∀ g ∈ f.goTo target :: fs, ∃ c, g.routine.Runs closures c ∧
      c.function.code.Obeys allowed ∧ c.function.code.Reaches g.ip := by
  obtain ⟨hobeys, hreaches, -⟩ := hm.here hr
  rw [List.forall_mem_cons]
  constructor
  · exact ⟨c, hr.turn.runs.mono hkept, hobeys, .next hreaches hr.turn.decode hnext⟩
  · intro g hg
    obtain ⟨c', hc', hrest⟩ := hm.frames g (by simp [hr.frames, hg])
    exact ⟨c', hc'.mono hkept, hrest⟩

/-- How a step ends: the machine conducts itself as before, or at least what is left of its heap
does, and what allowed instructions keep is kept. -/
def Steps (allowed : Instruction → Prop) (p : Globals → Heap → Prop) (m : Machine) : Prop :=
  ∃ byte, m.nextByte? = some byte ∧ Ends (Exec.step byte) m
    (fun _ m' => m'.Conducts allowed ∧ p m'.globals m'.heap)
    (fun _ m' => ClosuresStem m.constants m'.heap.closures ∧ p m'.globals m'.heap)

/-- An instruction that stays in its call. -/
theorem step_stays (hsound : m.Sound main) (hm : m.Conducts allowed)
    (hp : KeptBy allowed m.constants p) (hpm : p m.globals m.heap)
    (hr : m.Ready main f fs c r i h args) (hstays : i.StaysIn args) : Steps allowed p m := by
  have hchanges (e : Effect) (he : i.effect (m.view f) args = .ok e) :
      ClosuresStem m.constants e.heap.closures ∧ p e.globals e.heap := by
    have he := Instruction.changes_effect hr.length hr.runs_closure he
    exact ⟨ClosuresStem.changes (w := m.view f) hm.closures he,
      hp (m.view f) i args _ _ rfl (hm.here hr).2.2 hr.length he hpm⟩
  obtain ⟨byte, hbyte, hstep⟩ := hr.step_stays hsound.sp_le hstays
  refine ⟨byte, hbyte, hstep.mono ?_ ?_⟩
  · rintro _ m' ⟨e, he, -, rfl⟩
    obtain ⟨hstem, hpe⟩ := hchanges e he
    have hnext := (Instruction.suits_effect hstays hr.length he).next f.ip
    have hkept := (hsound.valid_effect hr he).closures
    exact ⟨⟨hm.functions, hstem, hm.frames_goTo hr hnext hkept⟩, hpe⟩
  · intro stop m' hbreaks
    cases hbreaks with
    | refused _ hglobals hheap _ =>
        rw [hglobals, hheap]
        exact ⟨hm.closures, hpm⟩
    | full heffect _ _ hglobals hheap _ =>
        rw [hglobals, hheap]
        exact hchanges _ heffect

/-- A return. -/
theorem step_return (hsound : m.Sound main) (hm : m.Conducts allowed) (hpm : p m.globals m.heap)
    (hr : m.Ready main f fs c r i h args)
    (hop : i.opcode = .returnValue ∨ i.opcode = .returnNull) : Steps allowed p m := by
  obtain ⟨byte, hbyte, hstep⟩ := hr.step_return hsound.sp_le hop
  refine ⟨byte, hbyte, Ends.of_ok hstep ⟨⟨hm.functions, hm.closures, ?_⟩, hpm⟩⟩
  intro g hg
  have hlater : g ∈ m.frames := by
    rw [hr.frames]
    exact List.mem_cons_of_mem _ hg
  exact hm.frames g hlater

/-- A call of a closure starts at the beginning of the code of a constant. -/
theorem step_call (hsound : m.Sound main) (hm : m.Conducts allowed) (hpm : p m.globals m.heap)
    {a : Nat} {vs : List Value} (hr : m.Ready main f fs c r i h (.closure a :: vs))
    (hop : i.opcode = .call) : Steps allowed p m := by
  obtain ⟨byte, callee, hbyte, hcallee, -, hstep⟩ := hsound.step_closure hr hop
  obtain ⟨mark, hmark⟩ := hm.closures callee (Array.mem_of_getElem? hcallee)
  have hnext : i.Next f.ip (f.ip + i.width) := by
    obtain ⟨op, ns⟩ := i
    cases hop
    rfl
  refine ⟨byte, hbyte, hstep.mono ?_ ?_⟩
  · rintro _ m' ⟨-, -, rfl⟩
    refine ⟨⟨hm.functions, hm.closures, List.forall_mem_cons.mpr ⟨?_, ?_⟩⟩, hpm⟩
    · exact ⟨callee, hcallee, hm.functions _ hmark, .start⟩
    · exact hm.frames_goTo hr hnext fun _ _ hc => hc
  · rintro stop m' ⟨rfl, -⟩
    exact ⟨hm.closures, hpm⟩

/-- A step of a sound machine. -/
theorem step (hsound : m.Sound main) (hm : m.Conducts allowed) (hp : KeptBy allowed m.constants p)
    (hpm : p m.globals m.heap) {byte : UInt8} (hbyte : m.nextByte? = some byte) :
    Ends (Exec.step byte) m (fun _ m' => m'.Conducts allowed ∧ p m'.globals m'.heap)
      (fun _ m' => ClosuresStem m.constants m'.heap.closures ∧ p m'.globals m'.heap) := by
  suffices hsteps : Steps allowed p m by
    obtain ⟨byte', hbyte', hends⟩ := hsteps
    rw [hbyte] at hbyte'
    cases hbyte'
    exact hends
  rcases hsound.ready with ⟨-, f, hframes, -, -, hip⟩ | ⟨f, fs, c, r, i, h, args, hr⟩
  · simp [nextByte?, hframes, hip, Code.size] at hbyte
  · by_cases hstays : i.StaysIn args
    · exact step_stays hsound hm hp hpm hr hstays
    · rcases Instruction.not_staysIn hstays with hop | ⟨hop, a, vs, rfl⟩
      · exact step_return hsound hm hpm hr hop
      · exact step_call hsound hm hpm hr hop

/-- A run keeps what allowed instructions keep. -/
theorem run (hsound : m.Sound main) (hm : m.Conducts allowed) (hp : KeptBy allowed m.constants p)
    (hpm : p m.globals m.heap) (steps : Nat) :
    ClosuresStem m.constants (m.run steps).machine.heap.closures ∧
      p (m.run steps).machine.globals (m.run steps).machine.heap := by
  induction steps generalizing m with
  | zero => exact ⟨hm.closures, hpm⟩
  | succ steps ih =>
      unfold Machine.run
      split
      · exact ⟨hm.closures, hpm⟩
      next byte hbyte =>
        have hstep := step hsound hm hp hpm hbyte
        split
        next m' hm' =>
          obtain ⟨hsound', hconstants⟩ := (hsound.step hbyte).ok hm'
          obtain ⟨hm₁, hpm₁⟩ := hstep.ok hm'
          rw [← hconstants] at hp ⊢
          exact ih hsound' hm₁ hp hpm₁
        next stop m' hm' => exact hstep.error hm'

end Conducts

/-- A machine that is about to run a unit whose code has allowed instructions only. -/
theorem conducts_initial {allowed : Instruction → Prop} {unit : Bytecode} {heap : Heap}
    (limits : Limits) (globals : Globals)
    (hfunctions : ∀ f, Value.function f ∈ unit.constants → f.content.code.Obeys allowed)
    (hcode : unit.code.Obeys allowed) (hstem : ClosuresStem unit.constants heap.closures) :
    (Machine.initial unit.code unit.constants limits globals heap).Conducts allowed := by
  refine ⟨hfunctions, hstem, ?_⟩
  intro f hf
  obtain rfl := List.mem_singleton.mp hf
  exact ⟨_, rfl, hcode, .start⟩

end Machine

end ScriptEngine
