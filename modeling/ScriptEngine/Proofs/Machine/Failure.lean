import Mathlib.Data.List.Infix
import Mathlib.Tactic.SplitIfs
import ScriptEngine.Proofs.Machine.Effect

/-!
# Failing instructions

An instruction that stops early has no lasting effect, whatever the machine and its code are.  All
checks come before the globals, the objects or the output change: a computation is a part that is
`Quiet`, however it ends, and then at most one change that cannot fail any more, so that the whole
is `Atomic`.  A run that stops early has therefore done what its successful instructions did, and
nothing else (`Machine.run_stopped_untouched`).
-/

namespace ScriptEngine

/-- Every object of a heap is an object of the other, at the same address and with the same
contents. -/
structure Heap.IsKeptIn (h h' : Heap) : Prop where
  arrays : h.arrays.toList <+: h'.arrays.toList
  hashes : h.hashes.toList <+: h'.hashes.toList
  structs : h.structs.toList <+: h'.structs.toList
  closures : h.closures.toList <+: h'.closures.toList

namespace Heap.IsKeptIn

theorem refl (h : Heap) : h.IsKeptIn h :=
  ⟨List.prefix_rfl, List.prefix_rfl, List.prefix_rfl, List.prefix_rfl⟩

theorem trans {h h' h'' : Heap} (hfirst : h.IsKeptIn h') (hsecond : h'.IsKeptIn h'') :
    h.IsKeptIn h'' where
  arrays := hfirst.arrays.trans hsecond.arrays
  hashes := hfirst.hashes.trans hsecond.hashes
  structs := hfirst.structs.trans hsecond.structs
  closures := hfirst.closures.trans hsecond.closures

theorem newArray (h : Heap) (elements : Array Value) : h.IsKeptIn (h.newArray elements).2 :=
  { refl h with arrays := by simp [Heap.newArray] }

theorem newHash (h : Heap) (entries : Dict Value) : h.IsKeptIn (h.newHash entries).2 :=
  { refl h with hashes := by simp [Heap.newHash] }

theorem newStruct (h : Heap) (type : StructType) (fields : Array Value) :
    h.IsKeptIn (h.newStruct type fields).2 :=
  { refl h with structs := by simp [Heap.newStruct] }

theorem newClosure (h : Heap) (function : Function) (captured : Array Value) :
    h.IsKeptIn (h.newClosure function captured).2 :=
  { refl h with closures := by simp [Heap.newClosure] }

end Heap.IsKeptIn

/-- The globals, the contents of all objects and the output of a machine are those of another.  The
stack and the calls may differ, and objects may have been added. -/
structure Machine.Untouched (m m' : Machine) : Prop where
  globals : m'.globals = m.globals
  heap : m.heap.IsKeptIn m'.heap
  output : m'.output = m.output

namespace Machine.Untouched

theorem refl (m : Machine) : m.Untouched m :=
  ⟨rfl, .refl _, rfl⟩

theorem trans {m m' m'' : Machine} (h : m.Untouched m') (h' : m'.Untouched m'') :
    m.Untouched m'' where
  globals := h'.globals.trans h.globals
  heap := h.heap.trans h'.heap
  output := h'.output.trans h.output

end Machine.Untouched

/-! ## Quiet computations -/

/-- However the computation ends, the globals, the objects and the output are as they were. -/
def Quiet {α : Type} (x : Exec α) : Prop :=
  ∀ m, Ends x m (fun _ m' => m.Untouched m') fun _ m' => m.Untouched m'

namespace Quiet

variable {α β : Type} {x : Exec α}

theorem bind {k : α → Exec β} (hx : Quiet x) (hk : ∀ a, Quiet (k a)) : Quiet (x >>= k) := by
  intro m
  refine (hx m).bind fun a m₁ h => ?_
  exact (hk a m₁).mono (fun _ _ h' => h.trans h') fun _ _ h' => h.trans h'

theorem get : Quiet (get : Exec Machine) := by
  intro m
  exact .of_get (.refl m)

theorem pure (a : α) : Quiet (pure a : Exec α) := by
  intro m
  exact .of_pure (.refl m)

theorem fail (e : RuntimeError) : Quiet (Exec.fail e : Exec α) := by
  intro m
  exact .of_throw (.refl m)

theorem crash (c : Crash) : Quiet (Exec.crash c : Exec α) := by
  intro m
  exact .of_throw (.refl m)

theorem ofExcept (r : Except RuntimeError α) : Quiet (Exec.ofExcept r) := by
  cases r with
  | ok a => exact .pure a
  | error e => exact .fail e

theorem push (v : Value) : Quiet (Exec.push v) := by
  intro m
  by_cases hroom : m.sp < m.stack.size
  · exact .of_ok (if_pos hroom) ⟨rfl, .refl _, rfl⟩
  · exact .of_error (if_neg hroom) (.refl m)

theorem pop : Quiet Exec.pop := by
  intro m
  unfold Ends Exec.pop
  by_cases hempty : m.sp = 0
  · rw [if_pos hempty]
    exact .refl m
  · rw [if_neg hempty]
    cases m.stack[m.sp - 1]? <;> exact ⟨rfl, .refl _, rfl⟩

theorem takeTop (count : Nat) : Quiet (Exec.takeTop count) := by
  intro m
  unfold Ends Exec.takeTop
  split_ifs
  · exact .refl m
  · exact .refl m
  · exact ⟨rfl, .refl _, rfl⟩

theorem frame : Quiet Exec.frame := by
  intro m
  unfold Ends Exec.frame
  cases m.frames <;> exact .refl m

theorem modifyFrame (change : Frame → Frame) : Quiet (Exec.modifyFrame change) := by
  intro m
  unfold Ends Exec.modifyFrame
  cases m.frames with
  | nil => exact .refl m
  | cons f fs => exact ⟨rfl, .refl _, rfl⟩

theorem constant (op : Opcode) (index : Nat) : Quiet (Exec.constant op index) := by
  intro m
  unfold Ends Exec.constant
  cases m.constants[index]? <;> exact .refl m

theorem allocate {new : Heap → Value × Heap} (hnew : ∀ h : Heap, h.IsKeptIn (new h).2) :
    Quiet (Exec.allocate new) := by
  intro m
  exact .of_ok rfl ⟨rfl, hnew _, rfl⟩

theorem fetchOperand (w : Width) : Quiet (Exec.fetchOperand w) := by
  refine .bind .frame fun f => .bind .get fun m => ?_
  cases (m.codeOf f).read f.ip w with
  | ok n => exact .bind (.modifyFrame _) fun _ => .pure n
  | error e => exact .fail _

/-! ### Instructions that only work on the stack -/

theorem binary (op : Operation) : Quiet (Exec.binary op) :=
  .bind .pop fun _ => .bind .pop fun _ => .bind (.ofExcept _) .push

theorem equality (expected : Bool) : Quiet (Exec.equality expected) :=
  .bind .pop fun _ => .bind .pop fun _ => .push _

theorem jumpNotTruthy (target : Nat) : Quiet (Exec.jumpNotTruthy target) := by
  refine .bind .pop fun v => ?_
  cases v.isTruthy with
  | true => exact .pure _
  | false => exact .modifyFrame _

theorem getGlobal (index : Nat) : Quiet (Exec.getGlobal index) :=
  .bind .get fun _ => .bind (.ofExcept _) .push

theorem getLocal (index : Nat) : Quiet (Exec.getLocal index) := by
  refine .bind .frame fun f => .bind .get fun m => ?_
  cases m.stack[f.base + index]? with
  | some v => exact .push v
  | none => exact .crash _

theorem setLocal (index : Nat) : Quiet (Exec.setLocal index) := by
  refine .bind .frame fun f => .bind .pop fun v m => ?_
  unfold Ends
  by_cases hslot : f.base + index < m.stack.size
  · simp only [hslot, if_true]
    exact ⟨rfl, .refl _, rfl⟩
  · simp only [hslot, if_false]
    exact .refl m

theorem getFree (index : Nat) : Quiet (Exec.getFree index) := by
  refine .bind .frame fun f => .bind .get fun m => ?_
  cases (m.closureOf f).captured[index]? with
  | some v => exact .push v
  | none => exact .fail _

theorem getBuiltin (index : Nat) : Quiet (Exec.getBuiltin index) := by
  unfold Exec.getBuiltin
  cases Builtin.ofIndex? index with
  | some b => exact .push _
  | none => exact .fail _

theorem getIndex : Quiet Exec.getIndex :=
  .bind .pop fun _ => .bind .pop fun _ => .bind .get fun _ => .bind (.ofExcept _) .push

theorem getField (index : Nat) : Quiet (Exec.getField index) := by
  refine .bind .pop fun object => .bind .get fun m => ?_
  cases object with
  | struct a =>
      simp only
      cases (m.heap.struct a).fields[index]? with
      | some v => exact .push v
      | none => exact .fail _
  | _ => exact .fail _

theorem callClosure (a argc : Nat) : Quiet (Exec.callClosure a argc) := by
  intro m
  unfold Ends Exec.callClosure
  dsimp only
  split_ifs
  · exact .refl m
  · exact .refl m
  · exact .refl m
  · exact .refl m
  · exact ⟨rfl, .refl _, rfl⟩

theorem returnFrom (result : Value) : Quiet (Exec.returnFrom result) := by
  refine .bind (fun m => .of_modify ?_) fun _ => .push result
  cases m.frames <;> exact ⟨rfl, .refl _, rfl⟩

/-! ### Instructions that add an object -/

theorem currentClosure : Quiet Exec.currentClosure := by
  refine .bind .frame fun f => .bind .get fun m => ?_
  cases f.routine with
  | closure address => exact .push _
  | main code =>
      cases m.mainAddress with
      | some address => exact .push _
      | none =>
          refine .bind (fun m => .of_modify ?_) fun _ => ?_
          · exact ⟨rfl, .refl _, rfl⟩
          · exact .bind (.allocate fun _ => .newClosure _ _ _) .push

theorem makeArray (count : Nat) : Quiet (Exec.makeArray count) :=
  .bind (.takeTop count) fun _ => .bind (.allocate fun _ => .newArray _ _) .push

theorem makeHash (count : Nat) : Quiet (Exec.makeHash count) :=
  .bind (.takeTop count) fun _ => .bind (.ofExcept _) fun _ =>
    .bind (.allocate fun _ => .newHash _ _) .push

theorem makeClosure (index count : Nat) : Quiet (Exec.makeClosure index count) := by
  refine .bind (.constant .closure index) fun v => ?_
  cases v with
  | function f =>
      exact .bind (.takeTop count) fun _ => .bind (.allocate fun _ => .newClosure _ _ _) .push
  | _ => exact .fail _

theorem makeStruct (index count : Nat) : Quiet (Exec.makeStruct index count) := by
  refine .bind (.constant .struct index) fun v => ?_
  cases v with
  | structType t =>
      exact .bind (.takeTop count) fun _ => .bind (.allocate fun _ => .newStruct _ _ _) .push
  | _ => exact .fail _

end Quiet

/-! ## Atomic computations -/

/-- If the computation stops early, then the globals, the objects and the output are as they
were. -/
def Atomic {α : Type} (x : Exec α) : Prop :=
  ∀ m, Ends x m (fun _ _ => True) fun _ m' => m.Untouched m'

theorem Quiet.atomic {α : Type} {x : Exec α} (h : Quiet x) : Atomic x := by
  intro m
  exact (h m).imp fun _ _ _ => trivial

namespace Atomic

variable {α β : Type} {x : Exec α}

/-- What stops early after a quiet part has not changed anything either. -/
theorem bind {k : α → Exec β} (hx : Quiet x) (hk : ∀ a, Atomic (k a)) : Atomic (x >>= k) := by
  intro m
  refine (hx m).bind fun a m₁ h => ?_
  exact (hk a m₁).mono (fun _ _ _ => trivial) fun _ _ h' => h.trans h'

theorem modify (change : Machine → Machine) : Atomic (modify change : Exec PUnit) := by
  intro m
  exact .of_modify trivial

theorem setGlobal (index : Nat) : Atomic (Exec.setGlobal index) := by
  refine .bind .pop fun v m => ?_
  by_cases hindex : index < m.globals.size
  · exact .of_ok (if_pos hindex) trivial
  · exact .of_error (if_neg hindex) (.refl m)

theorem setIndex : Atomic Exec.setIndex :=
  .bind .pop fun _ => .bind .pop fun _ => .bind .pop fun _ => .bind .get fun _ =>
    .bind (.ofExcept _) fun _ => .modify _

theorem setField (index : Nat) : Atomic (Exec.setField index) := by
  refine .bind .pop fun value => .bind .pop fun object => .bind .get fun m => ?_
  cases object with
  | struct a =>
      by_cases hindex : index < (m.heap.struct a).fields.size
      · simp only [hindex, if_true]
        exact .modify _
      · simp only [hindex, if_false]
        exact (Quiet.fail _).atomic
  | _ => exact (Quiet.fail _).atomic

/-- A built-in function prints and adds an array only if there is room for its result: the callee
and the arguments have left their slots. -/
theorem callBuiltin_of_lt {m : Machine} (b : Builtin) {argc : Nat} (hargc : argc < m.sp) :
    Ends (Exec.callBuiltin b argc) m (fun _ _ => True) fun _ m' => m.Untouched m' := by
  refine .get_bind ?_
  by_cases hpast : m.stack.size < m.sp
  · rw [if_pos hpast]
    exact Quiet.atomic (.crash _) m
  · rw [if_neg hpast]
    cases b.reply m.heap (m.stack.extract (m.sp - argc) m.sp).toList with
    | error stop => exact .of_throw (.refl m)
    | ok reply =>
        have hroom : m.sp - (argc + 1) < m.stack.size := by omega
        exact .of_ok (if_pos hroom) trivial

theorem call (argc : Nat) : Atomic (Exec.call argc) := by
  intro m
  refine .get_bind ?_
  by_cases hfew : m.sp < argc + 1
  · rw [if_pos hfew]
    exact Quiet.atomic (.fail _) m
  · rw [if_neg hfew]
    have hargc : argc < m.sp := by omega
    cases m.stack[m.sp - (argc + 1)]? with
    | none => exact Quiet.atomic (.crash _) m
    | some v =>
        cases v with
        | closure a => exact (Quiet.callClosure a argc).atomic m
        | builtin b => exact callBuiltin_of_lt b hargc
        | _ => exact Quiet.atomic (.fail _) m

/-- Whatever the opcode, all that can fail comes before the globals, the objects or the output
change. -/
theorem dispatch (op : Opcode) : Atomic (Exec.dispatch op) := by
  cases op with
  | setGlobal | setConstGlobal => exact .bind (.fetchOperand _) .setGlobal
  | setIndex => exact .setIndex
  | setField => exact .bind (.fetchOperand _) .setField
  | call => exact .bind (.fetchOperand _) .call
  | constant =>
      exact .bind (.fetchOperand _) fun _ => .bind (.constant _ _) fun v => (Quiet.push v).atomic
  | pushTrue | pushFalse | pushNull => exact (Quiet.push _).atomic
  | add | sub | mul | div | greater | greaterOrEqual | and | or => exact (Quiet.binary _).atomic
  | equal | notEqual => exact (Quiet.equality _).atomic
  | negate => exact .bind .pop fun _ => .bind (.ofExcept _) fun v => (Quiet.push v).atomic
  | not => exact .bind .pop fun _ => (Quiet.push _).atomic
  | jump => exact .bind (.fetchOperand _) fun _ => (Quiet.modifyFrame _).atomic
  | jumpNotTruthy => exact .bind (.fetchOperand _) fun n => (Quiet.jumpNotTruthy n).atomic
  | getGlobal | getConstGlobal => exact .bind (.fetchOperand _) fun n => (Quiet.getGlobal n).atomic
  | getLocal | getConstLocal => exact .bind (.fetchOperand _) fun n => (Quiet.getLocal n).atomic
  | setLocal | setConstLocal => exact .bind (.fetchOperand _) fun n => (Quiet.setLocal n).atomic
  | getFree => exact .bind (.fetchOperand _) fun n => (Quiet.getFree n).atomic
  | getBuiltin => exact .bind (.fetchOperand _) fun n => (Quiet.getBuiltin n).atomic
  | currentClosure => exact Quiet.currentClosure.atomic
  | array => exact .bind (.fetchOperand _) fun n => (Quiet.makeArray n).atomic
  | hash => exact .bind (.fetchOperand _) fun n => (Quiet.makeHash n).atomic
  | index => exact Quiet.getIndex.atomic
  | returnValue => exact .bind .pop fun v => (Quiet.returnFrom v).atomic
  | returnNull => exact (Quiet.returnFrom _).atomic
  | closure =>
      exact .bind (.fetchOperand _) fun n => .bind (.fetchOperand _) fun count =>
        (Quiet.makeClosure n count).atomic
  | struct =>
      exact .bind (.fetchOperand _) fun n => .bind (.fetchOperand _) fun count =>
        (Quiet.makeStruct n count).atomic
  | getField => exact .bind (.fetchOperand _) fun n => (Quiet.getField n).atomic
  | pop => exact fun m => .of_discard ((Quiet.pop.atomic m).imp fun _ _ _ => trivial)

/-- An instruction that stops early leaves the globals, the objects and the output as they were. -/
theorem step (byte : UInt8) : Atomic (Exec.step byte) := by
  unfold Exec.step
  cases Opcode.ofByte? byte with
  | none => exact (Quiet.fail _).atomic
  | some op => exact .bind (.modifyFrame _) fun _ => .dispatch op

end Atomic

instance Run.decidableStopped (r : Run) (stop : Stop RuntimeError) (p : Machine → Prop)
    [DecidablePred p] : Decidable (∃ m, r = .stopped stop m ∧ p m) :=
  match r with
  | .finished _ | .unfinished _ => isFalse (by simp)
  | .stopped cause m => decidable_of_iff (cause = stop ∧ p m) (by simp)

namespace Machine

/-- A run that stops early consists of instructions that succeed and one that does not. -/
theorem exists_last_of_run_eq_stopped {m m' : Machine} {steps : Nat} {stop : Stop RuntimeError}
    (h : m.run steps = .stopped stop m') :
    ∃ k last byte, k < steps ∧ m.run k = .unfinished last ∧ last.nextByte? = some byte ∧
      Exec.step byte last = .error stop m' := by
  induction steps generalizing m with
  | zero => cases h
  | succ steps ih =>
      cases hbyte : m.nextByte? with
      | none =>
          simp only [Machine.run, hbyte] at h
          cases h
      | some byte =>
          cases hstep : Exec.step byte m with
          | error cause m₁ =>
              simp only [Machine.run, hbyte, hstep] at h
              cases h
              exact ⟨0, m, byte, by omega, rfl, hbyte, hstep⟩
          | ok u m₁ =>
              simp only [Machine.run, hbyte, hstep] at h
              obtain ⟨k, last, byte', hk, hrun, hlast⟩ := ih h
              refine ⟨k + 1, last, byte', by omega, ?_, hlast⟩
              simp only [Machine.run, hbyte, hstep, hrun]

/-- Whatever the machine and its code are, an instruction that stops early leaves the globals, the
contents of all objects and the output as they were.  Hence after a run that stops early these are
what the instructions before the last one, all of which succeed, have made them. -/
theorem run_stopped_untouched (m : Machine) :
    (∀ byte stop m', Exec.step byte m = .error stop m' → m.Untouched m') ∧
      ∀ steps stop m', m.run steps = .stopped stop m' →
        ∃ k last, k < steps ∧ m.run k = .unfinished last ∧ last.run 1 = .stopped stop m' ∧
          last.Untouched m' := by
  constructor
  · intro byte stop m' hstep
    exact (Atomic.step byte m).error hstep
  · intro steps stop m' hrun
    obtain ⟨k, last, byte, hk, hlast, hbyte, hstep⟩ := exists_last_of_run_eq_stopped hrun
    exact ⟨k, last, hk, hlast, run_one_error hbyte hstep, (Atomic.step byte last).error hstep⟩

/-- An array is put into a global and printed.  The write past its end that follows fails and leaves
all three as they were. -/
theorem run_stopped_untouched_at_bad_index :
    let m := initial
      ⟨#[1, 29, 0, 1, 19, 0, 0, 27, 1, 18, 0, 0, 33, 1, 40, 18, 0, 0, 0, 0, 0, 2, 32]⟩
      #[.int 5] ⟨8, 1, 2⟩ (.ofSize 1) .empty
    ∃ k last m', m.run 20 = .stopped (.error (.indexOutOfBounds 5 1)) m' ∧
      m.run k = .unfinished last ∧ last.Untouched m' ∧ last.output = "[true]\n" ∧
      last.globals = ⟨#[.array 0]⟩ := by
  intro m
  have hrun : ∃ m', m.run 20 = .stopped (.error (.indexOutOfBounds 5 1)) m' ∧
      m'.output = "[true]\n" ∧ m'.globals = ⟨#[.array 0]⟩ := by
    decide +kernel
  obtain ⟨m', hrun, houtput, hglobals⟩ := hrun
  obtain ⟨k, last, -, hlast, -, huntouched⟩ := m.run_stopped_untouched.2 20 _ m' hrun
  exact ⟨k, last, m', hrun, hlast, huntouched, huntouched.output.symm.trans houtput,
    huntouched.globals.symm.trans hglobals⟩

end Machine

end ScriptEngine
