import Mathlib.Tactic.SplitIfs
import ScriptEngine.Proofs.Machine.Calls
import ScriptEngine.Proofs.Value.Text

/-!
# Executing in any state

What executing an instruction can do to the open calls and to the sizes of a machine, whatever its
code, its constants and its stack are.  Most computations are `Confined` to the stack and the
stores: they leave the calls and all sizes alone, and they stop neither for the format of the code
nor, as long as the stack pointer is within the stack, with a crash that is not foreseen.
`execute_shifts` adds the instructions that jump, call and return.
-/

namespace ScriptEngine

/-- Whether the report is about bytes that are no instruction. -/
def RuntimeError.isDecode : RuntimeError → Bool
  | decode _ => true
  | _ => false

theorem RuntimeError.isDecode_of_isInternal {e : RuntimeError} (h : e.isInternal = false) :
    e.isDecode = false := by
  cases e <;> first | rfl | cases h

namespace Machine

def top? (m : Machine) : Option Value :=
  if m.sp = 0 then none else m.stack[m.sp - 1]?

/-- What stays as it is while the innermost call works on the stack and on the stores. -/
structure Keeps (m m' : Machine) : Prop where
  frames : m'.frames = m.frames
  maxFrames : m'.maxFrames = m.maxFrames
  stack : m'.stack.size = m.stack.size
  globals : m'.globals.size = m.globals.size
  sp : m.sp ≤ m.stack.size → m'.sp ≤ m.stack.size

/-- How a computation may stop that does not read the code: not for the format of the code, and,
unless the stack pointer was past the stack, only with a crash that is foreseen. -/
def Admits (m : Machine) (crashes : Crash → Prop) : Stop RuntimeError → Prop
  | .error e => e.isDecode = false
  | .crash c => m.sp ≤ m.stack.size → crashes c

namespace Keeps

theorem refl (m : Machine) : m.Keeps m :=
  ⟨rfl, rfl, rfl, rfl, id⟩

theorem trans {m m' m'' : Machine} (h : m.Keeps m') (h' : m'.Keeps m'') : m.Keeps m'' where
  frames := h'.frames.trans h.frames
  maxFrames := h'.maxFrames.trans h.maxFrames
  stack := h'.stack.trans h.stack
  globals := h'.globals.trans h.globals
  sp := fun hsp => h.stack ▸ h'.sp (h.stack.symm ▸ h.sp hsp)

theorem admits {m m' : Machine} {crashes : Crash → Prop} {stop : Stop RuntimeError}
    (h : m.Keeps m') (hstop : m'.Admits crashes stop) : m.Admits crashes stop := by
  cases stop with
  | error e => exact hstop
  | crash c => exact fun hsp => hstop (h.stack.symm ▸ h.sp hsp)

/-- Taking values off the stack. -/
theorem lower (m : Machine) (count : Nat) : m.Keeps { m with sp := m.sp - count } :=
  ⟨rfl, rfl, rfl, rfl, fun hsp => Nat.le_trans (Nat.sub_le _ _) hsp⟩

/-- Changing the heap, and where it holds the top level as a closure. -/
theorem heap (m : Machine) (h : Heap) (address : Option Nat) :
    m.Keeps { m with heap := h, mainAddress := address } :=
  ⟨rfl, rfl, rfl, rfl, id⟩

end Keeps

end Machine

/-! ## Computations on the stack and the stores -/

/-- The computation leaves the calls and all sizes alone, and stops only as foreseen. -/
def Confined {α : Type} (crashes : Crash → Prop) (x : Exec α) (m : Machine) : Prop :=
  Ends x m (fun _ m' => m.Keeps m') fun stop m' => m.Keeps m' ∧ m.Admits crashes stop

namespace Confined

variable {α β : Type} {crashes : Crash → Prop} {m m₁ : Machine} {x : Exec α}

/-- What is confined from a later machine on is confined from the earlier one on. -/
theorem after (hkeeps : m.Keeps m₁) (h : Confined crashes x m₁) :
    Ends x m₁ (fun _ m' => m.Keeps m') fun stop m' => m.Keeps m' ∧ m.Admits crashes stop :=
  h.mono (fun _ _ hdone => hkeeps.trans hdone) fun _ _ hstop =>
    ⟨hkeeps.trans hstop.1, hkeeps.admits hstop.2⟩

theorem bind {k : α → Exec β} (hx : Confined crashes x m)
    (hk : ∀ a m', Confined crashes (k a) m') : Confined crashes (x >>= k) m :=
  Ends.bind hx fun a m' hkeeps => (hk a m').after hkeeps

theorem frame_bind {f : Frame} {fs : List Frame} {k : Frame → Exec α}
    (hframes : m.frames = f :: fs) (hk : Confined crashes (k f) m) :
    Confined crashes (Exec.frame >>= k) m :=
  Ends.bind_of_ok (Exec.frame_eq hframes) hk

theorem get_bind {k : Machine → Exec α} (hk : Confined crashes (k m) m) :
    Confined crashes (get >>= k) m :=
  Ends.get_bind hk

theorem modify {g : Machine → Machine} (h : m.Keeps (g m)) :
    Confined crashes (modify g : Exec PUnit) m :=
  Ends.of_modify h

theorem fail {e : RuntimeError} (he : e.isDecode = false) :
    Confined crashes (Exec.fail e : Exec α) m :=
  Ends.of_throw ⟨.refl m, he⟩

theorem crash {c : Crash} (hc : m.sp ≤ m.stack.size → crashes c) :
    Confined crashes (Exec.crash c : Exec α) m :=
  Ends.of_throw ⟨.refl m, hc⟩

theorem ofExcept {r : Except RuntimeError α} (h : ∀ e, r = .error e → e.isInternal = false) :
    Confined crashes (Exec.ofExcept r) m := by
  cases r with
  | ok a => exact Ends.of_pure (.refl m)
  | error e => exact fail (RuntimeError.isDecode_of_isInternal (h e rfl))

theorem push (v : Value) : Confined crashes (Exec.push v) m := by
  by_cases hroom : m.sp < m.stack.size
  · exact Ends.of_ok (if_pos hroom) ⟨rfl, rfl, by simp, rfl, fun _ => hroom⟩
  · exact Ends.of_error (if_neg hroom) ⟨.refl m, rfl⟩

/-- Taking a value succeeds if there is one. -/
theorem pop_ends : Ends Exec.pop m
    (fun v m' => m.top? = some v ∧ m' = { m with sp := m.sp - 1 })
    (fun stop m' => m.top? = none ∧ m.Keeps m' ∧ m.Admits crashes stop) := by
  unfold Ends Exec.pop Machine.top?
  by_cases hempty : m.sp = 0
  · simp only [hempty, if_true]
    exact ⟨trivial, .refl m, rfl⟩
  · simp only [hempty, if_false]
    cases hslot : m.stack[m.sp - 1]? with
    | some v => exact ⟨rfl, rfl⟩
    | none =>
        refine ⟨rfl, .lower m 1, fun hsp => ?_⟩
        have hpast := Array.getElem?_eq_none_iff.mp hslot
        omega

theorem pop : Confined crashes Exec.pop m := by
  refine pop_ends.mono (fun v m' hdone => ?_) fun stop m' hstop => hstop.2
  rw [hdone.2]
  exact .lower m 1

theorem takeTop (count : Nat) : Confined crashes (Exec.takeTop count) m := by
  unfold Confined Ends Exec.takeTop
  by_cases hfew : m.sp < count
  · rw [if_pos hfew]
    exact ⟨.refl m, rfl⟩
  · rw [if_neg hfew]
    by_cases hpast : m.stack.size < m.sp
    · rw [if_pos hpast]
      exact ⟨.refl m, fun hsp => absurd hsp (Nat.not_le_of_lt hpast)⟩
    · rw [if_neg hpast]
      exact .lower m count

theorem constant (op : Opcode) (index : Nat) : Confined crashes (Exec.constant op index) m := by
  unfold Confined Ends Exec.constant
  cases m.constants[index]? with
  | some v => exact .refl m
  | none => exact ⟨.refl m, rfl⟩

theorem allocate (new : Heap → Value × Heap) : Confined crashes (Exec.allocate new) m :=
  Ends.of_ok rfl (.heap m (new m.heap).2 m.mainAddress)

/-! ### Instructions that stay in their call -/

theorem binary (op : Operation) : Confined crashes (Exec.binary op) m :=
  .bind .pop fun _ _ => .bind .pop fun _ _ =>
    .bind (.ofExcept fun _ => Operation.isInternal_apply) fun v _ => .push v

theorem equality (expected : Bool) : Confined crashes (Exec.equality expected) m :=
  .bind .pop fun _ _ => .bind .pop fun _ _ => .push _

theorem negate : Confined crashes (do Exec.push (← Exec.ofExcept (← Exec.pop).opposite)) m :=
  .bind .pop fun _ _ => .bind (.ofExcept fun _ => Value.isInternal_opposite) fun v _ => .push v

theorem setGlobal (index : Nat) : Confined crashes (Exec.setGlobal index) m := by
  refine .bind .pop fun v m => ?_
  unfold Confined Ends
  by_cases hindex : index < m.globals.size
  · simp only [hindex, if_true]
    exact ⟨rfl, rfl, rfl, by simp, id⟩
  · simp only [hindex, if_false]
    exact ⟨.refl m, rfl⟩

theorem getGlobal (index : Nat) : Confined crashes (Exec.getGlobal index) m :=
  .get_bind (.bind (.ofExcept fun _ => Globals.isInternal_get) fun v _ => .push v)

theorem getFree {f : Frame} {fs : List Frame} (hframes : m.frames = f :: fs) (index : Nat) :
    Confined crashes (Exec.getFree index) m := by
  refine .frame_bind hframes (.get_bind ?_)
  cases (m.closureOf f).captured[index]? with
  | some v => exact .push v
  | none => exact .fail rfl

theorem getBuiltin (index : Nat) : Confined crashes (Exec.getBuiltin index) m := by
  unfold Exec.getBuiltin
  cases Builtin.ofIndex? index with
  | some b => exact .push _
  | none => exact .fail rfl

theorem currentClosure {f : Frame} {fs : List Frame} (hframes : m.frames = f :: fs) :
    Confined crashes Exec.currentClosure m := by
  refine .frame_bind hframes (.get_bind ?_)
  cases f.routine with
  | closure address => exact .push _
  | main code =>
      cases m.mainAddress with
      | some address => exact .push _
      | none =>
          exact .bind (.modify (.heap m m.heap _)) fun _ _ => .bind (.allocate _) fun v _ => .push v

theorem makeArray (count : Nat) : Confined crashes (Exec.makeArray count) m :=
  .bind (.takeTop count) fun _ _ => .bind (.allocate _) fun v _ => .push v

theorem makeHash (count : Nat) : Confined crashes (Exec.makeHash count) m :=
  .bind (.takeTop count) fun _ _ => .bind (.ofExcept fun _ => Exec.isInternal_storePairs) fun _ _ =>
    .bind (.allocate _) fun v _ => .push v

theorem getIndex : Confined crashes Exec.getIndex m :=
  .bind .pop fun _ _ => .bind .pop fun _ _ => .get_bind
    (.bind (.ofExcept fun _ => Heap.isInternal_index) fun v _ => .push v)

theorem setIndex : Confined crashes Exec.setIndex m := by
  refine .bind .pop fun value _ => .bind .pop fun _ _ => .bind .pop fun _ _ => .get_bind
    (.bind (.ofExcept fun _ => Heap.isInternal_place) fun place m => ?_)
  exact .modify (.heap m (m.heap.write place value) m.mainAddress)

theorem makeClosure (index count : Nat) : Confined crashes (Exec.makeClosure index count) m := by
  refine .bind (.constant .closure index) fun v m => ?_
  cases v with
  | function f =>
      exact .bind (.takeTop count) fun _ m => .bind (.allocate _) fun v _ => .push v
  | _ => exact .fail rfl

theorem makeStruct (index count : Nat) : Confined crashes (Exec.makeStruct index count) m := by
  refine .bind (.constant .struct index) fun v m => ?_
  cases v with
  | structType t =>
      exact .bind (.takeTop count) fun _ m => .bind (.allocate _) fun v _ => .push v
  | _ => exact .fail rfl

theorem getField (index : Nat) : Confined crashes (Exec.getField index) m := by
  refine .bind .pop fun object m => .get_bind ?_
  cases object with
  | struct a =>
      simp only
      cases (m.heap.struct a).fields[index]? with
      | some v => exact .push v
      | none => exact .fail rfl
  | _ => exact .fail rfl

theorem setField (index : Nat) : Confined crashes (Exec.setField index) m := by
  refine .bind .pop fun value _ => .bind .pop fun object m => .get_bind ?_
  cases object with
  | struct a =>
      by_cases hindex : index < (m.heap.struct a).fields.size
      · simp only [hindex, if_true]
        exact .modify (.heap m _ m.mainAddress)
      · simp only [hindex, if_false]
        exact .fail rfl
  | _ => exact .fail rfl

end Confined

/-! ## Crashes -/

namespace Machine

/-- The value below the arguments of a call, if the stack holds that many. -/
def callee? (m : Machine) (argc : Nat) : Option Value :=
  if m.sp < argc + 1 then none else m.stack[m.sp - (argc + 1)]?

def arguments (m : Machine) (argc : Nat) : List Value :=
  (m.stack.extract (m.sp - argc) m.sp).toList

/-- Executing an instruction of the call `f` breaks a promise: it reaches past the stack for a local
slot, it calls a closure that has fewer slots than arguments, or it prints a value that contains
itself. -/
inductive CrashesAt (m : Machine) (f : Frame) (i : Instruction) : Crash → Prop
  | load (opcode : i.opcode = .getLocal ∨ i.opcode = .getConstLocal)
      (slot : m.stack.size ≤ f.base + i.operand 0) : m.CrashesAt f i .slotOutOfRange
  | store (opcode : i.opcode = .setLocal ∨ i.opcode = .setConstLocal) (sp : 0 < m.sp)
      (slot : m.stack.size ≤ f.base + i.operand 0) : m.CrashesAt f i .slotOutOfRange
  | call {a : Nat} (opcode : i.opcode = .call)
      (callee : m.callee? (i.operand 0) = some (.closure a))
      (parameters : (m.heap.closure a).function.parameters = i.operand 0)
      (locals : (m.heap.closure a).function.locals < i.operand 0)
      (room : m.frames.length < m.maxFrames) : m.CrashesAt f i .tooFewLocals
  | print {v : Value} (opcode : i.opcode = .call)
      (callee : m.callee? (i.operand 0) = some (.builtin .puts))
      (argument : v ∈ m.arguments (i.operand 0)) (endless : m.heap.ShowsItself v) :
      m.CrashesAt f i .endlessText

end Machine

namespace Confined

variable {m : Machine} {f : Frame} {fs : List Frame} {i : Instruction}

theorem getLocal (hframes : m.frames = f :: fs)
    (hop : i.opcode = .getLocal ∨ i.opcode = .getConstLocal) :
    Confined (m.CrashesAt f i) (Exec.getLocal (i.operand 0)) m := by
  refine .frame_bind hframes (.get_bind ?_)
  cases hslot : m.stack[f.base + i.operand 0]? with
  | some v => exact .push v
  | none => exact .crash fun _ => .load hop (Array.getElem?_eq_none_iff.mp hslot)

theorem setLocal (hframes : m.frames = f :: fs)
    (hop : i.opcode = .setLocal ∨ i.opcode = .setConstLocal) :
    Confined (m.CrashesAt f i) (Exec.setLocal (i.operand 0)) m := by
  refine .frame_bind hframes (Ends.bind (pop_ends.mono (fun _ _ h => h) fun _ _ h => h.2) ?_)
  rintro v m₁ ⟨htop, rfl⟩
  have hsp : 0 < m.sp := by
    by_contra hempty
    rw [Machine.top?, if_pos (by omega)] at htop
    cases htop
  refine (show Confined (m.CrashesAt f i) _ _ from ?_).after (.lower m 1)
  unfold Confined Ends
  by_cases hslot : f.base + i.operand 0 < m.stack.size
  · simp only [hslot, if_true]
    exact ⟨rfl, rfl, by simp, rfl, id⟩
  · simp only [hslot, if_false]
    exact ⟨.refl _, fun _ => .store hop hsp (Nat.le_of_not_lt hslot)⟩

end Confined

namespace Builtin

/-- Printing stops at the first value that has no text. -/
theorem lines_eq_crash_iff {h : Heap} {out : String} {vs : List Value} {c : Crash} :
    lines h out vs = .error (.crash c) ↔ c = .endlessText ∧ ∃ v ∈ vs, h.text? v = none := by
  induction vs generalizing out with
  | nil => simp [lines]
  | cons v vs ih =>
      cases hv : h.text? v with
      | some text => simp [lines, hv, ih]
      | none => simp [lines, hv, eq_comm]

/-- The only crash of a built-in function is that of printing a value that has no text. -/
theorem reply_eq_crash_iff {b : Builtin} {h : Heap} {vs : List Value} {c : Crash} :
    b.reply h vs = .error (.crash c) ↔
      b = .puts ∧ c = .endlessText ∧ ∃ v ∈ vs, h.text? v = none := by
  have hlength (v : Value) : length h v ≠ .error (.crash c) := by
    cases v <;> simp [length, refuse]
  have harray (b : Builtin) (v : Value) (f : Array Value → Reply) :
      b.onArray h v f ≠ .error (.crash c) := by
    cases v <;> simp [onArray, refuse]
  cases b with
  | puts =>
      simp only [reply, true_and, ← @lines_eq_crash_iff h "" vs c]
      cases lines h "" vs <;> simp [Except.map]
  | _ =>
      unfold reply
      split <;> simp_all [refuse]

end Builtin

/-! ## Calls -/

namespace Instruction

/-- Where the call that executes an instruction stands afterwards, if it was to go on at `next`: at
the target of a jump that is taken, and nowhere if the instruction closes the call. -/
def landing (i : Instruction) (m : Machine) (next : Nat) : Option Nat :=
  match i.opcode with
  | .jump => some (i.operand 0)
  | .jumpNotTruthy =>
      match m.top? with
      | some v => some (if v.isTruthy then next else i.operand 0)
      | none => some next
  | .returnValue => if m.top?.isSome then none else some next
  | .returnNull => none
  | _ => some next

end Instruction

namespace Machine

/-- What executing an instruction does to the open calls. -/
inductive Shifts (m : Machine) (f : Frame) (fs : List Frame) (i : Instruction) (m' : Machine) : Prop
  | stays {next : Nat} (landing : i.landing m f.ip = some next)
      (keeps : { m with frames := f.goTo next :: fs }.Keeps m')
  | opens {callee argc : Nat} (opcode : i.opcode = .call) (enough : argc < m.sp)
      (room : m.frames.length < m.maxFrames)
      (keeps : { m with frames := ⟨.closure callee, 0, m.sp - argc⟩ :: f :: fs }.Keeps m')
  | closes (landing : i.landing m f.ip = none)
      (keeps : { m with frames := fs, sp := f.base - 1 }.Keeps m')

variable {m : Machine} {f : Frame} {fs : List Frame} {i : Instruction} {x : Exec Unit}

/-- A computation, started on `m₁`, does to the calls of `m` what an instruction does, and stops
only as foreseen. -/
def Executes (m : Machine) (f : Frame) (fs : List Frame) (i : Instruction) (x : Exec Unit)
    (m₁ : Machine) : Prop :=
  Ends x m₁ (fun _ m' => m.Shifts f fs i m') fun stop m' =>
    m.Shifts f fs i m' ∧ m.Admits (m.CrashesAt f i) stop

theorem Keeps.stays {m' : Machine} (hframes : m.frames = f :: fs)
    (hlanding : i.landing m f.ip = some f.ip) (h : m.Keeps m') : m.Shifts f fs i m' := by
  refine .stays hlanding ?_
  rw [Frame.goTo, ← hframes]
  exact h

namespace Executes

theorem of_confined (hframes : m.frames = f :: fs) (hlanding : i.landing m f.ip = some f.ip)
    (h : Confined (m.CrashesAt f i) x m) : m.Executes f fs i x m :=
  h.mono (fun _ _ hdone => hdone.stays hframes hlanding) fun _ _ hstop =>
    ⟨hstop.1.stays hframes hlanding, hstop.2⟩

/-- An instruction that begins by taking a value does nothing else if there is none. -/
theorem pop_bind {k : Value → Exec Unit} (hframes : m.frames = f :: fs)
    (hnone : m.top? = none → i.landing m f.ip = some f.ip)
    (hsome : ∀ v, m.top? = some v → m.Executes f fs i (k v) { m with sp := m.sp - 1 }) :
    m.Executes f fs i (Exec.pop >>= k) m := by
  refine Ends.bind (Confined.pop_ends.mono (fun _ _ h => h) fun stop m' hstop =>
    ⟨hstop.2.1.stays hframes (hnone hstop.1), hstop.2.2⟩) ?_
  rintro v m₁ ⟨htop, rfl⟩
  exact hsome v htop

theorem jump (hframes : m.frames = f :: fs) (hop : i.opcode = .jump) :
    m.Executes f fs i (Exec.jumpTo (i.operand 0)) m := by
  refine Ends.of_ok (Exec.modifyFrame_eq hframes _) (.stays ?_ (.refl _))
  simp only [Instruction.landing, hop]

theorem jumpNotTruthy (hframes : m.frames = f :: fs) (hop : i.opcode = .jumpNotTruthy) :
    m.Executes f fs i (Exec.jumpNotTruthy (i.operand 0)) m := by
  refine pop_bind hframes (fun hnone => ?_) fun v htop => ?_
  · simp only [Instruction.landing, hop, hnone]
  · cases hv : v.isTruthy with
    | true =>
        refine Ends.of_pure ((Keeps.lower m 1).stays hframes ?_)
        simp only [Instruction.landing, hop, htop, hv, if_true]
    | false =>
        refine Ends.of_ok (Exec.modifyFrame_eq (m := { m with sp := m.sp - 1 }) hframes _)
          (.stays ?_ (.lower { m with frames := f.goTo (i.operand 0) :: fs } 1))
        simp only [Instruction.landing, hop, htop, hv, Bool.false_eq_true, if_false]

theorem returnFrom (hframes : m.frames = f :: fs) (hlanding : i.landing m f.ip = none) (sp : Nat)
    (v : Value) : m.Executes f fs i (Exec.returnFrom v) { m with sp } := by
  have hmodify (change : Machine → Machine) :
      (modify change : Exec PUnit) { m with sp } = .ok ⟨⟩ (change { m with sp }) := rfl
  refine Ends.bind_of_ok (hmodify _) ?_
  simp only [hframes]
  by_cases hroom : f.base - 1 < m.stack.size
  · refine Ends.of_ok (if_pos hroom) (.closes hlanding ?_)
    exact ⟨rfl, rfl, by simp, rfl, fun _ => hroom⟩
  · exact Ends.of_error (if_neg hroom) ⟨.closes hlanding (.refl _), rfl⟩

theorem returnValue (hframes : m.frames = f :: fs) (hop : i.opcode = .returnValue) :
    m.Executes f fs i (Exec.pop >>= fun v => Exec.returnFrom v) m := by
  refine pop_bind hframes (fun hnone => ?_) fun v htop => returnFrom hframes ?_ _ v
  · simp [Instruction.landing, hop, hnone]
  · simp [Instruction.landing, hop, htop]

theorem callClosure {a : Nat} (hframes : m.frames = f :: fs) (hop : i.opcode = .call)
    (hcallee : m.callee? (i.operand 0) = some (.closure a)) :
    m.Executes f fs i (Exec.callClosure a (i.operand 0)) m := by
  have hkept : m.Shifts f fs i m :=
    (Keeps.refl m).stays hframes (by simp only [Instruction.landing, hop])
  have henough : i.operand 0 < m.sp := by
    by_contra hfew
    rw [callee?, if_pos (by omega)] at hcallee
    cases hcallee
  unfold Executes Ends Exec.callClosure
  dsimp only
  split_ifs with hcount hdeep hroom hnarrow
  · exact ⟨hkept, rfl⟩
  · exact ⟨hkept, rfl⟩
  · exact ⟨hkept, rfl⟩
  · refine ⟨hkept, fun _ => .call hop hcallee (not_not.mp hcount).symm ?_ (Nat.lt_of_not_le hdeep)⟩
    omega
  · exact .opens hop henough (Nat.lt_of_not_le hdeep)
      ⟨by rw [hframes], rfl, size_nullFrom _ _ _, rfl, fun _ => Nat.le_of_not_lt hroom⟩

theorem callBuiltin {b : Builtin} (hframes : m.frames = f :: fs) (hop : i.opcode = .call)
    (hcallee : m.callee? (i.operand 0) = some (.builtin b)) :
    m.Executes f fs i (Exec.callBuiltin b (i.operand 0)) m := by
  refine of_confined hframes (by simp only [Instruction.landing, hop]) (.get_bind ?_)
  by_cases hpast : m.stack.size < m.sp
  · rw [if_pos hpast]
    exact .crash fun hsp => absurd hsp (Nat.not_le_of_lt hpast)
  · rw [if_neg hpast]
    cases hreply : b.reply m.heap (m.stack.extract (m.sp - i.operand 0) m.sp).toList with
    | error stop =>
        refine Ends.of_throw ⟨.refl m, ?_⟩
        cases stop with
        | error e => exact RuntimeError.isDecode_of_isInternal (Builtin.isInternal_reply hreply)
        | crash c =>
            obtain ⟨rfl, rfl, v, hv, hnone⟩ := Builtin.reply_eq_crash_iff.mp hreply
            exact fun _ => .print hop hcallee hv (Heap.text?_eq_none_iff.mp hnone)
    | ok reply =>
        have hkeeps : m.Keeps { m with
            sp := m.sp - (i.operand 0 + 1)
            heap := (m.heap.answer reply).2
            output := m.output ++ reply.printed } := by
          exact ⟨rfl, rfl, rfl, rfl, fun hsp => Nat.le_trans (Nat.sub_le _ _) hsp⟩
        have hpush := (show Confined (m.CrashesAt f i)
          (Exec.push ((m.heap.answer reply).1.getD .null)) _ from .push _).after hkeeps
        exact hpush

theorem call (hframes : m.frames = f :: fs) (hop : i.opcode = .call) :
    m.Executes f fs i (Exec.call (i.operand 0)) m := by
  have hlanding : i.landing m f.ip = some f.ip := by simp only [Instruction.landing, hop]
  refine Ends.get_bind ?_
  by_cases hfew : m.sp < i.operand 0 + 1
  · rw [if_pos hfew]
    exact of_confined hframes hlanding (.fail rfl)
  · rw [if_neg hfew]
    have hcallee : m.callee? (i.operand 0) = m.stack[m.sp - (i.operand 0 + 1)]? := if_neg hfew
    cases hslot : m.stack[m.sp - (i.operand 0 + 1)]? with
    | none =>
        refine of_confined hframes hlanding (.crash fun hsp => ?_)
        have hpast := Array.getElem?_eq_none_iff.mp hslot
        omega
    | some v =>
        rw [hslot] at hcallee
        cases v with
        | closure a => exact callClosure hframes hop hcallee
        | builtin b => exact callBuiltin hframes hop hcallee
        | _ => exact of_confined hframes hlanding (.fail rfl)

end Executes

/-- Whatever the machine, executing an instruction does to the open calls no more than the
instruction says, reports no fault of the code's format, and crashes only as foreseen. -/
theorem execute_shifts (hframes : m.frames = f :: fs) (i : Instruction) :
    m.Executes f fs i (Exec.execute i) m := by
  obtain ⟨op, ns⟩ := i
  cases op with
  | jump => exact .jump hframes rfl
  | jumpNotTruthy => exact .jumpNotTruthy hframes rfl
  | call => exact .call hframes rfl
  | returnValue => exact .returnValue hframes rfl
  | returnNull => exact .returnFrom hframes rfl m.sp .null
  | constant =>
      exact .of_confined hframes rfl (.bind (.constant _ _) fun v _ => .push v)
  | pushTrue | pushFalse | pushNull => exact .of_confined hframes rfl (.push _)
  | add | sub | mul | div | greater | greaterOrEqual | and | or =>
      exact .of_confined hframes rfl (.binary _)
  | equal | notEqual => exact .of_confined hframes rfl (.equality _)
  | negate => exact .of_confined hframes rfl .negate
  | not => exact .of_confined hframes rfl (.bind .pop fun _ _ => .push _)
  | getGlobal | getConstGlobal => exact .of_confined hframes rfl (.getGlobal _)
  | setGlobal | setConstGlobal => exact .of_confined hframes rfl (.setGlobal _)
  | getLocal => exact .of_confined hframes rfl (.getLocal hframes (.inl rfl))
  | getConstLocal => exact .of_confined hframes rfl (.getLocal hframes (.inr rfl))
  | setLocal => exact .of_confined hframes rfl (.setLocal hframes (.inl rfl))
  | setConstLocal => exact .of_confined hframes rfl (.setLocal hframes (.inr rfl))
  | getFree => exact .of_confined hframes rfl (.getFree hframes _)
  | getBuiltin => exact .of_confined hframes rfl (.getBuiltin _)
  | currentClosure => exact .of_confined hframes rfl (.currentClosure hframes)
  | array => exact .of_confined hframes rfl (.makeArray _)
  | hash => exact .of_confined hframes rfl (.makeHash _)
  | index => exact .of_confined hframes rfl .getIndex
  | setIndex => exact .of_confined hframes rfl .setIndex
  | closure => exact .of_confined hframes rfl (.makeClosure _ _)
  | struct => exact .of_confined hframes rfl (.makeStruct _ _)
  | getField => exact .of_confined hframes rfl (.getField _)
  | setField => exact .of_confined hframes rfl (.setField _)
  | pop => exact .of_confined hframes rfl (Ends.of_discard Confined.pop)

end Machine

end ScriptEngine
