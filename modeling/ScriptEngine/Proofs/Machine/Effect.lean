import Mathlib.Data.List.Basic
import ScriptEngine.Machine.Run
import ScriptEngine.Proofs.Assembly
import ScriptEngine.Proofs.Outcome

/-!
# What an instruction does

Apart from opening and closing calls, what an instruction does depends on a `View` of the machine
and on the values on top of the stack, and it is described by an `Effect`: a value to give, a slot
to write, a place to go on at, and the globals, the heap and the text that result.
`execute_performs` says that executing an instruction is performing its effect, as far as the stack
has room for it.
-/

namespace ScriptEngine

/-! ## Reading an instruction -/

namespace Frame

/-- The call at another offset of its code. -/
def goTo (f : Frame) (ip : Nat) : Frame :=
  { f with ip }

end Frame

namespace Exec

/-- Does what an instruction asks for whose operands have been read. -/
def execute (i : Instruction) : Exec Unit := do
  match i.opcode with
  | .constant => push (← constant .constant (i.operand 0))
  | .pushTrue => push (.bool true)
  | .pushFalse => push (.bool false)
  | .pushNull => push .null
  | .add => binary .add
  | .sub => binary .subtract
  | .mul => binary .multiply
  | .div => binary .divide
  | .equal => equality true
  | .notEqual => equality false
  | .greater => binary .greater
  | .greaterOrEqual => binary .greaterOrEqual
  | .and => binary .and
  | .or => binary .or
  | .negate => push (← ofExcept (← pop).opposite)
  | .not => push (.bool (!(← pop).isTruthy))
  | .jump => jumpTo (i.operand 0)
  | .jumpNotTruthy => jumpNotTruthy (i.operand 0)
  | .getGlobal | .getConstGlobal => getGlobal (i.operand 0)
  | .setGlobal | .setConstGlobal => setGlobal (i.operand 0)
  | .getLocal | .getConstLocal => getLocal (i.operand 0)
  | .setLocal | .setConstLocal => setLocal (i.operand 0)
  | .getFree => getFree (i.operand 0)
  | .getBuiltin => getBuiltin (i.operand 0)
  | .currentClosure => currentClosure
  | .array => makeArray (i.operand 0)
  | .hash => makeHash (i.operand 0)
  | .index => getIndex
  | .setIndex => setIndex
  | .call => call (i.operand 0)
  | .returnValue => returnFrom (← pop)
  | .returnNull => returnFrom .null
  | .closure => makeClosure (i.operand 0) (i.operand 1)
  | .struct => makeStruct (i.operand 0) (i.operand 1)
  | .getField => getField (i.operand 0)
  | .setField => setField (i.operand 0)
  | .pop => discard pop

def fetchOperands : List Width → Exec (List Nat)
  | [] => pure []
  | w :: ws => do
      let n ← fetchOperand w
      let ns ← fetchOperands ws
      return n :: ns

/-- Every opcode reads what the table of widths says, and acts on the operands only then. -/
theorem dispatch_eq (op : Opcode) :
    dispatch op = fetchOperands op.operandWidths >>= fun ns => execute ⟨op, ns⟩ := by
  cases op <;>
    simp only [dispatch, execute, Opcode.operandWidths, fetchOperands, bind_assoc, pure_bind] <;>
    rfl

theorem frame_eq {m : Machine} {f : Frame} {fs : List Frame} (hframes : m.frames = f :: fs) :
    frame m = .ok f m := by
  simp only [frame, hframes]

theorem modifyFrame_eq {m : Machine} {f : Frame} {fs : List Frame} (hframes : m.frames = f :: fs)
    (change : Frame → Frame) :
    modifyFrame change m = .ok () { m with frames := change f :: fs } := by
  simp only [modifyFrame, hframes]

theorem fetchOperand_eq {m : Machine} {f : Frame} {fs : List Frame} {w : Width} {n : Nat}
    (hframes : m.frames = f :: fs) (hread : (m.codeOf f).read f.ip w = .ok n) :
    fetchOperand w m = .ok n { m with frames := f.goTo (f.ip + w.bytes) :: fs } := by
  have hget : (get : Exec Machine) m = .ok m m := rfl
  simp only [fetchOperand, Bind.bind, EStateM.bind, frame_eq hframes, hget, hread, advance,
    modifyFrame_eq hframes]
  rfl

/-- Operands that can be read are read one after another. -/
theorem fetchOperands_eq {ws : List Width} {ns : List Nat} {m : Machine} {f : Frame}
    {fs : List Frame} (hframes : m.frames = f :: fs)
    (hread : (m.codeOf f).readOperands f.ip ws = .ok ns) :
    fetchOperands ws m =
      .ok ns { m with frames := f.goTo (f.ip + ws.foldr (fun w n => w.bytes + n) 0) :: fs } := by
  induction ws generalizing m f ns with
  | nil =>
      cases hread
      rw [List.foldr_nil, Nat.add_zero, Frame.goTo, ← hframes]
      rfl
  | cons w ws ih =>
      rw [Code.readOperands] at hread
      cases hw : (m.codeOf f).read f.ip w with
      | error e => simp [hw] at hread
      | ok n =>
          cases hrest : (m.codeOf f).readOperands (f.ip + w.bytes) ws with
          | error e => simp [hw, hrest, Except.map] at hread
          | ok rest =>
              obtain rfl : n :: rest = ns := by simpa [hw, hrest, Except.map] using hread
              have hfirst := fetchOperand_eq hframes hw
              have hlater := ih (m := { m with frames := f.goTo (f.ip + w.bytes) :: fs }) rfl hrest
              simp only [Frame.goTo, Nat.add_assoc] at hfirst hlater
              simp only [fetchOperands, Bind.bind, EStateM.bind, hfirst, hlater, List.foldr_cons,
                Frame.goTo]
              rfl

/-- A step executes the instruction at the current offset, with the call moved past it. -/
theorem step_eq_execute {m : Machine} {f : Frame} {fs : List Frame} {i : Instruction}
    (hframes : m.frames = f :: fs) (hdecode : (m.codeOf f).decode f.ip = .ok i) :
    ∃ byte, m.nextByte? = some byte ∧
      step byte m = execute i { m with frames := f.goTo (f.ip + i.width) :: fs } := by
  rw [Code.decode] at hdecode
  cases hbyte : (m.codeOf f).bytes[f.ip]? with
  | none => simp [hbyte] at hdecode
  | some byte =>
      cases hop : Opcode.ofByte? byte with
      | none => simp [hbyte, hop] at hdecode
      | some op =>
          cases hns : (m.codeOf f).readOperands (f.ip + 1) op.operandWidths with
          | error e => simp [hbyte, hop, hns] at hdecode
          | ok ns =>
              obtain rfl : (⟨op, ns⟩ : Instruction) = i := by simpa [hbyte, hop, hns] using hdecode
              refine ⟨byte, by simp [Machine.nextByte?, hframes, hbyte], ?_⟩
              have hfetch := fetchOperands_eq
                (m := { m with frames := f.goTo (f.ip + 1) :: fs }) rfl hns
              have hwidth (start : Nat) (ws : List Width) :
                  start + 1 + ws.foldr (fun w n => w.bytes + n) 0 =
                    start + ws.foldr (fun w n => w.bytes + n) 1 := by
                induction ws with
                | nil => rfl
                | cons w ws ih =>
                    simp only [List.foldr_cons]
                    omega
              simp only [Frame.goTo, hwidth] at hfetch
              simp only [step, hop, advance, dispatch_eq, Bind.bind, EStateM.bind,
                modifyFrame_eq hframes, hfetch, Frame.goTo, Instruction.width, Opcode.width]

end Exec

/-! ## Effects -/

/-- What an instruction can see of a machine, apart from its operands on the stack. -/
structure View where
  constants : Array Value
  routine : Routine
  mainAddress : Option Nat
  captured : Array Value
  /-- The values of local slots. -/
  slot : Nat → Option Value
  globals : Globals
  heap : Heap

/-- What an instruction does to a machine. -/
structure Effect where
  /-- The value that it puts on the stack. -/
  value : Option Value
  /-- The local slot that it writes, and what it writes there. -/
  written : Option (Nat × Value)
  /-- Where the call goes on, if not after the instruction. -/
  target : Option Nat
  mainAddress : Option Nat
  globals : Globals
  heap : Heap
  printed : String

namespace View

def nothing (w : View) : Effect :=
  { value := none, written := none, target := none, mainAddress := w.mainAddress,
    globals := w.globals, heap := w.heap, printed := "" }

def give (w : View) (v : Value) : Effect :=
  { w.nothing with value := some v }

def giveNew (w : View) (object : Value × Heap) : Effect :=
  { w.nothing with value := some object.1, heap := object.2 }

/-- The effect that gives the running closure, and makes one of the top level if there is none. -/
def giveCurrent (w : View) : Effect :=
  match w.routine, w.mainAddress with
  | .closure address, _ => w.give (.closure address)
  | .main _, some address => w.give (.closure address)
  | .main code, none =>
      { w.giveNew (w.heap.newClosure (.main code) #[]) with
        mainAddress := some w.heap.closures.size }

theorem giveCurrent_of_closure {w : View} {address : Nat} (h : w.routine = .closure address) :
    w.giveCurrent = w.give (.closure address) := by
  rw [giveCurrent, h]

/-- The effect that gives what a computation gives. -/
def giveResult (w : View) : Except RuntimeError Value → Except (Stop RuntimeError) Effect
  | .ok v => .ok (w.give v)
  | .error e => .error (.error e)

def answer (w : View) (r : Reply) : Effect :=
  { w.nothing with
    value := some ((w.heap.answer r).1.getD .null)
    heap := (w.heap.answer r).2
    printed := r.printed }

/-- The effect that gives a value found by an operand. -/
def giveFound (w : View) (i : Instruction) : Option Value → Except (Stop RuntimeError) Effect
  | some v => .ok (w.give v)
  | none => .error (.error (.invalidOperand i.opcode (i.operand 0)))

/-- The effect of a call of a value that is not a closure. -/
def call (w : View) (callee : Value) (args : List Value) : Except (Stop RuntimeError) Effect :=
  match callee with
  | .builtin b => (b.reply w.heap args).map w.answer
  | v => .error (.error (.notCallable v.kind))

def closure (w : View) (i : Instruction) (captured : List Value) :
    Except (Stop RuntimeError) Effect :=
  match w.constants[i.operand 0]? with
  | some (.function f) => .ok (w.giveNew (w.heap.newClosure f.content captured.toArray))
  | some v => .error (.error (.notAFunction v.kind))
  | none => .error (.error (.invalidOperand .closure (i.operand 0)))

def struct (w : View) (i : Instruction) (fields : List Value) :
    Except (Stop RuntimeError) Effect :=
  match w.constants[i.operand 0]? with
  | some (.structType t) => .ok (w.giveNew (w.heap.newStruct t.content fields.toArray))
  | _ => .error (.error (.invalidOperand .struct (i.operand 0)))

def getField (w : View) (i : Instruction) (object : Value) : Except (Stop RuntimeError) Effect :=
  match object with
  | .struct a => w.giveFound i (w.heap.struct a).fields[i.operand 0]?
  | v => .error (.error (.notAStruct v.kind))

def setField (w : View) (i : Instruction) (object value : Value) :
    Except (Stop RuntimeError) Effect :=
  match object with
  | .struct a =>
      if i.operand 0 < (w.heap.struct a).fields.size then
        .ok { w.nothing with heap := w.heap.setField a (i.operand 0) value }
      else
        .error (.error (.invalidOperand .setField (i.operand 0)))
  | v => .error (.error (.notAStruct v.kind))

end View

/-- The two-place operation of an opcode. -/
def Opcode.operation? : Opcode → Option Operation
  | add => some .add
  | sub => some .subtract
  | mul => some .multiply
  | div => some .divide
  | greater => some .greater
  | greaterOrEqual => some .greaterOrEqual
  | and => some .and
  | or => some .or
  | _ => none

namespace Instruction

/-- What an instruction does, given the values that it takes, the lowest first.  Returns and calls
of closures are left out. -/
def effect (i : Instruction) (w : View) (args : List Value) : Except (Stop RuntimeError) Effect :=
  match i.opcode, args with
  | .constant, _ => w.giveFound i w.constants[i.operand 0]?
  | .pushTrue, _ => .ok (w.give (.bool true))
  | .pushFalse, _ => .ok (w.give (.bool false))
  | .pushNull, _ => .ok (w.give .null)
  | .equal, [l, r] => .ok (w.give (.bool (l.identical r == true)))
  | .notEqual, [l, r] => .ok (w.give (.bool (l.identical r == false)))
  | .negate, [v] => w.giveResult v.opposite
  | .not, [v] => .ok (w.give (.bool (!v.isTruthy)))
  | .jump, _ => .ok { w.nothing with target := some (i.operand 0) }
  | .jumpNotTruthy, [v] =>
      .ok { w.nothing with target := if v.isTruthy then none else some (i.operand 0) }
  | .getGlobal, _ | .getConstGlobal, _ => w.giveResult (w.globals.get (i.operand 0))
  | .setGlobal, [v] | .setConstGlobal, [v] =>
      match w.globals.set (i.operand 0) v with
      | .ok globals => .ok { w.nothing with globals }
      | .error e => .error (.error e)
  | .getLocal, _ | .getConstLocal, _ =>
      match w.slot (i.operand 0) with
      | some v => .ok (w.give v)
      | none => .error (.crash .slotOutOfRange)
  | .setLocal, [v] | .setConstLocal, [v] =>
      .ok { w.nothing with written := some (i.operand 0, v) }
  | .getFree, _ => w.giveFound i w.captured[i.operand 0]?
  | .getBuiltin, _ => w.giveFound i ((Builtin.ofIndex? (i.operand 0)).map .builtin)
  | .currentClosure, _ => .ok w.giveCurrent
  | .array, vs => .ok (w.giveNew (w.heap.newArray vs.toArray))
  | .hash, vs =>
      match Exec.storePairs .empty vs with
      | .ok entries => .ok (w.giveNew (w.heap.newHash entries))
      | .error e => .error (.error e)
  | .index, [container, position] => w.giveResult (w.heap.index container position)
  | .setIndex, [container, position, v] =>
      match w.heap.setIndex container position v with
      | .ok heap => .ok { w.nothing with heap }
      | .error e => .error (.error e)
  | .call, callee :: vs => w.call callee vs
  | .closure, vs => w.closure i vs
  | .struct, vs => w.struct i vs
  | .getField, [object] => w.getField i object
  | .setField, [object, v] => w.setField i object v
  | op, [l, r] =>
      match op.operation? with
      | some operation => w.giveResult (operation.apply l r)
      | none => .ok w.nothing
  | _, _ => .ok w.nothing

/-- Neither opens nor closes a call. -/
def StaysIn (i : Instruction) (args : List Value) : Prop :=
  match i.opcode with
  | .returnValue | .returnNull => False
  | .call => ∀ a, args.head? ≠ some (.closure a)
  | _ => True

/-- What does not stay in its call is a return or a call of a closure. -/
theorem not_staysIn {i : Instruction} {args : List Value} (h : ¬i.StaysIn args) :
    (i.opcode = .returnValue ∨ i.opcode = .returnNull) ∨
      (i.opcode = .call ∧ ∃ a vs, args = .closure a :: vs) := by
  unfold StaysIn at h
  split at h
  · rename_i hop
    exact .inl (.inl hop)
  · rename_i hop
    exact .inl (.inr hop)
  · rename_i hop
    cases args with
    | nil => simp at h
    | cons v vs =>
        obtain ⟨a, ha⟩ : ∃ a, v = .closure a := by simpa using h
        exact .inr ⟨hop, a, vs, by rw [ha]⟩
  · exact absurd trivial h

/-- The only local slot that an instruction depends on is the one that it reads. -/
theorem effect_congr {i : Instruction} {w : View} {args : List Value} {slot : Nat → Option Value}
    (hslot : i.opcode = .getLocal ∨ i.opcode = .getConstLocal →
      slot (i.operand 0) = w.slot (i.operand 0)) :
    i.effect { w with slot } args = i.effect w args := by
  by_cases hlocal : i.opcode = .getLocal ∨ i.opcode = .getConstLocal
  · have hread (slot : Nat → Option Value) : i.effect { w with slot } args =
        match slot (i.operand 0) with
        | some v => .ok (w.give v)
        | none => .error (.crash .slotOutOfRange) := by
      obtain ⟨op, ns⟩ := i
      rcases hlocal with rfl | rfl <;> rfl
    rw [hread slot, hslot hlocal]
    exact (hread w.slot).symm
  · unfold effect
    split <;> try rfl
    · rename_i hop
      exact absurd (.inl hop) hlocal
    · rename_i hop
      exact absurd (.inr hop) hlocal

end Instruction

/-! ## The top of the stack -/

namespace Machine

/-- The values are those on top of the stack, the lowest first. -/
structure Top (m : Machine) (below : Nat) (args : List Value) : Prop where
  sp : m.sp = below + args.length
  le : m.sp ≤ m.stack.size
  get : ∀ k v, args[k]? = some v → m.stack[below + k]? = some v

namespace Top

variable {m : Machine} {below : Nat} {args : List Value}

theorem pop {v : Value} (h : m.Top below (args ++ [v])) :
    Exec.pop m = .ok v { m with sp := below + args.length } := by
  have hsp := h.sp
  rw [List.length_append, List.length_singleton] at hsp
  have hget := h.get args.length v (by simp)
  have hpos : ¬m.sp = 0 := by omega
  have hlast : m.sp - 1 = below + args.length := by omega
  simp only [Exec.pop, hpos, hlast, hget, if_false]

theorem dropLast {v : Value} (h : m.Top below (args ++ [v])) :
    { m with sp := below + args.length }.Top below args := by
  have hsp := h.sp
  have hle := h.le
  rw [List.length_append, List.length_singleton] at hsp
  refine ⟨rfl, ?_, fun k w hw => ?_⟩
  · change below + args.length ≤ m.stack.size
    omega
  · exact h.get k w (by rw [List.getElem?_append_left (List.getElem?_eq_some_iff.mp hw).1, hw])

section

variable {α : Type} {done : α → Machine → Prop} {stopped : Stop RuntimeError → Machine → Prop}

theorem pop_one {v : Value} {k : Value → Exec α} (h : m.Top below [v])
    (hk : Ends (k v) { m with sp := below } done stopped) :
    Ends (Exec.pop >>= k) m done stopped := by
  have hlast : m.Top below ([] ++ [v]) := h
  exact Ends.bind_of_ok hlast.pop hk

theorem pop_two {v w : Value} {k : Value → Value → Exec α} (h : m.Top below [v, w])
    (hk : Ends (k w v) { m with sp := below } done stopped) :
    Ends (Exec.pop >>= fun w => Exec.pop >>= fun v => k w v) m done stopped := by
  have hlast : m.Top below ([v] ++ [w]) := h
  exact Ends.bind_of_ok hlast.pop (hlast.dropLast.pop_one hk)

theorem pop_three {u v w : Value} {k : Value → Value → Value → Exec α}
    (h : m.Top below [u, v, w]) (hk : Ends (k w v u) { m with sp := below } done stopped) :
    Ends (Exec.pop >>= fun w => Exec.pop >>= fun v => Exec.pop >>= fun u => k w v u) m
      done stopped := by
  have hlast : m.Top below ([u, v] ++ [w]) := h
  exact Ends.bind_of_ok hlast.pop (hlast.dropLast.pop_two hk)

end

theorem extract_eq (h : m.Top below args) : m.stack.extract below m.sp = args.toArray := by
  apply Array.ext_getElem?
  intro k
  have hsp := h.sp
  have hle := h.le
  have hright : args.toArray[k]? = args[k]? := by simp
  rw [Array.getElem?_extract, hright]
  by_cases hk : k < args.length
  · rw [if_pos (by omega), List.getElem?_eq_getElem hk]
    exact h.get k args[k] (List.getElem?_eq_getElem hk)
  · rw [if_neg (by omega), List.getElem?_eq_none (by omega)]

theorem tail {v : Value} (h : m.Top below (v :: args)) : m.Top (below + 1) args := by
  have hsp := h.sp
  rw [List.length_cons] at hsp
  refine ⟨by omega, h.le, fun k w hw => ?_⟩
  have hget := h.get (k + 1) w (by simpa using hw)
  rwa [Nat.add_assoc, Nat.add_comm 1 k]

theorem head {v : Value} (h : m.Top below (v :: args)) : m.stack[below]? = some v :=
  h.get 0 v rfl

theorem takeTop (h : m.Top below args) :
    Exec.takeTop args.length m = .ok args.toArray { m with sp := below } := by
  have hsp := h.sp
  have henough : ¬m.sp < args.length := by omega
  have hbelow : m.sp - args.length = below := by omega
  simp [Exec.takeTop, henough, h.le, hbelow, h.extract_eq]

end Top

/-- What an instruction of an open call can see. -/
def view (m : Machine) (f : Frame) : View :=
  { constants := m.constants
    routine := f.routine
    mainAddress := m.mainAddress
    captured := (m.closureOf f).captured
    slot := fun k => m.stack[f.base + k]?
    globals := m.globals
    heap := m.heap }

/-- The stack with the slot written that an effect of a call writes whose slots begin at `base`. -/
def slotsAfter (m : Machine) (base : Nat) (e : Effect) : Array Value :=
  match e.written with
  | some (k, v) => m.stack.setIfInBounds (base + k) v
  | none => m.stack

/-- The stack after an effect whose operands are taken from above `below`. -/
def stackAfter (m : Machine) (base below : Nat) (e : Effect) : Array Value :=
  match e.value with
  | some v => (m.slotsAfter base e).setIfInBounds below v
  | none => m.slotsAfter base e

/-- The machine after an effect of its innermost call. -/
def perform (m : Machine) (f : Frame) (fs : List Frame) (below : Nat) (e : Effect) : Machine :=
  { m with
    stack := m.stackAfter f.base below e
    sp := below + if e.value.isSome then 1 else 0
    frames := f.goTo (e.target.getD f.ip) :: fs
    mainAddress := e.mainAddress
    globals := e.globals
    heap := e.heap
    output := m.output ++ e.printed }

/-- How executing an instruction stops early: its effect is an error, and then nothing has changed
that outlives the machine, or the stack has no room for the value that it gives. -/
inductive Breaks (m : Machine) (below : Nat) (result : Except (Stop RuntimeError) Effect) :
    Stop RuntimeError → Machine → Prop
  | refused {stop : Stop RuntimeError} {m' : Machine} (effect : result = .error stop)
      (globals : m'.globals = m.globals) (heap : m'.heap = m.heap)
      (output : m'.output = m.output) : Breaks m below result stop m'
  | full {e : Effect} {v : Value} {m' : Machine} (effect : result = .ok e)
      (value : e.value = some v) (noRoom : m.stack.size ≤ below)
      (globals : m'.globals = e.globals) (heap : m'.heap = e.heap)
      (output : m'.output = m.output ++ e.printed) :
      Breaks m below result (.error .stackOverflow) m'

/-- A computation, started on `m₁`, performs an effect on the machine `m`. -/
def Performs (m : Machine) (f : Frame) (fs : List Frame) (below : Nat)
    (result : Except (Stop RuntimeError) Effect) (x : Exec Unit) (m₁ : Machine) : Prop :=
  Ends x m₁
    (fun _ m' => ∃ e, result = .ok e ∧ (e.value.isSome = true → below < m.stack.size) ∧
      m' = m.perform f fs below e)
    (m.Breaks below result)

namespace Performs

variable {m : Machine} {f : Frame} {fs : List Frame} {below : Nat}

/-- An effect that gives a value ends by pushing it. -/
theorem push {e : Effect} {v : Value} (hframes : m.frames = f :: fs) (hvalue : e.value = some v)
    (hwritten : e.written = none) (htarget : e.target = none) {m₁ : Machine}
    (hm₁ : m₁ = { m with
      sp := below
      mainAddress := e.mainAddress
      globals := e.globals
      heap := e.heap
      output := m.output ++ e.printed }) :
    m.Performs f fs below (.ok e) (Exec.push v) m₁ := by
  subst hm₁
  by_cases hroom : below < m.stack.size
  · refine Ends.of_ok (if_pos hroom) ⟨e, rfl, fun _ => hroom, ?_⟩
    simp only [perform, stackAfter, slotsAfter, hvalue, hwritten, htarget, Option.isSome_some,
      if_true, Option.getD_none, Frame.goTo, hframes]
  · exact Ends.of_error (if_neg hroom) (.full rfl hvalue (Nat.le_of_not_lt hroom) rfl rfl rfl)

/-- Where nothing is taken, the stack ends where it ended before. -/
theorem of_sp {result : Except (Stop RuntimeError) Effect} {x : Exec Unit} (hsp : m.sp = below)
    (h : m.Performs f fs below result x { m with sp := below }) :
    m.Performs f fs below result x m := by
  subst hsp
  exact h

theorem give (hframes : m.frames = f :: fs) (v : Value) :
    m.Performs f fs below (.ok ((m.view f).give v)) (Exec.push v) { m with sp := below } :=
  push hframes rfl rfl rfl (by simp [View.give, View.nothing, view])

theorem giveNew (hframes : m.frames = f :: fs) (object : Value × Heap) :
    m.Performs f fs below (.ok ((m.view f).giveNew object)) (Exec.push object.1)
      { m with sp := below, heap := object.2 } :=
  push hframes rfl rfl rfl (by simp [View.giveNew, View.nothing, view])

theorem fail {e : RuntimeError} {m₁ : Machine} (hglobals : m₁.globals = m.globals)
    (hheap : m₁.heap = m.heap) (houtput : m₁.output = m.output) :
    m.Performs f fs below (.error (.error e)) (Exec.fail e) m₁ :=
  Ends.of_throw (.refused rfl hglobals hheap houtput)

theorem giveResult (hframes : m.frames = f :: fs) (r : Except RuntimeError Value) :
    m.Performs f fs below ((m.view f).giveResult r)
      (Exec.ofExcept r >>= fun v => Exec.push v) { m with sp := below } := by
  cases r with
  | ok v => exact give hframes v
  | error e => exact fail rfl rfl rfl

/-- An effect that gives no value and goes on after the instruction. -/
theorem of_modify {e : Effect} {g : Machine → Machine} {m₁ : Machine} (hvalue : e.value = none)
    (hm₁ : g m₁ = m.perform f fs below e) :
    m.Performs f fs below (.ok e) (modify g) m₁ :=
  Ends.of_modify ⟨e, rfl, by simp [hvalue], hm₁⟩

theorem binary {l r : Value} (hframes : m.frames = f :: fs) (htop : m.Top below [l, r])
    (op : Operation) :
    m.Performs f fs below ((m.view f).giveResult (op.apply l r)) (Exec.binary op) m :=
  htop.pop_two (giveResult hframes (op.apply l r))

theorem equality {l r : Value} (hframes : m.frames = f :: fs) (htop : m.Top below [l, r])
    (expected : Bool) :
    m.Performs f fs below (.ok ((m.view f).give (.bool (l.identical r == expected))))
      (Exec.equality expected) m :=
  htop.pop_two (give hframes _)

theorem jump (hframes : m.frames = f :: fs) (target : Nat) :
    m.Performs f fs below (.ok { (m.view f).nothing with target := some target })
      (Exec.jumpTo target) { m with sp := below } := by
  refine Ends.of_ok (Exec.modifyFrame_eq (m := { m with sp := below }) hframes _)
    ⟨_, rfl, nofun, ?_⟩
  simp [perform, stackAfter, slotsAfter, View.nothing, view, Frame.goTo]

theorem nothing (hframes : m.frames = f :: fs) :
    m.Performs f fs below (.ok (m.view f).nothing) (pure ()) { m with sp := below } := by
  refine Ends.of_pure ⟨_, rfl, nofun, ?_⟩
  simp [perform, stackAfter, slotsAfter, View.nothing, view, Frame.goTo, ← hframes]

theorem getGlobal (hframes : m.frames = f :: fs) (hsp : m.sp = below) (index : Nat) :
    m.Performs f fs below ((m.view f).giveResult (m.globals.get index))
      (Exec.getGlobal index) m := by
  subst hsp
  exact Ends.get_bind (giveResult hframes (m.globals.get index))

theorem setGlobal {v : Value} {i : Instruction} (hframes : m.frames = f :: fs)
    (htop : m.Top below [v]) (hop : i.opcode = .setGlobal ∨ i.opcode = .setConstGlobal) :
    m.Performs f fs below (i.effect (m.view f) [v]) (Exec.setGlobal (i.operand 0)) m := by
  have heffect : i.effect (m.view f) [v] =
      match m.globals.set (i.operand 0) v with
      | .ok globals => .ok { (m.view f).nothing with globals }
      | .error e => .error (.error e) := by
    obtain ⟨op, ns⟩ := i
    rcases hop with rfl | rfl <;> rfl
  rw [heffect, Globals.set]
  refine htop.pop_one ?_
  by_cases hindex : i.operand 0 < m.globals.size
  · rw [if_pos hindex]
    refine Ends.of_ok (if_pos hindex) ⟨_, rfl, nofun, ?_⟩
    simp [perform, stackAfter, slotsAfter, View.nothing, view, Frame.goTo, ← hframes]
  · rw [if_neg hindex]
    exact Ends.of_error (if_neg hindex) (.refused rfl rfl rfl rfl)

theorem getLocal {i : Instruction} {args : List Value} (hframes : m.frames = f :: fs)
    (hsp : m.sp = below) (hop : i.opcode = .getLocal ∨ i.opcode = .getConstLocal) :
    m.Performs f fs below (i.effect (m.view f) args) (Exec.getLocal (i.operand 0)) m := by
  subst hsp
  have heffect : i.effect (m.view f) args =
      match m.stack[f.base + i.operand 0]? with
      | some v => .ok ((m.view f).give v)
      | none => .error (.crash .slotOutOfRange) := by
    obtain ⟨op, ns⟩ := i
    rcases hop with rfl | rfl <;> rfl
  rw [heffect]
  refine Ends.bind_of_ok (Exec.frame_eq hframes) (Ends.get_bind ?_)
  cases hslot : m.stack[f.base + i.operand 0]? with
  | some v => exact give hframes v
  | none => exact Ends.of_throw (.refused rfl rfl rfl rfl)

theorem setLocal {v : Value} {i : Instruction} (hframes : m.frames = f :: fs)
    (htop : m.Top below [v]) (hop : i.opcode = .setLocal ∨ i.opcode = .setConstLocal)
    (hslot : f.base + i.operand 0 < m.stack.size) :
    m.Performs f fs below (i.effect (m.view f) [v]) (Exec.setLocal (i.operand 0)) m := by
  have heffect : i.effect (m.view f) [v] =
      .ok { (m.view f).nothing with written := some (i.operand 0, v) } := by
    obtain ⟨op, ns⟩ := i
    rcases hop with rfl | rfl <;> rfl
  rw [heffect]
  refine Ends.bind_of_ok (Exec.frame_eq hframes) (htop.pop_one ?_)
  refine Ends.of_ok (if_pos hslot) ⟨_, rfl, nofun, ?_⟩
  simp [perform, stackAfter, slotsAfter, View.nothing, view, Frame.goTo, ← hframes]

theorem getFree {i : Instruction} (hframes : m.frames = f :: fs) (hsp : m.sp = below)
    (hop : i.opcode = .getFree) :
    m.Performs f fs below ((m.view f).giveFound i (m.closureOf f).captured[i.operand 0]?)
      (Exec.getFree (i.operand 0)) m := by
  subst hsp
  refine Ends.bind_of_ok (Exec.frame_eq hframes) (Ends.get_bind ?_)
  cases (m.closureOf f).captured[i.operand 0]? with
  | some v => exact give hframes v
  | none =>
      rw [View.giveFound, hop]
      exact fail rfl rfl rfl

theorem getBuiltin {i : Instruction} (hframes : m.frames = f :: fs) (hsp : m.sp = below)
    (hop : i.opcode = .getBuiltin) :
    m.Performs f fs below
      ((m.view f).giveFound i ((Builtin.ofIndex? (i.operand 0)).map .builtin))
      (Exec.getBuiltin (i.operand 0)) m := by
  subst hsp
  rw [Exec.getBuiltin]
  cases Builtin.ofIndex? (i.operand 0) with
  | some b => exact give hframes (.builtin b)
  | none =>
      rw [Option.map_none, View.giveFound, hop]
      exact fail rfl rfl rfl

theorem currentClosure (hframes : m.frames = f :: fs) (hsp : m.sp = below) :
    m.Performs f fs below (.ok (m.view f).giveCurrent) Exec.currentClosure m := by
  subst hsp
  refine Ends.bind_of_ok (Exec.frame_eq hframes) (Ends.get_bind ?_)
  have hroutine : (m.view f).routine = f.routine := rfl
  have haddress : (m.view f).mainAddress = m.mainAddress := rfl
  rw [View.giveCurrent, hroutine, haddress]
  cases f.routine with
  | closure address => exact give hframes _
  | main code =>
      cases m.mainAddress with
      | some address => exact give hframes _
      | none =>
          refine push hframes rfl rfl rfl ?_
          simp only [View.giveNew, View.nothing, view, String.append_empty]
          rfl

theorem constant_some {op : Opcode} {index : Nat} {v : Value}
    (h : m.constants[index]? = some v) : Exec.constant op index m = .ok v m := by
  simp only [Exec.constant, h]

theorem constant_none {op : Opcode} {index : Nat} (h : m.constants[index]? = none) :
    Exec.constant op index m = .error (.error (.invalidOperand op index)) m := by
  simp only [Exec.constant, h]

theorem constant {i : Instruction} (hframes : m.frames = f :: fs) (hsp : m.sp = below)
    (hop : i.opcode = .constant) :
    m.Performs f fs below ((m.view f).giveFound i m.constants[i.operand 0]?)
      (Exec.constant .constant (i.operand 0) >>= fun v => Exec.push v) m := by
  subst hsp
  cases hv : m.constants[i.operand 0]? with
  | some v => exact Ends.bind_of_ok (constant_some hv) (give hframes v)
  | none =>
      rw [View.giveFound, hop]
      exact Ends.bind_of_error (constant_none hv) (.refused rfl rfl rfl rfl)

theorem makeArray {vs : List Value} (hframes : m.frames = f :: fs) (htop : m.Top below vs) :
    m.Performs f fs below (.ok ((m.view f).giveNew (m.heap.newArray vs.toArray)))
      (Exec.makeArray vs.length) m :=
  Ends.bind_of_ok htop.takeTop (giveNew hframes (m.heap.newArray vs.toArray))

theorem makeHash {vs : List Value} (hframes : m.frames = f :: fs) (htop : m.Top below vs) :
    m.Performs f fs below
      (match Exec.storePairs .empty vs with
        | .ok entries => .ok ((m.view f).giveNew (m.heap.newHash entries))
        | .error e => .error (.error e))
      (Exec.makeHash vs.length) m := by
  refine Ends.bind_of_ok htop.takeTop ?_
  rw [List.toList_toArray]
  cases Exec.storePairs .empty vs with
  | ok entries => exact giveNew hframes (m.heap.newHash entries)
  | error e => exact fail rfl rfl rfl

theorem getIndex {container position : Value} (hframes : m.frames = f :: fs)
    (htop : m.Top below [container, position]) :
    m.Performs f fs below ((m.view f).giveResult (m.heap.index container position))
      Exec.getIndex m :=
  htop.pop_two (Ends.get_bind (giveResult hframes (m.heap.index container position)))

theorem setIndex {container position v : Value} (hframes : m.frames = f :: fs)
    (htop : m.Top below [container, position, v]) :
    m.Performs f fs below
      (match m.heap.setIndex container position v with
        | .ok heap => .ok { (m.view f).nothing with heap }
        | .error e => .error (.error e))
      Exec.setIndex m := by
  refine htop.pop_three (Ends.get_bind ?_)
  rw [Heap.setIndex]
  cases m.heap.place container position with
  | error e => exact fail rfl rfl rfl
  | ok place =>
      refine of_modify rfl ?_
      simp [perform, stackAfter, slotsAfter, View.nothing, view, Frame.goTo, ← hframes]

theorem makeClosure {i : Instruction} {vs : List Value} (hframes : m.frames = f :: fs)
    (htop : m.Top below vs) :
    m.Performs f fs below ((m.view f).closure i vs)
      (Exec.makeClosure (i.operand 0) vs.length) m := by
  have hconstants : (m.view f).constants = m.constants := rfl
  rw [View.closure, hconstants]
  cases hv : m.constants[i.operand 0]? with
  | none => exact Ends.bind_of_error (constant_none hv) (.refused rfl rfl rfl rfl)
  | some v =>
      refine Ends.bind_of_ok (constant_some hv) ?_
      cases v with
      | function g =>
          exact Ends.bind_of_ok htop.takeTop
            (giveNew hframes (m.heap.newClosure g.content vs.toArray))
      | _ => exact fail rfl rfl rfl

theorem makeStruct {i : Instruction} {vs : List Value} (hframes : m.frames = f :: fs)
    (htop : m.Top below vs) :
    m.Performs f fs below ((m.view f).struct i vs)
      (Exec.makeStruct (i.operand 0) vs.length) m := by
  have hconstants : (m.view f).constants = m.constants := rfl
  rw [View.struct, hconstants]
  cases hv : m.constants[i.operand 0]? with
  | none => exact Ends.bind_of_error (constant_none hv) (.refused rfl rfl rfl rfl)
  | some v =>
      refine Ends.bind_of_ok (constant_some hv) ?_
      cases v with
      | structType t =>
          exact Ends.bind_of_ok htop.takeTop
            (giveNew hframes (m.heap.newStruct t.content vs.toArray))
      | _ => exact fail rfl rfl rfl

theorem getField {i : Instruction} {object : Value} (hframes : m.frames = f :: fs)
    (htop : m.Top below [object]) (hop : i.opcode = .getField) :
    m.Performs f fs below ((m.view f).getField i object) (Exec.getField (i.operand 0)) m := by
  refine htop.pop_one (Ends.get_bind ?_)
  cases object with
  | struct a =>
      have hheap : (m.view f).heap = m.heap := rfl
      rw [View.getField, hheap]
      cases hv : (m.heap.struct a).fields[i.operand 0]? with
      | some v =>
          simp only [hv]
          exact give hframes v
      | none =>
          simp only [hv, View.giveFound, hop]
          exact fail rfl rfl rfl
  | _ => exact fail rfl rfl rfl

theorem setField {i : Instruction} {object v : Value} (hframes : m.frames = f :: fs)
    (htop : m.Top below [object, v]) :
    m.Performs f fs below ((m.view f).setField i object v) (Exec.setField (i.operand 0)) m := by
  refine htop.pop_two (Ends.get_bind ?_)
  cases object with
  | struct a =>
      have hheap : (m.view f).heap = m.heap := rfl
      rw [View.setField, hheap]
      by_cases hindex : i.operand 0 < (m.heap.struct a).fields.size
      · simp only [hindex, if_true]
        refine of_modify rfl ?_
        simp [perform, stackAfter, slotsAfter, View.nothing, view, Frame.goTo, ← hframes]
      · simp only [hindex, if_false]
        exact fail rfl rfl rfl
  | _ => exact fail rfl rfl rfl

theorem callBuiltin {b : Builtin} {vs : List Value} (hframes : m.frames = f :: fs)
    (htop : m.Top below (.builtin b :: vs)) :
    m.Performs f fs below ((b.reply m.heap vs).map (m.view f).answer)
      (Exec.callBuiltin b vs.length) m := by
  have hsp := htop.sp
  rw [List.length_cons] at hsp
  have hfirst : m.sp - vs.length = below + 1 := by omega
  have hbelow : m.sp - (vs.length + 1) = below := by omega
  have hvalues : (m.stack.extract (m.sp - vs.length) m.sp).toList = vs := by
    rw [hfirst, htop.tail.extract_eq]
  refine Ends.get_bind ?_
  rw [if_neg (Nat.not_lt.mpr htop.le), hvalues]
  cases b.reply m.heap vs with
  | error stop => exact Ends.of_throw (.refused rfl rfl rfl rfl)
  | ok reply =>
      refine push hframes rfl rfl rfl ?_
      simp only [View.answer, View.nothing, view, hbelow]
      rfl

theorem call {v : Value} {vs : List Value} (hframes : m.frames = f :: fs)
    (htop : m.Top below (v :: vs)) (hv : ∀ a, v ≠ .closure a) :
    m.Performs f fs below ((m.view f).call v vs) (Exec.call vs.length) m := by
  have hsp := htop.sp
  rw [List.length_cons] at hsp
  have henough : ¬m.sp < vs.length + 1 := by omega
  have hbelow : m.sp - (vs.length + 1) = below := by omega
  have hcallee : m.stack[m.sp - (vs.length + 1)]? = some v := by
    rw [hbelow, htop.head]
  refine Ends.get_bind ?_
  rw [if_neg henough, hcallee]
  cases v with
  | closure a => exact absurd rfl (hv a)
  | builtin b => exact callBuiltin hframes htop
  | _ => exact fail rfl rfl rfl

end Performs

/-- Executing an instruction that stays in its call performs its effect. -/
theorem execute_performs {m : Machine} {f : Frame} {fs : List Frame} {i : Instruction}
    {below : Nat} {args : List Value} (hframes : m.frames = f :: fs) (htop : m.Top below args)
    (hargs : args.length = i.taken) (hstays : i.StaysIn args)
    (hslot : i.opcode = .setLocal ∨ i.opcode = .setConstLocal →
      f.base + i.operand 0 < m.stack.size) :
    m.Performs f fs below (i.effect (m.view f) args) (Exec.execute i) m := by
  have hnone (h : i.taken = 0) : m.sp = below := by
    rw [htop.sp, hargs, h, Nat.add_zero]
  have hone (h : i.taken = 1) : ∃ v, args = [v] :=
    List.length_eq_one_iff.mp (hargs.trans h)
  have htwo (h : i.taken = 2) : ∃ v w, args = [v, w] :=
    List.length_eq_two.mp (hargs.trans h)
  obtain ⟨op, ns⟩ := i
  cases op with
  | returnValue | returnNull => exact hstays.elim
  | constant => exact Performs.constant hframes (hnone rfl) rfl
  | pushTrue | pushFalse | pushNull =>
      exact Performs.of_sp (hnone rfl) (Performs.give hframes _)
  | getGlobal | getConstGlobal => exact Performs.getGlobal hframes (hnone rfl) _
  | getLocal => exact Performs.getLocal hframes (hnone rfl) (.inl rfl)
  | getConstLocal => exact Performs.getLocal hframes (hnone rfl) (.inr rfl)
  | getFree => exact Performs.getFree hframes (hnone rfl) rfl
  | getBuiltin => exact Performs.getBuiltin hframes (hnone rfl) rfl
  | currentClosure => exact Performs.currentClosure hframes (hnone rfl)
  | jump => exact Performs.of_sp (hnone rfl) (Performs.jump hframes _)
  | add | sub | mul | div | greater | greaterOrEqual | and | or =>
      obtain ⟨l, r, rfl⟩ := htwo rfl
      exact Performs.binary hframes htop _
  | equal | notEqual =>
      obtain ⟨l, r, rfl⟩ := htwo rfl
      exact Performs.equality hframes htop _
  | index =>
      obtain ⟨container, position, rfl⟩ := htwo rfl
      exact Performs.getIndex hframes htop
  | setField =>
      obtain ⟨object, v, rfl⟩ := htwo rfl
      exact Performs.setField hframes htop
  | setIndex =>
      obtain ⟨container, position, v, rfl⟩ := List.length_eq_three.mp hargs
      exact Performs.setIndex hframes htop
  | negate =>
      obtain ⟨v, rfl⟩ := hone rfl
      exact htop.pop_one (Performs.giveResult hframes _)
  | not =>
      obtain ⟨v, rfl⟩ := hone rfl
      exact htop.pop_one (Performs.give hframes _)
  | jumpNotTruthy =>
      obtain ⟨v, rfl⟩ := hone rfl
      refine htop.pop_one ?_
      simp only [Instruction.effect]
      cases v.isTruthy with
      | true => exact Performs.nothing hframes
      | false => exact Performs.jump hframes _
  | setGlobal =>
      obtain ⟨v, rfl⟩ := hone rfl
      exact Performs.setGlobal hframes htop (.inl rfl)
  | setConstGlobal =>
      obtain ⟨v, rfl⟩ := hone rfl
      exact Performs.setGlobal hframes htop (.inr rfl)
  | setLocal =>
      obtain ⟨v, rfl⟩ := hone rfl
      exact Performs.setLocal hframes htop (.inl rfl) (hslot (.inl rfl))
  | setConstLocal =>
      obtain ⟨v, rfl⟩ := hone rfl
      exact Performs.setLocal hframes htop (.inr rfl) (hslot (.inr rfl))
  | getField =>
      obtain ⟨object, rfl⟩ := hone rfl
      exact Performs.getField hframes htop rfl
  | pop =>
      obtain ⟨v, rfl⟩ := hone rfl
      have hlast : m.Top below ([] ++ [v]) := htop
      exact Ends.of_discard (Ends.of_ok hlast.pop ((Performs.nothing hframes).ok rfl))
  | array =>
      have hcount : args.length = Instruction.operand ⟨.array, ns⟩ 0 := hargs
      have harray := Performs.makeArray hframes htop
      rw [hcount] at harray
      exact harray
  | hash =>
      have hcount : args.length = Instruction.operand ⟨.hash, ns⟩ 0 := hargs
      have hhash := Performs.makeHash hframes htop
      rw [hcount] at hhash
      exact hhash
  | closure =>
      have hcount : args.length = Instruction.operand ⟨.closure, ns⟩ 1 := hargs
      have hclosure := Performs.makeClosure (i := ⟨.closure, ns⟩) hframes htop
      rw [hcount] at hclosure
      exact hclosure
  | struct =>
      have hcount : args.length = Instruction.operand ⟨.struct, ns⟩ 1 := hargs
      have hstruct := Performs.makeStruct (i := ⟨.struct, ns⟩) hframes htop
      rw [hcount] at hstruct
      exact hstruct
  | call =>
      cases args with
      | nil => cases hargs
      | cons callee vs =>
          have hcount : vs.length = Instruction.operand ⟨.call, ns⟩ 0 := Nat.succ.inj hargs
          have hcall := Performs.call hframes htop fun a ha => hstays a (congrArg some ha)
          rw [hcount] at hcall
          exact hcall

/-- A step at an instruction that stays in its call performs its effect. -/
theorem step_performs {m : Machine} {f : Frame} {fs : List Frame} {i : Instruction} {below : Nat}
    {args : List Value} (hframes : m.frames = f :: fs) (hdecode : (m.codeOf f).decode f.ip = .ok i)
    (htop : m.Top below args) (hargs : args.length = i.taken) (hstays : i.StaysIn args)
    (hslot : i.opcode = .setLocal ∨ i.opcode = .setConstLocal →
      f.base + i.operand 0 < m.stack.size) :
    ∃ byte, m.nextByte? = some byte ∧
      m.Performs (f.goTo (f.ip + i.width)) fs below (i.effect (m.view f) args)
        (Exec.step byte) m := by
  obtain ⟨byte, hbyte, hstep⟩ := Exec.step_eq_execute hframes hdecode
  refine ⟨byte, hbyte, ?_⟩
  have htop' : { m with frames := f.goTo (f.ip + i.width) :: fs }.Top below args :=
    ⟨htop.sp, htop.le, htop.get⟩
  have hperforms := execute_performs (f := f.goTo (f.ip + i.width)) rfl htop' hargs hstays hslot
  have hstarted : m.Performs (f.goTo (f.ip + i.width)) fs below (i.effect (m.view f) args)
      (Exec.execute i) { m with frames := f.goTo (f.ip + i.width) :: fs } := by
    refine hperforms.mono (fun _ _ hdone => hdone) fun stop m' hbreaks => ?_
    cases hbreaks with
    | refused effect globals heap output => exact .refused effect globals heap output
    | full effect value noRoom globals heap output =>
        exact .full effect value noRoom globals heap output
  unfold Performs Ends at hstarted ⊢
  rwa [hstep]

end Machine

/-! ## Runs in parts -/

def Run.machine : Run → Machine
  | .finished m | .stopped _ m | .unfinished m => m

namespace Machine

/-- A run goes on from where an unfinished run has come to. -/
theorem run_add {m m' : Machine} {n : Nat} (h : m.run n = .unfinished m') (k : Nat) :
    m.run (n + k) = m'.run k := by
  induction n generalizing m with
  | zero =>
      cases h
      rw [Nat.zero_add]
  | succ n ih =>
      rw [Nat.succ_add]
      simp only [Machine.run] at h ⊢
      split at h
      · cases h
      · split at h
        · exact ih h
        · cases h

theorem run_one_ok {m m' : Machine} {byte : UInt8} (hbyte : m.nextByte? = some byte)
    (hstep : Exec.step byte m = .ok () m') : m.run 1 = .unfinished m' := by
  simp only [Machine.run, hbyte, hstep]

theorem run_one_error {m m' : Machine} {byte : UInt8} {stop : Stop RuntimeError}
    (hbyte : m.nextByte? = some byte) (hstep : Exec.step byte m = .error stop m') :
    m.run 1 = .stopped stop m' := by
  simp only [Machine.run, hbyte, hstep]

/-- A run that has ended does not change with the number of steps. -/
theorem run_of_le {m : Machine} {n k : Nat} (hn : ∀ m', m.run n ≠ .unfinished m') (hle : n ≤ k) :
    m.run k = m.run n := by
  induction n generalizing m k with
  | zero => exact absurd rfl (hn m)
  | succ n ih =>
      obtain ⟨k, rfl⟩ : ∃ j, k = j + 1 := ⟨k - 1, by omega⟩
      simp only [Machine.run] at hn ⊢
      cases hbyte : m.nextByte? with
      | none => rfl
      | some byte =>
          cases hstep : Exec.step byte m with
          | ok u m' =>
              simp only [hbyte, hstep] at hn ⊢
              exact ih hn (Nat.le_of_succ_le_succ hle)
          | error cause m' => simp only [hstep]

/-- A run ends in one way. -/
theorem run_eq_run {m : Machine} {n k : Nat} (hn : ∀ m', m.run n ≠ .unfinished m')
    (hk : ∀ m', m.run k ≠ .unfinished m') : m.run n = m.run k := by
  rcases Nat.le_total n k with hle | hle
  · exact (run_of_le hn hle).symm
  · exact run_of_le hk hle

end Machine

end ScriptEngine
