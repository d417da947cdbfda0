import ScriptEngine.Proofs.Compile.Renumbering
import ScriptEngine.Proofs.Machine.Excerpt

/-!
# Running with other numbers

A machine whose code has other numbers for global slots and constants does the same with them as the
machine before did: it is the machine `renumber`ed, and it stays so step by step.  A value of the
machine is touched by renumbering only if it is code, and no instruction puts code on the stack.
Hence the runs of a machine and of the renumbered one end in the same way
(`Machine.IsRenumberable.run`).
-/

namespace ScriptEngine

variable {ν : Numbering}

/-! ## The global store -/

/-- If slots from a number on stay as they are, the others stay below it. -/
theorem Numbering.slots_lt_iff {n : Nat} (hν : ∀ k, n ≤ k → ν.slots k = k) (k : Nat) :
    ν.slots k < n ↔ k < n := by
  by_cases hk : k < n
  · refine iff_of_true ?_ hk
    by_contra hle
    have hsame := ν.slots.injective (hν _ (Nat.le_of_not_lt hle))
    omega
  · rw [hν k (Nat.le_of_not_lt hk)]

namespace Globals

variable {g : Globals}

/-- The store with its slots at other places. -/
def renumber (ν : Numbering) (g : Globals) : Globals :=
  ⟨Array.ofFn fun k : Fin g.size => g.slots[ν.slots.symm k]?.getD .null⟩

@[simp] theorem size_renumber (g : Globals) : (g.renumber ν).size = g.size := by
  simp [renumber, size]

/-- Each slot is found under its other number. -/
theorem getElem?_renumber (hν : ∀ k, g.size ≤ k → ν.slots k = k) (k : Nat) :
    (g.renumber ν).slots[ν.slots k]? = g.slots[k]? := by
  by_cases hk : k < g.size
  · simp only [renumber, Array.getElem?_ofFn, (Numbering.slots_lt_iff hν k).mpr hk, dif_pos,
      Equiv.symm_apply_apply, Array.getElem?_eq_getElem (show k < g.slots.size from hk),
      Option.getD_some]
  · have hle := Nat.le_of_not_lt hk
    have hle' : (g.renumber ν).slots.size ≤ k := Nat.le_trans (Nat.le_of_eq g.size_renumber) hle
    rw [hν k hle, Array.getElem?_eq_none hle, Array.getElem?_eq_none hle']

theorem ext_of_slots {g' : Globals} (ν : Numbering)
    (h : ∀ k, g.slots[ν.slots k]? = g'.slots[ν.slots k]?) : g = g' := by
  refine congrArg mk (Array.ext_getElem? fun k => ?_)
  rw [← ν.slots.apply_symm_apply k]
  exact h _

theorem get_renumber (hν : ∀ k, g.size ≤ k → ν.slots k = k) (k : Nat) :
    (g.renumber ν).get (ν.slots k) = g.get k := by
  simp only [get, getElem?_renumber hν, size_renumber]
  cases hslot : g.slots[k]? with
  | some v => rfl
  | none => rw [hν k (Array.getElem?_eq_none_iff.mp hslot)]

theorem put_renumber (hν : ∀ k, g.size ≤ k → ν.slots k = k) (k : Nat) (v : Value) :
    (g.renumber ν).put (ν.slots k) v = (g.put k v).renumber ν := by
  have hν' : ∀ j, (g.put k v).size ≤ j → ν.slots j = j := by
    rw [size_put]
    exact hν
  have hsize : ν.slots k < (g.renumber ν).slots.size ↔ k < g.slots.size := by
    rw [show (g.renumber ν).slots.size = g.size from g.size_renumber]
    exact Numbering.slots_lt_iff hν k
  refine ext_of_slots ν fun j => ?_
  rw [getElem?_renumber hν']
  simp only [put, Array.getElem?_setIfInBounds, getElem?_renumber hν,
    ν.slots.apply_eq_iff_eq, hsize]

theorem set_renumber (hν : ∀ k, g.size ≤ k → ν.slots k = k) (k : Nat) (v : Value) :
    (g.renumber ν).set (ν.slots k) v = (g.set k v).map (renumber ν) := by
  simp only [set, size_renumber, Numbering.slots_lt_iff hν k]
  by_cases hk : k < g.size
  · rw [if_pos hk, if_pos hk, put_renumber hν]
    rfl
  · rw [if_neg hk, if_neg hk, hν k (Nat.le_of_not_lt hk)]
    rfl

/-- Of slots that all hold null, none can be told from another. -/
theorem ofSize_renumber (n : Nat) : (ofSize n).renumber ν = ofSize n := by
  refine congrArg mk (Array.ext (by simp [ofSize, size]) fun k hk hk' => ?_)
  simp only [Array.getElem_ofFn, ofSize, Array.getElem_replicate, Array.getElem?_replicate]
  split <;> rfl

end Globals

/-! ## The heap -/

def Closure.renumber (ν : Numbering) (c : Closure) : Closure :=
  { c with function := c.function.renumber ν }

/-- The call with other numbers in its code, if it is the top level. -/
def Routine.renumber (ν : Numbering) : Routine → Routine
  | main code => main (code.renumber ν)
  | closure address => closure address

def Frame.renumber (ν : Numbering) (f : Frame) : Frame :=
  { f with routine := f.routine.renumber ν }

namespace Heap

def renumber (ν : Numbering) (h : Heap) : Heap :=
  { h with closures := h.closures.map (Closure.renumber ν) }

theorem closure_renumber (h : Heap) (a : Nat) :
    (h.renumber ν).closure a = (h.closure a).renumber ν := by
  simp only [closure, renumber, Array.getElem?_map]
  cases h.closures[a]? with
  | some c => rfl
  | none =>
      -- an address without a closure stands for one whose code is empty
      have hempty : Code.empty.renumber ν = .empty := by
        simp only [Code.renumber, show Code.empty.decodeAll = .ok [] from Code.decodeFrom_size _]
        rfl
      simp only [Option.map_none, Option.getD_none, Closure.renumber, Function.renumber,
        Function.main, hempty]

theorem newClosure_renumber (h : Heap) (f : Function) (captured : Array Value) :
    (h.renumber ν).newClosure (f.renumber ν) captured =
      ((h.newClosure f captured).1, (h.newClosure f captured).2.renumber ν) := by
  simp only [newClosure, renumber, Array.size_map, Array.map_push]
  rfl

/-- A closure is shown by its name only. -/
theorem layout_renumber (h : Heap) (v : Value) :
    (h.renumber ν).layout v = (h.layout v).map id := by
  cases v with
  | closure a =>
      simp only [layout, closure_renumber]
      rfl
  | array a | hash a | struct a => exact congrArg (Layout.parts _ · _) (List.map_id _).symm
  | _ => rfl

theorem text?_renumber (h : Heap) (v : Value) : (h.renumber ν).text? v = h.text? v := by
  have hsize : (h.renumber ν).size = h.size := by
    simp only [size, renumber, Array.size_map]
  rw [text?, text?, hsize]
  exact write?_map h.layout_renumber _ _ v

end Heap

/-- A built-in function makes no difference between closures of one name. -/
theorem Builtin.reply_renumber (b : Builtin) (h : Heap) (vs : List Value) :
    b.reply (h.renumber ν) vs = b.reply h vs := by
  have hlines (out : String) (vs : List Value) :
      lines (h.renumber ν) out vs = lines h out vs := by
    induction vs generalizing out with
    | nil => rfl
    | cons v vs ih =>
        simp only [lines, Heap.text?_renumber]
        split
        · exact ih _
        · rfl
  have hlength (v : Value) : length (h.renumber ν) v = length h v := by
    cases v <;> rfl
  have harray (b : Builtin) (v : Value) (f : Array Value → Reply) :
      b.onArray (h.renumber ν) v f = b.onArray h v f := by
    cases v <;> rfl
  simp only [reply, hlines, hlength, harray]

/-! ## Effects -/

def Effect.renumber (ν : Numbering) (e : Effect) : Effect :=
  { e with globals := e.globals.renumber ν, heap := e.heap.renumber ν }

namespace View

variable {w : View} {constants : Array Value}

def renumber (ν : Numbering) (constants : Array Value) (w : View) : View :=
  { w with
    constants
    routine := w.routine.renumber ν
    globals := w.globals.renumber ν
    heap := w.heap.renumber ν }

theorem giveResult_renumber (r : Except RuntimeError Value) :
    (w.renumber ν constants).giveResult r = (w.giveResult r).map (Effect.renumber ν) := by
  cases r <;> rfl

theorem giveFound_renumber (i : Instruction) (r : Option Value) :
    (w.renumber ν constants).giveFound i r = (w.giveFound i r).map (Effect.renumber ν) := by
  cases r <;> rfl

theorem giveCurrent_renumber :
    (w.renumber ν constants).giveCurrent = w.giveCurrent.renumber ν := by
  have hroutine : (w.renumber ν constants).routine = w.routine.renumber ν := rfl
  have haddress : (w.renumber ν constants).mainAddress = w.mainAddress := rfl
  rw [giveCurrent, giveCurrent, hroutine, haddress]
  cases w.routine with
  | closure address => rfl
  | main code =>
      cases w.mainAddress with
      | some address => rfl
      | none =>
          have hnew := w.heap.newClosure_renumber (ν := ν) (.main code) #[]
          have hsize : (w.heap.renumber ν).closures.size = w.heap.closures.size := Array.size_map
          simp only [Routine.renumber]
          change { (w.renumber ν constants).giveNew
              ((w.heap.renumber ν).newClosure ((Function.main code).renumber ν) #[]) with
            mainAddress := some (w.heap.renumber ν).closures.size } = _
          rw [hnew, hsize]
          rfl

/-- A constant that can be built into code has no numbers in it. -/
theorem giveConstant_renumber {i j : Instruction} {v : Value}
    (hv : w.constants[i.operand 0]? = some v)
    (hv' : constants[j.operand 0]? = some (v.renumber ν)) (hplain : v.isPlain = true) :
    (w.renumber ν constants).giveFound j constants[j.operand 0]? =
      (w.giveFound i w.constants[i.operand 0]?).map (Effect.renumber ν) := by
  have hsame : v.renumber ν = v := by
    cases v with
    | function f => cases hplain
    | structType t => cases hplain
    | _ => rfl
  rw [hv, hv', hsame]
  rfl

theorem getGlobal_renumber (hν : ∀ k, w.globals.size ≤ k → ν.slots k = k) (k : Nat) :
    (w.renumber ν constants).giveResult ((w.globals.renumber ν).get (ν.slots k)) =
      (w.giveResult (w.globals.get k)).map (Effect.renumber ν) := by
  rw [Globals.get_renumber hν]
  exact giveResult_renumber _

theorem setGlobal_renumber (hν : ∀ k, w.globals.size ≤ k → ν.slots k = k) (k : Nat) (v : Value) :
    (match (w.globals.renumber ν).set (ν.slots k) v with
      | .ok globals => .ok { (w.renumber ν constants).nothing with globals }
      | .error e => .error (.error e) : Except (Stop RuntimeError) Effect) =
      Except.map (Effect.renumber ν)
        (match w.globals.set k v with
          | .ok globals => .ok { w.nothing with globals }
          | .error e => .error (.error e)) := by
  rw [Globals.set_renumber hν]
  cases w.globals.set k v <;> rfl

theorem setIndex_renumber (container position v : Value) :
    (match (w.heap.renumber ν).setIndex container position v with
      | .ok heap => .ok { (w.renumber ν constants).nothing with heap }
      | .error e => .error (.error e) : Except (Stop RuntimeError) Effect) =
      Except.map (Effect.renumber ν)
        (match w.heap.setIndex container position v with
          | .ok heap => .ok { w.nothing with heap }
          | .error e => .error (.error e)) := by
  have hplace : (w.heap.renumber ν).place container position = w.heap.place container position :=
    rfl
  rw [Heap.setIndex, Heap.setIndex, hplace]
  cases w.heap.place container position with
  | ok place => cases place <;> rfl
  | error e => rfl

theorem call_renumber (callee : Value) (vs : List Value) :
    (w.renumber ν constants).call callee vs = (w.call callee vs).map (Effect.renumber ν) := by
  cases callee with
  | builtin b =>
      have hreply := b.reply_renumber (ν := ν) w.heap vs
      change (b.reply (w.heap.renumber ν) vs).map (w.renumber ν constants).answer =
        ((b.reply w.heap vs).map w.answer).map (Effect.renumber ν)
      rw [hreply]
      cases b.reply w.heap vs with
      | error stop => rfl
      | ok r => cases r <;> rfl
  | _ => rfl

theorem closure_renumber {i j : Instruction} {f : Marked Function}
    (hf : w.constants[i.operand 0]? = some (.function f))
    (hf' : constants[j.operand 0]? = some (Value.renumber ν (.function f))) (vs : List Value) :
    (w.renumber ν constants).closure j vs = (w.closure i vs).map (Effect.renumber ν) := by
  have hnew := w.heap.newClosure_renumber (ν := ν) f.content vs.toArray
  have hconstant : (w.renumber ν constants).constants[j.operand 0]? =
      some (.function ⟨ν.constants f.mark, f.content.renumber ν⟩) := hf'
  simp only [closure, hf, hconstant]
  change Except.ok ((w.renumber ν constants).giveNew
    ((w.heap.renumber ν).newClosure (f.content.renumber ν) vs.toArray)) = _
  rw [hnew]
  rfl

theorem struct_renumber {i j : Instruction} {t : Marked StructType}
    (ht : w.constants[i.operand 0]? = some (.structType t))
    (ht' : constants[j.operand 0]? = some (Value.renumber ν (.structType t))) (vs : List Value) :
    (w.renumber ν constants).struct j vs = (w.struct i vs).map (Effect.renumber ν) := by
  have hconstant : (w.renumber ν constants).constants[j.operand 0]? =
      some (.structType ⟨ν.constants t.mark, t.content⟩) := ht'
  simp only [struct, ht, hconstant]
  rfl

theorem getField_renumber (i : Instruction) (object : Value) :
    (w.renumber ν constants).getField i object = (w.getField i object).map (Effect.renumber ν) := by
  cases object with
  | struct a => exact giveFound_renumber i _
  | _ => rfl

theorem setField_renumber (i : Instruction) (object v : Value) :
    (w.renumber ν constants).setField i object v =
      (w.setField i object v).map (Effect.renumber ν) := by
  cases object with
  | struct a =>
      change (if i.operand 0 < (w.heap.struct a).fields.size then _ else _) =
        Except.map _ (if i.operand 0 < (w.heap.struct a).fields.size then _ else _)
      split <;> rfl
  | _ => rfl

end View

open View in
/-- An instruction with other numbers does the same to what has other numbers. -/
theorem Instruction.effect_renumber {i : Instruction} {r : Room} {safe : Function → Nat → Prop}
    {w : View} {args : List Value} {constants : Array Value} (hfits : i.FitsFormat)
    (hslots : ∀ k, w.globals.size ≤ k → ν.slots k = k)
    (hconstants : ∀ k, constants[ν.constants k]? = w.constants[k]?.map (Value.renumber ν))
    (hlength : args.length = i.taken) (hpool : r.pool = w.constants)
    (hadmits : i.opcode.isJump = false → r.Admits safe i) :
    (i.renumber ν).effect (w.renumber ν constants) args =
      (i.effect w args).map (Effect.renumber ν) := by
  have hone (h : i.taken = 1) : ∃ v, args = [v] :=
    List.length_eq_one_iff.mp (hlength.trans h)
  have htwo (h : i.taken = 2) : ∃ v w, args = [v, w] :=
    List.length_eq_two.mp (hlength.trans h)
  have hoperand (h : i.opcode.operandWidths ≠ []) :
      (i.renumber ν).operand 0 = ν.operand i.opcode (i.operand 0) := by
    refine operand_zero_renumber fun hnil => h ?_
    have hcount := hfits.1
    rw [hnil] at hcount
    exact List.length_eq_zero_iff.mp hcount.symm
  obtain ⟨op, ns⟩ := i
  cases op with
  | constant =>
      obtain ⟨v, hv, hplain⟩ := hadmits rfl
      rw [hpool] at hv
      refine giveConstant_renumber hv ?_ hplain
      rw [hoperand (List.cons_ne_nil _ _)]
      exact (hconstants _).trans (congrArg _ hv)
  | closure =>
      obtain ⟨f, hf, -⟩ := hadmits rfl
      rw [hpool] at hf
      refine closure_renumber hf ?_ args
      rw [hoperand (List.cons_ne_nil _ _)]
      exact (hconstants _).trans (congrArg _ hf)
  | struct =>
      obtain ⟨t, ht⟩ := hadmits rfl
      rw [hpool] at ht
      refine struct_renumber ht ?_ args
      rw [hoperand (List.cons_ne_nil _ _)]
      exact (hconstants _).trans (congrArg _ ht)
  | getGlobal | getConstGlobal =>
      simp only [effect, opcode_renumber, hoperand (List.cons_ne_nil _ _)]
      exact getGlobal_renumber hslots _
  | setGlobal | setConstGlobal =>
      obtain ⟨v, rfl⟩ := hone rfl
      simp only [effect, opcode_renumber, hoperand (List.cons_ne_nil _ _)]
      exact setGlobal_renumber hslots _ v
  -- the other instructions have no number to change
  | pushTrue | pushFalse | pushNull | jump | array =>
      rw [renumber_eq_self rfl]
      rfl
  | currentClosure =>
      rw [renumber_eq_self rfl]
      exact congrArg Except.ok giveCurrent_renumber
  | getLocal | getConstLocal =>
      rw [renumber_eq_self rfl]
      have hslot : (w.renumber ν constants).slot = w.slot := rfl
      simp only [effect, hslot]
      cases w.slot _ <;> rfl
  | getFree | getBuiltin =>
      rw [renumber_eq_self rfl]
      exact giveFound_renumber _ _
  | add | sub | mul | div | greater | greaterOrEqual | and | or | index =>
      rw [renumber_eq_self rfl]
      obtain ⟨l, r, rfl⟩ := htwo rfl
      exact giveResult_renumber _
  | equal | notEqual =>
      rw [renumber_eq_self rfl]
      obtain ⟨l, r, rfl⟩ := htwo rfl
      rfl
  | negate =>
      rw [renumber_eq_self rfl]
      obtain ⟨v, rfl⟩ := hone rfl
      exact giveResult_renumber _
  | not | jumpNotTruthy | setLocal | setConstLocal | pop | returnValue =>
      rw [renumber_eq_self rfl]
      obtain ⟨v, rfl⟩ := hone rfl
      rfl
  | returnNull =>
      rw [renumber_eq_self rfl]
      obtain rfl := List.length_eq_zero_iff.mp hlength
      rfl
  | hash =>
      rw [renumber_eq_self rfl]
      simp only [effect]
      cases Exec.storePairs .empty args <;> rfl
  | setIndex =>
      rw [renumber_eq_self rfl]
      obtain ⟨container, position, v, rfl⟩ := List.length_eq_three.mp hlength
      exact setIndex_renumber container position v
  | getField =>
      rw [renumber_eq_self rfl]
      obtain ⟨object, rfl⟩ := hone rfl
      exact getField_renumber _ object
  | setField =>
      rw [renumber_eq_self rfl]
      obtain ⟨object, v, rfl⟩ := htwo rfl
      exact setField_renumber _ object v
  | call =>
      rw [renumber_eq_self rfl]
      cases args with
      | nil => cases hlength
      | cons callee vs => exact call_renumber callee vs

/-! ## Machines -/

namespace Machine

variable {m : Machine} {constants : Array Value}

/-- The machine with other numbers and other constants. -/
def renumber (ν : Numbering) (constants : Array Value) (m : Machine) : Machine :=
  { m with
    constants
    frames := m.frames.map (Frame.renumber ν)
    globals := m.globals.renumber ν
    heap := m.heap.renumber ν }

theorem frames_renumber {f : Frame} {fs : List Frame} (hframes : m.frames = f :: fs) :
    (m.renumber ν constants).frames = f.renumber ν :: fs.map (Frame.renumber ν) :=
  congrArg (List.map (Frame.renumber ν)) hframes

theorem closureOf_renumber (f : Frame) :
    (m.renumber ν constants).closureOf (f.renumber ν) = (m.closureOf f).renumber ν := by
  obtain ⟨routine, ip, base⟩ := f
  cases routine with
  | main code => rfl
  | closure address => exact m.heap.closure_renumber address

theorem codeOf_renumber (f : Frame) :
    (m.renumber ν constants).codeOf (f.renumber ν) = (m.codeOf f).renumber ν :=
  congrArg (fun c : Closure => c.function.code) (closureOf_renumber f)

theorem view_renumber (f : Frame) :
    (m.renumber ν constants).view (f.renumber ν) = (m.view f).renumber ν constants := by
  have hcaptured : ((m.renumber ν constants).closureOf (f.renumber ν)).captured =
      (m.closureOf f).captured := by
    rw [closureOf_renumber]
    rfl
  simp only [view, hcaptured]
  rfl

/-- The machine can be renumbered: its global slots stay within the store, the other constants are
its own ones with other numbers, and its code is laid out, so that the renumbered code has the same
instructions at the same places. -/
structure IsRenumberable (ν : Numbering) (constants : Array Value) (main : Code) (m : Machine) :
    Prop where
  narrow : ν.IsNarrow
  slots : ∀ k, m.globals.size ≤ k → ν.slots k = k
  constants : ∀ k, constants[ν.constants k]? = m.constants[k]?.map (Value.renumber ν)
  conducts : m.Conducts fun _ => True
  top : main.IsLaidOut
  functions : ∀ f, Value.function f ∈ m.constants → f.content.code.IsLaidOut
  closures : ∀ c ∈ m.heap.closures, c.function.code.IsLaidOut

/-- A step of the machine is a step of the renumbered one. -/
def StepsRenumbered (ν : Numbering) (constants : Array Value) (m : Machine) : Prop :=
  ∃ byte, m.nextByte? = some byte ∧ Ends (Exec.step byte) m
    (fun _ n => (m.renumber ν constants).run 1 = .unfinished (n.renumber ν constants))
    (fun stop n => ∃ n', (m.renumber ν constants).run 1 = .stopped stop n' ∧ n'.output = n.output)

namespace IsRenumberable

variable {main : Code} {f : Frame} {fs : List Frame} {c : Closure} {r : Room} {i : Instruction}
  {height : Nat} {args : List Value}

/-- The code of the open calls is laid out. -/
theorem isLaidOut (h : m.IsRenumberable ν constants main) (hm : m.Sound main) (hf : f ∈ m.frames)
    (hruns : f.routine.Runs m.heap.closures c) : c.function.code.IsLaidOut := by
  cases hroutine : f.routine with
  | main code =>
      rw [hroutine] at hruns
      obtain rfl := hm.calls.eq_main hf hroutine
      obtain rfl : c = _ := hruns
      exact h.top
  | closure address =>
      rw [hroutine] at hruns
      exact h.closures c (Array.mem_of_getElem? hruns)

/-- The renumbered machine is about to run the renumbered instruction. -/
theorem decode (h : m.IsRenumberable ν constants main) (hm : m.Sound main)
    (hr : m.Ready main f fs c r i height args) :
    ((m.renumber ν constants).codeOf (f.renumber ν)).decode f.ip = .ok (i.renumber ν) := by
  have hlaid := h.isLaidOut hm (by simp [hr.frames]) hr.turn.runs
  rw [codeOf_renumber, codeOf_eq hr.turn.runs]
  exact hlaid.decode_renumber h.narrow (h.conducts.here hr).2.1 hr.turn.decode

/-- The effect of the renumbered instruction. -/
theorem effect (h : m.IsRenumberable ν constants main)
    (hr : m.Ready main f fs c r i height args) :
    (i.renumber ν).effect ((m.renumber ν constants).view (f.renumber ν)) args =
      (i.effect (m.view f) args).map (Effect.renumber ν) := by
  obtain ⟨bytes, hencode, -⟩ := Code.encode_of_decode hr.turn.decode
  rw [view_renumber]
  exact Instruction.effect_renumber (Instruction.exists_encode_iff.mp ⟨bytes, hencode⟩) h.slots
    h.constants hr.length hr.turn.constants hr.turn.admits

/-- A step at an instruction that stays in its call. -/
theorem step_stays (h : m.IsRenumberable ν constants main) (hm : m.Sound main)
    (hr : m.Ready main f fs c r i height args) (hstays : i.StaysIn args) :
    m.StepsRenumbered ν constants := by
  have hslots := hr.slots_le
  have hle := hm.sp_le
  have hwritten (hop : i.opcode = .setLocal ∨ i.opcode = .setConstLocal) :
      f.base + (i.renumber ν).operand 0 < m.stack.size := by
    have hlt := hr.operand_lt (.inr hop)
    have hplain : ν.operand i.opcode = id := by rcases hop with hop | hop <;> rw [hop] <;> rfl
    rw [Instruction.renumber_eq_self hplain]
    omega
  obtain ⟨byte, hbyte, hperforms⟩ := hr.step_stays hle hstays
  obtain ⟨byte', hbyte', hperforms'⟩ := step_performs (m := m.renumber ν constants)
    (frames_renumber hr.frames) (h.decode hm hr) ⟨hr.top.sp, hr.top.le, hr.top.get⟩
    (hr.length.trans i.taken_renumber.symm)
    hstays hwritten
  rw [h.effect hr] at hperforms'
  refine ⟨byte, hbyte, hperforms.mono ?_ ?_⟩
  · rintro _ n ⟨e, he, hroom, rfl⟩
    rw [he] at hperforms'
    exact run_one_ok hbyte' (hperforms'.eq_ok hroom)
  · intro stop n hbreaks
    cases hbreaks with
    | refused heffect _ _ houtput =>
        rw [heffect] at hperforms'
        obtain ⟨n', hn', -, -, houtput'⟩ := hperforms'.eq_error
        exact ⟨n', run_one_error hbyte' hn', houtput'.trans houtput.symm⟩
    | full heffect hvalue hfull _ _ houtput =>
        rw [heffect] at hperforms'
        obtain ⟨n', hn', -, -, houtput'⟩ :=
          hperforms'.eq_full (Option.isSome_of_eq_some hvalue) hfull
        exact ⟨n', run_one_error hbyte' hn', houtput'.trans houtput.symm⟩

/-- A step at a return. -/
theorem step_return (h : m.IsRenumberable ν constants main) (hm : m.Sound main)
    (hr : m.Ready main f fs c r i height args)
    (hop : i.opcode = .returnValue ∨ i.opcode = .returnNull) : m.StepsRenumbered ν constants := by
  have hle := hm.sp_le
  have hslots := hr.slots_le
  have htaken := i.taken_renumber (ν := ν)
  obtain ⟨byte, hbyte, hstep⟩ := hr.step_return hle hop
  have htop : (m.renumber ν constants).Top (m.sp - (i.renumber ν).taken) args := by
    rw [htaken]
    exact ⟨hr.top.sp, hr.top.le, hr.top.get⟩
  have hbase : f.base ≤ m.stack.size := by omega
  obtain ⟨byte', hbyte', hstep'⟩ := Exec.step_eq_leave (m := m.renumber ν constants)
    (frames_renumber hr.frames) (h.decode hm hr) hop (hr.of_return hop).1 hbase htop
    (hr.length.trans htaken.symm)
  exact ⟨byte, hbyte, Ends.of_ok hstep (run_one_ok hbyte' hstep')⟩

/-- The renumbered machine opens the call of the renumbered function. -/
theorem callClosure (m : Machine) (ν : Numbering) (constants : Array Value) (address argc : Nat) :
    Ends (Exec.callClosure address argc) m
      (fun _ n => Exec.callClosure address argc (m.renumber ν constants) =
        .ok () (n.renumber ν constants))
      (fun stop n => Exec.callClosure address argc (m.renumber ν constants) =
        .error stop (n.renumber ν constants)) := by
  have hfunction : ((m.heap.renumber ν).closure address).function =
      (m.heap.closure address).function.renumber ν := by
    rw [Heap.closure_renumber]
    rfl
  have hparameters (g : Function) : (g.renumber ν).parameters = g.parameters := rfl
  have hlocals (g : Function) : (g.renumber ν).locals = g.locals := rfl
  unfold Ends Exec.callClosure
  simp only [renumber, hfunction, hparameters, hlocals, List.length_map]
  by_cases hcount : argc ≠ (m.heap.closure address).function.parameters
  · simp only [if_pos hcount]
  by_cases hdeep : m.maxFrames ≤ m.frames.length
  · simp only [if_neg hcount, if_pos hdeep]
  by_cases hroom : m.stack.size < m.sp - argc + (m.heap.closure address).function.locals
  · simp only [if_neg hcount, if_neg hdeep, if_pos hroom]
  by_cases hnarrow : m.sp - argc + (m.heap.closure address).function.locals < m.sp
  · simp only [if_neg hcount, if_neg hdeep, if_neg hroom, if_pos hnarrow]
  simp only [if_neg hcount, if_neg hdeep, if_neg hroom, if_neg hnarrow]
  rfl

/-- A step at a call of a closure. -/
theorem step_call (h : m.IsRenumberable ν constants main) (hm : m.Sound main)
    {a : Nat} {vs : List Value}
    (hr : m.Ready main f fs c r i height (.closure a :: vs)) (hop : i.opcode = .call) :
    m.StepsRenumbered ν constants := by
  obtain ⟨byte, hbyte, hstep⟩ := Exec.step_eq_callClosure hr.frames hr.decode hop hr.top hr.length
  have htop : (m.renumber ν constants).Top (m.sp - i.taken) (.closure a :: vs) :=
    ⟨hr.top.sp, hr.top.le, hr.top.get⟩
  obtain ⟨byte', hbyte', hstep'⟩ := Exec.step_eq_callClosure (m := m.renumber ν constants)
    (frames_renumber hr.frames) (h.decode hm hr) hop htop (hr.length.trans i.taken_renumber.symm)
  have hcall := callClosure { m with frames := f.goTo (f.ip + i.width) :: fs } ν constants a
    vs.length
  refine ⟨byte, hbyte, ?_⟩
  unfold Ends at hcall ⊢
  rw [hstep]
  refine Ends.mono hcall ?_ ?_
  · intro _ n hn
    exact run_one_ok hbyte' (hstep'.trans hn)
  · intro stop n hn
    exact ⟨_, run_one_error hbyte' (hstep'.trans hn), rfl⟩

/-- A step. -/
theorem step (h : m.IsRenumberable ν constants main) (hm : m.Sound main) {byte : UInt8}
    (hbyte : m.nextByte? = some byte) :
    Ends (Exec.step byte) m
      (fun _ n => (m.renumber ν constants).run 1 = .unfinished (n.renumber ν constants))
      (fun stop n => ∃ n', (m.renumber ν constants).run 1 = .stopped stop n' ∧
        n'.output = n.output) := by
  suffices hsteps : m.StepsRenumbered ν constants by
    obtain ⟨byte', hbyte', hends⟩ := hsteps
    rw [hbyte] at hbyte'
    cases hbyte'
    exact hends
  rcases hm.ready with ⟨-, f, hframes, -, -, hip⟩ | ⟨f, fs, c, r, i, height, args, hr⟩
  · simp [nextByte?, hframes, hip, Code.size] at hbyte
  · by_cases hstays : i.StaysIn args
    · exact h.step_stays hm hr hstays
    · rcases Instruction.not_staysIn hstays with hop | ⟨hop, a, vs, rfl⟩
      · exact h.step_return hm hr hop
      · exact h.step_call hm hr hop

/-- The machine after a step can be renumbered, too. -/
theorem next (h : m.IsRenumberable ν constants main) (hm : m.Sound main) {byte : UInt8}
    (hbyte : m.nextByte? = some byte) {n : Machine} (hn : Exec.step byte m = .ok () n) :
    n.IsRenumberable ν constants main := by
  have hkept : KeptBy (fun _ => True) m.constants fun globals heap =>
      globals.size = m.globals.size ∧ ∀ c ∈ heap.closures, c.function.code.IsLaidOut := by
    intro w i args globals heap hw _ _ hchanges hp
    cases hchanges with
    | same | newArray | newHash | setField | newStruct => exact hp
    | setGlobal _ v => exact ⟨(w.globals.size_put _ v).trans hp.1, hp.2⟩
    | write place v => cases place <;> exact hp
    | @newClosure f _ constant =>
        rw [hw] at constant
        exact ⟨hp.1, Array.forall_mem_push hp.2 (h.functions f (Array.mem_of_getElem? constant))⟩
  obtain ⟨hconducts, hsize, hclosures⟩ :=
    (h.conducts.step hm hkept ⟨rfl, h.closures⟩ hbyte).ok hn
  have hconstants := ((hm.step hbyte).ok hn).2
  refine ⟨h.narrow, ?_, ?_, hconducts, h.top, ?_, hclosures⟩
  · rw [hsize]
    exact h.slots
  · rw [hconstants]
    exact h.constants
  · rw [hconstants]
    exact h.functions

/-- At the end of its code, the renumbered machine is at the end, too. -/
theorem nextByte?_eq_none (h : m.IsRenumberable ν constants main) (hm : m.Sound main)
    (hbyte : m.nextByte? = none) : (m.renumber ν constants).nextByte? = none := by
  obtain ⟨-, f, hframes, hroutine, -, hip⟩ := hm.finished hbyte
  rw [codeOf_main hroutine, ← h.top.size_renumber h.narrow] at hip
  rw [nextByte?, frames_renumber hframes]
  change ((m.renumber ν constants).codeOf (f.renumber ν)).bytes[f.ip]? = none
  rw [codeOf_renumber, codeOf_main hroutine, hip]
  exact Array.getElem?_eq_none (Nat.le_refl _)

end IsRenumberable

end Machine

/-! ## Runs -/

/-- The second run ends like the first one, with other numbers.  Of a machine that stopped early,
only what it has printed is said. -/
inductive Run.Renumbered (ν : Numbering) (constants : Array Value) : Run → Run → Prop
  | finished (m : Machine) :
      Renumbered ν constants (.finished m) (.finished (m.renumber ν constants))
  | unfinished (m : Machine) :
      Renumbered ν constants (.unfinished m) (.unfinished (m.renumber ν constants))
  | stopped {stop : Stop RuntimeError} {m m' : Machine} (output : m'.output = m.output) :
      Renumbered ν constants (.stopped stop m) (.stopped stop m')

/-- Renumbered machines run alike. -/
theorem Machine.IsRenumberable.run {m : Machine} {constants : Array Value} {main : Code}
    (h : m.IsRenumberable ν constants main) (hm : m.Sound main) (steps : Nat) :
    Run.Renumbered ν constants (m.run steps) ((m.renumber ν constants).run steps) := by
  induction steps generalizing m with
  | zero => exact .unfinished m
  | succ steps ih =>
      cases hbyte : m.nextByte? with
      | none =>
          simp only [Machine.run, hbyte, h.nextByte?_eq_none hm hbyte]
          exact .finished m
      | some byte =>
          have hstep := h.step hm hbyte
          cases hn : Exec.step byte m with
          | ok u n =>
              have hrun : m.run (steps + 1) = n.run steps := by simp only [Machine.run, hbyte, hn]
              rw [hrun, Nat.add_comm, Machine.run_add (hstep.ok hn)]
              exact ih (h.next hm hbyte hn) ((hm.step hbyte).ok hn).1
          | error stop n =>
              obtain ⟨n', hn', houtput⟩ := hstep.error hn
              have hrun : m.run (steps + 1) = .stopped stop n := by
                simp only [Machine.run, hbyte, hn]
              rw [hrun, Machine.run_of_le (by simp [hn']) (Nat.le_add_left 1 steps), hn']
              exact .stopped houtput

end ScriptEngine
