import ScriptEngine.Proofs.Machine.Safety

/-!
# What a call can see and change

A call works on a part of the machine only: the calls that it opens itself, the stack from the slot
of the callee on, the constants, the globals, the heap and what it prints.  This part is a
`CallState`, which counts slots from that of the callee and knows no limits, so that it does not
depend on the caller.  A machine whose caller is set apart makes the steps of its call state and
leaves the caller as it is (`Caller.Embeds.step`), unless it finds no room for a value or a call.
-/

namespace ScriptEngine

/-! ## Calls without a caller -/

/-- What a call works on.  Slots are counted from that of the callee. -/
structure CallState where
  /-- The calls that are open, up to the one in question. -/
  frames : List Frame
  /-- The stack from the slot of the callee on. -/
  values : List Value
  constants : Array Value
  globals : Globals
  heap : Heap
  /-- What has been printed since the call was opened. -/
  printed : String

namespace CallState

/-- What an instruction of an open call can see. -/
def view (k : CallState) (f : Frame) : View :=
  { constants := k.constants
    routine := f.routine
    mainAddress := none
    captured := (f.routine.closureIn k.heap).captured
    slot := fun n => k.values[f.base + n]?
    globals := k.globals
    heap := k.heap }

/-- The values below `below`, with the slot written that an effect of a call writes whose slots
begin at `base`. -/
def slotsAfter (k : CallState) (base below : Nat) (e : Effect) : List Value :=
  match e.written with
  | some (n, v) => (k.values.take below).set (base + n) v
  | none => k.values.take below

theorem length_slotsAfter {k : CallState} {below : Nat} (hbelow : below ≤ k.values.length)
    (base : Nat) (e : Effect) : (k.slotsAfter base below e).length = below := by
  unfold slotsAfter
  split <;> simp [hbelow]

def perform (k : CallState) (f : Frame) (fs : List Frame) (below : Nat) (e : Effect) : CallState :=
  { k with
    frames := f.goTo (e.target.getD f.ip) :: fs
    values := k.slotsAfter f.base below e ++ e.value.toList
    globals := e.globals
    heap := e.heap
    printed := k.printed ++ e.printed }

/-- The state after opening a call, with the calls that are open outside it. -/
def enter (k : CallState) (fs : List Frame) (address argc : Nat) : CallState :=
  { k with
    frames := { routine := .closure address, ip := 0, base := k.values.length - argc } :: fs
    values := k.values ++
      List.replicate ((k.heap.closure address).function.locals - argc) .null }

def leave (k : CallState) (f : Frame) (fs : List Frame) (result : Value) : CallState :=
  { k with
    frames := fs
    values := k.values.take (f.base - 1) ++ [result] }

def execute (k : CallState) (f : Frame) (fs : List Frame) (i : Instruction) :
    Except (Stop RuntimeError) CallState :=
  let below := k.values.length - i.taken
  let after := f.goTo (f.ip + i.width)
  match i.opcode, k.values.drop below with
  | .returnValue, args | .returnNull, args => .ok (k.leave f fs (args.headD .null))
  | .call, .closure a :: vs =>
      if vs.length = (k.heap.closure a).function.parameters then
        .ok (k.enter (after :: fs) a vs.length)
      else
        .error (.error
          (.wrongArgumentCount (k.heap.closure a).function.parameters vs.length))
  | _, args => (i.effect (k.view f) args).map (k.perform after fs below)

/-- The state after the next instruction.  Nothing happens once the call in question is closed. -/
def next (k : CallState) : Except (Stop RuntimeError) CallState :=
  match k.frames with
  | [] => .ok k
  | f :: fs =>
      match (f.routine.closureIn k.heap).function.code.decode f.ip with
      | .ok i => k.execute f fs i
      | .error e => .error (.error (.decode e))

theorem next_eq {k : CallState} {f : Frame} {fs : List Frame} {i : Instruction}
    (hframes : k.frames = f :: fs)
    (hdecode : (f.routine.closureIn k.heap).function.code.decode f.ip = .ok i) :
    k.next = k.execute f fs i := by
  simp only [next, hframes, hdecode]

theorem execute_return {k : CallState} {f : Frame} {fs : List Frame} {i : Instruction}
    (hop : i.opcode = .returnValue ∨ i.opcode = .returnNull) :
    k.execute f fs i =
      .ok (k.leave f fs ((k.values.drop (k.values.length - i.taken)).headD .null)) := by
  obtain ⟨op, ns⟩ := i
  rcases hop with rfl | rfl <;> rfl

theorem execute_call {k : CallState} {f : Frame} {fs : List Frame} {i : Instruction} {a : Nat}
    {vs : List Value} (hop : i.opcode = .call)
    (hargs : k.values.drop (k.values.length - i.taken) = .closure a :: vs) :
    k.execute f fs i =
      if vs.length = (k.heap.closure a).function.parameters then
        .ok (k.enter (f.goTo (f.ip + i.width) :: fs) a vs.length)
      else
        .error (.error
          (.wrongArgumentCount (k.heap.closure a).function.parameters vs.length)) := by
  simp only [execute, hop, hargs]

theorem execute_stays {k : CallState} {f : Frame} {fs : List Frame} {i : Instruction}
    (hstays : i.StaysIn (k.values.drop (k.values.length - i.taken))) :
    k.execute f fs i =
      (i.effect (k.view f) (k.values.drop (k.values.length - i.taken))).map
        (k.perform (f.goTo (f.ip + i.width)) fs (k.values.length - i.taken)) := by
  unfold execute
  simp only
  split
  · rename_i hop
    simp [Instruction.StaysIn, hop] at hstays
  · rename_i hop
    simp [Instruction.StaysIn, hop] at hstays
  · rename_i a vs hop hargs
    simp [Instruction.StaysIn, hop, hargs] at hstays
  · rfl

/-- Only a return leaves no call open. -/
theorem execute_closes {k k' : CallState} {f : Frame} {fs : List Frame} {i : Instruction}
    (hnext : k.execute f fs i = .ok k') (hclosed : k'.frames = []) :
    (i.opcode = .returnValue ∨ i.opcode = .returnNull) ∧ fs = [] ∧
      k' = k.leave f fs ((k.values.drop (k.values.length - i.taken)).headD .null) := by
  by_cases hstays : i.StaysIn (k.values.drop (k.values.length - i.taken))
  · rw [execute_stays hstays] at hnext
    cases heffect : i.effect (k.view f) (k.values.drop (k.values.length - i.taken)) with
    | error cause => simp [heffect, Except.map] at hnext
    | ok e =>
        rw [heffect] at hnext
        cases hnext
        cases hclosed
  · rcases Instruction.not_staysIn hstays with hop | ⟨hop, a, vs, hargs⟩
    · rw [execute_return hop] at hnext
      cases hnext
      exact ⟨hop, hclosed, rfl⟩
    · rw [execute_call hop hargs] at hnext
      split at hnext
      · cases hnext
        cases hclosed
      · cases hnext

end CallState

/-! ## Calls under a caller -/

/-- The call with its slots counted from further below. -/
def Frame.shift (n : Nat) (f : Frame) : Frame :=
  { f with base := n + f.base }

/-- The stack holds the values from a slot on, and below the slot it is as `lower` is. -/
structure StackHolds (lower : Array Value) (slot : Nat) (values : List Value)
    (stack : Array Value) : Prop where
  below : ∀ j, j < slot → stack[j]? = lower[j]?
  above : ∀ j v, values[j]? = some v → stack[slot + j]? = some v

namespace StackHolds

variable {lower stack : Array Value} {slot : Nat} {values : List Value}

theorem take (h : StackHolds lower slot values stack) (n : Nat) :
    StackHolds lower slot (values.take n) stack := by
  refine ⟨h.below, fun j v hj => h.above j v ?_⟩
  rw [List.getElem?_take] at hj
  split at hj
  · exact hj
  · cases hj

theorem set (h : StackHolds lower slot values stack) (n : Nat) (v : Value) :
    StackHolds lower slot (values.set n v) (stack.setIfInBounds (slot + n) v) := by
  constructor
  · intro j hj
    rw [Array.getElem?_setIfInBounds_ne (by omega), h.below j hj]
  · intro j w hw
    by_cases hn : n = j
    · subst hn
      have hlt : n < values.length := by
        simpa using (List.getElem?_eq_some_iff.mp hw).1
      obtain ⟨hsize, -⟩ := Array.getElem?_eq_some_iff.mp
        (h.above n values[n] (List.getElem?_eq_getElem hlt))
      rw [List.getElem?_set_self hlt] at hw
      rw [Array.getElem?_setIfInBounds_self_of_lt hsize, hw]
    · rw [List.getElem?_set_ne hn] at hw
      rw [Array.getElem?_setIfInBounds_ne (by omega), h.above j w hw]

theorem push (h : StackHolds lower slot values stack) (v : Value)
    (hroom : slot + values.length < stack.size) :
    StackHolds lower slot (values ++ [v]) (stack.setIfInBounds (slot + values.length) v) := by
  constructor
  · intro j hj
    rw [Array.getElem?_setIfInBounds_ne (by omega), h.below j hj]
  · intro j w hw
    by_cases hj : j < values.length
    · rw [List.getElem?_append_left hj] at hw
      rw [Array.getElem?_setIfInBounds_ne (by omega), h.above j w hw]
    · have hlast : j = values.length := by
        have hlt := (List.getElem?_eq_some_iff.mp hw).1
        rw [List.length_append, List.length_singleton] at hlt
        omega
      subst hlast
      rw [Array.getElem?_setIfInBounds_self_of_lt hroom]
      simpa using hw

theorem nulls (h : StackHolds lower slot values stack) (count : Nat)
    (hroom : slot + values.length + count ≤ stack.size) :
    StackHolds lower slot (values ++ List.replicate count .null)
      (Machine.nullFrom stack (slot + values.length) count) := by
  induction count generalizing values stack with
  | zero => simpa [Machine.nullFrom] using h
  | succ count ih =>
      have hnull := h.push .null (by omega)
      have hrest := ih hnull (by
        rw [List.length_append, List.length_singleton, Array.size_setIfInBounds]
        omega)
      rw [List.append_assoc, List.length_append, List.length_singleton] at hrest
      exact hrest

end StackHolds

/-- What a call has to leave as it is: the calls outside it, the stack below the slot of the callee
and what was printed before. -/
structure Caller where
  /-- The slot of the callee. -/
  slot : Nat
  frames : List Frame
  stack : Array Value
  output : String

/-- The slots of open calls lie above that of the callee, and those of the outermost one next to
it. -/
def Nested : List Frame → Prop
  | [] => True
  | [f] => f.base = 1
  | f :: g :: fs => 1 ≤ f.base ∧ Nested (g :: fs)

namespace Nested

variable {f : Frame} {fs : List Frame}

theorem base_pos (h : Nested (f :: fs)) : 1 ≤ f.base := by
  cases fs with
  | nil => exact Nat.le_of_eq h.symm
  | cons g fs => exact h.1

theorem tail (h : Nested (f :: fs)) : Nested fs := by
  cases fs with
  | nil => trivial
  | cons g fs => exact h.2

theorem goTo (h : Nested (f :: fs)) (ip : Nat) : Nested (f.goTo ip :: fs) := by
  cases fs with
  | nil => exact h
  | cons g fs => exact h

end Nested

/-- The machine is at a state of a call, under a caller. -/
structure Caller.Embeds (x : Caller) (k : CallState) (m : Machine) : Prop where
  frames : m.frames = k.frames.map (Frame.shift x.slot) ++ x.frames
  nested : Nested k.frames
  sp : m.sp = x.slot + k.values.length
  sp_le : m.sp ≤ m.stack.size
  stack : StackHolds x.stack x.slot k.values m.stack
  constants : m.constants = k.constants
  globals : m.globals = k.globals
  heap : m.heap = k.heap
  output : m.output = x.output ++ k.printed

namespace Machine.Top

variable {m : Machine} {below : Nat} {args args' : List Value}

theorem drop {n : Nat} (h : m.Top below args) (hn : n ≤ args.length) :
    m.Top (below + n) (args.drop n) := by
  refine ⟨?_, h.le, fun j v hv => ?_⟩
  · rw [h.sp, List.length_drop]
    omega
  · rw [List.getElem?_drop] at hv
    rw [Nat.add_assoc]
    exact h.get _ v hv

/-- There is one way only to read values off the stack. -/
theorem eq (h : m.Top below args) (h' : m.Top below args') : args = args' := by
  have hsp := h.sp
  have hsp' := h'.sp
  refine List.ext_getElem (by omega) fun j hj hj' => ?_
  have hget := h.get j _ (List.getElem?_eq_getElem hj)
  rw [h'.get j _ (List.getElem?_eq_getElem hj')] at hget
  exact (Option.some.inj hget).symm

theorem getElem?_eq {j : Nat} (h : m.Top below args) (hj : j < args.length) :
    m.stack[below + j]? = args[j]? := by
  rw [List.getElem?_eq_getElem hj]
  exact h.get j _ (List.getElem?_eq_getElem hj)

end Machine.Top

namespace Caller.Embeds

variable {x : Caller} {k : CallState} {m : Machine} {f : Frame} {fs : List Frame}

theorem top (hx : x.Embeds k m) : m.Top x.slot k.values :=
  ⟨hx.sp, hx.sp_le, hx.stack.above⟩

/-- An effect of the innermost call. -/
theorem perform (hx : x.Embeds k m) {below : Nat} {e : Effect} (hnested : Nested (f :: fs))
    (hbelow : below ≤ k.values.length)
    (hroom : e.value.isSome = true → x.slot + below < m.stack.size) :
    x.Embeds (k.perform f fs below e)
      (m.perform (f.shift x.slot) (fs.map (Frame.shift x.slot) ++ x.frames)
        (x.slot + below) e) where
  frames := rfl
  nested := hnested.goTo _
  sp := by
    change x.slot + below + _ = x.slot + (k.slotsAfter f.base below e ++ e.value.toList).length
    rw [List.length_append, k.length_slotsAfter hbelow, Option.length_toList]
    cases e.value <;> rfl
  sp_le := by
    have hle := hx.sp_le
    have hsp := hx.sp
    change _ ≤ (m.stackAfter _ _ e).size
    rw [Machine.size_stackAfter]
    change x.slot + below + (if e.value.isSome then 1 else 0) ≤ m.stack.size
    split
    · rename_i hsome
      exact hroom hsome
    · omega
  stack := by
    have hlength := k.length_slotsAfter hbelow f.base e
    have hslots : StackHolds x.stack x.slot (k.slotsAfter f.base below e)
        (m.slotsAfter (x.slot + f.base) e) := by
      unfold CallState.slotsAfter Machine.slotsAfter
      cases e.written with
      | none => exact hx.stack.take below
      | some written =>
          simp only [Nat.add_assoc]
          exact (hx.stack.take below).set _ _
    change StackHolds _ _ (k.slotsAfter f.base below e ++ e.value.toList)
      (m.stackAfter (x.slot + f.base) (x.slot + below) e)
    unfold Machine.stackAfter
    cases hvalue : e.value with
    | none => simpa using hslots
    | some v =>
        have hsize : (m.slotsAfter (x.slot + f.base) e).size = m.stack.size := by
          unfold Machine.slotsAfter
          split <;> simp
        have hpush := hslots.push v (by rw [hlength, hsize]; exact hroom (by simp [hvalue]))
        rwa [hlength] at hpush
  constants := hx.constants
  globals := rfl
  heap := rfl
  output := by
    change m.output ++ e.printed = x.output ++ (k.printed ++ e.printed)
    rw [hx.output, String.append_assoc]

/-- Opening a call. -/
theorem enter (hx : x.Embeds k m) {address argc : Nat}
    (hnested : Nested
      ({ routine := .closure address, ip := 0, base := k.values.length - argc } :: fs))
    (hargc : argc < k.values.length)
    (hlocals : argc ≤ (k.heap.closure address).function.locals)
    (hroom : m.sp - argc + (k.heap.closure address).function.locals ≤ m.stack.size) :
    x.Embeds (k.enter fs address argc)
      ({ m with frames := fs.map (Frame.shift x.slot) ++ x.frames }.enter address (m.sp - argc)
        (k.heap.closure address).function.locals) := by
  have hsp := hx.sp
  have hbase : m.sp - argc = x.slot + (k.values.length - argc) := by omega
  have hcount : m.sp - argc + (k.heap.closure address).function.locals - m.sp =
      (k.heap.closure address).function.locals - argc := by omega
  refine ⟨?_, hnested, ?_, ?_, ?_, hx.constants, hx.globals, hx.heap, hx.output⟩
  · simp [Machine.enter, CallState.enter, Frame.shift, hbase]
  · simp only [Machine.enter, CallState.enter, List.length_append, List.length_replicate]
    omega
  · change _ ≤ (Machine.nullFrom _ _ _).size
    rw [Machine.size_nullFrom]
    exact hroom
  · change StackHolds _ _ _ (Machine.nullFrom m.stack m.sp
      (m.sp - argc + (k.heap.closure address).function.locals - m.sp))
    rw [hcount, hsp]
    exact hx.stack.nulls _ (by omega)

/-- Closing the innermost call. -/
theorem leave (hx : x.Embeds k m) (hnested : Nested (f :: fs)) (hbase : f.base ≤ k.values.length)
    (result : Value) :
    x.Embeds (k.leave f fs result)
      (m.leave (f.shift x.slot) (fs.map (Frame.shift x.slot) ++ x.frames) result) := by
  have hpos := hnested.base_pos
  have hsp := hx.sp
  have hle := hx.sp_le
  have hlength : (k.values.take (f.base - 1)).length = f.base - 1 := by simp; omega
  have hslot : x.slot + f.base - 1 = x.slot + (f.base - 1) := by omega
  refine ⟨rfl, hnested.tail, ?_, ?_, ?_, hx.constants, hx.globals, hx.heap, hx.output⟩
  · change x.slot + f.base = x.slot + (k.values.take (f.base - 1) ++ [result]).length
    rw [List.length_append, hlength, List.length_singleton]
    omega
  · change x.slot + f.base ≤ (m.stack.setIfInBounds _ _).size
    rw [Array.size_setIfInBounds]
    omega
  · have hpush := (hx.stack.take (f.base - 1)).push result (by omega)
    rw [hlength, ← hslot] at hpush
    exact hpush

/-- The instruction that the innermost call is about to run, seen from the state of the call. -/
theorem ready {main : Code} (hx : x.Embeds k m) (hm : m.Sound main) (hframes : k.frames = f :: fs) :
    ∃ c r i h, m.Ready main (f.shift x.slot) (fs.map (Frame.shift x.slot) ++ x.frames) c r i h
      (k.values.drop (k.values.length - i.taken)) := by
  have hpos : 1 ≤ f.base := Nested.base_pos (hframes ▸ hx.nested)
  have hmframes : m.frames = f.shift x.slot :: (fs.map (Frame.shift x.slot) ++ x.frames) := by
    rw [hx.frames, hframes, List.map_cons, List.cons_append]
  rcases hm.ready with ⟨-, g, hg, -, hbase, -⟩ | ⟨g, gs, c, r, i, h, args, hr⟩
  · rw [hmframes] at hg
    obtain ⟨rfl, -⟩ := List.cons.inj hg
    have hshift : x.slot + f.base = 0 := hbase
    omega
  · have hg := hr.frames
    rw [hmframes] at hg
    obtain ⟨rfl, rfl⟩ := List.cons.inj hg
    have hslots := hr.slots_le
    have hbase : (f.shift x.slot).base = x.slot + f.base := rfl
    have hsp := hx.sp
    have hbelow : m.sp - i.taken = x.slot + (k.values.length - i.taken) := by omega
    have htop := hr.top
    rw [hbelow] at htop
    have hargs : k.values.drop (k.values.length - i.taken) = args :=
      (hx.top.drop (by omega)).eq htop
    subst hargs
    exact ⟨c, r, i, h, hr⟩

section

variable {main : Code} {c : Closure} {r : Room} {i : Instruction} {h : Nat}

/-- What the instruction does can be told from the state of the call. -/
theorem effect_eq (hx : x.Embeds k m) (hm : m.Sound main) {args : List Value}
    (hr : m.Ready main (f.shift x.slot) fs c r i h args) :
    i.effect (m.view (f.shift x.slot)) args = i.effect (k.view f) args := by
  have hview : m.view (f.shift x.slot) =
      { k.view f with slot := (m.view (f.shift x.slot)).slot } := by
    simp only [Machine.view, Machine.closureOf, CallState.view, hx.constants, hx.globals, hx.heap,
      hm.mainAddress]
    rfl
  rw [hview]
  refine Instruction.effect_congr fun hop => ?_
  have hlt := hr.operand_lt (.inl hop)
  have hslots := hr.slots_le
  have hbase : (f.shift x.slot).base = x.slot + f.base := rfl
  have hsp := hx.sp
  change m.stack[x.slot + f.base + i.operand 0]? = k.values[f.base + i.operand 0]?
  rw [Nat.add_assoc]
  exact hx.top.getElem?_eq (by omega)

end

end Caller.Embeds

/-! ## Steps -/

/-- The machine found no room for a value or for a call. -/
def Stop.isOverflow : Stop RuntimeError → Bool
  | .error .stackOverflow | .error (.frameOverflow _) => true
  | _ => false

/-- What a stopped call leaves of the store and the output. -/
structure Caller.Leaves (x : Caller) (k : CallState) (m : Machine) : Prop where
  globals : m.globals = k.globals
  heap : m.heap = k.heap
  output : m.output = x.output ++ k.printed

/-- The next step of the machine leads to a state of the call or stops for a reason, unless there is
no room. -/
def Caller.Follows (x : Caller) (k : CallState) (m : Machine)
    (result : Except (Stop RuntimeError) CallState) : Prop :=
  (∃ cause m', m.run 1 = .stopped cause m' ∧ cause.isOverflow = true) ∨
    match result with
    | .ok k' => ∃ m', m.run 1 = .unfinished m' ∧ x.Embeds k' m'
    | .error cause => ∃ m', m.run 1 = .stopped cause m' ∧ x.Leaves k m'

namespace Caller.Follows

variable {x : Caller} {k : CallState} {m m' : Machine}
  {result : Except (Stop RuntimeError) CallState}

theorem of_unfinished (h : x.Follows k m result) (hrun : m.run 1 = .unfinished m') :
    ∃ k', result = .ok k' ∧ x.Embeds k' m' := by
  unfold Follows at h
  rw [hrun] at h
  rcases h with ⟨_, _, hstopped, -⟩ | h
  · cases hstopped
  · cases result with
    | ok k' =>
        obtain ⟨_, hunfinished, hx⟩ := h
        cases hunfinished
        exact ⟨k', rfl, hx⟩
    | error cause =>
        obtain ⟨_, hstopped, -⟩ := h
        cases hstopped

theorem of_stopped {cause : Stop RuntimeError} (h : x.Follows k m result)
    (hrun : m.run 1 = .stopped cause m') :
    cause.isOverflow = true ∨ (result = .error cause ∧ x.Leaves k m') := by
  unfold Follows at h
  rw [hrun] at h
  rcases h with ⟨_, _, hstopped, hoverflow⟩ | h
  · cases hstopped
    exact .inl hoverflow
  · cases result with
    | ok k' =>
        obtain ⟨_, hunfinished, -⟩ := h
        cases hunfinished
    | error cause =>
        obtain ⟨_, hstopped, hleaves⟩ := h
        cases hstopped
        exact .inr ⟨rfl, hleaves⟩

end Caller.Follows

namespace Caller.Embeds

variable {x : Caller} {k : CallState} {m : Machine} {f : Frame} {fs : List Frame} {main : Code}
  {c : Closure} {r : Room} {i : Instruction} {h : Nat}

theorem follows_stays (hx : x.Embeds k m) (hm : m.Sound main) (hframes : k.frames = f :: fs)
    (hr : m.Ready main (f.shift x.slot) (fs.map (Frame.shift x.slot) ++ x.frames) c r i h
      (k.values.drop (k.values.length - i.taken)))
    (hstays : i.StaysIn (k.values.drop (k.values.length - i.taken))) :
    x.Follows k m (k.execute f fs i) := by
  have hnested : Nested (f :: fs) := hframes ▸ hx.nested
  have hslots := hr.slots_le
  have hsp := hx.sp
  have hbase : (f.shift x.slot).base = x.slot + f.base := rfl
  have hpos := hnested.base_pos
  have hbelow : m.sp - i.taken = x.slot + (k.values.length - i.taken) := by omega
  obtain ⟨byte, hbyte, hstep⟩ := hr.step_stays hx.sp_le hstays
  rw [hx.effect_eq hm hr, hbelow] at hstep
  rw [CallState.execute_stays hstays]
  cases hresult : Exec.step byte m with
  | ok _ m' =>
      obtain ⟨e, he, hroom, rfl⟩ := hstep.ok hresult
      rw [he]
      refine .inr ⟨_, Machine.run_one_ok hbyte hresult, ?_⟩
      exact hx.perform (hnested.goTo _) (Nat.sub_le _ _) hroom
  | error cause m' =>
      have hrun := Machine.run_one_error hbyte hresult
      cases hstep.error hresult with
      | refused heffect hglobals hheap houtput =>
          rw [heffect]
          exact .inr ⟨m', hrun, hglobals.trans hx.globals, hheap.trans hx.heap,
            houtput.trans hx.output⟩
      | full => exact .inl ⟨_, m', hrun, rfl⟩

theorem follows_return (hx : x.Embeds k m) (hframes : k.frames = f :: fs)
    (hr : m.Ready main (f.shift x.slot) (fs.map (Frame.shift x.slot) ++ x.frames) c r i h
      (k.values.drop (k.values.length - i.taken)))
    (hop : i.opcode = .returnValue ∨ i.opcode = .returnNull) :
    x.Follows k m (k.execute f fs i) := by
  have hslots := hr.slots_le
  have hsp := hx.sp
  have hbase : (f.shift x.slot).base = x.slot + f.base := rfl
  obtain ⟨byte, hbyte, hstep⟩ := hr.step_return hx.sp_le hop
  rw [CallState.execute_return hop]
  refine .inr ⟨_, Machine.run_one_ok hbyte hstep, ?_⟩
  exact hx.leave (hframes ▸ hx.nested) (by omega) _

theorem follows_call (hx : x.Embeds k m) (hm : m.Sound main) (hframes : k.frames = f :: fs)
    {a : Nat} {vs : List Value}
    (hr : m.Ready main (f.shift x.slot) (fs.map (Frame.shift x.slot) ++ x.frames) c r i h
      (.closure a :: vs))
    (hargs : k.values.drop (k.values.length - i.taken) = .closure a :: vs)
    (hop : i.opcode = .call) : x.Follows k m (k.execute f fs i) := by
  have hnested : Nested (f :: fs) := hframes ▸ hx.nested
  have hargc : vs.length < k.values.length := by
    have hlength := congrArg List.length hargs
    rw [List.length_drop, List.length_cons] at hlength
    omega
  obtain ⟨byte, callee, hbyte, hcallee, hsafe, hstep⟩ := hm.step_closure hr hop
  have hclosure : k.heap.closure a = callee := by
    rw [← hx.heap]
    simp [Heap.closure, hcallee]
  rw [CallState.execute_call hop hargs, hclosure]
  cases hresult : Exec.step byte m with
  | ok _ m' =>
      obtain ⟨hcount, hroom, rfl⟩ := hstep.ok hresult
      have hlocals := hsafe.parameters_le
      rw [if_pos hcount]
      refine .inr ⟨_, Machine.run_one_ok hbyte hresult, ?_⟩
      rw [← hclosure] at hlocals hroom hcount ⊢
      exact hx.enter ⟨Nat.le_sub_of_add_le (by omega), hnested.goTo _⟩ hargc (by omega) hroom
  | error cause m' =>
      have hrun := Machine.run_one_error hbyte hresult
      obtain ⟨rfl, ⟨hcount, rfl⟩ | rfl | rfl⟩ := hstep.error hresult
      · rw [if_neg hcount]
        exact .inr ⟨_, hrun, hx.globals, hx.heap, hx.output⟩
      · exact .inl ⟨_, _, hrun, rfl⟩
      · exact .inl ⟨_, _, hrun, rfl⟩

/-- A machine makes the next step of its call and leaves the caller as it is. -/
theorem step (hx : x.Embeds k m) (hm : m.Sound main) (hopen : k.frames ≠ []) :
    x.Follows k m k.next := by
  obtain ⟨f, fs, hframes⟩ := List.exists_cons_of_ne_nil hopen
  obtain ⟨c, r, i, h, hr⟩ := hx.ready hm hframes
  have hdecode : (f.routine.closureIn k.heap).function.code.decode f.ip = .ok i := by
    rw [← hx.heap]
    exact hr.decode
  rw [CallState.next_eq hframes hdecode]
  by_cases hstays : i.StaysIn (k.values.drop (k.values.length - i.taken))
  · exact hx.follows_stays hm hframes hr hstays
  · rcases Instruction.not_staysIn hstays with hop | ⟨hop, a, vs, hargs⟩
    · exact hx.follows_return hframes hr hop
    · exact hx.follows_call hm hframes (hargs ▸ hr) hargs hop

end Caller.Embeds

/-! ## Runs -/

/-- The value that the next instruction returns, if it is a return. -/
def Machine.returning? (m : Machine) : Option Value :=
  match m.frames with
  | [] => none
  | f :: _ =>
      match (m.codeOf f).decode f.ip with
      | .ok ⟨.returnValue, _⟩ => m.stack[m.sp - 1]?
      | .ok ⟨.returnNull, _⟩ => some .null
      | _ => none

/-- How a call ends: with the value that is returned, or for a reason to stop. -/
abbrev CallResult := Except (Stop RuntimeError) (Option Value)

/-- The run of a machine until, after its first step, no more than `depth` calls are open: what is
returned then and the machine at this point, or the reason why it stops before. -/
inductive Machine.RunsCall (depth : Nat) : Machine → CallResult → Machine → Prop
  | returns {m m' : Machine} (run : m.run 1 = .unfinished m') (closed : m'.frames.length ≤ depth) :
      RunsCall depth m (.ok m.returning?) m'
  | stops {m m' : Machine} {cause : Stop RuntimeError} (run : m.run 1 = .stopped cause m') :
      RunsCall depth m (.error cause) m'
  | goesOn {m m₁ m' : Machine} {result : CallResult} (run : m.run 1 = .unfinished m₁)
      (inside : depth < m₁.frames.length) (rest : RunsCall depth m₁ result m') :
      RunsCall depth m result m'

theorem Machine.Sound.run_one {main : Code} {m m' : Machine} (hm : m.Sound main)
    (hrun : m.run 1 = .unfinished m') : m'.Sound main := by
  have hends := hm.run 1
  rw [hrun] at hends
  exact hends.1

/-- A call ends in one way only. -/
theorem Machine.RunsCall.unique {depth : Nat} {m m₁ m₂ : Machine} {result₁ result₂ : CallResult}
    (h₁ : m.RunsCall depth result₁ m₁) (h₂ : m.RunsCall depth result₂ m₂) :
    result₁ = result₂ ∧ m₁ = m₂ := by
  induction h₁ with
  | returns run closed =>
      cases h₂ with
      | returns run' _ =>
          rw [run] at run'
          cases run'
          exact ⟨rfl, rfl⟩
      | stops run' =>
          rw [run] at run'
          cases run'
      | goesOn run' inside _ =>
          rw [run] at run'
          cases run'
          omega
  | stops run =>
      cases h₂ with
      | returns run' _ | goesOn run' _ _ =>
          rw [run] at run'
          cases run'
      | stops run' =>
          rw [run] at run'
          cases run'
          exact ⟨rfl, rfl⟩
  | goesOn run inside _ ih =>
      cases h₂ with
      | returns run' closed =>
          rw [run] at run'
          cases run'
          omega
      | stops run' =>
          rw [run] at run'
          cases run'
      | goesOn run' _ rest =>
          rw [run] at run'
          cases run'
          exact ih rest

/-- The run of a call without a caller. -/
inductive CallState.RunsTo : CallState → CallResult → CallState → Prop
  | returns {k k' : CallState} {v : Value} (next : k.next = .ok k') (closed : k'.frames = [])
      (value : k'.values = [v]) : RunsTo k (.ok (some v)) k'
  | stops {k : CallState} {cause : Stop RuntimeError} (next : k.next = .error cause) :
      RunsTo k (.error cause) k
  | goesOn {k k₁ k' : CallState} {result : CallResult} (next : k.next = .ok k₁)
      (inside : k₁.frames ≠ []) (rest : RunsTo k₁ result k') : RunsTo k result k'

/-- The machine after a call that came to its end, or what is left after one that stopped. -/
structure Caller.Ends (x : Caller) (k : CallState) (result : CallResult) (m : Machine) : Prop where
  leaves : x.Leaves k m
  returned : ∀ value?, result = .ok value? →
    ∃ v, value? = some v ∧ x.Embeds k m ∧ k.frames = [] ∧ k.values = [v]

theorem Caller.Ends.of_returned {x : Caller} {k : CallState} {m : Machine} {v : Value}
    (hx : x.Embeds k m) (hclosed : k.frames = []) (hvalues : k.values = [v]) :
    x.Ends k (.ok (some v)) m where
  leaves := ⟨hx.globals, hx.heap, hx.output⟩
  returned value? hvalue := by
    cases hvalue
    exact ⟨v, rfl, hx, hclosed, hvalues⟩

/-- The call stopped as the machine found no room for a value or for a call. -/
def CallResult.Overflowed (result : CallResult) : Prop :=
  ∃ cause, result = .error cause ∧ cause.isOverflow = true

theorem CallResult.not_overflowed_ok (value? : Option Value) : ¬Overflowed (.ok value?) := by
  rintro ⟨cause, hresult, -⟩
  cases hresult

namespace Caller.Embeds

variable {x : Caller} {k k' : CallState} {m m' : Machine} {main : Code}
  {result : CallResult}

theorem length_frames (hx : x.Embeds k m) :
    m.frames.length = k.frames.length + x.frames.length := by
  rw [hx.frames, List.length_append, List.length_map]

/-- The step that closes the call in question is a return, and the value that it returns is all that
is left on the stack. -/
theorem closes (hx : x.Embeds k m) (hm : m.Sound main) (hopen : k.frames ≠ [])
    (hnext : k.next = .ok k') (hclosed : k'.frames = []) :
    ∃ v, m.returning? = some v ∧ k'.values = [v] := by
  obtain ⟨f, fs, hframes⟩ := List.exists_cons_of_ne_nil hopen
  obtain ⟨c, r, i, h, hr⟩ := hx.ready hm hframes
  have hdecode : (f.routine.closureIn k.heap).function.code.decode f.ip = .ok i := by
    rw [← hx.heap]
    exact hr.decode
  rw [CallState.next_eq hframes hdecode] at hnext
  obtain ⟨hop, rfl, rfl⟩ := CallState.execute_closes hnext hclosed
  have hbase : f.base = 1 := by
    have hnested := hx.nested
    rw [hframes] at hnested
    exact hnested
  refine ⟨(k.values.drop (k.values.length - i.taken)).headD .null, ?_, ?_⟩
  · have hmdecode := hr.decode
    have htop := hr.top
    have hlength := hr.length
    generalize k.values.drop (k.values.length - i.taken) = args at htop hlength ⊢
    obtain ⟨op, ns⟩ := i
    rcases hop with rfl | rfl
    · obtain ⟨v, rfl⟩ := List.length_eq_one_iff.mp hlength
      simp only [Machine.returning?, hr.frames, hmdecode]
      exact htop.head
    · obtain rfl := List.length_eq_zero_iff.mp hlength
      simp only [Machine.returning?, hr.frames, hmdecode]
      rfl
  · simp [CallState.leave, hbase]

/-- The run of a machine in a call is a run of the call without its caller, unless there is no
room. -/
theorem runsTo (hrun : m.RunsCall x.frames.length result m') (hx : x.Embeds k m)
    (hm : m.Sound main) (hopen : k.frames ≠ []) :
    result.Overflowed ∨ ∃ k', k.RunsTo result k' ∧ x.Ends k' result m' := by
  induction hrun generalizing k with
  | returns run closed =>
      obtain ⟨k', hnext, hx'⟩ := (hx.step hm hopen).of_unfinished run
      have hlength := hx'.length_frames
      have hclosed : k'.frames = [] := List.length_eq_zero_iff.mp (by omega)
      obtain ⟨v, hv, hvalues⟩ := hx.closes hm hopen hnext hclosed
      rw [hv]
      exact .inr ⟨k', .returns hnext hclosed hvalues, .of_returned hx' hclosed hvalues⟩
  | stops run =>
      rcases (hx.step hm hopen).of_stopped run with hoverflow | ⟨hnext, hleaves⟩
      · exact .inl ⟨_, rfl, hoverflow⟩
      · exact .inr ⟨k, .stops hnext, hleaves, nofun⟩
  | goesOn run inside _ ih =>
      obtain ⟨k₁, hnext, hx₁⟩ := (hx.step hm hopen).of_unfinished run
      have hlength := hx₁.length_frames
      have hinside : k₁.frames ≠ [] := List.ne_nil_of_length_pos (by omega)
      rcases ih hx₁ (hm.run_one run) hinside with hoverflow | ⟨k', hrest, hends⟩
      · exact .inl hoverflow
      · exact .inr ⟨k', .goesOn hnext hinside hrest, hends⟩

/-- A machine follows the run of a call, unless there is no room. -/
theorem runsCall (hrun : k.RunsTo result k') (hx : x.Embeds k m) (hm : m.Sound main)
    (hopen : k.frames ≠ []) :
    ∃ result' m', m.RunsCall x.frames.length result' m' ∧
      (result'.Overflowed ∨ result' = result ∧ x.Ends k' result m') := by
  induction hrun generalizing m with
  | @returns k k' v next closed value =>
      rcases next ▸ hx.step hm hopen with ⟨cause, m', hstop, hoverflow⟩ | ⟨m', hrun, hx'⟩
      · exact ⟨_, m', .stops hstop, .inl ⟨cause, rfl, hoverflow⟩⟩
      · obtain ⟨w, hw, hvalues⟩ := hx.closes hm hopen next closed
        obtain rfl : v = w := by simpa [value] using hvalues
        have hlength := hx'.length_frames
        rw [closed, List.length_nil, Nat.zero_add] at hlength
        exact ⟨_, m', .returns hrun (Nat.le_of_eq hlength),
          .inr ⟨congrArg Except.ok hw, .of_returned hx' closed value⟩⟩
  | stops next =>
      rcases next ▸ hx.step hm hopen with ⟨cause, m', hstop, hoverflow⟩ | ⟨m', hstop, hleaves⟩
      · exact ⟨_, m', .stops hstop, .inl ⟨cause, rfl, hoverflow⟩⟩
      · exact ⟨_, m', .stops hstop, .inr ⟨rfl, hleaves, nofun⟩⟩
  | goesOn next inside _ ih =>
      rcases next ▸ hx.step hm hopen with ⟨cause, m', hstop, hoverflow⟩ | ⟨m₁, hrun, hx₁⟩
      · exact ⟨_, m', .stops hstop, .inl ⟨cause, rfl, hoverflow⟩⟩
      · obtain ⟨result', m', hrest, hends⟩ := ih hx₁ (hm.run_one hrun) inside
        have hlength := hx₁.length_frames
        have hpos := List.length_pos_of_ne_nil inside
        exact ⟨result', m', .goesOn hrun (by omega) hrest, hends⟩

end Caller.Embeds

/-! ## Calls from their instruction on -/

/-- The innermost call is about to call the closure at an address with as many arguments as it has
parameters.  The callee is in the given slot and the arguments are above it. -/
structure Machine.AtCall (m : Machine) (f : Frame) (fs : List Frame) (slot address : Nat)
    (args : List Value) : Prop where
  frames : m.frames = f :: fs
  decode : (m.codeOf f).decode f.ip = .ok ⟨.call, [args.length]⟩
  top : m.Top slot (.closure address :: args)
  count : (m.heap.closure address).function.parameters = args.length

/-- The caller of a call that is about to be opened. -/
def Machine.caller (m : Machine) (f : Frame) (fs : List Frame) (slot : Nat) : Caller :=
  { slot, frames := f.goTo (f.ip + 2) :: fs, stack := m.stack, output := m.output }

/-- The state in which a call begins.  It depends on the store, the callee and the arguments
only. -/
def CallState.start (constants : Array Value) (globals : Globals) (heap : Heap) (address : Nat)
    (args : List Value) : CallState :=
  CallState.enter
    { frames := [], values := .closure address :: args, constants, globals, heap, printed := "" }
    [] address args.length

namespace Machine.AtCall

variable {m m' : Machine} {f : Frame} {fs : List Frame} {slot address : Nat} {main : Code}
  {args : List Value} {result : CallResult}

theorem ready (hcall : m.AtCall f fs slot address args) (hm : m.Sound main) :
    ∃ c r h, m.Ready main f fs c r ⟨.call, [args.length]⟩ h (.closure address :: args) := by
  rcases hm.ready with ⟨hsp, -⟩ | ⟨g, gs, c, r, i, h, values, hr⟩
  · have hpos := hcall.top.sp
    rw [hsp, List.length_cons] at hpos
    omega
  · have hframes := hr.frames
    rw [hcall.frames] at hframes
    obtain ⟨rfl, rfl⟩ := List.cons.inj hframes
    have hdecode := hr.decode
    rw [hcall.decode] at hdecode
    obtain rfl := Except.ok.inj hdecode
    have hslot : m.sp - (args.length + 1) = slot := by
      have hsp := hcall.top.sp
      rw [List.length_cons] at hsp
      omega
    have htop : m.Top slot values := hslot ▸ hr.top
    obtain rfl := htop.eq hcall.top
    exact ⟨c, r, h, hr⟩

/-- The first step opens the call, unless there is no room for it. -/
theorem opens (hcall : m.AtCall f fs slot address args) (hm : m.Sound main) :
    (∃ cause m', m.run 1 = .stopped cause m' ∧ cause.isOverflow = true) ∨
      ∃ m₁, m.run 1 = .unfinished m₁ ∧
        (m.caller f fs slot).Embeds (.start m.constants m.globals m.heap address args) m₁ := by
  obtain ⟨c, r, h, hr⟩ := hcall.ready hm
  obtain ⟨byte, callee, hbyte, hcallee, hsafe, hstep⟩ := hm.step_closure hr rfl
  have hclosure : m.heap.closure address = callee := by simp [Heap.closure, hcallee]
  cases hresult : Exec.step byte m with
  | ok _ m₁ =>
      obtain ⟨hcount, hroom, rfl⟩ := hstep.ok hresult
      refine .inr ⟨_, Machine.run_one_ok hbyte hresult, ?_⟩
      have hlocals := hsafe.parameters_le
      rw [← hcount, ← hclosure] at hlocals
      rw [← hclosure] at hroom ⊢
      -- before the step no call is open inside the caller
      have hbefore : (m.caller f fs slot).Embeds
          { frames := [], values := .closure address :: args, constants := m.constants,
            globals := m.globals, heap := m.heap, printed := "" }
          { m with frames := f.goTo (f.ip + 2) :: fs } :=
        ⟨rfl, trivial, hcall.top.sp, hcall.top.le, ⟨fun _ _ => rfl, hcall.top.get⟩, rfl, rfl, rfl,
          (String.append_empty).symm⟩
      exact hbefore.enter (Nat.add_sub_cancel_left _ _) (Nat.lt_succ_self _) hlocals hroom
  | error cause m₁ =>
      have hrun := Machine.run_one_error hbyte hresult
      obtain ⟨-, ⟨hcount, -⟩ | rfl | rfl⟩ := hstep.error hresult
      · exact absurd (hcall.count.symm.trans (by rw [hclosure])) hcount
      · exact .inl ⟨_, m₁, hrun, rfl⟩
      · exact .inl ⟨_, m₁, hrun, rfl⟩

theorem length_frames (hcall : m.AtCall f fs slot address args) :
    m.frames.length = (m.caller f fs slot).frames.length := by
  rw [hcall.frames]
  rfl

theorem length_lt (hcall : m.AtCall f fs slot address args)
    (hx : (m.caller f fs slot).Embeds (.start m.constants m.globals m.heap address args) m') :
    m.frames.length < m'.frames.length := by
  rw [hx.length_frames, ← hcall.length_frames]
  exact Nat.lt_add_of_pos_left Nat.one_pos

/-- How a call ends can be told from the state in which it begins. -/
theorem runsTo (hcall : m.AtCall f fs slot address args) (hm : m.Sound main)
    (hrun : m.RunsCall m.frames.length result m') :
    result.Overflowed ∨
      ∃ k, (CallState.start m.constants m.globals m.heap address args).RunsTo result k ∧
        (m.caller f fs slot).Ends k result m' := by
  rcases hcall.opens hm with ⟨cause, m₁, hstop, hoverflow⟩ | ⟨m₁, hopen, hx⟩
  · cases hrun with
    | returns run _ | goesOn run _ _ =>
        rw [hstop] at run
        cases run
    | stops run =>
        rw [hstop] at run
        cases run
        exact .inl ⟨cause, rfl, hoverflow⟩
  · have hinside := hcall.length_lt hx
    cases hrun with
    | returns run closed =>
        rw [hopen] at run
        cases run
        omega
    | stops run =>
        rw [hopen] at run
        cases run
    | goesOn run _ rest =>
        rw [hopen] at run
        cases run
        rw [hcall.length_frames] at rest
        exact hx.runsTo rest (hm.run_one hopen) (List.cons_ne_nil _ _)

/-- A call follows the run from the state in which it begins, unless there is no room. -/
theorem runsCall (hcall : m.AtCall f fs slot address args) (hm : m.Sound main) {k : CallState}
    (hrun : (CallState.start m.constants m.globals m.heap address args).RunsTo result k) :
    ∃ result' m', m.RunsCall m.frames.length result' m' ∧
      (result'.Overflowed ∨ result' = result ∧ (m.caller f fs slot).Ends k result m') := by
  rcases hcall.opens hm with ⟨cause, m₁, hstop, hoverflow⟩ | ⟨m₁, hopen, hx⟩
  · exact ⟨_, m₁, .stops hstop, .inl ⟨cause, rfl, hoverflow⟩⟩
  · obtain ⟨result', m', hrest, hends⟩ := hx.runsCall hrun (hm.run_one hopen) (List.cons_ne_nil _ _)
    rw [← hcall.length_frames] at hrest
    exact ⟨result', m', .goesOn hopen (hcall.length_lt hx) hrest, hends⟩

end Machine.AtCall

end ScriptEngine
