import ScriptEngine.Proofs.Machine.Capacity

/-!
# Limits only cut runs off

A machine with more room does what a machine with less room does, slot by slot, until the smaller
one runs out of room.  The larger machine is the smaller one `widened` by empty slots, and a
computation `Scales` if it commutes with widening, unless it is cut off: it meets a limit of the
smaller machine or reaches past its slots.  The limits are arbitrary here too, those included with
which no machine can be built (`Machine.load_eq_ok_iff`).
-/

namespace ScriptEngine

/-- Whether a machine stops because it has no room left, or because it reaches past the room that it
has. -/
def Stop.isCutOff : Stop RuntimeError → Bool
  | error .stackOverflow => true
  | error (.frameOverflow _) => true
  | error (.globalOutOfRange _ _) => true
  | error _ => false
  | crash c => c.isPanic

namespace Globals

/-- The store with further slots that hold null. -/
def widened (g : Globals) (count : Nat) : Globals :=
  ⟨g.slots ++ Array.replicate count .null⟩

theorem widened_ofSize (size count : Nat) :
    (ofSize size).widened count = ofSize (size + count) := by
  simp [widened, ofSize, Array.replicate_append_replicate]

theorem get_widened {g : Globals} {index : Nat} (count : Nat) (h : index < g.size) :
    (g.widened count).get index = g.get index := by
  simp only [get, widened, Array.getElem?_append_left (show index < g.slots.size from h),
    Array.getElem?_eq_getElem (show index < g.slots.size from h)]

theorem put_widened {g : Globals} {index : Nat} (count : Nat) (v : Value) (h : index < g.size) :
    (g.widened count).put index v = (g.put index v).widened count := by
  simp only [put, widened, Array.setIfInBounds_append_left (show index < g.slots.size from h)]

end Globals

namespace Machine

/-- The machine with further stack slots, calls and global slots. -/
def widened (m : Machine) (more : Limits) : Machine :=
  { m with
    stack := m.stack ++ Array.replicate more.stackSize .null
    maxFrames := m.maxFrames + more.maxFrames
    globals := m.globals.widened more.globalsSize }

/-- The slots that are there keep their values. -/
theorem stack_widened {m : Machine} (more : Limits) {k : Nat} {v : Value}
    (h : m.stack[k]? = some v) :
    (m.widened more).stack[k]? = some v := by
  rw [widened, Array.getElem?_append_left (Array.getElem?_eq_some_iff.mp h).1, h]

theorem size_stack_widened (m : Machine) (more : Limits) :
    m.stack.size ≤ (m.widened more).stack.size := by
  rw [widened, Array.size_append]
  exact Nat.le_add_right _ _

theorem extract_widened {m : Machine} (more : Limits) (start : Nat) {stop : Nat}
    (h : stop ≤ m.stack.size) :
    (m.widened more).stack.extract start stop = m.stack.extract start stop := by
  rw [widened, Array.extract_append, Nat.sub_eq_zero_of_le h]
  simp

end Machine

/-! ## Computations -/

/-- A computation does the same on a machine with more room, unless it is cut off. -/
def Scales {α : Type} (more : Limits) (x : Exec α) (m : Machine) : Prop :=
  Ends x m (fun a m' => x (m.widened more) = .ok a (m'.widened more)) fun stop m' =>
    stop.isCutOff = true ∨ x (m.widened more) = .error stop (m'.widened more)

namespace Scales

variable {α β : Type} {more : Limits} {m : Machine} {x : Exec α}

theorem of_ok {a : α} {m' : Machine} (h : x m = .ok a m')
    (hwidened : x (m.widened more) = .ok a (m'.widened more)) : Scales more x m :=
  Ends.of_ok h hwidened

theorem of_error {stop : Stop RuntimeError} {m' : Machine} (h : x m = .error stop m')
    (hwidened : x (m.widened more) = .error stop (m'.widened more)) : Scales more x m :=
  Ends.of_error h (.inr hwidened)

theorem of_cutOff {stop : Stop RuntimeError} {m' : Machine} (h : x m = .error stop m')
    (hstop : stop.isCutOff = true) : Scales more x m :=
  Ends.of_error h (.inl hstop)

theorem bind {k : α → Exec β} (hx : Scales more x m) (hk : ∀ a m', Scales more (k a) m') :
    Scales more (x >>= k) m := by
  cases hrun : x m with
  | ok a m' =>
      have hwidened := hx.ok hrun
      have hrest := hk a m'
      unfold Scales Ends at hrest ⊢
      simp only [Bind.bind, EStateM.bind, hrun, hwidened]
      exact hrest
  | error stop m' =>
      have hwidened := hx.error hrun
      unfold Scales Ends
      simp only [Bind.bind, EStateM.bind, hrun]
      exact hwidened.imp_right fun h => by rw [h]

/-- Reading the machine, where what follows does not depend on its room. -/
theorem get_bind {k : Machine → Exec α} (hsame : k (m.widened more) = k m)
    (hk : Scales more (k m) m) : Scales more (get >>= k) m := by
  have hget (m : Machine) : ((get : Exec Machine) >>= k) m = k m m := rfl
  unfold Scales Ends at hk ⊢
  rw [hget m, hget (m.widened more), hsame]
  exact hk

theorem pure (a : α) : Scales more (pure a) m :=
  of_ok rfl rfl

theorem fail (e : RuntimeError) : Scales more (Exec.fail e : Exec α) m :=
  of_error rfl rfl

theorem ofExcept (r : Except RuntimeError α) : Scales more (Exec.ofExcept r) m := by
  cases r with
  | ok a => exact of_ok rfl rfl
  | error e => exact of_error rfl rfl

theorem discard (hx : Scales more x m) : Scales more (discard x) m := by
  have hdiscard : (Functor.discard x : Exec PUnit) = x >>= fun _ => Pure.pure ⟨⟩ := rfl
  rw [hdiscard]
  exact bind hx fun _ _ => pure PUnit.unit

theorem push (v : Value) : Scales more (Exec.push v) m := by
  by_cases hroom : m.sp < m.stack.size
  · refine of_ok (if_pos hroom) ?_
    refine (if_pos (Nat.lt_of_lt_of_le hroom (m.size_stack_widened more))).trans ?_
    simp only [Machine.widened, Array.setIfInBounds_append_left hroom]
  · exact of_cutOff (if_neg hroom) rfl

theorem pop : Scales more Exec.pop m := by
  have hsp : (m.widened more).sp = m.sp := rfl
  by_cases hempty : m.sp = 0
  · exact of_error (if_pos hempty) (if_pos hempty)
  · cases hslot : m.stack[m.sp - 1]? with
    | none =>
        have hpop : Exec.pop m = .error (.crash .slotOutOfRange) { m with sp := m.sp - 1 } := by
          simp only [Exec.pop, hempty, if_false, hslot]
        exact of_cutOff hpop rfl
    | some v =>
        have hpop : Exec.pop m = .ok v { m with sp := m.sp - 1 } := by
          simp only [Exec.pop, hempty, if_false, hslot]
        refine of_ok hpop ?_
        simp only [Exec.pop, hsp, hempty, if_false, Machine.stack_widened more hslot]
        rfl

theorem takeTop (count : Nat) : Scales more (Exec.takeTop count) m := by
  have hsp : (m.widened more).sp = m.sp := rfl
  by_cases hfew : m.sp < count
  · exact of_error (if_pos hfew) (if_pos hfew)
  · by_cases hpast : m.stack.size < m.sp
    · exact of_cutOff ((if_neg hfew).trans (if_pos hpast)) rfl
    · refine of_ok ((if_neg hfew).trans (if_neg hpast)) ?_
      have hwide : ¬(m.widened more).stack.size < (m.widened more).sp := fun hlt =>
        hpast (Nat.lt_of_le_of_lt (m.size_stack_widened more) hlt)
      refine ((if_neg hfew).trans (if_neg hwide)).trans ?_
      rw [hsp, Machine.extract_widened more _ (Nat.le_of_not_lt hpast)]
      rfl

theorem frame : Scales more Exec.frame m := by
  cases hframes : m.frames with
  | nil =>
      have hframe : Exec.frame m = .error (.crash .noOpenCall) m := by
        simp only [Exec.frame, hframes]
      exact of_cutOff hframe rfl
  | cons f fs => exact of_ok (Exec.frame_eq hframes) (Exec.frame_eq hframes)

theorem modifyFrame (change : Frame → Frame) : Scales more (Exec.modifyFrame change) m := by
  cases hframes : m.frames with
  | nil =>
      have hframe : Exec.modifyFrame change m = .error (.crash .noOpenCall) m := by
        simp only [Exec.modifyFrame, hframes]
      exact of_cutOff hframe rfl
  | cons f fs =>
      have hwidened : (m.widened more).frames = f :: fs := hframes
      exact of_ok (Exec.modifyFrame_eq hframes change) (Exec.modifyFrame_eq hwidened change)

theorem constant (op : Opcode) (index : Nat) : Scales more (Exec.constant op index) m := by
  cases hv : m.constants[index]? with
  | some v =>
      exact of_ok (Machine.Performs.constant_some hv) (Machine.Performs.constant_some hv)
  | none =>
      exact of_error (Machine.Performs.constant_none hv) (Machine.Performs.constant_none hv)

theorem allocate (new : Heap → Value × Heap) : Scales more (Exec.allocate new) m :=
  of_ok rfl rfl

/-! ### Instructions -/

theorem fetchOperand (w : Width) : Scales more (Exec.fetchOperand w) m := by
  refine bind frame fun f m => get_bind rfl ?_
  cases (m.codeOf f).read f.ip w with
  | ok n => exact bind (modifyFrame _) fun _ _ => pure n
  | error e => exact fail _

theorem binary (op : Operation) : Scales more (Exec.binary op) m :=
  bind pop fun _ _ => bind pop fun _ _ => bind (ofExcept _) fun v _ => push v

theorem equality (expected : Bool) : Scales more (Exec.equality expected) m :=
  bind pop fun _ _ => bind pop fun _ _ => push _

theorem jumpNotTruthy (target : Nat) : Scales more (Exec.jumpNotTruthy target) m := by
  refine bind pop fun v m => ?_
  cases v.isTruthy with
  | true => exact pure ()
  | false => exact modifyFrame _

theorem setGlobal (index : Nat) : Scales more (Exec.setGlobal index) m := by
  refine bind pop fun v m => ?_
  by_cases hindex : index < m.globals.size
  · refine of_ok (if_pos hindex) ?_
    have hwide : index < (m.widened more).globals.size := by
      simp only [Machine.widened, Globals.widened, Globals.size, Array.size_append] at hindex ⊢
      omega
    refine (if_pos hwide).trans ?_
    simp only [Machine.widened, Globals.put_widened _ v hindex]
  · exact of_cutOff (if_neg hindex) rfl

theorem getGlobal (index : Nat) : Scales more (Exec.getGlobal index) m := by
  by_cases hindex : index < m.globals.size
  · refine get_bind ?_ (bind (ofExcept _) fun v _ => push v)
    have hget : (m.widened more).globals.get index = m.globals.get index :=
      Globals.get_widened _ hindex
    simp only [hget]
  · have hget : m.globals.get index = .error (.globalOutOfRange index m.globals.size) := by
      have hnone : m.globals.slots[index]? = none :=
        Array.getElem?_eq_none (Nat.le_of_not_lt hindex)
      simp only [Globals.get, hnone]
    have hrun : Exec.getGlobal index m =
        .error (.error (.globalOutOfRange index m.globals.size)) m := by
      change ((Exec.ofExcept (m.globals.get index)) >>= fun v => Exec.push v) m = _
      rw [hget]
      rfl
    exact of_cutOff hrun rfl

theorem setLocal (index : Nat) : Scales more (Exec.setLocal index) m := by
  refine bind frame fun f m => bind pop fun v m => ?_
  by_cases hslot : f.base + index < m.stack.size
  · refine of_ok (if_pos hslot) ?_
    refine (if_pos (Nat.lt_of_lt_of_le hslot (m.size_stack_widened more))).trans ?_
    simp only [Machine.widened, Array.setIfInBounds_append_left hslot]
  · exact of_cutOff (if_neg hslot) rfl

theorem getLocal (index : Nat) : Scales more (Exec.getLocal index) m := by
  refine bind frame fun f m => ?_
  cases hslot : m.stack[f.base + index]? with
  | some v =>
      refine get_bind ?_ ?_
      · simp only [hslot, Machine.stack_widened more hslot]
      · simp only [hslot]
        exact push v
  | none =>
      refine Ends.get_bind ?_
      simp only [hslot]
      exact Ends.of_throw (.inl rfl)

theorem getFree (index : Nat) : Scales more (Exec.getFree index) m := by
  refine bind frame fun f m => get_bind rfl ?_
  cases (m.closureOf f).captured[index]? with
  | some v => exact push v
  | none => exact fail _

theorem getBuiltin (index : Nat) : Scales more (Exec.getBuiltin index) m := by
  unfold Exec.getBuiltin
  cases Builtin.ofIndex? index with
  | some b => exact push _
  | none => exact fail _

theorem currentClosure : Scales more Exec.currentClosure m := by
  refine bind frame fun f m => get_bind rfl ?_
  cases f.routine with
  | closure address => exact push _
  | main code =>
      cases m.mainAddress with
      | some address => exact push _
      | none => exact bind (of_ok rfl rfl) fun _ _ => bind (allocate _) fun v _ => push v

theorem makeArray (count : Nat) : Scales more (Exec.makeArray count) m :=
  bind (takeTop count) fun _ _ => bind (allocate _) fun v _ => push v

theorem makeHash (count : Nat) : Scales more (Exec.makeHash count) m :=
  bind (takeTop count) fun _ _ => bind (ofExcept _) fun _ _ => bind (allocate _) fun v _ => push v

theorem getIndex : Scales more Exec.getIndex m :=
  bind pop fun _ _ => bind pop fun _ _ => get_bind rfl (bind (ofExcept _) fun v _ => push v)

theorem setIndex : Scales more Exec.setIndex m :=
  bind pop fun _ _ => bind pop fun _ _ => bind pop fun _ _ => get_bind rfl
    (bind (ofExcept _) fun _ _ => of_ok rfl rfl)

theorem makeClosure (index count : Nat) : Scales more (Exec.makeClosure index count) m := by
  refine bind (constant .closure index) fun v m => ?_
  cases v with
  | function f => exact bind (takeTop count) fun _ _ => bind (allocate _) fun v _ => push v
  | _ => exact fail _

theorem makeStruct (index count : Nat) : Scales more (Exec.makeStruct index count) m := by
  refine bind (constant .struct index) fun v m => ?_
  cases v with
  | structType t => exact bind (takeTop count) fun _ _ => bind (allocate _) fun v _ => push v
  | _ => exact fail _

theorem getField (index : Nat) : Scales more (Exec.getField index) m := by
  refine bind pop fun object m => get_bind rfl ?_
  cases object with
  | struct a =>
      simp only
      cases (m.heap.struct a).fields[index]? with
      | some v => exact push v
      | none => exact fail _
  | _ => exact fail _

theorem setField (index : Nat) : Scales more (Exec.setField index) m := by
  refine bind pop fun value _ => bind pop fun object m => get_bind rfl ?_
  cases object with
  | struct a =>
      by_cases hindex : index < (m.heap.struct a).fields.size
      · simp only [hindex, if_true]
        exact of_ok rfl rfl
      · simp only [hindex, if_false]
        exact fail _
  | _ => exact fail _

/-- Slots that are there are made null in the same way. -/
theorem nullFrom_append {stack : Array Value} (further : Array Value) {start count : Nat}
    (h : start + count ≤ stack.size) :
    Machine.nullFrom (stack ++ further) start count =
      Machine.nullFrom stack start count ++ further := by
  unfold Machine.nullFrom
  induction count generalizing stack start with
  | zero => rfl
  | succ count ih =>
      rw [List.range'_succ, List.foldl_cons, List.foldl_cons,
        Array.setIfInBounds_append_left (by omega)]
      exact ih (by rw [Array.size_setIfInBounds]; omega)

theorem callClosure (address argc : Nat) : Scales more (Exec.callClosure address argc) m := by
  by_cases hcount : argc ≠ (m.heap.closure address).function.parameters
  · exact of_error (if_pos hcount) (if_pos hcount)
  by_cases hdeep : m.maxFrames ≤ m.frames.length
  · exact of_cutOff ((if_neg hcount).trans (if_pos hdeep)) rfl
  by_cases hroom : m.stack.size < m.sp - argc + (m.heap.closure address).function.locals
  · exact of_cutOff ((if_neg hcount).trans ((if_neg hdeep).trans (if_pos hroom))) rfl
  by_cases hnarrow : m.sp - argc + (m.heap.closure address).function.locals < m.sp
  · exact of_cutOff ((if_neg hcount).trans ((if_neg hdeep).trans
      ((if_neg hroom).trans (if_pos hnarrow)))) rfl
  refine of_ok ((if_neg hcount).trans ((if_neg hdeep).trans
    ((if_neg hroom).trans (if_neg hnarrow)))) ?_
  have hdeep' : ¬m.maxFrames + more.maxFrames ≤ m.frames.length := by omega
  have hroom' : ¬(m.widened more).stack.size <
      m.sp - argc + (m.heap.closure address).function.locals := fun hlt =>
    hroom (Nat.lt_of_le_of_lt (m.size_stack_widened more) hlt)
  refine ((if_neg hcount).trans ((if_neg hdeep').trans
    ((if_neg hroom').trans (if_neg hnarrow)))).trans ?_
  have hslots : m.sp + (m.sp - argc + (m.heap.closure address).function.locals - m.sp) ≤
      m.stack.size := by omega
  have hnull := nullFrom_append (Array.replicate more.stackSize .null) hslots
  simp only [Machine.nullFrom] at hnull
  simp only [Machine.widened, hnull]

theorem callBuiltin (b : Builtin) (argc : Nat) : Scales more (Exec.callBuiltin b argc) m := by
  by_cases hpast : m.stack.size < m.sp
  · refine Ends.get_bind ?_
    rw [if_pos hpast]
    exact Ends.of_throw (.inl rfl)
  · have hwide : ¬(m.widened more).stack.size < (m.widened more).sp := fun hlt =>
      hpast (Nat.lt_of_le_of_lt (m.size_stack_widened more) hlt)
    have hsp : (m.widened more).sp = m.sp := rfl
    have hheap : (m.widened more).heap = m.heap := rfl
    have hextract := Machine.extract_widened more (m.sp - argc) (Nat.le_of_not_lt hpast)
    refine get_bind ?_ ?_
    · rw [if_neg hpast, if_neg hwide, hsp, hheap, hextract]
    · rw [if_neg hpast]
      cases b.reply m.heap (m.stack.extract (m.sp - argc) m.sp).toList with
      | error stop => exact of_error rfl rfl
      | ok reply =>
          have hpush : Scales more (Exec.push ((m.heap.answer reply).1.getD .null)) { m with
              sp := m.sp - (argc + 1)
              heap := (m.heap.answer reply).2
              output := m.output ++ reply.printed } := push _
          exact hpush

theorem call (argc : Nat) : Scales more (Exec.call argc) m := by
  have hsp : (m.widened more).sp = m.sp := rfl
  by_cases hfew : m.sp < argc + 1
  · refine get_bind ?_ ?_
    · rw [if_pos hfew, hsp, if_pos hfew]
    · rw [if_pos hfew]
      exact fail _
  · cases hslot : m.stack[m.sp - (argc + 1)]? with
    | none =>
        refine Ends.get_bind ?_
        rw [if_neg hfew, hslot]
        exact Ends.of_throw (.inl rfl)
    | some v =>
        refine get_bind ?_ ?_
        · rw [if_neg hfew, hsp, if_neg hfew, hslot, Machine.stack_widened more hslot]
        · rw [if_neg hfew, hslot]
          cases v with
          | closure a => exact callClosure a argc
          | builtin b => exact callBuiltin b argc
          | _ => exact fail _

theorem returnFrom (v : Value) : Scales more (Exec.returnFrom v) m := by
  refine bind (of_ok rfl ?_) fun _ _ => push v
  cases hframes : m.frames <;> simp only [Machine.widened, hframes] <;> rfl

theorem dispatch (op : Opcode) : Scales more (Exec.dispatch op) m := by
  cases op with
  | constant =>
      exact bind (fetchOperand _) fun _ _ => bind (constant _ _) fun v _ => push v
  | pushTrue | pushFalse | pushNull => exact push _
  | add | sub | mul | div | greater | greaterOrEqual | and | or => exact binary _
  | equal | notEqual => exact equality _
  | negate => exact bind pop fun _ _ => bind (ofExcept _) fun v _ => push v
  | not => exact bind pop fun _ _ => push _
  | jump => exact bind (fetchOperand _) fun _ _ => modifyFrame _
  | jumpNotTruthy => exact bind (fetchOperand _) fun n _ => jumpNotTruthy n
  | getGlobal | getConstGlobal => exact bind (fetchOperand _) fun n _ => getGlobal n
  | setGlobal | setConstGlobal => exact bind (fetchOperand _) fun n _ => setGlobal n
  | getLocal | getConstLocal => exact bind (fetchOperand _) fun n _ => getLocal n
  | setLocal | setConstLocal => exact bind (fetchOperand _) fun n _ => setLocal n
  | getFree => exact bind (fetchOperand _) fun n _ => getFree n
  | getBuiltin => exact bind (fetchOperand _) fun n _ => getBuiltin n
  | currentClosure => exact currentClosure
  | array => exact bind (fetchOperand _) fun n _ => makeArray n
  | hash => exact bind (fetchOperand _) fun n _ => makeHash n
  | index => exact getIndex
  | setIndex => exact setIndex
  | call => exact bind (fetchOperand _) fun n _ => call n
  | returnValue => exact bind pop fun v _ => returnFrom v
  | returnNull => exact returnFrom .null
  | closure =>
      exact bind (fetchOperand _) fun index _ =>
        bind (fetchOperand _) fun n _ => makeClosure index n
  | struct =>
      exact bind (fetchOperand _) fun index _ => bind (fetchOperand _) fun n _ => makeStruct index n
  | getField => exact bind (fetchOperand _) fun n _ => getField n
  | setField => exact bind (fetchOperand _) fun n _ => setField n
  | pop => exact discard pop

theorem step (byte : UInt8) : Scales more (Exec.step byte) m := by
  unfold Exec.step
  cases Opcode.ofByte? byte with
  | none => exact fail _
  | some op => exact bind (modifyFrame _) fun _ _ => dispatch op

end Scales

/-! ## Runs -/

def Run.widened (more : Limits) : Run → Run
  | finished m => finished (m.widened more)
  | stopped stop m => stopped stop (m.widened more)
  | unfinished m => unfinished (m.widened more)

namespace Machine

variable {more : Limits} {m : Machine} {n : Nat}

/-- A run that is not cut off is the same on a machine with more room. -/
theorem run_widened (h : ∀ stop m', m.run n = .stopped stop m' → stop.isCutOff = false) :
    (m.widened more).run n = (m.run n).widened more := by
  have hnext (m : Machine) : (m.widened more).nextByte? = m.nextByte? := rfl
  induction n generalizing m with
  | zero => rfl
  | succ n ih =>
      simp only [run, hnext] at h ⊢
      cases hbyte : m.nextByte? with
      | none => rfl
      | some byte =>
          simp only [hbyte] at h ⊢
          cases hstep : Exec.step byte m with
          | ok u m' =>
              have hscales : Scales more (Exec.step byte) m := .step byte
              simp only [hstep] at h
              simp only [hscales.ok hstep]
              exact ih h
          | error stop m' =>
              simp only [hstep] at h
              have hscales : Scales more (Exec.step byte) m := .step byte
              rcases hscales.error hstep with hlimit | hwidened
              · rw [h stop m' rfl] at hlimit
                cases hlimit
              · simp only [hwidened]
                rfl

/-- Two machines agree on everything but their room: they hold the same values in all slots that
there are under the given limits. -/
structure Agrees (limits : Limits) (m m' : Machine) : Prop where
  sp : m'.sp = m.sp
  frames : m'.frames = m.frames
  heap : m'.heap = m.heap
  output : m'.output = m.output
  stack : ∀ k < limits.stackSize, ∃ v, m.stack[k]? = some v ∧ m'.stack[k]? = some v
  globals : ∀ k < limits.globalsSize, ∃ v, m.globals.get k = .ok v ∧ m'.globals.get k = .ok v
  lastTaken : m'.lastTaken = m.lastTaken

theorem WithinLimits.agrees {limits : Limits} (h : m.WithinLimits limits limits.globalsSize)
    (more : Limits) : m.Agrees limits (m.widened more) where
  sp := rfl
  frames := rfl
  heap := rfl
  output := rfl
  stack := by
    intro k hk
    have hslot : k < m.stack.size := h.stack.symm ▸ hk
    exact ⟨m.stack[k], Array.getElem?_eq_getElem hslot,
      stack_widened more (Array.getElem?_eq_getElem hslot)⟩
  globals := by
    intro k hk
    have hslot : k < m.globals.size := h.globals.symm ▸ hk
    obtain ⟨v, hv⟩ : ∃ v, m.globals.slots[k]? = some v := ⟨_, Array.getElem?_eq_getElem hslot⟩
    have hget : m.globals.get k = .ok v := by simp only [Globals.get, hv]
    exact ⟨v, hget, (Globals.get_widened _ hslot).trans hget⟩
  lastTaken := by
    change (m.stack ++ Array.replicate more.stackSize .null)[m.sp]?.getD .null = _
    rw [lastTaken, Array.getElem?_append]
    split
    · rfl
    · rename_i hout
      rw [Array.getElem?_eq_none (Nat.le_of_not_lt hout), Array.getElem?_replicate]
      split <;> rfl

end Machine

/-- Two runs end in the same way, on machines that agree. -/
inductive Run.Lockstep (limits : Limits) : Run → Run → Prop
  | finished {m m' : Machine} (agrees : m.Agrees limits m') :
      Lockstep limits (.finished m) (.finished m')
  | stopped {m m' : Machine} (stop : Stop RuntimeError) (agrees : m.Agrees limits m') :
      Lockstep limits (.stopped stop m) (.stopped stop m')
  | unfinished {m m' : Machine} (agrees : m.Agrees limits m') :
      Lockstep limits (.unfinished m) (.unfinished m')

theorem Run.lockstep_widened {r : Run} {limits : Limits}
    (h : r.machine.WithinLimits limits limits.globalsSize) (more : Limits) :
    r.Lockstep limits (r.widened more) := by
  cases r with
  | finished m => exact .finished (h.agrees more)
  | stopped stop m => exact .stopped stop (h.agrees more)
  | unfinished m => exact .unfinished (h.agrees more)

namespace Machine

theorem initial_widened (code : Code) (constants : Array Value) (heap : Heap)
    (limits more : Limits) :
    (initial code constants limits (.ofSize limits.globalsSize) heap).widened more =
      initial code constants
        ⟨limits.stackSize + more.stackSize, limits.maxFrames + more.maxFrames,
          limits.globalsSize + more.globalsSize⟩
        (.ofSize (limits.globalsSize + more.globalsSize)) heap := by
  simp only [initial, widened, Array.replicate_append_replicate, Globals.widened_ofSize]

/-- Limits only cut runs off.  If some steps of a run meet no limit and break no promise, then with
larger limits every one of these steps does the same, and comes to the same end or the same
error. -/
theorem run_lockstep {code : Code} {constants : Array Value} {heap : Heap} {limits limits' : Limits}
    (hstack : limits.stackSize ≤ limits'.stackSize) (hframes : limits.maxFrames ≤ limits'.maxFrames)
    (hglobals : limits.globalsSize ≤ limits'.globalsSize) {n : Nat}
    (hcut : ∀ stop m, (initial code constants limits (.ofSize limits.globalsSize) heap).run n =
      .stopped stop m → stop.isCutOff = false) {k : Nat} (hk : k ≤ n) :
    ((initial code constants limits (.ofSize limits.globalsSize) heap).run k).Lockstep limits
      ((initial code constants limits' (.ofSize limits'.globalsSize) heap).run k) := by
  have hwidened := initial_widened code constants heap limits
    ⟨limits'.stackSize - limits.stackSize, limits'.maxFrames - limits.maxFrames,
      limits'.globalsSize - limits.globalsSize⟩
  simp only [Nat.add_sub_cancel' hstack, Nat.add_sub_cancel' hframes,
    Nat.add_sub_cancel' hglobals] at hwidened
  have hlimits := withinLimits_initial code constants limits (.ofSize limits.globalsSize) heap
  rw [Globals.size, Globals.ofSize, Array.size_replicate] at hlimits
  rw [← hwidened, run_widened]
  · exact Run.lockstep_widened (run_induction (fun _ => WithinLimits.run_one) hlimits k) _
  · intro stop m hstop
    refine hcut stop m ?_
    rw [run_of_le (by simp [hstop]) hk, hstop]

/-- Adding two truth values fills a stack of two slots, and is refused in the same way on a larger
machine. -/
theorem run_lockstep_of_two_slots :
    let m := initial ⟨#[1, 1, 4]⟩ #[] ⟨2, 1, 0⟩ (.ofSize 0) .empty
    let m' := initial ⟨#[1, 1, 4]⟩ #[] ⟨3, 5, 1⟩ (.ofSize 1) .empty
    (∃ m₁, m.run 3 = .stopped (.error (.unsupportedOperands .add .bool .bool)) m₁) ∧
      (m.run 2).Lockstep ⟨2, 1, 0⟩ (m'.run 2) ∧ (m.run 3).Lockstep ⟨2, 1, 0⟩ (m'.run 3) := by
  intro m m'
  have hrun : m.run 3 = .stopped (.error (.unsupportedOperands .add .bool .bool)) _ := rfl
  have hcut : ∀ stop m₁, m.run 3 = .stopped stop m₁ → stop.isCutOff = false := by
    intro stop m₁ hstop
    cases hrun.symm.trans hstop
    rfl
  exact ⟨⟨_, hrun⟩, run_lockstep (by decide) (by decide) (by decide) hcut (by decide),
    run_lockstep (by decide) (by decide) (by decide) hcut (Nat.le_refl 3)⟩

end Machine

end ScriptEngine
