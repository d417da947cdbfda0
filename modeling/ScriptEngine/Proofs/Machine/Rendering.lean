import ScriptEngine.Proofs.Machine.Capacity
import ScriptEngine.Proofs.Machine.Conduct
import ScriptEngine.Proofs.Machine.Failure
import ScriptEngine.Proofs.Session.Safety
import ScriptEngine.Proofs.Tree.Correctness
import ScriptEngine.Proofs.Value.Circles

/-!
# Rendering values

Containers are shared, so that a program can write one into itself; if it is shown there, then the
text of such a value has no end.  Nothing else has that effect: a machine that refers only to
objects that are there (`Machine.IsClosed`) stays so, and a step leaves a heap without circles free
of them exactly if it does not write a value to a container to which the value leads
(`Machine.ClosesCircle`).  Until then every value has a text.
-/

namespace ScriptEngine

open Relation (TransGen ReflTransGen)

/-! ## What an instruction does to the heap -/

/-- The instruction writes a value to a container. -/
inductive Instruction.Writes (i : Instruction) : List Value → Value → Value → Prop
  | index {container position value : Value} (opcode : i.opcode = .setIndex) :
      i.Writes [container, position, value] container value
  | field {container value : Value} (opcode : i.opcode = .setField) :
      i.Writes [container, value] container value

namespace Instruction.Writes

variable {i : Instruction} {args : List Value} {container value : Value}

theorem length_eq (hwrites : i.Writes args container value) : args.length = i.taken := by
  obtain ⟨op, ns⟩ := i
  cases hwrites with
  | index opcode =>
      cases opcode
      rfl
  | field opcode =>
      cases opcode
      rfl

theorem unique (hwrites : i.Writes args container value) {container' value' : Value}
    (hwrites' : i.Writes args container' value') : container' = container ∧ value' = value := by
  cases hwrites with
  | index _ =>
      cases hwrites' with
      | index _ => exact ⟨rfl, rfl⟩
  | field _ =>
      cases hwrites' with
      | field _ => exact ⟨rfl, rfl⟩

/-- A write that succeeds has stored the value. -/
theorem stores (hwrites : i.Writes args container value) {w : View} {e : Effect}
    (he : i.effect w args = .ok e) : w.heap.Stores container value e.heap := by
  obtain ⟨op, ns⟩ := i
  cases hwrites with
  | @index _ position _ opcode =>
      cases opcode
      simp only [effect, Heap.setIndex] at he
      cases hplace : w.heap.place container position with
      | error e => simp [hplace, Except.map] at he
      | ok place =>
          simp only [hplace, Except.map, Except.ok.injEq] at he
          rw [← he, ← Heap.container_of_place hplace]
          exact .write _ _
  | field opcode =>
      cases opcode
      simp only [effect, View.setField] at he
      split at he
      · split at he
        · cases he
          exact .setField _ _ _
        · cases he
      · cases he

end Instruction.Writes

/-- The effect refers only to objects that are there, and adds objects to the heap unless the
instruction is a write. -/
structure Effect.Owned (w : View) (i : Instruction) (args : List Value) (e : Effect) : Prop where
  value : ∀ v, e.value = some v → e.heap.Owns v
  written : ∀ k v, e.written = some (k, v) → w.heap.Owns v
  globals : ∀ v ∈ e.globals.slots, w.heap.Owns v
  heap : e.heap.All w.heap.Owns
  change : w.heap.Adds e.heap ∨ e.value = none ∧ ∃ container v, i.Writes args container v

/-- If there is an effect, then it is owned. -/
def OwnedIfOk (w : View) (i : Instruction) (args : List Value)
    (r : Except (Stop RuntimeError) Effect) : Prop :=
  ∀ e, r = .ok e → e.Owned w i args

namespace OwnedIfOk

variable {w : View} {i : Instruction} {args : List Value}

theorem error (stop : Stop RuntimeError) : OwnedIfOk w i args (.error stop) := by
  intro e he
  cases he

theorem nothing (hw : w.All w.heap.Owns) (target : Option Nat) :
    OwnedIfOk w i args (.ok { w.nothing with target }) := by
  rintro e ⟨⟩
  exact ⟨by simp [View.nothing], by simp [View.nothing], hw.globals, hw.heap, .inl (.refl _)⟩

theorem giveNew (hw : w.All w.heap.Owns) {v : Value} {h : Heap} (hv : h.Owns v)
    (hh : h.All w.heap.Owns) (hadds : w.heap.Adds h) (printed : String) :
    OwnedIfOk w i args (.ok { w.giveNew (v, h) with printed }) := by
  rintro e ⟨⟩
  refine ⟨?_, by simp [View.giveNew, View.nothing], hw.globals, hh, .inl hadds⟩
  rintro _ ⟨⟩
  exact hv

theorem give (hw : w.All w.heap.Owns) {v : Value} (hv : w.heap.Owns v) :
    OwnedIfOk w i args (.ok (w.give v)) :=
  giveNew hw hv hw.heap (.refl _) ""

theorem giveResult (hw : w.All w.heap.Owns) {r : Except RuntimeError Value}
    (hr : ∀ v, r = .ok v → w.heap.Owns v) : OwnedIfOk w i args (w.giveResult r) := by
  cases r with
  | ok v => exact give hw (hr v rfl)
  | error e => exact error _

theorem giveFound (hw : w.All w.heap.Owns) {r : Option Value}
    (hr : ∀ v, r = some v → w.heap.Owns v) : OwnedIfOk w i args (w.giveFound i r) := by
  cases r with
  | some v => exact give hw (hr v rfl)
  | none => exact error _

theorem array (hw : w.All w.heap.Owns) {vs : Array Value} (hvs : ∀ v ∈ vs, w.heap.Owns v)
    (printed : String) :
    OwnedIfOk w i args (.ok { w.giveNew (w.heap.newArray vs) with printed }) := by
  refine giveNew hw ?_ (hw.heap.newArray hvs) (.newArray _ _) printed
  simp [Heap.Owns, Heap.newArray]

theorem call (hw : w.All w.heap.Owns) {callee : Value} {vs : List Value}
    (hvs : ∀ v ∈ vs, w.heap.Owns v) : OwnedIfOk w i args (w.call callee vs) := by
  cases callee with
  | builtin b =>
      rw [View.call]
      cases hreply : b.reply w.heap vs with
      | error stop => exact error _
      | ok r =>
          have hr := Builtin.reply_all (fun _ => trivial) hw.heap hvs hreply
          cases r with
          | nothing => exact give hw trivial
          | value v => exact give hw hr
          | array xs => exact array hw hr ""
          | print text => exact giveNew (v := .null) hw trivial hw.heap (.refl _) text
  | _ => exact error _

theorem closure (hw : w.All w.heap.Owns) (hargs : ∀ v ∈ args, w.heap.Owns v) :
    OwnedIfOk w i args (w.closure i args) := by
  unfold View.closure
  split
  · refine giveNew hw ?_ (hw.heap.newClosure (by simpa using hargs)) (.newClosure _ _ _) ""
    trivial
  · exact error _
  · exact error _

theorem struct (hw : w.All w.heap.Owns) (hargs : ∀ v ∈ args, w.heap.Owns v) :
    OwnedIfOk w i args (w.struct i args) := by
  unfold View.struct
  split
  · refine giveNew hw ?_ (hw.heap.newStruct (by simpa using hargs)) (.newStruct _ _ _) ""
    simp [Heap.Owns, Heap.newStruct]
  · exact error _

theorem hash (hw : w.All w.heap.Owns) (hargs : ∀ v ∈ args, w.heap.Owns v) :
    OwnedIfOk w i args
      (match Exec.storePairs .empty args with
        | .ok entries => .ok (w.giveNew (w.heap.newHash entries))
        | .error e => .error (.error e)) := by
  cases hpairs : Exec.storePairs .empty args with
  | error e => exact error _
  | ok d =>
      have hd := Exec.storePairs_all (by simp [Dict.empty]) hargs hpairs
      refine giveNew hw ?_ (hw.heap.newHash hd) (.newHash _ _) ""
      simp [Heap.Owns, Heap.newHash]

theorem setGlobal (hw : w.All w.heap.Owns) {k : Nat} {v : Value} (hv : w.heap.Owns v) :
    OwnedIfOk w i args
      (match w.globals.set k v with
        | .ok globals => .ok { w.nothing with globals }
        | .error e => .error (.error e)) := by
  unfold Globals.set
  by_cases hk : k < w.globals.size
  · rw [if_pos hk]
    rintro e ⟨⟩
    exact ⟨by simp [View.nothing], by simp [View.nothing], Array.forall_mem_set hw.globals hv,
      hw.heap, .inl (.refl _)⟩
  · rw [if_neg hk]
    exact error _

theorem setLocal (hw : w.All w.heap.Owns) {k : Nat} {v : Value} (hv : w.heap.Owns v) :
    OwnedIfOk w i args (.ok { w.nothing with written := some (k, v) }) := by
  rintro e ⟨⟩
  refine ⟨by simp [View.nothing], ?_, hw.globals, hw.heap, .inl (.refl _)⟩
  rintro _ _ ⟨⟩
  exact hv

theorem store (hw : w.All w.heap.Owns) {container v : Value} {h : Heap} (hh : h.All w.heap.Owns)
    (hwrites : i.Writes args container v) :
    OwnedIfOk w i args (.ok { w.nothing with heap := h }) := by
  rintro e ⟨⟩
  exact ⟨by simp [View.nothing], by simp [View.nothing], hw.globals, hh,
    .inr ⟨rfl, container, v, hwrites⟩⟩

theorem setIndex (hw : w.All w.heap.Owns) {container position v : Value} (hv : w.heap.Owns v)
    (hop : i.opcode = .setIndex) :
    OwnedIfOk w i [container, position, v]
      (match w.heap.setIndex container position v with
        | .ok heap => .ok { w.nothing with heap }
        | .error e => .error (.error e)) := by
  unfold Heap.setIndex
  cases hplace : w.heap.place container position with
  | error e => exact error _
  | ok place => exact store hw (hw.heap.write hv) (.index hop)

theorem setField (hw : w.All w.heap.Owns) {object v : Value} (hv : w.heap.Owns v)
    (hop : i.opcode = .setField) : OwnedIfOk w i [object, v] (w.setField i object v) := by
  cases object with
  | struct a =>
      rw [View.setField]
      by_cases hk : i.operand 0 < (w.heap.struct a).fields.size
      · rw [if_pos hk]
        exact store hw (hw.heap.setField hv) (.field hop)
      · rw [if_neg hk]
        exact error _
  | _ => exact error _

theorem giveCurrent (hw : w.All w.heap.Owns) : OwnedIfOk w i args (.ok w.giveCurrent) := by
  unfold View.giveCurrent
  split
  · exact give hw trivial
  · exact give hw trivial
  · rintro e ⟨⟩
    refine ⟨?_, by simp [View.giveNew, View.nothing], hw.globals,
      hw.heap.newClosure (by simp), .inl (.newClosure _ _ _)⟩
    rintro _ ⟨⟩
    trivial

end OwnedIfOk

open OwnedIfOk in
/-- The effect of an instruction that sees and takes only values that are there. -/
theorem Instruction.owned_effect {i : Instruction} {w : View} {args : List Value}
    (hw : w.All w.heap.Owns) (hargs : ∀ v ∈ args, w.heap.Owns v) (hlength : args.length = i.taken)
    (hconstant : i.opcode = .constant →
      ∃ v, w.constants[i.operand 0]? = some v ∧ v.isPlain = true) :
    OwnedIfOk w i args (i.effect w args) := by
  have hone (h : i.taken = 1) : ∃ v, args = [v] :=
    List.length_eq_one_iff.mp (hlength.trans h)
  have htwo (h : i.taken = 2) : ∃ v w, args = [v, w] :=
    List.length_eq_two.mp (hlength.trans h)
  obtain ⟨op, ns⟩ := i
  cases op with
  | constant =>
      obtain ⟨v, hv, hplain⟩ := hconstant rfl
      refine giveFound hw fun u hu => ?_
      obtain rfl : v = u := Option.some.inj (hv.symm.trans hu)
      exact w.heap.owns_of_isPlain hplain
  | pushTrue | pushFalse | pushNull => exact give hw trivial
  | currentClosure => exact giveCurrent hw
  | getGlobal | getConstGlobal =>
      exact giveResult hw fun v hv => hw.globals v (Globals.mem_of_get hv)
  | getLocal | getConstLocal =>
      simp only [effect]
      split
      next v hv => exact give hw (hw.slot _ v hv)
      next => exact error _
  | getFree => exact giveFound hw fun v hv => hw.captured v (Array.mem_of_getElem? hv)
  | getBuiltin =>
      refine giveFound hw fun v hv => ?_
      obtain ⟨b, -, rfl⟩ := Option.map_eq_some_iff.mp hv
      trivial
  | add | sub | mul | div | greater | greaterOrEqual | and | or =>
      obtain ⟨l, r, rfl⟩ := htwo rfl
      exact giveResult hw fun v hv => w.heap.owns_of_isPlain (Operation.isPlain_of_apply hv)
  | equal | notEqual =>
      obtain ⟨l, r, rfl⟩ := htwo rfl
      exact give hw trivial
  | index =>
      obtain ⟨container, position, rfl⟩ := htwo rfl
      exact giveResult hw fun v hv => hw.heap.index trivial hv
  | setField =>
      obtain ⟨object, v, rfl⟩ := htwo rfl
      exact setField hw (hargs v (by simp)) rfl
  | setIndex =>
      obtain ⟨container, position, v, rfl⟩ := List.length_eq_three.mp hlength
      exact setIndex hw (hargs v (by simp)) rfl
  | negate =>
      obtain ⟨v, rfl⟩ := hone rfl
      exact giveResult hw fun u hu => w.heap.owns_of_isPlain (Value.isPlain_of_opposite hu)
  | not =>
      obtain ⟨v, rfl⟩ := hone rfl
      exact give hw trivial
  | jump => exact nothing hw _
  | jumpNotTruthy =>
      obtain ⟨v, rfl⟩ := hone rfl
      exact nothing hw _
  | setGlobal | setConstGlobal =>
      obtain ⟨v, rfl⟩ := hone rfl
      exact setGlobal hw (hargs v (by simp))
  | setLocal | setConstLocal =>
      obtain ⟨v, rfl⟩ := hone rfl
      exact setLocal hw (hargs v (by simp))
  | getField =>
      obtain ⟨object, rfl⟩ := hone rfl
      cases object with
      | struct a => exact giveFound hw fun v hv => hw.heap.struct a v (Array.mem_of_getElem? hv)
      | _ => exact error _
  | pop | returnValue =>
      obtain ⟨v, rfl⟩ := hone rfl
      exact nothing hw none
  | returnNull =>
      obtain rfl := List.length_eq_zero_iff.mp hlength
      exact nothing hw none
  | array => exact array hw (by simpa using hargs) ""
  | hash => exact hash hw hargs
  | struct => exact struct hw hargs
  | closure => exact closure hw hargs
  | call =>
      cases args with
      | nil => cases hlength
      | cons callee vs => exact call hw fun v hv => hargs v (List.mem_cons_of_mem _ hv)

/-! ## Steps and runs -/

namespace Machine

/-- All values of the machine refer only to containers that are there. -/
structure IsClosed (m : Machine) : Prop where
  stack : ∀ v ∈ m.stack, m.heap.Owns v
  globals : ∀ v ∈ m.globals.slots, m.heap.Owns v
  heap : m.heap.All m.heap.Owns

def next? (m : Machine) : Option Instruction :=
  match m.frames with
  | [] => none
  | f :: _ => ((m.codeOf f).decode f.ip).toOption

/-- The next instruction succeeds in writing a value to a container that shows it, and the value
leads to the container. -/
inductive ClosesCircle (m : Machine) : Prop
  | write {i : Instruction} {below : Nat} {args : List Value} {container value : Value}
      {m' : Machine} (next : m.next? = some i) (top : m.Top below args)
      (writes : i.Writes args container value) (succeeds : m.run 1 = .unfinished m')
      (shown : m'.heap.Shows container value)
      (leads : ReflTransGen m.heap.Shows value container)

variable {main : Code} {m m' : Machine} {f : Frame} {fs : List Frame} {c : Closure} {r : Room}
  {i : Instruction} {h : Nat} {args : List Value}

theorem Top.args_eq {below below' : Nat} {args' : List Value} (htop : m.Top below args)
    (htop' : m.Top below' args') (hlength : args'.length = args.length) : args' = args := by
  have hbelow : below' = below := by
    have hsp := htop.sp
    have hsp' := htop'.sp
    omega
  subst hbelow
  apply List.ext_getElem hlength
  intro k hk' hk
  have hget := htop.get k _ (List.getElem?_eq_getElem hk)
  have hget' := htop'.get k _ (List.getElem?_eq_getElem hk')
  exact Option.some.inj (hget'.symm.trans hget)

/-- The next instruction of a machine decides whether it closes a circle. -/
theorem Ready.closesCircle_iff (hr : m.Ready main f fs c r i h args) :
    m.ClosesCircle ↔ ∃ container value m', i.Writes args container value ∧
      m.run 1 = .unfinished m' ∧ m'.heap.Shows container value ∧
      ReflTransGen m.heap.Shows value container := by
  have hnext : m.next? = some i := by simp only [next?, hr.frames, hr.decode, Except.toOption]
  constructor
  · rintro @⟨i', below, args', container, value, m', next, top, writes, succeeds, shown, leads⟩
    obtain rfl : i' = i := Option.some.inj (next.symm.trans hnext)
    obtain rfl := hr.top.args_eq top (writes.length_eq.trans hr.length.symm)
    exact ⟨container, value, m', writes, succeeds, shown, leads⟩
  · rintro ⟨container, value, m', hwrites, hrun, hshown, hleads⟩
    exact .write hnext hr.top hwrites hrun hshown hleads

/-- Only the two instructions that write close a circle. -/
theorem Ready.not_closesCircle (hr : m.Ready main f fs c r i h args)
    (hop : i.opcode ≠ .setIndex ∧ i.opcode ≠ .setField) : ¬m.ClosesCircle := by
  rw [hr.closesCircle_iff]
  rintro ⟨container, value, -, hwrites, -⟩
  cases hwrites with
  | index opcode => exact hop.1 opcode
  | field opcode => exact hop.2 opcode

namespace IsClosed

theorem view_all (hm : m.IsClosed) (f : Frame) : (m.view f).All m.heap.Owns where
  captured := captured_all hm.heap f
  slot _ v hv := hm.stack v (Array.mem_of_getElem? hv)
  globals := hm.globals
  heap := hm.heap

/-- The effect of the next instruction. -/
theorem owned_effect (hm : m.IsClosed) (hr : m.Ready main f fs c r i h args) :
    OwnedIfOk (m.view f) i args (i.effect (m.view f) args) := by
  refine Instruction.owned_effect (hm.view_all f) (hr.top.forall_mem hm.stack) hr.length ?_
  intro hop
  have hadmits := hr.turn.admits
  obtain ⟨op, ns⟩ := i
  cases hop
  obtain ⟨v, hv, hplain⟩ := hadmits rfl
  rw [hr.turn.constants] at hv
  exact ⟨v, hv, hplain⟩

theorem perform (hm : m.IsClosed) {e : Effect} (he : e.Owned (m.view f) i args)
    (heffect : i.effect (m.view f) args = .ok e) (f' : Frame) (below : Nat) :
    (m.perform f' fs below e).IsClosed := by
  have howns : ∀ v, m.heap.Owns v → e.heap.Owns v := by
    rcases he.change with hadds | ⟨-, container, v, hwrites⟩
    · exact hadds.owns
    · exact (hwrites.stores heffect).owns
  constructor
  · exact stackAfter_forall (fun v hv => howns v (hm.stack v hv)) he.value
      fun k v hv => howns v (he.written k v hv)
  · exact fun v hv => howns v (he.globals v hv)
  · exact he.heap.imp howns

/-- How a step of a machine without circles ends: there is one afterwards exactly if the step closes
it, and in no case if it stops early. -/
def Steps (m : Machine) (byte : UInt8) : Prop :=
  (∀ m', Exec.step byte m = .ok () m' →
      m'.IsClosed ∧ (m'.heap.IsFreeOfCircles ↔ ¬m.ClosesCircle)) ∧
    ∀ stop m', Exec.step byte m = .error stop m' → m'.heap.IsFreeOfCircles

/-- An instruction that stays in its call. -/
theorem step_stays (hm : m.IsClosed) (hsound : m.Sound main) (hfree : m.heap.IsFreeOfCircles)
    (hr : m.Ready main f fs c r i h args) (hstays : i.StaysIn args) :
    ∃ byte, m.nextByte? = some byte ∧ Steps m byte := by
  obtain ⟨byte, hbyte, hstep⟩ := hr.step_stays hsound.sp_le hstays
  refine ⟨byte, hbyte, fun m' hm' => ?_, fun stop m' hm' => ?_⟩
  · obtain ⟨e, heffect, -, rfl⟩ := hstep.ok hm'
    have he := hm.owned_effect hr e heffect
    refine ⟨hm.perform he heffect _ _, ?_⟩
    rw [hr.closesCircle_iff]
    by_cases hwrites : ∃ container v, i.Writes args container v
    · obtain ⟨container, v, hwrites⟩ := hwrites
      refine ((hwrites.stores heffect).isFreeOfCircles_iff hfree).trans (not_congr ?_)
      constructor
      · rintro ⟨hshown, hleads⟩
        exact ⟨container, v, _, hwrites, run_one_ok hbyte hm', hshown, hleads⟩
      · rintro ⟨container', v', m', hwrites', hrun, hshown, hleads⟩
        obtain ⟨rfl, rfl⟩ := hwrites.unique hwrites'
        cases hrun.symm.trans (run_one_ok hbyte hm')
        exact ⟨hshown, hleads⟩
    · have hadds := he.change.resolve_right fun h => hwrites h.2
      refine iff_of_true (hfree.adds hadds he.heap) ?_
      rintro ⟨container, v, -, h, -⟩
      exact hwrites ⟨container, v, h⟩
  · cases hstep.error hm' with
    | refused _ _ hheap _ => exact hheap ▸ hfree
    | full heffect hvalue _ _ hheap _ =>
        -- what gives a value writes nothing
        have he := hm.owned_effect hr _ heffect
        rcases he.change with hadds | ⟨hnone, -⟩
        · exact hheap ▸ hfree.adds hadds he.heap
        · rw [hvalue] at hnone
          cases hnone

/-- A call of a closure. -/
theorem step_call (hm : m.IsClosed) (hsound : m.Sound main) (hfree : m.heap.IsFreeOfCircles)
    {a : Nat} {vs : List Value} (hr : m.Ready main f fs c r i h (.closure a :: vs))
    (hop : i.opcode = .call) : ∃ byte, m.nextByte? = some byte ∧ Steps m byte := by
  obtain ⟨byte, callee, hbyte, -, -, hstep⟩ := hsound.step_closure hr hop
  have hcircle : ¬m.ClosesCircle := hr.not_closesCircle (by simp [hop])
  refine ⟨byte, hbyte, fun m' hm' => ?_, fun stop m' hm' => ?_⟩
  · obtain ⟨-, -, rfl⟩ := hstep.ok hm'
    exact ⟨⟨nullFrom_forall hm.stack trivial, hm.globals, hm.heap⟩, iff_of_true hfree hcircle⟩
  · obtain ⟨rfl, -⟩ := hstep.error hm'
    exact hfree

/-- A return. -/
theorem step_return (hm : m.IsClosed) (hsound : m.Sound main) (hfree : m.heap.IsFreeOfCircles)
    (hr : m.Ready main f fs c r i h args)
    (hop : i.opcode = .returnValue ∨ i.opcode = .returnNull) :
    ∃ byte, m.nextByte? = some byte ∧ Steps m byte := by
  obtain ⟨byte, hbyte, hstep⟩ := hr.step_return hsound.sp_le hop
  have hcircle : ¬m.ClosesCircle :=
    hr.not_closesCircle (by rcases hop with hop | hop <;> simp [hop])
  refine ⟨byte, hbyte, fun m' hm' => ?_, fun stop m' hm' => ?_⟩
  · cases hstep.symm.trans hm'
    refine ⟨⟨Array.forall_mem_set hm.stack ?_, hm.globals, hm.heap⟩, iff_of_true hfree hcircle⟩
    cases args with
    | nil => trivial
    | cons v vs => exact hr.top.forall_mem hm.stack v List.mem_cons_self
  · cases hstep.symm.trans hm'

theorem step (hm : m.IsClosed) (hsound : m.Sound main) (hfree : m.heap.IsFreeOfCircles)
    {byte : UInt8} (hbyte : m.nextByte? = some byte) : Steps m byte := by
  suffices hsteps : ∃ byte, m.nextByte? = some byte ∧ Steps m byte by
    obtain ⟨byte', hbyte', hends⟩ := hsteps
    obtain rfl : byte = byte' := Option.some.inj (hbyte.symm.trans hbyte')
    exact hends
  rcases hsound.ready with ⟨-, f, hframes, -, -, hip⟩ | ⟨f, fs, c, r, i, h, args, hr⟩
  · simp [nextByte?, hframes, hip, Code.size] at hbyte
  · by_cases hstays : i.StaysIn args
    · exact hm.step_stays hsound hfree hr hstays
    · rcases Instruction.not_staysIn hstays with hop | ⟨hop, a, vs, rfl⟩
      · exact hm.step_return hsound hfree hr hop
      · exact hm.step_call hsound hfree hr hop

/-- A run is free of circles at every point exactly if no instruction of it closes one. -/
theorem run_iff (hm : m.IsClosed) (hsound : m.Sound main) (hfree : m.heap.IsFreeOfCircles)
    (n : Nat) :
    (∀ k < n + 1, (m.run k).machine.heap.IsFreeOfCircles) ↔
      ∀ k < n, ∀ m', m.run k = .unfinished m' → ¬m'.ClosesCircle := by
  induction n generalizing m with
  | zero =>
      refine iff_of_true (fun k hk => ?_) fun k hk => absurd hk (Nat.not_lt_zero k)
      obtain rfl := Nat.lt_one_iff.mp hk
      exact hfree
  | succ n ih =>
      refine Nat.forall_lt_succ_left.trans (Iff.trans ?_ Nat.forall_lt_succ_left.symm)
      -- a run that ends with this step closes no circle
      have hended (r : Run) (hrun : ∀ k, m.run (k + 1) = r) (hr : ∀ m', r ≠ .unfinished m')
          (hlast : r.machine.heap.IsFreeOfCircles) :
          ((m.run 0).machine.heap.IsFreeOfCircles ∧
              ∀ k < n + 1, (m.run (k + 1)).machine.heap.IsFreeOfCircles) ↔
            (∀ m', m.run 0 = .unfinished m' → ¬m'.ClosesCircle) ∧
              ∀ k < n, ∀ m', m.run (k + 1) = .unfinished m' → ¬m'.ClosesCircle := by
        refine iff_of_true ⟨hfree, fun k _ => (hrun k).symm ▸ hlast⟩ ⟨?_, ?_⟩
        · rintro _ ⟨⟩ ⟨_, _, _, succeeds, _, _⟩
          exact hr _ ((hrun 0).symm.trans succeeds)
        · intro k _ m' hm'
          exact absurd ((hrun k).symm.trans hm') (hr m')
      cases hbyte : m.nextByte? with
      | none => exact hended (.finished m) (by simp [Machine.run, hbyte]) (by simp) hfree
      | some byte =>
          obtain ⟨hok, herror⟩ := hm.step hsound hfree hbyte
          cases hstep : Exec.step byte m with
          | error stop m' =>
              exact hended (.stopped stop m') (by simp [Machine.run, hbyte, hstep]) (by simp)
                (herror stop m' hstep)
          | ok u m' =>
              obtain ⟨hm', hcircle⟩ := hok m' hstep
              have hrun (k : Nat) : m.run (k + 1) = m'.run k := by
                simp only [Machine.run, hbyte, hstep]
              have hsound' := ((hsound.step hbyte).ok hstep).1
              simp only [hrun]
              by_cases hcloses : m.ClosesCircle
              · refine iff_of_false (fun h => ?_) fun h => h.1 m rfl hcloses
                exact hcircle.mp (h.2 0 (by omega)) hcloses
              · rw [ih hm' hsound' (hcircle.mpr hcloses)]
                refine and_congr_left fun _ => iff_of_true hfree ?_
                rintro _ ⟨⟩
                exact hcloses

end IsClosed

theorem isClosed_initial (code : Code) (constants : Array Value) (limits : Limits) :
    (initial code constants limits (.ofSize limits.globalsSize) .empty).IsClosed := by
  have hnull {n : Nat} {v : Value} (h : Heap) (hv : v ∈ Array.replicate n Value.null) :
      h.Owns v := by
    obtain ⟨-, rfl⟩ := Array.mem_replicate.mp hv
    trivial
  exact ⟨fun v => hnull _, fun v => hnull _, .empty⟩

theorem isFreeOfCircles_empty : Heap.empty.IsFreeOfCircles := by
  intro v hcircle
  obtain ⟨w, hshows, -⟩ := TransGen.head'_iff.mp hcircle
  have hcontainers := hshows.holds.mem_containers
  simp [Heap.containers, Heap.empty] at hcontainers

/-- Whether the next instruction is no write, or writes a value that is no object to another one. -/
def writesNoObject (m : Machine) : Bool :=
  (m.next?.all fun i => i.opcode != .setIndex && i.opcode != .setField) ||
    (m.top?.any fun v => v.isPlain && [2, 3].all fun k => m.stack[m.sp - k]? != some v)

theorem Top.get_sub {below k : Nat} {v : Value} (htop : m.Top below args) (hv : args[k]? = some v) :
    m.stack[m.sp - (args.length - k)]? = some v := by
  have hk := (List.getElem?_eq_some_iff.mp hv).1
  rw [htop.sp, show below + args.length - (args.length - k) = below + k by omega]
  exact htop.get k v hv

theorem not_closesCircle_of_writesNoObject (hm : m.writesNoObject = true) : ¬m.ClosesCircle := by
  rintro @⟨i, below, args, container, value, m', next, top, writes, -, -, leads⟩
  simp only [writesNoObject, next, Option.all_some, Bool.or_eq_true, Bool.and_eq_true, bne_iff_ne,
    Option.any_eq_true] at hm
  rcases hm with ⟨hindex, hfield⟩ | ⟨v, hv, hplain, hother⟩
  · cases writes with
    | index opcode => exact hindex opcode
    | field opcode => exact hfield opcode
  · -- the value is on top of the stack, and the container two or three places below
    have hplaces : m.stack[m.sp - 1]? = some value ∧
        ∃ k ∈ [2, 3], m.stack[m.sp - k]? = some container := by
      cases writes with
      | index _ => exact ⟨top.get_sub (k := 2) rfl, 3, by simp, top.get_sub (k := 0) rfl⟩
      | field _ => exact ⟨top.get_sub (k := 1) rfl, 2, by simp, top.get_sub (k := 0) rfl⟩
    obtain ⟨hvalue, k, hk, hcontainer⟩ := hplaces
    obtain rfl : value = v := by
      unfold top? at hv
      split at hv
      · cases hv
      · exact Option.some.inj (hvalue.symm.trans hv)
    have hsame : value = container := by
      rcases leads.cases_head with hsame | ⟨u, hshows, -⟩
      · exact hsame
      · cases value <;> first | cases hshows | cases hplain
    have hne := List.all_eq_true.mp hother k hk
    rw [hcontainer, hsame] at hne
    simp at hne

/-- The next instruction prints a value whose text has no end. -/
inductive PrintsEndless (m : Machine) : Prop
  | print {i : Instruction} {v : Value} (next : m.next? = some i) (opcode : i.opcode = .call)
      (callee : m.callee? (i.operand 0) = some (.builtin .puts))
      (argument : v ∈ m.arguments (i.operand 0)) (endless : ¬m.heap.Renders v)

/-- Printing runs on without end exactly if a value is printed whose text has none. -/
theorem WithinLimits.endlessText_iff {limits : Limits} {slots : Nat}
    (hm : m.WithinLimits limits slots) :
    (∃ m', m.run 1 = .stopped (.crash .endlessText) m') ↔ m.PrintsEndless := by
  rw [hm.run_one_eq_crash_iff]
  constructor
  · rintro ⟨f, fs, i, hframes, hdecode, hcrashes⟩
    cases hcrashes with
    | print opcode callee argument endless =>
        refine .print ?_ opcode callee argument
          (fun hrenders => Heap.renders_iff.mp hrenders endless)
        simp only [next?, hframes, hdecode, Except.toOption]
  · rintro @⟨i, v, next, opcode, callee, argument, endless⟩
    obtain ⟨f, fs, hframes, hdecode⟩ : ∃ f fs, m.frames = f :: fs ∧
        (m.codeOf f).decode f.ip = .ok i := by
      unfold next? at next
      split at next
      · cases next
      · next f fs hframes =>
          refine ⟨f, fs, hframes, ?_⟩
          cases hdecode : (m.codeOf f).decode f.ip with
          | error e => simp [hdecode, Except.toOption] at next
          | ok i' =>
              simp only [hdecode, Except.toOption, Option.some.injEq] at next
              rw [next]
    refine ⟨f, fs, i, hframes, hdecode, .print opcode callee argument ?_⟩
    rwa [Heap.renders_iff, not_not] at endless

end Machine

/-! ## Compiled programs -/

/-- The machine that is about to run a compiled program is sound. -/
theorem Bytecode.sound_machine {program : Program} {unit : Bytecode}
    (hunit : compileProgram program = .ok unit) (limits : Limits) :
    (unit.machine limits).Sound unit.code := by
  have hcompiled : ((Compiler.resume .withBuiltins #[]).compile program).1 = .ok unit := hunit
  rcases Compiler.compile_resume #[] ScopeChain.Sound.withBuiltins program with
    ⟨e, c, hc⟩ | ⟨unit', c, hc, hsound⟩
  · rw [hc] at hcompiled
    cases hcompiled
  · rw [hc] at hcompiled
    cases hcompiled
    obtain ⟨within, hcode⟩ := hsound.code
    have hstore := (Session.sound_new limits).store
    exact Machine.sound_initial limits hcode (hstore.continues hsound.continues)

/-- Values of every sort have a text at every point of a run exactly if no instruction of the run
writes a value to a container to which the value leads, where it is shown.  A step of the run prints
without end exactly if it prints a value that has no text. -/
theorem compileProgram_renders_iff {program : Program} {unit : Bytecode}
    (hunit : compileProgram program = .ok unit) (limits : Limits) (n : Nat) :
    let m := unit.machine limits
    ((∀ k ≤ n, ∀ v, (m.run k).machine.heap.Renders v) ↔
      ∀ k < n, ∀ m', m.run k = .unfinished m' → ¬m'.ClosesCircle) ∧
      ∀ m', m.run n = .unfinished m' →
        ((∃ m'', m'.run 1 = .stopped (.crash .endlessText) m'') ↔ m'.PrintsEndless) := by
  intro m
  have hsound := Bytecode.sound_machine hunit limits
  have hclosed : m.IsClosed := Machine.isClosed_initial _ _ _
  have hlimits : (m.run n).machine.WithinLimits limits _ :=
    Machine.run_induction (fun _ => Machine.WithinLimits.run_one)
      (Machine.withinLimits_initial _ _ _ _ _) n
  constructor
  · rw [← hclosed.run_iff hsound Machine.isFreeOfCircles_empty]
    simp only [Heap.isFreeOfCircles_iff, Nat.lt_succ_iff]
  · intro m' hm'
    rw [hm'] at hlimits
    exact hlimits.endlessText_iff

instance Except.decidableOk {ε α : Type} (r : Except ε α) (p : α → Prop) [DecidablePred p] :
    Decidable (∃ a, r = .ok a ∧ p a) :=
  match r with
  | .error _ => isFalse (by simp)
  | .ok a => decidable_of_iff (p a) (by simp)

instance Run.decidableUnfinished (r : Run) (p : Machine → Prop) [DecidablePred p] :
    Decidable (∀ m, r = .unfinished m → p m) :=
  match r with
  | .finished _ | .stopped _ _ => isTrue (by simp)
  | .unfinished m => decidable_of_iff (p m) (by simp)

/-- An array is put into another one twice, and then changed. -/
def sharedArray : Program :=
  [.declare "a" true none (some (.array [.int 1])),
    .declare "b" true none (some (.array [.ident "a", .ident "a"])),
    .setIndex (.ident "a") (.int 0) (.int 2),
    .expr (.call (.ident "puts") [.ident "b"] none)]

theorem compileProgram_renders_iff_sharedArray :
    ∃ unit, compileProgram sharedArray = .ok unit ∧
      (∀ k < 30, ∀ m', (unit.machine ⟨8, 1, 2⟩).run k = .unfinished m' → ¬m'.ClosesCircle) ∧
      ((unit.machine ⟨8, 1, 2⟩).run 30).machine.output = "[[2], [2]]\n" ∧
      ∀ k ≤ 30, ∀ v, ((unit.machine ⟨8, 1, 2⟩).run k).machine.heap.Renders v := by
  have hrun : ∃ unit, compileProgram sharedArray = .ok unit ∧
      ((unit.machine ⟨8, 1, 2⟩).run 30).machine.output = "[[2], [2]]\n" ∧
      ∀ k < 30, ∀ m', (unit.machine ⟨8, 1, 2⟩).run k = .unfinished m' →
        m'.writesNoObject = true := by
    decide +kernel
  obtain ⟨unit, hunit, houtput, hharmless⟩ := hrun
  have hwrites (k : Nat) (hk : k < 30) (m' : Machine)
      (hm' : (unit.machine ⟨8, 1, 2⟩).run k = .unfinished m') : ¬m'.ClosesCircle :=
    Machine.not_closesCircle_of_writesNoObject (hharmless k hk m' hm')
  have hrenders := (compileProgram_renders_iff hunit ⟨8, 1, 2⟩ 30).1.mpr hwrites
  exact ⟨unit, hunit, hwrites, houtput, hrenders⟩

-- A struct instance is written to a field of its own for which its type has no name.
example : ∃ unit, compileProgram
    [.structType ⟨"P", [("x", .int)]⟩,
      .declare "p" true (some (.struct "P" [("x", .int), ("y", .int)])) none,
      .setField (.ident "p") "y" (.ident "p") (some ⟨"P", [("x", .int), ("y", .int)]⟩),
      .expr (.call (.ident "puts") [.ident "p"] none)] = .ok unit ∧
    ((unit.machine ⟨8, 1, 1⟩).run 30).machine.output = "P\x7bx: 0\x7d\n" := by
  decide +kernel

/-- An array is written into itself and printed. -/
def selfHolding : Program :=
  [.declare "a" true none (some (.array [.int 1])),
    .setIndex (.ident "a") (.int 0) (.ident "a"),
    .expr (.call (.ident "puts") [.ident "a"] none)]

/-- The text of an array that was written into itself has no end: no depth is enough to write it,
and printing it never returns. -/
theorem renders_selfHolding_refuted :
    ∃ unit m, compileProgram selfHolding = .ok unit ∧
      (unit.machine ⟨8, 1, 1⟩).run 30 = .stopped (.crash .endlessText) m ∧
      .array 0 ∈ m.globals.slots ∧ ¬m.heap.Renders (.array 0) := by
  have hrun : ∃ unit, compileProgram selfHolding = .ok unit ∧
      ∃ m, (unit.machine ⟨8, 1, 1⟩).run 30 = .stopped (.crash .endlessText) m ∧
        .array 0 ∈ m.globals.slots ∧ m.heap.text? (.array 0) = none := by
    decide +kernel
  obtain ⟨unit, hunit, m, hrun, hglobal, htext⟩ := hrun
  have hself := Heap.text?_eq_none_iff.mp htext
  exact ⟨unit, m, hunit, hrun, hglobal, fun hrenders => Heap.renders_iff.mp hrenders hself⟩

end ScriptEngine
