import ScriptEngine.Proofs.Lists
import ScriptEngine.Proofs.Machine.Effect
import ScriptEngine.Proofs.SafeCode

/-!
# The values of a machine

A property that all values of a heap have, and that every value has which is not a closure, is kept
by all instructions that build no closure: what an effect gives, writes or stores comes from its
operands, from its view or is no closure.
-/

namespace ScriptEngine

/-! ## The values in a heap -/

/-- All values stored in the objects of the heap have the property. -/
structure Heap.All (p : Value → Prop) (h : Heap) : Prop where
  arrays : ∀ xs ∈ h.arrays, ∀ v ∈ xs, p v
  hashes : ∀ d ∈ h.hashes, ∀ e ∈ d.entries, p e.2
  structs : ∀ s ∈ h.structs, ∀ v ∈ s.fields, p v
  closures : ∀ c ∈ h.closures, ∀ v ∈ c.captured, p v

/-- What a call runs depends on the closures of the heap only. -/
theorem Routine.closureIn_congr {h h' : Heap} (hclosures : h'.closures = h.closures)
    (r : Routine) : r.closureIn h' = r.closureIn h := by
  cases r with
  | main code => rfl
  | closure address => rw [closureIn, closureIn, Heap.closure, Heap.closure, hclosures]

/-- A property of all values that are no closures. -/
def HoldsOfData (p : Value → Prop) : Prop :=
  ∀ v, (∀ a, v ≠ .closure a) → p v

theorem Dict.all_insert {α : Type} {p : α → Prop} {d : Dict α} {key : Key} {v : α}
    (hd : ∀ e ∈ d.entries, p e.2) (hv : p v) : ∀ e ∈ (d.insert key v).entries, p e.2 := by
  intro e he
  unfold insert at he
  split at he
  · rcases Array.mem_or_eq_of_mem_setIfInBounds he with hold | rfl
    · exact hd e hold
    · exact hv
  · rcases Array.mem_push.mp he with hold | rfl
    · exact hd e hold
    · exact hv

theorem Dict.all_get? {α : Type} {p : α → Prop} {d : Dict α} {key : Key} {v : α}
    (hd : ∀ e ∈ d.entries, p e.2) (hv : d.get? key = some v) : p v := by
  unfold get? at hv
  split at hv
  · obtain ⟨e, he, rfl⟩ := Option.map_eq_some_iff.mp hv
    exact hd e (Array.mem_of_getElem? he)
  · cases hv

namespace Heap.All

variable {p q : Value → Prop} {h : Heap}

theorem imp (hh : h.All p) (hpq : ∀ v, p v → q v) : h.All q where
  arrays xs hxs v hv := hpq v (hh.arrays xs hxs v hv)
  hashes d hd e he := hpq e.2 (hh.hashes d hd e he)
  structs s hs v hv := hpq v (hh.structs s hs v hv)
  closures c hc v hv := hpq v (hh.closures c hc v hv)

theorem empty : Heap.empty.All p := by
  constructor <;> simp [Heap.empty]

theorem array (hh : h.All p) (a : Nat) : ∀ v ∈ h.array a, p v := by
  unfold Heap.array
  cases ha : h.arrays[a]? with
  | none => simp
  | some xs => exact hh.arrays xs (Array.mem_of_getElem? ha)

theorem hash (hh : h.All p) (a : Nat) : ∀ e ∈ (h.hash a).entries, p e.2 := by
  unfold Heap.hash
  cases ha : h.hashes[a]? with
  | none => simp [Dict.empty]
  | some d => exact hh.hashes d (Array.mem_of_getElem? ha)

theorem struct (hh : h.All p) (a : Nat) : ∀ v ∈ (h.struct a).fields, p v := by
  unfold Heap.struct
  cases ha : h.structs[a]? with
  | none => simp
  | some s => exact hh.structs s (Array.mem_of_getElem? ha)

theorem closure (hh : h.All p) (a : Nat) : ∀ v ∈ (h.closure a).captured, p v := by
  unfold Heap.closure
  cases ha : h.closures[a]? with
  | none => simp
  | some c => exact hh.closures c (Array.mem_of_getElem? ha)

theorem newArray (hh : h.All p) {vs : Array Value} (hvs : ∀ v ∈ vs, p v) :
    (h.newArray vs).2.All p :=
  { hh with arrays := Array.forall_mem_push hh.arrays hvs }

theorem newHash (hh : h.All p) {d : Dict Value} (hd : ∀ e ∈ d.entries, p e.2) :
    (h.newHash d).2.All p :=
  { hh with hashes := Array.forall_mem_push hh.hashes hd }

theorem newStruct (hh : h.All p) {t : StructType} {vs : Array Value} (hvs : ∀ v ∈ vs, p v) :
    (h.newStruct t vs).2.All p :=
  { hh with structs := Array.forall_mem_push hh.structs hvs }

theorem newClosure (hh : h.All p) {f : Function} {vs : Array Value} (hvs : ∀ v ∈ vs, p v) :
    (h.newClosure f vs).2.All p :=
  { hh with closures := Array.forall_mem_push hh.closures hvs }

theorem setField (hh : h.All p) {a k : Nat} {v : Value} (hv : p v) : (h.setField a k v).All p := by
  have hstructs := Array.forall_mem_modify (k := a)
    (f := fun s => { s with fields := s.fields.setIfInBounds k v }) hh.structs
    fun _ hs => Array.forall_mem_set hs hv
  exact { hh with structs := hstructs }

theorem write (hh : h.All p) {place : Place} {v : Value} (hv : p v) : (h.write place v).All p := by
  cases place with
  | element a n =>
      exact { hh with
        arrays := Array.forall_mem_modify hh.arrays fun _ hs => Array.forall_mem_set hs hv }
  | tail a =>
      exact { hh with
        arrays := Array.forall_mem_modify hh.arrays fun _ hs => Array.forall_mem_push hs hv }
  | entry a k =>
      exact { hh with
        hashes := Array.forall_mem_modify hh.hashes fun _ hs => Dict.all_insert hs hv }

/-- Reading a container gives one of its values, or null. -/
theorem index (hh : h.All p) (hnull : p .null) {container position v : Value}
    (hv : h.index container position = .ok v) : p v := by
  cases container with
  | array a =>
      cases position with
      | int i =>
          cases hv
          refine Option.getD_of_forall (fun v hv => ?_) hnull
          obtain ⟨n, -, hn⟩ := Option.bind_eq_some_iff.mp hv
          exact hh.array a v (Array.mem_of_getElem? hn)
      | _ => cases hv
  | hash a =>
      simp only [Heap.index] at hv
      split at hv
      · cases hv
        exact Option.getD_of_forall (fun v hv => Dict.all_get? (hh.hash a) hv) hnull
      · cases hv
  | _ => cases hv

end Heap.All

/-! ## The values that operations and built-in functions give -/

theorem Value.ne_closure_of_isPlain {v : Value} (h : v.isPlain = true) (a : Nat) :
    v ≠ .closure a := by
  rintro rfl
  cases h

theorem Operation.isPlain_of_apply {op : Operation} {l r v : Value} (h : op.apply l r = .ok v) :
    v.isPlain = true := by
  unfold apply at h
  split at h
  · unfold onInts at h
    split at h <;> first | (cases h <;> rfl) | (split at h <;> cases h; rfl)
  · unfold onFloats at h
    split at h <;> cases h <;> rfl
  all_goals cases h <;> rfl

theorem Value.isPlain_of_opposite {v w : Value} (h : v.opposite = .ok w) : w.isPlain = true := by
  cases v <;> cases h <;> rfl

theorem Operation.ne_closure_of_apply {op : Operation} {l r v : Value} (h : op.apply l r = .ok v)
    (a : Nat) : v ≠ .closure a :=
  Value.ne_closure_of_isPlain (isPlain_of_apply h) a

theorem Value.ne_closure_of_opposite {v w : Value} (h : v.opposite = .ok w) (a : Nat) :
    w ≠ .closure a :=
  ne_closure_of_isPlain (isPlain_of_opposite h) a

/-- All values of the reply have the property. -/
def Reply.All (p : Value → Prop) : Reply → Prop
  | .value v => p v
  | .array xs => ∀ v ∈ xs, p v
  | _ => True

namespace Builtin

theorem all_optional {p : Value → Prop} {o : Option Value} (ho : ∀ v, o = some v → p v) :
    (optional o).All p := by
  cases o with
  | none => trivial
  | some v => exact ho v rfl

theorem onArray_all {p : Value → Prop} {b : Builtin} {h : Heap} {v : Value}
    {f : Array Value → Reply} {r : Reply} (hh : h.All p)
    (hf : ∀ xs : Array Value, (∀ x ∈ xs, p x) → (f xs).All p)
    (hr : b.onArray h v f = .ok r) : r.All p := by
  cases v with
  | array a =>
      cases hr
      exact hf _ (hh.array a)
  | _ => cases hr

/-- What a built-in function gives comes from its arguments, or is an integer. -/
theorem reply_all {p : Value → Prop} {b : Builtin} {h : Heap} {vs : List Value} {r : Reply}
    (hint : ∀ n, p (.int n)) (hh : h.All p) (hvs : ∀ v ∈ vs, p v) (hr : b.reply h vs = .ok r) :
    r.All p := by
  unfold reply at hr
  split at hr
  · cases hlines : lines h "" vs with
    | error stop => simp [hlines, Except.map] at hr
    | ok text =>
        rw [hlines] at hr
        cases hr
        trivial
  · rename_i v
    cases v <;> cases hr <;> exact hint _
  · exact onArray_all hh (fun xs hxs => all_optional fun v hv => hxs v (Array.mem_of_getElem? hv))
      hr
  · exact onArray_all hh (fun xs hxs => all_optional fun v hv => hxs v (Array.mem_of_back? hv)) hr
  · refine onArray_all hh (fun xs hxs => ?_) hr
    split
    · trivial
    · intro v hv
      obtain ⟨k, hk, rfl⟩ := Array.mem_iff_getElem.mp hv
      rw [Array.getElem_extract]
      exact hxs _ (Array.getElem_mem _)
  · rename_i w
    have hw : p w := hvs w (by simp)
    refine onArray_all hh (fun xs hxs => ?_) hr
    exact Array.forall_mem_push hxs hw
  · cases hr
  · cases hr

end Builtin

theorem Globals.mem_of_get {g : Globals} {k : Nat} {v : Value} (h : g.get k = .ok v) :
    v ∈ g.slots := by
  unfold get at h
  split at h
  · rename_i hv
    cases h
    exact Array.mem_of_getElem? hv
  · cases h

theorem Exec.storePairs_all {p : Value → Prop} {d d' : Dict Value} {vs : List Value}
    (hd : ∀ e ∈ d.entries, p e.2) (hvs : ∀ v ∈ vs, p v) (h : storePairs d vs = .ok d') :
    ∀ e ∈ d'.entries, p e.2 := by
  fun_induction storePairs d vs with
  | case1 d k v rest key hkey ih =>
      refine ih (Dict.all_insert hd (hvs v (by simp))) (fun w hw => hvs w ?_) h
      exact List.mem_cons_of_mem _ (List.mem_cons_of_mem _ hw)
  | case2 => cases h
  | case3 =>
      cases h
      exact hd

/-! ## The values of an effect -/

/-- All values that an instruction can see have the property. -/
structure View.All (p : Value → Prop) (w : View) : Prop where
  captured : ∀ v ∈ w.captured, p v
  slot : ∀ k v, w.slot k = some v → p v
  globals : ∀ v ∈ w.globals.slots, p v
  heap : w.heap.All p

/-- All values that an effect gives, writes or stores have the property, and the closures are those
that were there before. -/
structure Effect.Keeps (p : Value → Prop) (w : View) (e : Effect) : Prop where
  value : ∀ v, e.value = some v → p v
  written : ∀ k v, e.written = some (k, v) → p v
  globals : ∀ v ∈ e.globals.slots, p v
  heap : e.heap.All p
  same : e.heap.closures = w.heap.closures
  mainAddress : e.mainAddress = w.mainAddress

/-- If there is an effect, then it keeps the property and the closures. -/
def KeepsIfOk (p : Value → Prop) (w : View) (r : Except (Stop RuntimeError) Effect) : Prop :=
  ∀ e, r = .ok e → e.Keeps p w

theorem keepsIfOk_error {p : Value → Prop} {w : View} (stop : Stop RuntimeError) :
    KeepsIfOk p w (.error stop) := by
  intro e he
  cases he

namespace View.All

variable {p : Value → Prop} {w : View}

theorem nothing (hw : w.All p) : w.nothing.Keeps p w :=
  { value := by simp [View.nothing]
    written := by simp [View.nothing]
    globals := hw.globals
    heap := hw.heap
    same := rfl
    mainAddress := rfl }

theorem give (hw : w.All p) {v : Value} (hv : p v) :
    KeepsIfOk p w (.ok (w.give v)) := by
  rintro e ⟨⟩
  refine { hw.nothing with value := ?_ }
  rintro _ ⟨⟩
  exact hv

theorem giveNew (hw : w.All p) {v : Value} {h : Heap} (hv : p v) (hh : h.All p)
    (hsame : h.closures = w.heap.closures) :
    KeepsIfOk p w (.ok (w.giveNew (v, h))) := by
  rintro e ⟨⟩
  refine { hw.nothing with value := ?_, heap := hh, same := hsame }
  rintro _ ⟨⟩
  exact hv

theorem giveResult (hw : w.All p) {r : Except RuntimeError Value} (hr : ∀ v, r = .ok v → p v) :
    KeepsIfOk p w (w.giveResult r) := by
  cases r with
  | ok v => exact hw.give (hr v rfl)
  | error e => exact keepsIfOk_error _

theorem giveFound (hw : w.All p) {i : Instruction} {r : Option Value}
    (hr : ∀ v, r = some v → p v) : KeepsIfOk p w (w.giveFound i r) := by
  cases r with
  | some v => exact hw.give (hr v rfl)
  | none => exact keepsIfOk_error _

/-- Replacing the heap by one with the same closures. -/
theorem setHeap (hw : w.All p) {h : Heap} (hh : h.All p) (hsame : h.closures = w.heap.closures) :
    KeepsIfOk p w (.ok { w.nothing with heap := h }) := by
  rintro e ⟨⟩
  exact { hw.nothing with heap := hh, same := hsame }

theorem answer (hw : w.All p) (hp : HoldsOfData p) {b : Builtin} {vs : List Value}
    (hvs : ∀ v ∈ vs, p v) : KeepsIfOk p w ((b.reply w.heap vs).map w.answer) := by
  cases hreply : b.reply w.heap vs with
  | error stop => exact keepsIfOk_error _
  | ok r =>
      have hr := Builtin.reply_all (fun _ => hp _ (by simp)) hw.heap hvs hreply
      cases r with
      | nothing => exact hw.give (hp .null (by simp))
      | value v => exact hw.give hr
      | array xs => exact hw.giveNew (hp _ (by simp)) (hw.heap.newArray hr) rfl
      | print text =>
          rintro e ⟨⟩
          refine { hw.nothing with value := ?_ }
          rintro _ ⟨⟩
          exact hp .null (by simp)

theorem call (hw : w.All p) (hp : HoldsOfData p) {callee : Value} {vs : List Value}
    (hvs : ∀ v ∈ vs, p v) : KeepsIfOk p w (w.call callee vs) := by
  cases callee with
  | builtin b => exact hw.answer hp hvs
  | _ => exact keepsIfOk_error _

theorem struct (hw : w.All p) (hp : HoldsOfData p) {i : Instruction} {vs : List Value}
    (hvs : ∀ v ∈ vs, p v) : KeepsIfOk p w (w.struct i vs) := by
  unfold View.struct
  split
  · exact hw.giveNew (hp _ (by simp)) (hw.heap.newStruct (by simpa using hvs)) rfl
  · exact keepsIfOk_error _

theorem getField (hw : w.All p) {i : Instruction} {object : Value} :
    KeepsIfOk p w (w.getField i object) := by
  cases object with
  | struct a =>
      exact hw.giveFound fun v hv => hw.heap.struct a v (Array.mem_of_getElem? hv)
  | _ => exact keepsIfOk_error _

theorem setField (hw : w.All p) {i : Instruction} {object v : Value} (hv : p v) :
    KeepsIfOk p w (w.setField i object v) := by
  cases object with
  | struct a =>
      simp only [View.setField]
      split
      · exact hw.setHeap (hw.heap.setField hv) rfl
      · exact keepsIfOk_error _
  | _ => exact keepsIfOk_error _

theorem goTo (hw : w.All p) (target : Option Nat) :
    KeepsIfOk p w (.ok { w.nothing with target }) := by
  rintro e ⟨⟩
  exact { hw.nothing with }

theorem getLocal (hw : w.All p) {k : Nat} :
    KeepsIfOk p w
      (match w.slot k with
        | some v => .ok (w.give v)
        | none => .error (.crash .slotOutOfRange)) := by
  cases hv : w.slot k with
  | some v => exact hw.give (hw.slot k v hv)
  | none => exact keepsIfOk_error _

theorem setLocal (hw : w.All p) {k : Nat} {v : Value} (hv : p v) :
    KeepsIfOk p w (.ok { w.nothing with written := some (k, v) }) := by
  rintro e ⟨⟩
  refine { hw.nothing with written := ?_ }
  rintro _ _ ⟨⟩
  exact hv

theorem setGlobal (hw : w.All p) {k : Nat} {v : Value} (hv : p v) :
    KeepsIfOk p w
      (match w.globals.set k v with
        | .ok globals => .ok { w.nothing with globals }
        | .error e => .error (.error e)) := by
  unfold Globals.set
  split
  · rename_i hset
    split at hset
    · cases hset
      rintro e ⟨⟩
      exact { hw.nothing with globals := Array.forall_mem_set hw.globals hv }
    · cases hset
  · exact keepsIfOk_error _

theorem setIndex (hw : w.All p) {container position v : Value} (hv : p v) :
    KeepsIfOk p w
      (match w.heap.setIndex container position v with
        | .ok heap => .ok { w.nothing with heap }
        | .error e => .error (.error e)) := by
  unfold Heap.setIndex
  cases w.heap.place container position with
  | error e => exact keepsIfOk_error _
  | ok place => exact hw.setHeap (hw.heap.write hv) (by cases place <;> rfl)

theorem makeHash (hw : w.All p) (hp : HoldsOfData p) {vs : List Value} (hvs : ∀ v ∈ vs, p v) :
    KeepsIfOk p w
      (match Exec.storePairs .empty vs with
        | .ok entries => .ok (w.giveNew (w.heap.newHash entries))
        | .error e => .error (.error e)) := by
  cases hpairs : Exec.storePairs .empty vs with
  | error e => exact keepsIfOk_error _
  | ok d =>
      have hd := Exec.storePairs_all (by simp [Dict.empty]) hvs hpairs
      exact hw.giveNew (hp _ (by simp)) (hw.heap.newHash hd) rfl

end View.All

namespace Instruction

/-- An instruction that builds no closure keeps a property of data. -/
theorem keeps_effect {p : Value → Prop} {i : Instruction} {w : View} {args : List Value}
    (hp : HoldsOfData p) (hw : w.All p) (hargs : ∀ v ∈ args, p v)
    (hlength : args.length = i.taken) (hclosure : i.opcode ≠ .closure)
    (hconstant : i.opcode = .constant → ∀ v, w.constants[i.operand 0]? = some v → p v)
    (hcurrent : i.opcode = .currentClosure → ∃ a, w.routine = .closure a ∧ p (.closure a)) :
    KeepsIfOk p w (i.effect w args) := by
  have hone (h : i.taken = 1) : ∃ v, args = [v] :=
    List.length_eq_one_iff.mp (hlength.trans h)
  have htwo (h : i.taken = 2) : ∃ v w, args = [v, w] :=
    List.length_eq_two.mp (hlength.trans h)
  obtain ⟨op, ns⟩ := i
  cases op with
  | closure => exact absurd rfl hclosure
  | constant => exact hw.giveFound (hconstant rfl)
  | currentClosure =>
      obtain ⟨a, hroutine, ha⟩ := hcurrent rfl
      simp only [effect, View.giveCurrent_of_closure hroutine]
      exact hw.give ha
  | pushTrue | pushFalse | pushNull => exact hw.give (hp _ (by simp))
  | getGlobal | getConstGlobal =>
      exact hw.giveResult fun v hv => hw.globals v (Globals.mem_of_get hv)
  | getLocal | getConstLocal => exact hw.getLocal
  | getFree => exact hw.giveFound fun v hv => hw.captured v (Array.mem_of_getElem? hv)
  | getBuiltin =>
      refine hw.giveFound fun v hv => ?_
      obtain ⟨b, -, rfl⟩ := Option.map_eq_some_iff.mp hv
      exact hp _ (by simp)
  | add | sub | mul | div | greater | greaterOrEqual | and | or =>
      obtain ⟨l, r, rfl⟩ := htwo rfl
      exact hw.giveResult fun v hv => hp v (Operation.ne_closure_of_apply hv)
  | equal | notEqual =>
      obtain ⟨l, r, rfl⟩ := htwo rfl
      exact hw.give (hp _ (by simp))
  | index =>
      obtain ⟨container, position, rfl⟩ := htwo rfl
      exact hw.giveResult fun v hv => hw.heap.index (hp _ (by simp)) hv
  | setField =>
      obtain ⟨object, v, rfl⟩ := htwo rfl
      exact hw.setField (hargs v (by simp))
  | setIndex =>
      obtain ⟨container, position, v, rfl⟩ := List.length_eq_three.mp hlength
      exact hw.setIndex (hargs v (by simp))
  | negate =>
      obtain ⟨v, rfl⟩ := hone rfl
      exact hw.giveResult fun w hw => hp w (Value.ne_closure_of_opposite hw)
  | not =>
      obtain ⟨v, rfl⟩ := hone rfl
      exact hw.give (hp _ (by simp))
  | jump => exact hw.goTo _
  | jumpNotTruthy =>
      obtain ⟨v, rfl⟩ := hone rfl
      exact hw.goTo _
  | setGlobal | setConstGlobal =>
      obtain ⟨v, rfl⟩ := hone rfl
      exact hw.setGlobal (hargs v (by simp))
  | setLocal | setConstLocal =>
      obtain ⟨v, rfl⟩ := hone rfl
      exact hw.setLocal (hargs v (by simp))
  | getField =>
      obtain ⟨object, rfl⟩ := hone rfl
      exact hw.getField
  | pop =>
      obtain ⟨v, rfl⟩ := hone rfl
      exact hw.goTo none
  | returnValue =>
      obtain ⟨v, rfl⟩ := hone rfl
      exact hw.goTo none
  | returnNull =>
      obtain rfl := List.length_eq_zero_iff.mp hlength
      exact hw.goTo none
  | array => exact hw.giveNew (hp _ (by simp)) (hw.heap.newArray (by simpa using hargs)) rfl
  | hash => exact hw.makeHash hp hargs
  | struct => exact hw.struct hp hargs
  | call =>
      cases args with
      | nil => cases hlength
      | cons callee vs =>
          exact hw.call hp fun v hv => hargs v (List.mem_cons_of_mem _ hv)

end Instruction

/-! ## The values on the stack -/

namespace Machine

variable {m : Machine}

theorem Top.forall_mem {p : Value → Prop} {below : Nat} {args : List Value}
    (htop : m.Top below args) (hstack : ∀ v ∈ m.stack, p v) : ∀ v ∈ args, p v := by
  intro v hv
  obtain ⟨k, hk⟩ := List.mem_iff_getElem?.mp hv
  exact hstack v (Array.mem_of_getElem? (htop.get k v hk))

/-- What a call captured are values of the heap. -/
theorem captured_all {p : Value → Prop} (hheap : m.heap.All p) (f : Frame) :
    ∀ v ∈ (m.view f).captured, p v := by
  change ∀ v ∈ (f.routine.closureIn m.heap).captured, p v
  cases f.routine with
  | main code => exact fun v hv => absurd hv (Array.not_mem_empty v)
  | closure address => exact hheap.closure address

theorem size_stackAfter (base below : Nat) (e : Effect) :
    (m.stackAfter base below e).size = m.stack.size := by
  unfold stackAfter slotsAfter
  split <;> split <;> simp

theorem stackAfter_forall {p : Value → Prop} {base below : Nat} {e : Effect}
    (hstack : ∀ v ∈ m.stack, p v) (hvalue : ∀ v, e.value = some v → p v)
    (hwritten : ∀ k v, e.written = some (k, v) → p v) :
    ∀ v ∈ m.stackAfter base below e, p v := by
  have hslots : ∀ v ∈ m.slotsAfter base e, p v := by
    unfold slotsAfter
    split
    · rename_i k v hk
      exact Array.forall_mem_set hstack (hwritten k v hk)
    · exact hstack
  unfold stackAfter
  split
  · rename_i v hv
    exact Array.forall_mem_set hslots (hvalue v hv)
  · exact hslots

end Machine

end ScriptEngine
