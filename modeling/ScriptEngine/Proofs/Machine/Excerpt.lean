import ScriptEngine.Proofs.Machine.Conduct
import ScriptEngine.Proofs.Machine.Renaming

/-!
# Running a part of a code on its own

While a machine runs a part of a top-level code, another machine that runs this part alone does the
same, step by step.  The machines agree on the globals, the heap and the open calls, up to the
addresses of closures and the place where the part begins, and on the slots of the stack that have
been in use since the part began (`Excerpt.Mirrors`).  Hence the machine that runs the whole code
comes to the end of the part when the other one ends, and stops for the same reason when the other
one stops (`Excerpt.Mirrors.run`).
-/

namespace ScriptEngine

/-- A part of a top-level code that another machine runs as a code of its own. -/
structure Excerpt where
  whole : Code
  part : Code
  /-- Where the part begins. -/
  start : Nat
  /-- The addresses of closures on the other machine. -/
  names : Nat → Nat
  /-- Where a run of the part can come. -/
  inside : Nat → Prop
  embeds : ∀ offset i, inside offset → part.decode offset = .ok i →
    ∃ j, whole.decode (offset + start) = .ok j ∧ i.Shifted start j
  onward : ∀ offset target i, inside offset → part.decode offset = .ok i → i.Next offset target →
    inside target

/-! ## Slots of the stack -/

/-- Below a height, the second stack holds what the first one holds, with other addresses for
closures. -/
structure SlotsRenamed (σ : Nat → Nat) (height : Nat) (stack stack' : Array Value) : Prop where
  size : stack'.size = stack.size
  get : ∀ k < height, stack'[k]? = stack[k]?.map (Value.rename σ)

namespace SlotsRenamed

variable {σ : Nat → Nat} {height : Nat} {stack stack' : Array Value}

theorem of_le (h : SlotsRenamed σ height stack stack') {height' : Nat} (hle : height' ≤ height) :
    SlotsRenamed σ height' stack stack' :=
  ⟨h.size, fun k hk => h.get k (Nat.lt_of_lt_of_le hk hle)⟩

theorem set (h : SlotsRenamed σ height stack stack') {k : Nat} (hk : k ≤ height) (v : Value) :
    SlotsRenamed σ (max height (k + 1)) (stack.setIfInBounds k v)
      (stack'.setIfInBounds k (v.rename σ)) := by
  refine ⟨by rw [Array.size_setIfInBounds, Array.size_setIfInBounds, h.size], fun j hj => ?_⟩
  rw [Array.getElem?_setIfInBounds, Array.getElem?_setIfInBounds, h.size]
  by_cases hjk : k = j
  · subst hjk
    rw [if_pos rfl, if_pos rfl]
    split <;> rfl
  · rw [if_neg hjk, if_neg hjk]
    exact h.get j (by omega)

theorem nullFrom (h : SlotsRenamed σ height stack stack') {start : Nat} (hstart : start ≤ height)
    (count : Nat) :
    SlotsRenamed σ (max height (start + count)) (Machine.nullFrom stack start count)
      (Machine.nullFrom stack' start count) := by
  unfold Machine.nullFrom
  induction count generalizing start height stack stack' with
  | zero => exact h.of_le (by omega)
  | succ count ih =>
      rw [List.range'_succ, List.foldl_cons, List.foldl_cons]
      have hnext : start + 1 ≤ max height (start + 1) := by omega
      exact (ih (h.set hstart .null) hnext).of_le (by omega)

end SlotsRenamed

/-! ## How an effect is performed -/

namespace Machine.Performs

variable {m m₀ : Machine} {f : Frame} {fs : List Frame} {below : Nat} {x : Exec Unit} {e : Effect}

theorem eq_ok (h : m.Performs f fs below (.ok e) x m₀)
    (hroom : e.value.isSome = true → below < m.stack.size) :
    x m₀ = .ok () (m.perform f fs below e) := by
  cases hx : x m₀ with
  | ok u n =>
      obtain ⟨e', he, -, rfl⟩ := h.ok hx
      cases he
      rfl
  | error stop n =>
      cases h.error hx with
      | refused effect => cases effect
      | full effect value noRoom =>
          cases effect
          rw [value] at hroom
          exact absurd (hroom rfl) (Nat.not_lt.mpr noRoom)

theorem eq_error {stop : Stop RuntimeError} (h : m.Performs f fs below (.error stop) x m₀) :
    ∃ n, x m₀ = .error stop n ∧ n.globals = m.globals ∧ n.heap = m.heap ∧ n.output = m.output := by
  cases hx : x m₀ with
  | ok u n =>
      obtain ⟨e', he, -⟩ := h.ok hx
      cases he
  | error stop' n =>
      cases h.error hx with
      | refused effect globals heap output =>
          cases effect
          exact ⟨n, rfl, globals, heap, output⟩
      | full effect => cases effect

theorem eq_full (h : m.Performs f fs below (.ok e) x m₀) (hvalue : e.value.isSome = true)
    (hfull : m.stack.size ≤ below) :
    ∃ n, x m₀ = .error (.error .stackOverflow) n ∧ n.globals = e.globals ∧ n.heap = e.heap ∧
      n.output = m.output ++ e.printed := by
  cases hx : x m₀ with
  | ok u n =>
      obtain ⟨e', he, hroom, -⟩ := h.ok hx
      cases he
      exact absurd (hroom hvalue) (Nat.not_lt.mpr hfull)
  | error stop n =>
      cases h.error hx with
      | refused effect => cases effect
      | full effect _ _ globals heap output =>
          cases effect
          exact ⟨n, rfl, globals, heap, output⟩

end Machine.Performs

namespace Excerpt

variable {x : Excerpt} {before : String} {touched : Nat} {m m' : Machine}

/-! ## Corresponding machines -/

/-- The open calls correspond: at the bottom, one machine runs the whole code and the other one the
part; above, both run the same functions. -/
inductive Calls (x : Excerpt) : List Frame → List Frame → Prop
  | main {offset : Nat} (inside : x.inside offset) :
      Calls x [{ routine := .main x.whole, ip := offset + x.start, base := 0 }]
        [{ routine := .main x.part, ip := offset, base := 0 }]
  | call {a ip base : Nat} {fs fs' : List Frame} (rest : Calls x fs fs') :
      Calls x ({ routine := .closure a, ip, base } :: fs)
        ({ routine := .closure (x.names a), ip, base } :: fs')

theorem Calls.length_eq {fs fs' : List Frame} (h : x.Calls fs fs') : fs'.length = fs.length := by
  induction h with
  | main => rfl
  | call _ ih => rw [List.length_cons, List.length_cons, ih]

/-- What outlives the machines corresponds; the first one had printed something before. -/
structure Leaves (x : Excerpt) (before : String) (m m' : Machine) : Prop where
  globals : m'.globals = m.globals.rename x.names
  heap : m.heap.Renamed x.names m'.heap
  output : m.output = before ++ m'.output

/-- The second machine runs the part as the first one does within the whole code.  The slots below
`touched` have been in use since the part began. -/
structure Mirrors (x : Excerpt) (before : String) (touched : Nat) (m m' : Machine) : Prop
    extends Leaves x before m m' where
  constants : Continues m'.constants m.constants
  maxFrames : m'.maxFrames = m.maxFrames
  sp : m'.sp = m.sp
  sp_le : m.sp ≤ touched
  slots : SlotsRenamed x.names touched m.stack m'.stack
  calls : x.Calls m.frames m'.frames

/-- If the slot above the stack has been in use, both machines took the same value last. -/
theorem Mirrors.lastTaken (h : x.Mirrors before touched m m') (hsp : m.sp < touched) :
    m'.lastTaken = m.lastTaken.rename x.names := by
  rw [Machine.lastTaken, Machine.lastTaken, h.sp, h.slots.get _ hsp]
  cases m.stack[m.sp]? <;> rfl

/-! ## Turns -/

/-- Both machines are about to run the same instruction, up to its place. -/
structure Turn (x : Excerpt) (m m' : Machine) (f : Frame) (fs : List Frame) (f' : Frame)
    (fs' : List Frame) (shift : Nat) (i j : Instruction) : Prop where
  frames : m.frames = f :: fs
  decode : (m.codeOf f).decode f.ip = .ok j
  shifted : i.Shifted shift j
  base : f.base = f'.base
  ip : f.ip = f'.ip + shift
  view : (m.view f).Renamed x.names (m'.view f')
  current : i.opcode = .currentClosure →
    ∃ a, f.routine = .closure a ∧ f'.routine = .closure (x.names a)
  onward : ∀ target, i.Next f'.ip target →
    x.Calls (f.goTo (target + shift) :: fs) (f'.goTo target :: fs')
  rest : 1 ≤ f'.base → x.Calls fs fs'

section

variable {f' : Frame} {fs' : List Frame} {c' : Closure} {r' : Room} {i : Instruction} {height : Nat}
  {args' : List Value}

theorem Mirrors.view_renamed (h : x.Mirrors before touched m m') {f : Frame}
    (hcaptured : (m'.closureOf f').captured = (m.closureOf f).captured.map (Value.rename x.names)) :
    (m.view f).Renamed x.names (m'.view f') where
  constants := h.constants
  captured := hcaptured
  globals := h.globals
  heap := h.heap

/-- At the top level, the second machine is about to run an instruction of the part, and the first
one runs it further on. -/
theorem Mirrors.turn_main (h : x.Mirrors before touched m m') {offset : Nat}
    (hframes : m.frames = [⟨.main x.whole, offset + x.start, 0⟩]) (hinside : x.inside offset)
    (hr : m'.Ready x.part ⟨.main x.part, offset, 0⟩ [] c' r' i height args') :
    ∃ j, x.Turn m m' ⟨.main x.whole, offset + x.start, 0⟩ [] ⟨.main x.part, offset, 0⟩ []
      x.start i j := by
  have hdecode : x.part.decode offset = .ok i := hr.decode
  obtain ⟨j, hj, hshifted⟩ := x.embeds offset i hinside hdecode
  refine ⟨j, hframes, hj, hshifted, rfl, rfl, h.view_renamed Array.map_empty.symm, ?_, ?_, ?_⟩
  · intro hop
    obtain ⟨a, ha, -⟩ := hr.of_currentClosure hop
    cases ha
  · intro target hnext
    exact .main (x.onward _ _ i hinside hdecode hnext)
  · intro hbase
    cases hbase

/-- In a function, both machines are about to run the same instruction. -/
theorem Mirrors.turn_call (h : x.Mirrors before touched m m') {a ip base : Nat} {fs : List Frame}
    (hframes : m.frames = ⟨.closure a, ip, base⟩ :: fs) (hrest : x.Calls fs fs')
    (hr : m'.Ready x.part ⟨.closure (x.names a), ip, base⟩ fs' c' r' i height args') :
    x.Turn m m' ⟨.closure a, ip, base⟩ fs ⟨.closure (x.names a), ip, base⟩ fs' 0 i i := by
  have hclosure : m'.closureOf ⟨.closure (x.names a), ip, base⟩ =
      (m.closureOf ⟨.closure a, ip, base⟩).rename x.names := h.heap.closure a
  have hdecode := hr.decode
  rw [Machine.codeOf, hclosure] at hdecode
  refine ⟨hframes, hdecode, .refl i, rfl, rfl, h.view_renamed ?_, fun _ => ⟨a, rfl, rfl⟩, ?_,
    fun _ => hrest⟩
  · rw [hclosure]
    rfl
  · intro target _
    exact .call hrest

/-- When the second machine is about to run an instruction, so is the first one. -/
theorem Mirrors.turn (h : x.Mirrors before touched m m')
    (hr : m'.Ready x.part f' fs' c' r' i height args') :
    ∃ f fs shift j, x.Turn m m' f fs f' fs' shift i j := by
  have hcalls := h.calls
  rw [hr.frames] at hcalls
  generalize hframes : m.frames = frames at hcalls
  cases hcalls with
  | main inside =>
      obtain ⟨j, hturn⟩ := h.turn_main hframes inside hr
      exact ⟨_, _, _, j, hturn⟩
  | call rest => exact ⟨_, _, 0, i, h.turn_call hframes rest hr⟩

/-- The first machine finds what the instruction takes. -/
theorem Turn.ready {f : Frame} {fs : List Frame} {shift : Nat} {j : Instruction}
    (hturn : x.Turn m m' f fs f' fs' shift i j) (hm : m.Sound x.whole) :
    ∃ c r height args, m.Ready x.whole f fs c r j height args := by
  have hdecode := hturn.decode
  rcases hm.ready with ⟨-, f₀, hframes, -, -, hip⟩ | ⟨f₀, fs₀, c, r, j₀, height, args, hr⟩
  · rw [hturn.frames] at hframes
    cases hframes
    rw [hip] at hdecode
    exact absurd hdecode Code.not_decode_size
  · have hframes := hr.frames
    rw [hturn.frames] at hframes
    cases hframes
    rw [hr.decode] at hdecode
    cases hdecode
    exact ⟨c, r, height, args, hr⟩

/-- Both machines take corresponding values. -/
theorem Mirrors.args_eq (h : x.Mirrors before touched m m') {f : Frame} {fs : List Frame}
    {c : Closure} {r : Room} {j : Instruction} {height' : Nat} {args : List Value}
    (hr : m.Ready x.whole f fs c r j height' args)
    (hr' : m'.Ready x.part f' fs' c' r' i height args') (htaken : j.taken = i.taken) :
    args' = args.map (Value.rename x.names) := by
  have hsp := hr.top.sp
  have hlength : args'.length = args.length := by rw [hr'.length, hr.length, htaken]
  have hbelow : m'.sp - i.taken = m.sp - j.taken := by rw [h.sp, htaken]
  have htouched := h.sp_le
  apply List.ext_getElem?
  intro k
  rw [List.getElem?_map]
  by_cases hk : k < args.length
  · have hv := hr.top.get k _ (List.getElem?_eq_getElem hk)
    have hv' := hr'.top.get k _ (List.getElem?_eq_getElem (hlength.symm ▸ hk))
    rw [hbelow, h.slots.get _ (by omega), hv] at hv'
    rw [List.getElem?_eq_getElem hk, List.getElem?_eq_getElem (hlength.symm ▸ hk), ← hv']
  · rw [List.getElem?_eq_none (by omega), List.getElem?_eq_none (by omega), Option.map_none]

end

/-! ## Steps -/

/-- When the second machine makes a step, so does the first one; when the second one stops, the
first one stops for the same reason. -/
def StepsAlike (x : Excerpt) (before : String) (touched : Nat) (m m' : Machine) : Prop :=
  ∃ byte, m'.nextByte? = some byte ∧ Ends (Exec.step byte) m'
    (fun _ n' => ∃ n, m.run 1 = .unfinished n ∧ x.Mirrors before (max touched n.sp) n n')
    (fun stop n' => ∃ n, m.run 1 = .stopped stop n ∧ x.Leaves before n n')

section

variable {f f' : Frame} {fs fs' : List Frame} {c c' : Closure} {r r' : Room} {i j : Instruction}
  {height height' shift : Nat} {args args' : List Value}

/-- What effects leave corresponds if the effects do. -/
theorem Leaves.perform {e e' : Effect} (h : x.Leaves before m m')
    (he : e.Renamed x.names shift e') {n n' : Machine} (hglobals : n.globals = e.globals)
    (hheap : n.heap = e.heap) (houtput : n.output = m.output ++ e.printed)
    (hglobals' : n'.globals = e'.globals) (hheap' : n'.heap = e'.heap)
    (houtput' : n'.output = m'.output ++ e'.printed) : x.Leaves before n n' where
  globals := by rw [hglobals, hglobals', he.globals]
  heap := by
    rw [hheap, hheap']
    exact he.heap
  output := by rw [houtput, houtput', h.output, he.printed, String.append_assoc]

/-- Performing corresponding effects keeps the machines corresponding. -/
theorem Mirrors.perform (h : x.Mirrors before touched m m')
    (hturn : x.Turn m m' f fs f' fs' shift i j) {below : Nat} {e e' : Effect}
    (he : e.Renamed x.names shift e') (hsuits : e'.Suits i) (hbelow : below ≤ touched)
    (hwritten : ∀ k v, e.written = some (k, v) → f.base + k < touched) :
    let n := m.perform (f.goTo (f.ip + j.width)) fs below e
    x.Mirrors before (max touched n.sp) n
      (m'.perform (f'.goTo (f'.ip + i.width)) fs' below e') := by
  intro n
  have hvalue : e'.value.isSome = e.value.isSome := by rw [he.value, Option.isSome_map]
  have hslots : SlotsRenamed x.names touched (m.slotsAfter f.base e)
      (m'.slotsAfter f'.base e') := by
    simp only [Machine.slotsAfter, he.written]
    cases hwrite : e.written with
    | none => exact h.slots
    | some w =>
        have hk := hwritten w.1 w.2 hwrite
        rw [← hturn.base]
        exact (h.slots.set (Nat.le_of_lt hk) w.2).of_le (Nat.le_max_left _ _)
  have htarget : e.target.getD (f.ip + j.width) = e'.target.getD (f'.ip + i.width) + shift := by
    rw [he.target, hturn.shifted.width_eq, hturn.ip]
    cases e'.target with
    | none => simp only [Option.map_none, Option.getD_none]; omega
    | some target => rfl
  have hcalls := hturn.onward _ (hsuits.next f'.ip)
  rw [← htarget] at hcalls
  refine { h.toLeaves.perform he rfl rfl rfl rfl rfl rfl with
    constants := h.constants, maxFrames := h.maxFrames, sp := ?_, sp_le := Nat.le_max_right _ _,
    slots := ?_, calls := hcalls }
  · simp only [n, Machine.perform, hvalue]
  · simp only [n, Machine.perform, Machine.stackAfter, he.value]
    cases e.value with
    | none => exact hslots.of_le (by simp; omega)
    | some v => exact hslots.set hbelow v

theorem staysIn_of_rename {σ : Nat → Nat} (hshift : i.Shifted shift j)
    (h : i.StaysIn (args.map (Value.rename σ))) : j.StaysIn args := by
  unfold Instruction.StaysIn at h ⊢
  rw [hshift.opcode]
  split at h
  · exact h
  · exact h
  · intro a ha
    refine h (σ a) ?_
    rw [List.head?_map, ha]
    rfl
  · trivial

/-- Steps that perform corresponding effects are alike. -/
theorem Mirrors.stepsAlike_of_performs (h : x.Mirrors before touched m m') {below : Nat}
    {result result' : Except (Stop RuntimeError) Effect} {byte byte' : UInt8}
    (hbyte : m.nextByte? = some byte) (hbyte' : m'.nextByte? = some byte')
    (hperforms : m.Performs f fs below result (Exec.step byte) m)
    (hperforms' : m'.Performs f' fs' below result' (Exec.step byte') m')
    (hagree : View.Renamed.Agree x.names shift result result')
    (hnext : ∀ e e', result = .ok e → result' = .ok e' → e.Renamed x.names shift e' →
      let n := m.perform f fs below e
      x.Mirrors before (max touched n.sp) n (m'.perform f' fs' below e')) :
    x.StepsAlike before touched m m' := by
  refine ⟨byte', hbyte', ?_⟩
  cases hagree with
  | error stop =>
      obtain ⟨n, hn, hglobals, hheap, houtput⟩ := hperforms.eq_error
      obtain ⟨n', hn', hglobals', hheap', houtput'⟩ := hperforms'.eq_error
      refine Ends.of_error hn' ⟨n, Machine.run_one_error hbyte hn, ?_, ?_, ?_⟩
      · rw [hglobals, hglobals', h.globals]
      · rw [hheap, hheap']
        exact h.heap
      · rw [houtput, houtput', h.output]
  | @ok e e' he =>
      have hvalue : e'.value.isSome = e.value.isSome := by rw [he.value, Option.isSome_map]
      by_cases hroom : e.value.isSome = true → below < m.stack.size
      · have hstep := hperforms.eq_ok hroom
        have hstep' := hperforms'.eq_ok (by rwa [hvalue, h.slots.size])
        exact Ends.of_ok hstep' ⟨_, Machine.run_one_ok hbyte hstep, hnext e e' rfl rfl he⟩
      · obtain ⟨hsome, hfull⟩ := Classical.not_imp.mp hroom
        rw [Nat.not_lt] at hfull
        obtain ⟨n, hn, hglobals, hheap, houtput⟩ := hperforms.eq_full hsome hfull
        obtain ⟨n', hn', hglobals', hheap', houtput'⟩ :=
          hperforms'.eq_full (hvalue.trans hsome) (h.slots.size.symm ▸ hfull)
        exact Ends.of_error hn' ⟨n, Machine.run_one_error hbyte hn,
          h.toLeaves.perform he hglobals hheap houtput hglobals' hheap' houtput'⟩

/-- A step at an instruction that stays in its call. -/
theorem Mirrors.step_stays (h : x.Mirrors before touched m m') (hm : m.Sound x.whole)
    (hm' : m'.Sound x.part) (hr' : m'.Ready x.part f' fs' c' r' i height' args')
    (hstays' : i.StaysIn args') : x.StepsAlike before touched m m' := by
  obtain ⟨f, fs, shift, j, hturn⟩ := h.turn hr'
  obtain ⟨c, r, height, args, hr⟩ := hturn.ready hm
  have htaken := hturn.shifted.taken_eq
  obtain rfl := h.args_eq hr hr' htaken
  have hstays := staysIn_of_rename hturn.shifted hstays'
  have htouched := h.sp_le
  have hslots := hr.slots_le
  have hslots' := hr'.slots_le
  rw [h.sp] at hslots'
  have hlocal (hop : i.opcode = .getLocal ∨ i.opcode = .getConstLocal) :
      (m'.view f').slot (i.operand 0) =
        ((m.view f).slot (i.operand 0)).map (Value.rename x.names) := by
    have hlt := hr'.operand_lt (.inl hop)
    change m'.stack[f'.base + i.operand 0]? = m.stack[f.base + i.operand 0]?.map _
    rw [hturn.base]
    exact h.slots.get _ (by omega)
  have hagree := Instruction.effect_renamed hturn.view hturn.shifted (hr.length.trans htaken)
    hr'.turn.constants hr'.turn.admits hlocal hturn.current
  obtain ⟨byte, hbyte, hperforms⟩ := hr.step_stays hm.sp_le hstays
  obtain ⟨byte', hbyte', hperforms'⟩ := hr'.step_stays hm'.sp_le hstays'
  rw [h.sp, ← htaken] at hperforms'
  refine h.stepsAlike_of_performs hbyte hbyte' hperforms hperforms' hagree ?_
  intro e e' heffect heffect' he
  refine h.perform hturn he (Instruction.suits_effect hstays' hr'.length heffect') (by omega) ?_
  intro k v hwritten
  obtain ⟨hop, rfl⟩ := (Instruction.suits_effect hstays hr.length heffect).written k v hwritten
  have hlt := hr.operand_lt (.inr hop)
  omega

/-- A step at a return. -/
theorem Mirrors.step_return (h : x.Mirrors before touched m m') (hm : m.Sound x.whole)
    (hm' : m'.Sound x.part) (hr' : m'.Ready x.part f' fs' c' r' i height' args')
    (hop : i.opcode = .returnValue ∨ i.opcode = .returnNull) :
    x.StepsAlike before touched m m' := by
  obtain ⟨f, fs, shift, j, hturn⟩ := h.turn hr'
  obtain ⟨c, r, height, args, hr⟩ := hturn.ready hm
  obtain rfl := h.args_eq hr hr' hturn.shifted.taken_eq
  obtain ⟨byte', hbyte', hstep'⟩ := hr'.step_return hm'.sp_le hop
  rw [← hturn.shifted.opcode] at hop
  obtain ⟨byte, hbyte, hstep⟩ := hr.step_return hm.sp_le hop
  have hvalue : (args.map (Value.rename x.names)).headD .null =
      (args.headD .null).rename x.names := by cases args <;> rfl
  have hslots := hr.slots_le
  have htouched := h.sp_le
  have hset := h.slots.set (k := f.base - 1) (by omega) (args.headD .null)
  refine ⟨byte', hbyte', Ends.of_ok hstep' ⟨_, Machine.run_one_ok hbyte hstep, ?_⟩⟩
  refine { h.toLeaves with
    constants := h.constants, maxFrames := h.maxFrames, sp := hturn.base.symm,
    sp_le := Nat.le_max_right _ _, slots := ?_, calls := hturn.rest ?_ }
  · rw [hvalue]
    change SlotsRenamed _ (max touched f.base) (m.stack.setIfInBounds (f.base - 1) _)
      (m'.stack.setIfInBounds (f'.base - 1) _)
    rw [← hturn.base]
    exact hset.of_le (by omega)
  · rw [← hturn.base]
    exact (hr.of_return hop).1

/-- Both machines open a call of the same function, or refuse to. -/
theorem Mirrors.callClosure (h : x.Mirrors before touched m m') (a argc : Nat) :
    Ends (Exec.callClosure (x.names a) argc) m'
      (fun _ n' => ∃ n, Exec.callClosure a argc m = .ok () n ∧
        x.Mirrors before (max touched n.sp) n n')
      (fun stop n' => ∃ n, Exec.callClosure a argc m = .error stop n ∧ x.Leaves before n n') := by
  have hfunction : (m'.heap.closure (x.names a)).function = (m.heap.closure a).function := by
    rw [h.heap.closure a]
    rfl
  unfold Ends Exec.callClosure
  simp only [hfunction, h.sp, h.maxFrames, h.slots.size, h.calls.length_eq]
  by_cases hcount : argc ≠ (m.heap.closure a).function.parameters
  · simp only [if_pos hcount]
    exact ⟨m, rfl, h.toLeaves⟩
  by_cases hdeep : m.maxFrames ≤ m.frames.length
  · simp only [if_neg hcount, if_pos hdeep]
    exact ⟨m, rfl, h.toLeaves⟩
  by_cases hroom : m.stack.size < m.sp - argc + (m.heap.closure a).function.locals
  · simp only [if_neg hcount, if_neg hdeep, if_pos hroom]
    exact ⟨m, rfl, h.toLeaves⟩
  by_cases hnarrow : m.sp - argc + (m.heap.closure a).function.locals < m.sp
  · simp only [if_neg hcount, if_neg hdeep, if_neg hroom, if_pos hnarrow]
    exact ⟨m, rfl, h.toLeaves⟩
  simp only [if_neg hcount, if_neg hdeep, if_neg hroom, if_neg hnarrow]
  have hslots := h.slots.nullFrom h.sp_le
    (m.sp - argc + (m.heap.closure a).function.locals - m.sp)
  refine ⟨_, rfl, { h.toLeaves with
    constants := h.constants, maxFrames := rfl, sp := rfl,
    sp_le := Nat.le_max_right _ _, slots := hslots.of_le (by simp only; omega),
    calls := .call h.calls }⟩

/-- A step at a call of a closure. -/
theorem Mirrors.step_call (h : x.Mirrors before touched m m') (hm : m.Sound x.whole) {a' : Nat}
    {vs' : List Value} (hr' : m'.Ready x.part f' fs' c' r' i height' (.closure a' :: vs'))
    (hop : i.opcode = .call) : x.StepsAlike before touched m m' := by
  obtain ⟨f, fs, shift, j, hturn⟩ := h.turn hr'
  obtain ⟨c, r, height, args, hr⟩ := hturn.ready hm
  have hargs := h.args_eq hr hr' hturn.shifted.taken_eq
  obtain ⟨a, vs, rfl, rfl, rfl⟩ : ∃ a vs, args = .closure a :: vs ∧ a' = x.names a ∧
      vs' = vs.map (Value.rename x.names) := by
    cases args with
    | nil => cases hargs
    | cons v vs =>
        obtain ⟨hhead, htail⟩ := List.cons.inj hargs
        cases v with
        | closure a => exact ⟨a, vs, rfl, Value.closure.inj hhead, htail⟩
        | _ => cases hhead
  obtain ⟨byte', hbyte', hstep'⟩ :=
    Exec.step_eq_callClosure hr'.frames hr'.decode hop hr'.top hr'.length
  have hopJ : j.opcode = .call := hturn.shifted.opcode.trans hop
  obtain ⟨byte, hbyte, hstep⟩ :=
    Exec.step_eq_callClosure hr.frames hr.decode hopJ hr.top hr.length
  have hnext : i.Next f'.ip (f'.ip + i.width) := by
    obtain ⟨op, ns⟩ := i
    cases hop
    rfl
  have hcalls := hturn.onward _ hnext
  have hip : f'.ip + i.width + shift = f.ip + j.width := by
    rw [hturn.ip, hturn.shifted.width_eq]
    omega
  rw [hip] at hcalls
  -- the machines whose innermost calls have moved past the instruction
  have hmoved : x.Mirrors before touched { m with frames := f.goTo (f.ip + j.width) :: fs }
      { m' with frames := f'.goTo (f'.ip + i.width) :: fs' } :=
    { h with calls := hcalls }
  have hcall := hmoved.callClosure a vs.length
  rw [List.length_map] at hstep'
  refine ⟨byte', hbyte', ?_⟩
  unfold Ends at hcall ⊢
  rw [hstep']
  refine Ends.mono hcall ?_ ?_
  · rintro _ n' ⟨n, hn, hmirrors⟩
    exact ⟨n, Machine.run_one_ok hbyte (hstep.trans hn), hmirrors⟩
  · rintro stop n' ⟨n, hn, hleaves⟩
    exact ⟨n, Machine.run_one_error hbyte (hstep.trans hn), hleaves⟩

end

/-- A step of the second machine. -/
theorem Mirrors.step (h : x.Mirrors before touched m m') (hm : m.Sound x.whole)
    (hm' : m'.Sound x.part) {byte : UInt8} (hbyte : m'.nextByte? = some byte) :
    Ends (Exec.step byte) m'
      (fun _ n' => ∃ n, m.run 1 = .unfinished n ∧ x.Mirrors before (max touched n.sp) n n')
      (fun stop n' => ∃ n, m.run 1 = .stopped stop n ∧ x.Leaves before n n') := by
  suffices hsteps : x.StepsAlike before touched m m' by
    obtain ⟨byte', hbyte', hends⟩ := hsteps
    rw [hbyte] at hbyte'
    cases hbyte'
    exact hends
  rcases hm'.ready with ⟨-, f, hframes, -, -, hip⟩ | ⟨f, fs, c, r, i, height, args, hr⟩
  · simp [Machine.nextByte?, hframes, hip, Code.size] at hbyte
  · by_cases hstays : i.StaysIn args
    · exact h.step_stays hm hm' hr hstays
    · rcases Instruction.not_staysIn hstays with hop | ⟨hop, a, vs, rfl⟩
      · exact h.step_return hm hm' hr hop
      · exact h.step_call hm hr hop

/-! ## Runs -/

/-- What a run of the second machine says about a run of the first one. -/
def RunsAlike (x : Excerpt) (before : String) (touched : Nat) (m : Machine) (steps : Nat) :
    Run → Prop
  | .unfinished n' => ∃ n height, touched ≤ height ∧ m.run steps = .unfinished n ∧
      x.Mirrors before height n n' ∧ n.Sound x.whole
  | .stopped stop n' => ∃ n, m.run steps = .stopped stop n ∧ x.Leaves before n n'
  | .finished n' => ∃ k n height, k < steps ∧ touched ≤ height ∧ m.run k = .unfinished n ∧
      x.Mirrors before height n n' ∧ n.Sound x.whole

/-- A run is one step and the run after it. -/
theorem RunsAlike.of_step {n : Machine} {height steps : Nat} {r : Run}
    (h : x.RunsAlike before height n steps r) (hn : m.run 1 = .unfinished n)
    (hle : touched ≤ height) : x.RunsAlike before touched m (steps + 1) r := by
  have hrun (k : Nat) : m.run (k + 1) = n.run k := by
    rw [Nat.add_comm]
    exact Machine.run_add hn k
  cases r with
  | unfinished n' =>
      obtain ⟨n₁, height', hheight, hn₁, hrest⟩ := h
      exact ⟨n₁, height', Nat.le_trans hle hheight, (hrun steps).trans hn₁, hrest⟩
  | stopped stop n' =>
      obtain ⟨n₁, hn₁, hleaves⟩ := h
      exact ⟨n₁, (hrun steps).trans hn₁, hleaves⟩
  | finished n' =>
      obtain ⟨k, n₁, height', hk, hheight, hn₁, hrest⟩ := h
      exact ⟨k + 1, n₁, height', Nat.succ_lt_succ hk, Nat.le_trans hle hheight,
        (hrun k).trans hn₁, hrest⟩

/-- As long as the second machine runs, the first one does the same; when the second one comes to
its end, the first one goes on from there; and when the second one stops, so does the first one. -/
theorem Mirrors.run (h : x.Mirrors before touched m m') (hm : m.Sound x.whole)
    (hm' : m'.Sound x.part) (steps : Nat) :
    x.RunsAlike before touched m steps (m'.run steps) := by
  induction steps generalizing touched m m' with
  | zero => exact ⟨m, touched, Nat.le_refl _, rfl, h, hm⟩
  | succ steps ih =>
      unfold Machine.run
      split
      · exact ⟨0, m, touched, Nat.succ_pos _, Nat.le_refl _, rfl, h, hm⟩
      next byte hbyte =>
        have hstep := h.step hm hm' hbyte
        split
        next n' hn' =>
          obtain ⟨n, hn, hmirrors⟩ := hstep.ok hn'
          have hsound := hm.run 1
          rw [hn] at hsound
          exact (ih hmirrors hsound.1 ((hm'.step hbyte).ok hn').1).of_step hn (Nat.le_max_left _ _)
        next stop n' hn' =>
          obtain ⟨n, hn, hleaves⟩ := hstep.error hn'
          refine ⟨n, ?_, hleaves⟩
          rw [Machine.run_of_le (by simp [hn]) (Nat.succ_le_succ (Nat.zero_le steps)), hn]

/-- When the second machine is at the end of its code, the first one is at the end of the part. -/
theorem Mirrors.at_end (h : x.Mirrors before touched m m') (hm' : m'.Sound x.part)
    (hbyte : m'.nextByte? = none) :
    m.sp = 0 ∧
      m.frames = [{ routine := .main x.whole, ip := x.part.size + x.start, base := 0 }] := by
  obtain ⟨hsp, f, hframes, -, -, hip⟩ := hm'.finished hbyte
  refine ⟨h.sp.symm.trans hsp, ?_⟩
  have hcalls := h.calls
  rw [hframes] at hcalls
  generalize m.frames = frames at hcalls
  cases hcalls with
  | @main offset _ =>
      obtain rfl : offset = x.part.size := hip
      rfl
  | call rest => cases rest

/-- A machine that is about to run the part alone, beside one that has come to it. -/
theorem mirrors_initial {constants : Array Value} {limits : Limits} {globals : Globals}
    {heap : Heap} (hframes : m.frames = [{ routine := .main x.whole, ip := x.start, base := 0 }])
    (hsp : m.sp = 0) (hstack : m.stack.size = limits.stackSize)
    (hmaxFrames : m.maxFrames = limits.maxFrames) (hconstants : Continues constants m.constants)
    (hglobals : globals = m.globals.rename x.names) (hheap : m.heap.Renamed x.names heap)
    (hinside : x.inside 0) :
    x.Mirrors m.output 0 m (Machine.initial x.part constants limits globals heap) where
  globals := hglobals
  heap := hheap
  output := String.append_empty.symm
  constants := hconstants
  maxFrames := hmaxFrames.symm
  sp := hsp.symm
  sp_le := Nat.le_of_eq hsp
  slots := ⟨by rw [hstack, Machine.initial, Array.size_replicate],
    fun k hk => absurd hk (Nat.not_lt_zero k)⟩
  calls := by
    have hcalls := Calls.main hinside
    rw [Nat.zero_add] at hcalls
    rw [hframes]
    exact hcalls

/-- An instruction that takes nothing and does not go elsewhere gives a value. -/
theorem given_eq_one {i : Instruction} (htaken : i.taken = 0) (hjump : i.opcode.isJump = false)
    (hreturn : i.opcode ≠ .returnNull) : i.given = 1 := by
  obtain ⟨op, ns⟩ := i
  cases op <;> simp_all [Instruction.taken, Instruction.given, Opcode.isJump]

/-- The first instruction of a top level puts a value on the stack. -/
theorem sp_of_first_step {main : Code} {f : Frame} {i : Instruction} (hm : m.Sound main)
    (hframes : m.frames = [f]) (hsp : m.sp = 0) (hdecode : (m.codeOf f).decode f.ip = .ok i)
    (hplain : i.opcode.isJump = false) {byte : UInt8} (hbyte : m.nextByte? = some byte)
    {n : Machine}
    (hstep : Exec.step byte m = .ok () n) : n.sp = 1 := by
  rcases hm.ready with ⟨-, f₀, hframes₀, -, -, hip⟩ | ⟨f₀, fs, c, r, j, height, args, hr⟩
  · rw [hframes] at hframes₀
    cases hframes₀
    rw [hip] at hdecode
    exact absurd hdecode Code.not_decode_size
  · have hframes₀ := hr.frames
    rw [hframes] at hframes₀
    cases hframes₀
    rw [hr.decode] at hdecode
    cases hdecode
    have henough := hr.turn.enough
    have hheight := hr.sp
    have htaken : i.taken = 0 := by omega
    have hreturn (hop : i.opcode = .returnValue ∨ i.opcode = .returnNull) : False := by
      have hbase := (hr.of_return hop).1
      omega
    have hstays : i.StaysIn args := by
      by_contra hleaves
      rcases Instruction.not_staysIn hleaves with hop | ⟨-, a, vs, rfl⟩
      · exact hreturn hop
      · have hlength := hr.length
        rw [htaken] at hlength
        cases hlength
    obtain ⟨byte', hbyte', hperforms⟩ := hr.step_stays hm.sp_le hstays
    rw [hbyte] at hbyte'
    cases hbyte'
    obtain ⟨e, he, -, rfl⟩ := hperforms.ok hstep
    have hgiven := (Instruction.suits_effect hstays hr.length he).given
    rw [given_eq_one htaken hplain fun hop => hreturn (.inr hop)] at hgiven
    simp only [Machine.perform, hgiven]
    omega

/-- If the part begins with an instruction that is no jump, then the lowest slot has been in use
when it ends. -/
theorem Mirrors.run_finished (h : x.Mirrors before touched m m') (hm : m.Sound x.whole)
    (hm' : m'.Sound x.part) {f : Frame} {i : Instruction} (hframes : m'.frames = [f])
    (hsp : m'.sp = 0) (hdecode : (m'.codeOf f).decode f.ip = .ok i)
    (hplain : i.opcode.isJump = false) {steps : Nat} {n' : Machine}
    (hrun : m'.run steps = .finished n') :
    ∃ k n height, k < steps ∧ 1 ≤ height ∧ m.run k = .unfinished n ∧
      x.Mirrors before height n n' ∧ n.Sound x.whole := by
  obtain ⟨byte, hbyte, -⟩ := Exec.step_eq_execute hframes hdecode
  cases steps with
  | zero => cases hrun
  | succ steps =>
      simp only [Machine.run, hbyte] at hrun
      split at hrun
      next n₁' hn₁' =>
        obtain ⟨n₁, hn₁, hmirrors⟩ := (h.step hm hm' hbyte).ok hn₁'
        have hsound := hm.run 1
        rw [hn₁] at hsound
        have hrest := hmirrors.run hsound.1 ((hm'.step hbyte).ok hn₁').1 steps
        have hfirst := sp_of_first_step hm' hframes hsp hdecode hplain hbyte hn₁'
        rw [hrun] at hrest
        rw [hmirrors.sp] at hfirst
        refine RunsAlike.of_step (r := .finished n') hrest hn₁ ?_
        rw [hfirst]
        exact Nat.le_max_right _ _
      · cases hrun

end Excerpt

end ScriptEngine
