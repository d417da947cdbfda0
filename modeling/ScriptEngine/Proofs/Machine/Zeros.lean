import ScriptEngine.Proofs.Compile.Resumption
import ScriptEngine.Proofs.Machine.Excerpt
import ScriptEngine.Proofs.Tree.Simulation
import ScriptEngine.Proofs.Value.Zeros

/-!
# Zero values on the stack

The code that the compiler writes for the zero value of a type, run on any machine whose stack has
room for it, puts one value on the stack and leaves all else as it was.  The value is the zero value
of the type, and its containers are all new (`CompileM.zeroValueOf_puts`).  Pieces of code are
described by what a run through them puts on the stack (`Puts`), and the pieces are put together in
the way in which the compiler writes them.
-/

namespace ScriptEngine

/-! ## Instructions that make values -/

/-- Whether the opcode does nothing but give a value, a new object perhaps. -/
def Opcode.isMaker : Opcode → Bool
  | constant | pushTrue | pushFalse | pushNull | array | hash | struct => true
  | _ => false

namespace Instruction

variable {i : Instruction}

theorem staysIn_of_isMaker (hop : i.opcode.isMaker = true) (args : List Value) :
    i.StaysIn args := by
  obtain ⟨op, ns⟩ := i
  cases op <;> trivial

theorem not_setsLocal_of_isMaker (hop : i.opcode.isMaker = true) :
    ¬(i.opcode = .setLocal ∨ i.opcode = .setConstLocal) := by
  rintro (h | h) <;> simp [h, Opcode.isMaker] at hop

end Instruction

namespace Machine

/-! ## Runs that put values on the stack -/

/-- The machine has gone on to an offset of the innermost call, with values more on its stack.  What
was on the stack, the globals, the output and all objects are as they were. -/
structure Pushes (m : Machine) (f : Frame) (fs : List Frame) (next : Nat) (vs : List Value)
    (m' : Machine) : Prop where
  frames : m'.frames = f.goTo next :: fs
  sp : m'.sp = m.sp + vs.length
  size : m'.stack.size = m.stack.size
  fits : m'.sp ≤ m'.stack.size
  below : m.SameBelow m.sp m'
  top : m'.Shows m.sp vs
  constants : m'.constants = m.constants
  closures : m'.heap.closures = m.heap.closures
  untouched : m.Untouched m'

namespace Pushes

variable {m m₁ m₂ : Machine} {f : Frame} {fs : List Frame} {next next' : Nat} {us vs : List Value}

theorem refl (hframes : m.frames = f :: fs) (hfits : m.sp ≤ m.stack.size) :
    m.Pushes f fs f.ip [] m where
  frames := hframes
  sp := rfl
  size := rfl
  fits := hfits
  below := .refl m m.sp
  top := .nil
  constants := rfl
  closures := rfl
  untouched := .refl m

theorem codeOf_eq (h : m.Pushes f fs next us m₁) : m₁.codeOf (f.goTo next) = m.codeOf f := by
  have hclosure : m₁.closureOf (f.goTo next) = m.closureOf f :=
    f.routine.closureIn_congr h.closures
  exact congrArg (fun closure => closure.function.code) hclosure

theorem trans (h₁ : m.Pushes f fs next us m₁) (h₂ : m₁.Pushes (f.goTo next) fs next' vs m₂) :
    m.Pushes f fs next' (us ++ vs) m₂ where
  frames := h₂.frames
  sp := by rw [h₂.sp, h₁.sp, List.length_append, Nat.add_assoc]
  size := h₂.size.trans h₁.size
  fits := h₂.fits
  below := h₁.below.trans h₂.below (h₁.sp ▸ Nat.le_add_right _ _)
  top := by
    intro j v hj
    rw [List.getElem?_append] at hj
    split at hj
    · rename_i hlt
      rw [h₂.below (m.sp + j) (by rw [h₁.sp]; omega)]
      exact h₁.top j v hj
    · have hslot : m.sp + j = m₁.sp + (j - us.length) := by
        rw [h₁.sp]
        omega
      rw [hslot]
      exact h₂.top _ v hj
  constants := h₂.constants.trans h₁.constants
  closures := h₂.closures.trans h₁.closures
  untouched := h₁.untouched.trans h₂.untouched

/-- An instruction takes the values and gives one in their place. -/
theorem give {i : Instruction} {v : Value} {heap : Heap} (h : m.Pushes f fs next us m₁)
    (hdecode : (m.codeOf f).decode next = .ok i) (htaken : us.length = i.taken)
    (hop : i.opcode.isMaker = true)
    (heffect : i.effect (m₁.view (f.goTo next)) us =
      .ok ((m₁.view (f.goTo next)).giveNew (v, heap)))
    (hroom : m.sp < m.stack.size) (hkept : m₁.heap.IsKeptIn heap)
    (hclosures : heap.closures = m₁.heap.closures) :
    ∃ m₂, m₁.run 1 = .unfinished m₂ ∧ m.Pushes f fs (next + i.width) [v] m₂ ∧ m₂.heap = heap := by
  have htop : m₁.Top m.sp us := ⟨h.sp, h.fits, h.top⟩
  rw [← h.codeOf_eq] at hdecode
  obtain ⟨byte, hbyte, hperforms⟩ :=
    step_performs h.frames hdecode htop htaken (Instruction.staysIn_of_isMaker hop us)
      fun hset => absurd hset (Instruction.not_setsLocal_of_isMaker hop)
  rw [heffect] at hperforms
  have hstep := hperforms.eq_ok fun _ => h.size ▸ hroom
  have hsize : (m₁.stack.setIfInBounds m.sp v).size = m.stack.size := by
    rw [Array.size_setIfInBounds, h.size]
  refine ⟨_, run_one_ok hbyte hstep, ?_, rfl⟩
  exact
    { frames := rfl
      sp := rfl
      size := hsize
      fits := Nat.le_trans hroom (Nat.le_of_eq hsize.symm)
      below := fun j hj =>
        (Array.getElem?_setIfInBounds_ne (Nat.ne_of_gt hj)).trans (h.below j hj)
      top := .cons (Array.getElem?_setIfInBounds_self_of_lt (h.size ▸ hroom)) .nil
      constants := h.constants
      closures := hclosures.trans h.closures
      untouched := h.untouched.trans ⟨rfl, hkept, String.append_empty⟩ }

end Pushes

end Machine

/-! ## Pieces of code -/

/-- On every machine with the constants of a pool and some room on its stack, a run through the
instructions puts values on the stack.  The heaps before and after it and the values are related as
stated. -/
def Puts (pool : Array Value) (room : Nat) (is : List Instruction)
    (made : Heap → Heap → List Value → Prop) : Prop :=
  ∀ (m : Machine) (f : Frame) (fs : List Frame), m.frames = f :: fs →
    (m.codeOf f).Contains f.ip is → Continues pool m.constants → m.sp + room ≤ m.stack.size →
    ∃ n m' vs, m.run n = .unfinished m' ∧ m.Pushes f fs (f.ip + totalWidth is) vs m' ∧
      made m.heap m'.heap vs

/-- What is made is a new zero value of a type. -/
def makesZero (ty : Ty) (h h' : Heap) (vs : List Value) : Prop :=
  ∃ v, vs = [v] ∧ h.MakesZero h' ty v

theorem makesZero_of_not_isContainer {ty : Ty} {v : Value} (hv : v.isContainer = false)
    (hzero : ∀ h : Heap, h.IsZero ty v) :
    ∀ (h h' : Heap) (vs : List Value), h' = h ∧ vs = [v] → makesZero ty h h' vs := by
  rintro _ h _ ⟨rfl, rfl⟩
  exact ⟨v, rfl, hzero h, .of_not_isContainer h h hv⟩

namespace Puts

variable {pool : Array Value} {room room' : Nat} {is js : List Instruction}
  {made made' : Heap → Heap → List Value → Prop}

theorem continues {pool' : Array Value} (h : Puts pool room is made)
    (hpool : Continues pool pool') :
    Puts pool' room is made :=
  fun m f fs hframes hcode hconstants hroom =>
    h m f fs hframes hcode (hpool.trans hconstants) hroom

theorem imp (h : Puts pool room is made) (himp : ∀ h h' vs, made h h' vs → made' h h' vs) :
    Puts pool room is made' := by
  intro m f fs hframes hcode hconstants hroom
  obtain ⟨n, m', vs, hrun, hpushes, hmade⟩ := h m f fs hframes hcode hconstants hroom
  exact ⟨n, m', vs, hrun, hpushes, himp _ _ _ hmade⟩

theorem nil : Puts pool 0 [] fun h h' vs => h' = h ∧ vs = [] :=
  fun m _ _ hframes _ _ hroom => ⟨0, m, [], rfl, .refl hframes hroom, rfl, rfl⟩

/-- One piece after another. -/
theorem append (count : Nat) (h : Puts pool room is made) (h' : Puts pool room' js made')
    (hcount : ∀ {heap heap' vs}, made heap heap' vs → vs.length = count) :
    Puts pool (max room (count + room')) (is ++ js) fun h₁ h₃ vs =>
      ∃ h₂ us ws, vs = us ++ ws ∧ h₁.IsKeptIn h₂ ∧ h₂.IsKeptIn h₃ ∧ made h₁ h₂ us ∧
        made' h₂ h₃ ws := by
  intro m f fs hframes hcode hconstants hroom
  obtain ⟨n, m₁, us, hrun, hpushes, hmade⟩ :=
    h m f fs hframes hcode.append_left hconstants (by omega)
  have hcode' : (m₁.codeOf (f.goTo (f.ip + totalWidth is))).Contains (f.ip + totalWidth is) js :=
    hpushes.codeOf_eq.symm ▸ hcode.append_right
  have hroom' : m₁.sp + room' ≤ m₁.stack.size := by
    rw [hpushes.sp, hpushes.size, hcount hmade]
    omega
  obtain ⟨n', m₂, ws, hrun', hpushes', hmade'⟩ :=
    h' m₁ _ fs hpushes.frames hcode' (hpushes.constants.symm ▸ hconstants) hroom'
  refine ⟨n + n', m₂, us ++ ws, ?_, ?_, m₁.heap, us, ws, rfl, hpushes.untouched.heap,
    hpushes'.untouched.heap, hmade, hmade'⟩
  · rw [Machine.run_add hrun, hrun']
  · rw [totalWidth_append, ← Nat.add_assoc]
    exact hpushes.trans hpushes'

/-- A piece and an instruction that takes what the piece puts on the stack and gives an object. -/
theorem give {i : Instruction} (new : List Value → Heap → Value × Heap) (h : Puts pool room is made)
    (htaken : ∀ {heap heap' vs}, made heap heap' vs → vs.length = i.taken)
    (hop : i.opcode.isMaker = true)
    (heffect : ∀ {heap heap' vs}, made heap heap' vs → ∀ w : View, Continues pool w.constants →
      i.effect w vs = .ok (w.giveNew (new vs w.heap)))
    (hkept : ∀ (vs : List Value) (heap : Heap), heap.IsKeptIn (new vs heap).2)
    (hclosures : ∀ vs heap, (new vs heap).2.closures = heap.closures) :
    Puts pool (max 1 room) (is ++ [i]) fun h₁ h₃ vs =>
      ∃ h₂ us, h₁.IsKeptIn h₂ ∧ made h₁ h₂ us ∧ h₃ = (new us h₂).2 ∧ vs = [(new us h₂).1] := by
  intro m f fs hframes hcode hconstants hroom
  obtain ⟨n, m₁, us, hrun, hpushes, hmade⟩ :=
    h m f fs hframes hcode.append_left hconstants (by omega)
  have hconstants' : Continues pool m₁.constants := hpushes.constants.symm ▸ hconstants
  obtain ⟨m₂, hrun', hpushes', hheap⟩ := hpushes.give hcode.append_right.decode (htaken hmade)
    hop (heffect hmade _ hconstants') (by omega) (hkept us m₁.heap) (hclosures us m₁.heap)
  refine ⟨n + 1, m₂, _, ?_, ?_, m₁.heap, us, hpushes.untouched.heap, hmade, hheap, rfl⟩
  · rw [Machine.run_add hrun, hrun']
  · rw [totalWidth_append, totalWidth_cons, totalWidth_nil, Nat.add_zero, ← Nat.add_assoc]
    exact hpushes'

/-- An instruction that takes nothing and gives an object. -/
theorem give_one {i : Instruction} (new : Heap → Value × Heap) (htaken : i.taken = 0)
    (hop : i.opcode.isMaker = true)
    (heffect : ∀ w : View, Continues pool w.constants →
      i.effect w [] = .ok (w.giveNew (new w.heap)))
    (hkept : ∀ heap : Heap, heap.IsKeptIn (new heap).2)
    (hclosures : ∀ heap, (new heap).2.closures = heap.closures) :
    Puts pool 1 [i] fun h₁ h₂ vs => h₂ = (new h₁).2 ∧ vs = [(new h₁).1] := by
  have hnothing : Puts pool 0 [] fun h h' vs => h' = h ∧ vs = [] := nil
  refine (hnothing.give (i := i) (fun _ => new)
    (fun hmade => by rw [hmade.2, htaken, List.length_nil]) hop
    (fun hmade => hmade.2 ▸ heffect) (fun _ => hkept) fun _ => hclosures).imp ?_
  rintro h₁ h₃ vs ⟨h₂, us, -, ⟨rfl, -⟩, rfl, rfl⟩
  exact ⟨rfl, rfl⟩

/-! ### Instructions of zero values -/

theorem pushNull (pool : Array Value) :
    Puts pool 1 [⟨.pushNull, []⟩] fun h h' vs => h' = h ∧ vs = [.null] :=
  give_one (fun h => (.null, h)) rfl rfl (fun _ _ => rfl) .refl fun _ => rfl

theorem pushFalse (pool : Array Value) :
    Puts pool 1 [⟨.pushFalse, []⟩] fun h h' vs => h' = h ∧ vs = [.bool false] :=
  give_one (fun h => (.bool false, h)) rfl rfl (fun _ _ => rfl) .refl fun _ => rfl

theorem array (pool : Array Value) (element : Ty) :
    Puts pool 1 [⟨.array, [0]⟩] (makesZero (.array element)) := by
  refine (give_one (fun h => h.newArray #[]) rfl rfl (fun _ _ => rfl)
    (fun h => .newArray h #[]) fun _ => rfl).imp ?_
  rintro h _ _ ⟨rfl, rfl⟩
  exact ⟨_, rfl, h.makesZero_newArray element⟩

theorem hash (pool : Array Value) (key value : Ty) :
    Puts pool 1 [⟨.hash, [0]⟩] (makesZero (.hash key value)) := by
  refine (give_one (fun h => h.newHash .empty) rfl rfl (fun _ _ => rfl)
    (fun h => .newHash h .empty) fun _ => rfl).imp ?_
  rintro h _ _ ⟨rfl, rfl⟩
  exact ⟨_, rfl, h.makesZero_newHash key value⟩

/-- The zero values of fields, and then an instance of a struct type that holds them. -/
theorem struct {k : Nat} {fields : List (String × Ty)} {t : Marked StructType}
    (h : Puts pool room is fun h h' vs => h.MakesZeros h' fields vs)
    (hconstant : pool[k]? = some (.structType t)) :
    Puts pool (max 1 room) (is ++ [⟨.struct, [k, fields.length]⟩])
      (makesZero (.struct t.content.name fields)) := by
  refine (h.give (i := ⟨.struct, [k, fields.length]⟩)
    (fun vs h => h.newStruct t.content vs.toArray) (fun hmade => hmade.areZeros.length_eq) rfl ?_
    (fun vs h => .newStruct h _ _) fun _ _ => rfl).imp ?_
  · intro _ _ vs _ w hconstants
    have hfound : w.constants[k]? = some (.structType t) := hconstants k _ hconstant
    change w.struct ⟨.struct, [k, fields.length]⟩ vs = _
    simp only [View.struct, Instruction.operand, List.getElem?_cons_zero, Option.getD_some, hfound]
  · rintro _ _ _ ⟨h₂, us, hkept, hmade, rfl, rfl⟩
    exact ⟨_, rfl, hmade.newStruct hkept t.content⟩

end Puts

/-! ## The code of zero values -/

mutual

/-- The number of free slots that it takes to make the zero value of a type. -/
def Ty.zeroRoom : Ty → Nat
  | .struct _ fields => max 1 (Ty.fieldsRoom fields)
  | _ => 1

def Ty.fieldsRoom : List (String × Ty) → Nat
  | [] => 0
  | (_, ty) :: fields => max ty.zeroRoom (1 + Ty.fieldsRoom fields)

end

/-- Writing an instruction registers no struct type. -/
theorem Compiler.WritesOp.registered {c c' : Compiler} {i : Instruction} (hop : c.WritesOp i c')
    (hc : c.Registered) : c'.Registered := by
  have hpool : c'.pool = c.pool := congrArg Env.pool hop.env
  have hstructs : c'.structs = c.structs := congrArg Env.structs hop.env
  rw [Compiler.Registered, hstructs, hpool]
  exact hc

namespace CompileM

/-- An operand of an instruction is too large to be written. -/
def Unwritable (stop : Stop CompileError) (_ : Compiler) : Prop :=
  ∃ e, stop = .error (.encode e)

/-- The code under construction has been continued by a piece of code that puts values on the stack,
and constants may have been added. -/
structure Continued (c : Compiler) (room : Nat) (made : Heap → Heap → List Value → Prop)
    (c' : Compiler) : Prop where
  registered : c'.Registered
  pool : Continues c.pool c'.pool
  code : ∃ is, c.current.code.Adds is c'.current.code ∧ Puts c'.pool room is made

namespace Continued

variable {c c₁ c₂ : Compiler} {room room' : Nat} {made made' : Heap → Heap → List Value → Prop}

theorem imp (h : Continued c room made c₁) (himp : ∀ h h' vs, made h h' vs → made' h h' vs) :
    Continued c room made' c₁ := by
  obtain ⟨is, hadds, hputs⟩ := h.code
  exact ⟨h.registered, h.pool, is, hadds, hputs.imp himp⟩

theorem of_writesOp {i : Instruction} (hc : c.Registered) (hop : c.WritesOp i c₁)
    (h : Puts c.pool room [i] made) : Continued c room made c₁ := by
  have hpool : c₁.pool = c.pool := congrArg Env.pool hop.env
  refine ⟨hop.registered hc, ?_, [i], hop.writes.adds, hpool ▸ h⟩
  rw [hpool]
  exact .refl _

end Continued

theorem emit_unwritable (op : Opcode) (ns : List Nat) (c : Compiler) :
    Ends (emit op ns) c (fun _ c' => c.WritesOp ⟨op, ns⟩ c') Unwritable := by
  cases hencode : op.encode ns with
  | ok bytes => exact emit_of_encode hencode c
  | error e =>
      rw [emit, hencode]
      exact Ends.of_throw ⟨e, rfl⟩

theorem emit_continued {op : Opcode} {ns : List Nat} {room : Nat}
    {made : Heap → Heap → List Value → Prop} {c : Compiler} (hc : c.Registered)
    (h : Puts c.pool room [⟨op, ns⟩] made) :
    Ends (emit op ns) c (fun _ c' => Continued c room made c') Unwritable :=
  (emit_unwritable op ns c).imp fun _ _ hop => .of_writesOp hc hop h

/-- A constant is loaded as it is. -/
theorem emitConstant_continued {v : Value} (hv : v.kind ≠ .structType) {c : Compiler}
    (hc : c.Registered) :
    Ends (emitConstant v) c
      (fun _ c' => Continued c 1 (fun h h' vs => h' = h ∧ vs = [v]) c') Unwritable := by
  refine Ends.bind (Ends.of_ok rfl ⟨rfl, rfl⟩ : Ends (addConstant v) c
    (fun k c₁ => k = c.pool.size ∧ c₁ = { c with pool := c.pool.push v }) Unwritable) ?_
  rintro _ _ ⟨rfl, rfl⟩
  have hregistered : Compiler.Registered { c with pool := c.pool.push v } := by
    rw [Compiler.Registered, Compiler.knownStructs_push, Compiler.learn_of_kind_ne hv]
    exact hc
  have hputs : Puts (c.pool.push v) 1 [⟨.constant, [c.pool.size]⟩] fun h h' vs =>
      h' = h ∧ vs = [v] := by
    refine Puts.give_one (fun h => (v, h)) rfl rfl ?_ .refl fun _ => rfl
    intro w hconstants
    have hfound := hconstants c.pool.size v Array.getElem?_push_size
    change w.giveFound _ w.constants[c.pool.size]? = _
    rw [hfound]
    rfl
  refine (emit_continued hregistered hputs).imp fun _ c₂ h => ?_
  exact ⟨h.registered, (Continues.push c.pool v).trans h.pool, h.code⟩

/-- The constant of a struct type describes a type of the same name. -/
theorem structConstant_continued (type : StructType) {c : Compiler} (hc : c.Registered) :
    Ends (structConstant type) c
      (fun k c' => c'.Registered ∧ Continues c.pool c'.pool ∧
        c'.current.code = c.current.code ∧
        ∃ t, c'.pool[k]? = some (.structType t) ∧ t.content.name = type.name) Unwritable := by
  refine Ends.get_bind ?_
  cases hknown : c.structs.get? type.name with
  | some known =>
      rw [hc] at hknown
      obtain ⟨hname, mark, hmark⟩ := Compiler.knownStructs_get? hknown
      exact Ends.of_pure ⟨hc, .refl _, rfl, _, hmark, hname⟩
  | none =>
      refine Ends.of_ok rfl ⟨?_, .push _ _, rfl, _, Array.getElem?_push_size, rfl⟩
      rw [Compiler.Registered, Compiler.knownStructs_push, ← hc]
      rfl

mutual

theorem zeroValue_continued : ∀ (ty : Ty) {c : Compiler}, c.Registered →
    Ends (zeroValue ty) c (fun _ c' => Continued c ty.zeroRoom (makesZero ty) c') Unwritable
  | .int, _, hc => (emitConstant_continued (by decide) hc).imp fun _ _ h =>
      h.imp (makesZero_of_not_isContainer rfl fun _ => .int)
  | .float, _, hc => (emitConstant_continued (by decide) hc).imp fun _ _ h =>
      h.imp (makesZero_of_not_isContainer rfl fun _ => .float)
  | .string, _, hc => (emitConstant_continued (by decide) hc).imp fun _ _ h =>
      h.imp (makesZero_of_not_isContainer rfl fun _ => .string)
  | .bool, c, hc => emit_continued hc
      ((Puts.pushFalse c.pool).imp (makesZero_of_not_isContainer rfl fun _ => .bool))
  | .array element, c, hc => emit_continued hc (Puts.array c.pool element)
  | .hash key value, c, hc => emit_continued hc (Puts.hash c.pool key value)
  | .null, c, hc => emit_continued hc
      ((Puts.pushNull c.pool).imp (makesZero_of_not_isContainer rfl fun _ => .null))
  | .func parameters result, c, hc => emit_continued hc
      ((Puts.pushNull c.pool).imp
        (makesZero_of_not_isContainer rfl fun _ => .func parameters result))
  | .struct name fields, c, hc => by
      refine Ends.bind (zeroFields_continued fields hc) fun _ c₁ h₁ => ?_
      refine Ends.bind (structConstant_continued ⟨name, fields⟩ h₁.registered) ?_
      rintro constant c₂ ⟨hregistered, hpool, hcode, t, hconstant, rfl⟩
      refine (emit_unwritable _ _ c₂).imp fun _ c₃ hop => ?_
      obtain ⟨is, hadds, hputs⟩ := h₁.code
      have hpool₃ : c₃.pool = c₂.pool := congrArg Env.pool hop.env
      refine ⟨hop.registered hregistered, ?_, _, (hcode ▸ hadds).trans hop.writes.adds, ?_⟩
      · rw [hpool₃]
        exact h₁.pool.trans hpool
      · rw [hpool₃]
        exact (hputs.continues hpool).struct hconstant

theorem zeroFields_continued : ∀ (fields : List (String × Ty)) {c : Compiler}, c.Registered →
    Ends (zeroFields fields) c
      (fun _ c' => Continued c (Ty.fieldsRoom fields) (fun h h' vs => h.MakesZeros h' fields vs) c')
      Unwritable
  | [], c, hc => by
      refine Ends.of_pure ⟨hc, .refl _, [], .refl _, Puts.nil.imp ?_⟩
      rintro _ h _ ⟨rfl, rfl⟩
      exact .nil h h
  | (name, ty) :: fields, c, hc => by
      refine Ends.bind (zeroValue_continued ty hc) fun _ c₁ h₁ => ?_
      refine (zeroFields_continued fields h₁.registered).imp fun _ c₂ h₂ => ?_
      obtain ⟨is, hadds, hputs⟩ := h₁.code
      obtain ⟨js, hadds', hputs'⟩ := h₂.code
      refine ⟨h₂.registered, h₁.pool.trans h₂.pool, is ++ js, hadds.trans hadds', ?_⟩
      refine ((hputs.continues h₂.pool).append 1 hputs' ?_).imp ?_
      · rintro _ _ _ ⟨v, rfl, -⟩
        rfl
      · rintro h h'' _ ⟨h', _, ws, rfl, hkept, hkept', ⟨v, rfl, hmade⟩, hmade'⟩
        exact .cons name hmade hmade' hkept hkept'

end

/-- The compiler writes code for the zero value of a type unless one of its operands is too large.
On every machine that has come to this code, with the constants of the compiler and enough room on
its stack, a run through the code puts exactly one value on the stack: the zero value of the type,
or null if there is no type.  Every container inside it is new and stands there only once.  What was
on the stack, the globals, the output and all objects are as they were. -/
theorem zeroValueOf_puts (ty : Option Ty) {c : Compiler} (hc : c.Registered) :
    Ends (zeroValueOf ty) c
      (fun _ c' => ∃ bytes, c'.current.code.bytes.toList = c.current.code.bytes.toList ++ bytes ∧
        ∀ (m : Machine) (f : Frame) (fs : List Frame), m.frames = f :: fs →
          (m.codeOf f).Holds f.ip bytes → Continues c'.pool m.constants →
          m.sp + (ty.getD .null).zeroRoom ≤ m.stack.size →
          ∃ n m' v, m.run n = .unfinished m' ∧ m.Pushes f fs (f.ip + bytes.length) [v] m' ∧
            m'.heap.IsZero (ty.getD .null) v ∧ m.heap.IsNew m'.heap v)
      Unwritable := by
  have hends : Ends (zeroValueOf ty) c
      (fun _ c' => Continued c (ty.getD .null).zeroRoom (makesZero (ty.getD .null)) c')
      Unwritable := by
    cases ty with
    | none => exact zeroValue_continued .null hc
    | some ty => exact zeroValue_continued ty hc
  refine hends.imp fun _ c' h => ?_
  obtain ⟨is, ⟨bytes, hwritten, hbytes⟩, hputs⟩ := h.code
  refine ⟨bytes, hbytes, fun m f fs hframes hholds hconstants hroom => ?_⟩
  obtain ⟨n, m', _, hrun, hpushes, v, rfl, hmade⟩ :=
    hputs m f fs hframes ⟨bytes, hwritten, hholds⟩ hconstants hroom
  exact ⟨n, m', v, hrun, hwritten.length ▸ hpushes, hmade.isZero, hmade.isNew⟩

/-- A struct type with a field of a struct type and a field of an array type. -/
def segmentType : Ty :=
  .struct "Segment" [("start", .struct "Point" [("x", .int), ("y", .float)]),
    ("marks", .array .int)]

/-- A new compiler writes code for a zero value with three new containers, and the code can be
run. -/
theorem zeroValueOf_puts_segment :
    ∃ c', zeroValueOf (some segmentType) Compiler.new = .ok () c' ∧
      let m := Machine.initial c'.current.code c'.pool ⟨2, 1, 1⟩ (.ofSize 0) .empty
      ∃ n m' v, m.run n = .unfinished m' ∧ m'.sp = 1 ∧ m'.heap.IsZero segmentType v ∧
        m.heap.IsNew m'.heap v := by
  have hends := zeroValueOf_puts (some segmentType) (Compiler.registered_resume .withBuiltins #[])
  cases hrun : zeroValueOf (some segmentType) Compiler.new with
  | error stop c' =>
      have haccepted : EStateM.run' (zeroValueOf (some segmentType)) Compiler.new = some () := by
        decide +kernel
      delta EStateM.run' EStateM.run at haccepted
      rw [hrun] at haccepted
      cases haccepted
  | ok _ c' =>
      refine ⟨c', rfl, ?_⟩
      obtain ⟨bytes, hbytes, hputs⟩ := hends.ok hrun
      obtain ⟨n, m', v, hrun', hpushes, hzero, hnew⟩ :=
        hputs (Machine.initial c'.current.code c'.pool ⟨2, 1, 1⟩ (.ofSize 0) .empty) _ [] rfl
          ⟨[], [], hbytes.trans (List.append_nil _).symm, rfl⟩ (.refl _) (Nat.le_refl 2)
      exact ⟨n, m', v, hrun', hpushes.sp, hzero, hnew⟩

end CompileM

end ScriptEngine
