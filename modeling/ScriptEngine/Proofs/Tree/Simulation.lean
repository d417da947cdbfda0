import ScriptEngine.Proofs.Machine.Admitted
import ScriptEngine.Proofs.Tree.Evaluation

/-!
# Runs that follow an evaluation

`Simulates` relates an evaluation to the run of a machine: if the evaluation ends, then so does this
part of the run, with the same world and the same reason; and if a loop goes through all its rounds,
then the run is at least as long as their number.  A run that finds no room on its stack is left
aside.  The relation is built up along the evaluation (`Simulates.bind`), from what the single
instructions do (`Machine.At.step`).
-/

namespace ScriptEngine

namespace Machine

/-! ## The world of a machine -/

def world (m : Machine) : World :=
  { globals := m.globals, heap := m.heap, output := m.output }

/-- The run finds no room on the stack. -/
def Overflows (m : Machine) : Prop :=
  ∃ n m', m.run n = .stopped (.error .stackOverflow) m'

theorem Overflows.of_run {m m' : Machine} {n : Nat} (h : m.run n = .unfinished m')
    (hm' : m'.Overflows) : m.Overflows := by
  obtain ⟨k, m'', hk⟩ := hm'
  exact ⟨n + k, m'', by rw [run_add h, hk]⟩

end Machine

/-! ## Simulation -/

/-- A run of the machine comes to the given result.  If this is that a loop went through all its
rounds, the run has at least `bound` steps. -/
def Mirrors {α : Type} (bound : Nat) (r : EStateM.Result Halt World α) (m : Machine)
    (post : α → Machine → Prop) : Prop :=
  match r with
  | .ok a w => ∃ n m', m.run n = .unfinished m' ∧ m'.world = w ∧ post a m'
  | .error (.stop cause) w => ∃ n m', m.run n = .stopped cause m' ∧ m'.world = w
  | .error .outOfRounds _ => ∃ n m', m.run n = .unfinished m' ∧ bound ≤ n

/-- Steps before a run that comes to a result. -/
theorem Mirrors.after_run {α : Type} {bound n : Nat} {r : EStateM.Result Halt World α}
    {m m' : Machine} {post : α → Machine → Prop} (hrun : m.run n = .unfinished m')
    (h : Mirrors bound r m' post) : Mirrors (n + bound) r m post := by
  have hadd (k : Nat) : m.run (n + k) = m'.run k := Machine.run_add hrun k
  match r with
  | .ok a w =>
      obtain ⟨k, m'', hk, hrest⟩ := h
      exact ⟨n + k, m'', by rw [hadd, hk], hrest⟩
  | .error (.stop cause) w =>
      obtain ⟨k, m'', hk, hrest⟩ := h
      exact ⟨n + k, m'', by rw [hadd, hk], hrest⟩
  | .error .outOfRounds w =>
      obtain ⟨k, m'', hk, hbound⟩ := h
      exact ⟨n + k, m'', by rw [hadd, hk], by omega⟩

theorem Mirrors.mono {α : Type} {bound bound' : Nat} {r : EStateM.Result Halt World α}
    {m : Machine} {post post' : α → Machine → Prop} (h : Mirrors bound' r m post)
    (hle : bound ≤ bound') (hpost : ∀ a m', post a m' → post' a m') : Mirrors bound r m post' := by
  match r with
  | .ok a w =>
      obtain ⟨n, m', hrun, hworld, hm'⟩ := h
      exact ⟨n, m', hrun, hworld, hpost a m' hm'⟩
  | .error (.stop cause) w => exact h
  | .error .outOfRounds w =>
      obtain ⟨n, m', hrun, hn⟩ := h
      exact ⟨n, m', hrun, Nat.le_trans hle hn⟩

/-- A run of the machine does what the evaluation does, unless it finds no room on the stack. -/
def Simulates {α : Type} (bound : Nat) (x : Eval α) (m : Machine) (post : α → Machine → Prop) :
    Prop :=
  m.Overflows ∨ Mirrors bound (x m.world) m post

namespace Simulates

variable {α β : Type} {bound : Nat} {x : Eval α} {m : Machine} {post : α → Machine → Prop}

theorem of_pure {a : α} (h : post a m) : Simulates bound (pure a) m post :=
  .inr ⟨0, m, rfl, rfl, h⟩

theorem mono {bound' : Nat} {post' : α → Machine → Prop} (h : Simulates bound' x m post)
    (hle : bound ≤ bound') (hpost : ∀ a m', post a m' → post' a m') :
    Simulates bound x m post' :=
  Or.imp_right (fun h => h.mono hle hpost) h

theorem imp {post' : α → Machine → Prop} (h : Simulates bound x m post)
    (hpost : ∀ a m', post a m' → post' a m') : Simulates bound x m post' :=
  h.mono (Nat.le_refl _) hpost

theorem weaken {bound' : Nat} (h : Simulates bound' x m post) (hle : bound ≤ bound') :
    Simulates bound x m post :=
  h.mono hle fun _ _ h => h

/-- Steps that change nothing but the stack and the place come before the evaluation. -/
theorem after_run {m' : Machine} {n : Nat} (hrun : m.run n = .unfinished m')
    (hworld : m'.world = m.world) (h : Simulates bound x m' post) :
    Simulates (n + bound) x m post := by
  rcases h with hover | h
  · exact .inl (hover.of_run hrun)
  · rw [hworld] at h
    exact .inr (h.after_run hrun)

/-- One evaluation after another. -/
theorem bind {f : α → Eval β} {post' : β → Machine → Prop} (hx : Simulates bound x m post)
    (hf : ∀ a m', post a m' → Simulates bound (f a) m' post') :
    Simulates bound (x >>= f) m post' := by
  rcases hx with hover | hx
  · exact .inl hover
  · unfold Simulates
    simp only [Bind.bind, EStateM.bind]
    match hxw : x m.world, hx with
    | .ok a w, ⟨n, m', hrun, hworld, hm'⟩ =>
        rcases hf a m' hm' with hover | h
        · exact .inl (hover.of_run hrun)
        · rw [hworld] at h
          exact .inr ((h.after_run hrun).mono (by omega) fun _ _ h => h)
    | .error (.stop cause) w, h => exact .inr h
    | .error .outOfRounds w, h => exact .inr h

theorem map {f : α → β} {post' : β → Machine → Prop} (hx : Simulates bound x m post)
    (hf : ∀ a m', post a m' → post' (f a) m') : Simulates bound (f <$> x) m post' := by
  rw [map_eq_pure_bind]
  exact hx.bind fun a m' hm' => of_pure (hf a m' hm')

end Simulates

/-! ## Machines at a place of first-order code -/

/-- The value is no closure. -/
def Value.IsData (v : Value) : Prop :=
  ∀ a, v ≠ .closure a

/-- Whether the opcode occurs in code without functions. -/
def Opcode.isFirstOrder : Opcode → Bool
  | closure | currentClosure | setLocal | setConstLocal | returnValue | returnNull => false
  | _ => true

theorem Instruction.staysIn_of_isFirstOrder {i : Instruction} {args : List Value}
    (hop : i.opcode.isFirstOrder = true) (hargs : ∀ v ∈ args, v.IsData) : i.StaysIn args := by
  by_contra hstays
  rcases not_staysIn hstays with (h | h) | ⟨-, a, vs, rfl⟩
  · simp [h, Opcode.isFirstOrder] at hop
  · simp [h, Opcode.isFirstOrder] at hop
  · exact hargs _ List.mem_cons_self a rfl

namespace Machine

/-- The machine runs top-level code at an offset, with a number of values on the stack, and holds no
closures. -/
structure At (code : Code) (pool : Array Value) (offset height : Nat) (m : Machine) : Prop where
  frame : ∃ f, m.frames = [f] ∧ f.ip = offset ∧ f.base = 0 ∧ m.codeOf f = code
  constants : m.constants = pool
  sp : m.sp = height
  le : height ≤ m.stack.size
  stack : ∀ v ∈ m.stack, v.IsData
  globals : ∀ v ∈ m.globals.slots, v.IsData
  heap : m.heap.All Value.IsData

/-- The stack holds the values from a slot on. -/
def Shows (m : Machine) (start : Nat) (vs : List Value) : Prop :=
  ∀ j v, vs[j]? = some v → m.stack[start + j]? = some v

namespace Shows

variable {m : Machine} {start : Nat}

theorem nil : m.Shows start [] :=
  fun _ _ hv => by simp at hv

theorem cons {v : Value} {vs : List Value} (hv : m.stack[start]? = some v)
    (hvs : m.Shows (start + 1) vs) : m.Shows start (v :: vs) := by
  intro j w hw
  cases j with
  | zero => rwa [List.getElem?_cons_zero, ← hv] at hw
  | succ j =>
      rw [show start + (j + 1) = start + 1 + j by omega]
      exact hvs j w hw

end Shows

/-- The slots below a height are the same. -/
def SameBelow (m : Machine) (height : Nat) (m' : Machine) : Prop :=
  ∀ j, j < height → m'.stack[j]? = m.stack[j]?

namespace SameBelow

variable {m₁ m₂ m₃ : Machine} {k l : Nat}

theorem refl (m : Machine) (k : Nat) : m.SameBelow k m :=
  fun _ _ => rfl

theorem trans (h₁ : m₁.SameBelow k m₂) (h₂ : m₂.SameBelow l m₃) (hkl : k ≤ l) :
    m₁.SameBelow k m₃ :=
  fun j hj => (h₂ j (Nat.lt_of_lt_of_le hj hkl)).trans (h₁ j hj)

theorem of_eq (h : m₂.stack = m₁.stack) : m₁.SameBelow k m₂ :=
  fun j _ => by rw [h]

end SameBelow

/-- The second machine has come to an offset and has one value more on its stack. -/
structure Puts (code : Code) (pool : Array Value) (offset height : Nat) (m : Machine) (v : Value)
    (m' : Machine) : Prop where
  place : m'.At code pool offset (height + 1)
  same : m.SameBelow height m'
  top : m'.stack[height]? = some v

def worldAfter (m : Machine) (e : Effect) : World :=
  { globals := e.globals, heap := e.heap, output := m.output ++ e.printed }

theorem worldAfter_nothing (m : Machine) (f : Frame) :
    m.worldAfter (m.view f).nothing = m.world := by
  simp [world, worldAfter, View.nothing, view]

/-- What a step does to the machine, given the result of the instruction. -/
def StepsAs (m : Machine) (code : Code) (pool : Array Value) (below next : Nat) :
    Except (Stop RuntimeError) Effect → Prop
  | .ok e => ∃ m', m.run 1 = .unfinished m' ∧ m'.world = m.worldAfter e ∧
      m'.At code pool (e.target.getD next) (below + if e.value.isSome then 1 else 0) ∧
      m.SameBelow below m' ∧ (∀ v, e.value = some v → m'.stack[below]? = some v) ∧
      (e.value = none → m'.stack = m.stack)
  | .error stop => ∃ m', m.run 1 = .stopped stop m' ∧ m'.world = m.world

theorem stackAfter_of_not_written {m : Machine} {base below : Nat} {e : Effect}
    (h : e.written = none) :
    m.stackAfter base below e =
      match e.value with
      | some v => m.stack.setIfInBounds below v
      | none => m.stack := by
  cases hvalue : e.value <;> simp [stackAfter, slotsAfter, h, hvalue]

/-- A step of first-order code performs the effect of its instruction. -/
theorem At.step {code : Code} {pool : Array Value} {o below : Nat} {i : Instruction}
    {args : List Value} {m : Machine} (hm : m.At code pool o (below + args.length))
    (hdecode : code.decode o = .ok i) (hargs : m.Shows below args)
    (hlength : args.length = i.taken) (hop : i.opcode.isFirstOrder = true)
    (hconstant : i.opcode = .constant → ∀ v, pool[i.operand 0]? = some v → v.IsData) :
    m.Overflows ∨ ∃ f, m.StepsAs code pool below (o + i.width) (i.effect (m.view f) args) := by
  obtain ⟨f, hframes, rfl, hbase, rfl⟩ := hm.frame
  have htop : m.Top below args := ⟨hm.sp, hm.sp ▸ hm.le, hargs⟩
  have hdata := htop.forall_mem hm.stack
  have hstays := Instruction.staysIn_of_isFirstOrder hop hdata
  have hslot : i.opcode = .setLocal ∨ i.opcode = .setConstLocal →
      f.base + i.operand 0 < m.stack.size := by
    rintro (h | h) <;> simp [h, Opcode.isFirstOrder] at hop
  obtain ⟨byte, hbyte, hperforms⟩ := step_performs hframes hdecode htop hlength hstays hslot
  cases hstep : Exec.step byte m with
  | error stop m' =>
      cases hperforms.error hstep with
      | refused heffect hglobals hheap houtput =>
          refine .inr ⟨f, ?_⟩
          rw [heffect]
          exact ⟨m', run_one_error hbyte hstep, by simp [world, hglobals, hheap, houtput]⟩
      | full => exact .inl ⟨1, m', run_one_error hbyte hstep⟩
  | ok u m' =>
      obtain ⟨e, he, hroom, rfl⟩ := hperforms.ok hstep
      have hview : (m.view f).All Value.IsData :=
        ⟨captured_all hm.heap f, fun _ v hv => hm.stack v (Array.mem_of_getElem? hv), hm.globals,
          hm.heap⟩
      have hkeeps := Instruction.keeps_effect (fun v hv => hv) hview hdata hlength
        (by rintro h; simp [h, Opcode.isFirstOrder] at hop)
        (fun h v hv => hconstant h v (hm.constants ▸ hv))
        (by rintro h; simp [h, Opcode.isFirstOrder] at hop) e he
      have hsuits := Instruction.suits_effect hstays hlength he
      have hwritten : e.written = none := by
        cases hw : e.written with
        | none => rfl
        | some kv =>
            rcases (hsuits.written kv.1 kv.2 hw).1 with h | h <;>
              simp [h, Opcode.isFirstOrder] at hop
      have hle := hm.le
      refine .inr ⟨f, ?_⟩
      rw [he]
      refine ⟨_, run_one_ok hbyte hstep, rfl, ?_, ?_, ?_, ?_⟩
      · refine ⟨⟨_, rfl, rfl, hbase, ?_⟩, hm.constants, rfl, ?_, ?_, hkeeps.globals, hkeeps.heap⟩
        · change (f.routine.closureIn e.heap).function.code = (m.codeOf f)
          rw [f.routine.closureIn_congr hkeeps.same]
          rfl
        · change _ ≤ (m.stackAfter _ below e).size
          rw [size_stackAfter]
          split
          · rename_i hsome
            exact hroom hsome
          · omega
        · exact stackAfter_forall hm.stack hkeeps.value hkeeps.written
      · intro j hj
        change (m.stackAfter _ below e)[j]? = m.stack[j]?
        rw [stackAfter_of_not_written hwritten]
        split
        · rw [Array.getElem?_setIfInBounds_ne (by omega)]
        · rfl
      · intro v hv
        change (m.stackAfter _ below e)[below]? = some v
        have hin := hroom (by rw [hv]; rfl)
        rw [stackAfter_of_not_written hwritten, hv]
        exact Array.getElem?_setIfInBounds_self_of_lt hin
      · intro hv
        change m.stackAfter _ below e = m.stack
        rw [stackAfter_of_not_written hwritten, hv]

end Machine

/-! ## Instructions and evaluations -/

/-- The result of an instruction is that of an evaluation of a value. -/
def Computes (r : Except (Stop RuntimeError) Effect) (x : Eval Value) (m : Machine) : Prop :=
  match r with
  | .ok e => ∃ v, e.value = some v ∧ e.target = none ∧ x m.world = .ok v (m.worldAfter e)
  | .error stop => x m.world = .error (.stop stop) m.world

/-- The result of an instruction is that of an evaluation without a value. -/
def Carries (r : Except (Stop RuntimeError) Effect) (x : Eval Unit) (m : Machine) : Prop :=
  match r with
  | .ok e => e.value = none ∧ e.target = none ∧ x m.world = .ok () (m.worldAfter e)
  | .error stop => x m.world = .error (.stop stop) m.world

namespace Computes

variable {m : Machine} {f : Frame}

theorem give (v : Value) : Computes (.ok ((m.view f).give v)) (pure v) m := by
  refine ⟨v, rfl, rfl, ?_⟩
  simp [Pure.pure, EStateM.pure, Machine.world, Machine.worldAfter, View.give, View.nothing,
    Machine.view]

theorem giveNew (new : Heap → Value × Heap) :
    Computes (.ok ((m.view f).giveNew (new m.heap))) (Eval.allocate new) m := by
  refine ⟨_, rfl, rfl, ?_⟩
  simp [Eval.allocate, Machine.world, Machine.worldAfter, View.giveNew, View.nothing, Machine.view]

theorem giveResult (r : Except RuntimeError Value) :
    Computes ((m.view f).giveResult r) (Eval.ofExcept r) m := by
  cases r with
  | ok v => exact give v
  | error e => rfl

theorem call {callee : Value} {vs : List Value} :
    Computes ((m.view f).call callee vs) (Eval.call callee vs) m := by
  cases callee with
  | builtin b =>
      have hcall : (m.view f).call (.builtin b) vs = (b.reply m.heap vs).map (m.view f).answer :=
        rfl
      rw [hcall]
      cases hr : b.reply m.heap vs with
      | error stop =>
          change Eval.callBuiltin b vs m.world = _
          simp only [Eval.callBuiltin, Machine.world, hr]
      | ok r =>
          refine ⟨_, rfl, rfl, ?_⟩
          change Eval.callBuiltin b vs m.world = _
          simp only [Eval.callBuiltin, Machine.world, hr]
          rfl
  | _ => rfl

end Computes

namespace Simulates

variable {code : Code} {pool : Array Value} {o below bound : Nat} {i : Instruction}
  {args : List Value} {m : Machine}

/-- An instruction that gives a value. -/
theorem of_computes {x : Eval Value} (hm : m.At code pool o (below + args.length))
    (hdecode : code.decode o = .ok i) (hargs : m.Shows below args)
    (hlength : args.length = i.taken) (hop : i.opcode.isFirstOrder = true)
    (hconstant : i.opcode = .constant → ∀ v, pool[i.operand 0]? = some v → v.IsData)
    (hx : ∀ f, Computes (i.effect (m.view f) args) x m) :
    Simulates bound x m (m.Puts code pool (o + i.width) below) := by
  rcases hm.step hdecode hargs hlength hop hconstant with hover | ⟨f, hstep⟩
  · exact .inl hover
  · have hcomputes := hx f
    cases heffect : i.effect (m.view f) args with
    | error stop =>
        rw [heffect] at hstep hcomputes
        obtain ⟨m', hrun, hworld⟩ := hstep
        refine .inr ?_
        rw [show x m.world = _ from hcomputes]
        exact ⟨1, m', hrun, hworld⟩
    | ok e =>
        rw [heffect] at hstep hcomputes
        obtain ⟨v, hvalue, htarget, hxw⟩ := hcomputes
        obtain ⟨m', hrun, hworld, hat, hsame, htop, -⟩ := hstep
        rw [htarget, hvalue] at hat
        refine .inr ?_
        rw [hxw]
        exact ⟨1, m', hrun, hworld, hat, hsame, htop v hvalue⟩

/-- An instruction that only takes values. -/
theorem of_carries {x : Eval Unit} (hm : m.At code pool o (below + args.length))
    (hdecode : code.decode o = .ok i) (hargs : m.Shows below args)
    (hlength : args.length = i.taken) (hop : i.opcode.isFirstOrder = true)
    (hconstant : i.opcode ≠ .constant)
    (hx : ∀ f, Carries (i.effect (m.view f) args) x m) :
    Simulates bound x m fun _ m' =>
      m'.At code pool (o + i.width) below ∧ m'.stack = m.stack := by
  rcases hm.step hdecode hargs hlength hop (absurd · hconstant) with hover | ⟨f, hstep⟩
  · exact .inl hover
  · have hcarries := hx f
    cases heffect : i.effect (m.view f) args with
    | error stop =>
        rw [heffect] at hstep hcarries
        obtain ⟨m', hrun, hworld⟩ := hstep
        refine .inr ?_
        rw [show x m.world = _ from hcarries]
        exact ⟨1, m', hrun, hworld⟩
    | ok e =>
        rw [heffect] at hstep hcarries
        obtain ⟨hvalue, htarget, hxw⟩ := hcarries
        obtain ⟨m', hrun, hworld, hat, -, -, hstack⟩ := hstep
        rw [htarget, hvalue] at hat
        refine .inr ?_
        rw [hxw]
        exact ⟨1, m', hrun, hworld, hat, hstack hvalue⟩

section

variable {α : Type} {x : Eval α} {post : α → Machine → Prop} {target : Nat}

/-- A jump comes before an evaluation. -/
theorem jump (hm : m.At code pool o below) (hdecode : code.decode o = .ok ⟨.jump, [target]⟩)
    (h : ∀ m', m'.At code pool target below → m'.stack = m.stack → Simulates bound x m' post) :
    Simulates (1 + bound) x m post := by
  have hplace : m.At code pool o (below + ([] : List Value).length) := hm
  rcases hplace.step hdecode .nil rfl rfl nofun with hover | ⟨f, hstep⟩
  · exact .inl hover
  · obtain ⟨m', hrun, hworld, hat, -, -, hstack⟩ := hstep
    refine after_run hrun ?_ (h m' hat (hstack rfl))
    rw [hworld]
    exact m.worldAfter_nothing f

/-- A test of the topmost value comes before an evaluation. -/
theorem branch {c : Value} (hm : m.At code pool o (below + 1))
    (hdecode : code.decode o = .ok ⟨.jumpNotTruthy, [target]⟩) (hc : m.stack[below]? = some c)
    (h : ∀ m', m'.At code pool (if c.isTruthy then o + 3 else target) below →
      m'.stack = m.stack → Simulates bound x m' post) :
    Simulates (1 + bound) x m post := by
  have hplace : m.At code pool o (below + [c].length) := hm
  rcases hplace.step hdecode (.cons hc .nil) rfl rfl nofun with hover | ⟨f, hstep⟩
  · exact .inl hover
  · obtain ⟨m', hrun, hworld, hat, -, -, hstack⟩ := hstep
    refine after_run hrun ?_ (h m' ?_ (hstack rfl))
    · rw [hworld]
      exact m.worldAfter_nothing f
    · have hplace : m'.At code pool ((if c.isTruthy then none else some target).getD (o + 3))
          below :=
        hat
      cases htruthy : c.isTruthy <;> simpa [htruthy] using hplace

end

end Simulates

end ScriptEngine
