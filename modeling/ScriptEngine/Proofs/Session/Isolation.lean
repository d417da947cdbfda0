import ScriptEngine.Proofs.Machine.Isolation
import ScriptEngine.Proofs.Session.Safety

/-!
# Calls in a session

In all machines that come up while units of a session run, calls are isolated from their callers and
do not depend on them (`Machine.call_isIsolated`).
-/

namespace ScriptEngine

/-- The machine is at some point of the run of a unit, in a session that has evaluated any units
before. -/
def Machine.IsReached (m : Machine) : Prop :=
  ∃ limits history program unit c steps,
    let s := (Session.new limits).evalAll history
    (Compiler.resume s.scope s.pool).compile program = (.ok unit, c) ∧
      (s.machine unit).run steps = .unfinished m

theorem Machine.IsReached.exists_sound {m : Machine} (hm : m.IsReached) : ∃ main, m.Sound main := by
  obtain ⟨limits, history, program, unit, c, steps, hcompile, hrun⟩ := hm
  have hs := (Session.sound_new limits).evalAll history
  have hends := (hs.machine (hs.unit_of_compile hcompile)).run steps
  rw [hrun] at hends
  exact ⟨_, hends.1⟩

namespace Machine

/-- The machine goes on in the caller: the returned value has taken the place of the callee and its
arguments, and the stack below it and the open calls are what they were, apart from the caller
having moved past the call. -/
structure GoesOnWith (m : Machine) (f : Frame) (fs : List Frame) (slot : Nat) (v : Value)
    (m' : Machine) : Prop where
  sp : m'.sp = slot + 1
  value : m'.stack[slot]? = some v
  stack : ∀ j, j < slot → m'.stack[j]? = m.stack[j]?
  frames : m'.frames = f.goTo (f.ip + 2) :: fs

/-- From `m₁` to `m₁'` and from `m₂` to `m₂'` the same changes were made to the globals and the
heap, and the same was printed. -/
structure SameChanges (m₁ m₁' m₂ m₂' : Machine) : Prop where
  globals : m₁'.globals = m₂'.globals
  heap : m₁'.heap = m₂'.heap
  output : ∃ printed, m₁'.output = m₁.output ++ printed ∧ m₂'.output = m₂.output ++ printed

variable {m m' : Machine} {f : Frame} {fs : List Frame} {slot address : Nat} {main : Code}
  {args : List Value}

/-- A call that returns leaves its caller as it was. -/
theorem AtCall.goesOnWith (hcall : m.AtCall f fs slot address args) (hm : m.Sound main)
    {value? : Option Value} (hrun : m.RunsCall m.frames.length (.ok value?) m') :
    ∃ v, value? = some v ∧ m.GoesOnWith f fs slot v m' := by
  rcases hcall.runsTo hm hrun with ⟨_, hresult, -⟩ | ⟨k, -, hends⟩
  · cases hresult
  · obtain ⟨v, hv, hx, hframes, hvalues⟩ := hends.returned value? rfl
    refine ⟨v, hv, ?_, ?_, hx.stack.below, ?_⟩
    · rw [hx.sp, hvalues]
      rfl
    · exact hx.stack.above 0 v (by rw [hvalues]; rfl)
    · rw [hx.frames, hframes]
      rfl

/-- A call that ends without finding the machine full ends in the same way under another caller,
with the same changes, unless there is no room under that one. -/
theorem AtCall.sameChanges (hcall : m.AtCall f fs slot address args) (hm : m.Sound main)
    {m₂ : Machine} {f₂ : Frame} {fs₂ : List Frame} {slot₂ : Nat} {main₂ : Code}
    (hcall₂ : m₂.AtCall f₂ fs₂ slot₂ address args) (hm₂ : m₂.Sound main₂)
    (hconstants : m₂.constants = m.constants) (hglobals : m₂.globals = m.globals)
    (hheap : m₂.heap = m.heap) {result : CallResult}
    (hrun : m.RunsCall m.frames.length result m') (hroom : ¬result.Overflowed) :
    ∃ result₂ m₂', m₂.RunsCall m₂.frames.length result₂ m₂' ∧
      (result₂.Overflowed ∨ result₂ = result ∧ SameChanges m m' m₂ m₂') := by
  rcases hcall.runsTo hm hrun with hoverflow | ⟨k, hk, hends⟩
  · exact absurd hoverflow hroom
  · rw [← hconstants, ← hglobals, ← hheap] at hk
    obtain ⟨result₂, m₂', hrun₂, hends₂⟩ := hcall₂.runsCall hm₂ hk
    refine ⟨result₂, m₂', hrun₂, hends₂.imp_right fun ⟨hsame, hends₂⟩ => ⟨hsame, ?_, ?_, ?_⟩⟩
    · rw [hends.leaves.globals, hends₂.leaves.globals]
    · rw [hends.leaves.heap, hends₂.leaves.heap]
    · exact ⟨k.printed, hends.leaves.output, hends₂.leaves.output⟩

/-- Calls are isolated: at the return the value has taken the place of the callee and all else that
belongs to the caller is as before.  And calls do not depend on their context: under any other
caller, with any other stack, the same call ends too, with the same value or for the same reason and
with the same changes, unless one of the two finds no room. -/
theorem call_isIsolated (hm : m.IsReached) (hcall : m.AtCall f fs slot address args) :
    (∀ value? m', m.RunsCall m.frames.length (.ok value?) m' →
      ∃ v, value? = some v ∧ m.GoesOnWith f fs slot v m') ∧
    ∀ m₂ f₂ fs₂ slot₂, m₂.IsReached → m₂.AtCall f₂ fs₂ slot₂ address args →
      m₂.constants = m.constants → m₂.globals = m.globals → m₂.heap = m.heap →
      ∀ result m', m.RunsCall m.frames.length result m' → ¬result.Overflowed →
        (∃ result₂ m₂', m₂.RunsCall m₂.frames.length result₂ m₂') ∧
          ∀ result₂ m₂', m₂.RunsCall m₂.frames.length result₂ m₂' → ¬result₂.Overflowed →
            result₂ = result ∧ SameChanges m m' m₂ m₂' := by
  obtain ⟨main, hm⟩ := hm.exists_sound
  refine ⟨fun value? m' hrun => hcall.goesOnWith hm hrun, ?_⟩
  intro m₂ f₂ fs₂ slot₂ hm₂ hcall₂ hconstants hglobals hheap result m' hrun hroom
  obtain ⟨main₂, hm₂⟩ := hm₂.exists_sound
  obtain ⟨result₂, m₂', hrun₂, hsame⟩ :=
    hcall.sameChanges hm hcall₂ hm₂ hconstants hglobals hheap hrun hroom
  refine ⟨⟨result₂, m₂', hrun₂⟩, fun other m₂'' hother hroom₂ => ?_⟩
  obtain ⟨rfl, rfl⟩ := hrun₂.unique hother
  exact hsame.resolve_left hroom₂

end Machine

/-! ## A call under two callers -/

theorem Heap.eq_of_no_hashes {h h' : Heap}
    (hobjects : h'.arrays = h.arrays ∧ h'.hashes.size = 0 ∧ h.hashes.size = 0 ∧
      h'.structs = h.structs ∧ h'.closures = h.closures) : h' = h := by
  obtain ⟨harrays, hhashes', hhashes, hstructs, hclosures⟩ := hobjects
  cases h
  cases h'
  simp_all

namespace Machine

variable {m m' : Machine} {f : Frame} {fs : List Frame} {slot address : Nat} {args : List Value}

/-- The end of a call, if it comes within a number of steps. -/
def callWithin? (depth : Nat) : Nat → Machine → Option (CallResult × Machine)
  | 0, _ => none
  | steps + 1, m =>
      match m.run 1 with
      | .finished _ => none
      | .stopped cause m' => some (.error cause, m')
      | .unfinished m' =>
          if m'.frames.length ≤ depth then some (.ok m.returning?, m')
          else m'.callWithin? depth steps

theorem runsCall_of_callWithin? {depth steps : Nat} {result : CallResult}
    (h : m.callWithin? depth steps = some (result, m')) : m.RunsCall depth result m' := by
  induction steps generalizing m with
  | zero => cases h
  | succ steps ih =>
      unfold callWithin? at h
      split at h
      · cases h
      · rename_i hrun
        cases h
        exact .stops hrun
      · rename_i m₁ hrun
        split at h
        · rename_i hclosed
          cases h
          exact .returns hrun hclosed
        · rename_i hinside
          exact .goesOn hrun (Nat.lt_of_not_le hinside) (ih h)

theorem top_iff {below : Nat} :
    m.Top below args ↔ m.sp = below + args.length ∧ m.sp ≤ m.stack.size ∧
      m.stack.extract below m.sp = args.toArray := by
  constructor
  · intro h
    exact ⟨h.sp, h.le, h.extract_eq⟩
  · rintro ⟨hsp, hle, hextract⟩
    refine ⟨hsp, hle, fun k v hv => ?_⟩
    have hk := (List.getElem?_eq_some_iff.mp hv).1
    have hget : (m.stack.extract below m.sp)[k]? = some v := by simpa [hextract] using hv
    rwa [Array.getElem?_extract, if_pos (by omega)] at hget

instance : Decidable (m.AtCall f fs slot address args) :=
  decidable_of_iff
    (m.frames = f :: fs ∧
      ((m.codeOf f).decode f.ip).toOption = some ⟨.call, [args.length]⟩ ∧
      (m.sp = slot + (Value.closure address :: args).length ∧ m.sp ≤ m.stack.size ∧
        m.stack.extract slot m.sp = (Value.closure address :: args).toArray) ∧
      (m.heap.closure address).function.parameters = args.length)
    (by
      have hdecode : ((m.codeOf f).decode f.ip).toOption = some ⟨.call, [args.length]⟩ ↔
          (m.codeOf f).decode f.ip = .ok ⟨.call, [args.length]⟩ := by
        cases (m.codeOf f).decode f.ip <;> simp [Except.toOption]
      rw [hdecode, ← top_iff]
      exact ⟨fun ⟨hframes, hdecode, htop, hcount⟩ => ⟨hframes, hdecode, htop, hcount⟩,
        fun h => ⟨h.frames, h.decode, h.top, h.count⟩⟩)

theorem exists_runsCall {depth steps : Nat} {v : Value}
    (h : (m.callWithin? depth steps).bind (fun r => r.1.toOption.join) = some v) :
    ∃ m', m.RunsCall depth (.ok (some v)) m' := by
  cases hend : m.callWithin? depth steps with
  | none => simp [hend] at h
  | some r =>
      obtain ⟨result, m'⟩ := r
      rw [hend, Option.bind_some] at h
      cases result with
      | error cause => simp [Except.toOption] at h
      | ok value? =>
          obtain rfl : value? = some v := by simpa [Except.toOption] using h
          exact ⟨m', runsCall_of_callWithin? hend⟩

/-- The machine after a number of steps of a unit, in a session that has evaluated others. -/
def after? (limits : Limits) (history : List (Nat × Program)) (program : Program) (steps : Nat) :
    Option Machine :=
  let s := (Session.new limits).evalAll history
  match (Compiler.resume s.scope s.pool).compile program with
  | (.ok unit, _) =>
      match (s.machine unit).run steps with
      | .unfinished m => some m
      | _ => none
  | _ => none

theorem isReached_of_after? {limits : Limits} {history : List (Nat × Program)} {program : Program}
    {steps : Nat} (h : after? limits history program steps = some m) : m.IsReached := by
  simp only [after?] at h
  split at h
  · rename_i unit c hcompile
    split at h
    · rename_i hrun
      cases h
      exact ⟨limits, history, program, unit, c, steps, hcompile, hrun⟩
    · cases h
  · cases h

/-- A function, and another one that calls it with a value of its own on the stack. -/
def declaringHistory : List (Nat × Program) :=
  [(9,
    [.function ⟨"double", none, ⟨[("x", .int)], some .int⟩⟩
        [.expr (.call (.ident "puts") [.ident "x"] none),
          .ret (some (.binary .add (.ident "x") (.ident "x")))],
      .function ⟨"plus", none, ⟨[("y", .int)], some .int⟩⟩
        [.ret (some (.binary .add (.ident "y") (.call (.ident "double") [.int 4] none)))]])]

def directCall : Program :=
  [.expr (.call (.ident "double") [.int 4] none)]

def nestedCall : Program :=
  [.expr (.call (.ident "plus") [.int 4] none)]

/-- The open call of the unit that calls the function itself. -/
def directCaller : Frame :=
  ⟨.main ⟨#[20, 0, 0, 0, 0, 3, 33, 1, 40]⟩, 6, 0⟩

/-- The open call of the unit that calls the other function. -/
def outerCaller : Frame :=
  ⟨.main ⟨#[20, 0, 1, 0, 0, 3, 33, 1, 40]⟩, 8, 0⟩

/-- Two units call a function with the same argument, one from its top level and one from another
function. -/
theorem call_isIsolated_nestedCalls :
    ∃ m m' m₂ m₂' : Machine,
      (m.IsReached ∧ m.AtCall directCaller [] 0 0 [.int 4]) ∧
      (m₂.IsReached ∧ m₂.AtCall ⟨.closure 1, 8, 1⟩ [outerCaller] 3 0 [.int 4]) ∧
      m.RunsCall 1 (.ok (some (.int 8))) m' ∧ m.GoesOnWith directCaller [] 0 (.int 8) m' ∧
      m₂.RunsCall 2 (.ok (some (.int 8))) m₂' ∧ SameChanges m m' m₂ m₂' := by
  have hcheck : ((after? ⟨8, 3, 2⟩ declaringHistory directCall 2).bind fun m =>
      (after? ⟨8, 3, 2⟩ declaringHistory nestedCall 6).map fun m₂ => decide (
        (m.AtCall directCaller [] 0 0 [.int 4] ∧
          m₂.AtCall ⟨.closure 1, 8, 1⟩ [outerCaller] 3 0 [.int 4]) ∧
        m₂.constants = m.constants ∧ m₂.globals = m.globals ∧
        (m₂.heap.arrays = m.heap.arrays ∧ m₂.heap.hashes.size = 0 ∧ m.heap.hashes.size = 0 ∧
          m₂.heap.structs = m.heap.structs ∧ m₂.heap.closures = m.heap.closures) ∧
        (m.callWithin? 1 9).bind (fun r => r.1.toOption.join) = some (.int 8) ∧
        (m₂.callWithin? 2 9).bind (fun r => r.1.toOption.join) = some (.int 8))) = some true := by
    decide +kernel
  obtain ⟨m, hm, hcheck⟩ := Option.bind_eq_some_iff.mp hcheck
  obtain ⟨m₂, hm₂, hcheck⟩ := Option.map_eq_some_iff.mp hcheck
  obtain ⟨⟨hcall, hcall₂⟩, hconstants, hglobals, hobjects, hvalue, hvalue₂⟩ :=
    of_decide_eq_true hcheck
  have hreached := isReached_of_after? hm
  have hreached₂ := isReached_of_after? hm₂
  obtain ⟨m', hrun⟩ := exists_runsCall hvalue
  obtain ⟨m₂', hrun₂⟩ := exists_runsCall hvalue₂
  have hheap := Heap.eq_of_no_hashes hobjects
  have hdepth : m.frames.length = 1 := by rw [hcall.frames]; rfl
  have hdepth₂ : m₂.frames.length = 2 := by rw [hcall₂.frames]; rfl
  obtain ⟨hisolated, hsame⟩ := call_isIsolated hreached hcall
  rw [hdepth] at hisolated hsame
  obtain ⟨v, hv, hgoesOn⟩ := hisolated _ m' hrun
  cases hv
  obtain ⟨-, hsame⟩ := hsame m₂ _ _ _ hreached₂ hcall₂ hconstants hglobals hheap _ m' hrun
    (CallResult.not_overflowed_ok _)
  rw [hdepth₂] at hsame
  exact ⟨m, m', m₂, m₂', ⟨hreached, hcall⟩, ⟨hreached₂, hcall₂⟩, hrun, hgoesOn, hrun₂,
    (hsame _ m₂' hrun₂ (CallResult.not_overflowed_ok _)).2⟩

end Machine

end ScriptEngine
