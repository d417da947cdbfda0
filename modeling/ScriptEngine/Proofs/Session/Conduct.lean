import ScriptEngine.Proofs.Compile.Events
import ScriptEngine.Proofs.Machine.Conduct
import ScriptEngine.Proofs.Session.Safety

/-!
# The conduct of sessions

Closures outlive the units that made them, and later units call them.  Whatever units a session has
evaluated, all its closures are those of functions among its constants (`Session.Orderly.evalAll`).
Hence what the instructions of a unit and those of all functions so far keep is kept by the unit
(`Session.Orderly.run_keeps`).
-/

namespace ScriptEngine

theorem ScopeChain.Named.outermost {c : ScopeChain} (hc : c.Named) :
    (ofScope c.outermost).Named := by
  intro s hs
  obtain rfl := List.mem_singleton.mp hs
  apply hc
  obtain ⟨current, enclosing⟩ := c
  rw [ScopeChain.outermost, List.getLastD_eq_getLast?]
  cases hlast : enclosing.getLast? with
  | none => exact List.mem_cons_self
  | some s => exact List.mem_cons_of_mem _ (List.mem_of_getLast? hlast)

namespace Session

variable {s : Session} {program : Program}

/-- The session is sound, its scope keeps symbols by their names, and its closures are those of its
constants. -/
structure Orderly (s : Session) : Prop where
  sound : s.Sound
  named : (ScopeChain.ofScope s.scope).Named
  closures : ClosuresStem s.pool s.heap.closures

theorem orderly_new (limits : Limits) : (Session.new limits).Orderly := by
  refine ⟨sound_new limits, ?_, ?_⟩
  · intro s hs
    obtain rfl := List.mem_singleton.mp hs
    exact Scope.named_withBuiltins
  · intro c hc
    simp [Session.new, Heap.empty] at hc

namespace Orderly

theorem attends (hs : s.Orderly) :
    (Compiler.resume s.scope s.pool).env.Attends (.ofPool s.pool) :=
  Compiler.attends_resume hs.sound.scope hs.named s.pool

/-- The run of a unit keeps what its instructions and those of all functions keep. -/
theorem run_keeps (hs : s.Orderly) {unit : Bytecode} {c : Compiler}
    (hcompile : (Compiler.resume s.scope s.pool).compile program = (.ok unit, c))
    {allowed : Instruction → Prop} {p : Globals → Heap → Prop}
    (hold : ∀ f, Value.function f ∈ s.pool → f.content.code.Obeys allowed)
    (hnew : ∀ e ∈ functionsFrom s.pool.size unit.constants, e.2.code.Obeys allowed)
    (hmain : unit.code.Obeys allowed) (hp : KeptBy allowed unit.constants p)
    (hpm : p s.globals s.heap) (steps : Nat) :
    let m := ((s.machine unit).run steps).machine
    ClosuresStem unit.constants m.heap.closures ∧ p m.globals m.heap := by
  have hunit := hs.sound.unit_of_compile hcompile
  have hfunctions : ∀ f, Value.function f ∈ unit.constants → f.content.code.Obeys allowed := by
    intro f hf
    rcases mem_or_mem_functionsFrom hunit.continues hf with hf | ⟨k, hk⟩
    · exact hold f hf
    · exact hnew (k, f.content) hk
  have hconducts := Machine.conducts_initial s.limits s.globals hfunctions hmain
    (hs.closures.continues hunit.continues)
  exact hconducts.run (hs.sound.machine hunit) hp hpm steps

/-- Units keep a session orderly. -/
theorem eval (hs : s.Orderly) (steps : Nat) (program : Program) :
    (s.eval steps program).2.2.Orderly := by
  have hsound := hs.sound.eval steps program
  cases hcompile : (Compiler.resume s.scope s.pool).compile program with
  | mk compiled c =>
      cases compiled with
      | error stop =>
          rw [eval_of_error hcompile]
          exact hs
      | ok unit =>
          obtain ⟨t, E', hunit, hchain⟩ := Compiler.compilesUnit_of_compile hcompile
          have hsoundUnit := hs.sound.unit_of_compile hcompile
          have hnamed : (ScopeChain.ofScope c.chain.outermost).Named := by
            rw [hchain]
            exact (hunit.rules.introduces hs.attends.named trivial).named.outermost
          -- where the closures stem from does not depend on the instructions
          have hall (c : Code) : c.Obeys fun _ => True := fun _ _ _ _ => trivial
          have hkept : KeptBy (fun _ => True) unit.constants fun _ _ => True :=
            fun _ _ _ _ _ _ _ _ _ _ => trivial
          have hrun := hs.run_keeps hcompile (fun f _ => hall _) (fun e _ => hall _) (hall _) hkept
            trivial steps
          rcases eval_of_ok hcompile steps with heval | heval
          · rw [heval] at hsound ⊢
            refine ⟨hsound, hnamed, ?_⟩
            rw [after, afterRun, hsoundUnit.constants]
            exact hrun.1
          · rw [heval] at hsound ⊢
            refine ⟨hsound, hnamed, ?_⟩
            rw [withoutMachine, hsoundUnit.constants]
            exact hs.closures.continues hsoundUnit.continues

theorem evalAll (hs : s.Orderly) (history : List (Nat × Program)) :
    (s.evalAll history).Orderly := by
  induction history generalizing s with
  | nil => exact hs
  | cons u history ih => exact ih (hs.eval u.1 u.2)

end Orderly

end Session

end ScriptEngine
