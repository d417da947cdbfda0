import ScriptEngine.Proofs.Compile.Splitting
import ScriptEngine.Proofs.Machine.Capacity
import ScriptEngine.Proofs.Machine.Excerpt
import ScriptEngine.Proofs.Session.Safety

/-!
# Splitting a unit

A unit without function declarations can be evaluated in two parts.  The machine that runs the whole
unit first does what a machine does that runs the first part; from where that one ends, it does what
a machine does that runs the second part on the globals and the heap that the first one left.  Hence
it does not matter whether the unit is split (`Session.eval_append`).
-/

namespace ScriptEngine

theorem Outcome.ofStop_injective : Function.Injective Outcome.ofStop := by
  intro a b h
  cases a <;> cases b <;> cases h <;> rfl

namespace Session

variable {s s' : Session} {program : Program} {unit unit₁ unit₂ : Bytecode} {c c₁ : Compiler}

/-- Within some number of steps, the unit is evaluated to a value. -/
def Yields (s : Session) (program : Program) (v : Value) (out : String) (s' : Session) : Prop :=
  ∃ steps, s.eval steps program = (.value v, out, s')

/-- Within some number of steps, the unit stops early. -/
def Fails (s : Session) (program : Program) (stop : Stop RuntimeError) : Prop :=
  ∃ steps, (s.eval steps program).1 = .ofStop stop

section

variable (hcompile : (Compiler.resume s.scope s.pool).compile program = (.ok unit, c))
include hcompile

theorem yields_iff (hfits : s.limits.fitMachine = true) {v : Value} {out : String} :
    s.Yields program v out s' ↔ ∃ steps m, (s.machine unit).run steps = .finished m ∧
      v = m.lastTaken ∧ out = m.output ∧ s' = s.after c m := by
  refine exists_congr fun steps => ?_
  rw [eval_of_fits hcompile hfits steps]
  cases (s.machine unit).run steps with
  | finished m =>
      constructor
      · intro h
        cases h
        exact ⟨m, rfl, rfl, rfl, rfl⟩
      · rintro ⟨_, ⟨⟩, rfl, rfl, rfl⟩
        rfl
  | unfinished m => simp [Run.outcome]
  | stopped stop m => cases stop <;> simp [Run.outcome, Outcome.ofStop]

theorem fails_iff (hfits : s.limits.fitMachine = true) {stop : Stop RuntimeError} :
    s.Fails program stop ↔ ∃ steps m, (s.machine unit).run steps = .stopped stop m := by
  refine exists_congr fun steps => ?_
  rw [eval_of_fits hcompile hfits steps]
  cases (s.machine unit).run steps with
  | stopped stop' m =>
      constructor
      · intro h
        exact ⟨m, congrArg (Run.stopped · m) (Outcome.ofStop_injective h)⟩
      · rintro ⟨_, ⟨⟩⟩
        rfl
  | finished m | unfinished m => cases stop <;> simp [Run.outcome, Outcome.ofStop]

/-- Where no machine can be built, no unit has a value. -/
theorem not_yields_of_not_fits (hfits : s.limits.fitMachine = false) {v : Value} {out : String} :
    ¬s.Yields program v out s' := by
  rintro ⟨steps, h⟩
  rw [eval_of_not_fits hcompile hfits] at h
  cases h

/-- Where no machine can be built, all units stop for this reason. -/
theorem fails_iff_of_not_fits (hfits : s.limits.fitMachine = false) {stop : Stop RuntimeError} :
    s.Fails program stop ↔ stop = .crash .capacityOverflow := by
  simp only [Fails, eval_of_not_fits hcompile hfits, exists_const]
  cases stop <;> simp [Outcome.ofStop, eq_comm]

end

end Session

/-! ## The parts of a unit -/

/-- A code that is not empty begins with an instruction. -/
theorem SoundUnit.decode_zero {pool : Array Value} {unit : Bytecode} {c : Compiler}
    (h : SoundUnit pool unit c) (hpos : 0 < unit.code.size) : ∃ i, unit.code.decode 0 = .ok i := by
  obtain ⟨within, hstart, hsteps⟩ := h.code
  rcases hsteps 0 0 hstart with ⟨hend, -⟩ | ⟨i, hdecode, -⟩
  · exact absurd hend (Nat.ne_of_lt hpos)
  · exact ⟨i, hdecode⟩

/-- A unit that is about to be run in a session, and two parts of it that could be run there one
after the other. -/
structure SoundParts (s : Session) (unit unit₁ unit₂ : Bytecode) (c c₁ : Compiler) : Prop where
  session : s.Sound
  whole : SoundUnit s.pool unit c
  first : SoundUnit s.pool unit₁ c₁
  second : SoundUnit c₁.pool unit₂ c
  parts : unit.ConsistsOf unit₁ unit₂

namespace SoundParts

variable {s : Session} {unit unit₁ unit₂ : Bytecode} {c c₁ : Compiler}

def firstExcerpt (h : SoundParts s unit unit₁ unit₂ c c₁) : Excerpt where
  whole := unit.code
  part := unit₁.code
  start := 0
  names := id
  inside := unit₁.code.Reaches
  embeds := h.parts.first
  onward _ _ _ hreaches := hreaches.next

def secondExcerpt (h : SoundParts s unit unit₁ unit₂ c c₁) : Excerpt where
  whole := unit.code
  part := unit₂.code
  start := unit₁.code.size
  names := id
  inside := unit₂.code.Reaches
  embeds := h.parts.second
  onward _ _ _ hreaches := hreaches.next

variable (h : SoundParts s unit unit₁ unit₂ c c₁)
include h

theorem sound_whole : (s.machine unit).Sound unit.code :=
  h.session.machine h.whole

theorem sound_first : (s.machine unit₁).Sound unit₁.code :=
  h.session.machine h.first

theorem sound_second {steps : Nat} {a : Machine}
    (hrun : (s.machine unit₁).run steps = .finished a) :
    ((s.after c₁ a).machine unit₂).Sound unit₂.code := by
  have hafter := (h.session.after h.first steps).2
  rw [hrun] at hafter
  exact hafter.machine h.second

theorem continues : Continues unit₁.constants unit.constants := by
  rw [h.parts.constants, ← h.first.constants]
  exact h.second.continues

/-- The machines that run the unit and its first part begin alike. -/
theorem mirrors_first : h.firstExcerpt.Mirrors "" 0 (s.machine unit) (s.machine unit₁) :=
  Excerpt.mirrors_initial (x := h.firstExcerpt) (m := s.machine unit) rfl rfl
    Array.size_replicate rfl h.continues s.globals.rename_id.symm s.heap.renamed_id .start

/-- When the first part has come to its end, the machine that runs the unit has come to the second
part; and a machine that runs the second part on what the first one left begins alike. -/
theorem mirrors_second {steps : Nat} {a : Machine}
    (hrun : (s.machine unit₁).run steps = .finished a) :
    ∃ k j, (s.machine unit).run k = .unfinished j ∧ j.Sound unit.code ∧
      h.secondExcerpt.Mirrors a.output 0 j ((s.after c₁ a).machine unit₂) := by
  have halike := h.mirrors_first.run h.sound_whole h.sound_first steps
  have hends := h.sound_first.run steps
  rw [hrun] at halike hends
  obtain ⟨k, j, height, -, -, hj, hmirrors, hsound⟩ := halike
  obtain ⟨hbyte, ha, -⟩ := hends
  refine ⟨k, j, hj, hsound, ?_⟩
  obtain ⟨hsp, hframes⟩ := hmirrors.at_end ha hbyte
  have hlimits : ((s.machine unit).run k).machine.WithinLimits s.limits s.globals.size :=
    Machine.run_induction (fun _ => Machine.WithinLimits.run_one)
      (Machine.withinLimits_initial unit.code unit.constants s.limits s.globals s.heap) k
  have hpool := h.sound_whole.run k
  rw [hj] at hlimits hpool
  have hconstants : j.constants = unit₂.constants := hpool.2.trans h.parts.constants
  have houtput : j.output = a.output := hmirrors.output.trans (String.empty_append)
  rw [← houtput]
  refine Excerpt.mirrors_initial (x := h.secondExcerpt) (m := j) hframes hsp
    hlimits.stack hlimits.maxFrames ?_ hmirrors.globals hmirrors.heap .start
  rw [hconstants]
  exact .refl _

/-! ## How the unit ends when its parts do -/

/-- The machine that ran the unit, at its end, beside the machines that ran the parts. -/
structure EndsAlike (h : SoundParts s unit unit₁ unit₂ c c₁) (a b m : Machine) : Prop where
  sound : m.Sound unit.code
  sp : m.sp = 0
  mirrors : ∃ touched, h.secondExcerpt.Mirrors a.output touched m b ∧
    (0 < unit₂.code.size → 0 < touched)

section

variable {n k : Nat} {a b : Machine} {stop : Stop RuntimeError}

theorem stops_of_first (hrun : (s.machine unit₁).run n = .stopped stop a) :
    ∃ m, (s.machine unit).run n = .stopped stop m := by
  have halike := h.mirrors_first.run h.sound_whole h.sound_first n
  rw [hrun] at halike
  obtain ⟨m, hm, -⟩ := halike
  exact ⟨m, hm⟩

theorem stops_of_second (hrun : (s.machine unit₁).run n = .finished a)
    (hrun' : ((s.after c₁ a).machine unit₂).run k = .stopped stop b) :
    ∃ steps m, (s.machine unit).run steps = .stopped stop m := by
  obtain ⟨l, j, hj, hsound, hmirrors⟩ := h.mirrors_second hrun
  have halike := hmirrors.run hsound (h.sound_second hrun) k
  rw [hrun'] at halike
  obtain ⟨m, hm, -⟩ := halike
  exact ⟨l + k, m, (Machine.run_add hj k).trans hm⟩

/-- At the end of the second part the machine that runs the unit has come to its end. -/
theorem nextByte?_eq_none {before : String} {touched : Nat} {m : Machine}
    (hmirrors : h.secondExcerpt.Mirrors before touched m b) (hb : b.Sound unit₂.code)
    (hbyte : b.nextByte? = none) : m.nextByte? = none := by
  obtain ⟨-, hframes⟩ := hmirrors.at_end hb hbyte
  simp only [Machine.nextByte?, hframes]
  refine Array.getElem?_eq_none ?_
  exact Nat.le_of_eq (h.parts.size.trans (Nat.add_comm _ _))

theorem finishes_of_second (hrun : (s.machine unit₁).run n = .finished a)
    (hrun' : ((s.after c₁ a).machine unit₂).run k = .finished b) :
    ∃ steps m, (s.machine unit).run steps = .finished m ∧ h.EndsAlike a b m := by
  obtain ⟨l, j, hj, hsound, hmirrors⟩ := h.mirrors_second hrun
  have hsecond := h.sound_second hrun
  have hends := hsecond.run k
  rw [hrun'] at hends
  obtain ⟨hbyte, hb, -⟩ := hends
  suffices hcomes : ∃ l' m touched, (0 < unit₂.code.size → 0 < touched) ∧
      j.run l' = .unfinished m ∧
      h.secondExcerpt.Mirrors a.output touched m b ∧
      m.Sound unit.code by
    obtain ⟨l', m, touched, htouched, hm, hlast, hmsound⟩ := hcomes
    have hnone := h.nextByte?_eq_none hlast hb hbyte
    refine ⟨l + (l' + 1), m, ?_, hmsound, (hlast.at_end hb hbyte).1, touched, hlast, htouched⟩
    rw [Machine.run_add hj, Machine.run_add hm]
    simp only [Machine.run, hnone]
  rcases Nat.eq_zero_or_pos unit₂.code.size with hempty | hpos
  · have halike := hmirrors.run hsound hsecond k
    rw [hrun'] at halike
    obtain ⟨l', m, touched, -, -, hrest⟩ := halike
    exact ⟨l', m, touched, fun hpos => absurd hempty (Nat.ne_of_gt hpos), hrest⟩
  · obtain ⟨i, hdecode⟩ := h.second.decode_zero hpos
    obtain ⟨l', m, touched, -, htouched, hrest⟩ := hmirrors.run_finished hsound hsecond rfl rfl
      hdecode (h.parts.plain i hdecode) hrun'
    exact ⟨l', m, touched, fun _ => htouched, hrest⟩

/-- How the unit ends, said by how its parts end. -/
inductive EndsAs (h : SoundParts s unit unit₁ unit₂ c c₁) (n : Nat) : Run → Prop
  | first {a m : Machine} {stop : Stop RuntimeError}
      (stops : (s.machine unit₁).run n = .stopped stop a) : EndsAs h n (.stopped stop m)
  | second {a b m : Machine} {stop : Stop RuntimeError}
      (finishes : (s.machine unit₁).run n = .finished a)
      (stops : ((s.after c₁ a).machine unit₂).run n = .stopped stop b) :
      EndsAs h n (.stopped stop m)
  | both {a b m : Machine} (finishes : (s.machine unit₁).run n = .finished a)
      (finishes' : ((s.after c₁ a).machine unit₂).run n = .finished b) (alike : h.EndsAlike a b m) :
      EndsAs h n (.finished m)

/-- When the unit has ended, so have its parts. -/
theorem endsAs (hends : ∀ m, (s.machine unit).run n ≠ .unfinished m) :
    h.EndsAs n ((s.machine unit).run n) := by
  have hsame {k : Nat} {r : Run} (hr : (s.machine unit).run k = r)
      (hended : ∀ m, r ≠ .unfinished m) :
      (s.machine unit).run n = r :=
    (Machine.run_eq_run hends (hr ▸ hended)).trans hr
  cases hfirst : (s.machine unit₁).run n with
  | unfinished a =>
      have halike := h.mirrors_first.run h.sound_whole h.sound_first n
      rw [hfirst] at halike
      obtain ⟨m, -, -, hm, -⟩ := halike
      exact absurd hm (hends m)
  | stopped stop a =>
      obtain ⟨m, hm⟩ := h.stops_of_first hfirst
      rw [hm]
      exact .first hfirst
  | finished a =>
      cases hsecond : ((s.after c₁ a).machine unit₂).run n with
      | unfinished b =>
          obtain ⟨k, j, hj, hsound, hmirrors⟩ := h.mirrors_second hfirst
          have halike := hmirrors.run hsound (h.sound_second hfirst) n
          rw [hsecond] at halike
          obtain ⟨m, -, -, hm, -⟩ := halike
          have hlater := (Machine.run_add hj n).trans hm
          rw [Machine.run_of_le hends (Nat.le_add_left n k)] at hlater
          exact absurd hlater (hends m)
      | stopped stop b =>
          obtain ⟨k, m, hm⟩ := h.stops_of_second hfirst hsecond
          rw [hsame hm (by simp)]
          exact .second hfirst hsecond
      | finished b =>
          obtain ⟨k, m, hm, halike⟩ := h.finishes_of_second hfirst hsecond
          rw [hsame hm (by simp)]
          exact .both hfirst hsecond halike

end

/-- The unit stops early where one of its parts does. -/
theorem stops_iff (stop : Stop RuntimeError) :
    (∃ n m, (s.machine unit).run n = .stopped stop m) ↔
      (∃ n a, (s.machine unit₁).run n = .stopped stop a) ∨
        ∃ n a, (s.machine unit₁).run n = .finished a ∧
          ∃ k b, ((s.after c₁ a).machine unit₂).run k = .stopped stop b := by
  constructor
  · rintro ⟨n, m, hm⟩
    have hends := h.endsAs (n := n) (by simp [hm])
    rw [hm] at hends
    cases hends with
    | first stops => exact .inl ⟨n, _, stops⟩
    | second finishes stops => exact .inr ⟨n, _, finishes, n, _, stops⟩
  · rintro (⟨n, a, ha⟩ | ⟨n, a, ha, k, b, hb⟩)
    · exact ⟨n, h.stops_of_first ha⟩
    · exact h.stops_of_second ha hb

end SoundParts

namespace SoundParts.EndsAlike

variable {s : Session} {unit unit₁ unit₂ : Bytecode} {c c₁ : Compiler}
  {h : SoundParts s unit unit₁ unit₂ c c₁} {a b m : Machine}

/-- After its parts, the session is as it is after the unit. -/
theorem after_eq (hends : h.EndsAlike a b m) : (s.after c₁ a).after c b = s.after c m := by
  obtain ⟨touched, hmirrors, -⟩ := hends.mirrors
  have hglobals : b.globals = m.globals := hmirrors.globals.trans m.globals.rename_id
  have hheap : b.heap = m.heap := hmirrors.heap.eq_of_id
  simp only [Session.after, Session.afterRun, hglobals, hheap]

theorem output_eq (hends : h.EndsAlike a b m) : m.output = a.output ++ b.output := by
  obtain ⟨touched, hmirrors, -⟩ := hends.mirrors
  exact hmirrors.output

/-- If the second part has any code, then it has used the slot of the value. -/
theorem lastTaken_eq (hends : h.EndsAlike a b m) (hpos : 0 < unit₂.code.size) :
    b.lastTaken = m.lastTaken := by
  obtain ⟨touched, hmirrors, htouched⟩ := hends.mirrors
  have hused : m.sp < touched := by
    rw [hends.sp]
    exact htouched hpos
  exact (hmirrors.lastTaken hused).trans (congrFun Value.rename_id m.lastTaken)

end SoundParts.EndsAlike

/-! ## The evaluation of the parts -/

namespace Session

/-- The unit compiles. -/
def Accepts (s : Session) (program : Program) : Prop :=
  ((Compiler.resume s.scope s.pool).compile program).1.isOk = true

instance (s : Session) (program : Program) : Decidable (s.Accepts program) :=
  inferInstanceAs (Decidable (_ = true))

theorem accepts_iff {s : Session} {program : Program} : s.Accepts program ↔
    ∃ unit c, (Compiler.resume s.scope s.pool).compile program = (.ok unit, c) := by
  unfold Accepts
  cases (Compiler.resume s.scope s.pool).compile program with
  | mk compiled c => cases compiled <;> simp [Except.isOk, Except.toBool]

/-- Units that declare no function are compiled in parts. -/
theorem Sound.exists_parts {s : Session} (hs : s.Sound) {p q : Program}
    (hp : p.DeclaresNoFunction) (hq : q.DeclaresNoFunction) (haccepts : s.Accepts (p ++ q)) :
    ∃ unit unit₁ unit₂ c c₁, SoundParts s unit unit₁ unit₂ c c₁ ∧
      (Compiler.resume s.scope s.pool).compile (p ++ q) = (.ok unit, c) ∧
      (Compiler.resume s.scope s.pool).compile p = (.ok unit₁, c₁) ∧
      (Compiler.resume c₁.chain.outermost c₁.pool).compile q = (.ok unit₂, c) ∧
      ∀ e, Stmt.expr e ∈ q → 0 < unit₂.code.size := by
  obtain ⟨unit, c, hcompile⟩ := accepts_iff.mp haccepts
  obtain ⟨unit₁, c₁, unit₂, hcompile₁, hcompile₂, hparts, hexpr⟩ :=
    Compiler.compile_append hs.scope hp hq hcompile
  have hfirst := hs.unit_of_compile hcompile₁
  have hs₁ : Session.Sound { s with scope := c₁.chain.outermost, pool := c₁.pool } :=
    ⟨hfirst.scope, hs.store.continues (hfirst.constants ▸ hfirst.continues)⟩
  have hsecond := hs₁.unit_of_compile hcompile₂
  exact ⟨unit, unit₁, unit₂, c, c₁,
    ⟨hs, hs.unit_of_compile hcompile, hfirst, hsecond, hparts⟩,
    hcompile, hcompile₁, hcompile₂, hexpr⟩

/-- A unit that declares no function may be split into two.  In whatever state a session is, if the
unit compiles, then so do the first part and, after it, the second one.  The unit stops early
exactly when one of the parts does, for the same reason, and has a value exactly when both have one.
Then the parts print what the unit prints and leave the session as it leaves it; and if the second
part ends in an expression, they give the same value. -/
theorem eval_append (limits : Limits) (history : List (Nat × Program)) {p q : Program}
    (hp : p.DeclaresNoFunction) (hq : q.DeclaresNoFunction) :
    let s := (Session.new limits).evalAll history
    s.Accepts (p ++ q) →
      s.Accepts p ∧ (∀ steps, (s.eval steps p).2.2.Accepts q) ∧
      (∀ stop, s.Fails (p ++ q) stop ↔
        s.Fails p stop ∨ ∃ v out s₁, s.Yields p v out s₁ ∧ s₁.Fails q stop) ∧
      (∀ v₁ out₁ s₁ v₂ out₂ s₂, s.Yields p v₁ out₁ s₁ → s₁.Yields q v₂ out₂ s₂ →
        ∃ v out s', s.Yields (p ++ q) v out s') ∧
      ∀ v out s', s.Yields (p ++ q) v out s' → ∃ v₁ out₁ s₁ v₂ out₂,
        s.Yields p v₁ out₁ s₁ ∧ s₁.Yields q v₂ out₂ s' ∧ out = out₁ ++ out₂ ∧
        ((∃ e, q.getLast? = some (.expr e)) → v₂ = v) := by
  intro s haccepts
  have hs : s.Sound := (sound_new limits).evalAll history
  clear_value s
  obtain ⟨unit, unit₁, unit₂, c, c₁, h, hcompile, hcompile₁, hcompile₂, hexpr⟩ :=
    hs.exists_parts hp hq haccepts
  have hafter (a : Machine) :
      (Compiler.resume (s.after c₁ a).scope (s.after c₁ a).pool).compile q = (.ok unit₂, c) :=
    hcompile₂
  refine ⟨accepts_iff.mpr ⟨unit₁, c₁, hcompile₁⟩, fun steps => ?_, ?_⟩
  · rcases eval_of_ok hcompile₁ steps with hs₁ | hs₁ <;>
      exact accepts_iff.mpr ⟨unit₂, c, hs₁ ▸ hcompile₂⟩
  cases hfits : s.limits.fitMachine with
  | false =>
      refine ⟨fun stop => ?_, fun v₁ out₁ s₁ v₂ out₂ s₂ hyields => ?_, fun v out s' hyields => ?_⟩
      · rw [fails_iff_of_not_fits hcompile hfits, fails_iff_of_not_fits hcompile₁ hfits]
        simp [not_yields_of_not_fits hcompile₁ hfits]
      · exact absurd hyields (not_yields_of_not_fits hcompile₁ hfits)
      · exact absurd hyields (not_yields_of_not_fits hcompile hfits)
  | true =>
      refine ⟨fun stop => ?_, fun v₁ out₁ s₁ v₂ out₂ s₂ hfirst hsecond => ?_,
        fun v out s' hyields => ?_⟩
      · rw [fails_iff hcompile hfits, fails_iff hcompile₁ hfits, h.stops_iff]
        refine or_congr Iff.rfl ⟨?_, ?_⟩
        · rintro ⟨n, a, ha, hb⟩
          exact ⟨_, _, _, (yields_iff hcompile₁ hfits).mpr ⟨n, a, ha, rfl, rfl, rfl⟩,
            (fails_iff (hafter a) hfits).mpr hb⟩
        · rintro ⟨v, out, s₁, hyields, hfails⟩
          obtain ⟨n, a, ha, rfl, rfl, rfl⟩ := (yields_iff hcompile₁ hfits).mp hyields
          exact ⟨n, a, ha, (fails_iff (hafter a) hfits).mp hfails⟩
      · obtain ⟨n, a, ha, rfl, rfl, rfl⟩ := (yields_iff hcompile₁ hfits).mp hfirst
        obtain ⟨k, b, hb, -⟩ := (yields_iff (hafter a) hfits).mp hsecond
        obtain ⟨steps, m, hm, -⟩ := h.finishes_of_second ha hb
        exact ⟨_, _, _, (yields_iff hcompile hfits).mpr ⟨steps, m, hm, rfl, rfl, rfl⟩⟩
      · obtain ⟨n, m, hm, rfl, rfl, rfl⟩ := (yields_iff hcompile hfits).mp hyields
        have hends := h.endsAs (n := n) (by simp [hm])
        rw [hm] at hends
        cases hends with
        | @both a b _ finishes finishes' alike =>
            have hfirst := (yields_iff hcompile₁ hfits).mpr ⟨n, a, finishes, rfl, rfl, rfl⟩
            have hsecond :=
              (yields_iff (hafter a) hfits).mpr ⟨n, b, finishes', rfl, rfl, alike.after_eq.symm⟩
            refine ⟨_, _, _, _, _, hfirst, hsecond, alike.output_eq, ?_⟩
            rintro ⟨e, he⟩
            exact alike.lastTaken_eq (hexpr e (List.mem_of_getLast? he))

/-- A counter is declared. -/
def counterHistory : List (Nat × Program) :=
  [(9, [.declare "n" true none (some (.int 3))])]

/-- Binds a closure that a loop calls. -/
def countdown : Program :=
  [.declare "less" true none
      (some (.function none ⟨[("x", .int)], none⟩
        [.ret (some (.binary .subtract (.ident "x") (.int 1)))])),
    .loop (.binary .less (.int 1) (.ident "n"))
      [.expr (.call (.ident "puts") [.str "tick"] none),
        .assign "n" (.call (.ident "less") [.ident "n"] none)]]

/-- Makes another closure, in a branch that is taken after the countdown. -/
def closureInBranch : Program :=
  [.expr (.call (.ident "puts") [.str "end"] none),
    .expr (.cond (.binary .equal (.ident "n") (.int 1))
      [.expr (.function none ⟨[], none⟩ [.ret (some (.ident "n"))])] none)]

theorem eval_append_countdown :
    let s := (Session.new ⟨16, 4, 4⟩).evalAll counterHistory
    s.Accepts (countdown ++ closureInBranch) ∧ ∃ s' v₁ out₁ s₁ out₂,
      s.Yields (countdown ++ closureInBranch) (.closure 1) "tick\ntick\nend\n" s' ∧
      s.Yields countdown v₁ out₁ s₁ ∧ s₁.Yields closureInBranch (.closure 1) out₂ s' ∧
      "tick\ntick\nend\n" = out₁ ++ out₂ := by
  intro s
  have haccepts : s.Accepts (countdown ++ closureInBranch) := by
    subst s
    decide +kernel
  have hresult : (s.eval 99 (countdown ++ closureInBranch)).1 = .value (.closure 1) ∧
      (s.eval 99 (countdown ++ closureInBranch)).2.1 = "tick\ntick\nend\n" := by
    subst s
    decide +kernel
  have hyields : s.Yields (countdown ++ closureInBranch) (.closure 1) "tick\ntick\nend\n" _ :=
    ⟨99, Prod.ext hresult.1 (Prod.ext hresult.2 rfl)⟩
  obtain ⟨-, -, -, -, hsplit⟩ := eval_append ⟨16, 4, 4⟩ counterHistory
    (by simp [Program.DeclaresNoFunction, countdown])
    (by simp [Program.DeclaresNoFunction, closureInBranch]) haccepts
  obtain ⟨v₁, out₁, s₁, v₂, out₂, hfirst, hsecond, hout, hvalue⟩ := hsplit _ _ _ hyields
  rw [hvalue ⟨_, rfl⟩] at hsecond
  exact ⟨haccepts, _, v₁, out₁, s₁, out₂, hyields, hfirst, hsecond, hout⟩

end Session

end ScriptEngine
