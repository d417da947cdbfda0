import ScriptEngine.Proofs.Compile.Structs
import ScriptEngine.Proofs.Machine.Structs
import ScriptEngine.Proofs.Session.Conduct

/-!
# The struct values of sessions

The type of a struct value is looked up by name when the code is compiled, and the number of its
fields is that of the type that was to be built.  The two need not go together: a type that is
carried by an annotation may be built while another one is known by its name.  In every session,
each struct value stems from a struct literal or a zero value of some unit, has the type that was
known there, and has as many fields as the type that was built there (`Session.structs_areBuilt`).
-/

namespace ScriptEngine

/-- If the struct values of all regions are allowed, then all functions of the unit build allowed
ones only. -/
theorem Bytecode.Realizes.fits {unit : Bytecode} {start : Nat} {regions : List Region}
    {built : StructType → Nat → Prop} (h : unit.Realizes start regions)
    (hbuilt : ∀ b ∈ regions.flatMap Region.builds, built b.known b.type.fields.length) :
    unit.code.Obeys (Instruction.Fits built unit.constants) ∧
      ∀ e ∈ functionsFrom start unit.constants,
        e.2.code.Obeys (Instruction.Fits built unit.constants) := by
  have hstream (s : Stream) (hs : s ∈ unit.streams start) :
      ∀ i ∈ s.instructions, i.Fits built unit.constants := by
    intro i hi hop
    obtain ⟨r, hr, hbuilds⟩ := exists_mem_of_forall₂ h.builds hs
    obtain ⟨b, hb, ⟨mark, hmark⟩, hcount⟩ := hbuilds.exists_mem hi hop
    refine ⟨⟨mark, b.known⟩, hmark, ?_⟩
    rw [hcount]
    exact hbuilt b (List.mem_flatMap.mpr ⟨r, hr, hb⟩)
  constructor
  · exact h.main.obeys (fun _ => Instruction.fits_of_isJump) (hstream _ List.mem_cons_self)
  · intro e he
    exact (h.functions e he).obeys (fun _ => Instruction.fits_of_isJump)
      (hstream (.ofFunction e) (List.mem_cons_of_mem _ (List.mem_map_of_mem he)))

namespace Session

/-- The struct values that a unit builds, if it is accepted. -/
def unitBuilds (s : Session) (program : Program) : List Build :=
  match ((Compiler.resume s.scope s.pool).compile program).1 with
  | .ok _ => (program.regions (.ofPool s.pool)).flatMap Region.builds
  | .error _ => []

/-- The struct values that units build which are evaluated one after another. -/
def builds (s : Session) : List (Nat × Program) → List Build
  | [] => []
  | (steps, program) :: rest =>
      s.unitBuilds program ++ (s.eval steps program).2.2.builds rest

/-- All struct values are allowed, and the functions among the constants build only allowed
ones. -/
structure StoreFits (built : StructType → Nat → Prop) (pool : Array Value) (heap : Heap) :
    Prop where
  functions : ∀ f, Value.function f ∈ pool → f.content.code.Obeys (Instruction.Fits built pool)
  structs : heap.StructsFit built

/-- The session is orderly, and all struct values are allowed. -/
structure Fits (built : StructType → Nat → Prop) (s : Session) : Prop where
  orderly : s.Orderly
  store : StoreFits built s.pool s.heap

theorem fits_new (built : StructType → Nat → Prop) (limits : Limits) :
    (Session.new limits).Fits built := by
  refine ⟨orderly_new limits, ?_, ?_⟩
  · simp [Session.new]
  · simp [Session.new, Heap.StructsFit, Heap.empty]

namespace Fits

variable {built : StructType → Nat → Prop} {s : Session} {program : Program}

/-- What a session compiles builds the struct values of the program, and is sound. -/
theorem realizes (hs : s.Fits built) {unit : Bytecode} {c : Compiler}
    (hcompile : (Compiler.resume s.scope s.pool).compile program = (.ok unit, c)) :
    unit.Realizes s.pool.size (program.regions (.ofPool s.pool)) ∧ SoundUnit s.pool unit c := by
  obtain ⟨t, E', hunit, -⟩ := Compiler.compilesUnit_of_compile hcompile
  exact ⟨hunit.realizes hs.orderly.attends (Compiler.registers_resume _ _),
    hs.orderly.sound.unit_of_compile hcompile⟩

/-- A unit that builds allowed struct values. -/
theorem eval (hs : s.Fits built) (steps : Nat)
    (hbuilt : ∀ b ∈ s.unitBuilds program, built b.known b.type.fields.length) :
    (s.eval steps program).2.2.Fits built := by
  have horderly := hs.orderly.eval steps program
  cases hcompile : (Compiler.resume s.scope s.pool).compile program with
  | mk compiled c =>
      cases compiled with
      | error stop =>
          rw [eval_of_error hcompile]
          exact hs
      | ok unit =>
          obtain ⟨hrealizes, hunit⟩ := hs.realizes hcompile
          simp only [unitBuilds, hcompile] at hbuilt
          obtain ⟨hmain, hnew⟩ := hrealizes.fits hbuilt
          have hold (f : Marked Function) (hf : Value.function f ∈ s.pool) :
              f.content.code.Obeys (Instruction.Fits built unit.constants) :=
            (hs.store.functions f hf).imp fun _ hi => hi.continues hunit.continues
          have hrun := hs.orderly.run_keeps hcompile hold hnew hmain
            (Heap.structsFit_keptBy built unit.constants) hs.store.structs steps
          have hfunctions (f : Marked Function) (hf : Value.function f ∈ c.pool) :
              f.content.code.Obeys (Instruction.Fits built c.pool) := by
            rw [hunit.constants] at hf ⊢
            rcases mem_or_mem_functionsFrom hunit.continues hf with hf | ⟨k, hk⟩
            · exact hold f hf
            · exact hnew (k, f.content) hk
          rcases eval_of_ok hcompile steps with heval | heval
          · rw [heval] at horderly ⊢
            exact ⟨horderly, hfunctions, hrun.2⟩
          · rw [heval] at horderly ⊢
            exact ⟨horderly, hfunctions, hs.store.structs⟩

/-- Units that build allowed struct values. -/
theorem evalAll (hs : s.Fits built) {history : List (Nat × Program)}
    (hbuilt : ∀ b ∈ s.builds history, built b.known b.type.fields.length) :
    (s.evalAll history).Fits built := by
  induction history generalizing s with
  | nil => exact hs
  | cons u history ih =>
      obtain ⟨steps, program⟩ := u
      rw [builds, List.forall_mem_append] at hbuilt
      exact ih (hs.eval steps hbuilt.1) hbuilt.2

end Fits

/-- Whatever units a session has evaluated, the struct instructions of the next one are, stream by
stream and in order, those of the struct values that its program builds: each has the constant of
the type that is known by the name and the number of fields of the type that is built.  Every struct
value of the session stems from such a place of some unit.  Hence, where only types are built that
are themselves known by their names, every struct value has as many fields as its type. -/
theorem structs_areBuilt (limits : Limits) (history : List (Nat × Program)) :
    let s := (Session.new limits).evalAll history
    let builds := (Session.new limits).builds history
    (∀ program unit c, (Compiler.resume s.scope s.pool).compile program = (.ok unit, c) →
      List.Forall₂ (fun stream region => List.Forall₂ (Instruction.Builds unit.constants)
          (stream.instructions.filter fun i => i.opcode = .struct) region.builds)
        (unit.streams s.pool.size) (program.regions (.ofPool s.pool))) ∧
      (∀ o ∈ s.heap.structs, ∃ b ∈ builds, o.type = b.known ∧
        o.fields.size = b.type.fields.length) ∧
      ((∀ b ∈ builds, b.known = b.type) →
        ∀ o ∈ s.heap.structs, o.fields.size = o.type.fields.length) := by
  intro s builds
  let built (type : StructType) (count : Nat) : Prop :=
    ∃ b ∈ builds, type = b.known ∧ count = b.type.fields.length
  have hs : s.Fits built := (fits_new built limits).evalAll fun b hb => ⟨b, hb, rfl, rfl⟩
  refine ⟨?_, hs.store.structs, ?_⟩
  · intro program unit c hcompile
    exact (hs.realizes hcompile).1.builds
  · intro hexact o ho
    obtain ⟨b, hb, htype, hsize⟩ := hs.store.structs o ho
    rw [htype, hexact b hb, hsize]

/-- A struct type is declared, and later units build it by a literal and as a zero value. -/
def oneTypeHistory : List (Nat × Program) :=
  [(9, [.structType ⟨"P", [("x", .int), ("y", .int)]⟩]),
    (9, [.declare "p" true none (some (.struct "P" [("y", .int 2)]))]),
    (9, [.declare "q" true (some (.struct "P" [("x", .int), ("y", .int)])) none])]

theorem structs_areBuilt_oneTypeHistory :
    let s := (Session.new ⟨8, 2, 4⟩).evalAll oneTypeHistory
    s.heap.structs.size = 2 ∧ ∀ o ∈ s.heap.structs, o.fields.size = o.type.fields.length := by
  constructor
  · decide +kernel
  · have hexact : ∀ b ∈ (Session.new ⟨8, 2, 4⟩).builds oneTypeHistory, b.known = b.type := by
      decide +kernel
    exact (structs_areBuilt ⟨8, 2, 4⟩ oneTypeHistory).2.2 hexact

/-- A struct type is declared, and the next unit declares a variable of another type that has the
same name and one more field. -/
def sameNameHistory : List (Nat × Program) :=
  [(9, [.structType ⟨"P", [("x", .int)]⟩]),
    (9, [.declare "p" true (some (.struct "P" [("x", .int), ("y", .int)])) none])]

/-- Not every struct value has as many fields as its type, and not every struct instruction refers
to the type that is built. -/
theorem sameNameHistory_mismatch :
    let s := (Session.new ⟨8, 2, 4⟩).evalAll (sameNameHistory.take 1)
    let s' := (Session.new ⟨8, 2, 4⟩).evalAll sameNameHistory
    (sameNameHistory[1]?.bind fun u => ((Compiler.resume s.scope s.pool).compile u.2).1.toOption.map
        fun unit => (unit.constants, unit.code.instructions)) =
        some (#[.structType ⟨0, ⟨"P", [("x", .int)]⟩⟩, .int 0, .int 0],
          [⟨.constant, [1]⟩, ⟨.constant, [2]⟩, ⟨.struct, [0, 2]⟩, ⟨.setGlobal, [0]⟩]) ∧
      s'.heap.structs = #[⟨⟨"P", [("x", .int)]⟩, #[.int 0, .int 0]⟩] := by
  decide +kernel

end Session

end ScriptEngine
