import Mathlib.Data.List.Nodup
import ScriptEngine.Compile.Program
import ScriptEngine.Proofs.Assembly

/-!
# The streams of a unit

A compiled unit consists of streams of instructions: one for its top level and one for each function
among its constants.  Reading a code from its beginning gives back the instructions that were
written, and a run of structured code comes to these instructions only.
-/

namespace ScriptEngine

/-! ## Reading a code -/

namespace Code

/-- The instructions from an offset on.  Where none can be read, the next byte is tried. -/
def instructionsFrom (c : Code) (offset : Nat) : List Instruction :=
  if offset < c.size then
    match c.decode offset with
    | .ok i => i :: c.instructionsFrom (offset + i.width)
    | .error _ => c.instructionsFrom (offset + 1)
  else
    []
termination_by c.size - offset
decreasing_by
  · have hwidth := i.opcode.width_pos
    simp only [Instruction.width]
    omega
  · omega

def instructions (c : Code) : List Instruction :=
  c.instructionsFrom 0

theorem instructionsFrom_eq {c : Code} {offset : Nat} {is : List Instruction}
    (h : c.Contains offset is) (hsize : c.size = offset + totalWidth is) :
    c.instructionsFrom offset = is := by
  induction is generalizing offset with
  | nil =>
      rw [instructionsFrom, if_neg]
      simp only [totalWidth_nil] at hsize
      omega
  | cons i is ih =>
      have hwidth := i.opcode.width_pos
      rw [totalWidth_cons] at hsize
      have hlt : offset < c.size := by
        rw [Instruction.width] at hsize
        omega
      rw [instructionsFrom, if_pos hlt, h.decode]
      exact congrArg (i :: ·) (ih h.tail (by omega))

/-- The instructions of a code are those that were written. -/
theorem instructions_of_adds {c : Code} {is : List Instruction} (h : Code.Adds .empty is c) :
    c.instructions = is :=
  instructionsFrom_eq h.contains h.size

/-! ## Where runs can come -/

/-- The code is that of structured code which leaves the stack in order. -/
def IsLaidOut (c : Code) : Prop :=
  ∃ (allowed : Instruction → Prop) (t : Assembly) (height : Nat),
    c.Contains 0 (t.instrs 0) ∧ c.size = t.size ∧ t.Balanced allowed 0 height

/-- The code is laid out and ends with a return, as the body of a function does. -/
def IsBody (c : Code) : Prop :=
  ∃ (allowed : Instruction → Prop) (t : Assembly) (last : Instruction) (height : Nat),
    c.Contains 0 ((t ++ .single last).instrs 0) ∧ c.size = (t ++ .single last).size ∧
      (t ++ .single last).Balanced allowed 0 height ∧
      (last.opcode = .returnValue ∨ last.opcode = .returnNull)

theorem IsBody.isLaidOut {c : Code} (h : c.IsBody) : c.IsLaidOut := by
  obtain ⟨allowed, t, last, height, hcontains, hsize, hbalanced, -⟩ := h
  exact ⟨allowed, _, height, hcontains, hsize, hbalanced⟩

/-- The offsets to which a run from the beginning can come. -/
inductive Reaches (c : Code) : Nat → Prop
  | start : Reaches c 0
  | next {offset target : Nat} {i : Instruction} (earlier : Reaches c offset)
      (here : c.decode offset = .ok i) (onward : i.Next offset target) : Reaches c target

theorem not_decode_size {c : Code} {i : Instruction} : c.decode c.size ≠ .ok i := by
  have hend : c.bytes[c.size]? = none := Array.getElem?_eq_none (Nat.le_refl _)
  simp [decode, hend]

/-- A run of code that is laid out comes to its instructions only. -/
theorem IsLaidOut.mem_instructions {c : Code} {offset : Nat} {i : Instruction} (h : c.IsLaidOut)
    (ho : c.Reaches offset) (hi : c.decode offset = .ok i) (hjump : i.opcode.isJump = false) :
    i ∈ c.instructions := by
  obtain ⟨allowed, t, height, hcontains, hsize, hbalanced⟩ := h
  have hinstructions : c.instructions = t.instrs 0 := by
    refine instructionsFrom_eq hcontains ?_
    rw [Assembly.totalWidth_instrs, hsize, Nat.zero_add]
  -- to be an instruction of the code is demanded of every instruction that a run finds
  have hmember := hbalanced.of_forall_mem (fun i (hi : i ∈ t.instrs 0) => hi)
  obtain ⟨within, F⟩ := Assembly.flow_of_balanced hmember hcontains
  rw [Nat.zero_add, ← hsize] at F
  have hwithin : (∃ m, within offset m) ∨ offset = c.size := by
    clear hi hjump
    induction ho with
    | start => exact F.enter.imp (fun hin => ⟨0, hin⟩) And.left
    | next _ here onward ih =>
        rcases ih with ⟨m, hm⟩ | rfl
        · obtain ⟨j, hj, -, -, hnext⟩ := F.step _ m hm
          rw [here] at hj
          cases hj
          exact (hnext _ onward).imp (fun hin => ⟨_, hin⟩) And.left
        · exact absurd here not_decode_size
  rcases hwithin with ⟨m, hm⟩ | rfl
  · obtain ⟨j, hj, hallowed, -⟩ := F.step _ m hm
    rw [hi] at hj
    cases hj
    rw [hinstructions]
    exact hallowed hjump
  · exact absurd hi not_decode_size

end Code

/-! ## Functions among constants -/

def Value.function? : Value → Option Function
  | function f => some f.content
  | _ => none

theorem Value.function?_eq_some {v : Value} {f : Function} :
    v.function? = some f ↔ ∃ mark, v = .function ⟨mark, f⟩ := by
  cases v with
  | function g =>
      obtain ⟨mark, content⟩ := g
      simp [function?]
  | _ => simp [function?]

theorem Value.function?_eq_none {v : Value} (h : ∀ f, v ≠ .function f) : v.function? = none := by
  cases v with
  | function f => exact absurd rfl (h f)
  | _ => rfl

/-- The functions among the constants from an index on, with their indices. -/
def functionsFrom (start : Nat) (pool : Array Value) : List (Nat × Function) :=
  (List.range' start (pool.size - start)).filterMap fun k =>
    (pool[k]?.bind Value.function?).map fun f => (k, f)

theorem mem_functionsFrom {start k : Nat} {pool : Array Value} {f : Function} :
    (k, f) ∈ functionsFrom start pool ↔
      start ≤ k ∧ ∃ mark, pool[k]? = some (.function ⟨mark, f⟩) := by
  simp only [functionsFrom, List.mem_filterMap, List.mem_range'_1, Option.map_eq_some_iff,
    Option.bind_eq_some_iff, Prod.mk.injEq, Value.function?_eq_some]
  constructor
  · rintro ⟨_, ⟨hstart, -⟩, g, ⟨_, hv, mark, rfl⟩, rfl, rfl⟩
    exact ⟨hstart, mark, hv⟩
  · rintro ⟨hstart, mark, hk⟩
    have hsize := (Array.getElem?_eq_some_iff.mp hk).1
    exact ⟨k, ⟨hstart, by omega⟩, f, ⟨_, hk, mark, rfl⟩, rfl, rfl⟩

theorem functionsFrom_push {start : Nat} {pool : Array Value} (h : start ≤ pool.size) (v : Value) :
    functionsFrom start (pool.push v) =
      functionsFrom start pool ++ (v.function?.map fun f => (pool.size, f)).toList := by
  have hsize : (pool.push v).size - start = pool.size - start + 1 := by
    rw [Array.size_push]
    omega
  have hlast : start + (pool.size - start) = pool.size := by omega
  rw [functionsFrom, hsize, List.range'_concat, Nat.one_mul, hlast, List.filterMap_append]
  congr 1
  · refine List.filterMap_congr fun k hk => ?_
    rw [List.mem_range'_1] at hk
    rw [Array.getElem?_push, if_neg (by omega)]
  · cases hv : v.function? <;> simp [hv]

theorem functionsFrom_push_of_none {start : Nat} {pool : Array Value} {v : Value}
    (h : start ≤ pool.size) (hv : v.function? = none) :
    functionsFrom start (pool.push v) = functionsFrom start pool := by
  rw [functionsFrom_push h, hv]
  exact List.append_nil _

theorem nodup_functionsFrom (start : Nat) (pool : Array Value) :
    ((functionsFrom start pool).map Prod.fst).Nodup := by
  rw [functionsFrom, List.map_filterMap]
  refine List.Nodup.filterMap ?_ List.nodup_range'
  intro k k' j hk hk'
  simp only [Option.map_map, Option.mem_def, Option.map_eq_some_iff, Function.comp_apply] at hk hk'
  obtain ⟨-, -, rfl⟩ := hk
  obtain ⟨-, -, hk'⟩ := hk'
  exact hk'.symm

/-! ## Streams -/

/-- The instructions of the top level or of one function. -/
structure Stream where
  /-- The constant that is the function. -/
  constant : Option Nat
  instructions : List Instruction

def Stream.ofFunction (e : Nat × Function) : Stream :=
  { constant := some e.1, instructions := e.2.code.instructions }

/-- The streams of the top level and of the functions among the constants from an index on. -/
def Bytecode.streams (unit : Bytecode) (start : Nat) : List Stream :=
  { constant := none, instructions := unit.code.instructions } ::
    (functionsFrom start unit.constants).map .ofFunction

end ScriptEngine
