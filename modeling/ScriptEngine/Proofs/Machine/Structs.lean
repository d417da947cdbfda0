import ScriptEngine.Proofs.Machine.Conduct

/-!
# The struct values that runs make

A run makes struct values only by struct instructions that it comes to.  Hence if the code of every
function builds only allowed struct values, then so does every run (`Heap.structsFit_keptBy`).
-/

namespace ScriptEngine

/-- If the instruction builds a struct value, then the type and the number of values are allowed
together. -/
def Instruction.Fits (built : StructType → Nat → Prop) (pool : Array Value) (i : Instruction) :
    Prop :=
  i.opcode = .struct →
    ∃ t, pool[i.operand 0]? = some (.structType t) ∧ built t.content (i.operand 1)

theorem Instruction.Fits.continues {built : StructType → Nat → Prop} {pool pool' : Array Value}
    {i : Instruction} (h : i.Fits built pool) (hpool : Continues pool pool') :
    i.Fits built pool' := by
  intro hop
  obtain ⟨t, ht, hallowed⟩ := h hop
  exact ⟨t, hpool _ _ ht, hallowed⟩

theorem Instruction.fits_of_isJump {built : StructType → Nat → Prop} {pool : Array Value}
    {i : Instruction} (h : i.opcode.isJump = true) : i.Fits built pool := by
  intro hop
  rw [hop] at h
  cases h

/-- All struct values are allowed. -/
def Heap.StructsFit (built : StructType → Nat → Prop) (heap : Heap) : Prop :=
  ∀ o ∈ heap.structs, built o.type o.fields.size

/-- Instructions that build only allowed struct values. -/
theorem Heap.structsFit_keptBy (built : StructType → Nat → Prop) (pool : Array Value) :
    KeptBy (Instruction.Fits built pool) pool fun _ heap => heap.StructsFit built := by
  rintro w i args globals heap rfl hi hlength h hstructs
  cases h with
  | same | setGlobal | newArray | newHash | newClosure => exact hstructs
  | write place v => cases place <;> exact hstructs
  | setField a k v =>
      exact Array.forall_mem_modify (k := a)
        (f := fun o => { o with fields := o.fields.setIfInBounds k v }) hstructs
        fun o ho => by rwa [Array.size_setIfInBounds]
  | @newStruct t hop constant =>
      obtain ⟨t', ht', hallowed⟩ := hi hop
      obtain rfl : t = t' := by simpa [constant] using ht'
      have hcount : args.toArray.size = i.operand 1 := by
        rw [List.size_toArray, hlength, Instruction.taken, hop]
      exact Array.forall_mem_push hstructs (hcount ▸ hallowed)

end ScriptEngine
