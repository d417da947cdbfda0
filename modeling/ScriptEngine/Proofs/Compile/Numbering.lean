import Mathlib.Logic.Equiv.Basic
import ScriptEngine.Proofs.Compile.Acceptance
import ScriptEngine.Proofs.Compile.Relocation

/-!
# Other numbers for globals and constants

Code refers to global slots and to constants by numbers.  A `Numbering` gives other numbers to both,
and whatever holds code can be renumbered: instructions, structured code, written code and the
functions among the constants.  Renumbering changes neither the widths of instructions nor the
targets of jumps, so that a run of renumbered code finds the renumbered instructions at the same
offsets (`Code.IsLaidOut.decode_renumber`).
-/

namespace ScriptEngine

/-- Other numbers for the slots of the global store and for constants. -/
structure Numbering where
  slots : Equiv.Perm Nat
  constants : Equiv.Perm Nat

namespace Numbering

def refl : Numbering :=
  ⟨.refl Nat, .refl Nat⟩

def trans (ν μ : Numbering) : Numbering :=
  ⟨ν.slots.trans μ.slots, ν.constants.trans μ.constants⟩

/-- What becomes of the first operand of an instruction. -/
def operand (ν : Numbering) : Opcode → Nat → Nat
  | .constant | .closure | .struct => ν.constants
  | .getGlobal | .getConstGlobal | .setGlobal | .setConstGlobal => ν.slots
  | _ => id

/-- Numbers that fit in two bytes do so afterwards. -/
structure IsNarrow (ν : Numbering) : Prop where
  slots : ∀ k < 65536, ν.slots k < 65536
  constants : ∀ k < 65536, ν.constants k < 65536

theorem IsNarrow.refl : Numbering.refl.IsNarrow :=
  ⟨fun _ hk => hk, fun _ hk => hk⟩

theorem IsNarrow.trans {ν μ : Numbering} (hν : ν.IsNarrow) (hμ : μ.IsNarrow) :
    (ν.trans μ).IsNarrow :=
  ⟨fun k hk => hμ.slots _ (hν.slots k hk), fun k hk => hμ.constants _ (hν.constants k hk)⟩

end Numbering

variable {ν μ : Numbering}

/-! ## Instructions -/

namespace Instruction

/-- The instruction with another number for the global slot or the constant that it refers to. -/
def renumber (ν : Numbering) (i : Instruction) : Instruction :=
  { i with operands := i.operands.modifyHead (ν.operand i.opcode) }

@[simp] theorem opcode_renumber (i : Instruction) : (i.renumber ν).opcode = i.opcode :=
  rfl

@[simp] theorem width_renumber (i : Instruction) : (i.renumber ν).width = i.width :=
  rfl

@[simp] theorem renumber_cons (op : Opcode) (n : Nat) (ns : List Nat) :
    (⟨op, n :: ns⟩ : Instruction).renumber ν = ⟨op, ν.operand op n :: ns⟩ :=
  rfl

@[simp] theorem renumber_nil (op : Opcode) : (⟨op, []⟩ : Instruction).renumber ν = ⟨op, []⟩ :=
  rfl

theorem renumber_eq_self {i : Instruction} (h : ν.operand i.opcode = id) : i.renumber ν = i := by
  obtain ⟨op, _ | ⟨n, ns⟩⟩ := i
  · rfl
  · rw [renumber_cons, h]
    rfl

theorem renumber_refl (i : Instruction) : i.renumber .refl = i := by
  refine renumber_eq_self ?_
  obtain ⟨op, ns⟩ := i
  cases op <;> rfl

theorem renumber_renumber (i : Instruction) :
    (i.renumber ν).renumber μ = i.renumber (ν.trans μ) := by
  obtain ⟨op, _ | ⟨n, ns⟩⟩ := i
  · rfl
  · cases op <;> rfl

/-- Only an instruction without numbers to change becomes one. -/
theorem eq_of_renumber_eq {i j : Instruction} (h : j.renumber ν = i)
    (hplain : ν.operand i.opcode = id) : j = i := by
  subst h
  exact (renumber_eq_self (i := j) hplain).symm

theorem operand_one_renumber (i : Instruction) : (i.renumber ν).operand 1 = i.operand 1 := by
  obtain ⟨op, _ | ⟨n, _ | ⟨k, ns⟩⟩⟩ := i <;> rfl

@[simp] theorem taken_renumber (i : Instruction) : (i.renumber ν).taken = i.taken := by
  by_cases hplain : ν.operand i.opcode = id
  · rw [renumber_eq_self hplain]
  · have hcount := i.operand_one_renumber (ν := ν)
    obtain ⟨op, ns⟩ := i
    cases op with
    | closure | struct => exact hcount
    | array | hash | call => exact absurd rfl hplain
    | _ => rfl

/-- The number that an instruction refers to, if it has an operand for it. -/
theorem operand_zero_renumber {i : Instruction} (h : i.operands ≠ []) :
    (i.renumber ν).operand 0 = ν.operand i.opcode (i.operand 0) := by
  obtain ⟨op, _ | ⟨n, ns⟩⟩ := i
  · exact absurd rfl h
  · rfl

theorem FitsFormat.renumber {i : Instruction} (h : i.FitsFormat) (hν : ν.IsNarrow) :
    (i.renumber ν).FitsFormat := by
  by_cases hplain : ν.operand i.opcode = id
  · rwa [renumber_eq_self hplain]
  · obtain ⟨op, ns⟩ := i
    obtain ⟨hlength, hfits⟩ := h
    cases ns with
    | nil => exact ⟨hlength, hfits⟩
    | cons n ns =>
        refine ⟨hlength, ?_⟩
        cases op with
        | constant | closure | struct =>
            simp only [renumber_cons, Opcode.operandWidths, List.zip_cons_cons, Width.bytes,
              List.forall_mem_cons] at hfits ⊢
            exact ⟨hν.constants n hfits.1, hfits.2⟩
        | getGlobal | getConstGlobal | setGlobal | setConstGlobal =>
            simp only [renumber_cons, Opcode.operandWidths, List.zip_cons_cons, Width.bytes,
              List.forall_mem_cons] at hfits ⊢
            exact ⟨hν.slots n hfits.1, hfits.2⟩
        | _ => exact absurd rfl hplain

end Instruction

theorem totalWidth_map {f : Instruction → Instruction} (hf : ∀ i, (f i).width = i.width)
    (is : List Instruction) : totalWidth (is.map f) = totalWidth is := by
  induction is with
  | nil => rfl
  | cons i is ih => rw [List.map_cons, totalWidth_cons, totalWidth_cons, ih, hf]

/-! ## Structured code -/

namespace Assembly

/-- The code with other numbers for global slots and constants. -/
def renumber (ν : Numbering) : Assembly → Assembly
  | done => done
  | op i rest => op (i.renumber ν) (rest.renumber ν)
  | choice test yes no rest =>
      choice (test.renumber ν) (yes.renumber ν) (no.renumber ν) (rest.renumber ν)
  | loop test body rest => loop (test.renumber ν) (body.renumber ν) (rest.renumber ν)

@[simp] theorem renumber_done : done.renumber ν = done :=
  rfl

@[simp] theorem renumber_single (i : Instruction) :
    (single i).renumber ν = single (i.renumber ν) :=
  rfl

@[simp] theorem renumber_append (t u : Assembly) :
    (t ++ u).renumber ν = t.renumber ν ++ u.renumber ν := by
  induction t with
  | done => rfl
  | op i rest ih => simp [renumber, ih]
  | choice test yes no rest _ _ _ ih => simp [renumber, ih]
  | loop test body rest _ _ ih => simp [renumber, ih]

theorem renumber_refl (t : Assembly) : t.renumber .refl = t := by
  induction t with
  | done => rfl
  | op i rest ih => rw [renumber, ih, i.renumber_refl]
  | choice test yes no rest htest hyes hno hrest => rw [renumber, htest, hyes, hno, hrest]
  | loop test body rest htest hbody hrest => rw [renumber, htest, hbody, hrest]

theorem renumber_renumber (t : Assembly) :
    (t.renumber ν).renumber μ = t.renumber (ν.trans μ) := by
  induction t with
  | done => rfl
  | op i rest ih => simp only [renumber, ih, i.renumber_renumber]
  | choice test yes no rest htest hyes hno hrest => simp only [renumber, htest, hyes, hno, hrest]
  | loop test body rest htest hbody hrest => simp only [renumber, htest, hbody, hrest]

@[simp] theorem renumber_ofList (is : List Instruction) :
    (ofList is).renumber ν = ofList (is.map (·.renumber ν)) := by
  induction is with
  | nil => rfl
  | cons i is ih => simp only [ofList, renumber, List.map_cons, ih]

@[simp] theorem size_renumber (t : Assembly) : (t.renumber ν).size = t.size := by
  induction t with
  | done => rfl
  | op i rest ih => simp only [renumber, size, ih, i.width_renumber]
  | choice test yes no rest htest hyes hno hrest =>
      simp only [renumber, size, htest, hyes, hno, hrest]
  | loop test body rest htest hbody hrest => simp only [renumber, size, htest, hbody, hrest]

/-- The instructions of renumbered code are renumbered, and its jumps lead to the same places. -/
theorem instrs_renumber (t : Assembly) (p : Nat) :
    (t.renumber ν).instrs p = (t.instrs p).map (·.renumber ν) := by
  have hjump (n : Nat) : (⟨.jump, [n]⟩ : Instruction).renumber ν = ⟨.jump, [n]⟩ := rfl
  have hbranch (n : Nat) :
      (⟨.jumpNotTruthy, [n]⟩ : Instruction).renumber ν = ⟨.jumpNotTruthy, [n]⟩ := rfl
  induction t generalizing p with
  | done => rfl
  | op i rest ih => simp only [renumber, instrs, List.map_cons, ih, i.width_renumber]
  | choice test yes no rest htest hyes hno hrest =>
      simp only [renumber, instrs, htest, hyes, hno, hrest, size_renumber, List.map_append,
        List.map_cons, hjump, hbranch]
  | loop test body rest htest hbody hrest =>
      simp only [renumber, instrs, htest, hbody, hrest, size_renumber, List.map_append,
        List.map_cons, hjump, hbranch]

theorem Writable.renumber {t : Assembly} {p : Nat} (h : t.Writable p) (hν : ν.IsNarrow) :
    (t.renumber ν).Writable p := by
  unfold Writable at h ⊢
  rw [instrs_renumber, List.forall_mem_map]
  exact fun i hi => (h i hi).renumber hν

theorem last?_renumber (t : Assembly) :
    (t.renumber ν).last? = t.last?.map (·.renumber ν) := by
  induction t with
  | done => rfl
  | op i rest ih =>
      cases rest with
      | done => rfl
      | _ => exact ih
  | choice test yes no rest _ _ _ ih => exact ih
  | loop test body rest _ _ ih => exact ih

theorem last?_renumber_ne {t : Assembly} {i : Instruction} (h : t.last? ≠ some i)
    (hplain : ν.operand i.opcode = id) : (t.renumber ν).last? ≠ some i := by
  rw [last?_renumber]
  intro hlast
  obtain ⟨j, hj, hji⟩ := Option.map_eq_some_iff.mp hlast
  rw [Instruction.eq_of_renumber_eq hji hplain] at hj
  exact h hj

theorem LeavesValue.renumber {t u : Assembly} (h : t.LeavesValue u) :
    (t.renumber ν).LeavesValue (u.renumber ν) := by
  cases h with
  | value =>
      rw [renumber_append]
      exact .value _
  | null hlast =>
      rw [renumber_append]
      exact .null (last?_renumber_ne hlast rfl)

theorem Returns.renumber {t u : Assembly} (h : t.Returns u) :
    (t.renumber ν).Returns (u.renumber ν) := by
  cases h with
  | value =>
      rw [renumber_append, renumber_append]
      exact .value _
  | already =>
      rw [renumber_append]
      exact .already _
  | null hpop hreturn =>
      rw [renumber_append]
      exact .null (last?_renumber_ne hpop rfl) (last?_renumber_ne hreturn rfl)

end Assembly

/-! ## Written code -/

namespace Code

/-- The code with other numbers for global slots and constants.  What is no code of instructions, or
cannot be written with the other numbers, is left alone. -/
def renumber (ν : Numbering) (c : Code) : Code :=
  match c.decodeAll.bind fun is => Instruction.encodeAll (is.map (·.renumber ν)) with
  | .ok bytes => ⟨bytes.toArray⟩
  | .error _ => c

/-- Renumbered code holds the renumbered instructions. -/
theorem Adds.renumber {is : List Instruction} {c : Code} (h : Code.Adds .empty is c)
    (hν : ν.IsNarrow) : Code.Adds .empty (is.map (·.renumber ν)) (c.renumber ν) := by
  obtain ⟨bytes, hwritten, hbytes⟩ := h
  have hdecode : c.decodeAll = .ok is := by
    rw [decodeAll_eq_ok_iff, hbytes]
    exact hwritten
  have hfits : ∀ i ∈ is.map (·.renumber ν), i.FitsFormat :=
    List.forall_mem_map.mpr fun i hi => (hwritten.fitsFormat i hi).renumber hν
  obtain ⟨bytes', hwritten'⟩ := Instruction.exists_written hfits
  have hencode := Instruction.encodeAll_eq_ok_iff.mpr hwritten'
  refine ⟨bytes', hwritten', ?_⟩
  simp only [Code.renumber, hdecode, Except.bind, hencode]
  rfl

theorem renumber_renumber {is : List Instruction} {c : Code} (h : Code.Adds .empty is c)
    (hν : ν.IsNarrow) (hμ : μ.IsNarrow) : (c.renumber ν).renumber μ = c.renumber (ν.trans μ) := by
  have hfirst := (h.renumber hν).renumber hμ
  have hboth : (is.map (·.renumber ν)).map (·.renumber μ) = is.map (·.renumber (ν.trans μ)) := by
    simp only [List.map_map, Function.comp_def, Instruction.renumber_renumber]
  rw [hboth] at hfirst
  exact hfirst.unique (h.renumber (hν.trans hμ))

theorem renumber_refl {is : List Instruction} {c : Code} (h : Code.Adds .empty is c) :
    c.renumber .refl = c := by
  have hsame := h.renumber .refl
  simp only [Instruction.renumber_refl, List.map_id'] at hsame
  exact hsame.unique h

/-- A code with nothing but given instructions was written as them. -/
theorem adds_of_contains {is : List Instruction} {c : Code} (h : c.Contains 0 is)
    (hsize : c.size = totalWidth is) : Code.Adds .empty is c := by
  obtain ⟨bytes, hwritten, before, after, hbytes, hbefore⟩ := h
  refine ⟨bytes, hwritten, ?_⟩
  obtain rfl := List.length_eq_zero_iff.mp hbefore
  have hlength : c.size = (bytes ++ after).length := congrArg List.length hbytes
  rw [hsize, List.length_append, hwritten.length] at hlength
  obtain rfl : after = [] := List.length_eq_zero_iff.mp (by omega)
  rw [hbytes, List.append_nil]
  rfl

/-- Of two codes that have the same instructions from an offset on, up to a change of instructions
that keeps their widths, the second one has the changed instruction wherever the first one has an
instruction. -/
theorem decode_map {c c' : Code} {p offset : Nat} {is : List Instruction} {i : Instruction}
    {f : Instruction → Instruction} (hc : c.Contains p is) (hsize : c.size = p + totalWidth is)
    (hc' : c'.Contains p (is.map f)) (hf : ∀ j, (f j).width = j.width)
    (ho : Assembly.Between p is offset) (hi : c.decode offset = .ok i) :
    c'.decode offset = .ok (f i) := by
  obtain ⟨before, after, rfl, hoffset⟩ := ho
  rw [List.map_append] at hc'
  have hrest := hc.append_right
  have hrest' := hc'.append_right
  rw [← hoffset] at hrest
  rw [totalWidth_map hf, ← hoffset] at hrest'
  cases after with
  | nil =>
      rw [List.append_nil, ← hoffset] at hsize
      rw [← hsize] at hi
      exact absurd hi not_decode_size
  | cons j after =>
      have hj := hrest.decode
      rw [hi] at hj
      cases hj
      exact hrest'.decode

namespace IsLaidOut

variable {c : Code}

theorem exists_adds (h : c.IsLaidOut) : ∃ is, Code.Adds .empty is c := by
  obtain ⟨-, t, -, hcontains, hsize, -⟩ := h
  exact ⟨t.instrs 0, adds_of_contains hcontains (by rw [hsize, t.totalWidth_instrs])⟩

theorem size_renumber (h : c.IsLaidOut) (hν : ν.IsNarrow) : (c.renumber ν).size = c.size := by
  obtain ⟨is, hadds⟩ := h.exists_adds
  rw [(hadds.renumber hν).size, hadds.size, totalWidth_map Instruction.width_renumber]

/-- Wherever a run of a code comes, the renumbered code has the renumbered instruction. -/
theorem decode_renumber (h : c.IsLaidOut) (hν : ν.IsNarrow) {offset : Nat} {i : Instruction}
    (ho : c.Reaches offset) (hi : c.decode offset = .ok i) :
    (c.renumber ν).decode offset = .ok (i.renumber ν) := by
  obtain ⟨allowed, t, height, hcontains, hsize, hbalanced⟩ := h
  have hwidth : c.size = totalWidth (t.instrs 0) := by rw [hsize, t.totalWidth_instrs]
  have hadds := adds_of_contains hcontains hwidth
  refine decode_map hcontains (hwidth.trans (Nat.zero_add _).symm) ?_ Instruction.width_renumber
    (ho.between hcontains hsize hbalanced) hi
  exact (hadds.renumber hν).contains

end IsLaidOut

end Code

end ScriptEngine
