import ScriptEngine.Proofs.Machine.Conduct
import ScriptEngine.Proofs.Machine.Confinement

/-!
# Fetching agrees with decoding

Every opcode reads its own operands from the running code, and the decoder reads them by the table
of widths.  On arbitrary bytes the two see the same instruction or the same fault, and what has been
read decides where the call goes on, whether the instruction succeeds or not.
-/

namespace ScriptEngine

namespace Code

/-- A number can be read unless the code ends before or inside it. -/
theorem read_eq_error {c : Code} {offset : Nat} {w : Width} {e : FormatError}
    (h : c.read offset w = .error e) : e = .truncated offset := by
  cases w with
  | byte =>
      simp only [read, readByte] at h
      split at h <;> cases h
      rfl
  | word =>
      simp only [read, readWord] at h
      split at h <;> cases h
      rfl

end Code

namespace Exec

variable {m : Machine} {f : Frame} {fs : List Frame}

theorem fetchOperand_eq_error {w : Width} {e : FormatError} (hframes : m.frames = f :: fs)
    (hread : (m.codeOf f).read f.ip w = .error e) :
    fetchOperand w m = .error (.error (.decode (.truncated f.ip))) m := by
  have hget : (get : Exec Machine) m = .ok m m := rfl
  obtain rfl := Code.read_eq_error hread
  simp only [fetchOperand, Bind.bind, EStateM.bind, frame_eq hframes, hget, hread]
  rfl

/-- Operands that cannot all be read are read up to the one that is cut off. -/
theorem fetchOperands_eq_error {ws : List Width} {e : FormatError} (hframes : m.frames = f :: fs)
    (hread : (m.codeOf f).readOperands f.ip ws = .error e) :
    ∃ offset, fetchOperands ws m =
      .error (.error (.decode (.truncated offset))) { m with frames := f.goTo offset :: fs } := by
  induction ws generalizing m f e with
  | nil => cases hread
  | cons w ws ih =>
      cases hw : (m.codeOf f).read f.ip w with
      | error e =>
          refine ⟨f.ip, ?_⟩
          simp only [fetchOperands, Bind.bind, EStateM.bind, fetchOperand_eq_error hframes hw]
          rw [Frame.goTo, ← hframes]
      | ok n =>
          simp only [Code.readOperands, hw] at hread
          cases hrest : (m.codeOf f).readOperands (f.ip + w.bytes) ws with
          | ok ns => simp [hrest, Except.map] at hread
          | error e =>
              obtain ⟨offset, hfetch⟩ :=
                ih (m := { m with frames := f.goTo (f.ip + w.bytes) :: fs }) rfl hrest
              refine ⟨offset, ?_⟩
              simp only [fetchOperands, Bind.bind, EStateM.bind, fetchOperand_eq hframes hw, hfetch]
              rfl

end Exec

/-- The outcome of one step as a run. -/
def Run.ofStep : EStateM.Result (Stop RuntimeError) Machine Unit → Run
  | .ok _ m => .unfinished m
  | .error cause m => .stopped cause m

namespace Machine

variable {m : Machine} {f : Frame} {fs : List Frame}

/-- Bytes that are no instruction are reported, and nothing happens apart from reading them. -/
theorem run_one_of_decode_eq_error {e : FormatError} (hframes : m.frames = f :: fs)
    (hip : f.ip < (m.codeOf f).size) (hdecode : (m.codeOf f).decode f.ip = .error e) :
    (∃ byte, e = .unknownOpcode byte ∧ m.run 1 = .stopped (.error (.decode e)) m) ∨
      (e = .truncated f.ip ∧ ∃ offset, m.run 1 =
        .stopped (.error (.decode (.truncated offset)))
          { m with frames := f.goTo offset :: fs }) := by
  have hbyte : (m.codeOf f).bytes[f.ip]? = some ((m.codeOf f).bytes[f.ip]) :=
    Array.getElem?_eq_getElem hip
  have hnext : m.nextByte? = some ((m.codeOf f).bytes[f.ip]) := by
    simp only [nextByte?, hframes, hbyte]
  simp only [Code.decode, hbyte] at hdecode
  cases hop : Opcode.ofByte? ((m.codeOf f).bytes[f.ip]) with
  | none =>
      simp only [hop] at hdecode
      cases hdecode
      refine .inl ⟨_, rfl, run_one_error hnext ?_⟩
      simp only [Exec.step, hop]
      rfl
  | some op =>
      simp only [hop] at hdecode
      cases hread : (m.codeOf f).readOperands (f.ip + 1) op.operandWidths with
      | ok ns =>
          simp only [hread] at hdecode
          cases hdecode
      | error cause =>
          simp only [hread] at hdecode
          cases hdecode
          obtain ⟨offset, hfetch⟩ := Exec.fetchOperands_eq_error
            (m := { m with frames := f.goTo (f.ip + 1) :: fs }) rfl hread
          refine .inr ⟨rfl, offset, run_one_error hnext ?_⟩
          simp only [Frame.goTo] at hfetch
          simp only [Exec.step, hop, Exec.advance, Exec.dispatch_eq, Bind.bind, EStateM.bind,
            Exec.modifyFrame_eq hframes, hfetch, Frame.goTo]

/-- An instruction that can be read is executed with its operands, by a call that has moved past
it. -/
theorem run_one_of_decode_eq_ok {i : Instruction} (hframes : m.frames = f :: fs)
    (hdecode : (m.codeOf f).decode f.ip = .ok i) :
    m.run 1 = .ofStep (Exec.execute i { m with frames := f.goTo (f.ip + i.width) :: fs }) := by
  obtain ⟨byte, hbyte, hstep⟩ := Exec.step_eq_execute hframes hdecode
  cases hexec : Exec.execute i { m with frames := f.goTo (f.ip + i.width) :: fs } with
  | ok u m' => exact run_one_ok hbyte (hstep.trans hexec)
  | error stop m' => exact run_one_error hbyte (hstep.trans hexec)

/-- What a step leads to when its instruction can be read, in any state. -/
theorem run_one_shifts {i : Instruction} (hframes : m.frames = f :: fs)
    (hdecode : (m.codeOf f).decode f.ip = .ok i) :
    { m with frames := f.goTo (f.ip + i.width) :: fs }.Shifts
        (f.goTo (f.ip + i.width)) fs i (m.run 1).machine ∧
      ∀ stop m', m.run 1 = .stopped stop m' →
        { m with frames := f.goTo (f.ip + i.width) :: fs }.Admits
          ({ m with frames := f.goTo (f.ip + i.width) :: fs }.CrashesAt
            (f.goTo (f.ip + i.width)) i) stop := by
  have hexecutes := execute_shifts (m := { m with frames := f.goTo (f.ip + i.width) :: fs })
    (f := f.goTo (f.ip + i.width)) rfl i
  rw [run_one_of_decode_eq_ok hframes hdecode]
  cases hexec : Exec.execute i { m with frames := f.goTo (f.ip + i.width) :: fs } with
  | ok u m' =>
      refine ⟨hexecutes.ok hexec, fun stop m'' hrun => ?_⟩
      cases hrun
  | error stop m' =>
      obtain ⟨hshifts, hadmits⟩ := hexecutes.error hexec
      refine ⟨hshifts, fun stop' m'' hrun => ?_⟩
      cases hrun
      exact hadmits

namespace Shifts

variable {i : Instruction} {m' : Machine} {next : Nat}

/-- A call that goes on does so where the instruction says, below a call that it may have opened. -/
theorem frames_of_landing (h : m.Shifts f fs i m') (hlanding : i.landing m f.ip = some next) :
    m'.frames = f.goTo next :: fs ∨
      i.opcode = .call ∧ ∃ g, m'.frames = g :: f.goTo next :: fs := by
  cases h with
  | stays landing keeps =>
      obtain rfl := Option.some.inj (landing.symm.trans hlanding)
      exact .inl keeps.frames
  | opens opcode _ _ keeps =>
      obtain rfl : f.ip = next := by simpa [Instruction.landing, opcode] using hlanding
      exact .inr ⟨opcode, _, keeps.frames⟩
  | closes landing _ => cases landing.symm.trans hlanding

theorem frames_of_closed (h : m.Shifts f fs i m') (hlanding : i.landing m f.ip = none) :
    m'.frames = fs := by
  cases h with
  | stays landing _ => cases landing.symm.trans hlanding
  | opens opcode _ _ _ => simp [Instruction.landing, opcode] at hlanding
  | closes _ keeps => exact keeps.frames

end Shifts

/-- One step reads the code as the decoder does, whatever the bytes and the state of the machine
are.  It reports an unknown opcode, with the machine as it was, if and only if the decoder does, and
a cut-off instruction if and only if the decoder does.  Otherwise it executes the instruction with
the operands that the decoder gives, and then the call stands behind the instruction, even if that
stopped early, unless the instruction was a jump that was taken, or a return that closed the
call. -/
theorem run_one_agrees_with_decode (hframes : m.frames = f :: fs)
    (hip : f.ip < (m.codeOf f).size) :
    (∀ byte m', m.run 1 = .stopped (.error (.decode (.unknownOpcode byte))) m' ↔
      (m.codeOf f).decode f.ip = .error (.unknownOpcode byte) ∧ m' = m) ∧
    ((∃ offset m', m.run 1 = .stopped (.error (.decode (.truncated offset))) m') ↔
      ∃ offset, (m.codeOf f).decode f.ip = .error (.truncated offset)) ∧
    ∀ i, (m.codeOf f).decode f.ip = .ok i →
      m.run 1 = .ofStep (Exec.execute i { m with frames := f.goTo (f.ip + i.width) :: fs }) ∧
      (∀ next, i.landing m (f.ip + i.width) = some next →
        (m.run 1).machine.frames = f.goTo next :: fs ∨
          i.opcode = .call ∧ ∃ g, (m.run 1).machine.frames = g :: f.goTo next :: fs) ∧
      (i.landing m (f.ip + i.width) = none → (m.run 1).machine.frames = fs) := by
  cases hdecode : (m.codeOf f).decode f.ip with
  | error e =>
      rcases run_one_of_decode_eq_error hframes hip hdecode with
        ⟨byte, rfl, hrun⟩ | ⟨rfl, offset, hrun⟩
      · simp [hrun, eq_comm]
      · simp [hrun]
  | ok i =>
      obtain ⟨hshifts, hadmits⟩ := run_one_shifts hframes hdecode
      have hreads (cause : FormatError) (m' : Machine) :
          m.run 1 ≠ .stopped (.error (.decode cause)) m' := by
        intro hrun
        cases hadmits _ m' hrun
      refine ⟨by simp [hreads], by simp [hreads], ?_⟩
      intro i' hi'
      obtain rfl := Except.ok.inj hi'
      exact ⟨run_one_of_decode_eq_ok hframes hdecode, fun next => hshifts.frames_of_landing,
        hshifts.frames_of_closed⟩

/-- A closure of a constant that is not there, and of two values that are not there either: the call
stands behind both operands once the missing constant has been reported. -/
theorem run_one_agrees_with_decode_closure :
    let code : Code := ⟨#[36, 1, 0, 2, 40]⟩
    let m := initial code #[] ⟨4, 2, 1⟩ (.ofSize 1) .empty
    m.frames = [⟨.main code, 0, 0⟩] ∧ 0 < (m.codeOf ⟨.main code, 0, 0⟩).size ∧
      (m.codeOf ⟨.main code, 0, 0⟩).decode 0 = .ok ⟨.closure, [256, 2]⟩ ∧
      ∃ m', m.run 1 = .stopped (.error (.invalidOperand .closure 256)) m' ∧
        m'.frames = [⟨.main code, 4, 0⟩] := by
  intro code m
  have hframes : m.frames = [⟨.main code, 0, 0⟩] := rfl
  have hsize : 0 < (m.codeOf ⟨.main code, 0, 0⟩).size := by decide
  have hdecode : (m.codeOf ⟨.main code, 0, 0⟩).decode 0 = .ok ⟨.closure, [256, 2]⟩ := by
    decide +kernel
  obtain ⟨hrun, hgoes, -⟩ := (run_one_agrees_with_decode hframes hsize).2.2 _ hdecode
  refine ⟨hframes, hsize, hdecode, _, hrun, ?_⟩
  rw [hrun] at hgoes
  exact (hgoes 4 rfl).resolve_right (by simp)

end Machine

end ScriptEngine
