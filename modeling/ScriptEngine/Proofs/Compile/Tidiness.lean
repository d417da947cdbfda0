import ScriptEngine.Proofs.Compile.Acceptance
import ScriptEngine.Proofs.Compile.Procedures

/-!
# Tidy codes

A code under construction is tidy if it consists of whole instructions and the compiler remembers
the right things about it: which instruction is the last one, which one comes before it if the last
one may be taken back, and where the jumps are that have no target yet.  Every edit of tidy codes
leaves tidy codes if it fits (`Edit.tidy`): a jump may get a target if it has none, an instruction
may be taken back if it is a `pop`, and a function may be closed if all its jumps have targets.
-/

namespace ScriptEngine

open CompileM

/-! ## The last instruction -/

/-- The record of the last one of some instructions. -/
def final? (is : List Instruction) : Option Emitted :=
  is.getLast?.map fun i => ⟨i.opcode, totalWidth is.dropLast⟩

theorem final?_append_single (is : List Instruction) (i : Instruction) :
    final? (is ++ [i]) = some ⟨i.opcode, totalWidth is⟩ := by
  simp [final?]

theorem totalWidth_congr {is js : List Instruction}
    (h : is.map Instruction.opcode = js.map Instruction.opcode) :
    totalWidth is = totalWidth js := by
  induction is generalizing js with
  | nil =>
      obtain rfl : js = [] := by simpa using h.symm
      rfl
  | cons i is ih =>
      cases js with
      | nil => cases h
      | cons j js =>
          obtain ⟨hop, hrest⟩ := List.cons.inj h
          rw [totalWidth_cons, totalWidth_cons, ih hrest, Instruction.width, Instruction.width, hop]

theorem exists_eq_append_single {is js : List Instruction} {j : Instruction}
    (h : is.map Instruction.opcode = (js ++ [j]).map Instruction.opcode) :
    ∃ us u, is = us ++ [u] ∧ us.map Instruction.opcode = js.map Instruction.opcode ∧
      u.opcode = j.opcode := by
  rw [List.map_append] at h
  obtain ⟨us, vs, rfl, hus, hvs⟩ := List.map_eq_append_iff.mp h
  obtain ⟨u, rfl, hu⟩ := List.map_eq_singleton_iff.mp hvs
  exact ⟨us, u, rfl, hus, hu⟩

/-- The record depends on the opcodes only. -/
theorem final?_congr {is js : List Instruction}
    (h : is.map Instruction.opcode = js.map Instruction.opcode) : final? is = final? js := by
  rcases List.eq_nil_or_concat js with rfl | ⟨js, j, rfl⟩
  · obtain rfl : is = [] := by simpa using h
    rfl
  · rw [List.concat_eq_append] at h ⊢
    obtain ⟨us, u, rfl, hus, hu⟩ := exists_eq_append_single h
    rw [final?_append_single, final?_append_single, hu, totalWidth_congr hus]

/-- An instruction stands at an offset among others. -/
def StandsAt (is : List Instruction) (offset : Nat) (i : Instruction) : Prop :=
  ∃ js ks, is = js ++ i :: ks ∧ totalWidth js = offset

namespace StandsAt

variable {is js ks : List Instruction} {i j k : Instruction} {offset : Nat}

theorem last (is : List Instruction) (i : Instruction) : StandsAt (is ++ [i]) (totalWidth is) i :=
  ⟨is, [], rfl, rfl⟩

theorem append (h : StandsAt is offset i) (ks : List Instruction) :
    StandsAt (is ++ ks) offset i := by
  obtain ⟨us, vs, rfl, hoffset⟩ := h
  exact ⟨us, vs ++ ks, by simp, hoffset⟩

theorem lt (h : StandsAt is offset i) : offset < totalWidth is := by
  obtain ⟨us, vs, rfl, rfl⟩ := h
  have hpos : 0 < i.width := i.opcode.width_pos
  rw [totalWidth_append, totalWidth_cons]
  omega

/-- What is not the last instruction stands before it. -/
theorem of_append_single (h : StandsAt (is ++ [j]) offset i) (hne : i ≠ j) :
    StandsAt is offset i := by
  obtain ⟨us, vs, heq, hoffset⟩ := h
  rcases List.eq_nil_or_concat vs with rfl | ⟨vs, v, rfl⟩
  · obtain ⟨-, hlast⟩ := List.append_inj' heq rfl
    exact absurd (List.cons.inj hlast).1.symm hne
  · have heq' : is ++ [j] = (us ++ i :: vs) ++ [v] := by simpa using heq
    obtain ⟨rfl, -⟩ := List.append_inj' heq' rfl
    exact ⟨us, vs, rfl, hoffset⟩

/-- Another instruction stays where it is when one is replaced. -/
theorem replace (h : StandsAt (js ++ i :: ks) offset k) (hother : offset ≠ totalWidth js)
    (hwidth : i.width = j.width) : StandsAt (js ++ j :: ks) offset k := by
  obtain ⟨us, vs, heq, rfl⟩ := h
  rcases List.append_eq_append_iff.mp heq with ⟨l, rfl, hl⟩ | ⟨l, rfl, hl⟩
  · cases l with
    | nil => exact absurd (by rw [List.append_nil]) hother
    | cons x l =>
        obtain ⟨rfl, rfl⟩ := List.cons.inj hl
        exact ⟨js ++ j :: l, vs, by simp, by simp [hwidth]⟩
  · cases l with
    | nil => exact absurd (by rw [List.append_nil]) hother
    | cons x l =>
        obtain ⟨rfl, rfl⟩ := List.cons.inj hl
        exact ⟨us, l ++ j :: ks, by simp, rfl⟩

end StandsAt

/-! ## Tidy code -/

theorem Code.size_empty : Code.empty.size = 0 :=
  rfl

namespace OpenCode

/-- The opcode of the instruction that is remembered as the last one. -/
def lastOpcode? (o : OpenCode) : Option Opcode :=
  o.last.map Emitted.opcode

/-- The code consists of the instructions, and what is remembered is right: the last instruction,
the one before it if the last one may be taken back, and jumps that have no target yet. -/
structure Tidy (o : OpenCode) (jumps : List Emitted) (is : List Instruction) : Prop where
  adds : Code.empty.Adds is o.code
  last : o.last = final? is
  previous : ∀ js i, is = js ++ [i] → i.opcode = .pop →
    o.previous = final? js ∧ (final? js).map Emitted.opcode ≠ some .pop
  jumps : ∀ j ∈ jumps, j.opcode.isJump = true ∧
    StandsAt is j.position ⟨j.opcode, [unknownTarget]⟩

theorem tidy_empty : OpenCode.empty.Tidy [] [] where
  adds := .refl _
  last := rfl
  previous := by simp
  jumps := by simp

namespace Tidy

variable {o : OpenCode} {jumps : List Emitted} {is : List Instruction}

theorem size (h : o.Tidy jumps is) : o.code.size = totalWidth is := by
  rw [h.adds.size, Code.size_empty, Nat.zero_add]

theorem written (h : o.Tidy jumps is) : Written is o.code.bytes.toList := by
  obtain ⟨bs, hwritten, hbytes⟩ := h.adds
  rw [hbytes]
  exact hwritten

/-- A last instruction without operands is the last byte. -/
theorem bytes_eq {js : List Instruction} {i : Instruction} (h : o.Tidy jumps (js ++ [i]))
    (hplain : i.opcode.operandWidths = []) :
    ∃ bs, Written js bs ∧ o.code.bytes.toList = bs ++ [i.opcode.toByte] := by
  obtain ⟨bs, cs, hjs, hi, hbytes⟩ := h.written.append_inv
  obtain ⟨as, _, hencode, hnil, rfl⟩ := hi.cons_inv
  obtain ⟨hlength, rest, hrest, rfl⟩ := Instruction.encode_eq_ok hencode
  cases hnil
  obtain ⟨op, ns⟩ := i
  rw [hplain] at hlength hrest
  obtain rfl : ns = [] := List.length_eq_zero_iff.mp hlength
  cases hrest
  exact ⟨bs, hjs, hbytes⟩

/-- Jumps that have no target yet come before the end of the code. -/
theorem position_lt (h : o.Tidy jumps is) {j : Emitted} (hj : j ∈ jumps) :
    j.position < o.code.size := by
  rw [h.size]
  exact (h.jumps j hj).2.lt

/-- What is remembered as the last instruction is the last one. -/
theorem exists_last (h : o.Tidy jumps is) {op : Opcode} (hop : o.lastOpcode? = some op) :
    ∃ js i, is = js ++ [i] ∧ i.opcode = op ∧ o.last = some ⟨op, totalWidth js⟩ := by
  rw [lastOpcode?, h.last] at hop
  rcases List.eq_nil_or_concat is with rfl | ⟨js, i, rfl⟩
  · cases hop
  · rw [List.concat_eq_append, final?_append_single] at hop
    obtain rfl : i.opcode = op := Option.some.inj hop
    exact ⟨js, i, List.concat_eq_append, rfl, by
      rw [h.last, List.concat_eq_append, final?_append_single]⟩

/-- An instruction is written.  Two instructions that may be taken back never follow each other. -/
theorem write (h : o.Tidy jumps is) {i : Instruction} {bytes : List UInt8}
    (hencode : i.encode = .ok bytes) (hpop : i.opcode = .pop → o.lastOpcode? ≠ some .pop) :
    Tidy { o with
      code := o.code.append bytes
      last := some ⟨i.opcode, o.code.size⟩
      previous := o.last } jumps (is ++ [i]) where
  adds := h.adds.trans (Code.adds_append hencode)
  last := by rw [final?_append_single, h.size]
  previous := by
    intro js j heq hj
    obtain ⟨rfl, hlast⟩ := List.append_inj' heq rfl
    obtain ⟨rfl, -⟩ := List.cons.inj hlast
    exact ⟨h.last, h.last ▸ hpop hj⟩
  jumps := fun j hj => ⟨(h.jumps j hj).1, (h.jumps j hj).2.append [i]⟩

/-- The last instruction has been written as a jump without a target. -/
theorem addJump {op : Opcode} (h : o.Tidy jumps (is ++ [⟨op, [unknownTarget]⟩]))
    (hop : op.isJump = true) :
    o.Tidy (⟨op, totalWidth is⟩ :: jumps) (is ++ [⟨op, [unknownTarget]⟩]) where
  adds := h.adds
  last := h.last
  previous := h.previous
  jumps := by
    intro j hj
    rcases List.mem_cons.mp hj with rfl | hj
    · exact ⟨hop, .last is _⟩
    · exact h.jumps j hj

theorem ne_of_isJump {op : Opcode} {i : Instruction} (hop : op.isJump = true)
    (hi : i.opcode = .pop) : (⟨op, [unknownTarget]⟩ : Instruction) ≠ i := by
  rintro rfl
  rw [show op = .pop from hi] at hop
  cases hop

/-- The last instruction is taken back. -/
theorem dropLast {js : List Instruction} {i : Instruction} (h : o.Tidy jumps (js ++ [i]))
    (hi : i.opcode = .pop) :
    Tidy { o with code := o.code.truncate (totalWidth js), last := o.previous } jumps js where
  adds := by
    have hadds := Code.adds_truncate h.adds
    rwa [Code.size_empty, Nat.zero_add] at hadds
  last := (h.previous js i rfl hi).1
  previous := by
    rintro ks k rfl hk
    refine absurd ?_ (h.previous _ i rfl hi).2
    rw [final?_append_single, ← hk]
    rfl
  jumps := by
    intro j hj
    obtain ⟨hjump, hstands⟩ := h.jumps j hj
    exact ⟨hjump, hstands.of_append_single (ne_of_isJump hjump hi)⟩

/-- The last instruction is turned into a return. -/
theorem returnLast {js : List Instruction} {i : Instruction} (h : o.Tidy jumps (js ++ [i]))
    (hi : i.opcode = .pop) :
    o.code.hasRoom (totalWidth js) [Opcode.returnValue.toByte] = true ∧
      Tidy { o with
        code := o.code.overwrite (totalWidth js) [Opcode.returnValue.toByte]
        last := some ⟨.returnValue, totalWidth js⟩ } jumps (js ++ [⟨.returnValue, []⟩]) := by
  have hwidth : i.width = (⟨.returnValue, []⟩ : Instruction).width := by
    rw [Instruction.width, hi]
    rfl
  obtain ⟨hroom, hadds⟩ := Code.adds_overwrite (j := ⟨.returnValue, []⟩) h.adds rfl hwidth
  rw [Code.size_empty, Nat.zero_add] at hroom hadds
  refine ⟨hroom, hadds, ?_, ?_, ?_⟩
  · rw [final?_append_single]
  · intro ks k heq hk
    obtain ⟨-, hlast⟩ := List.append_inj' heq rfl
    obtain ⟨rfl, -⟩ := List.cons.inj hlast
    cases hk
  · intro j hj
    obtain ⟨hjump, hstands⟩ := h.jumps j hj
    exact ⟨hjump, (hstands.of_append_single (ne_of_isJump hjump hi)).append _⟩

/-- A jump gets its target. -/
theorem patch {js ks : List Instruction} {op : Opcode} {target : Nat} {bytes : List UInt8}
    (h : o.Tidy jumps (js ++ ⟨op, [unknownTarget]⟩ :: ks))
    (hencode : op.encode [target] = .ok bytes) :
    o.code.hasRoom (totalWidth js) bytes = true ∧
      Tidy { o with code := o.code.overwrite (totalWidth js) bytes }
        (jumps.filter fun j => j.position ≠ totalWidth js) (js ++ ⟨op, [target]⟩ :: ks) := by
  obtain ⟨hroom, hadds⟩ := Code.adds_overwrite (j := ⟨op, [target]⟩) h.adds hencode rfl
  rw [Code.size_empty, Nat.zero_add] at hroom hadds
  have hopcodes : (js ++ ⟨op, [unknownTarget]⟩ :: ks).map Instruction.opcode =
      (js ++ ⟨op, [target]⟩ :: ks).map Instruction.opcode := by
    simp
  refine ⟨hroom, hadds, h.last.trans (final?_congr hopcodes), ?_, ?_⟩
  · intro us u heq hu
    rw [heq] at hopcodes
    obtain ⟨vs, v, heq', hvs, hv⟩ := exists_eq_append_single hopcodes
    rw [← final?_congr hvs]
    exact h.previous vs v heq' (hv.trans hu)
  · intro j hj
    obtain ⟨hj, hother⟩ := List.mem_filter.mp hj
    obtain ⟨hjump, hstands⟩ := h.jumps j hj
    exact ⟨hjump, hstands.replace (by simpa using hother) rfl⟩

end Tidy

end OpenCode

/-! ## Tidy compilers -/

/-- The jumps that have no target yet, in the innermost scope and in those around it. -/
structure Pending where
  current : List Emitted
  enclosing : List (List Emitted)

namespace Pending

def empty : Pending :=
  { current := [], enclosing := [] }

/-- A jump has been written in the innermost scope. -/
def add (p : Pending) (op : Opcode) (offset : Nat) : Pending :=
  { p with current := ⟨op, offset⟩ :: p.current }

/-- The jump at an offset of the innermost scope has got its target. -/
def remove (p : Pending) (offset : Nat) : Pending :=
  { p with current := p.current.filter fun j => j.position ≠ offset }

def enter (p : Pending) : Pending :=
  { current := [], enclosing := p.current :: p.enclosing }

def leave (p : Pending) : Pending :=
  { current := p.enclosing.headD [], enclosing := p.enclosing.tail }

theorem remove_add {p : Pending} {op : Opcode} {offset : Nat}
    (h : ∀ j ∈ p.current, j.position < offset) : (p.add op offset).remove offset = p := by
  have hothers : p.current.filter (fun j => j.position ≠ offset) = p.current := by
    rw [List.filter_eq_self]
    intro j hj
    simpa using Nat.ne_of_lt (h j hj)
  simp only [add, remove]
  rw [List.filter_cons_of_neg (by simp), hothers]

theorem remove_add_of_ne {p : Pending} {op : Opcode} {offset offset' : Nat} (h : offset' ≠ offset) :
    (p.add op offset').remove offset = (p.remove offset).add op offset' := by
  simp only [add, remove]
  rw [List.filter_cons_of_pos (by simpa using h)]

end Pending

namespace Compiler

/-- The codes of all open scopes are tidy, and as many functions are open as there are scopes around
the innermost one. -/
structure Tidy (c : Compiler) (p : Pending) : Prop where
  current : ∃ is, c.current.Tidy p.current is
  enclosing : List.Forall₂ (fun o jumps => ∃ is, OpenCode.Tidy o jumps is) c.enclosing p.enclosing
  depth : c.chain.depth = c.enclosing.length

variable {c c' : Compiler} {p : Pending}

theorem Unedited.tidy (h : c.Unedited c') (hc : c.Tidy p) : c'.Tidy p := by
  obtain ⟨is, hadds, hlast, hprevious, hjumps⟩ := hc.current
  refine ⟨⟨is, ?_, ?_, ?_, hjumps⟩, ?_, ?_⟩
  · rw [h.code]
    exact hadds
  · rw [h.last]
    exact hlast
  · rw [h.previous]
    exact hprevious
  · rw [h.enclosing]
    exact hc.enclosing
  · rw [h.depth, h.enclosing]
    exact hc.depth

/-- A change of the innermost code. -/
theorem Tidy.modify (hc : c.Tidy p) {o : OpenCode} {jumps : List Emitted} {is : List Instruction}
    (ho : o.Tidy jumps is) :
    Tidy { c with current := o } { p with current := jumps } :=
  ⟨⟨is, ho⟩, hc.enclosing, hc.depth⟩

end Compiler

/-! ## Edits -/

/-- The edit stopped before it changed anything, and not by a crash. -/
def Refused (c : Compiler) (stop : Stop CompileError) (c' : Compiler) : Prop :=
  c' = c ∧ ∃ e, stop = .error e

namespace CompileM

variable {c : Compiler} {p : Pending}

theorem emit_tidy (hc : c.Tidy p) {op : Opcode} (ns : List Nat)
    (hpop : op = .pop → c.current.lastOpcode? ≠ some .pop) :
    Ends (emit op ns) c (fun _ c' => c'.Tidy p ∧ c'.current.lastOpcode? = some op) (Refused c) := by
  obtain ⟨is, h⟩ := hc.current
  cases hencode : op.encode ns with
  | error e =>
      rw [emit, hencode]
      exact Ends.of_throw ⟨rfl, _, rfl⟩
  | ok bytes =>
      rw [emit, hencode]
      exact Ends.of_modify ⟨hc.modify (h.write (i := ⟨op, ns⟩) hencode hpop), rfl⟩

theorem emitJump_tidy (hc : c.Tidy p) {op : Opcode} (hop : op.isJump = true) :
    Ends (emitJump op) c
      (fun offset c' => c'.Tidy (p.add op offset) ∧ ∀ j ∈ p.current, j.position < offset)
      (Refused c) := by
  obtain ⟨is, h⟩ := hc.current
  have hpop : op = .pop → c.current.lastOpcode? ≠ some .pop := by
    rintro rfl
    cases hop
  refine Ends.bind_of_ok (a := c.current.code.size) rfl ?_
  cases hencode : op.encode [unknownTarget] with
  | error e =>
      refine Ends.bind_of_error (e := .error (.encode e)) ?_ ⟨rfl, _, rfl⟩
      rw [emit, hencode]
      rfl
  | ok bytes =>
      have hadded := (h.write (i := ⟨op, [unknownTarget]⟩) hencode hpop).addJump hop
      rw [← h.size] at hadded
      have hrun : emit op [unknownTarget] c = .ok () { c with current := { c.current with
          code := c.current.code.append bytes
          last := some ⟨op, c.current.code.size⟩
          previous := c.current.last } } := by
        rw [emit, hencode]
        rfl
      exact Ends.bind_of_ok hrun (Ends.of_pure ⟨hc.modify hadded, fun j hj => h.position_lt hj⟩)

/-- The byte at the offset of an instruction is that of its opcode. -/
theorem getElem?_of_tidy {o : OpenCode} {jumps : List Emitted} {js ks : List Instruction}
    {i : Instruction} (h : o.Tidy jumps (js ++ i :: ks)) :
    o.code.bytes[totalWidth js]? = some i.opcode.toByte := by
  have hcontains := h.adds.contains.append_right
  rw [Code.size_empty, Nat.zero_add] at hcontains
  obtain ⟨bs, hwritten, hholds⟩ := hcontains
  obtain ⟨as, cs, hencode, -, rfl⟩ := hwritten.cons_inv
  obtain ⟨-, rest, -, rfl⟩ := Instruction.encode_eq_ok hencode
  exact hholds.append_left.getElem?

theorem patchJump_ends_of_tidy {jumps : List Emitted} {js ks : List Instruction} {op : Opcode}
    (h : c.current.Tidy jumps (js ++ ⟨op, [unknownTarget]⟩ :: ks)) :
    Ends (patchJump (totalWidth js)) c
      (fun _ c' => ∃ o, c' = { c with current := o } ∧ o.last = c.current.last ∧
        o.Tidy (jumps.filter fun j => j.position ≠ totalWidth js)
          (js ++ ⟨op, [c.current.code.size]⟩ :: ks)) (Refused c) := by
  refine Ends.bind_of_ok (a := c.current.code.size) rfl ?_
  refine Ends.get_bind ?_
  rw [getElem?_of_tidy h]
  simp only [Opcode.ofByte?_toByte]
  split
  next e _ => exact Ends.of_throw ⟨rfl, _, rfl⟩
  next bytes hencode =>
    obtain ⟨hroom, hpatched⟩ := h.patch hencode
    refine Ends.get_bind ?_
    rw [if_pos hroom]
    exact Ends.of_modify ⟨_, rfl, rfl, hpatched⟩

theorem patchJump_tidy (hc : c.Tidy p) {offset : Nat} (hj : ∃ j ∈ p.current, j.position = offset) :
    Ends (patchJump offset) c
      (fun _ c' => c'.Tidy (p.remove offset) ∧ c'.current.lastOpcode? = c.current.lastOpcode?)
      (Refused c) := by
  obtain ⟨j, hj, rfl⟩ := hj
  obtain ⟨is, h⟩ := hc.current
  obtain ⟨-, js, ks, rfl, hoffset⟩ := h.jumps j hj
  rw [← hoffset]
  refine (patchJump_ends_of_tidy h).imp ?_
  rintro _ _ ⟨o, rfl, hlast, ho⟩
  exact ⟨hc.modify ho, congrArg (Option.map Emitted.opcode) hlast⟩

/-- Taking the last instruction back removes one byte. -/
theorem removeLast_tidy (hc : c.Tidy p) (hpop : c.current.lastOpcode? = some .pop) :
    Ends removeLast c
      (fun _ c' => c'.Tidy p ∧ c'.current.lastOpcode? ≠ some .pop ∧
        c.current.code.bytes.toList = c'.current.code.bytes.toList ++ [Opcode.pop.toByte])
      fun _ _ => False := by
  obtain ⟨is, h⟩ := hc.current
  obtain ⟨js, i, rfl, hi, hlast⟩ := h.exists_last hpop
  have hdropped := h.dropLast hi
  obtain ⟨bs, hbs, hbytes⟩ := h.bytes_eq (by rw [hi]; rfl)
  refine Ends.of_modify ?_
  simp only [hlast]
  refine ⟨hc.modify hdropped, ?_, ?_⟩
  · obtain ⟨hprevious, hother⟩ := h.previous js i rfl hi
    rw [OpenCode.lastOpcode?, hprevious]
    exact hother
  · rw [hbytes, hi, hbs.unique hdropped.written]

/-- Turning the last instruction into a return writes over one byte. -/
theorem lastToReturn_tidy (hc : c.Tidy p) (hpop : c.current.lastOpcode? = some .pop) :
    Ends lastToReturn c
      (fun _ c' => c'.Tidy p ∧ ∃ bs, c.current.code.bytes.toList = bs ++ [Opcode.pop.toByte] ∧
        c'.current.code.bytes.toList = bs ++ [Opcode.returnValue.toByte])
      fun _ _ => False := by
  obtain ⟨is, h⟩ := hc.current
  obtain ⟨js, i, rfl, hi, hlast⟩ := h.exists_last hpop
  obtain ⟨hroom, hreturned⟩ := h.returnLast hi
  obtain ⟨bs, hbs, hbytes⟩ := h.bytes_eq (by rw [hi]; rfl)
  obtain ⟨cs, hcs, hbytes'⟩ := hreturned.bytes_eq rfl
  refine Ends.get_bind ?_
  rw [hlast]
  refine Ends.bind (Ends.get_bind ?_ : Ends (overwrite (totalWidth js) _) c
    (fun _ c₁ => c₁ = { c with current := { c.current with
      code := c.current.code.overwrite (totalWidth js) [Opcode.returnValue.toByte] } }) _) ?_
  · rw [if_pos hroom]
    exact Ends.of_modify rfl
  · rintro _ _ rfl
    refine Ends.of_modify ⟨hc.modify hreturned, bs, hi ▸ hbytes, ?_⟩
    rw [hbs.unique hcs]
    exact hbytes'

theorem enter_tidy (hc : c.Tidy p) :
    Ends CompileM.enter c (fun _ c' => c'.Tidy p.enter) fun _ _ => False :=
  Ends.of_modify ⟨⟨[], OpenCode.tidy_empty⟩, .cons hc.current hc.enclosing,
    congrArg Nat.succ hc.depth⟩

theorem leave_tidy (hc : c.Tidy p) (hinner : p.enclosing ≠ []) :
    Ends CompileM.leave c (fun _ c' => c'.Tidy p.leave) fun _ _ => False := by
  obtain ⟨pool, ⟨scope, scopes⟩, current, enclosing, structs⟩ := c
  obtain ⟨jumps, outer⟩ := p
  obtain ⟨-, henclosing, hdepth⟩ := hc
  cases henclosing with
  | nil => exact absurd rfl hinner
  | cons head tail =>
      cases scopes with
      | nil => cases hdepth
      | cons outerScope rest => exact Ends.of_ok rfl ⟨head, tail, Nat.succ.inj hdepth⟩

end CompileM

namespace Edit

variable {β : Type} {c : Compiler} {p : Pending}

/-- What has to hold before an edit. -/
def Fits : Edit β → Compiler → Pending → Prop
  | write op _, c, _ => op = .pop → c.current.lastOpcode? ≠ some .pop
  | jump op, _, _ => op.isJump = true
  | patch offset, _, p => ∃ j ∈ p.current, j.position = offset
  | dropLast, c, _ | returnLast, c, _ => c.current.lastOpcode? = some .pop
  | enter, _, _ => True
  | leave, _, p => p.current = [] ∧ p.enclosing ≠ []

/-- The jumps that have no target after an edit with a given result. -/
def pending : Edit β → β → Pending → Pending
  | jump op, offset, p => p.add op offset
  | patch offset, _, p => p.remove offset
  | enter, _, p => p.enter
  | leave, _, p => p.leave
  | write _ _, _, p | dropLast, _, p | returnLast, _, p => p

/-- An edit of tidy codes leaves tidy codes. -/
theorem tidy (e : Edit β) (hc : c.Tidy p) (hfits : e.Fits c p) :
    Ends e.run c (fun b c' => c'.Tidy (e.pending b p)) (Refused c) := by
  cases e with
  | write op ns => exact (emit_tidy hc ns hfits).imp fun _ _ h => h.1
  | jump op => exact (emitJump_tidy hc hfits).imp fun _ _ h => h.1
  | patch offset => exact (patchJump_tidy hc hfits).imp fun _ _ h => h.1
  | dropLast => exact (removeLast_tidy hc hfits).mono (fun _ _ h => h.1) fun _ _ h => h.elim
  | returnLast => exact (lastToReturn_tidy hc hfits).mono (fun _ _ h => h.1) fun _ _ h => h.elim
  | enter => exact (enter_tidy hc).mono (fun _ _ h => h) fun _ _ h => h.elim
  | leave => exact (leave_tidy hc hfits.2).mono (fun _ _ h => h) fun _ _ h => h.elim

end Edit

end ScriptEngine
