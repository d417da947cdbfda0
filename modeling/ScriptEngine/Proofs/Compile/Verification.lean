import ScriptEngine.Proofs.Compile.Events
import ScriptEngine.Proofs.Instruction.RoundTrip

/-!
# Compiled code passes a verifier

A code is verified if it can be read to its end, its jumps lead to instructions, and heights of the
stack can be given to its instructions so that each finds what it takes and leaves the height of
whatever may run next.  Balanced code is verified wherever its jumps do not lead to its very end,
and compiled code is of this kind: the top level of a unit leaves nothing on the stack, and a
function ends with a return.
-/

namespace ScriptEngine

open Assembly (Balanced)

/-! ## Where instructions stand -/

@[simp] theorem placedFrom_append (p : Nat) (is js : List Instruction) :
    placedFrom p (is ++ js) = placedFrom p is ++ placedFrom (p + totalWidth is) js := by
  induction is generalizing p with
  | nil => simp [placedFrom]
  | cons i is ih => simp [placedFrom, ih, Nat.add_assoc]

/-- Between two parts of a list of instructions, an instruction starts unless the second is
empty. -/
theorem mem_starts_of_append {p : Nat} {is js : List Instruction} (hjs : js ≠ []) :
    p + totalWidth is ∈ (placedFrom p (is ++ js)).map Prod.fst := by
  obtain ⟨j, rest, rfl⟩ := List.exists_cons_of_ne_nil hjs
  simp [placedFrom]

namespace Code

/-- Heights of the stack fit the instructions of a code. -/
structure Verified (c : Code) (is : List Instruction) (height : Nat → Nat) : Prop where
  decodes : c.decodeAll = .ok is
  /-- Every jump leads to the start of an instruction. -/
  jumps : ∀ e ∈ placedFrom 0 is, e.2.opcode.isJump = true →
    e.2.operand 0 ∈ (placedFrom 0 is).map Prod.fst
  start : height 0 = 0
  /-- Every instruction finds the values that it takes. -/
  enough : ∀ e ∈ placedFrom 0 is, e.2.taken ≤ height e.1
  /-- Every instruction leaves the height at which the next one finds the stack. -/
  flow : ∀ e ∈ placedFrom 0 is, ∀ target, e.2.Next e.1 target →
    height target = e.2.after (height e.1)

/-- The code is verified, and nothing is on the stack at its end. -/
def IsVerifiedMain (c : Code) : Prop :=
  ∃ is height, c.Verified is height ∧ height c.size = 0

/-- The code is verified, and it ends with a return: no instruction goes on at the end. -/
def IsVerifiedBody (c : Code) : Prop :=
  ∃ is last height, c.Verified (is ++ [last]) height ∧
    (last.opcode = .returnValue ∨ last.opcode = .returnNull) ∧
    ∀ e ∈ placedFrom 0 (is ++ [last]), ∀ target, e.2.Next e.1 target → target < c.size

end Code

/-! ## Heights of structured code -/

/-- An instruction stands between two offsets, finds what it takes, and goes on between these
offsets, where the height is what it leaves. -/
def FitsAt (height : Nat → Nat) (p q : Nat) (e : Nat × Instruction) : Prop :=
  p ≤ e.1 ∧ e.1 ≤ q ∧ e.2.taken ≤ height e.1 ∧
    ∀ target, e.2.Next e.1 target →
      p ≤ target ∧ target ≤ q ∧ height target = e.2.after (height e.1)

namespace FitsAt

variable {height height' : Nat → Nat} {p p' q q' : Nat} {e : Nat × Instruction}

/-- Only heights between the two offsets matter, and the offsets can be moved apart. -/
theorem widen (h : FitsAt height p q e) (heq : ∀ o, p ≤ o → o ≤ q → height' o = height o)
    (hp : p' ≤ p) (hq : q ≤ q') : FitsAt height' p' q' e := by
  obtain ⟨hfrom, hto, henough, hflow⟩ := h
  refine ⟨Nat.le_trans hp hfrom, Nat.le_trans hto hq, ?_, ?_⟩
  · rwa [heq e.1 hfrom hto]
  · intro target hnext
    obtain ⟨hlow, hhigh, hheight⟩ := hflow target hnext
    refine ⟨Nat.le_trans hp hlow, Nat.le_trans hhigh hq, ?_⟩
    rw [heq target hlow hhigh, heq e.1 hfrom hto, hheight]

theorem plain {o : Nat} {i : Instruction} (hi : i.opcode.isJump = false) (hp : p ≤ o)
    (hq : o + i.width ≤ q) (enough : i.taken ≤ height o)
    (hnext : height (o + i.width) = i.after (height o)) : FitsAt height p q (o, i) := by
  refine ⟨hp, Nat.le_trans (Nat.le_add_right _ _) hq, enough, ?_⟩
  intro target ht
  obtain rfl : target = o + i.width := Instruction.next_eq ht hi
  exact ⟨Nat.le_trans hp (Nat.le_add_right _ _), hq, hnext⟩

theorem jump {o target : Nat} (hp : p ≤ o ∧ p ≤ target) (hq : o ≤ q ∧ target ≤ q)
    (hnext : height target = height o) : FitsAt height p q (o, ⟨.jump, [target]⟩) := by
  refine ⟨hp.1, hq.1, Nat.zero_le _, ?_⟩
  rintro _ rfl
  exact ⟨hp.2, hq.2, hnext⟩

theorem jumpNotTruthy {o target below : Nat} (hp : p ≤ o ∧ p ≤ target)
    (hq : o + 3 ≤ q ∧ target ≤ q) (here : height o = below + 1) (htarget : height target = below)
    (hnext : height (o + 3) = below) : FitsAt height p q (o, ⟨.jumpNotTruthy, [target]⟩) := by
  have hafter : (⟨.jumpNotTruthy, [target]⟩ : Instruction).after (height o) = below := by
    rw [here]
    exact Nat.add_sub_cancel below 1
  have henough : 1 ≤ height o := by
    rw [here]
    exact Nat.le_add_left 1 below
  refine ⟨hp.1, Nat.le_trans (Nat.le_add_right o 3) hq.1, henough, ?_⟩
  rintro _ (rfl | rfl)
  · exact ⟨hp.2, hq.2, htarget.trans hafter.symm⟩
  · exact ⟨Nat.le_trans hp.1 (Nat.le_add_right o 3), hq.1, hnext.trans hafter.symm⟩

end FitsAt

/-- The first heights up to an offset, and the second ones past it. -/
def glue (m : Nat) (first second : Nat → Nat) (o : Nat) : Nat :=
  if o ≤ m then first o else second o

theorem glue_of_le {m o : Nat} (first second : Nat → Nat) (h : o ≤ m) :
    glue m first second o = first o :=
  if_pos h

theorem glue_of_lt {m o : Nat} (first second : Nat → Nat) (h : m < o) :
    glue m first second o = second o :=
  if_neg (Nat.not_le.mpr h)

namespace Assembly

/-- Heights fit a piece of code that starts at an offset: they lead from one height to another. -/
structure HeightsFit (height : Nat → Nat) (h : Nat) (t : Assembly) (k p : Nat) : Prop where
  start : height p = h
  finish : height (p + t.size) = k
  fits : ∀ e ∈ placedFrom p (t.instrs p), FitsAt height p (p + t.size) e

namespace HeightsFit

variable {h k mid join p : Nat} {test yes no body rest : Assembly}

theorem op {height : Nat → Nat} {i : Instruction} (plain : i.opcode.isJump = false)
    (enough : i.taken ≤ h) (hrest : HeightsFit height (i.after h) rest k (p + i.width)) :
    HeightsFit (glue p (fun _ => h) height) h (.op i rest) k p := by
  have hwidth : 0 < i.width := i.opcode.width_pos
  have hend : p + (Assembly.op i rest).size = p + i.width + rest.size := by
    rw [size]
    omega
  have hpast : ∀ o, p + i.width ≤ o → glue p (fun _ => h) height o = height o := by
    intro o ho
    exact glue_of_lt _ _ (by omega)
  refine ⟨glue_of_le _ _ (Nat.le_refl p), ?_, ?_⟩
  · rw [hend, hpast _ (by omega), hrest.finish]
  · rw [instrs, placedFrom, hend, List.forall_mem_cons]
    constructor
    · apply FitsAt.plain plain (Nat.le_refl p) (by omega)
      · rwa [glue_of_le _ _ (Nat.le_refl p)]
      · rw [hpast _ (Nat.le_refl _), hrest.start, glue_of_le _ _ (Nat.le_refl p)]
    · intro e he
      exact (hrest.fits e he).widen (fun o ho _ => hpast o ho) (by omega) (Nat.le_refl _)

theorem choice {inTest inYes inNo inRest : Nat → Nat}
    (htest : HeightsFit inTest h test (mid + 1) p)
    (hyes : HeightsFit inYes mid yes join (p + test.size + 3))
    (hno : HeightsFit inNo mid no join (p + test.size + 3 + yes.size + 3))
    (hrest : HeightsFit inRest join rest k (p + test.size + 3 + yes.size + 3 + no.size)) :
    ∃ height, HeightsFit height h (.choice test yes no rest) k p := by
  let height := glue (p + test.size) inTest (glue (p + test.size + 3 + yes.size) inYes
    (glue (p + test.size + 3 + yes.size + 3 + no.size) inNo inRest))
  have onTest : ∀ o, p ≤ o → o ≤ p + test.size → height o = inTest o := by
    intro o _ ho
    exact glue_of_le _ _ ho
  have onYes : ∀ o, p + test.size + 3 ≤ o → o ≤ p + test.size + 3 + yes.size →
      height o = inYes o := by
    intro o hlow hhigh
    exact (glue_of_lt _ _ (by omega)).trans (glue_of_le _ _ hhigh)
  have past : ∀ o, p + test.size + 3 + yes.size + 3 ≤ o →
      height o = glue (p + test.size + 3 + yes.size + 3 + no.size) inNo inRest o := by
    intro o ho
    exact (glue_of_lt _ _ (by omega)).trans (glue_of_lt _ _ (by omega))
  have onNo : ∀ o, p + test.size + 3 + yes.size + 3 ≤ o →
      o ≤ p + test.size + 3 + yes.size + 3 + no.size → height o = inNo o := by
    intro o hlow hhigh
    exact (past o hlow).trans (glue_of_le _ _ hhigh)
  -- both ways through the choice come to the rest with the same height
  have onRest : ∀ o, p + test.size + 3 + yes.size + 3 + no.size ≤ o → height o = inRest o := by
    intro o ho
    rcases Nat.eq_or_lt_of_le ho with rfl | hlt
    · rw [onNo _ (by omega) (Nat.le_refl _), hno.finish, hrest.start]
    · exact (past o (by omega)).trans (glue_of_lt _ _ hlt)
  have hend : p + (Assembly.choice test yes no rest).size =
      p + test.size + 3 + yes.size + 3 + no.size + rest.size := by
    rw [size]
    omega
  refine ⟨height, ?_, ?_, ?_⟩
  · rw [onTest p (Nat.le_refl p) (by omega), htest.start]
  · rw [hend, onRest _ (by omega), hrest.finish]
  · rw [hend]
    simp only [instrs, placedFrom_append, placedFrom, totalWidth_instrs,
      Instruction.width_jumpNotTruthy, Instruction.width_jump, List.forall_mem_append,
      List.forall_mem_cons]
    refine ⟨?_, ?_, ?_, ?_, ?_, ?_⟩
    · intro e he
      exact (htest.fits e he).widen onTest (Nat.le_refl p) (by omega)
    · apply FitsAt.jumpNotTruthy (by omega) (by omega)
      · rw [onTest _ (by omega) (Nat.le_refl _), htest.finish]
      · rw [onNo _ (Nat.le_refl _) (by omega), hno.start]
      · rw [onYes _ (Nat.le_refl _) (by omega), hyes.start]
    · intro e he
      exact (hyes.fits e he).widen onYes (by omega) (by omega)
    · apply FitsAt.jump (by omega) (by omega)
      rw [onRest _ (Nat.le_refl _), hrest.start, onYes _ (by omega) (Nat.le_refl _), hyes.finish]
    · intro e he
      exact (hno.fits e he).widen onNo (by omega) (by omega)
    · intro e he
      exact (hrest.fits e he).widen (fun o ho _ => onRest o ho) (by omega) (Nat.le_refl _)

theorem loop {inTest inBody inRest : Nat → Nat} (htest : HeightsFit inTest h test (h + 1) p)
    (hbody : HeightsFit inBody h body h (p + test.size + 3))
    (hrest : HeightsFit inRest h rest k (p + test.size + 3 + body.size + 3)) :
    ∃ height, HeightsFit height h (.loop test body rest) k p := by
  let height := glue (p + test.size) inTest (glue (p + test.size + 3 + body.size) inBody inRest)
  have onTest : ∀ o, p ≤ o → o ≤ p + test.size → height o = inTest o := by
    intro o _ ho
    exact glue_of_le _ _ ho
  have onBody : ∀ o, p + test.size + 3 ≤ o → o ≤ p + test.size + 3 + body.size →
      height o = inBody o := by
    intro o hlow hhigh
    exact (glue_of_lt _ _ (by omega)).trans (glue_of_le _ _ hhigh)
  have onRest : ∀ o, p + test.size + 3 + body.size + 3 ≤ o → height o = inRest o := by
    intro o ho
    exact (glue_of_lt _ _ (by omega)).trans (glue_of_lt _ _ (by omega))
  have hend : p + (Assembly.loop test body rest).size =
      p + test.size + 3 + body.size + 3 + rest.size := by
    rw [size]
    omega
  have hstart : height p = h := by rw [onTest p (Nat.le_refl p) (by omega), htest.start]
  refine ⟨height, hstart, ?_, ?_⟩
  · rw [hend, onRest _ (by omega), hrest.finish]
  · rw [hend]
    simp only [instrs, placedFrom_append, placedFrom, totalWidth_instrs,
      Instruction.width_jumpNotTruthy, Instruction.width_jump, List.forall_mem_append,
      List.forall_mem_cons]
    refine ⟨?_, ?_, ?_, ?_, ?_⟩
    · intro e he
      exact (htest.fits e he).widen onTest (Nat.le_refl p) (by omega)
    · apply FitsAt.jumpNotTruthy (by omega) (by omega)
      · rw [onTest _ (by omega) (Nat.le_refl _), htest.finish]
      · rw [onRest _ (Nat.le_refl _), hrest.start]
      · rw [onBody _ (Nat.le_refl _) (by omega), hbody.start]
    · intro e he
      exact (hbody.fits e he).widen onBody (by omega) (by omega)
    · apply FitsAt.jump (by omega) (by omega)
      rw [hstart, onBody _ (by omega) (Nat.le_refl _), hbody.finish]
    · intro e he
      exact (hrest.fits e he).widen (fun o ho _ => onRest o ho) (by omega) (Nat.le_refl _)

end HeightsFit

namespace Balanced

variable {allowed : Instruction → Prop} {h k : Nat} {t : Assembly}

/-- Balanced code has heights that fit it, wherever it stands. -/
theorem exists_heightsFit (ht : Balanced allowed h t k) :
    ∀ p, ∃ height, HeightsFit height h t k p := by
  induction ht with
  | done h =>
      intro p
      exact ⟨fun _ => h, rfl, rfl, by simp [instrs, placedFrom]⟩
  | op _ plain enough _ ih =>
      intro p
      obtain ⟨height, hrest⟩ := ih _
      exact ⟨_, .op plain enough hrest⟩
  | choice _ _ _ _ ihtest ihyes ihno ihrest =>
      intro p
      obtain ⟨inTest, htest⟩ := ihtest p
      obtain ⟨inYes, hyes⟩ := ihyes _
      obtain ⟨inNo, hno⟩ := ihno _
      obtain ⟨inRest, hrest⟩ := ihrest _
      exact HeightsFit.choice htest hyes hno hrest
  | loop _ _ _ ihtest ihbody ihrest =>
      intro p
      obtain ⟨inTest, htest⟩ := ihtest p
      obtain ⟨inBody, hbody⟩ := ihbody _
      obtain ⟨inRest, hrest⟩ := ihrest _
      exact HeightsFit.loop htest hbody hrest

end Balanced

/-! ## Targets of jumps -/

/-- An offset is between two of the instructions, or at one of their ends. -/
def Between (p : Nat) (is : List Instruction) (target : Nat) : Prop :=
  ∃ before after, is = before ++ after ∧ target = p + totalWidth before

/-- What is between instructions is also between them when others stand around them. -/
theorem Between.surround {p q target : Nat} {is : List Instruction} (h : Between q is target)
    (front back : List Instruction) (hq : q = p + totalWidth front) :
    Between p (front ++ (is ++ back)) target := by
  obtain ⟨before, after, rfl, rfl⟩ := h
  refine ⟨front ++ before, after ++ back, by simp, ?_⟩
  rw [hq, totalWidth_append, Nat.add_assoc]

/-- Every jump of balanced code leads to a place between two of its instructions, or to its end. -/
theorem Balanced.between_of_isJump {allowed : Instruction → Prop} {h k : Nat} {t : Assembly}
    (ht : Balanced allowed h t k) :
    ∀ p, ∀ e ∈ placedFrom p (t.instrs p), e.2.opcode.isJump = true →
      Between p (t.instrs p) (e.2.operand 0) := by
  induction ht with
  | done h =>
      intro p e he
      simp [instrs, placedFrom] at he
  | @op i rest _ _ _ plain _ _ ih =>
      intro p
      rw [instrs, placedFrom, List.forall_mem_cons]
      constructor
      · intro hjump
        rw [plain] at hjump
        cases hjump
      · intro e he hjump
        simpa using (ih _ e he hjump).surround [i] [] (by simp)
  | @choice test yes no rest _ _ _ _ _ _ _ _ ihtest ihyes ihno ihrest =>
      intro p
      let other := p + test.size + 3 + yes.size + 3
      -- what stands before each of the later pieces
      let first := test.instrs p ++ [⟨.jumpNotTruthy, [other]⟩]
      let second := first ++ (yes.instrs (p + test.size + 3) ++ [⟨.jump, [other + no.size]⟩])
      have hfirst : p + test.size + 3 = p + totalWidth first := by simp [first, Nat.add_assoc]
      have hsecond : other = p + totalWidth second := by
        simp [second, first, other, Nat.add_assoc]
      have hthird : other + no.size = p + totalWidth (second ++ no.instrs other) := by
        rw [totalWidth_append, totalWidth_instrs, ← Nat.add_assoc, ← hsecond]
      simp only [instrs, placedFrom_append, placedFrom, totalWidth_instrs,
        Instruction.width_jumpNotTruthy, Instruction.width_jump, List.forall_mem_append,
        List.forall_mem_cons]
      refine ⟨?_, ?_, ?_, ?_, ?_, ?_⟩
      · intro e he hjump
        exact (ihtest p e he hjump).surround [] _ rfl
      · intro _
        refine ⟨second, no.instrs other ++ rest.instrs (other + no.size), ?_, hsecond⟩
        simp [second, first, other]
      · intro e he hjump
        simpa [first] using (ihyes _ e he hjump).surround first _ hfirst
      · intro _
        refine ⟨second ++ no.instrs other, rest.instrs (other + no.size), ?_, hthird⟩
        simp [second, first, other]
      · intro e he hjump
        simpa [second, first, other] using (ihno _ e he hjump).surround second _ hsecond
      · intro e he hjump
        simpa [second, first, other] using
          (ihrest _ e he hjump).surround (second ++ no.instrs other) [] hthird
  | @loop test body rest _ _ _ _ _ ihtest ihbody ihrest =>
      intro p
      let after := p + test.size + 3 + body.size + 3
      let first := test.instrs p ++ [⟨.jumpNotTruthy, [after]⟩]
      let second := first ++ (body.instrs (p + test.size + 3) ++ [⟨.jump, [p]⟩])
      have hfirst : p + test.size + 3 = p + totalWidth first := by simp [first, Nat.add_assoc]
      have hsecond : after = p + totalWidth second := by
        simp [second, first, after, Nat.add_assoc]
      simp only [instrs, placedFrom_append, placedFrom, totalWidth_instrs,
        Instruction.width_jumpNotTruthy, Instruction.width_jump, List.forall_mem_append,
        List.forall_mem_cons]
      refine ⟨?_, ?_, ?_, ?_, ?_⟩
      · intro e he hjump
        exact (ihtest p e he hjump).surround [] _ rfl
      · intro _
        exact ⟨second, rest.instrs after, by simp [second, first, after], hsecond⟩
      · intro e he hjump
        simpa [first] using (ihbody _ e he hjump).surround first _ hfirst
      · intro _
        exact ⟨[], _, rfl, rfl⟩
      · intro e he hjump
        simpa [second, first, after] using (ihrest _ e he hjump).surround second [] hsecond

/-- The code is empty or ends with an instruction that stands alone, to which jumps may lead. -/
def EndsPlainly (t : Assembly) : Prop :=
  t = done ∨ ∃ u last, t = u ++ single last

theorem EndsPlainly.append {t u : Assembly} (ht : t.EndsPlainly) (hu : u.EndsPlainly) :
    (t ++ u).EndsPlainly := by
  rcases hu with rfl | ⟨v, last, rfl⟩
  · rwa [append_done]
  · exact .inr ⟨t ++ v, last, (append_assoc _ _ _).symm⟩

end Assembly

/-! ## Verified code -/

namespace Code

open Assembly

variable {c : Code} {allowed : Instruction → Prop} {t u : Assembly} {height : Nat}

/-- Every jump of balanced code that ends plainly leads to the start of an instruction. -/
theorem jump_mem_starts (ht : Balanced allowed 0 t height) (hend : t.EndsPlainly) :
    ∀ e ∈ placedFrom 0 (t.instrs 0), e.2.opcode.isJump = true →
      e.2.operand 0 ∈ (placedFrom 0 (t.instrs 0)).map Prod.fst := by
  rcases hend with rfl | ⟨u, last, rfl⟩
  · intro e he
    simp [instrs, placedFrom] at he
  · obtain ⟨mid, hu, hlast⟩ := ht.append_inv
    rw [instrs_append, instrs_single]
    intro e he hjump
    -- the jump is not the last instruction, so that one stands past every place it can lead to
    have hinner : e ∈ placedFrom 0 (u.instrs 0) := by
      rw [placedFrom_append, List.mem_append] at he
      refine he.resolve_right fun hin => ?_
      obtain rfl := List.mem_singleton.mp hin
      cases hlast with
      | op _ plain _ _ => simp [plain] at hjump
    obtain ⟨before, after, hsplit, htarget⟩ := hu.between_of_isJump 0 e hinner hjump
    rw [hsplit, List.append_assoc, htarget]
    exact mem_starts_of_append (by simp)

/-- Balanced code that ends plainly is verified. -/
theorem exists_verified (hcode : c.Contains 0 (t.instrs 0)) (hsize : c.size = t.size)
    (ht : Balanced allowed 0 t height) (hend : t.EndsPlainly) :
    ∃ heights, c.Verified (t.instrs 0) heights ∧ heights c.size = height := by
  obtain ⟨heights, hfit⟩ := ht.exists_heightsFit 0
  refine ⟨heights, ⟨?_, jump_mem_starts ht hend, hfit.start, ?_, ?_⟩, ?_⟩
  · rw [decodeAll, hcode.decodeFrom, Nat.zero_add, totalWidth_instrs, ← hsize, decodeFrom_size]
    simp [Except.map]
  · intro e he
    exact (hfit.fits e he).2.2.1
  · intro e he target hnext
    exact ((hfit.fits e he).2.2.2 target hnext).2.2
  · rw [hsize, ← hfit.finish, Nat.zero_add]

/-- The body of a function is verified. -/
theorem IsBody.isVerifiedBody (h : c.IsBody) : c.IsVerifiedBody := by
  obtain ⟨allowed, u, last, height, hcode, hsize, ht, hlast⟩ := h
  obtain ⟨heights, hverified, -⟩ := exists_verified hcode hsize ht (.inr ⟨u, last, rfl⟩)
  rw [instrs_append, instrs_single] at hverified
  refine ⟨u.instrs 0, last, heights, hverified, hlast, ?_⟩
  obtain ⟨mid, hu, -⟩ := ht.append_inv
  obtain ⟨inner, hfit⟩ := hu.exists_heightsFit 0
  have hinside : u.size < c.size := by
    have hwidth : 0 < last.width := last.opcode.width_pos
    rw [hsize, size_append, size_single]
    omega
  rw [placedFrom_append, List.forall_mem_append]
  constructor
  · intro e he target hnext
    have hle := ((hfit.fits e he).2.2.2 target hnext).2.1
    omega
  · intro e he target hnext
    obtain rfl := List.mem_singleton.mp he
    rcases hlast with hvalue | hnull
    · simp [Instruction.Next, hvalue] at hnext
    · simp [Instruction.Next, hnull] at hnext

end Code

/-! ## Compiled code -/

/-- All functions among the constants have verified bodies. -/
def BodiesVerified (pool : Array Value) : Prop :=
  ∀ f, .function f ∈ pool → f.content.code.IsVerifiedBody

namespace BodiesVerified

variable {pool : Array Value}

theorem push (h : BodiesVerified pool) {v : Value}
    (hv : ∀ f, v = .function f → f.content.code.IsVerifiedBody) :
    BodiesVerified (pool.push v) := by
  intro f hf
  rcases Array.mem_push.mp hf with hold | hnew
  · exact h f hold
  · exact hv f hnew.symm

theorem structConstant {E : Env} (h : BodiesVerified E.pool) (type : StructType) :
    BodiesVerified (E.structConstant type).2.pool := by
  rw [Env.structConstant]
  split
  · exact h
  · exact h.push (by simp)

end BodiesVerified

namespace Compiles

/-- The code of statements ends plainly. -/
theorem endsPlainly {E E' : Env} {p : Phrase} {t : Assembly} (h : Compiles E p t E')
    (hp : p.isStatement = true) : t.EndsPlainly := by
  induction h with
  | expr | declare | declareZero | assign | ret | loop | declareFunction => exact .inr ⟨_, _, rfl⟩
  | retNull => exact .inr ⟨.done, _, rfl⟩
  | setField => exact .inr ⟨_, _, (Assembly.append_assoc _ _ _).symm⟩
  | @setIndex _ _ _ _ _ _ _ t u v =>
      exact .inr ⟨t ++ (u ++ v), _, by rw [Assembly.append_assoc, Assembly.append_assoc]⟩
  | structType | stmtsNil => exact .inl rfl
  | inner _ ih | block _ _ ih => exact ih rfl
  | stmtsCons _ _ ih₁ ih₂ => exact (ih₁ rfl).append (ih₂ rfl)
  | _ => cases hp

end Compiles

/-- Code that renders events leaves functions with verified bodies among the constants. -/
theorem Renders.bodiesVerified {E E' : Env} {es : List Event} {is : List Instruction}
    (h : Renders E es is E') (hpool : BodiesVerified E.pool) : BodiesVerified E'.pool := by
  induction h with
  | nil => exact hpool
  | skip _ _ _ ih | await _ _ ih | declare _ _ _ ih => exact ih hpool
  | keep v noFunction _ ih => exact ih (hpool.push fun f hf => absurd hf (noFunction f))
  | use resolved _ ih =>
      simp only [Env.resolve?, Option.map_eq_some_iff, Prod.mk.injEq] at resolved
      obtain ⟨⟨r, chain⟩, -, -, rfl⟩ := resolved
      exact ih hpool
  | introduce type _ ih => exact ih (hpool.push (by simp))
  | build type _ ih => exact ih (hpool.structConstant type)
  | @function E _ _ _ _ _ _ name signature _ _ _ _ isBody _ _ _ ihbody ih =>
      have hbody := ihbody (by rwa [(E.same_enter name signature).2])
      refine ih (hbody.push ?_)
      intro f hf
      cases hf
      exact isBody.isVerifiedBody

/-- The streams of a program that is compiled pass the verifier: the top level leaves nothing on the
stack, and the functions among the constants end with a return. -/
theorem compileProgram_passesVerifier {program : Program} {unit : Bytecode}
    (h : compileProgram program = .ok unit) :
    unit.code.IsVerifiedMain ∧
      ∀ (k : Nat) (f : Marked Function), unit.constants[k]? = some (.function f) →
        f.content.code.IsVerifiedBody := by
  obtain ⟨t, E', hunit⟩ := exists_compilesUnit h
  constructor
  · obtain ⟨heights, hverified, hend⟩ := Code.exists_verified hunit.contains hunit.size
      (hunit.rules.balanced Compiler.attends_new.sound 0) (hunit.rules.endsPlainly rfl)
    exact ⟨t.instrs 0, heights, hverified, hend⟩
  · intro k f hf
    have hnone : BodiesVerified Compiler.new.env.pool := by
      intro f hf
      cases Array.not_mem_empty _ hf
    have hbodies := (hunit.renders Compiler.attends_new).bodiesVerified hnone
    rw [← hunit.constants] at hbodies
    exact hbodies f (Array.mem_of_getElem? hf)

/-- A function with a loop around a choice, one branch of which returns and the other ends with a
declaration. -/
def branchesAndLoops : Program :=
  [.function ⟨"f", none, ⟨[("n", .int)], none⟩⟩
    [.loop (.bool true)
      [.expr (.cond (.bool false) [.ret (some (.ident "n"))]
        (some [.declare "x" true none (some (.int 1))]))]],
    .expr (.cond (.bool true) [.expr (.call (.ident "f") [.int 2] none)] none)]

theorem compileProgram_passesVerifier_branchesAndLoops :
    ∃ unit f, compileProgram branchesAndLoops = .ok unit ∧ unit.code.IsVerifiedMain ∧
      unit.constants[1]? = some (.function f) ∧ f.content.code.size = 27 ∧
      f.content.code.IsVerifiedBody := by
  have hsize : ((compileProgram branchesAndLoops).toOption.bind
      fun unit => (unit.constants[1]?.bind Value.function?).map fun f => f.code.size) =
        some 27 := by
    decide +kernel
  cases hunit : compileProgram branchesAndLoops with
  | error stop => simp [hunit, Except.toOption] at hsize
  | ok unit =>
      simp only [hunit, Except.toOption, Option.bind_some, Option.map_eq_some_iff,
        Option.bind_eq_some_iff, Value.function?_eq_some] at hsize
      obtain ⟨f, ⟨_, hf, mark, rfl⟩, hsize⟩ := hsize
      obtain ⟨hmain, hbodies⟩ := compileProgram_passesVerifier hunit
      exact ⟨unit, ⟨mark, f⟩, rfl, hmain, hf, hsize, hbodies 1 _ hf⟩

end ScriptEngine
