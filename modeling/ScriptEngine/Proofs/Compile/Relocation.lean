import Mathlib.Data.List.Forall2
import ScriptEngine.Proofs.Compile.Verification

/-!
# The same code further on

Structured code that stands further on in another code has the same instructions there, except that
its jumps lead further by as much.  Hence a run of the code alone finds, instruction by instruction,
what a run of the other code finds from that place on (`Code.Embeds`).
-/

namespace ScriptEngine

/-- An instruction and the same one further on: a jump leads further by as much. -/
structure Instruction.Shifted (shift : Nat) (i j : Instruction) : Prop where
  opcode : j.opcode = i.opcode
  jump : i.opcode.isJump = true → j.operand 0 = i.operand 0 + shift
  other : i.opcode.isJump = false → j = i

namespace Instruction.Shifted

variable {shift : Nat} {i j : Instruction}

theorem refl (i : Instruction) : i.Shifted 0 i :=
  ⟨rfl, fun _ => rfl, fun _ => rfl⟩

theorem of_plain (hi : i.opcode.isJump = false) : i.Shifted shift i := by
  refine ⟨rfl, fun hjump => ?_, fun _ => rfl⟩
  rw [hi] at hjump
  cases hjump

theorem of_target {op : Opcode} (hop : op.isJump = true) (target : Nat) :
    (⟨op, [target]⟩ : Instruction).Shifted shift ⟨op, [target + shift]⟩ := by
  refine ⟨rfl, fun _ => rfl, fun hplain => ?_⟩
  simp [hop] at hplain

theorem width_eq (h : i.Shifted shift j) : j.width = i.width := by
  rw [width, width, h.opcode]

theorem taken_eq (h : i.Shifted shift j) : j.taken = i.taken := by
  cases hjump : i.opcode.isJump with
  | false => rw [h.other hjump]
  | true =>
      obtain ⟨op, ns⟩ := i
      obtain ⟨op', ns'⟩ := j
      obtain rfl : op' = op := h.opcode
      cases op' with
      | jump | jumpNotTruthy => rfl
      | _ => cases hjump

end Instruction.Shifted

namespace Assembly

theorem totalWidth_eq_of_shifted {shift : Nat} {is js : List Instruction}
    (h : List.Forall₂ (Instruction.Shifted shift) is js) : totalWidth js = totalWidth is := by
  induction h with
  | nil => rfl
  | cons hi _ ih => rw [totalWidth_cons, totalWidth_cons, hi.width_eq, ih]

/-- Further on, the instructions of balanced code are the same ones, shifted. -/
theorem Balanced.instrs_shifted {allowed : Instruction → Prop} {h k : Nat} {t : Assembly}
    (ht : Balanced allowed h t k) (p shift : Nat) :
    List.Forall₂ (Instruction.Shifted shift) (t.instrs p) (t.instrs (p + shift)) := by
  have hplace (p n : Nat) : p + shift + n = p + n + shift := by omega
  induction ht generalizing p with
  | done => exact .nil
  | op _ plain _ _ ih =>
      rw [instrs, instrs, hplace]
      exact .cons (.of_plain plain) (ih _)
  | choice _ _ _ _ ihtest ihyes ihno ihrest =>
      simp only [instrs, hplace]
      refine List.rel_append (ihtest p) (.cons (.of_target rfl _) ?_)
      refine List.rel_append (ihyes _) (.cons (.of_target rfl _) ?_)
      exact List.rel_append (ihno _) (ihrest _)
  | loop _ _ _ ihtest ihbody ihrest =>
      simp only [instrs, hplace]
      refine List.rel_append (ihtest p) (.cons (.of_target rfl _) ?_)
      exact List.rel_append (ihbody _) (.cons (.of_target rfl _) (ihrest _))

/-- Balanced code that gives a value has an instruction. -/
theorem Balanced.instrs_ne_nil {allowed : Instruction → Prop} {k p : Nat} {t : Assembly}
    (ht : Balanced allowed 0 t (k + 1)) : t.instrs p ≠ [] := by
  cases ht <;> simp [instrs]

/-- Balanced code that finds the stack empty does not begin with a jump. -/
theorem Balanced.head_plain {allowed : Instruction → Prop} {k p : Nat} {t : Assembly}
    {i : Instruction} {is : List Instruction} (ht : Balanced allowed 0 t k)
    (hi : t.instrs p = i :: is) : i.opcode.isJump = false := by
  induction t generalizing i is k with
  | done => cases hi
  | op j rest _ =>
      cases ht with
      | op _ plain _ _ =>
          cases hi
          exact plain
  -- the test of a choice or a loop gives a value, so that it comes before the jump
  | choice test yes no rest ihtest _ _ _ =>
      cases ht with
      | choice condition _ _ _ =>
          obtain ⟨j, js, hj⟩ := List.exists_cons_of_ne_nil (condition.instrs_ne_nil (p := p))
          rw [instrs, hj] at hi
          cases hi
          exact ihtest condition hj
  | loop test body rest ihtest _ _ =>
      cases ht with
      | loop condition _ _ =>
          obtain ⟨j, js, hj⟩ := List.exists_cons_of_ne_nil (condition.instrs_ne_nil (p := p))
          rw [instrs, hj] at hi
          cases hi
          exact ihtest condition hj

end Assembly

namespace Code

open Assembly

variable {allowed : Instruction → Prop} {t : Assembly} {height : Nat} {c part whole : Code}

/-- A step of balanced code leads from a place between two of its instructions to another one, or to
its end. -/
theorem between_next {h p offset target : Nat} {i : Instruction} (ht : Balanced allowed h t height)
    (hcode : c.Contains p (t.instrs p)) (hsize : c.size = p + t.size)
    (ho : Between p (t.instrs p) offset) (here : c.decode offset = .ok i)
    (onward : i.Next offset target) : Between p (t.instrs p) target := by
  obtain ⟨before, after, hinstrs, hoffset⟩ := ho
  cases after with
  | nil =>
      rw [List.append_nil] at hinstrs
      rw [hoffset, ← hinstrs, totalWidth_instrs, ← hsize] at here
      exact absurd here not_decode_size
  | cons j after =>
      rw [hinstrs] at hcode
      have hdecode := hcode.append_right.decode
      rw [← hoffset, here] at hdecode
      cases hdecode
      have hpast : Between p (t.instrs p) (offset + i.width) := by
        refine ⟨before ++ [i], after, by simp [hinstrs], ?_⟩
        simp [hoffset, Nat.add_assoc]
      cases hjump : i.opcode.isJump with
      | false =>
          rw [Instruction.next_eq onward hjump]
          exact hpast
      | true =>
          have hmem : (offset, i) ∈ placedFrom p (t.instrs p) := by
            simp [hinstrs, placedFrom, hoffset]
          have htarget := ht.between_of_isJump p _ hmem hjump
          obtain ⟨op, ns⟩ := i
          cases op with
          | jump =>
              obtain rfl : target = _ := onward
              exact htarget
          | jumpNotTruthy =>
              rcases onward with rfl | rfl
              · exact htarget
              · exact hpast
          | _ => cases hjump

/-- A run of balanced code is always between two of its instructions, or at its end. -/
theorem Reaches.between {offset : Nat} (ho : c.Reaches offset) (hcode : c.Contains 0 (t.instrs 0))
    (hsize : c.size = t.size) (ht : Balanced allowed 0 t height) :
    Between 0 (t.instrs 0) offset := by
  induction ho with
  | start => exact ⟨[], t.instrs 0, rfl, rfl⟩
  | next _ here onward ih => exact between_next ht hcode (by omega) ih here onward

/-- Every instruction to which a run of a code comes is also found further on in another code,
shifted. -/
def Embeds (part whole : Code) (shift : Nat) : Prop :=
  ∀ offset i, part.Reaches offset → part.decode offset = .ok i →
    ∃ j, whole.decode (offset + shift) = .ok j ∧ i.Shifted shift j

theorem embeds_of_balanced {shift : Nat} (hpart : part.Contains 0 (t.instrs 0))
    (hsize : part.size = t.size) (hwhole : whole.Contains shift (t.instrs shift))
    (ht : Balanced allowed 0 t height) : part.Embeds whole shift := by
  intro offset i hreaches hi
  obtain ⟨before, after, hinstrs, hoffset⟩ := hreaches.between hpart hsize ht
  rw [Nat.zero_add] at hoffset
  have hshifted := ht.instrs_shifted 0 shift
  rw [hinstrs, Nat.zero_add] at hshifted
  have htake := List.forall₂_take before.length hshifted
  have hdrop := List.forall₂_drop before.length hshifted
  rw [List.take_left] at htake
  rw [List.drop_left] at hdrop
  rw [← List.take_append_drop before.length (t.instrs shift)] at hwhole
  rw [hinstrs] at hpart
  have hrest := hpart.append_right
  have hrest' := hwhole.append_right
  rw [Nat.zero_add, ← hoffset] at hrest
  rw [totalWidth_eq_of_shifted htake, ← hoffset, Nat.add_comm] at hrest'
  cases hafter : after with
  | nil =>
      have hend : offset = part.size := by
        rw [hsize, hoffset, ← totalWidth_instrs t 0, hinstrs, hafter, List.append_nil]
      rw [hend] at hi
      exact absurd hi not_decode_size
  | cons j rest =>
      rw [hafter] at hrest hdrop
      cases hlist : (t.instrs shift).drop before.length with
      | nil => simp [hlist] at hdrop
      | cons j' rest' =>
          rw [hlist] at hrest' hdrop
          have hdecode := hrest.decode
          rw [hi] at hdecode
          cases hdecode
          cases hdrop with
          | cons hij _ => exact ⟨j', hrest'.decode, hij⟩

end Code

end ScriptEngine
