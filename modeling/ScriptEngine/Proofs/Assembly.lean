import ScriptEngine.Machine.Execute
import ScriptEngine.Proofs.Instruction.Layout

/-!
# Structured code

The jumps of compiled code come from choices and loops only.  An `Assembly` keeps this structure in
place of the jumps: where a piece of code starts determines the targets of all jumps in it.  The
number of values on the stack is counted along the structure (`Balanced`), and a balanced piece of
code gives, wherever it stands, a height to every place that a run can come to (`Flow`).
-/

namespace ScriptEngine

@[simp] theorem Instruction.width_jump (n : Nat) : (⟨.jump, [n]⟩ : Instruction).width = 3 :=
  rfl

@[simp] theorem Instruction.width_jumpNotTruthy (n : Nat) :
    (⟨.jumpNotTruthy, [n]⟩ : Instruction).width = 3 :=
  rfl

/-- Code whose jumps are those of choices and loops. -/
inductive Assembly
  | done
  | op (i : Instruction) (rest : Assembly)
  /-- A test, what is run if it is truthy, and what is run otherwise. -/
  | choice (test yes no rest : Assembly)
  /-- A test, and what is run again as long as it is truthy. -/
  | loop (test body rest : Assembly)

namespace Assembly

def size : Assembly → Nat
  | done => 0
  | op i rest => i.width + rest.size
  | choice test yes no rest => test.size + 3 + yes.size + 3 + no.size + rest.size
  | loop test body rest => test.size + 3 + body.size + 3 + rest.size

/-- The instructions of a piece of code that starts at an offset. -/
def instrs : Assembly → Nat → List Instruction
  | done, _ => []
  | op i rest, p => i :: rest.instrs (p + i.width)
  | choice test yes no rest, p =>
      let other := p + test.size + 3 + yes.size + 3
      test.instrs p ++ ⟨.jumpNotTruthy, [other]⟩ :: (yes.instrs (p + test.size + 3) ++
        ⟨.jump, [other + no.size]⟩ :: (no.instrs other ++ rest.instrs (other + no.size)))
  | loop test body rest, p =>
      let after := p + test.size + 3 + body.size + 3
      test.instrs p ++ ⟨.jumpNotTruthy, [after]⟩ :: (body.instrs (p + test.size + 3) ++
        ⟨.jump, [p]⟩ :: rest.instrs after)

def append : Assembly → Assembly → Assembly
  | done, u => u
  | op i rest, u => op i (rest.append u)
  | choice test yes no rest, u => choice test yes no (rest.append u)
  | loop test body rest, u => loop test body (rest.append u)

instance : Append Assembly := ⟨append⟩

def single (i : Instruction) : Assembly :=
  op i done

@[simp] theorem done_append (u : Assembly) : done ++ u = u :=
  rfl

@[simp] theorem op_append (i : Instruction) (rest u : Assembly) :
    op i rest ++ u = op i (rest ++ u) :=
  rfl

@[simp] theorem choice_append (test yes no rest u : Assembly) :
    choice test yes no rest ++ u = choice test yes no (rest ++ u) :=
  rfl

@[simp] theorem loop_append (test body rest u : Assembly) :
    loop test body rest ++ u = loop test body (rest ++ u) :=
  rfl

@[simp] theorem append_done (t : Assembly) : t ++ done = t := by
  induction t with
  | done => rfl
  | op i rest ih => simp [ih]
  | choice test yes no rest _ _ _ ih => simp [ih]
  | loop test body rest _ _ ih => simp [ih]

theorem append_assoc (t u v : Assembly) : t ++ u ++ v = t ++ (u ++ v) := by
  induction t with
  | done => rfl
  | op i rest ih => simp [ih]
  | choice test yes no rest _ _ _ ih => simp [ih]
  | loop test body rest _ _ ih => simp [ih]

@[simp] theorem size_append (t u : Assembly) : (t ++ u).size = t.size + u.size := by
  induction t with
  | done => simp [size]
  | op i rest ih => simp [size, ih, Nat.add_assoc]
  | choice test yes no rest _ _ _ ih => simp [size, ih, Nat.add_assoc]
  | loop test body rest _ _ ih => simp [size, ih, Nat.add_assoc]

@[simp] theorem size_single (i : Instruction) : (single i).size = i.width := by
  simp [single, size]

@[simp] theorem instrs_single (i : Instruction) (p : Nat) : (single i).instrs p = [i] :=
  rfl

theorem instrs_append (t u : Assembly) (p : Nat) :
    (t ++ u).instrs p = t.instrs p ++ u.instrs (p + t.size) := by
  induction t generalizing p with
  | done => simp [instrs, size]
  | op i rest ih => simp [instrs, size, ih, Nat.add_assoc]
  | choice test yes no rest _ _ _ ih => simp [instrs, size, ih, Nat.add_assoc]
  | loop test body rest _ _ ih => simp [instrs, size, ih, Nat.add_assoc]

@[simp] theorem totalWidth_instrs (t : Assembly) (p : Nat) : totalWidth (t.instrs p) = t.size := by
  induction t generalizing p with
  | done => rfl
  | op i rest ih => simp [instrs, size, ih]
  | choice test yes no rest htest hyes hno hrest =>
      simp [instrs, size, htest, hyes, hno, hrest]
      omega
  | loop test body rest htest hbody hrest =>
      simp [instrs, size, htest, hbody, hrest]
      omega

end Assembly

/-! ## Where the pieces stand -/

namespace Code.Contains

variable {c : Code} {p : Nat}

theorem pieces {t u : Assembly} (h : c.Contains p ((t ++ u).instrs p)) :
    c.Contains p (t.instrs p) ∧ c.Contains (p + t.size) (u.instrs (p + t.size)) := by
  rw [Assembly.instrs_append] at h
  exact ⟨h.append_left, by simpa using h.append_right⟩

/-- The pieces of a choice, and the jumps between them. -/
theorem choice {test yes no rest : Assembly}
    (h : c.Contains p ((Assembly.choice test yes no rest).instrs p)) :
    let other := p + test.size + 3 + yes.size + 3
    c.Contains p (test.instrs p) ∧
      c.decode (p + test.size) = .ok ⟨.jumpNotTruthy, [other]⟩ ∧
      c.Contains (p + test.size + 3) (yes.instrs (p + test.size + 3)) ∧
      c.decode (p + test.size + 3 + yes.size) = .ok ⟨.jump, [other + no.size]⟩ ∧
      c.Contains other (no.instrs other) ∧
      c.Contains (other + no.size) (rest.instrs (other + no.size)) := by
  intro other
  have hbranch := h.append_right
  rw [Assembly.totalWidth_instrs] at hbranch
  have hjump := hbranch.tail.append_right
  rw [Assembly.totalWidth_instrs] at hjump
  have hrest := hjump.tail.append_right
  rw [Assembly.totalWidth_instrs] at hrest
  exact ⟨h.append_left, hbranch.decode, hbranch.tail.append_left, hjump.decode,
    hjump.tail.append_left, hrest⟩

/-- The pieces of a loop, and the jumps between them. -/
theorem loop {test body rest : Assembly}
    (h : c.Contains p ((Assembly.loop test body rest).instrs p)) :
    let after := p + test.size + 3 + body.size + 3
    c.Contains p (test.instrs p) ∧
      c.decode (p + test.size) = .ok ⟨.jumpNotTruthy, [after]⟩ ∧
      c.Contains (p + test.size + 3) (body.instrs (p + test.size + 3)) ∧
      c.decode (p + test.size + 3 + body.size) = .ok ⟨.jump, [p]⟩ ∧
      c.Contains after (rest.instrs after) := by
  intro after
  have hbranch := h.append_right
  rw [Assembly.totalWidth_instrs] at hbranch
  have hjump := hbranch.tail.append_right
  rw [Assembly.totalWidth_instrs] at hjump
  exact ⟨h.append_left, hbranch.decode, hbranch.tail.append_left, hjump.decode, hjump.tail⟩

end Code.Contains

/-! ## Counting values -/

/-- Whether the opcode goes on elsewhere in the same code. -/
def Opcode.isJump : Opcode → Bool
  | jump | jumpNotTruthy => true
  | _ => false

namespace Instruction

/-- The number of values that an instruction takes from the stack. -/
def taken (i : Instruction) : Nat :=
  match i.opcode with
  | .add | .sub | .mul | .div | .equal | .notEqual | .greater | .greaterOrEqual | .and | .or
  | .index | .setField => 2
  | .negate | .not | .jumpNotTruthy | .setGlobal | .setConstGlobal | .setLocal | .setConstLocal
  | .returnValue | .getField | .pop => 1
  | .setIndex => 3
  | .array | .hash => i.operand 0
  | .call => i.operand 0 + 1
  | .closure | .struct => i.operand 1
  | _ => 0

/-- The number of values that an instruction puts on the stack. -/
def given (i : Instruction) : Nat :=
  match i.opcode with
  | .jump | .jumpNotTruthy | .setGlobal | .setConstGlobal | .setLocal | .setConstLocal | .setIndex
  | .returnValue | .returnNull | .setField | .pop => 0
  | _ => 1

/-- The number of values after an instruction. -/
def after (i : Instruction) (height : Nat) : Nat :=
  height - i.taken + i.given

/-- The offsets at which a run can go on after the instruction at an offset. -/
def Next (i : Instruction) (offset target : Nat) : Prop :=
  match i.opcode with
  | .jump => target = i.operand 0
  | .jumpNotTruthy => target = i.operand 0 ∨ target = offset + i.width
  | .returnValue | .returnNull => False
  | _ => target = offset + i.width

theorem next_eq {i : Instruction} {offset target : Nat} (h : i.Next offset target)
    (hjump : i.opcode.isJump = false) : target = offset + i.width := by
  unfold Next at h
  split at h <;> simp_all [Opcode.isJump]

end Instruction

namespace Assembly

/-- From a height, the code leads to another one: all its instructions are allowed, find the values
that they take, and the ways through a choice agree. -/
inductive Balanced (allowed : Instruction → Prop) : Nat → Assembly → Nat → Prop
  | done (h : Nat) : Balanced allowed h done h
  | op {i : Instruction} {rest : Assembly} {h k : Nat}
      (instruction : allowed i) (plain : i.opcode.isJump = false) (enough : i.taken ≤ h)
      (tail : Balanced allowed (i.after h) rest k) : Balanced allowed h (op i rest) k
  | choice {test yes no rest : Assembly} {h mid join k : Nat}
      (condition : Balanced allowed h test (mid + 1)) (left : Balanced allowed mid yes join)
      (right : Balanced allowed mid no join) (tail : Balanced allowed join rest k) :
      Balanced allowed h (choice test yes no rest) k
  | loop {test body rest : Assembly} {h k : Nat}
      (condition : Balanced allowed h test (h + 1)) (again : Balanced allowed h body h)
      (tail : Balanced allowed h rest k) : Balanced allowed h (loop test body rest) k

namespace Balanced

variable {allowed allowed' : Instruction → Prop}

theorem mono {h k : Nat} {t : Assembly} (hallowed : ∀ i, allowed i → allowed' i)
    (ht : Balanced allowed h t k) : Balanced allowed' h t k := by
  induction ht with
  | done h => exact done h
  | op instruction plain enough _ ih => exact op (hallowed _ instruction) plain enough ih
  | choice _ _ _ _ hcondition hleft hright htail =>
      exact choice hcondition hleft hright htail
  | loop _ _ _ hcondition hagain htail => exact loop hcondition hagain htail

/-- What holds of all instructions of a balanced piece of code can be demanded of them. -/
theorem of_forall_mem {h k p : Nat} {t : Assembly} (ht : Balanced allowed h t k)
    (hallowed : ∀ i ∈ t.instrs p, allowed' i) : Balanced allowed' h t k := by
  induction ht generalizing p with
  | done h => exact done h
  | op _ plain enough _ ih =>
      rw [instrs, List.forall_mem_cons] at hallowed
      exact op hallowed.1 plain enough (ih hallowed.2)
  | choice _ _ _ _ hcondition hleft hright htail =>
      simp only [instrs, List.forall_mem_append, List.forall_mem_cons] at hallowed
      obtain ⟨htest, -, hyes, -, hno, hrest⟩ := hallowed
      exact choice (hcondition htest) (hleft hyes) (hright hno) (htail hrest)
  | loop _ _ _ hcondition hagain htail =>
      simp only [instrs, List.forall_mem_append, List.forall_mem_cons] at hallowed
      obtain ⟨htest, -, hbody, -, hrest⟩ := hallowed
      exact loop (hcondition htest) (hagain hbody) (htail hrest)

theorem append {h k l : Nat} {t u : Assembly}
    (ht : Balanced allowed h t k) (hu : Balanced allowed k u l) :
    Balanced allowed h (t ++ u) l := by
  induction ht with
  | done h => exact hu
  | op instruction plain enough _ ih => exact op instruction plain enough (ih hu)
  | choice condition left right _ _ _ _ ih => exact choice condition left right (ih hu)
  | loop condition again _ _ _ ih => exact loop condition again (ih hu)

theorem single {h : Nat} {i : Instruction}
    (instruction : allowed i) (plain : i.opcode.isJump = false) (enough : i.taken ≤ h) :
    Balanced allowed h (single i) (i.after h) :=
  op instruction plain enough (done _)

/-- There is a height between two pieces of balanced code. -/
theorem append_inv {h k : Nat} {t u : Assembly} (ht : Balanced allowed h (t ++ u) k) :
    ∃ mid, Balanced allowed h t mid ∧ Balanced allowed mid u k := by
  induction t generalizing h with
  | done => exact ⟨h, done h, ht⟩
  | op j rest ih =>
      cases ht with
      | op instruction plain enough tail =>
          obtain ⟨mid, hrest, hu⟩ := ih tail
          exact ⟨mid, op instruction plain enough hrest, hu⟩
  | choice test yes no rest _ _ _ ih =>
      cases ht with
      | choice condition left right tail =>
          obtain ⟨mid, hrest, hu⟩ := ih tail
          exact ⟨mid, choice condition left right hrest, hu⟩
  | loop test body rest _ _ ih =>
      cases ht with
      | loop condition again tail =>
          obtain ⟨mid, hrest, hu⟩ := ih tail
          exact ⟨mid, loop condition again hrest, hu⟩

/-- The height before the last instruction is determined by the height after it. -/
theorem append_single_inv {h k : Nat} {t : Assembly} {i : Instruction}
    (ht : Balanced allowed h (t ++ Assembly.single i) k) :
    ∃ mid, Balanced allowed h t mid ∧ allowed i ∧ i.taken ≤ mid ∧ k = i.after mid := by
  obtain ⟨mid, hrest, hlast⟩ := ht.append_inv
  cases hlast with
  | op instruction _ enough tail =>
      cases tail with
      | done => exact ⟨mid, hrest, instruction, enough, rfl⟩

end Balanced

/-! ## Heights at offsets -/

/-- An instruction stands at the offset and finds what it takes at the height; wherever the run goes
on, the pair of offset and height there satisfies `onward`. -/
def StepsTo (allowed : Instruction → Prop) (c : Code) (onward : Nat → Nat → Prop)
    (offset height : Nat) : Prop :=
  ∃ i, c.decode offset = .ok i ∧ (i.opcode.isJump = false → allowed i) ∧ i.taken ≤ height ∧
    ∀ target, i.Next offset target → onward target (i.after height)

theorem StepsTo.mono {allowed : Instruction → Prop} {c : Code} {onward onward' : Nat → Nat → Prop}
    {offset height : Nat} (h : StepsTo allowed c onward offset height)
    (honward : ∀ o m, onward o m → onward' o m) : StepsTo allowed c onward' offset height := by
  obtain ⟨i, hdecode, hallowed, henough, hnext⟩ := h
  exact ⟨i, hdecode, hallowed, henough, fun target ht => honward _ _ (hnext target ht)⟩

/-- The code is entered at `p` with height `h` and left at `q` with height `k`.  In between, a run
is at offsets and heights that `within` relates. -/
structure Flow (allowed : Instruction → Prop) (c : Code) (p h q k : Nat)
    (within : Nat → Nat → Prop) : Prop where
  enter : within p h ∨ (p = q ∧ h = k)
  step : ∀ o m, within o m →
    StepsTo allowed c (fun o' m' => within o' m' ∨ (o' = q ∧ m' = k)) o m

namespace Flow

variable {allowed : Instruction → Prop} {c : Code} {p h q k : Nat}
  {within onward : Nat → Nat → Prop}

/-- A step within a piece of code stays in any larger relation that contains the way out. -/
theorem step_into (F : Flow allowed c p h q k within)
    (hwithin : ∀ o m, within o m → onward o m) (hexit : onward q k) {o m : Nat}
    (hm : within o m) : StepsTo allowed c onward o m := by
  apply (F.step o m hm).mono
  rintro o' m' (hin | ⟨rfl, rfl⟩)
  · exact hwithin o' m' hin
  · exact hexit

/-- Entering a piece of code leads into any larger relation that contains the way out. -/
theorem enter_into (F : Flow allowed c p h q k within)
    (hwithin : ∀ o m, within o m → onward o m) (hexit : onward q k) : onward p h := by
  rcases F.enter with hin | ⟨rfl, rfl⟩
  · exact hwithin p h hin
  · exact hexit

end Flow

/-- Balanced code gives heights to the places of a run wherever it stands. -/
theorem flow_of_balanced {allowed : Instruction → Prop} {c : Code} {h k : Nat} {t : Assembly}
    (ht : Balanced allowed h t k) :
    ∀ {p : Nat}, c.Contains p (t.instrs p) →
      ∃ within, Flow allowed c p h (p + t.size) k within := by
  induction ht with
  | done h =>
      intro p _
      exact ⟨fun _ _ => False, Or.inr ⟨by simp [size], rfl⟩, fun _ _ hin => hin.elim⟩
  | @op i rest h k instruction plain enough _ ih =>
      intro p hcode
      obtain ⟨later, F⟩ := ih hcode.tail
      have hend : p + (op i rest).size = p + i.width + rest.size := by simp [size]; omega
      rw [hend]
      let within (o m : Nat) : Prop := (o = p ∧ m = h) ∨ later o m
      have hlater : ∀ o m, later o m → within o m ∨ (o = p + i.width + rest.size ∧ m = k) :=
        fun o m hin => Or.inl (Or.inr hin)
      have hrest : within (p + i.width) (i.after h) ∨
          (p + i.width = p + i.width + rest.size ∧ i.after h = k) :=
        F.enter.imp_left Or.inr
      refine ⟨within, Or.inl (Or.inl ⟨rfl, rfl⟩), ?_⟩
      rintro o m (⟨rfl, rfl⟩ | hin)
      · refine ⟨i, hcode.decode, fun _ => instruction, enough, ?_⟩
        intro target hnext
        rw [Instruction.next_eq hnext plain]
        exact hrest
      · exact F.step_into hlater (Or.inr ⟨rfl, rfl⟩) hin
  | @choice test yes no rest h mid join k _ _ _ _ ihtest ihyes ihno ihrest =>
      intro p hcode
      obtain ⟨htest, hbranch, hyes, hjump, hno, hrest⟩ := hcode.choice
      obtain ⟨inTest, Ftest⟩ := ihtest htest
      obtain ⟨inYes, Fyes⟩ := ihyes hyes
      obtain ⟨inNo, Fno⟩ := ihno hno
      obtain ⟨inRest, Frest⟩ := ihrest hrest
      have hend : p + (choice test yes no rest).size =
          p + test.size + 3 + yes.size + 3 + no.size + rest.size := by simp [size]; omega
      rw [hend]
      let within (o m : Nat) : Prop :=
        inTest o m ∨ (o = p + test.size ∧ m = mid + 1) ∨ inYes o m ∨
          (o = p + test.size + 3 + yes.size ∧ m = join) ∨ inNo o m ∨ inRest o m
      let onward (o m : Nat) : Prop :=
        within o m ∨ (o = p + test.size + 3 + yes.size + 3 + no.size + rest.size ∧ m = k)
      have subTest : ∀ o m, inTest o m → onward o m := fun o m hin => by simp [onward, within, hin]
      have subYes : ∀ o m, inYes o m → onward o m := fun o m hin => by simp [onward, within, hin]
      have subNo : ∀ o m, inNo o m → onward o m := fun o m hin => by simp [onward, within, hin]
      have subRest : ∀ o m, inRest o m → onward o m := fun o m hin => by simp [onward, within, hin]
      have atBranch : onward (p + test.size) (mid + 1) := by simp [onward, within]
      have atJump : onward (p + test.size + 3 + yes.size) join := by simp [onward, within]
      have atEnd : onward (p + test.size + 3 + yes.size + 3 + no.size + rest.size) k :=
        Or.inr ⟨rfl, rfl⟩
      have atRest : onward (p + test.size + 3 + yes.size + 3 + no.size) join :=
        Frest.enter_into subRest atEnd
      have atYes : onward (p + test.size + 3) mid := Fyes.enter_into subYes atJump
      have atNo : onward (p + test.size + 3 + yes.size + 3) mid := Fno.enter_into subNo atRest
      refine ⟨within, Ftest.enter_into subTest atBranch, ?_⟩
      rintro o m (hin | ⟨rfl, rfl⟩ | hin | ⟨rfl, rfl⟩ | hin | hin)
      · exact Ftest.step_into subTest atBranch hin
      · refine ⟨_, hbranch, by simp [Opcode.isJump], by simp [Instruction.taken], ?_⟩
        rintro target (rfl | rfl)
        · exact atNo
        · exact atYes
      · exact Fyes.step_into subYes atJump hin
      · refine ⟨_, hjump, by simp [Opcode.isJump], by simp [Instruction.taken], ?_⟩
        rintro target rfl
        exact atRest
      · exact Fno.step_into subNo atRest hin
      · exact Frest.step_into subRest atEnd hin
  | @loop test body rest h k _ _ _ ihtest ihbody ihrest =>
      intro p hcode
      obtain ⟨htest, hbranch, hbody, hjump, hrest⟩ := hcode.loop
      obtain ⟨inTest, Ftest⟩ := ihtest htest
      obtain ⟨inBody, Fbody⟩ := ihbody hbody
      obtain ⟨inRest, Frest⟩ := ihrest hrest
      have hend : p + (loop test body rest).size =
          p + test.size + 3 + body.size + 3 + rest.size := by simp [size]; omega
      rw [hend]
      let within (o m : Nat) : Prop :=
        inTest o m ∨ (o = p + test.size ∧ m = h + 1) ∨ inBody o m ∨
          (o = p + test.size + 3 + body.size ∧ m = h) ∨ inRest o m
      let onward (o m : Nat) : Prop :=
        within o m ∨ (o = p + test.size + 3 + body.size + 3 + rest.size ∧ m = k)
      have subTest : ∀ o m, inTest o m → onward o m := fun o m hin => by simp [onward, within, hin]
      have subBody : ∀ o m, inBody o m → onward o m := fun o m hin => by simp [onward, within, hin]
      have subRest : ∀ o m, inRest o m → onward o m := fun o m hin => by simp [onward, within, hin]
      have atBranch : onward (p + test.size) (h + 1) := by simp [onward, within]
      have atJump : onward (p + test.size + 3 + body.size) h := by simp [onward, within]
      have atEnd : onward (p + test.size + 3 + body.size + 3 + rest.size) k := Or.inr ⟨rfl, rfl⟩
      have atTest : onward p h := Ftest.enter_into subTest atBranch
      have atRest : onward (p + test.size + 3 + body.size + 3) h :=
        Frest.enter_into subRest atEnd
      have atBody : onward (p + test.size + 3) h := Fbody.enter_into subBody atJump
      refine ⟨within, atTest, ?_⟩
      rintro o m (hin | ⟨rfl, rfl⟩ | hin | ⟨rfl, rfl⟩ | hin)
      · exact Ftest.step_into subTest atBranch hin
      · refine ⟨_, hbranch, by simp [Opcode.isJump], by simp [Instruction.taken], ?_⟩
        rintro target (rfl | rfl)
        · exact atRest
        · exact atBody
      · exact Fbody.step_into subBody atJump hin
      · refine ⟨_, hjump, by simp [Opcode.isJump], by simp [Instruction.taken], ?_⟩
        rintro target rfl
        exact atTest
      · exact Frest.step_into subRest atEnd hin

end Assembly

end ScriptEngine
