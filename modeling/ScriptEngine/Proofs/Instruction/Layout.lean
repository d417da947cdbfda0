import ScriptEngine.Instruction.Code

/-!
# Instructions laid out in a code

An instruction that can be written is read back wherever its bytes stand in a code.  A list of
instructions is written one after another; `Code.Adds` says that a code continues another one by
such a list, which is how code under construction grows.
-/

namespace ScriptEngine

/-! ## Where bytes stand -/

namespace Code

/-- The bytes stand in the code from an offset on. -/
def Holds (c : Code) (offset : Nat) (bs : List UInt8) : Prop :=
  ∃ before after, c.bytes.toList = before ++ bs ++ after ∧ before.length = offset

theorem Holds.append_left {c : Code} {offset : Nat} {as bs : List UInt8}
    (h : c.Holds offset (as ++ bs)) : c.Holds offset as := by
  obtain ⟨before, after, hbytes, hlength⟩ := h
  exact ⟨before, bs ++ after, by simpa using hbytes, hlength⟩

theorem Holds.append_right {c : Code} {offset : Nat} {as bs : List UInt8}
    (h : c.Holds offset (as ++ bs)) : c.Holds (offset + as.length) bs := by
  obtain ⟨before, after, hbytes, hlength⟩ := h
  exact ⟨before ++ as, after, by simpa using hbytes, by simp [hlength]⟩

theorem Holds.tail {c : Code} {offset : Nat} {b : UInt8} {bs : List UInt8}
    (h : c.Holds offset (b :: bs)) : c.Holds (offset + 1) bs := by
  have hcons : c.Holds offset ([b] ++ bs) := h
  exact hcons.append_right

theorem Holds.getElem? {c : Code} {offset : Nat} {b : UInt8} {bs : List UInt8}
    (h : c.Holds offset (b :: bs)) : c.bytes[offset]? = some b := by
  obtain ⟨before, after, hbytes, rfl⟩ := h
  rw [← Array.getElem?_toList, hbytes]
  simp

/-- A number that fits its width is read back. -/
theorem read_of_holds {c : Code} {offset n : Nat} {w : Width}
    (h : c.Holds offset (w.encode n)) (hn : n < w.bound) : c.read offset w = .ok n := by
  cases w with
  | byte =>
      have hn : n < 256 := hn
      have hbyte := Holds.getElem? h
      simp only [read, readByte, hbyte, Nat.toUInt8, UInt8.toNat_ofNat', Except.ok.injEq]
      omega
  | word =>
      have hn : n < 65536 := hn
      have hhigh := Holds.getElem? h
      have hlow := Holds.getElem? (Holds.tail h)
      simp only [read, readWord, hhigh, hlow, Nat.toUInt8, UInt8.toNat_ofNat', Except.ok.injEq]
      omega

end Code

/-! ## One instruction -/

namespace Opcode

theorem encodeOperands_cons {op : Opcode} {w : Width} {ws : List Width} {n : Nat} {ns : List Nat}
    {bs : List UInt8} (h : op.encodeOperands (w :: ws) (n :: ns) = .ok bs) :
    n < w.bound ∧ ∃ rest, op.encodeOperands ws ns = .ok rest ∧ bs = w.encode n ++ rest := by
  rw [encodeOperands] at h
  split at h
  next hn =>
    refine ⟨hn, ?_⟩
    cases hrest : op.encodeOperands ws ns with
    | error e => simp [hrest, Except.map] at h
    | ok rest =>
        simp only [hrest, Except.map, Except.ok.injEq] at h
        exact ⟨rest, rfl, h.symm⟩
  next => cases h

/-- Operands that can be written take the room that their widths say. -/
theorem length_encodeOperands {op : Opcode} :
    ∀ {ws : List Width} {ns : List Nat} {bs : List UInt8},
      ns.length = ws.length → op.encodeOperands ws ns = .ok bs →
        1 + bs.length = ws.foldr (fun w n => w.bytes + n) 1
  | [], [], bs, _, h => by
      cases h
      rfl
  | w :: ws, n :: ns, bs, hlength, h => by
      obtain ⟨-, rest, hrest, rfl⟩ := encodeOperands_cons h
      have ih := length_encodeOperands (by simpa using hlength) hrest
      have hw : (w.encode n).length = w.bytes := by cases w <;> rfl
      simp only [List.length_append, hw, List.foldr_cons]
      omega
  | [], _ :: _, _, hlength, _ => by simp at hlength
  | _ :: _, [], _, hlength, _ => by simp at hlength

/-- Operands that can be written are read back one by one. -/
theorem readOperands_of_holds {op : Opcode} {c : Code} :
    ∀ {ws : List Width} {ns : List Nat} {bs : List UInt8} {offset : Nat},
      ns.length = ws.length → op.encodeOperands ws ns = .ok bs → c.Holds offset bs →
        c.readOperands offset ws = .ok ns
  | [], [], _, _, _, _, _ => rfl
  | w :: ws, n :: ns, bs, offset, hlength, h, hholds => by
      obtain ⟨hn, rest, hrest, rfl⟩ := encodeOperands_cons h
      have hread := Code.read_of_holds hholds.append_left hn
      have hw : (w.encode n).length = w.bytes := by cases w <;> rfl
      have ih := readOperands_of_holds (by simpa using hlength) hrest hholds.append_right
      rw [hw] at ih
      simp [Code.readOperands, hread, ih, Except.map]
  | [], _ :: _, _, _, hlength, _, _ => by simp at hlength
  | _ :: _, [], _, _, hlength, _, _ => by simp at hlength

end Opcode

namespace Instruction

/-- What can be written begins with the byte of its opcode, followed by the operands. -/
theorem encode_eq_ok {i : Instruction} {bs : List UInt8} (h : i.encode = .ok bs) :
    i.operands.length = i.opcode.operandWidths.length ∧
      ∃ rest, i.opcode.encodeOperands i.opcode.operandWidths i.operands = .ok rest ∧
        bs = i.opcode.toByte :: rest := by
  rw [encode, Opcode.encode] at h
  split at h
  next hlength =>
    refine ⟨hlength, ?_⟩
    cases hrest : i.opcode.encodeOperands i.opcode.operandWidths i.operands with
    | error e => simp [hrest, Except.map] at h
    | ok rest =>
        simp only [hrest, Except.map, Except.ok.injEq] at h
        exact ⟨rest, rfl, h.symm⟩
  next => cases h

theorem length_of_encode {i : Instruction} {bs : List UInt8} (h : i.encode = .ok bs) :
    bs.length = i.width := by
  obtain ⟨hlength, rest, hrest, rfl⟩ := encode_eq_ok h
  have hwidth := Opcode.length_encodeOperands hlength hrest
  simp only [List.length_cons, width, Opcode.width]
  omega

/-- An instruction that can be written is read back where its bytes stand. -/
theorem decode_of_holds {i : Instruction} {c : Code} {offset : Nat} {bs : List UInt8}
    (h : i.encode = .ok bs) (hholds : c.Holds offset bs) : c.decode offset = .ok i := by
  obtain ⟨hlength, rest, hrest, rfl⟩ := encode_eq_ok h
  have hbyte := hholds.getElem?
  have hread := Opcode.readOperands_of_holds hlength hrest hholds.tail
  simp [Code.decode, hbyte, hread]

end Instruction

/-! ## Lists of instructions -/

/-- The bytes are those of the instructions, one after another. -/
inductive Written : List Instruction → List UInt8 → Prop
  | nil : Written [] []
  | cons {i : Instruction} {is : List Instruction} {bs cs : List UInt8}
      (head : i.encode = .ok bs) (tail : Written is cs) : Written (i :: is) (bs ++ cs)

def totalWidth (is : List Instruction) : Nat :=
  is.foldr (fun i n => i.width + n) 0

@[simp] theorem totalWidth_nil : totalWidth [] = 0 :=
  rfl

@[simp] theorem totalWidth_cons (i : Instruction) (is : List Instruction) :
    totalWidth (i :: is) = i.width + totalWidth is :=
  rfl

@[simp] theorem totalWidth_append (is js : List Instruction) :
    totalWidth (is ++ js) = totalWidth is + totalWidth js := by
  induction is with
  | nil => simp
  | cons i is ih => simp [ih, Nat.add_assoc]

namespace Written

theorem length {is : List Instruction} {bs : List UInt8} (h : Written is bs) :
    bs.length = totalWidth is := by
  induction h with
  | nil => rfl
  | cons head _ ih => simp [Instruction.length_of_encode head, ih]

theorem single {i : Instruction} {bs : List UInt8} (h : i.encode = .ok bs) : Written [i] bs := by
  simpa using cons h nil

theorem append {is js : List Instruction} {as bs : List UInt8}
    (his : Written is as) (hjs : Written js bs) : Written (is ++ js) (as ++ bs) := by
  induction his with
  | nil => exact hjs
  | cons head _ ih =>
      rw [List.append_assoc]
      exact cons head ih

theorem append_inv {is js : List Instruction} {bs : List UInt8} (h : Written (is ++ js) bs) :
    ∃ as cs, Written is as ∧ Written js cs ∧ bs = as ++ cs := by
  induction is generalizing bs with
  | nil => exact ⟨[], bs, nil, h, rfl⟩
  | cons i is ih =>
      cases h with
      | cons head tail =>
          obtain ⟨as, cs, his, hjs, rfl⟩ := ih tail
          exact ⟨_, cs, cons head his, hjs, by simp⟩

theorem cons_inv {i : Instruction} {is : List Instruction} {bs : List UInt8}
    (h : Written (i :: is) bs) :
    ∃ as cs, i.encode = .ok as ∧ Written is cs ∧ bs = as ++ cs := by
  cases h with
  | cons head tail => exact ⟨_, _, head, tail, rfl⟩

end Written

namespace Code

/-- The instructions stand in the code from an offset on. -/
def Contains (c : Code) (offset : Nat) (is : List Instruction) : Prop :=
  ∃ bs, Written is bs ∧ c.Holds offset bs

namespace Contains

theorem append_left {c : Code} {offset : Nat} {is js : List Instruction}
    (h : c.Contains offset (is ++ js)) : c.Contains offset is := by
  obtain ⟨bs, hwritten, hholds⟩ := h
  obtain ⟨as, cs, his, -, rfl⟩ := hwritten.append_inv
  exact ⟨as, his, hholds.append_left⟩

theorem append_right {c : Code} {offset : Nat} {is js : List Instruction}
    (h : c.Contains offset (is ++ js)) : c.Contains (offset + totalWidth is) js := by
  obtain ⟨bs, hwritten, hholds⟩ := h
  obtain ⟨as, cs, his, hjs, rfl⟩ := hwritten.append_inv
  exact ⟨cs, hjs, his.length ▸ hholds.append_right⟩

theorem decode {c : Code} {offset : Nat} {i : Instruction} {is : List Instruction}
    (h : c.Contains offset (i :: is)) : c.decode offset = .ok i := by
  obtain ⟨bs, hwritten, hholds⟩ := h
  obtain ⟨as, cs, head, -, rfl⟩ := hwritten.cons_inv
  exact Instruction.decode_of_holds head hholds.append_left

theorem tail {c : Code} {offset : Nat} {i : Instruction} {is : List Instruction}
    (h : c.Contains offset (i :: is)) : c.Contains (offset + i.width) is := by
  have hcons : c.Contains offset ([i] ++ is) := h
  simpa using hcons.append_right

end Contains

/-- The second code is the first one continued by the instructions. -/
def Adds (c : Code) (is : List Instruction) (c' : Code) : Prop :=
  ∃ bs, Written is bs ∧ c'.bytes.toList = c.bytes.toList ++ bs

namespace Adds

theorem refl (c : Code) : c.Adds [] c :=
  ⟨[], .nil, by simp⟩

theorem trans {c₁ c₂ c₃ : Code} {is js : List Instruction}
    (h₁ : c₁.Adds is c₂) (h₂ : c₂.Adds js c₃) : c₁.Adds (is ++ js) c₃ := by
  obtain ⟨as, his, hbytes₁⟩ := h₁
  obtain ⟨bs, hjs, hbytes₂⟩ := h₂
  exact ⟨as ++ bs, his.append hjs, by rw [hbytes₂, hbytes₁, List.append_assoc]⟩

theorem size {c c' : Code} {is : List Instruction} (h : c.Adds is c') :
    c'.size = c.size + totalWidth is := by
  obtain ⟨bs, his, hbytes⟩ := h
  have hlength := congrArg List.length hbytes
  simpa [Code.size, his.length] using hlength

/-- What was added stands where the first code ended. -/
theorem contains {c c' : Code} {is : List Instruction} (h : c.Adds is c') :
    c'.Contains c.size is := by
  obtain ⟨bs, his, hbytes⟩ := h
  exact ⟨bs, his, c.bytes.toList, [], by simpa using hbytes, by simp [Code.size]⟩

end Adds

/-! ## Editing a code -/

theorem adds_append {c : Code} {i : Instruction} {bs : List UInt8} (h : i.encode = .ok bs) :
    c.Adds [i] (c.append bs) :=
  ⟨bs, .single h, by simp [append]⟩

/-- Cutting a code where added instructions begin takes them away. -/
theorem adds_truncate {c c' : Code} {is js : List Instruction} (h : c.Adds (is ++ js) c') :
    c.Adds is (c'.truncate (c.size + totalWidth is)) := by
  obtain ⟨bs, hwritten, hbytes⟩ := h
  obtain ⟨as, cs, his, -, rfl⟩ := hwritten.append_inv
  have hlength : c.size + totalWidth is = (c.bytes.toList ++ as).length := by
    simp [Code.size, his.length]
  refine ⟨as, his, ?_⟩
  rw [truncate, Array.toList_shrink, hbytes, hlength, ← List.append_assoc,
    List.take_left]

theorem toList_overwriteBytes {before old after : List UInt8} :
    ∀ {bs : List UInt8} {bytes : Array UInt8},
      bytes.toList = before ++ old ++ after → old.length = bs.length →
        (overwriteBytes bytes before.length bs).toList = before ++ bs ++ after
  | [], bytes, hbytes, hlength => by
      have hold : old = [] := List.length_eq_zero_iff.mp hlength
      simpa [overwriteBytes, hold] using hbytes
  | b :: bs, bytes, hbytes, hlength => by
      cases old with
      | nil => simp at hlength
      | cons o old =>
          have hset : (bytes.setIfInBounds before.length b).toList =
              (before ++ [b]) ++ old ++ after := by
            rw [Array.toList_setIfInBounds, hbytes]
            simp
          have hrest : old.length = bs.length := by simpa using hlength
          have ih := toList_overwriteBytes hset hrest
          simp only [List.length_append, List.length_singleton] at ih
          simp [overwriteBytes, ih]

/-- An added instruction can be overwritten by another one of the same width. -/
theorem adds_overwrite {c c' : Code} {is js : List Instruction} {i j : Instruction}
    {bs : List UInt8} (h : c.Adds (is ++ i :: js) c') (hj : j.encode = .ok bs)
    (hwidth : i.width = j.width) :
    c'.hasRoom (c.size + totalWidth is) bs = true ∧
      c.Adds (is ++ j :: js) (c'.overwrite (c.size + totalWidth is) bs) := by
  obtain ⟨all, hwritten, hbytes⟩ := h
  obtain ⟨as, rest, his, hrest, rfl⟩ := hwritten.append_inv
  obtain ⟨old, cs, hi, hjs, rfl⟩ := hrest.cons_inv
  have hold : old.length = bs.length := by
    rw [Instruction.length_of_encode hi, Instruction.length_of_encode hj, hwidth]
  have hoffset : c.size + totalWidth is = (c.bytes.toList ++ as).length := by
    simp [Code.size, his.length]
  have hsplit : c'.bytes.toList = (c.bytes.toList ++ as) ++ old ++ cs := by simpa using hbytes
  constructor
  · have hsize := congrArg List.length hsplit
    simp only [List.length_append, Array.length_toList] at hsize hoffset
    apply decide_eq_true
    rw [hoffset, Code.size]
    omega
  · refine ⟨as ++ (bs ++ cs), his.append (.cons hj hjs), ?_⟩
    rw [overwrite, hoffset, toList_overwriteBytes hsplit hold]
    simp

end Code

end ScriptEngine
