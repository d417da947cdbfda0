import Mathlib.Algebra.Group.Nat.Defs
import Mathlib.Data.List.Basic
import ScriptEngine.Instruction.Listing
import ScriptEngine.Proofs.Instruction.Layout

/-!
# Lists of instructions and their bytes

A code is read from its beginning, one instruction after another, until a fault or its end.  Writing
and reading are inverse to each other: what can be written is read back, whatever follows it, and
what is read without a fault is written as the bytes it was read from.
-/

namespace ScriptEngine

/-! ## Bytes that stand next to each other -/

namespace Code.Holds

theorem nil {c : Code} {offset : Nat} (h : offset ≤ c.size) : c.Holds offset [] :=
  ⟨c.bytes.toList.take offset, c.bytes.toList.drop offset, by simp,
    by rw [List.length_take, Array.length_toList]; exact Nat.min_eq_left h⟩

theorem le_size {c : Code} {offset : Nat} {bs : List UInt8} (h : c.Holds offset bs) :
    offset + bs.length ≤ c.size := by
  obtain ⟨before, after, hbytes, rfl⟩ := h
  have hall := congrArg List.length hbytes
  simp only [List.length_append, Array.length_toList] at hall
  rw [Code.size]
  omega

theorem append {c : Code} {offset : Nat} {as bs : List UInt8} (has : c.Holds offset as)
    (hbs : c.Holds (offset + as.length) bs) : c.Holds offset (as ++ bs) := by
  obtain ⟨before, rest, hbytes, rfl⟩ := has
  obtain ⟨before', after, hbytes', hlength⟩ := hbs
  have hsplit : before ++ as ++ rest = before' ++ (bs ++ after) := by
    rw [← hbytes, hbytes', List.append_assoc]
  obtain ⟨-, hrest⟩ := List.append_inj hsplit (by simp [hlength])
  exact ⟨before, after, by simp [hbytes, hrest], rfl⟩

theorem single {c : Code} {offset : Nat} {b : UInt8} (h : c.bytes[offset]? = some b) :
    c.Holds offset [b] := by
  obtain ⟨hlt, rfl⟩ := Array.getElem?_eq_some_iff.mp h
  refine ⟨c.bytes.toList.take offset, c.bytes.toList.drop (offset + 1), ?_, ?_⟩
  · have hdrop := List.drop_eq_getElem_cons (l := c.bytes.toList) (i := offset) hlt
    rw [List.append_assoc, List.singleton_append, ← Array.getElem_toList, ← hdrop,
      List.take_append_drop]
  · rw [List.length_take, Array.length_toList]
    omega

/-- What stands at the beginning and takes the whole room is the whole code. -/
theorem eq_toList {c : Code} {bs : List UInt8} (h : c.Holds 0 bs) (hlength : bs.length = c.size) :
    bs = c.bytes.toList := by
  obtain ⟨before, after, hbytes, hbefore⟩ := h
  obtain rfl := List.length_eq_zero_iff.mp hbefore
  have hall := congrArg List.length hbytes
  have hafter : after = [] := by
    apply List.length_eq_zero_iff.mp
    simp only [List.nil_append, List.length_append, Array.length_toList] at hall
    rw [Code.size] at hlength
    omega
  rw [hbytes, hafter, List.nil_append, List.append_nil]

end Code.Holds

/-! ## One instruction -/

namespace Width

theorem length_encode (w : Width) (n : Nat) : (w.encode n).length = w.bytes := by
  cases w <;> rfl

end Width

/-- A number that is read fits its width and was written there. -/
theorem Code.holds_of_read {c : Code} {offset n : Nat} {w : Width} (h : c.read offset w = .ok n) :
    n < w.bound ∧ c.Holds offset (w.encode n) := by
  cases w with
  | byte =>
      simp only [read, readByte] at h
      split at h
      next b hb =>
        cases h
        refine ⟨b.toNat_lt, ?_⟩
        simpa [Width.encode] using Holds.single hb
      next => cases h
  | word =>
      simp only [read, readWord] at h
      split at h
      next high low hhigh hlow =>
        cases h
        have hhighByte : ((high.toNat * 256 + low.toNat) / 256).toUInt8 = high := by
          have hlt := low.toNat_lt
          have hdiv : (high.toNat * 256 + low.toNat) / 256 = high.toNat := by omega
          rw [hdiv]
          exact UInt8.ofNat_toNat
        have hlowByte : (high.toNat * 256 + low.toNat).toUInt8 = low := by
          apply UInt8.toNat_inj.mp
          have hlt := low.toNat_lt
          simp only [Nat.toUInt8, UInt8.toNat_ofNat']
          omega
        refine ⟨?_, ?_⟩
        · have hhighLt := high.toNat_lt
          have hlowLt := low.toNat_lt
          simp only [Width.bound]
          omega
        · rw [Width.encode, hhighByte, hlowByte]
          exact (Holds.single hhigh).append (Holds.single hlow)
      next => cases h

namespace Opcode

theorem ctorIdx_all : ∀ k : Fin all.length, all[k].ctorIdx = k := by
  decide

/-- The byte of the opcode that a byte stands for is this byte. -/
theorem toByte_of_ofByte? {b : UInt8} {op : Opcode} (h : ofByte? b = some op) : op.toByte = b := by
  obtain ⟨hlt, rfl⟩ := List.getElem?_eq_some_iff.mp h
  have hindex : all[b.toNat].ctorIdx = b.toNat := ctorIdx_all ⟨b.toNat, hlt⟩
  rw [toByte, hindex]
  exact UInt8.ofNat_toNat

/-- Operands can be written exactly if each fits its width. -/
theorem exists_encodeOperands_iff {op : Opcode} :
    ∀ {ws : List Width} {ns : List Nat}, ns.length = ws.length →
      ((∃ bs, op.encodeOperands ws ns = .ok bs) ↔ ∀ p ∈ ns.zip ws, p.1 < 256 ^ p.2.bytes)
  | [], [], _ => by simp [encodeOperands]
  | w :: ws, n :: ns, hlength => by
      have hrest : ns.length = ws.length := Nat.succ.inj hlength
      have hbound : w.bound = 256 ^ w.bytes := w.bound_eq
      rw [List.zip_cons_cons, List.forall_mem_cons, ← exists_encodeOperands_iff hrest, ← hbound]
      constructor
      · rintro ⟨bs, h⟩
        obtain ⟨hn, rest, hrest, -⟩ := encodeOperands_cons h
        exact ⟨hn, rest, hrest⟩
      · rintro ⟨hn, rest, hrest⟩
        exact ⟨w.encode n ++ rest, by rw [encodeOperands, if_pos hn, hrest]; rfl⟩
  | [], _ :: _, hlength => by simp at hlength
  | _ :: _, [], hlength => by simp at hlength

/-- Operands that are read were written there. -/
theorem encodeOperands_of_readOperands (op : Opcode) {c : Code} :
    ∀ {ws : List Width} {ns : List Nat} {offset : Nat}, offset ≤ c.size →
      c.readOperands offset ws = .ok ns →
        ns.length = ws.length ∧
          ∃ bs, op.encodeOperands ws ns = .ok bs ∧ c.Holds offset bs
  | [], ns, offset, hoffset, h => by
      cases h
      exact ⟨rfl, [], rfl, .nil hoffset⟩
  | w :: ws, ns, offset, _, h => by
      rw [Code.readOperands] at h
      cases hn : c.read offset w with
      | error e => simp [hn] at h
      | ok n =>
          obtain ⟨hbound, hholds⟩ := Code.holds_of_read hn
          cases hns : c.readOperands (offset + w.bytes) ws with
          | error e => simp [hn, hns, Except.map] at h
          | ok rest =>
              simp only [hn, hns, Except.map, Except.ok.injEq] at h
              subst h
              have hroom : offset + w.bytes ≤ c.size := w.length_encode n ▸ hholds.le_size
              obtain ⟨hlength, bs, hbs, hrest⟩ := encodeOperands_of_readOperands op hroom hns
              refine ⟨by simp [hlength], w.encode n ++ bs, ?_, ?_⟩
              · rw [encodeOperands, if_pos hbound, hbs]
                rfl
              · exact hholds.append (by rw [Width.length_encode]; exact hrest)

end Opcode

namespace Instruction

/-- An instruction has as many operands as its opcode takes, and each of them fits its width. -/
def FitsFormat (i : Instruction) : Prop :=
  i.operands.length = i.opcode.operandWidths.length ∧
    ∀ p ∈ i.operands.zip i.opcode.operandWidths, p.1 < 256 ^ p.2.bytes

instance (i : Instruction) : Decidable i.FitsFormat :=
  inferInstanceAs (Decidable (_ ∧ _))

theorem exists_encode_iff {i : Instruction} : (∃ bs, i.encode = .ok bs) ↔ i.FitsFormat := by
  constructor
  · rintro ⟨bs, h⟩
    obtain ⟨hlength, rest, hrest, -⟩ := encode_eq_ok h
    exact ⟨hlength, (Opcode.exists_encodeOperands_iff hlength).mp ⟨rest, hrest⟩⟩
  · rintro ⟨hlength, hfit⟩
    obtain ⟨rest, hrest⟩ :
        ∃ rest, i.opcode.encodeOperands i.opcode.operandWidths i.operands = .ok rest :=
      (Opcode.exists_encodeOperands_iff hlength).mpr hfit
    exact ⟨i.opcode.toByte :: rest, by rw [encode, Opcode.encode, if_pos hlength, hrest]; rfl⟩

end Instruction

/-- An instruction that is read was written there. -/
theorem Code.encode_of_decode {c : Code} {offset : Nat} {i : Instruction}
    (h : c.decode offset = .ok i) : ∃ bs, i.encode = .ok bs ∧ c.Holds offset bs := by
  rw [decode] at h
  split at h
  next => cases h
  next b hb =>
    split at h
    next => cases h
    next op hop =>
      split at h
      next => cases h
      next operands hread =>
        cases h
        have hroom : offset + 1 ≤ c.size := (Array.getElem?_eq_some_iff.mp hb).1
        obtain ⟨hlength, bs, hbs, hholds⟩ :=
          Opcode.encodeOperands_of_readOperands op hroom hread
        refine ⟨b :: bs, ?_, (Holds.single hb).append hholds⟩
        rw [Instruction.encode, Opcode.encode, if_pos hlength, hbs, Opcode.toByte_of_ofByte? hop]
        rfl

/-! ## Lists of instructions -/

def Instruction.encodeAll : List Instruction → Except FormatError (List UInt8)
  | [] => .ok []
  | i :: is =>
      match i.encode with
      | .error e => .error e
      | .ok bs => (encodeAll is).map (bs ++ ·)

/-- Instructions together with their offsets, if the first stands at the given one. -/
def placedFrom (offset : Nat) : List Instruction → List (Nat × Instruction)
  | [] => []
  | i :: is => (offset, i) :: placedFrom (offset + i.width) is

namespace Code

/-- The instructions from an offset on, up to the end of the code.  The first one that cannot be
read is a fault of the whole. -/
def decodeFrom (c : Code) (offset : Nat) : Except FormatError (List Instruction) :=
  if offset < c.size then
    match c.decode offset with
    | .ok i => (c.decodeFrom (offset + i.width)).map (i :: ·)
    | .error e => .error e
  else
    .ok []
termination_by c.size - offset
decreasing_by
  have hwidth := i.opcode.width_pos
  simp only [Instruction.width]
  omega

def decodeAll (c : Code) : Except FormatError (List Instruction) :=
  c.decodeFrom 0

end Code

namespace Instruction

theorem encodeAll_eq_ok_iff {is : List Instruction} {bs : List UInt8} :
    encodeAll is = .ok bs ↔ Written is bs := by
  induction is generalizing bs with
  | nil =>
      constructor
      · intro h
        cases h
        exact .nil
      · intro h
        cases h
        rfl
  | cons i is ih =>
      constructor
      · intro h
        rw [encodeAll] at h
        cases hi : i.encode with
        | error e => simp [hi] at h
        | ok as =>
            cases his : encodeAll is with
            | error e => simp [hi, his, Except.map] at h
            | ok rest =>
                simp only [hi, his, Except.map, Except.ok.injEq] at h
                subst h
                exact .cons hi (ih.mp his)
      · intro h
        obtain ⟨as, rest, hi, his, rfl⟩ := h.cons_inv
        rw [encodeAll, hi, ih.mpr his]
        rfl

/-- A list of instructions can be written if each of them fits the format. -/
theorem exists_written {is : List Instruction} (h : ∀ i ∈ is, i.FitsFormat) :
    ∃ bs, Written is bs := by
  induction is with
  | nil => exact ⟨[], .nil⟩
  | cons i is ih =>
      obtain ⟨hi, his⟩ := List.forall_mem_cons.mp h
      obtain ⟨as, has⟩ := exists_encode_iff.mpr hi
      obtain ⟨rest, hrest⟩ := ih his
      exact ⟨as ++ rest, .cons has hrest⟩

end Instruction

namespace Code

/-- Instructions that stand in a code are read first, whatever follows them. -/
theorem Contains.decodeFrom {c : Code} {offset : Nat} {is : List Instruction}
    (h : c.Contains offset is) :
    c.decodeFrom offset = (c.decodeFrom (offset + totalWidth is)).map (is ++ ·) := by
  induction is generalizing offset with
  | nil =>
      rw [totalWidth_nil, Nat.add_zero]
      cases c.decodeFrom offset <;> rfl
  | cons i is ih =>
      have hdecode := h.decode
      have hlt : offset < c.size := by
        by_contra hge
        have hend : c.bytes[offset]? = none := Array.getElem?_eq_none (Nat.not_lt.mp hge)
        simp [Code.decode, hend] at hdecode
      rw [Code.decodeFrom, if_pos hlt, hdecode, totalWidth_cons, ← Nat.add_assoc]
      change (c.decodeFrom (offset + i.width)).map (i :: ·) = _
      rw [ih h.tail]
      cases c.decodeFrom (offset + i.width + totalWidth is) <;> rfl

/-- What is read up to the end of a code: nothing at the end, or an instruction and the rest. -/
theorem decodeFrom_cases {c : Code} {offset : Nat} {is : List Instruction}
    (h : c.decodeFrom offset = .ok is) :
    (¬offset < c.size ∧ is = []) ∨
      ∃ i rest, offset < c.size ∧ c.decode offset = .ok i ∧
        c.decodeFrom (offset + i.width) = .ok rest ∧ is = i :: rest := by
  rw [Code.decodeFrom] at h
  split at h
  next hlt =>
    cases hi : c.decode offset with
    | error e => simp [hi] at h
    | ok i =>
        cases hrest : c.decodeFrom (offset + i.width) with
        | error e => simp [hi, hrest, Except.map] at h
        | ok rest =>
            simp only [hi, hrest, Except.map, Except.ok.injEq] at h
            exact .inr ⟨i, rest, hlt, rfl, hrest, h.symm⟩
  next hend =>
    cases h
    exact .inl ⟨hend, rfl⟩

/-- What is read up to the end of a code stands there, and takes the room up to the end. -/
theorem contains_of_decodeFrom {c : Code} {offset : Nat} {is : List Instruction}
    (hoffset : offset ≤ c.size) (h : c.decodeFrom offset = .ok is) :
    c.Contains offset is ∧ offset + totalWidth is = c.size := by
  induction is generalizing offset with
  | nil =>
      obtain ⟨hend, -⟩ | ⟨_, _, _, _, _, hcons⟩ := decodeFrom_cases h
      · refine ⟨⟨[], .nil, .nil hoffset⟩, ?_⟩
        rw [totalWidth_nil]
        omega
      · cases hcons
  | cons i is ih =>
      obtain ⟨-, hnil⟩ | ⟨_, _, _, hi, hrest, hcons⟩ := decodeFrom_cases h
      · cases hnil
      · cases hcons
        obtain ⟨bs, hbs, hholds⟩ := encode_of_decode hi
        have hwidth := Instruction.length_of_encode hbs
        have hroom : offset + i.width ≤ c.size := hwidth ▸ hholds.le_size
        obtain ⟨⟨cs, hcs, hcsHolds⟩, hsize⟩ := ih hroom hrest
        refine ⟨⟨bs ++ cs, .cons hbs hcs, hholds.append (by rwa [hwidth])⟩, ?_⟩
        rw [totalWidth_cons]
        omega

theorem decodeFrom_size (c : Code) : c.decodeFrom c.size = .ok [] := by
  rw [decodeFrom, if_neg (Nat.lt_irrefl _)]

/-- A code is read without a fault exactly if it consists of the instructions that are read. -/
theorem decodeAll_eq_ok_iff {c : Code} {is : List Instruction} :
    c.decodeAll = .ok is ↔ Written is c.bytes.toList := by
  constructor
  · intro h
    obtain ⟨⟨bs, hwritten, hholds⟩, hsize⟩ := contains_of_decodeFrom (Nat.zero_le _) h
    rw [Nat.zero_add] at hsize
    rwa [← hholds.eq_toList (by rw [hwritten.length, hsize])]
  · intro h
    have hcontains : c.Contains 0 is := ⟨_, h, [], [], by simp, rfl⟩
    have hsize : c.size = totalWidth is := by
      rw [← h.length, Array.length_toList, Code.size]
    rw [decodeAll, hcontains.decodeFrom, Nat.zero_add, ← hsize, decodeFrom_size]
    simp [Except.map]

/-- The listing of a code that is read without a fault has a line for each instruction. -/
theorem listingFrom_eq {c : Code} {offset : Nat} {is : List Instruction} {lines : String}
    (h : c.decodeFrom offset = .ok is) :
    c.listingFrom offset lines =
      (placedFrom offset is).foldl (fun text p => text ++ lineText p.1 p.2) lines := by
  induction is generalizing offset lines with
  | nil =>
      obtain ⟨hend, -⟩ | ⟨_, _, _, _, _, hcons⟩ := decodeFrom_cases h
      · rw [listingFrom, if_neg hend]
        rfl
      · cases hcons
  | cons i is ih =>
      obtain ⟨-, hnil⟩ | ⟨_, _, hlt, hi, hrest, hcons⟩ := decodeFrom_cases h
      · cases hnil
      · cases hcons
        rw [listingFrom, if_pos hlt, hi, placedFrom, List.foldl_cons]
        exact ih hrest

end Code

/-- The format is exact in both directions.  An instruction can be written exactly if it fits the
format.  Instructions that fit are written as bytes that are read back, whatever stands before and
after them; alone, they are read back without a rest, and their listing has a line for each.  What
is read from a code without a fault is written as the bytes of the code. -/
theorem instructionFormat_isBijective :
    (∀ i : Instruction, (∃ bs, i.opcode.encode i.operands = .ok bs) ↔ i.FitsFormat) ∧
      (∀ is : List Instruction, (∀ i ∈ is, i.FitsFormat) →
        ∃ bs, Instruction.encodeAll is = .ok bs ∧ totalWidth is = bs.length ∧
          (∀ before after, ∀ c : Code, c.bytes.toList = before ++ bs ++ after →
            c.decodeFrom before.length =
              (c.decodeFrom (before.length + bs.length)).map (is ++ ·)) ∧
          (∀ c : Code, c.bytes.toList = bs →
            c.decodeAll = .ok is ∧
              c.listing =
                (placedFrom 0 is).foldl (fun text p => text ++ Code.lineText p.1 p.2) "")) ∧
      ∀ (c : Code) (is : List Instruction), c.decodeAll = .ok is →
        Instruction.encodeAll is = .ok c.bytes.toList := by
  refine ⟨fun i => Instruction.exists_encode_iff, ?_, ?_⟩
  · intro is his
    obtain ⟨bs, hbs⟩ := Instruction.exists_written his
    refine ⟨bs, Instruction.encodeAll_eq_ok_iff.mpr hbs, hbs.length.symm, ?_, ?_⟩
    · intro before after c hc
      have hcontains : c.Contains before.length is := ⟨bs, hbs, before, after, hc, rfl⟩
      rw [hcontains.decodeFrom, hbs.length]
    · intro c hc
      have hdecode : c.decodeAll = .ok is := Code.decodeAll_eq_ok_iff.mpr (hc ▸ hbs)
      exact ⟨hdecode, Code.listingFrom_eq hdecode⟩
  · intro c is h
    exact Instruction.encodeAll_eq_ok_iff.mpr (Code.decodeAll_eq_ok_iff.mp h)

end ScriptEngine
