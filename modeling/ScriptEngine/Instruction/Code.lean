import ScriptEngine.Instruction.Error

/-!
# Code

A code is a string of bytes that holds instructions one after another: the opcode byte, then the
operands, each with its high byte first.  This module writes an instruction, reads the one at an
offset, and edits a code at its end and in place.
-/

namespace ScriptEngine

/-- An opcode together with the numbers that follow it. -/
structure Instruction where
  opcode : Opcode
  operands : List Nat
deriving DecidableEq, Repr

/-- A string of instruction bytes. -/
structure Code where
  bytes : Array UInt8
deriving DecidableEq, Repr

/-- The bytes of a number that fits the width, high byte first. -/
def Width.encode : Width → Nat → List UInt8
  | byte, n => [n.toUInt8]
  | word, n => [(n / 256).toUInt8, n.toUInt8]

namespace Opcode

/-- Writes the operands one by one and stops at the first that is too large. -/
def encodeOperands (op : Opcode) : List Width → List Nat → Except FormatError (List UInt8)
  | w :: ws, n :: ns =>
      if n < w.bound then
        (encodeOperands op ws ns).map (w.encode n ++ ·)
      else
        .error (.operandOverflow op n w)
  | _, _ => .ok []

/-- Writes one instruction.  The number of operands is checked before any operand is. -/
def encode (op : Opcode) (operands : List Nat) : Except FormatError (List UInt8) :=
  if operands.length = op.operandWidths.length then
    (op.encodeOperands op.operandWidths operands).map (op.toByte :: ·)
  else
    .error (.operandCount op op.operandWidths.length operands.length)

end Opcode

namespace Instruction

/-- The bytes of an instruction. -/
def encode (i : Instruction) : Except FormatError (List UInt8) :=
  i.opcode.encode i.operands

def width (i : Instruction) : Nat :=
  i.opcode.width

def operand (i : Instruction) (n : Nat) : Nat :=
  i.operands[n]?.getD 0

end Instruction

namespace Code

def empty : Code :=
  ⟨#[]⟩

def size (c : Code) : Nat :=
  c.bytes.size

def append (c : Code) (bs : List UInt8) : Code :=
  ⟨c.bytes ++ bs⟩

/-- Drops everything from an offset on; an offset past the end drops nothing. -/
def truncate (c : Code) (offset : Nat) : Code :=
  ⟨c.bytes.shrink offset⟩

/-- Writes bytes over those at consecutive offsets; offsets past the end are left alone. -/
def overwriteBytes (bytes : Array UInt8) (offset : Nat) : List UInt8 → Array UInt8
  | [] => bytes
  | b :: bs => overwriteBytes (bytes.setIfInBounds offset b) (offset + 1) bs

/-- Writes bytes over those at an offset, as far as there are any. -/
def overwrite (c : Code) (offset : Nat) (bs : List UInt8) : Code :=
  ⟨overwriteBytes c.bytes offset bs⟩

/-- Whether there are as many bytes from an offset on. -/
def hasRoom (c : Code) (offset : Nat) (bs : List UInt8) : Bool :=
  offset + bs.length ≤ c.size

/-- Writes bytes over those at an offset, if there are as many from there on. -/
def overwrite? (c : Code) (offset : Nat) (bs : List UInt8) : Option Code :=
  if c.hasRoom offset bs then some (c.overwrite offset bs) else none

/-- Reads the one-byte number at an offset. -/
def readByte (c : Code) (offset : Nat) : Except FormatError Nat :=
  match c.bytes[offset]? with
  | some b => .ok b.toNat
  | none => .error (.truncated offset)

/-- Reads the two-byte number at an offset. -/
def readWord (c : Code) (offset : Nat) : Except FormatError Nat :=
  match c.bytes[offset]?, c.bytes[offset + 1]? with
  | some hi, some lo => .ok (hi.toNat * 256 + lo.toNat)
  | _, _ => .error (.truncated offset)

/-- Reads a number of the given width at an offset. -/
def read (c : Code) (offset : Nat) : Width → Except FormatError Nat
  | .byte => c.readByte offset
  | .word => c.readWord offset

/-- Reads numbers of the given widths from an offset on. -/
def readOperands (c : Code) (offset : Nat) : List Width → Except FormatError (List Nat)
  | [] => .ok []
  | w :: ws =>
      match c.read offset w with
      | .error e => .error e
      | .ok n => (c.readOperands (offset + w.bytes) ws).map (n :: ·)

/-- Reads the instruction at an offset.  A code that ends inside the instruction is truncated at
the offset of the instruction, whichever operand is cut off. -/
def decode (c : Code) (offset : Nat) : Except FormatError Instruction :=
  match c.bytes[offset]? with
  | none => .error (.truncated offset)
  | some b =>
      match Opcode.ofByte? b with
      | none => .error (.unknownOpcode b)
      | some op =>
          match c.readOperands (offset + 1) op.operandWidths with
          | .error _ => .error (.truncated offset)
          | .ok operands => .ok ⟨op, operands⟩

end Code

end ScriptEngine
