import ScriptEngine.Instruction.Code

/-!
# Listings

The text of a code: a line for each instruction with its offset, its mnemonic and its operands.
-/

namespace ScriptEngine

namespace Code

/-- An offset in decimal with at least four digits. -/
def offsetText (offset : Nat) : String :=
  String.ofList ((Nat.toDigits 10 offset).leftpad 4 '0')

def lineText (offset : Nat) (i : Instruction) : String :=
  i.operands.foldl (fun line n => line ++ " " ++ toString n)
    (offsetText offset ++ " " ++ i.opcode.name) ++ "\n"

/-- Adds the lines of everything from an offset on.  Where no instruction can be read, the fault
takes the place of the line and reading goes on at the next byte. -/
def listingFrom (c : Code) (offset : Nat) (lines : String) : String :=
  if offset < c.size then
    match c.decode offset with
    | .ok i => c.listingFrom (offset + i.width) (lines ++ lineText offset i)
    | .error e => c.listingFrom (offset + 1) (lines ++ "ERROR: " ++ e.message ++ "\n")
  else
    lines
termination_by c.size - offset
decreasing_by
  · have := i.opcode.width_pos
    simp only [Instruction.width]
    omega
  · omega

def listing (c : Code) : String :=
  c.listingFrom 0 ""

end Code

end ScriptEngine
