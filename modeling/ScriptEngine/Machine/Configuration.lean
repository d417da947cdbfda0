import ScriptEngine.Machine.Limits
import ScriptEngine.Toml.Document

/-!
# Limits from a configuration

A configuration is a TOML document that may set each limit to an integer that is not negative.
Other keys and tables are ignored; a limit that is not set keeps its usual size.
-/

namespace ScriptEngine

namespace Limits

/-- The size that a key of a document sets, or a usual size; fails if the key stands for anything
but an integer that is not negative. -/
def size? (es : Toml.Entries) (key : String) (usual : Nat) : Option Nat :=
  match es.lookup key with
  | none => some usual
  | some (.integer n) => n.toNat?
  | some _ => none

/-- Reads limits from the text of a configuration. -/
def ofToml? (text : String) : Option Limits := do
  let es ← Toml.document? text
  let usual : Limits := {}
  return {
    stackSize := ← size? es "stack_size" usual.stackSize
    maxFrames := ← size? es "max_frames" usual.maxFrames
    globalsSize := ← size? es "globals_size" usual.globalsSize }

end Limits

end ScriptEngine
