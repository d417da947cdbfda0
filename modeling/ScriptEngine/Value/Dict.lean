import ScriptEngine.Value.Key

/-!
# Dictionaries

A dictionary lists its entries in the order in which their keys were first stored.  Storing under a
key that is there already replaces the entry where it stands.  An index from keys to positions
makes look-up fast.
-/

namespace ScriptEngine

/-- A map from keys that remembers the order of first insertion. -/
structure Dict (α : Type) where
  entries : Array (Key × α)
  /-- The position of each stored key. -/
  slots : Std.TreeMap Key Nat

namespace Dict

variable {α : Type}

def empty : Dict α :=
  { entries := #[], slots := ∅ }

def size (d : Dict α) : Nat :=
  d.entries.size

def insert (d : Dict α) (key : Key) (value : α) : Dict α :=
  match d.slots.get? key with
  | some slot => { d with entries := d.entries.setIfInBounds slot (key, value) }
  | none =>
      let slot := d.entries.size
      { entries := d.entries.push (key, value), slots := d.slots.insert key slot }

def get? (d : Dict α) (key : Key) : Option α :=
  match d.slots.get? key with
  | some slot => d.entries[slot]?.map Prod.snd
  | none => none

/-- The entries in the order of first insertion. -/
def toList (d : Dict α) : List (Key × α) :=
  d.entries.toList

end Dict

end ScriptEngine
