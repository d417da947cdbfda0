import ScriptEngine.Value.Heap

/-!
# Values that are built alike

A value on the heap may share objects with others, and may even contain itself.  Unfolding replaces
each container by what it holds, and succeeds exactly when no container holds itself; values are
compared by their unfolded trees.  Closures are not unfolded: they are compared by address.
-/

namespace ScriptEngine

/-- A value with its containers unfolded. -/
inductive Tree
  | null
  | bool (b : Bool)
  | int (n : Int64)
  | float (x : Float)
  | str (s : String)
  | array (elements : List Tree)
  | hash (entries : List (Key × Tree))
  | struct (type : StructType) (fields : List Tree)
  | closure (address : Nat)
  | function (f : Function)
  | structType (t : StructType)
  | builtin (b : Builtin)

namespace Heap

/-- Unfolds a value down to a depth of containers.  Fails if there are containers below it. -/
def unfolded? (h : Heap) : Nat → Value → Option Tree
  | _, .null => some .null
  | _, .bool b => some (.bool b)
  | _, .int n => some (.int n)
  | _, .float x => some (.float x)
  | _, .str s => some (.str s)
  | _, .closure a => some (.closure a)
  | _, .function f => some (.function f.content)
  | _, .structType t => some (.structType t.content)
  | _, .builtin b => some (.builtin b)
  | 0, _ => none
  | depth + 1, .array a =>
      ((h.array a).toList.mapM fun v => h.unfolded? depth v).map .array
  | depth + 1, .hash a =>
      ((h.hash a).toList.mapM fun e => (h.unfolded? depth e.2).map fun t => (e.1, t)).map .hash
  | depth + 1, .struct a =>
      ((h.struct a).fields.toList.mapM fun v => h.unfolded? depth v).map
        (.struct (h.struct a).type)

/-- Unfolds a value completely.  On a way down that meets no container twice there are at most as
many containers as the heap has, so a value that does not contain itself is always unfolded. -/
def tree? (h : Heap) (v : Value) : Option Tree :=
  h.unfolded? (h.size + 1) v

end Heap

namespace Tree

mutual

/-- Whether two values are built alike.  Floats are compared as numbers, hashes without regard to
the order of their entries, closures by their address and built-in functions by their name. -/
def same : Tree → Tree → Bool
  | null, null => true
  | bool a, bool b => a == b
  | int m, int n => m == n
  | float x, float y => x == y
  | str s, str t => s == t
  | array ss, array ts => sameList ss ts
  | hash es, hash fs => es.length == fs.length && sameEntries es fs
  | struct s ss, struct t ts => s == t && sameList ss ts
  | closure a, closure b => a == b
  | function f, function g => f == g
  | structType s, structType t => s == t
  | builtin f, builtin g => f.name == g.name
  | _, _ => false

def sameList : List Tree → List Tree → Bool
  | [], [] => true
  | s :: ss, t :: ts => same s t && sameList ss ts
  | _, _ => false

/-- Whether each entry of the first list has a like entry under its key in the second. -/
def sameEntries : List (Key × Tree) → List (Key × Tree) → Bool
  | [], _ => true
  | (k, s) :: es, fs =>
      (match fs.lookup k with
        | some t => same s t
        | none => false) && sameEntries es fs

end

end Tree

namespace Heap

/-- Whether two values that do not contain themselves are built alike. -/
def alike (h : Heap) (v w : Value) : Bool :=
  match h.tree? v, h.tree? w with
  | some s, some t => s.same t
  | _, _ => false

end Heap

end ScriptEngine
