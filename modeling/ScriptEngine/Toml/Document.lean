import ScriptEngine.Toml.Number

/-!
# Documents of TOML

A document is a tree of tables.  It is checked as a whole, and of its values the integers are kept.
A table may be opened by its header once; before that it may be implied by the header of a table
inside it.  Keys with points make tables of their own, which no header may open.
-/

namespace ScriptEngine

namespace Toml

/-- How a table came about. -/
inductive Origin
  /-- By its own header. -/
  | header
  /-- By the header of a table inside it. -/
  | implied
  /-- By a key with points. -/
  | dotted
deriving DecidableEq, Repr

/-- What a key of a document stands for. -/
inductive Node
  | integer (n : Int)
  /-- Any other value. -/
  | other
  | table (origin : Origin) (entries : List (String × Node))
  /-- An array of tables, with the entries of the last one. -/
  | tables (entries : List (String × Node))

abbrev Entries := List (String × Node)

/-- Changes what a key stands for, or adds the key. -/
def alter (key : String) (change : Option Node → Option Node) : Entries → Option Entries
  | [] => (change none).map fun n => [(key, n)]
  | (k, n) :: rest =>
      if k = key then
        (change (some n)).map fun n => (k, n) :: rest
      else
        (alter key change rest).map fun rest => (k, n) :: rest

/-- Changes the entries of the table that a path of header keys leads to. -/
def within (change : Entries → Option Entries) : List String → Entries → Option Entries
  | [], es => change es
  | k :: ks, es =>
      alter k
        (fun
          | none => (within change ks []).map (.table .implied)
          | some (.table origin inner) => (within change ks inner).map (.table origin)
          | some (.tables inner) => (within change ks inner).map .tables
          | some _ => none)
        es

/-- Gives a key with points a value.  The table that receives it must have come about by a key with
points, unless there are no points. -/
def assign (value : Node) : List String → Entries → Option Entries
  | [], _ => none
  | [k], es =>
      alter k
        (fun
          | none => some value
          | some _ => none)
        es
  | k :: ks, es =>
      alter k
        (fun
          | none => (assign value ks []).map (.table .dotted)
          | some (.table .dotted inner) => (assign value ks inner).map (.table .dotted)
          | some (.table .implied inner) =>
              if ks.length = 1 then none else (assign value ks inner).map (.table .implied)
          | some (.tables inner) =>
              if ks.length = 1 then none else (assign value ks inner).map .tables
          | some _ => none)
        es

/-- Opens the table of a header. -/
def openTable (path : List String) (es : Entries) : Option Entries :=
  match path.getLast? with
  | none => none
  | some key =>
      within
        (alter key fun
          | none => some (.table .header [])
          | some (.table .implied inner) => some (.table .header inner)
          | some _ => none)
        path.dropLast es

/-- Adds a table to an array of tables. -/
def addTable (path : List String) (es : Entries) : Option Entries :=
  match path.getLast? with
  | none => none
  | some key =>
      within
        (alter key fun
          | none => some (.tables [])
          | some (.tables _) => some (.tables [])
          | some _ => none)
        path.dropLast es

mutual

/-- Reads a value.  `steps` bounds the characters that are left. -/
def value? (depth : Nat) : Nat → List Char → Option (Node × List Char)
  | 0, _ => none
  | steps + 1, cs =>
      match cs with
      | '\x22' :: '\x22' :: '\x22' :: cs => (basicLines? false cs).map fun cs => (.other, cs)
      | '\x27' :: '\x27' :: '\x27' :: cs => (literalLines? cs).map fun cs => (.other, cs)
      | '\x22' :: cs => (basicString? cs).map fun (_, cs) => (.other, cs)
      | '\x27' :: cs => (literalString? cs).map fun (_, cs) => (.other, cs)
      | '[' :: cs =>
          if depth + 1 < maxDepth then
            (arrayRest? (depth + 1) steps cs).map fun cs => (.other, cs)
          else
            none
      | '\x7b' :: cs =>
          if depth + 1 < maxDepth then
            match skipBlanks cs with
            | '\x7d' :: cs => some (.other, cs)
            | cs => (inlineRest? (depth + 1) [] steps cs).map fun cs => (.other, cs)
          else
            none
      | 't' :: 'r' :: 'u' :: 'e' :: cs => some (.other, cs)
      | 'f' :: 'a' :: 'l' :: 's' :: 'e' :: cs => some (.other, cs)
      | cs =>
          match moment? cs with
          | some cs => some (.other, cs)
          | none =>
              (number? cs).map fun
                | (some n, cs) => (.integer n, cs)
                | (none, cs) => (.other, cs)

/-- Reads the elements of an array and its end. -/
def arrayRest? (depth : Nat) : Nat → List Char → Option (List Char)
  | 0, _ => none
  | steps + 1, cs =>
      match skipLines false cs with
      | ']' :: cs => some cs
      | cs => do
          let (_, cs) ← value? depth steps cs
          match skipLines false cs with
          | ',' :: cs => arrayRest? depth steps cs
          | ']' :: cs => some cs
          | _ => none

/-- Reads the entries of a table that is written as a value, and its end. -/
def inlineRest? (depth : Nat) (es : Entries) : Nat → List Char → Option (List Char)
  | 0, _ => none
  | steps + 1, cs => do
      let (path, cs) ← key? cs
      let cs ← char? '=' cs
      let (node, cs) ← value? depth steps (skipBlanks cs)
      let es ← assign node path es
      match skipBlanks cs with
      | ',' :: cs => inlineRest? depth es steps cs
      | '\x7d' :: cs => some cs
      | _ => none

end

/-- Reads the lines of a document.  `path` leads to the table that is open. -/
def lines? (path : List String) (es : Entries) : Nat → List Char → Option Entries
  | 0, _ => none
  | steps + 1, cs =>
      match skipBlanks cs with
      | [] => some es
      | '\n' :: cs => lines? path es steps cs
      | '\r' :: '\n' :: cs => lines? path es steps cs
      | '#' :: cs => do
          let cs ← lineEnd? (cs.dropWhile isVisible)
          lines? path es steps cs
      | '[' :: '[' :: cs => do
          let (path, cs) ← key? cs
          let cs ← char? ']' cs
          let cs ← char? ']' cs
          let cs ← lineTail? cs
          let es ← addTable path es
          lines? path es steps cs
      | '[' :: cs => do
          let (path, cs) ← key? cs
          let cs ← char? ']' cs
          let cs ← lineTail? cs
          let es ← openTable path es
          lines? path es steps cs
      | cs => do
          let (key, cs) ← key? cs
          let cs ← char? '=' cs
          let (node, cs) ← value? 0 steps (skipBlanks cs)
          let cs ← lineTail? cs
          let es ← within (assign node key) path es
          lines? path es steps cs

/-- The entries of a document, if it is well formed.  A byte-order mark before it is dropped. -/
def document? (text : String) : Option Entries :=
  let cs :=
    match text.toList with
    | '\ufeff' :: cs => cs
    | cs => cs
  lines? [] [] (2 * cs.length + 2) cs

end Toml

end ScriptEngine
