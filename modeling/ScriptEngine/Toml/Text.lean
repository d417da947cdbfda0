/-!
# The characters of TOML

Blanks, line ends, comments, keys and strings.  Each function takes the characters that are left and
gives those that are left after it; `none` means that the document is not well formed.
-/

namespace ScriptEngine

namespace Toml

def isBlank (c : Char) : Bool :=
  c == ' ' || c == '\t'

/-- A character that may stand in a line: a tab, or anything that is not a control character. -/
def isVisible (c : Char) : Bool :=
  c == '\t' || (' ' ≤ c && c != '\x7f')

/-- A character of a key that is not quoted. -/
def isBare (c : Char) : Bool :=
  c.isAlphanum || c == '-' || c == '_'

def isHexDigit (c : Char) : Bool :=
  c.isDigit || ('a' ≤ c && c ≤ 'f') || ('A' ≤ c && c ≤ 'F')

def digitValue (c : Char) : Nat :=
  if c.isDigit then c.toNat - '0'.toNat
  else if 'a' ≤ c then c.toNat - 'a'.toNat + 10
  else c.toNat - 'A'.toNat + 10

/-- The number that digits stand for in a base. -/
def digitsValue (base : Nat) (ds : List Char) : Nat :=
  ds.foldl (fun n c => n * base + digitValue c) 0

def skipBlanks (cs : List Char) : List Char :=
  cs.dropWhile isBlank

/-- Drops blanks, line ends and comments.  A comment that does not end in a line end is dropped up
to the character that may not stand in it. -/
def skipLines (inComment : Bool) : List Char → List Char
  | [] => []
  | '\n' :: cs => skipLines false cs
  | '\r' :: '\n' :: cs => skipLines false cs
  | c :: cs =>
      if inComment then
        if isVisible c then skipLines true cs else c :: cs
      else if isBlank c then
        skipLines false cs
      else if c == '#' then
        skipLines true cs
      else
        c :: cs

/-- Reads the end of a line or of the document. -/
def lineEnd? : List Char → Option (List Char)
  | [] => some []
  | '\n' :: cs => some cs
  | '\r' :: '\n' :: cs => some cs
  | _ => none

/-- Reads what may stand after the content of a line: blanks, a comment, the line end. -/
def lineTail? (cs : List Char) : Option (List Char) :=
  match skipBlanks cs with
  | '#' :: cs => lineEnd? (cs.dropWhile isVisible)
  | cs => lineEnd? cs

/-- The character with a code given by hexadecimal digits. -/
def codePoint? (ds : List Char) : Option Char :=
  if ds.all isHexDigit then
    let n := digitsValue 16 ds
    if h : n.isValidChar then some (Char.ofNatAux n h) else none
  else
    none

/-- The character that an escape letter stands for. -/
def escaped? : Char → Option Char
  | 'b' => some '\x08'
  | 't' => some '\t'
  | 'n' => some '\n'
  | 'f' => some '\x0c'
  | 'r' => some '\r'
  | '\x22' => some '\x22'
  | '\\' => some '\\'
  | _ => none

/-- Reads a string in double quotes, after the opening one. -/
def basicString? : List Char → Option (List Char × List Char)
  | [] => none
  | '\x22' :: cs => some ([], cs)
  | '\\' :: 'u' :: a :: b :: c :: d :: cs => do
      let x ← codePoint? [a, b, c, d]
      let (s, cs) ← basicString? cs
      return (x :: s, cs)
  | '\\' :: 'U' :: a :: b :: c :: d :: e :: f :: g :: h :: cs => do
      let x ← codePoint? [a, b, c, d, e, f, g, h]
      let (s, cs) ← basicString? cs
      return (x :: s, cs)
  | '\\' :: c :: cs => do
      let x ← escaped? c
      let (s, cs) ← basicString? cs
      return (x :: s, cs)
  | c :: cs => do
      guard (isVisible c && c != '\\')
      let (s, cs) ← basicString? cs
      return (c :: s, cs)

/-- Reads a string in single quotes, after the opening one. -/
def literalString? : List Char → Option (List Char × List Char)
  | [] => none
  | '\x27' :: cs => some ([], cs)
  | c :: cs => do
      guard (isVisible c)
      let (s, cs) ← literalString? cs
      return (c :: s, cs)

/-- Skips a string of several lines in double quotes, after the opening three.  At most two quotes
may stand before the closing three.  After a backslash that is the last visible character of its
line, `atLineEnd` holds until the line ends. -/
def basicLines? (atLineEnd : Bool) : List Char → Option (List Char)
  | [] => none
  | '\n' :: cs => basicLines? false cs
  | '\r' :: '\n' :: cs => basicLines? false cs
  | '\x22' :: '\x22' :: '\x22' :: '\x22' :: '\x22' :: cs => if atLineEnd then none else some cs
  | '\x22' :: '\x22' :: '\x22' :: '\x22' :: cs => if atLineEnd then none else some cs
  | '\x22' :: '\x22' :: '\x22' :: cs => if atLineEnd then none else some cs
  | '\\' :: 'u' :: a :: b :: c :: d :: cs =>
      if atLineEnd || (codePoint? [a, b, c, d]).isNone then none else basicLines? false cs
  | '\\' :: 'U' :: a :: b :: c :: d :: e :: f :: g :: h :: cs =>
      if atLineEnd || (codePoint? [a, b, c, d, e, f, g, h]).isNone then none
      else basicLines? false cs
  | '\\' :: '\n' :: cs => if atLineEnd then none else basicLines? false cs
  | '\\' :: '\r' :: '\n' :: cs => if atLineEnd then none else basicLines? false cs
  | '\\' :: c :: cs =>
      if atLineEnd then none
      else if isBlank c then basicLines? true cs
      else if (escaped? c).isSome then basicLines? false cs
      else none
  | c :: cs =>
      if atLineEnd then
        if isBlank c then basicLines? true cs else none
      else if isVisible c && c != '\\' then
        basicLines? false cs
      else
        none

/-- Skips a string of several lines in single quotes, after the opening three. -/
def literalLines? : List Char → Option (List Char)
  | [] => none
  | '\n' :: cs => literalLines? cs
  | '\r' :: '\n' :: cs => literalLines? cs
  | '\x27' :: '\x27' :: '\x27' :: '\x27' :: '\x27' :: cs => some cs
  | '\x27' :: '\x27' :: '\x27' :: '\x27' :: cs => some cs
  | '\x27' :: '\x27' :: '\x27' :: cs => some cs
  | c :: cs => if isVisible c then literalLines? cs else none

/-- Reads one part of a key. -/
def keyPart? : List Char → Option (String × List Char)
  | '\x22' :: cs => (basicString? cs).map fun (s, cs) => (String.ofList s, cs)
  | '\x27' :: cs => (literalString? cs).map fun (s, cs) => (String.ofList s, cs)
  | cs =>
      let bare := cs.takeWhile isBare
      if bare.isEmpty then none else some (String.ofList bare, cs.dropWhile isBare)

/-- The depth to which keys and values may be nested. -/
def maxDepth : Nat :=
  80

/-- Reads the parts of a key, which are separated by points. -/
def keyParts? : Nat → List Char → Option (List String × List Char)
  | 0, _ => none
  | parts + 1, cs => do
      let (k, cs) ← keyPart? (skipBlanks cs)
      match skipBlanks cs with
      | '.' :: cs =>
          let (ks, cs) ← keyParts? parts cs
          return (k :: ks, cs)
      | cs => return ([k], cs)

def key? (cs : List Char) : Option (List String × List Char) :=
  keyParts? (maxDepth - 1) cs

end Toml

end ScriptEngine
