import ScriptEngine.Decimal.Shortest
import ScriptEngine.Toml.Text

/-!
# Numbers and dates of TOML

Integers have 64 bits and may be written in four bases, with single underscores between digits.
Floats, dates and times are only checked, not read.
-/

namespace ScriptEngine

namespace Toml

/-- Reads digits, with single underscores between them, after the first digit. -/
def moreDigits? (isDigit : Char → Bool) : List Char → Option (List Char × List Char)
  | '_' :: c :: cs =>
      if isDigit c then
        (moreDigits? isDigit cs).map fun (ds, cs) => (c :: ds, cs)
      else
        none
  | c :: cs =>
      if isDigit c then
        (moreDigits? isDigit cs).map fun (ds, cs) => (c :: ds, cs)
      else
        some ([], c :: cs)
  | [] => some ([], [])

def digits? (isDigit : Char → Bool) : List Char → Option (List Char × List Char)
  | c :: cs =>
      if isDigit c then
        (moreDigits? isDigit cs).map fun (ds, cs) => (c :: ds, cs)
      else
        none
  | [] => none

/-- Reads a decimal number without a sign; a zero is not followed by further digits. -/
def decimal? : List Char → Option (List Char × List Char)
  | '0' :: cs => some (['0'], cs)
  | cs => digits? Char.isDigit cs

/-- An integer of 64 bits. -/
def integer? (n : Int) : Option Int :=
  if Int64.minValue.toInt ≤ n ∧ n ≤ Int64.maxValue.toInt then some n else none

/-- Whether `digits * 10 ^ exponent` is so large that the nearest float is infinite. -/
def isInfinite (digits : Nat) (exponent : Int) : Bool :=
  let length : Int := (Nat.toDigits 10 digits).length
  if digits = 0 ∨ length + exponent < 300 then false
  else if 310 < length + exponent then true
  else
    let least := Decimal.twoPow 1024 - Decimal.twoPow 970
    decide (least * Decimal.tenPow (-exponent).toNat ≤ digits * Decimal.tenPow exponent.toNat)

/-- Reads the exponent of a float, after the letter. -/
def exponent? (cs : List Char) : Option (Int × List Char) :=
  let (isNegative, cs) :=
    match cs with
    | '+' :: cs => (false, cs)
    | '-' :: cs => (true, cs)
    | cs => (false, cs)
  (digits? Char.isDigit cs).map fun (ds, cs) =>
    let n : Int := digitsValue 10 ds
    (if isNegative then -n else n, cs)

/-- Reads the exponent of a float if there is one. -/
def optionalExponent? : List Char → Option (Int × List Char)
  | 'e' :: cs => exponent? cs
  | 'E' :: cs => exponent? cs
  | cs => some (0, cs)

/-- Reads an integer or a float after its sign.  A float has no integer value. -/
def unsigned? (isNegative : Bool) : List Char → Option (Option Int × List Char)
  | 'i' :: 'n' :: 'f' :: cs => some (none, cs)
  | 'n' :: 'a' :: 'n' :: cs => some (none, cs)
  | cs => do
      let (ds, cs) ← decimal? cs
      let fraction : Option (List Char × List Char) ←
        match cs with
        | '.' :: cs => (digits? Char.isDigit cs).map some
        | _ => pure none
      let (places, rest) := fraction.getD ([], cs)
      let (exponent, rest) ← optionalExponent? rest
      if fraction.isNone && rest.length = cs.length then
        let n : Int := digitsValue 10 ds
        let n ← integer? (if isNegative then -n else n)
        return (some n, rest)
      else
        guard (isNegative || !isInfinite (digitsValue 10 (ds ++ places)) (exponent - places.length))
        return (none, rest)

/-- Reads the digits of an integer in another base. -/
def based? (isDigit : Char → Bool) (base : Nat) (cs : List Char) :
    Option (Option Int × List Char) := do
  let (ds, cs) ← digits? isDigit cs
  let n ← integer? (digitsValue base ds)
  return (some n, cs)

def number? : List Char → Option (Option Int × List Char)
  | '0' :: 'x' :: cs => based? isHexDigit 16 cs
  | '0' :: 'o' :: cs => based? (fun c => '0' ≤ c && c ≤ '7') 8 cs
  | '0' :: 'b' :: cs => based? (fun c => c == '0' || c == '1') 2 cs
  | '+' :: cs => unsigned? false cs
  | '-' :: cs => unsigned? true cs
  | cs => unsigned? false cs

/-- Reads a number of exactly two digits that lies between two bounds. -/
def twoDigits? (least greatest : Nat) : List Char → Option (Nat × List Char)
  | a :: b :: cs =>
      let n := digitsValue 10 [a, b]
      if a.isDigit && b.isDigit && least ≤ n && n ≤ greatest then some (n, cs) else none
  | _ => none

def char? (c : Char) : List Char → Option (List Char)
  | d :: cs => if d == c then some cs else none
  | [] => none

/-- The number of days of a month. -/
def daysOfMonth (year month : Nat) : Nat :=
  if month = 2 then
    if year % 4 = 0 && (year % 100 != 0 || year % 400 = 0) then 29 else 28
  else if month = 4 || month = 6 || month = 9 || month = 11 then
    30
  else
    31

def date? : List Char → Option (List Char)
  | a :: b :: c :: d :: cs => do
      guard ([a, b, c, d].all Char.isDigit)
      let cs ← char? '-' cs
      let (month, cs) ← twoDigits? 1 12 cs
      let cs ← char? '-' cs
      let (_, cs) ← twoDigits? 1 (daysOfMonth (digitsValue 10 [a, b, c, d]) month) cs
      return cs
  | _ => none

def time? (cs : List Char) : Option (List Char) := do
  let (_, cs) ← twoDigits? 0 23 cs
  let cs ← char? ':' cs
  let (_, cs) ← twoDigits? 0 59 cs
  let cs ← char? ':' cs
  let (_, cs) ← twoDigits? 0 60 cs
  match cs with
  | '.' :: c :: rest => if c.isDigit then some (rest.dropWhile Char.isDigit) else none
  | '.' :: [] => none
  | cs => some cs

/-- Reads the offset of a time, if there is one. -/
def offset? : List Char → Option (List Char)
  | 'Z' :: cs => some cs
  | 'z' :: cs => some cs
  | c :: cs =>
      if c == '+' || c == '-' then do
        let (_, cs) ← twoDigits? 0 23 cs
        let cs ← char? ':' cs
        let (_, cs) ← twoDigits? 0 59 cs
        return cs
      else
        some (c :: cs)
  | [] => some []

/-- Reads the time after a date, if there is one. -/
def timeAfterDate? (cs : List Char) : Option (List Char) :=
  match cs with
  | c :: rest =>
      if c == 'T' || c == 't' || c == ' ' then
        match time? rest with
        | some rest => offset? rest
        | none => some cs
      else
        some cs
  | [] => some []

/-- Reads a date, a time or both. -/
def moment? (cs : List Char) : Option (List Char) :=
  match date? cs with
  | some cs => timeAfterDate? cs
  | none => time? cs

end Toml

end ScriptEngine
