/-!
# The shortest decimal of a binary number

A binary floating-point number stands for all reals that round to it.  Of the decimals among them,
this module finds the one with the fewest digits, and of several with equally few the nearest to the
number; of two that are equally near the larger one is taken.  All arithmetic is exact.
-/

namespace ScriptEngine

namespace Decimal

def twoPow (n : Nat) : Nat :=
  Nat.pow 2 n

def tenPow (n : Nat) : Nat :=
  Nat.pow 10 n

/-- A positive rational `value / denominator` with the reals around it that round to it, which reach
from `below / denominator` under it to `above / denominator` over it. -/
structure Span where
  value : Nat
  below : Nat
  above : Nat
  denominator : Nat
  /-- Whether the two ends round to the number as well. -/
  isClosed : Bool
deriving DecidableEq, Repr

/-- The span of `mantissa * 2 ^ exponent`.  The next number below is half as far away as the one
above if `isNarrow` holds. -/
def Span.ofBinary (mantissa : Nat) (exponent : Int) (isNarrow : Bool) : Span :=
  let quarter := twoPow (exponent - 2).toNat
  { value := 4 * mantissa * quarter
    below := (if isNarrow then 1 else 2) * quarter
    above := 2 * quarter
    denominator := twoPow (2 - exponent).toNat
    isClosed := mantissa % 2 == 0 }

/-- The span of a float that is neither zero nor infinite nor undefined, without its sign. -/
def Span.ofFloat (x : Float) : Span :=
  let bits : Nat := x.toBits.toNat
  let fraction : Nat := bits % twoPow 52
  let exponent : Nat := bits / twoPow 52 % twoPow 11
  if exponent = 0 then
    .ofBinary fraction (-1074) false
  else
    .ofBinary (twoPow 52 + fraction) ((exponent : Int) - 1075) (fraction = 0 ∧ 1 < exponent)

namespace Span

/-- The multiple of `10 ^ place` in the span that is nearest to the number, if there is one. -/
def multiple? (s : Span) (place : Int) : Option Nat :=
  let scale := tenPow (-place).toNat
  let unit := s.denominator * tenPow place.toNat
  let quotient := s.value * scale / unit
  let rest := s.value * scale % unit
  let reaches (gap room : Nat) : Bool := gap < room || (s.isClosed && gap == room)
  if reaches rest (s.below * scale) then
    if reaches (unit - rest) (s.above * scale) && unit ≤ 2 * rest then
      some (quotient + 1)
    else
      some quotient
  else if reaches (unit - rest) (s.above * scale) then
    some (quotient + 1)
  else
    none

/-- Looks for a multiple of `10 ^ place` and of ever smaller powers of ten. -/
def search (s : Span) : Nat → Int → Nat × Int
  | 0, place => (0, place)
  | steps + 1, place =>
      match s.multiple? place with
      | some n => (n, place)
      | none => s.search steps (place - 1)

/-- The digits and the place of the last digit of the shortest decimal in the span.  The search
begins above the number.  It ends at the latest where the number itself is a multiple: no power of
two below `2 ^ (-1076)` occurs. -/
def shortest (s : Span) : Nat × Int :=
  let place := (Nat.toDigits 10 (s.value / s.denominator)).length
  s.search (place + 1077) place

end Span

/-- The text of `digits * 10 ^ place` without an exponent. -/
def positional (digits : Nat) (place : Int) : String :=
  let ds := Nat.toDigits 10 digits
  let places := (-place).toNat
  if places = 0 then
    String.ofList (ds ++ List.replicate place.toNat '0')
  else if places < ds.length then
    String.ofList (ds.take (ds.length - places) ++ '.' :: ds.drop (ds.length - places))
  else
    String.ofList ('0' :: '.' :: List.replicate (places - ds.length) '0' ++ ds)

/-- The text of a float: the fewest digits that read back, never an exponent, and no point after a
whole number.  The sign of zero is kept. -/
def floatText (x : Float) : String :=
  if x.isNaN then
    "NaN"
  else
    let sign := if x.toBits.toNat / twoPow 63 = 1 then "-" else ""
    if x.isInf then
      sign ++ "inf"
    else if x == 0 then
      sign ++ "0"
    else
      let (digits, place) := (Span.ofFloat x).shortest
      sign ++ positional digits place

end Decimal

end ScriptEngine
