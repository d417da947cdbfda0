import Std.Data.TreeMap

/-!
# Keys

The values under which a dictionary can store something: integers, truth values and strings.  Keys
are ordered, so that a dictionary can find them by comparison; the order is not visible to programs.
-/

namespace ScriptEngine

inductive Key
  | int (n : Int64)
  | bool (b : Bool)
  | str (s : String)
deriving DecidableEq, Repr

namespace Key

/-- Integers come before truth values and these before strings. -/
def rank : Key → Nat
  | int _ => 0
  | bool _ => 1
  | str _ => 2

/-- The number by which keys of one rank are compared first. -/
def number : Key → Int64
  | int n => n
  | bool b => if b then 1 else 0
  | str _ => 0

/-- The text by which keys of one rank are compared next. -/
def text : Key → String
  | str s => s
  | _ => ""

/-- The order of keys: by rank, then by number, then by text. -/
def order : Key → Key → Ordering :=
  compareLex (compareOn rank) (compareLex (compareOn number) (compareOn text))

instance : Ord Key := ⟨order⟩

instance : Std.TransOrd Key :=
  inferInstanceAs (Std.TransCmp
    (compareLex (compareOn rank) (compareLex (compareOn number) (compareOn text))))

/-- Keys that the order does not tell apart are equal. -/
theorem eq_of_order_eq {a b : Key} (h : order a b = .eq) : a = b := by
  simp only [order, compareLex, compareOn, Ordering.then_eq_eq, Std.compare_eq_iff_eq] at h
  obtain ⟨hrank, hnumber, htext⟩ := h
  cases a <;> cases b <;> simp_all [rank, number, text]
  next b c => cases b <;> cases c <;> simp_all

instance : Std.LawfulEqOrd Key where
  eq_of_compare := eq_of_order_eq

end Key

end ScriptEngine
