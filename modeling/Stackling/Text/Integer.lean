/-! # Decimal text of machine integers -/

namespace Stackling.Text

/-- One or more decimal digits. -/
def readNat? (cs : List Char) : Option Nat :=
  if cs.isEmpty || !cs.all Char.isDigit then none else some (Nat.ofDigitChars 10 cs 0)

/-- Decimal digits after at most one sign. -/
def readInt? : List Char → Option Int
  | '-' :: cs => (readNat? cs).map fun n => -(n : Int)
  | '+' :: cs => (readNat? cs).map fun n => (n : Int)
  | cs => (readNat? cs).map fun n => (n : Int)

/-- An integer that fits in 32 bits. -/
def readInt32? (cs : List Char) : Option Int32 :=
  match readInt? cs with
  | some n =>
    if Int32.minValue.toInt ≤ n ∧ n ≤ Int32.maxValue.toInt then some (Int32.ofInt n) else none
  | none => none

/-- The shortest decimal text, with a sign for negative numbers only. -/
def decimal (n : Int32) : String := toString n.toInt

end Stackling.Text
