/-! # Binary operators -/

namespace Stackling

inductive BinOp where
  | add | sub | mul | div | and | or | equal | lessEqual | greaterEqual
  deriving DecidableEq, Repr, Inhabited

/-- Operators of one family share a typing rule. -/
inductive BinOp.Family where
  | arithmetic | logical | comparison
  deriving DecidableEq, Repr, Inhabited

namespace BinOp

def symbol : BinOp → String
  | add => "+"
  | sub => "-"
  | mul => "*"
  | div => "/"
  | and => "&&"
  | or => "||"
  | equal => "=="
  | lessEqual => "<="
  | greaterEqual => ">="

/-- The operator's name in messages. -/
def word : BinOp → String
  | add => "sum"
  | sub => "subtraction"
  | mul => "multiplication"
  | div => "division"
  | and => "and"
  | or => "or"
  | equal => "equal"
  | lessEqual => "less equal"
  | greaterEqual => "greater equal"

def family : BinOp → Family
  | add | sub | mul | div => .arithmetic
  | and | or => .logical
  | equal | lessEqual | greaterEqual => .comparison

def all : List BinOp := [add, sub, mul, div, and, or, equal, lessEqual, greaterEqual]

def ofSymbol? (s : String) : Option BinOp := all.find? (·.symbol == s)

@[simp] theorem ofSymbol?_symbol (op : BinOp) : ofSymbol? op.symbol = some op := by
  cases op <;> rfl

end BinOp

def BinOp.Family.text : BinOp.Family → String
  | .arithmetic => "arithmetic"
  | .logical => "logical"
  | .comparison => "comparison"

end Stackling
