import Stackling.SourcePos

/-! # Faults of code generation -/

namespace Stackling

/-- Code generation met a name for which resolution has no facts. -/
inductive LoweringError where
  | unresolved (name : String) (pos : SourcePos)
  | unknownClass (name : String) (pos : SourcePos)
  deriving DecidableEq, Repr, Inhabited

namespace LoweringError

def pos : LoweringError → SourcePos
  | unresolved _ p | unknownClass _ p => p

def message : LoweringError → String
  | unresolved name p => s!"'{name}' at {p.text} was not resolved"
  | unknownClass name p => s!"class '{name}' at {p.text} has no layout"

end LoweringError

end Stackling
