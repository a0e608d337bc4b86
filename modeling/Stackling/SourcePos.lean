/-! # Positions in a source text -/

namespace Stackling

/-- A place in a source text. Lines and columns count from one; column `0` says that only the
line is known. -/
structure SourcePos where
  line : Nat
  column : Nat := 0
  deriving DecidableEq, Repr, Inhabited

/-- The number of a tree node, by which facts about the node are stored beside the tree. -/
abbrev NodeId := Nat

namespace SourcePos

def hasColumn (p : SourcePos) : Bool := p.column != 0

/-- The position as messages name it. -/
def text (p : SourcePos) : String :=
  if p.hasColumn then s!"line {p.line}:{p.column}" else s!"line {p.line}"

/-- The position as a pair of numbers, the column always shown. -/
def compact (p : SourcePos) : String := s!"{p.line}:{p.column}"

end SourcePos

def NodeId.tag (id : NodeId) : String := s!"#{id}"

end Stackling
