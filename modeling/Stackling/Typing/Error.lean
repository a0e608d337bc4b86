import Stackling.NameKind
import Stackling.SourcePos

/-! # Violations of the typing rules -/

namespace Stackling

/-- A violation of one typing rule. Operators are named by a word, such as `sum`; arguments are
numbered from one. -/
inductive TypingError where
  | nonInteger (op : String) (pos : SourcePos)
  | nonBoolean (op : String) (pos : SourcePos)
  | nonBooleanCondition (pos : SourcePos)
  | functionalComparison (op : String) (pos : SourcePos)
  | incomparableOperands (op : String) (pos : SourcePos)
  | incompatibleBranches (pos : SourcePos)
  | notCallable (name : String) (pos : SourcePos)
  | wrongArity (name : String) (expected found : Nat) (pos : SourcePos)
  | wrongArgument (name : String) (position : Nat) (pos : SourcePos)
  | notAClass (name : String) (pos : SourcePos)
  | wrongFieldCount (cls : String) (expected found : Nat) (pos : SourcePos)
  | wrongFieldValue (cls : String) (position : Nat) (pos : SourcePos)
  | methodAsValue (name : String) (pos : SourcePos)
  | classAsValue (name : String) (pos : SourcePos)
  | incompatibleVariable (name : String) (pos : SourcePos)
  | wrongReturn (kind : NameKind) (name : String) (pos : SourcePos)
  | badOverride (kind : NameKind) (cls name : String) (pos : SourcePos)
  deriving DecidableEq, Repr, Inhabited

namespace TypingError

def pos : TypingError → SourcePos
  | nonInteger _ p | nonBoolean _ p | nonBooleanCondition p | functionalComparison _ p
  | incomparableOperands _ p | incompatibleBranches p | notCallable _ p | wrongArity _ _ _ p
  | wrongArgument _ _ p | notAClass _ p | wrongFieldCount _ _ _ p | wrongFieldValue _ _ p
  | methodAsValue _ p | classAsValue _ p | incompatibleVariable _ p | wrongReturn _ _ p
  | badOverride _ _ _ p => p

def message : TypingError → String
  | nonInteger op p => s!"non integers in {op} at {p.text}"
  | nonBoolean op p => s!"non booleans in {op} at {p.text}"
  | nonBooleanCondition p => s!"non boolean condition in if at {p.text}"
  | functionalComparison op p => s!"cannot compare functional types in {op} at {p.text}"
  | incomparableOperands op p => s!"incompatible types in {op} at {p.text}"
  | incompatibleBranches p => s!"incompatible types in then-else branches at {p.text}"
  | notCallable name p => s!"invocation of a non-function '{name}' at {p.text}"
  | wrongArity name expected found p =>
    s!"wrong number of parameters in the invocation of '{name}' at {p.text}: "
      ++ s!"expected {expected}, found {found}"
  | wrongArgument name position p =>
    s!"wrong type for {position}-th parameter in the invocation of '{name}' at {p.text}"
  | notAClass name p => s!"instancing of a non-class '{name}' at {p.text}"
  | wrongFieldCount cls expected found p =>
    s!"wrong number of fields to instance an object of class '{cls}' at {p.text}: "
      ++ s!"expected {expected}, found {found}"
  | wrongFieldValue cls position p =>
    s!"wrong type for {position}-th field to instance an object of class '{cls}' at {p.text}"
  | methodAsValue name p => s!"wrong usage of method '{name}' at {p.text}"
  | classAsValue name p => s!"wrong usage of class identifier '{name}' at {p.text}"
  | incompatibleVariable name p => s!"incompatible value for variable '{name}' at {p.text}"
  | wrongReturn kind name p => s!"wrong return type for {kind.text} '{name}' at {p.text}"
  | badOverride kind cls name p =>
    s!"{kind.text} '{name}' of class '{cls}' at {p.text} is not a subtype of the {kind.text} "
      ++ "it overrides"

end TypingError

/-- Why an expression has no type. -/
inductive Refusal where
  | violation (error : TypingError)
  /-- The expression uses a name that resolution could not bind and has reported already. -/
  | unresolved
  deriving DecidableEq, Repr, Inhabited

namespace Refusal

def message : Refusal → String
  | violation e => e.message
  | unresolved => "type could not be determined due to earlier errors"

/-- What a refusal adds to the report: an unresolved use is not counted twice. -/
def violations : Refusal → List TypingError
  | violation e => [e]
  | unresolved => []

end Refusal

end Stackling
