import Stackling.NameKind
import Stackling.SourcePos

/-! # Faults found by name resolution -/

namespace Stackling

inductive ScopeError where
  | redeclared (kind : NameKind) (name : String) (pos : SourcePos)
  | duplicateMember (kind : NameKind) (name cls : String) (pos : SourcePos)
  /-- A field in place of an inherited method, or the other way round. -/
  | illegalOverride (name : String) (overridden replacement : NameKind) (pos : SourcePos)
  | classNotGlobal (name : String) (pos : SourcePos)
  | undeclared (kind : NameKind) (name : String) (pos : SourcePos)
  | undeclaredSuperclass (cls superclass : String) (pos : SourcePos)
  /-- A method call on a name whose type is no class. -/
  | notAnObject (name : String) (pos : SourcePos)
  | undeclaredMethod (cls method : String) (pos : SourcePos)
  deriving DecidableEq, Repr, Inhabited

namespace ScopeError

def pos : ScopeError → SourcePos
  | redeclared _ _ p | duplicateMember _ _ _ p | illegalOverride _ _ _ p | classNotGlobal _ p
  | undeclared _ _ p | undeclaredSuperclass _ _ p | notAnObject _ p | undeclaredMethod _ _ p => p

def message : ScopeError → String
  | redeclared kind name p => s!"{kind.text} '{name}' at {p.text} already declared"
  | duplicateMember kind name cls p =>
    s!"{kind.text} '{name}' at {p.text} already declared within class '{cls}'"
  | illegalOverride name overridden replacement p =>
    s!"cannot override {overridden.text} '{name}' with a {replacement.text} at {p.text}"
  | classNotGlobal name p => s!"class '{name}' at {p.text} not declared in the global scope"
  | undeclared kind name p => s!"{kind.text} '{name}' at {p.text} not declared"
  | undeclaredSuperclass cls superclass p =>
    s!"superclass '{superclass}' of class '{cls}' at {p.text} not declared"
  | notAnObject name p => s!"'{name}' at {p.text} is not an object"
  | undeclaredMethod cls method p =>
    s!"method '{method}' at {p.text} not declared in class '{cls}'"

end ScopeError

end Stackling
