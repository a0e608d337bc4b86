import Stackling.Scope.Entry
import Std.Data.TreeMap

/-! # Nested scopes -/

namespace Stackling

/-- The entries of one scope, by name. -/
abbrev Scope := Std.TreeMap String Entry

/-- The scopes around a place, innermost first. -/
structure Scopes where
  stack : List Scope := []

namespace Scopes

instance : Inhabited Scopes := ⟨{}⟩

/-- Opens a scope that starts with the given entries. -/
def push (s : Scopes) (scope : Scope) : Scopes := ⟨scope :: s.stack⟩

def pop (s : Scopes) : Scopes := ⟨s.stack.tail⟩

/-- The depth of the innermost scope; the outermost one has depth 0. -/
def depth (s : Scopes) : Nat := s.stack.length - 1

/-- Adds an entry to the innermost scope, unless that scope has the name already. -/
def declare? (s : Scopes) (name : String) (entry : Entry) : Option Scopes :=
  match s.stack with
  | [] => none
  | scope :: outer =>
    if scope.contains name then none else some ⟨scope.insert name entry :: outer⟩

/-- The entry of the innermost scope that has the name. -/
def lookup? (s : Scopes) (name : String) : Option Entry := s.stack.findSome? (·[name]?)

/-- A use of the name at this place. -/
def use? (s : Scopes) (name : String) : Option Binding :=
  (s.lookup? name).map fun entry => ⟨entry, s.depth⟩

end Scopes

end Stackling
