import Std.Data.TreeMap

/-!
# Class hierarchies

A hierarchy links classes to their superclasses. Nothing keeps the links from forming a circle;
the walk upwards stops before a class that it has met.
-/

namespace Stackling

structure Hierarchy where
  links : Std.TreeMap String String := ∅

namespace Hierarchy

instance : Inhabited Hierarchy := ⟨{}⟩

/-- Gives a class its superclass, in place of the one it had. -/
def add (h : Hierarchy) (cls superclass : String) : Hierarchy := ⟨h.links.insert cls superclass⟩

def superclass? (h : Hierarchy) (cls : String) : Option String := h.links[cls]?

/-- The walk upwards from `cls`, past the classes `seen`, for at most `fuel` links. -/
def climb (h : Hierarchy) : (fuel : Nat) → (seen : List String) → (cls : String) → List String
  | 0, _, _ => []
  | fuel + 1, seen, cls =>
    match h.superclass? cls with
    | none => []
    | some s => if s ∈ seen then [] else s :: h.climb fuel (s :: seen) s

/-- The classes above a class, nearest first. Each link of the walk leaves another class, so there
are no more of them than links in the hierarchy. -/
def ancestors (h : Hierarchy) (cls : String) : List String := h.climb h.links.size [cls] cls

def isSubclass (h : Hierarchy) (sub sup : String) : Bool := sub = sup || sup ∈ h.ancestors sub

end Hierarchy

end Stackling
