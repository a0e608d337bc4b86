import Stackling.Ty

/-! # What a name is bound to -/

namespace Stackling

/-- A declared thing: the nesting depth of its scope, its type and its offset in the frame, object
or dispatch table that holds it. -/
structure Entry where
  depth : Nat
  ty : Ty
  offset : Int32
  deriving DecidableEq, Inhabited

/-- A use of an entry, made at some nesting depth. -/
structure Binding where
  entry : Entry
  depth : Nat
  deriving DecidableEq, Inhabited

/-- How many frames lie between the use and the declaration. -/
def Binding.hops (b : Binding) : Nat := b.depth - b.entry.depth

end Stackling
