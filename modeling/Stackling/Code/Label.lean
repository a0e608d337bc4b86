/-!
# Code labels

Labels of each kind are numbered from zero. Numbers are natural numbers and never run out, so that
no two labels of a program are the same. A machine word holds them as long as a program has fewer
than `2 ^ 32` labels of either kind, and only such programs are meant.
-/

namespace Stackling

/-- Names of code addresses: targets of branches, and entries of functions. -/
inductive Label where
  | branch (n : Nat)
  | function (n : Nat)
  deriving DecidableEq, Repr, Inhabited

def Label.text : Label → String
  | .branch n => s!"label{n}"
  | .function n => s!"function{n}"

/-- The first numbers not yet given out, counted apart for the two kinds of label. -/
structure LabelSupply where
  branches : Nat := 0
  functions : Nat := 0
  deriving DecidableEq, Repr, Inhabited

namespace LabelSupply

def freshBranch (s : LabelSupply) : Label × LabelSupply :=
  (.branch s.branches, { s with branches := s.branches + 1 })

def freshFunction (s : LabelSupply) : Label × LabelSupply :=
  (.function s.functions, { s with functions := s.functions + 1 })

end LabelSupply

end Stackling
