import Stackling.Hierarchy.Subtype

/-! # The type of a choice between two values -/

namespace Stackling.Hierarchy

/-- The nearest common superclass, looked for upwards from the first class. -/
def joinClass? (h : Hierarchy) (c d : String) : Option String :=
  if h.isSubclass d c then some c
  else if h.isSubclass c d then some d
  else (h.ancestors c).find? (h.isSubclass d ·)

/-- The narrower of two types, if they are related. -/
def narrower? (h : Hierarchy) (a b : Ty) : Option Ty :=
  if h.isSubtype a b then some a else if h.isSubtype b a then some b else none

/-- The narrower types place by place, for lists of one length. -/
def narrowerAll? (h : Hierarchy) : List Ty → List Ty → Option (List Ty)
  | [], [] => some []
  | a :: as, b :: bs => do return (← h.narrower? a b) :: (← h.narrowerAll? as bs)
  | _, _ => none

/-- The least type above two types that the language can name. Two `null`s have none. -/
def join? (h : Hierarchy) : Ty → Ty → Option Ty
  | .null, .ref c | .ref c, .null => some (.ref c)
  | .int, .int | .int, .bool | .bool, .int => some .int
  | .bool, .bool => some .bool
  | .ref c, .ref d => (h.joinClass? c d).map .ref
  | .arrow ⟨ps, r⟩, .arrow ⟨qs, s⟩ => do
    let result ← h.join? r s
    let params ← h.narrowerAll? ps qs
    return .arrow ⟨params, result⟩
  | _, _ => none

end Stackling.Hierarchy
