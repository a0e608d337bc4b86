import Stackling.Hierarchy
import Stackling.Ty

/-!
# Subtyping

References follow the class hierarchy, `null` fits every reference and `bool` fits `int`. Functions
and methods are covariant in their result and contravariant in their parameters. One recursion
decides both directions, so that it can follow the structure of its first type.
-/

namespace Stackling

/-- Which of two types has to be the subtype. -/
inductive Variance where
  /-- The first. -/
  | co
  /-- The second. -/
  | contra
  deriving DecidableEq, Repr, Inhabited

def Variance.flip : Variance → Variance
  | .co => .contra
  | .contra => .co

namespace Hierarchy

mutual

/-- Whether `a` is a subtype of `b`, or for `contra` whether `b` is a subtype of `a`. -/
def fits (h : Hierarchy) : Variance → (a b : Ty) → Bool
  | _, .int, .int | _, .bool, .bool | _, .null, .null => true
  | .co, .bool, .int | .contra, .int, .bool => true
  | .co, .null, .ref _ | .contra, .ref _, .null => true
  | .co, .ref c, .ref d => h.isSubclass c d
  | .contra, .ref c, .ref d => h.isSubclass d c
  | v, .arrow ⟨ps, r⟩, .arrow ⟨qs, s⟩ | v, .method ⟨ps, r⟩, .method ⟨qs, s⟩ =>
    h.fits v r s && h.fitAll v.flip ps qs
  | _, .cls c, .cls d => c = d
  | _, _, _ => false

/-- Whether two lists are equally long and their types fit place by place. -/
def fitAll (h : Hierarchy) : Variance → (as bs : List Ty) → Bool
  | _, [], [] => true
  | v, a :: as, b :: bs => h.fits v a b && h.fitAll v as bs
  | _, _, _ => false

end

def isSubtype (h : Hierarchy) (a b : Ty) : Bool := h.fits .co a b

mutual

/-- Turning the direction around is the same as exchanging the types. -/
theorem fits_flip (h : Hierarchy) : ∀ (v : Variance) (a b : Ty), h.fits v.flip a b = h.fits v b a
  | v, .int, b => by cases v <;> cases b <;> simp [fits, Variance.flip]
  | v, .bool, b => by cases v <;> cases b <;> simp [fits, Variance.flip]
  | v, .null, b => by cases v <;> cases b <;> simp [fits, Variance.flip]
  | v, .ref c, b => by cases v <;> cases b <;> simp [fits, Variance.flip]
  | v, .arrow ⟨ps, r⟩, b => by
    rcases b with _ | _ | _ | _ | ⟨qs, s⟩ | _ | _ <;>
      simp [fits, fits_flip h _ r, fitAll_flip h _ ps]
  | v, .method ⟨ps, r⟩, b => by
    rcases b with _ | _ | _ | _ | _ | ⟨qs, s⟩ | _ <;>
      simp [fits, fits_flip h _ r, fitAll_flip h _ ps]
  | v, .cls c, b => by cases v <;> cases b <;> simp [fits, eq_comm]

theorem fitAll_flip (h : Hierarchy) :
    ∀ (v : Variance) (as bs : List Ty), h.fitAll v.flip as bs = h.fitAll v bs as
  | v, [], bs => by cases bs <;> simp [fitAll]
  | v, a :: as, [] => by simp [fitAll]
  | v, a :: as, b :: bs => by simp [fitAll, fits_flip h v a b, fitAll_flip h v as bs]

end

end Hierarchy

end Stackling
