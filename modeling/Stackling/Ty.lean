/-!
# Types

The types that resolution gives to declarations and that inference gives to expressions. Types
nest through lists, so their equality is decided by a test of its own, `Ty.same`.
-/

namespace Stackling

mutual

inductive Ty where
  | int
  | bool
  /-- The type of `null`. -/
  | null
  /-- References to objects of a class. -/
  | ref (name : String)
  /-- Function values. -/
  | arrow (sig : Signature)
  /-- Methods, which are called through an object and are no values. -/
  | method (sig : Signature)
  /-- A class itself, with the types of its members. -/
  | cls (members : ClassTy)

structure Signature where
  params : List Ty
  result : Ty

/-- The members of a class, inherited ones first. -/
structure ClassTy where
  fields : List Ty
  methods : List Signature

end

instance : Inhabited Ty := ⟨.int⟩
instance : Inhabited Signature := ⟨⟨[], .int⟩⟩

namespace Ty

/-- Stack cells a value of the type takes: a function value is a frame and a code address. -/
def cells : Ty → Nat
  | .arrow _ => 2
  | _ => 1

def isArrow : Ty → Bool
  | .arrow _ => true
  | _ => false

def isMethod : Ty → Bool
  | .method _ => true
  | _ => false

/-- How the thing can be called, if it can. -/
def signature? : Ty → Option Signature
  | .arrow sig | .method sig => some sig
  | _ => none

end Ty

/-- The cells that the members of a list take together. -/
def totalCells {α : Type} (cells : α → Nat) : List α → Nat
  | [] => 0
  | a :: as => cells a + totalCells cells as

@[simp] theorem totalCells_nil {α : Type} (cells : α → Nat) : totalCells cells [] = 0 := rfl

@[simp] theorem totalCells_cons {α : Type} (cells : α → Nat) (a : α) (as : List α) :
    totalCells cells (a :: as) = cells a + totalCells cells as := rfl

theorem totalCells_map {α β : Type} (cells : β → Nat) (f : α → β) (as : List α) :
    totalCells cells (as.map f) = totalCells (fun a => cells (f a)) as := by
  induction as with
  | nil => rfl
  | cons a as ih => rw [List.map_cons, totalCells_cons, totalCells_cons, ih]

def Signature.arity (sig : Signature) : Nat := sig.params.length

namespace ClassTy

def empty : ClassTy := ⟨[], []⟩

instance : Inhabited ClassTy := ⟨empty⟩

/-- Heap cells the fields of one object take. -/
def cells (c : ClassTy) : Nat := totalCells Ty.cells c.fields

end ClassTy

/-! ### Equality -/

mutual

def Ty.same : Ty → Ty → Bool
  | .int, .int | .bool, .bool | .null, .null => true
  | .ref c, .ref d => c == d
  | .arrow ⟨ps, r⟩, .arrow ⟨qs, s⟩ | .method ⟨ps, r⟩, .method ⟨qs, s⟩ => sameAll ps qs && r.same s
  | .cls ⟨fs, ms⟩, .cls ⟨gs, ns⟩ => sameAll fs gs && sameSigs ms ns
  | _, _ => false

def sameAll : List Ty → List Ty → Bool
  | [], [] => true
  | a :: as, b :: bs => a.same b && sameAll as bs
  | _, _ => false

def sameSigs : List Signature → List Signature → Bool
  | [], [] => true
  | ⟨ps, r⟩ :: ms, ⟨qs, s⟩ :: ns => sameAll ps qs && r.same s && sameSigs ms ns
  | _, _ => false

end

mutual

theorem Ty.same_iff : ∀ a b : Ty, a.same b = true ↔ a = b
  | .int, b => by cases b <;> simp [Ty.same]
  | .bool, b => by cases b <;> simp [Ty.same]
  | .null, b => by cases b <;> simp [Ty.same]
  | .ref c, b => by cases b <;> simp [Ty.same]
  | .arrow ⟨ps, r⟩, b => by
    rcases b with _ | _ | _ | _ | ⟨qs, s⟩ | _ | _ <;>
      simp [Ty.same, sameAll_iff ps, Ty.same_iff r]
  | .method ⟨ps, r⟩, b => by
    rcases b with _ | _ | _ | _ | _ | ⟨qs, s⟩ | _ <;>
      simp [Ty.same, sameAll_iff ps, Ty.same_iff r]
  | .cls ⟨fs, ms⟩, b => by
    rcases b with _ | _ | _ | _ | _ | _ | ⟨gs, ns⟩ <;>
      simp [Ty.same, sameAll_iff fs, sameSigs_iff ms]

theorem sameAll_iff : ∀ as bs : List Ty, sameAll as bs = true ↔ as = bs
  | [], bs => by cases bs <;> simp [sameAll]
  | a :: as, [] => by simp [sameAll]
  | a :: as, b :: bs => by simp [sameAll, Ty.same_iff a b, sameAll_iff as bs]

theorem sameSigs_iff : ∀ ms ns : List Signature, sameSigs ms ns = true ↔ ms = ns
  | [], ns => by cases ns <;> simp [sameSigs]
  | m :: ms, [] => by simp [sameSigs]
  | ⟨ps, r⟩ :: ms, ⟨qs, s⟩ :: ns => by
    simp [sameSigs, sameAll_iff ps qs, Ty.same_iff r s, sameSigs_iff ms ns]

end

instance : DecidableEq Ty := fun a b => decidable_of_iff _ (Ty.same_iff a b)

instance : DecidableEq Signature
  | ⟨ps, r⟩, ⟨qs, s⟩ =>
    decidable_of_iff (ps = qs ∧ r = s) (by simp)

instance : DecidableEq ClassTy
  | ⟨fs, ms⟩, ⟨gs, ns⟩ =>
    decidable_of_iff (fs = gs ∧ ms = ns) (by simp)

end Stackling
