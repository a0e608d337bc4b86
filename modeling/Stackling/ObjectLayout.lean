import Stackling.Scope.Stack

/-!
# Object layouts

A class extends the layout of its superclass. An object has its fields below the address by which
it is known, the first field nearest, and its methods stand in a dispatch table that counts up from
zero. A member that overrides an inherited one takes over its place.
-/

namespace Stackling

/-- A field or method: its entry and its place among the fields or among the methods. -/
structure Member where
  entry : Entry
  position : Nat
  deriving DecidableEq, Inhabited

def Member.isMethod (m : Member) : Bool := m.entry.ty.isMethod

structure ObjectLayout where
  classTy : ClassTy := .empty
  /-- Heap cells that the fields take. -/
  fieldCells : Nat := 0
  members : Std.TreeMap String Member := ∅

namespace ObjectLayout

instance : Inhabited ObjectLayout := ⟨{}⟩

/-- The nesting depth of members: methods stand one scope below the global one. -/
def memberDepth : Nat := 1

def addField (l : ObjectLayout) (name : String) (ty : Ty) : Member × ObjectLayout :=
  let member : Member :=
    ⟨⟨memberDepth, ty, -(Int32.ofNat l.fieldCells) - 1⟩, l.classTy.fields.length⟩
  (member,
    { classTy := { l.classTy with fields := l.classTy.fields ++ [ty] }
      fieldCells := l.fieldCells + ty.cells
      members := l.members.insert name member })

/-- Only a method type takes a place in the dispatch table. -/
def addMethod (l : ObjectLayout) (name : String) (ty : Ty) : Member × ObjectLayout :=
  let place := l.classTy.methods.length
  let member : Member := ⟨⟨memberDepth, ty, Int32.ofNat place⟩, place⟩
  let methods := match ty with
    | .method sig => l.classTy.methods ++ [sig]
    | _ => l.classTy.methods
  (member,
    { l with
      classTy := { l.classTy with methods }
      members := l.members.insert name member })

/-- Gives the place of the member `inherited` to a member of another type. -/
def override (l : ObjectLayout) (name : String) (inherited : Member) (ty : Ty) :
    Member × ObjectLayout :=
  let member : Member := ⟨⟨memberDepth, ty, inherited.entry.offset⟩, inherited.position⟩
  let classTy := match ty with
    | .method sig => { l.classTy with methods := l.classTy.methods.set inherited.position sig }
    | _ => { l.classTy with fields := l.classTy.fields.set inherited.position ty }
  (member, { l with classTy, members := l.members.insert name member })

/-- The members as a scope for the bodies of the methods. -/
def scope (l : ObjectLayout) : Scope := l.members.map fun _ m => m.entry

def method? (l : ObjectLayout) (name : String) : Option Member :=
  l.members[name]?.filter Member.isMethod

end ObjectLayout

end Stackling
