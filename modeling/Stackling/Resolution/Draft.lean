import Stackling.Resolution.Basic
import Stackling.Tree.Basic

/-!
# Members of a class

A class starts from the layout that it inherits and adds its own members to it, one by one. A
member that is rejected leaves the layout as it is.
-/

namespace Stackling

/-- A class under construction: its layout so far, its own member names so far, and what was found
on the way. -/
structure ClassDraft where
  layout : ObjectLayout
  seen : List String := []
  findings : List Finding := []

namespace ClassDraft

/-- Adds a member, field or method as its type says. A class may not have two members of its own
under one name, and may override an inherited member only by one of the same sort. -/
def addMember (d : ClassDraft) (cls : String) (id : NodeId) (name : String) (pos : SourcePos)
    (ty : Ty) : ClassDraft :=
  let kind (method : Bool) : NameKind := if method then .method else .field
  let reject (e : ScopeError) : ClassDraft :=
    { d with seen := name :: d.seen, findings := d.findings ++ [.error e] }
  let accept (placed : Member × ObjectLayout) : ClassDraft :=
    { layout := placed.2
      seen := name :: d.seen
      findings := d.findings ++ [.decl id placed.1.entry, .position id placed.1.position] }
  if name ∈ d.seen then reject (.duplicateMember (kind ty.isMethod) name cls pos)
  else
    match d.layout.members[name]? with
    | some inherited =>
      if inherited.isMethod = ty.isMethod then accept (d.layout.override name inherited ty)
      else reject (.illegalOverride name (kind inherited.isMethod) (kind ty.isMethod) pos)
    | none =>
      accept (if ty.isMethod then d.layout.addMethod name ty else d.layout.addField name ty)

end ClassDraft

/-- The layout of a class: what it inherits, then its fields, then its methods. -/
def ClassDecl.draft (c : ClassDecl) (inherited : ObjectLayout) : ClassDraft :=
  let d := c.fields.foldl
    (fun d f => d.addMember c.name f.id f.name f.pos f.declared.ty) { layout := inherited }
  c.methods.foldl (fun d m => d.addMember c.name m.id m.name m.pos (.method m.signature)) d

end Stackling
