import Stackling.Hierarchy
import Stackling.ObjectLayout
import Stackling.Resolution.Error

/-!
# Results of name resolution

Resolution walks a program and notes its findings in order; a resolution sorts them into tables
by node number. Where two findings are about one node, the later one counts.
-/

namespace Stackling

/-- A declared class. -/
structure ClassRecord where
  name : String
  superclass : Option String
  entry : Entry
  layout : ObjectLayout
  deriving Inhabited

/-- The classes declared so far and their hierarchy. -/
structure ClassTable where
  records : Std.TreeMap String ClassRecord := ∅
  hierarchy : Hierarchy := {}

instance : Inhabited ClassTable := ⟨{}⟩

def ClassTable.add (t : ClassTable) (r : ClassRecord) : ClassTable where
  records := t.records.insert r.name r
  hierarchy :=
    match r.superclass with
    | some s => t.hierarchy.add r.name s
    | none => t.hierarchy

/-- A method call that is resolved: its receiver, the class of the receiver and the method there. -/
structure Dispatch where
  receiver : Binding
  cls : String
  method : Entry
  deriving DecidableEq, Inhabited

/-- What resolution can find out at a node. -/
inductive Finding where
  | use (id : NodeId) (binding : Binding)
  | send (id : NodeId) (dispatch : Dispatch)
  | decl (id : NodeId) (entry : Entry)
  /-- The place of a member among the fields or methods of its class. -/
  | position (id : NodeId) (position : Nat)
  | error (error : ScopeError)

namespace Finding

def use? : Finding → Option (NodeId × Binding)
  | use id b => some (id, b)
  | _ => none

def send? : Finding → Option (NodeId × Dispatch)
  | send id d => some (id, d)
  | _ => none

def decl? : Finding → Option (NodeId × Entry)
  | decl id e => some (id, e)
  | _ => none

def position? : Finding → Option (NodeId × Nat)
  | position id n => some (id, n)
  | _ => none

def error? : Finding → Option ScopeError
  | error e => some e
  | _ => none

end Finding

/-- Facts about the nodes of a tree, by node number. -/
abbrev NodeTable (α : Type) := Std.TreeMap NodeId α

structure Resolution where
  uses : NodeTable Binding
  sends : NodeTable Dispatch
  decls : NodeTable Entry
  positions : NodeTable Nat
  classes : ClassTable
  errors : List ScopeError

namespace Resolution

def ofFindings (findings : List Finding) (classes : ClassTable) : Resolution where
  uses := .ofList (findings.filterMap Finding.use?)
  sends := .ofList (findings.filterMap Finding.send?)
  decls := .ofList (findings.filterMap Finding.decl?)
  positions := .ofList (findings.filterMap Finding.position?)
  classes := classes
  errors := findings.filterMap Finding.error?

def class? (r : Resolution) (name : String) : Option ClassRecord := r.classes.records[name]?

def hierarchy (r : Resolution) : Hierarchy := r.classes.hierarchy

end Resolution

end Stackling
