import Stackling.Proofs.Resolution.Findings

/-!
# Occurrences of names

A second reading of scopes, by which resolution is measured. Here a scope is what the text has
declared in it so far, and a name stands for its first declaration in the innermost scope that has
one. Nothing is typed, placed or counted. An occurrence of a name is listed with the scopes around
it.
-/

namespace Stackling

/-! ### Scopes -/

/-- The members that a class has under their names, each as it was declared. -/
abbrev MemberTable := String → Option OwnMember

/-- What a scope has declared by some point of the text. -/
inductive Level where
  /-- The global scope, or the parameters and then the locals of a function, in the order of the
  text. -/
  | block (decls : List (String × NodeId))
  /-- A class, with all its members. -/
  | members (table : MemberTable)

/-- The first declaration of the name. -/
def Level.find? : Level → String → Option NodeId
  | block ds, x => (ds.find? (·.1 = x)).map (·.2)
  | members table, x => (table x).map (·.id)

/-- The declaration that a name stands for, with the number of scopes that lie between. -/
def declaration? : List Level → String → Option (Nat × NodeId)
  | [], _ => none
  | l :: ls, x =>
    match l.find? x with
    | some d => some (0, d)
    | none => (declaration? ls x).map fun (hops, d) => (hops + 1, d)

/-- The innermost scope has declared the name. -/
def declaredHere : List Level → String → Bool
  | [], _ => false
  | l :: _, x => (l.find? x).isSome

/-- What can be seen from a place: the scopes around it, innermost first, and the classes so far. -/
structure View where
  levels : List Level
  classes : String → Option MemberTable

namespace View

/-- Only the first declaration of a name in a scope counts. -/
def declare (v : View) (x : String) (d : NodeId) : View :=
  match v.levels with
  | .block ds :: outer => { v with levels := .block (ds ++ [(x, d)]) :: outer }
  | _ => v

def enter (v : View) (l : Level) : View := { v with levels := l :: v.levels }

end View

/-- The first member that a class declares under a name, unless one of the other sort is
inherited. -/
def ClassDecl.table (c : ClassDecl) (inherited : MemberTable) : MemberTable := fun x =>
  match c.ownMembers.find? (·.name = x), inherited x with
  | none, old => old
  | some own, none => some own
  | some own, some old => if old.ty.isMethod = own.ty.isMethod then some own else some old

namespace View

/-- All members of a class; those of a superclass that is not declared by now are missing. -/
def tableOf (v : View) (c : ClassDecl) : MemberTable :=
  c.table ((c.superclass.bind v.classes).getD fun _ => none)

/-- Only a class with a new name can be a superclass. -/
def declareClass (v : View) (c : ClassDecl) : View where
  levels := (v.declare c.name c.id).levels
  classes := if declaredHere v.levels c.name then v.classes
    else fun x => if x = c.name then some (v.tableOf c) else v.classes x

end View

/-! ### Occurrences -/

/-- An identifier, the callee of a call or the receiver of a method call. -/
structure NameUse where
  id : NodeId
  kind : NameKind
  name : String
  pos : SourcePos
  /-- The method that is called, if the name is that of a receiver. -/
  method : Option String := none
  levels : List Level

namespace NameUse

def target? (u : NameUse) : Option (Nat × NodeId) := declaration? u.levels u.name

/-- The nesting depth of the innermost scope around the use. -/
def depth (u : NameUse) : Nat := u.levels.length - 1

end NameUse

inductive Occurrence where
  | use (use : NameUse)
  | declaration (kind : NameKind) (name : String) (pos : SourcePos) (levels : List Level)

/-- A use must have a declaration, and a declaration must be the first in its scope. -/
def Occurrence.error? : Occurrence → Option ScopeError
  | use u => if u.target?.isNone then some (.undeclared u.kind u.name u.pos) else none
  | declaration kind name pos levels =>
    if declaredHere levels name then some (.redeclared kind name pos) else none

mutual

def Expr.occurrences (levels : List Level) : Expr → List Occurrence
  | .int _ _ | .bool _ _ | .null _ => []
  | .name id name pos => [.use { id, kind := .identifier, name, pos, levels }]
  | .binary _ left right _ => left.occurrences levels ++ right.occurrences levels
  | .not operand _ => operand.occurrences levels
  | .ite cond yes no _ => cond.occurrences levels ++ yes.occurrences levels ++ no.occurrences levels
  | .call id callee args pos =>
    .use { id, kind := .function, name := callee, pos, levels } :: argOccurrences levels args
  | .send id receiver method args pos =>
    .use { id, kind := .identifier, name := receiver, pos, method := some method, levels } ::
      argOccurrences levels args
  | .new _ _ args _ => argOccurrences levels args
  | .print value _ => value.occurrences levels

def argOccurrences (levels : List Level) : List Expr → List Occurrence
  | [] => []
  | e :: es => e.occurrences levels ++ argOccurrences levels es

end

def View.declareParams (v : View) : List TypedName → View × List Occurrence
  | [] => (v, [])
  | p :: ps =>
    let (after, declared) := (v.declare p.name p.id).declareParams ps
    (after, .declaration .parameter p.name p.pos v.levels :: declared)

mutual

/-- What can be seen after a declaration, and the names in it. A variable cannot be seen from its
own initial value; a function can be seen from its body, and a class from its methods. -/
def Decl.occurrences (v : View) : Decl → View × List Occurrence
  | .var ⟨id, name, _, init, pos⟩ =>
    (v.declare name id, init.occurrences v.levels ++ [.declaration .variable name pos v.levels])
  | .fn f =>
    let after := v.declare f.name f.id
    (after, .declaration .function f.name f.pos v.levels :: f.occurrences after)
  | .cls ⟨id, name, superclass, fields, methods, pos⟩ =>
    let c : ClassDecl := ⟨id, name, superclass, fields, methods, pos⟩
    let after := v.declareClass c
    (after, .declaration .cls name pos v.levels ::
      methodOccurrences (after.enter (.members (v.tableOf c))) methods)

def FunDecl.occurrences (v : View) : FunDecl → List Occurrence
  | ⟨_, _, params, _, decls, body, _⟩ =>
    let (inner, declared) := (v.enter (.block [])).declareParams params
    let (inner, found) := declOccurrences inner decls
    declared ++ found ++ body.occurrences inner.levels

def declOccurrences (v : View) : List Decl → View × List Occurrence
  | [] => (v, [])
  | d :: ds =>
    let (v, found) := d.occurrences v
    let (v, more) := declOccurrences v ds
    (v, found ++ more)

def methodOccurrences (v : View) : List FunDecl → List Occurrence
  | [] => []
  | m :: ms => m.occurrences v ++ methodOccurrences v ms

end

/-- The global scope before any declaration. -/
def View.global : View := ⟨[.block []], fun _ => none⟩

/-- All occurrences of names in a program. -/
def Program.occurrences (p : Program) : List Occurrence :=
  let (v, found) := declOccurrences .global p.decls
  found ++ p.body.occurrences v.levels

/-! ### Equations -/

section Equations

variable (v : View)

theorem View.classes_declare (x : String) (d : NodeId) : (v.declare x d).classes = v.classes := by
  unfold View.declare
  split <;> rfl

variable {v} in
theorem View.levels_declare_block {ds : List (String × NodeId)} {outer : List Level}
    (h : v.levels = .block ds :: outer) (x : String) (d : NodeId) :
    (v.declare x d).levels = .block (ds ++ [(x, d)]) :: outer := by
  unfold View.declare
  rw [h]

theorem View.declareParams_cons (p : TypedName) (ps : List TypedName) :
    v.declareParams (p :: ps) = (((v.declare p.name p.id).declareParams ps).1,
      .declaration .parameter p.name p.pos v.levels ::
        ((v.declare p.name p.id).declareParams ps).2) := rfl

theorem Decl.occurrences_var (d : VarDecl) : (Decl.var d).occurrences v =
    (v.declare d.name d.id,
      d.init.occurrences v.levels ++ [.declaration .variable d.name d.pos v.levels]) := by
  cases d
  rw [Decl.occurrences]

theorem Decl.occurrences_cls (c : ClassDecl) : (Decl.cls c).occurrences v =
    (v.declareClass c, .declaration .cls c.name c.pos v.levels ::
      methodOccurrences ((v.declareClass c).enter (.members (v.tableOf c))) c.methods) := by
  cases c
  rw [Decl.occurrences]

theorem FunDecl.occurrences_eq (f : FunDecl) : f.occurrences v =
    ((v.enter (.block [])).declareParams f.params).2 ++
      (declOccurrences ((v.enter (.block [])).declareParams f.params).1 f.decls).2 ++
      f.body.occurrences
        (declOccurrences ((v.enter (.block [])).declareParams f.params).1 f.decls).1.levels := by
  cases f
  rw [FunDecl.occurrences]

theorem declOccurrences_cons (d : Decl) (ds : List Decl) : declOccurrences v (d :: ds) =
    ((declOccurrences (d.occurrences v).1 ds).1,
      (d.occurrences v).2 ++ (declOccurrences (d.occurrences v).1 ds).2) := by
  rw [declOccurrences]

end Equations

/-- The declarations of a block after one more. -/
theorem Level.find?_block_append (ds : List (String × NodeId)) (x y : String) (d : NodeId) :
    (Level.block (ds ++ [(x, d)])).find? y =
      ((Level.block ds).find? y).or (if x = y then some d else none) := by
  simp only [find?, List.find?_append]
  cases ds.find? (·.1 = y) with
  | some p => rfl
  | none =>
    by_cases hxy : x = y
    · simp [hxy]
    · simp [hxy]

end Stackling
