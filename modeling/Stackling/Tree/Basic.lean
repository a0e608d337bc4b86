import Stackling.SourcePos
import Stackling.Tree.Operator
import Stackling.Ty

/-!
# Program trees

Trees of expressions and declarations. A node that uses or declares a name has a number, by which
resolution stores what it finds out about the node. A class has fields and methods of its own;
what it inherits is not in the tree.
-/

namespace Stackling

/-! ### Type annotations -/

/-- Types that can be written in a program. -/
inductive WrittenTy where
  | int
  | bool
  | ref (name : String)
  | arrow (params : List WrittenTy) (result : WrittenTy)

instance : Inhabited WrittenTy := ⟨.int⟩

namespace WrittenTy

def isArrow : WrittenTy → Bool
  | .arrow _ _ => true
  | _ => false

mutual

def ty : WrittenTy → Ty
  | .int => .int
  | .bool => .bool
  | .ref name => .ref name
  | .arrow params result => .arrow ⟨tys params, result.ty⟩

def tys : List WrittenTy → List Ty
  | [] => []
  | a :: as => a.ty :: tys as

end

/-- Stack cells a value of the type takes. -/
def cells (a : WrittenTy) : Nat := if a.isArrow then 2 else 1

@[simp] theorem cells_ty (a : WrittenTy) : a.ty.cells = a.cells := by
  cases a <;> simp [ty, cells, isArrow, Ty.cells]

@[simp] theorem tys_eq_map : ∀ as : List WrittenTy, tys as = as.map ty
  | [] => rfl
  | a :: as => by simp [tys, tys_eq_map as]

end WrittenTy

/-! ### Expressions -/

inductive Expr where
  | int (value : Int32) (pos : SourcePos)
  | bool (value : Bool) (pos : SourcePos)
  | null (pos : SourcePos)
  | name (id : NodeId) (name : String) (pos : SourcePos)
  | binary (op : BinOp) (left right : Expr) (pos : SourcePos)
  | not (operand : Expr) (pos : SourcePos)
  | ite (cond yes no : Expr) (pos : SourcePos)
  | call (id : NodeId) (callee : String) (args : List Expr) (pos : SourcePos)
  /-- A call of a method of the object that `receiver` names. -/
  | send (id : NodeId) (receiver method : String) (args : List Expr) (pos : SourcePos)
  | new (id : NodeId) (cls : String) (args : List Expr) (pos : SourcePos)
  /-- Prints a value and is that value. -/
  | print (value : Expr) (pos : SourcePos)

instance : Inhabited Expr := ⟨.null default⟩

def Expr.pos : Expr → SourcePos
  | .int _ p | .bool _ p | .null p | .name _ _ p | .binary _ _ _ p | .not _ p | .ite _ _ _ p
  | .call _ _ _ p | .send _ _ _ _ p | .new _ _ _ p | .print _ p => p

/-! ### Declarations -/

/-- A parameter or a field. -/
structure TypedName where
  id : NodeId
  name : String
  declared : WrittenTy
  pos : SourcePos
  deriving Inhabited

structure VarDecl where
  id : NodeId
  name : String
  declared : WrittenTy
  init : Expr
  pos : SourcePos
  deriving Inhabited

mutual

inductive Decl where
  | var (decl : VarDecl)
  | fn (decl : FunDecl)
  | cls (decl : ClassDecl)

/-- A function or a method. -/
structure FunDecl where
  id : NodeId
  name : String
  params : List TypedName
  result : WrittenTy
  decls : List Decl
  body : Expr
  pos : SourcePos

structure ClassDecl where
  id : NodeId
  name : String
  superclass : Option String
  fields : List TypedName
  methods : List FunDecl
  pos : SourcePos

end

instance : Inhabited Decl := ⟨.var default⟩

def FunDecl.signature (f : FunDecl) : Signature :=
  ⟨f.params.map (·.declared.ty), f.result.ty⟩

namespace Decl

def id : Decl → NodeId
  | .var d => d.id
  | .fn d => d.id
  | .cls d => d.id

def name : Decl → String
  | .var d => d.name
  | .fn d => d.name
  | .cls d => d.name

def pos : Decl → SourcePos
  | .var d => d.pos
  | .fn d => d.pos
  | .cls d => d.pos

/-- Stack cells a declaration takes in its frame: a function is a function value, and a class is
the address of its dispatch table. -/
def cells : Decl → Nat
  | .var d => d.declared.cells
  | .fn _ => 2
  | .cls _ => 1

end Decl

structure Program where
  decls : List Decl
  body : Expr
  pos : SourcePos
  deriving Inhabited

end Stackling
