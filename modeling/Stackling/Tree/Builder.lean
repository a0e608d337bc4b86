import Stackling.Tree.Basic

/-!
# Building trees

A builder hands out node numbers in the order in which nodes are made, and gives each node the
line that was last set. Children are made before the node that holds them.
-/

namespace Stackling

structure Builder where
  nextId : NodeId := 0
  line : Nat := 1
  deriving DecidableEq, Repr, Inhabited

abbrev BuildM := StateM Builder

namespace Builder

/-- Nodes made from now on stand on this line. -/
def moveTo (line : Nat) : BuildM Unit := modify ({ · with line })

def here : BuildM SourcePos := return { line := (← get).line }

def fresh : BuildM NodeId := modifyGet fun b => (b.nextId, { b with nextId := b.nextId + 1 })

/-! ### Expressions -/

def int (value : Int32) : BuildM Expr := return .int value (← here)

def bool (value : Bool) : BuildM Expr := return .bool value (← here)

def null : BuildM Expr := return .null (← here)

def name (n : String) : BuildM Expr := return .name (← fresh) n (← here)

def binary (op : BinOp) (left right : Expr) : BuildM Expr := return .binary op left right (← here)

def not (operand : Expr) : BuildM Expr := return .not operand (← here)

def ite (cond yes no : Expr) : BuildM Expr := return .ite cond yes no (← here)

def call (callee : String) (args : List Expr) : BuildM Expr :=
  return .call (← fresh) callee args (← here)

def send (receiver method : String) (args : List Expr) : BuildM Expr :=
  return .send (← fresh) receiver method args (← here)

def new (cls : String) (args : List Expr) : BuildM Expr :=
  return .new (← fresh) cls args (← here)

def print (value : Expr) : BuildM Expr := return .print value (← here)

/-! ### Declarations -/

def typedName (n : String) (declared : WrittenTy) : BuildM TypedName :=
  return ⟨← fresh, n, declared, ← here⟩

def var (n : String) (declared : WrittenTy) (init : Expr) : BuildM VarDecl :=
  return ⟨← fresh, n, declared, init, ← here⟩

def fn (n : String) (params : List TypedName) (result : WrittenTy) (decls : List Decl)
    (body : Expr) : BuildM FunDecl :=
  return ⟨← fresh, n, params, result, decls, body, ← here⟩

def cls (n : String) (superclass : Option String) (fields : List TypedName)
    (methods : List FunDecl) : BuildM ClassDecl :=
  return ⟨← fresh, n, superclass, fields, methods, ← here⟩

def program (decls : List Decl) (body : Expr) : BuildM Program := return ⟨decls, body, ← here⟩

end Builder

end Stackling
