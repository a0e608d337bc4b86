import Stackling.Code.Error
import Stackling.Code.Sequence
import Stackling.Resolution.Basic
import Stackling.Tree.Basic

/-!
# Code of expressions

The code of an expression leaves its value on top of the stack: one cell, or for a function value
two, the frame below the code address. Labels for branches are taken before the code of the parts.
-/

namespace Stackling

/-- What the code of an expression depends on. -/
structure CodeContext where
  resolution : Resolution
  /-- The address of the global frame. -/
  globalFrame : Int32
  /-- Whether the code stands in a method: the chain of frames then passes through an object and
  does not lead to the global frame. -/
  inClass : Bool := false

/-- Code generation for expressions takes fresh labels as it goes. -/
abbrev LabelM := StateT LabelSupply (Except LoweringError)

def freshBranch : LabelM Label := modifyGet LabelSupply.freshBranch

namespace CodeContext

/-- The address of the frame in which an entry lives. -/
def frameAccess (g : CodeContext) (b : Binding) : List Instr :=
  if b.entry.depth = 0 && g.inClass then [.push g.globalFrame]
  else Code.plain (.lfp :: List.replicate b.hops .lw)

def useOf (g : CodeContext) (id : NodeId) (name : String) (pos : SourcePos) : LabelM Binding :=
  match g.resolution.uses[id]? with
  | some binding => pure binding
  | none => throw (.unresolved name pos)

def sendOf (g : CodeContext) (id : NodeId) (name : String) (pos : SourcePos) : LabelM Dispatch :=
  match g.resolution.sends[id]? with
  | some dispatch => pure dispatch
  | none => throw (.unresolved name pos)

end CodeContext

/-- Compares the values of two codes. -/
def compareCode (kind : Jump) (first second : LabelM (List Instr)) : LabelM (List Instr) := do
  let yes ← freshBranch
  let done ← freshBranch
  let a ← first
  let b ← second
  return a ++ b ++ Code.truthValue kind yes done

mutual

def Expr.code (g : CodeContext) : Expr → LabelM (List Instr)
  | .int value _ => return [.push value]
  | .bool value _ => return [.push (if value then 1 else 0)]
  | .null _ => return [.push (-1)]
  | .name id name pos => do
    let b ← g.useOf id name pos
    let offset := b.entry.offset
    return g.frameAccess b ++ if b.entry.ty.isArrow then Code.loadClosure offset else
      Code.load offset
  | .binary op left right _ =>
    match op with
    | .add => return (← left.code g) ++ (← right.code g) ++ [.bare .add]
    | .sub => return (← left.code g) ++ (← right.code g) ++ [.bare .sub]
    | .div => return (← left.code g) ++ (← right.code g) ++ [.bare .div]
    | .mul | .and => return (← left.code g) ++ (← right.code g) ++ [.bare .mult]
    | .or => do
      let yes ← freshBranch
      let done ← freshBranch
      let a ← left.code g
      let b ← right.code g
      return a ++ [.push 1, .jump .equal yes] ++ b ++ .push 1 :: Code.truthValue .equal yes done
    | .equal => compareCode .equal (left.code g) (right.code g)
    | .lessEqual => compareCode .lessEqual (left.code g) (right.code g)
    | .greaterEqual => compareCode .lessEqual (right.code g) (left.code g)
  | .not operand _ => return .push 1 :: (← operand.code g) ++ [.bare .sub]
  | .ite cond yes no _ => do
    let taken ← freshBranch
    let done ← freshBranch
    let c ← cond.code g
    let b ← no.code g
    let a ← yes.code g
    return c ++ [.push 1, .jump .equal taken] ++ b ++ [.jump .always done, .label taken] ++ a
      ++ [.label done]
  | .print value _ => return (← value.code g) ++ [.bare .print]
  | .call id callee args pos => do
    let b ← g.useOf id callee pos
    let arguments ← argumentCode g args
    let offset := b.entry.offset
    return .bare .lfp :: arguments ++ g.frameAccess b ++
      if b.entry.ty.isMethod then Code.dispatch offset
      else Code.loadClosure offset ++ [.bare .js]
  | .send id _ method args pos => do
    let d ← g.sendOf id method pos
    let arguments ← argumentCode g args
    return .bare .lfp :: arguments ++ g.frameAccess d.receiver
      ++ Code.load d.receiver.entry.offset ++ Code.dispatch d.method.offset
  | .new id cls args pos => do
    let b ← g.useOf id cls pos
    match b.entry.ty with
    | .cls c =>
      let values ← valueCode g args
      return values ++ Code.makeObject c.cells (g.globalFrame + b.entry.offset)
    | _ => throw (.unknownClass cls pos)

/-- The arguments of a call, the last one first. -/
def argumentCode (g : CodeContext) : List Expr → LabelM (List Instr)
  | [] => return []
  | e :: es => do
    let rest ← argumentCode g es
    return rest ++ (← e.code g)

/-- The field values of an object, the first one first. -/
def valueCode (g : CodeContext) : List Expr → LabelM (List Instr)
  | [] => return []
  | e :: es => do
    let code ← e.code g
    return code ++ (← valueCode g es)

end

end Stackling
