import Stackling.Code.Buffer
import Stackling.Code.Expression

/-!
# Code of declarations and programs

A declaration leaves its cells on top of the stack, so that they stand in the frame where
resolution has placed them: a variable its value, a function its function value, and a class the
address of its dispatch table. The bodies of functions are kept apart from the code in which they
are declared, and stand behind the main code in the order in which they are complete.
-/

namespace Stackling

/-- A function's entry, and the complete bodies up to its own. -/
structure Routine where
  entry : Label
  bodies : List Instr

/-- The labels given out so far, and the methods of each class that has been met, by place. -/
structure CodeState where
  labels : LabelSupply := {}
  tables : Std.TreeMap String (List Label) := ∅

abbrev CodeM := StateT CodeState (Except LoweringError)

/-- The labels that an expression takes are taken for good. -/
def LabelM.lift {α : Type} (x : LabelM α) : CodeM α := fun s => do
  let (a, labels) ← x s.labels
  return (a, { s with labels })

def freshFunction : CodeM Label :=
  modifyGet fun s =>
    let (l, labels) := s.labels.freshFunction
    (l, { s with labels })

/-- Puts a method in its place of a dispatch table, or behind a table that ends before it. -/
def placeMethod (table : List Label) (offset : Int32) (entry : Label) : List Label :=
  let place := offset.toNatClampNeg
  if place < table.length then table.set place entry else table ++ [entry]

def inheritedTable (tables : Std.TreeMap String (List Label)) (record : ClassRecord) : List Label :=
  (record.superclass.bind (tables[·]?)).getD []

/-- The record of a class, if its declaration was accepted. -/
def CodeContext.recordOf (g : CodeContext) (id : NodeId) (name : String) (pos : SourcePos) :
    CodeM ClassRecord :=
  match g.resolution.decls[id]?.bind fun _ => g.resolution.class? name with
  | some record => pure record
  | none => throw (.unknownClass name pos)

def CodeContext.entryOf (g : CodeContext) (id : NodeId) (name : String) (pos : SourcePos) :
    CodeM Entry :=
  match g.resolution.decls[id]? with
  | some entry => pure entry
  | none => throw (.unresolved name pos)

mutual

def Decl.code (g : CodeContext) : Decl → CodeM Fragment
  | .var d => return ⟨← (d.init.code g).lift, []⟩
  | .fn f => do
    let routine ← f.code g
    return ⟨[.bare .lfp, .pushLabel routine.entry], routine.bodies⟩
  | .cls ⟨id, name, _, _, methods, pos⟩ => do
    let record ← g.recordOf id name pos
    let inherited := inheritedTable (← get).tables record
    let (table, bodies) ← methodCode { g with inClass := true } inherited methods
    modify fun s => { s with tables := s.tables.insert name table }
    return ⟨Code.dispatchTable table, bodies⟩

def FunDecl.code (g : CodeContext) : FunDecl → CodeM Routine
  | ⟨_, _, params, result, decls, body, _⟩ => do
    let entry ← freshFunction
    let locals ← declCode g decls
    let value ← (body.code g).lift
    let localCells := totalCells Decl.cells decls
    let paramCells := totalCells (·.declared.cells) params
    let buffer := CodeBuffer.openBody {} entry
      |>.emit (Code.plain [.cfp, .lra])
      |>.add locals
      |>.emit (value ++ Code.epilogue localCells paramCells result.isArrow)
      |>.closeBody
    return ⟨entry, buffer.functions⟩

def declCode (g : CodeContext) : List Decl → CodeM Fragment
  | [] => return .empty
  | d :: ds => do
    let first ← d.code g
    return first ++ (← declCode g ds)

/-- The dispatch table that starts as `table`, with the methods in their places. -/
def methodCode (g : CodeContext) (table : List Label) :
    List FunDecl → CodeM (List Label × List Instr)
  | [] => return (table, [])
  | m :: ms => do
    let entry ← g.entryOf m.id m.name m.pos
    let routine ← m.code g
    let (table, bodies) ← methodCode g (placeMethod table entry.offset routine.entry) ms
    return (table, routine.bodies ++ bodies)

end

/-- The main code: a program with declarations first fills the cell that a frame has for its
return address. -/
def Program.code (g : CodeContext) (p : Program) : CodeM Listing := do
  let locals ← declCode g p.decls
  let value ← (p.body.code g).lift
  let buffer := CodeBuffer.emit {} (if p.decls.isEmpty then [] else [.push 0])
    |>.add locals
    |>.emit (value ++ [.bare .halt])
  return buffer.finish

/-- The code of a program whose global frame is at the given address. -/
def Program.generate (p : Program) (r : Resolution) (globalFrame : Int32) :
    Except LoweringError Listing :=
  (p.code { resolution := r, globalFrame }).run' {}

end Stackling
