import Stackling.Code.Instr

/-!
# Code buffers

A buffer collects code whose function bodies may be nested in one another. Opening a body suspends
what was being written; closing it moves the body to the function area and resumes. The finished
code is the main line followed by the function area.
-/

namespace Stackling

/-- Code in place, and the complete function bodies that came up in it. -/
structure Fragment where
  code : List Instr
  bodies : List Instr
  deriving DecidableEq, Repr, Inhabited

namespace Fragment

def empty : Fragment := ⟨[], []⟩

/-- One fragment after another. -/
def append (f g : Fragment) : Fragment := ⟨f.code ++ g.code, f.bodies ++ g.bodies⟩

instance : Append Fragment := ⟨append⟩

@[simp] theorem code_append (f g : Fragment) : (f ++ g).code = f.code ++ g.code := rfl

@[simp] theorem bodies_append (f g : Fragment) : (f ++ g).bodies = f.bodies ++ g.bodies := rfl

end Fragment

structure CodeBuffer where
  current : List Instr := []
  /-- Interrupted code, innermost first. -/
  suspended : List (List Instr) := []
  /-- Closed bodies, in the order in which they were closed. -/
  functions : List Instr := []
  labels : LabelSupply := {}
  deriving DecidableEq, Repr, Inhabited

namespace CodeBuffer

def emit (b : CodeBuffer) (code : List Instr) : CodeBuffer :=
  { b with current := b.current ++ code }

/-- Writes the code of a fragment, whose bodies are closed already. -/
def add (b : CodeBuffer) (f : Fragment) : CodeBuffer :=
  { b with current := b.current ++ f.code, functions := b.functions ++ f.bodies }

def place (b : CodeBuffer) (l : Label) : CodeBuffer := b.emit [.label l]

def freshBranch (b : CodeBuffer) : Label × CodeBuffer :=
  let (l, labels) := b.labels.freshBranch
  (l, { b with labels })

def freshFunction (b : CodeBuffer) : Label × CodeBuffer :=
  let (l, labels) := b.labels.freshFunction
  (l, { b with labels })

def openBody (b : CodeBuffer) (entry : Label) : CodeBuffer :=
  { b with current := [.label entry], suspended := b.current :: b.suspended }

/-- Closing with no body open moves the main line itself. -/
def closeBody (b : CodeBuffer) : CodeBuffer :=
  { b with
    current := b.suspended.headD []
    suspended := b.suspended.tail
    functions := b.functions ++ b.current }

/-- The main line after `functions`, when the bodies still open are closed from the inside out. -/
def closeAll (functions current : List Instr) : List (List Instr) → List Instr
  | [] => current ++ functions
  | outer :: rest => closeAll (functions ++ current) outer rest

def finish (b : CodeBuffer) : Listing := ⟨closeAll b.functions b.current b.suspended⟩

end CodeBuffer

end Stackling
