import Stackling.Code.Label
import Stackling.Text.Integer

/-!
# Instructions

The instruction set of the stack machine. Instructions without operand, `Bare`, and the jump
conditions, `Jump`, are shared by symbolic code, `Instr`, and by code whose labels have been
replaced by addresses, `Op`.
-/

namespace Stackling

/-- Instructions without operand. -/
inductive Bare where
  | pop | add | sub | mult | div | sw | lw | js | lra | sra | ltm | stm | lfp | sfp | cfp
  | lhp | shp | print | halt
  deriving DecidableEq, Repr, Inhabited

namespace Bare

def mnemonic : Bare → String
  | pop => "pop" | add => "add" | sub => "sub" | mult => "mult" | div => "div"
  | sw => "sw" | lw => "lw" | js => "js" | lra => "lra" | sra => "sra"
  | ltm => "ltm" | stm => "stm" | lfp => "lfp" | sfp => "sfp" | cfp => "cfp"
  | lhp => "lhp" | shp => "shp" | print => "print" | halt => "halt"

def all : List Bare :=
  [pop, add, sub, mult, div, sw, lw, js, lra, sra, ltm, stm, lfp, sfp, cfp, lhp, shp, print, halt]

def ofMnemonic? (s : String) : Option Bare := all.find? (·.mnemonic == s)

@[simp] theorem ofMnemonic?_mnemonic (op : Bare) : ofMnemonic? op.mnemonic = some op := by
  cases op <;> rfl

end Bare

/-- When a jump is taken. -/
inductive Jump where
  | always | equal | lessEqual
  deriving DecidableEq, Repr, Inhabited

namespace Jump

def mnemonic : Jump → String
  | always => "b"
  | equal => "beq"
  | lessEqual => "bleq"

def all : List Jump := [always, equal, lessEqual]

def ofMnemonic? (s : String) : Option Jump := all.find? (·.mnemonic == s)

@[simp] theorem ofMnemonic?_mnemonic (kind : Jump) : ofMnemonic? kind.mnemonic = some kind := by
  cases kind <;> rfl

end Jump

/-- Symbolic instructions. A label definition is not an operation of the machine: it names the
address of the next one. -/
inductive Instr where
  | bare (op : Bare)
  | push (value : Int32)
  | pushLabel (label : Label)
  | jump (kind : Jump) (target : Label)
  | label (label : Label)
  deriving DecidableEq, Repr, Inhabited

namespace Instr

/-- The first word of the instruction; a label definition has none. -/
def mnemonic : Instr → String
  | bare op => op.mnemonic
  | push _ | pushLabel _ => "push"
  | jump kind _ => kind.mnemonic
  | label _ => ""

def text : Instr → String
  | bare op => op.mnemonic
  | push value => "push " ++ Text.decimal value
  | pushLabel l => "push " ++ l.text
  | jump kind target => kind.mnemonic ++ " " ++ target.text
  | label l => l.text ++ ":"

end Instr

/-! ### Listings -/

/-- Symbolic code in the order in which it is written down. -/
structure Listing where
  instrs : List Instr
  deriving DecidableEq, Repr, Inhabited

namespace Listing

def lines (l : Listing) : List String := l.instrs.map Instr.text

/-- Each instruction on a line of its own, the last one ended too. -/
def text (l : Listing) : String := String.join (l.lines.map (· ++ "\n"))

end Listing

end Stackling
