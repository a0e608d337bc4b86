import Stackling.Code.Instr
import Stackling.Text.Blank
import Std.Data.TreeMap

/-!
# Machine code and its text

A code image is the list of operations that the machine runs, with labels replaced by addresses.
The text of an image has one instruction or label definition a line. It is read in two passes:
the first finds the address of each label, which is the number of operations before it, and the
second reads the operations.
-/

namespace Stackling

/-- Operations of the machine. -/
inductive Op where
  | bare (op : Bare)
  | push (value : Int32)
  | jump (kind : Jump) (target : Nat)
  deriving DecidableEq, Repr, Inhabited

def Op.mnemonic : Op → String
  | .bare op => op.mnemonic
  | .push _ => "push"
  | .jump kind _ => kind.mnemonic

/-- Machine code; an operation's address is its index. -/
structure Image where
  ops : Array Op
  deriving DecidableEq, Repr, Inhabited

/-- Faults in the text of an image, with the number of the line, counted from one. -/
inductive ReadError where
  | unknownInstruction (mnemonic : String) (line : Nat)
  | invalidOperand (mnemonic : String) (line : Nat)
  | undefinedLabel (label : String) (line : Nat)
  | duplicateLabel (label : String) (line : Nat)
  deriving DecidableEq, Repr, Inhabited

namespace ReadError

def line : ReadError → Nat
  | unknownInstruction _ n | invalidOperand _ n | undefinedLabel _ n | duplicateLabel _ n => n

def message : ReadError → String
  | unknownInstruction mnemonic n => s!"unknown instruction '{mnemonic}' on line {n}"
  | invalidOperand mnemonic n => s!"invalid operand for '{mnemonic}' on line {n}"
  | undefinedLabel label n => s!"undefined label '{label}' on line {n}"
  | duplicateLabel label n => s!"duplicate label '{label}' on line {n}"

end ReadError

namespace Image

/-! ### Lines -/

/-- What a line that is not blank holds. -/
inductive Line where
  /-- The text before a final colon. -/
  | definition (label : String)
  /-- The words of an instruction. -/
  | instruction (words : List (List Char))

structure NumberedLine where
  number : Nat
  content : Line

/-- The content of a trimmed line. -/
def Line.ofChars (cs : List Char) : Line :=
  if cs.getLast? = some ':' then .definition (String.ofList cs.dropLast)
  else .instruction (Text.words cs)

/-- The lines that are not blank, numbered from `n`. -/
def numberLines (n : Nat) : List (List Char) → List NumberedLine
  | [] => []
  | l :: ls =>
    let t := Text.trim l
    if t.isEmpty then numberLines (n + 1) ls
    else ⟨n, .ofChars t⟩ :: numberLines (n + 1) ls

def contentLines (text : String) : List NumberedLine := numberLines 1 (Text.lines text.toList)

/-! ### Labels -/

/-- The address of each label. -/
abbrev LabelTable := Std.TreeMap String Nat

/-- The labels of a text, after `labels` and `address` operations. -/
def collectLabels (labels : LabelTable) (address : Nat) :
    List NumberedLine → Except ReadError LabelTable
  | [] => .ok labels
  | ⟨n, .definition l⟩ :: rest =>
    if labels.contains l then .error (.duplicateLabel l n)
    else collectLabels (labels.insert l address) address rest
  | ⟨_, .instruction _⟩ :: rest => collectLabels labels (address + 1) rest

/-! ### Operations -/

/-- Reads an instruction by its mnemonic and operand. A number after `push` is itself; any other
operand is a label. -/
def readOp (labels : LabelTable) (line : Nat) (mnemonic : String) (operand : Option (List Char)) :
    Except ReadError Op :=
  let target (cs : List Char) : Except ReadError Nat :=
    match labels[String.ofList cs]? with
    | some address => .ok address
    | none => .error (.undefinedLabel (String.ofList cs) line)
  let invalid : ReadError := .invalidOperand mnemonic line
  if mnemonic = "push" then
    match operand with
    | none => .error invalid
    | some cs =>
      match Text.readInt32? cs with
      | some value => .ok (.push value)
      | none => (target cs).map fun address => .push (Int32.ofNat address)
  else
    match Jump.ofMnemonic? mnemonic with
    | some kind =>
      match operand with
      | none => .error invalid
      | some cs => (target cs).map (.jump kind)
    | none =>
      match Bare.ofMnemonic? mnemonic with
      | some op => if operand.isNone then .ok (.bare op) else .error invalid
      | none => .error (.unknownInstruction mnemonic line)

/-- Reads the words of an instruction: a mnemonic and at most one operand. -/
def readWords (labels : LabelTable) (line : Nat) : List (List Char) → Except ReadError Op
  | [] => readOp labels line "" none
  | [m] => readOp labels line (String.ofList m) none
  | [m, operand] => readOp labels line (String.ofList m) (some operand)
  | m :: _ :: _ :: _ => .error (.invalidOperand (String.ofList m) line)

def readOps (labels : LabelTable) : List NumberedLine → Except ReadError (List Op)
  | [] => .ok []
  | ⟨_, .definition _⟩ :: rest => readOps labels rest
  | ⟨n, .instruction words⟩ :: rest => do
    let op ← readWords labels n words
    let ops ← readOps labels rest
    return op :: ops

/-- The image that a text describes. -/
def ofText (text : String) : Except ReadError Image := do
  let lines := contentLines text
  let labels ← collectLabels ∅ 0 lines
  let ops ← readOps labels lines
  return ⟨ops.toArray⟩

end Image

end Stackling
