import Stackling.Code.Declaration
import Stackling.Failure
import Stackling.Machine.Run
import Stackling.Report
import Stackling.Resolution.Resolve
import Stackling.Typing.Check

/-!
# From a program to its result

Code is generated only for programs without errors in the report. A run prints the code, reads it
back as the machine's text and runs it.
-/

namespace Stackling

structure Settings where
  memorySize : Int32 := 10000
  /-- Errors found by an earlier tool. -/
  externalErrors : UInt64 := 0
  deriving DecidableEq, Repr, Inhabited

/-- The address of the global frame, which is the end of memory. -/
def Settings.globalFrame (c : Settings) : Int32 := c.memorySize

/-- The usual bounds of a run in a memory of this size. -/
def Limits.ofMemorySize (memorySize : Int32) : Limits := { memorySize }

/-- What compiling a program gives: code if there are no errors, the type of the body if it has
one, and the report. -/
structure Compilation where
  listing : Option Listing
  result : Option Ty
  report : Report

def Compilation.succeeded (c : Compilation) : Bool := c.listing.isSome

namespace Program

def compile (p : Program) (c : Settings) : Except Failure Compilation :=
  let resolution := p.resolve
  let checked := p.check resolution
  let report := Report.ofErrors resolution.errors checked.errors c.externalErrors
  if report.hasErrors then .ok ⟨none, checked.result, report⟩
  else
    match p.generate resolution c.globalFrame with
    | .ok listing => .ok ⟨some listing, checked.result, report⟩
    | .error e => .error (.lowering e)

def listing (p : Program) (c : Settings) : Except Failure Listing := do
  let compilation ← p.compile c
  match compilation.listing with
  | some listing => return listing
  | none => throw (.frontEnd compilation.report.errorCount)

/-- Compiles a program and runs it for at most `maxSteps` operations. -/
def run (p : Program) (c : Settings) (maxSteps : Nat) : Except Failure Outcome := do
  let listing ← p.listing c
  let image ← (Image.ofText listing.text).mapError .reading
  (image.run { Limits.ofMemorySize c.memorySize with maxSteps }).mapError .fault

end Program

end Stackling
