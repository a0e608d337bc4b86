import Stackling.Machine.State

/-! # Runs of the machine -/

namespace Stackling

/-- What bounds a run. -/
structure Limits where
  memorySize : Int32 := 10000
  maxSteps : Nat := 10000000
  deriving DecidableEq, Repr, Inhabited

/-- How a run ended: the top of the stack if there is one, what was printed, and the number of
operations run. -/
structure Outcome where
  result : Option Int32
  output : Array Int32
  steps : Nat
  deriving DecidableEq, Repr, Inhabited

/-- Runs at most `budget` more operations after `done` of them. -/
def State.run (image : Image) : (budget done : Nat) → State → Except Fault Outcome
  | 0, done, _ => .error (.stepLimitExceeded done)
  | budget + 1, done, s =>
    match s.step image with
    | .error fault => .error fault
    | .ok (.running s) => run image budget (done + 1) s
    | .ok (.halted s) => .ok ⟨s.memory.cell? s.sp, s.output, done + 1⟩

def Image.run (image : Image) (limits : Limits) : Except Fault Outcome :=
  (State.initial limits.memorySize).run image limits.maxSteps 0

end Stackling
