import Stackling.Machine.Image
import Stackling.Machine.Memory

/-!
# Machine states and steps

The stack grows down from the end of memory and the heap grows up from its start. A step fetches
one operation and runs it; a fault names the address of the operation at which it arose.
-/

namespace Stackling

inductive Fault where
  | stackOverflow (ip : Nat)
  | stackUnderflow (ip : Nat)
  | invalidAddress (address : Int) (ip : Nat)
  | invalidCodeAddress (address : Int) (ip : Nat)
  | divisionByZero (ip : Nat)
  | stepLimitExceeded (limit : Nat)
  deriving DecidableEq, Repr, Inhabited

def Fault.message : Fault → String
  | .stackOverflow ip => s!"stack overflow at instruction {ip}"
  | .stackUnderflow ip => s!"stack underflow at instruction {ip}"
  | .invalidAddress address ip => s!"invalid memory address {address} at instruction {ip}"
  | .invalidCodeAddress address ip => s!"invalid code address {address} at instruction {ip}"
  | .divisionByZero ip => s!"division by zero at instruction {ip}"
  | .stepLimitExceeded limit => s!"step limit of {limit} instructions exceeded"

namespace Memory

/-- The cell at a machine word, if the word is an address. -/
def cell? (m : Memory) (a : Int32) : Option Int32 :=
  if a < 0 then none else m.get? a.toNatClampNeg

end Memory

/-- Memory, registers and the numbers printed so far. -/
structure State where
  memory : Memory
  /-- Address of the next operation. -/
  ip : Nat := 0
  /-- Top of the stack. -/
  sp : Int32
  /-- Frame of the running function. -/
  fp : Int32
  /-- First free cell of the heap. -/
  hp : Int32 := 0
  /-- Return address. -/
  ra : Int32 := 0
  /-- Scratch register. -/
  tm : Int32 := 0
  output : Array Int32 := #[]

namespace State

/-- The start of a run; a negative memory size counts as none. -/
def initial (memorySize : Int32) : State :=
  let size := max 0 memorySize
  { memory := .zeros size.toNatClampNeg, sp := size, fp := size }

/-- The stack may not grow into the heap, nor below the start of memory. -/
def push (s : State) (ip : Nat) (value : Int32) : Except Fault State :=
  if s.sp ≤ s.hp ∨ s.sp ≤ 0 then .error (.stackOverflow ip)
  else
    let sp := s.sp - 1
    .ok { s with sp, memory := s.memory.set sp.toNatClampNeg value }

def peek (s : State) (ip : Nat) : Except Fault Int32 :=
  match s.memory.cell? s.sp with
  | some value => .ok value
  | none => .error (.stackUnderflow ip)

def pop (s : State) (ip : Nat) : Except Fault (Int32 × State) := do
  let value ← s.peek ip
  return (value, { s with sp := s.sp + 1 })

/-- The two topmost cells, the deeper one first. -/
def popTwo (s : State) (ip : Nat) : Except Fault (Int32 × Int32 × State) := do
  let (right, s) ← s.pop ip
  let (left, s) ← s.pop ip
  return (left, right, s)

def load (s : State) (ip : Nat) (address : Int32) : Except Fault Int32 :=
  match s.memory.cell? address with
  | some value => .ok value
  | none => .error (.invalidAddress address.toInt ip)

def store (s : State) (ip : Nat) (address value : Int32) : Except Fault State :=
  if (s.memory.cell? address).isSome then
    .ok { s with memory := s.memory.set address.toNatClampNeg value }
  else .error (.invalidAddress address.toInt ip)

/-- Replaces the two topmost cells by one. -/
def binary (s : State) (ip : Nat) (apply : Int32 → Int32 → Except Fault Int32) :
    Except Fault State := do
  let (left, right, s) ← s.popTwo ip
  s.push ip (← apply left right)

/-- Division rounds toward zero and wraps, as all arithmetic does. -/
def divide (ip : Nat) (left right : Int32) : Except Fault Int32 :=
  if right = 0 then .error (.divisionByZero ip) else .ok (left / right)

/-- A call: the return address is that of the next operation. -/
def jumpSubroutine (s : State) (codeSize ip : Nat) : Except Fault State := do
  let (address, s) ← s.pop ip
  if address < 0 ∨ codeSize ≤ address.toNatClampNeg then
    .error (.invalidCodeAddress address.toInt ip)
  else return { s with ra := Int32.ofNat s.ip, ip := address.toNatClampNeg }

def jump (s : State) (ip : Nat) (kind : Jump) (target : Nat) : Except Fault State :=
  match kind with
  | .always => .ok { s with ip := target }
  | .equal => do
    let (left, right, s) ← s.popTwo ip
    return if left = right then { s with ip := target } else s
  | .lessEqual => do
    let (left, right, s) ← s.popTwo ip
    return if left ≤ right then { s with ip := target } else s

end State

/-- What a step leads to. -/
inductive Progress where
  | running (s : State)
  | halted (s : State)

namespace State

/-- Runs one operation of a code with `codeSize` operations, fetched from `ip`; `s.ip` is already
the address that follows. -/
def perform (s : State) (codeSize ip : Nat) : Op → Except Fault Progress
  | .push value => return .running (← s.push ip value)
  | .jump kind target => return .running (← s.jump ip kind target)
  | .bare op =>
    match op with
    | .pop => do
      let (_, s) ← s.pop ip
      return .running s
    | .add => return .running (← s.binary ip fun l r => .ok (l + r))
    | .sub => return .running (← s.binary ip fun l r => .ok (l - r))
    | .mult => return .running (← s.binary ip fun l r => .ok (l * r))
    | .div => return .running (← s.binary ip (divide ip))
    | .sw => do
      let (address, s) ← s.pop ip
      let (value, s) ← s.pop ip
      return .running (← s.store ip address value)
    | .lw => do
      let (address, s) ← s.pop ip
      let value ← s.load ip address
      return .running (← s.push ip value)
    | .js => return .running (← s.jumpSubroutine codeSize ip)
    | .lra => return .running (← s.push ip s.ra)
    | .sra => do
      let (ra, s) ← s.pop ip
      return .running { s with ra }
    | .ltm => return .running (← s.push ip s.tm)
    | .stm => do
      let (tm, s) ← s.pop ip
      return .running { s with tm }
    | .lfp => return .running (← s.push ip s.fp)
    | .sfp => do
      let (fp, s) ← s.pop ip
      return .running { s with fp }
    | .cfp => return .running { s with fp := s.sp }
    | .lhp => return .running (← s.push ip s.hp)
    | .shp => do
      let (hp, s) ← s.pop ip
      return .running { s with hp }
    | .print => do
      let value ← s.peek ip
      return .running { s with output := s.output.push value }
    | .halt => return .halted s

/-- Fetches and runs the next operation. -/
def step (image : Image) (s : State) : Except Fault Progress :=
  match image.ops[s.ip]? with
  | none => .error (.invalidCodeAddress s.ip s.ip)
  | some op => { s with ip := s.ip + 1 }.perform image.ops.size s.ip op

end State

end Stackling
