import Stackling.Code.Instr

/-!
# Instruction sequences

The fixed pieces from which the code of a program is put together.
-/

namespace Stackling.Code

/-- A run of instructions without operands. -/
def plain (ops : List Bare) : List Instr := ops.map Instr.bare

/-- Replaces the address on top of the stack by the cell `offset` away from it. -/
def load (offset : Int32) : List Instr := .push offset :: plain [.add, .lw]

/-- Moves the top of the stack to the heap and advances the heap pointer. -/
def heapStore : List Instr := plain [.lhp, .sw, .lhp] ++ .push 1 :: plain [.add, .shp]

def pops (n : Nat) : List Instr := plain (List.replicate n .pop)

/-! ### Values -/

/-- Both cells of a function value, from the address of its frame. -/
def loadClosure (offset : Int32) : List Instr :=
  plain [.stm, .ltm] ++ load offset ++ plain [.ltm] ++ load (offset - 1)

/-- Calls a method of the object on top of the stack. -/
def dispatch (offset : Int32) : List Instr :=
  plain [.stm, .ltm, .ltm, .lw] ++ load offset ++ plain [.js]

/-- Pushes 1 if the jump is taken on the two operands before it, else 0. -/
def truthValue (kind : Jump) (yes done : Label) : List Instr :=
  [.jump kind yes, .push 0, .jump .always done, .label yes, .push 1, .label done]

/-- Moves field values to the heap, puts the dispatch pointer from the global frame behind them,
and leaves its address as the object. -/
def makeObject (fieldCells : Nat) (dispatchSlot : Int32) : List Instr :=
  (List.replicate fieldCells heapStore).flatten
    ++ .push dispatchSlot :: plain [.lw, .lhp, .sw, .lhp, .lhp] ++ .push 1 :: plain [.add, .shp]

/-! ### Functions and classes -/

/-- The end of a function, after its value is computed: it gives up its own cells, its static link
and its parameters, and returns to the caller. A function value as result does not fit the scratch
register, so its frame waits on the heap. -/
def epilogue (localCells paramCells : Nat) (returnsClosure : Bool) : List Instr :=
  plain (.stm :: if returnsClosure then [.lhp, .sw] else [])
    ++ pops localCells ++ plain [.sra, .pop] ++ pops paramCells
    ++ plain (.sfp :: if returnsClosure then [.lhp, .lw] else [])
    ++ plain [.ltm, .lra, .js]

/-- Writes a dispatch table to the heap and leaves its address. -/
def dispatchTable (methods : List Label) : List Instr :=
  .bare .lhp :: methods.flatMap fun l => .pushLabel l :: heapStore

end Stackling.Code
