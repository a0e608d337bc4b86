import Stackling.Resolution.Error
import Stackling.Typing.Error

/-!
# Reports of front-end errors

A report holds the messages of all stages before code generation, and counts errors that an
earlier tool has found but not handed over. Counts are machine words.
-/

namespace Stackling

/-- Where an error was found. -/
inductive Stage where
  | external | resolution | typing
  deriving DecidableEq, Repr, Inhabited

def Stage.text : Stage → String
  | .external => "front end"
  | .resolution => "symbol table"
  | .typing => "type checking"

structure Message where
  stage : Stage
  text : String
  pos : SourcePos
  deriving DecidableEq, Repr, Inhabited

namespace Message

def ofScopeError (e : ScopeError) : Message := ⟨.resolution, e.message, e.pos⟩

def ofTypingError (e : TypingError) : Message := ⟨.typing, e.message, e.pos⟩

/-- The message with the stage that it comes from. -/
def line (m : Message) : String := s!"{m.stage.text} error: {m.text}"

end Message

structure Report where
  messages : List Message := []
  external : UInt64 := 0
  deriving DecidableEq, Repr, Inhabited

namespace Report

/-- The report of the errors of both stages, the scope errors first. -/
def ofErrors (scope : List ScopeError) (typing : List TypingError) (external : UInt64) :
    Report where
  messages := scope.map .ofScopeError ++ typing.map .ofTypingError
  external := external

def add (r : Report) (m : Message) : Report := { r with messages := r.messages ++ [m] }

def addExternal (r : Report) (count : UInt64) : Report := { r with external := r.external + count }

def count (r : Report) (stage : Stage) : UInt64 :=
  let recorded := UInt64.ofNat (r.messages.filter (·.stage = stage)).length
  if stage = .external then recorded + r.external else recorded

def errorCount (r : Report) : UInt64 := UInt64.ofNat r.messages.length + r.external

def hasErrors (r : Report) : Bool := 0 < r.errorCount

def isEmpty (r : Report) : Bool := r.messages.isEmpty && r.external = 0

/-- A line for each message, then the total. -/
def text (r : Report) : String :=
  String.join (r.messages.map (·.line ++ "\n"))
    ++ s!"You had a total of {r.errorCount.toNat} front-end errors."

end Report

end Stackling
