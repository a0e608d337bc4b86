import Stackling.Code.Error
import Stackling.Machine.State
import Stackling.Resolution.Error
import Stackling.Typing.Error

/-! # Why there is no result -/

namespace Stackling

inductive Failure where
  | scope (error : ScopeError)
  | typing (error : TypingError)
  | lowering (error : LoweringError)
  | reading (error : ReadError)
  | fault (fault : Fault)
  /-- No code was generated, because the report has errors. -/
  | frontEnd (count : UInt64)
  deriving DecidableEq, Repr, Inhabited

namespace Failure

def message : Failure → String
  | scope e => e.message
  | typing e => e.message
  | lowering e => e.message
  | reading e => e.message
  | fault f => f.message
  | frontEnd count => s!"compilation stopped after {count.toNat} front-end errors"

def isScope : Failure → Bool
  | scope _ => true
  | _ => false

def isTyping : Failure → Bool
  | typing _ => true
  | _ => false

def isFault : Failure → Bool
  | fault _ => true
  | _ => false

end Failure

end Stackling
