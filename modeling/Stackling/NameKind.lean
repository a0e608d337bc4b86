/-! # What a name stands for in a message -/

namespace Stackling

inductive NameKind where
  | function | variable | parameter | field | method | cls
  /-- A name whose use does not say what it stands for. -/
  | identifier
  deriving DecidableEq, Repr, Inhabited

def NameKind.text : NameKind → String
  | .function => "function"
  | .variable => "variable"
  | .parameter => "parameter"
  | .field => "field"
  | .method => "method"
  | .cls => "class"
  | .identifier => "identifier"

end Stackling
