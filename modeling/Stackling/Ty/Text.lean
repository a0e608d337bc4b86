import Stackling.Ty

/-! # The text of types in messages -/

namespace Stackling

mutual

def Ty.text : Ty → String
  | .int => "int"
  | .bool => "bool"
  | .null => "null"
  | .ref name => name
  | .arrow sig => sig.text
  | .method sig => "method " ++ sig.text
  | .cls members => members.text

def Signature.text : Signature → String
  | ⟨params, result⟩ => "(" ++ ", ".intercalate (Ty.texts params) ++ ") -> " ++ result.text

def ClassTy.text : ClassTy → String
  | ⟨fields, methods⟩ =>
    "class(" ++ ", ".intercalate (Ty.texts fields) ++ ") \x7b"
      ++ ",".intercalate (Signature.texts methods) ++ " \x7d"

def Ty.texts : List Ty → List String
  | [] => []
  | t :: ts => t.text :: Ty.texts ts

/-- Each signature with the blank that sets it off. -/
def Signature.texts : List Signature → List String
  | [] => []
  | s :: ss => (" " ++ s.text) :: Signature.texts ss

end

end Stackling
