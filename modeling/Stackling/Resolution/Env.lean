import Stackling.Resolution.Basic
import Stackling.Scope.Frame
import Stackling.Tree.Basic

/-!
# Environments

What is in force at a place of a program: the names in scope, the free offsets of the frame and the
classes declared so far. A use of a name has one finding; a declaration changes the environment.
-/

namespace Stackling

/-- What is in force at a place of the program. -/
structure Env where
  scopes : Scopes
  frame : Frame := {}
  classes : ClassTable := {}

namespace Env

/-! ### Uses -/

/-- A name that has to be in scope. -/
def useName (env : Env) (kind : NameKind) (id : NodeId) (name : String) (pos : SourcePos) :
    Finding :=
  match env.scopes.use? name with
  | some binding => .use id binding
  | none => .error (.undeclared kind name pos)

/-- A class of which an object is made: it has to be declared by now, whatever its name stands for
in scope. -/
def useClass (env : Env) (id : NodeId) (name : String) (pos : SourcePos) : Finding :=
  match env.classes.records[name]? with
  | some record => .use id ⟨record.entry, env.scopes.depth⟩
  | none => .error (.undeclared .cls name pos)

/-- The method that a receiver's declared class has under a name. -/
def useMethod (env : Env) (id : NodeId) (receiver method : String) (pos : SourcePos) : Finding :=
  match env.scopes.use? receiver with
  | none => .error (.undeclared .identifier receiver pos)
  | some binding =>
    match binding.entry.ty with
    | .ref cls =>
      match env.classes.records[cls]? with
      | none => .error (.undeclared .cls cls pos)
      | some record =>
        match record.layout.method? method with
        | some member => .send id ⟨binding, cls, member.entry⟩
        | none => .error (.undeclaredMethod cls method pos)
    | _ => .error (.notAnObject receiver pos)

/-! ### Declarations -/

/-- Declares a name in the innermost scope. A name declared twice keeps its first entry there, but
the declaration has an entry all the same. -/
def declare (env : Env) (kind : NameKind) (id : NodeId) (name : String) (pos : SourcePos)
    (entry : Entry) : Env × List Finding :=
  match env.scopes.declare? name entry with
  | some scopes => ({ env with scopes }, [.decl id entry])
  | none => (env, [.error (.redeclared kind name pos), .decl id entry])

/-- Declares a thing that lives in the current frame. -/
def declareLocal (env : Env) (kind : NameKind) (id : NodeId) (name : String) (pos : SourcePos)
    (ty : Ty) : Env × List Finding :=
  let (offset, frame) := env.frame.allotLocal (Int32.ofNat ty.cells)
  { env with frame }.declare kind id name pos ⟨env.scopes.depth, ty, offset⟩

def declareParam (env : Env) (p : TypedName) : Env × List Finding :=
  let ty := p.declared.ty
  let (offset, frame) := env.frame.allotParam (Int32.ofNat ty.cells)
  { env with frame }.declare .parameter p.id p.name p.pos ⟨env.scopes.depth, ty, offset⟩

def declareParams (env : Env) : List TypedName → Env × List Finding
  | [] => (env, [])
  | p :: ps =>
    let (env, found) := env.declareParam p
    let (env, more) := env.declareParams ps
    (env, found ++ more)

/-- What is in force at the start of a body, before its parameters. -/
def enterBody (env : Env) : Env := { env with scopes := env.scopes.push ∅, frame := {} }

/-- The environment of the methods of a class. -/
def enterClass (env : Env) (layout : ObjectLayout) : Env :=
  { env with scopes := env.scopes.push layout.scope }

end Env

end Stackling
