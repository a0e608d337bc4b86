import Stackling.Resolution.Draft
import Stackling.Resolution.Env

/-!
# Name resolution

An expression is resolved against the names in force where it stands and changes none of them. A
declaration changes what is in force after it. Bodies have scopes and frames of their own, and no
class can be declared in one, so they leave nothing behind but findings.
-/

namespace Stackling

/-! ### Expressions -/

mutual

/-- One finding for each use of a name in the expression. -/
def Expr.resolve (env : Env) : Expr → List Finding
  | .int _ _ | .bool _ _ | .null _ => []
  | .name id name pos => [env.useName .identifier id name pos]
  | .binary _ left right _ => left.resolve env ++ right.resolve env
  | .not operand _ => operand.resolve env
  | .ite cond yes no _ => cond.resolve env ++ yes.resolve env ++ no.resolve env
  | .call id callee args pos => env.useName .function id callee pos :: resolveArgs env args
  | .send id receiver method args pos =>
    env.useMethod id receiver method pos :: resolveArgs env args
  | .new id cls args pos => env.useClass id cls pos :: resolveArgs env args
  | .print value _ => value.resolve env

def resolveArgs (env : Env) : List Expr → List Finding
  | [] => []
  | e :: es => e.resolve env ++ resolveArgs env es

end

/-! ### Classes -/

namespace Env

/-- The record of the superclass that a class names. -/
def parent? (env : Env) (c : ClassDecl) : Option ClassRecord :=
  c.superclass.bind (env.classes.records[·]?)

def parentFindings (env : Env) (c : ClassDecl) : List Finding :=
  match c.superclass with
  | some s =>
    if env.classes.records.contains s then [] else [.error (.undeclaredSuperclass c.name s c.pos)]
  | none => []

/-- Declares a class in the global scope. A class whose name is taken is not recorded, though its
place in the frame is used up. -/
def declareClass (env : Env) (c : ClassDecl) (layout : ObjectLayout) : Env × List Finding :=
  let (offset, frame) := env.frame.allotLocal 1
  let env := { env with frame }
  let entry : Entry := ⟨0, .cls layout.classTy, offset⟩
  match env.scopes.declare? c.name entry with
  | some scopes =>
    let record : ClassRecord := ⟨c.name, (env.parent? c).map (·.name), entry, layout⟩
    ({ env with scopes, classes := env.classes.add record }, [.decl c.id entry])
  | none => (env, [.error (.redeclared .cls c.name c.pos)])

/-- The part of a class that comes before the bodies of its methods: the environment after the
class, the layout, and the findings. Only a class in the global scope is declared. -/
def classHeader (env : Env) (c : ClassDecl) : Env × ObjectLayout × List Finding :=
  let inherited := ((env.parent? c).map (·.layout)).getD {}
  let draft := c.draft inherited
  let found := env.parentFindings c ++ draft.findings
  if env.scopes.depth = 0 then
    let (env, declared) := env.declareClass c draft.layout
    (env, draft.layout, found ++ declared)
  else (env, draft.layout, .error (.classNotGlobal c.name c.pos) :: found)

end Env

mutual

/-- The environment after a declaration, and its findings. -/
def Decl.resolve (env : Env) : Decl → Env × List Finding
  | .var ⟨id, name, declared, init, pos⟩ =>
    let (after, found) := env.declareLocal .variable id name pos declared.ty
    (after, init.resolve env ++ found)
  | .fn f =>
    let (after, declared) := env.declareLocal .function f.id f.name f.pos (.arrow f.signature)
    (after, declared ++ f.resolve after)
  | .cls ⟨id, name, superclass, fields, methods, pos⟩ =>
    let (after, layout, found) := env.classHeader ⟨id, name, superclass, fields, methods, pos⟩
    (after, found ++ resolveMethods (after.enterClass layout) methods)

/-- The findings in the body of a function that is declared in `env`. -/
def FunDecl.resolve (env : Env) : FunDecl → List Finding
  | ⟨_, _, params, _, decls, body, _⟩ =>
    let (inner, declared) := env.enterBody.declareParams params
    let (inner, found) := resolveDecls inner decls
    declared ++ found ++ body.resolve inner

def resolveDecls (env : Env) : List Decl → Env × List Finding
  | [] => (env, [])
  | d :: ds =>
    let (env, found) := d.resolve env
    let (env, more) := resolveDecls env ds
    (env, found ++ more)

def resolveMethods (env : Env) : List FunDecl → List Finding
  | [] => []
  | m :: ms => m.resolve env ++ resolveMethods env ms

end

/-- The global scope before any declaration. -/
def Env.global : Env := { scopes := Scopes.push {} ∅ }

def Program.resolve (p : Program) : Resolution :=
  let (env, found) := resolveDecls .global p.decls
  .ofFindings (found ++ p.body.resolve env) env.classes

end Stackling
