import Stackling.Typing.Infer

/-!
# Type checking

Each declaration is checked by itself: a fault in one does not hide those in the next. What
resolution has rejected is not checked.
-/

namespace Stackling

/-- The violations that keep an expression from being of some subtype of a type: its own, or else
`mismatch`. -/
def Expr.expect (r : Resolution) (e : Expr) (t : Ty) (mismatch : TypingError) : List TypingError :=
  match e.infer r with
  | .error refusal => refusal.violations
  | .ok a => if r.hierarchy.isSubtype a t then [] else [mismatch]

namespace Resolution

/-- A member must be a subtype of the one whose place it takes. -/
def overrideViolations (r : Resolution) (id : NodeId) (own : Ty) (inherited : List Ty)
    (error : TypingError) : List TypingError :=
  match r.positions[id]?.bind (inherited[·]?) with
  | some t => if r.hierarchy.isSubtype own t then [] else [error]
  | none => []

/-- The member types that a class inherits. -/
def inherited? (r : Resolution) (cls : String) : Option ClassTy := do
  let record ← r.class? cls
  let parent ← r.class? (← record.superclass)
  return parent.layout.classTy

end Resolution

def ClassDecl.overrideViolations (r : Resolution) (c : ClassDecl) : List TypingError :=
  match r.inherited? c.name with
  | none => []
  | some inherited =>
    (c.fields.flatMap fun f => r.overrideViolations f.id f.declared.ty inherited.fields
      (.badOverride .field c.name f.name f.pos))
    ++ c.methods.flatMap fun m => r.overrideViolations m.id (.method m.signature)
      (inherited.methods.map Ty.method) (.badOverride .method c.name m.name m.pos)

mutual

def Decl.violations (r : Resolution) : Decl → List TypingError
  | .var d => d.init.expect r d.declared.ty (.incompatibleVariable d.name d.pos)
  | .fn f => f.violations r .function
  | .cls ⟨id, name, superclass, fields, methods, pos⟩ =>
    if r.decls.contains id then
      ClassDecl.overrideViolations r ⟨id, name, superclass, fields, methods, pos⟩
        ++ methodViolations r methods
    else []

/-- The violations in the local declarations of a function, then those of its body. -/
def FunDecl.violations (r : Resolution) (kind : NameKind) : FunDecl → List TypingError
  | ⟨_, name, _, result, decls, body, pos⟩ =>
    declViolations r decls ++ body.expect r result.ty (.wrongReturn kind name pos)

def declViolations (r : Resolution) : List Decl → List TypingError
  | [] => []
  | d :: ds => d.violations r ++ declViolations r ds

def methodViolations (r : Resolution) : List FunDecl → List TypingError
  | [] => []
  | m :: ms =>
    (if r.decls.contains m.id then m.violations r .method else []) ++ methodViolations r ms

end

/-- The type of a program's body, if it has one, and all violations. -/
structure Checked where
  result : Option Ty
  errors : List TypingError

def Program.check (p : Program) (r : Resolution) : Checked :=
  match p.body.infer r with
  | .ok t => ⟨some t, declViolations r p.decls⟩
  | .error refusal => ⟨none, declViolations r p.decls ++ refusal.violations⟩

end Stackling
