import Stackling.Proofs.Resolution.Findings
import Stackling.Typing.Check

/-!
# Typing rules

The rules by which a program is typed, as relations between a tree, the environment in which
resolution meets it and its type. They put together what resolution and checking demand of each
construct. No rule gives a place to a function value: annotations are free of function types, so a
name of a function can be the value of the whole program at most.
-/

namespace Stackling

/-! ### Expressions -/

mutual

inductive Expr.Typed (r : Resolution) (env : Env) : Expr → Ty → Prop
  | int {n : Int32} {pos : SourcePos} : Expr.Typed r env (.int n pos) .int
  | bool {b : Bool} {pos : SourcePos} : Expr.Typed r env (.bool b pos) .bool
  | null {pos : SourcePos} : Expr.Typed r env (.null pos) .null
  | name {id : NodeId} {x : String} {pos : SourcePos} {entry : Entry} {t : Ty}
      (hlookup : env.scopes.lookup? x = some entry)
      (huse : r.uses[id]? = some ⟨entry, env.scopes.depth⟩)
      (hvalue : entry.ty.asValue x pos = .ok t) :
      Expr.Typed r env (.name id x pos) t
  | binary {op : BinOp} {left right : Expr} {pos : SourcePos} {a b t : Ty}
      (hleft : Expr.Typed r env left a) (hright : Expr.Typed r env right b)
      (hop : op.infer r.hierarchy a b pos = .ok t) : Expr.Typed r env (.binary op left right pos) t
  | not {e : Expr} {pos : SourcePos} {a : Ty} (he : Expr.Typed r env e a)
      (hbool : r.hierarchy.isSubtype a .bool) : Expr.Typed r env (.not e pos) .bool
  | ite {cond yes no : Expr} {pos : SourcePos} {c a b t : Ty} (hcond : Expr.Typed r env cond c)
      (hbool : r.hierarchy.isSubtype c .bool) (hyes : Expr.Typed r env yes a)
      (hno : Expr.Typed r env no b) (hjoin : r.hierarchy.join? a b = some t) : Expr.Typed r env
      (.ite cond yes no pos) t
  | print {e : Expr} {pos : SourcePos} {t : Ty} (he : Expr.Typed r env e t) :
      Expr.Typed r env (.print e pos) t
  | call {id : NodeId} {callee : String} {args : List Expr} {pos : SourcePos} {entry : Entry}
      {sig : Signature} (hlookup : env.scopes.lookup? callee = some entry)
      (huse : r.uses[id]? = some ⟨entry, env.scopes.depth⟩) (hsig : entry.ty.signature? = some sig)
      (hargs : ArgsTyped r env args sig.params) : Expr.Typed r env (.call id callee args pos)
      sig.result
  | send {id : NodeId} {receiver method cls : String} {args : List Expr} {pos : SourcePos}
      {entry : Entry} {record : ClassRecord} {member : Member} {sig : Signature}
      (hlookup : env.scopes.lookup? receiver = some entry) (hty : entry.ty = .ref cls)
      (hrecord : env.classes.records[cls]? = some record)
      (hmethod : record.layout.method? method = some member)
      (hsend : r.sends[id]? = some ⟨⟨entry, env.scopes.depth⟩, cls, member.entry⟩)
      (hsig : member.entry.ty.signature? = some sig) (hargs : ArgsTyped r env args sig.params) :
      Expr.Typed r env (.send id receiver method args pos) sig.result
  | new {id : NodeId} {cls : String} {args : List Expr} {pos : SourcePos} {record : ClassRecord}
      {c : ClassTy} (hrecord : env.classes.records[cls]? = some record)
      (huse : r.uses[id]? = some ⟨record.entry, env.scopes.depth⟩) (hty : record.entry.ty = .cls c)
      (hargs : ArgsTyped r env args c.fields) : Expr.Typed r env (.new id cls args pos) (.ref cls)

/-- Expressions that stand where values of given types are expected. -/
inductive ArgsTyped (r : Resolution) (env : Env) : List Expr → List Ty → Prop
  | nil : ArgsTyped r env [] []
  | cons {e : Expr} {es : List Expr} {a t : Ty} {ts : List Ty} (he : Expr.Typed r env e a)
      (hsub : r.hierarchy.isSubtype a t) (hes : ArgsTyped r env es ts) : ArgsTyped r env (e :: es)
      (t :: ts)

end

/-- An expression that stands where a value of a type is expected. -/
def Expr.Fits (r : Resolution) (env : Env) (e : Expr) (t : Ty) : Prop :=
  ∃ a, e.Typed r env a ∧ r.hierarchy.isSubtype a t

/-! ### Members of a class -/

/-- Members are free of function types. -/
def Ty.Plain : Ty → Prop
  | .arrow _ => False
  | .method sig => (∀ t ∈ sig.params, t.isArrow = false) ∧ sig.result.isArrow = false
  | _ => True

/-- A member of some type may take a place among members that are inherited. -/
def ClassTy.Admits (r : Resolution) (inherited : ClassTy) (ty : Ty) (position : Nat) : Prop :=
  if ty.isMethod then ∀ sig, inherited.methods[position]? = some sig →
    r.hierarchy.isSubtype ty (.method sig)
  else ∀ t, inherited.fields[position]? = some t → r.hierarchy.isSubtype ty t

/-- A layout becomes another one by members that are put in their places one after the other. -/
inductive Lays (r : Resolution) (inherited : ClassTy) :
    (seen : List String) → ObjectLayout → List OwnMember → ObjectLayout → Prop
  | nil {seen : List String} {l : ObjectLayout} : Lays r inherited seen l [] l
  | cons {seen : List String} {l l' : ObjectLayout} {m : OwnMember} {ms : List OwnMember}
      (hname : m.name ∉ seen) (hplain : m.ty.Plain)
      (hkind : ∀ old, l.members[m.name]? = some old → old.isMethod = m.ty.isMethod)
      (hdecl : r.decls[m.id]? = some (l.place m.name m.ty).1.entry)
      (hadmits : inherited.Admits r m.ty (l.place m.name m.ty).1.position)
      (hrest : Lays r inherited (m.name :: seen) (l.place m.name m.ty).2 ms l') :
      Lays r inherited seen l (m :: ms) l'

/-- The layout that a class starts from. -/
def Env.inheritedLayout (env : Env) (c : ClassDecl) : ObjectLayout :=
  ((env.parent? c).map (·.layout)).getD {}

/-- The environment after a class with the given layout is declared in `scopes`. -/
def Env.afterClass (env : Env) (c : ClassDecl) (l : ObjectLayout) (scopes : Scopes) : Env where
  scopes := scopes
  frame := (env.frame.allotLocal 1).2
  classes := env.classes.add (env.classRecord c l)

/-- A class without its methods' bodies: `l` is its layout, and `scopes` are those after it. -/
structure ClassDecl.Typed (r : Resolution) (env : Env) (c : ClassDecl) (l : ObjectLayout)
    (scopes : Scopes) :
    Prop where
  depth : env.scopes.depth = 0
  parent : ∀ s, c.superclass = some s → ∃ record, env.classes.records[s]? = some record
  lays : Lays r (env.inheritedLayout c).classTy [] (env.inheritedLayout c) c.ownMembers l
  declare : env.scopes.declare? c.name (env.classEntry l) = some scopes
  record : r.class? c.name = some (env.classRecord c l)

/-! ### Declarations -/

/-- The environment after a declaration of one cell in the current frame. -/
def Env.afterLocal (env : Env) (scopes : Scopes) (cells : Int32) : Env :=
  { env with scopes, frame := (env.frame.allotLocal cells).2 }

/-- Parameters in the frame of a function: each takes one cell. -/
inductive ParamsTyped : Env → List TypedName → Env → Prop
  | nil {env : Env} : ParamsTyped env [] env
  | cons {env env' : Env} {p : TypedName} {ps : List TypedName} {scopes : Scopes}
      (hplain : p.declared.isArrow = false)
      (hdeclare : env.scopes.declare? p.name ⟨env.scopes.depth, p.declared.ty,
        env.frame.nextParam⟩ = some scopes)
      (hrest : ParamsTyped
        { env with scopes, frame := { env.frame with nextParam := env.frame.nextParam + 1 } }
        ps env') : ParamsTyped env (p :: ps) env'

mutual

/-- A function that is declared in an environment. -/
inductive FunDecl.Typed (r : Resolution) : Env → FunDecl → Prop
  | mk {env inner last : Env} {f : FunDecl} (hplain : f.result.isArrow = false)
      (hparams : ParamsTyped env.enterBody f.params inner)
      (hdecls : DeclsTyped r inner f.decls last)
      (hbody : f.body.Fits r last f.result.ty) : FunDecl.Typed r env f

/-- Declarations lead from one environment to another. -/
inductive DeclsTyped (r : Resolution) : Env → List Decl → Env → Prop
  | nil {env : Env} : DeclsTyped r env [] env
  | var {env env' : Env} {d : VarDecl} {ds : List Decl} {scopes : Scopes}
      (hplain : d.declared.isArrow = false) (hinit : d.init.Fits r env d.declared.ty)
      (hdeclare : env.scopes.declare? d.name (env.localEntry d.declared.ty) = some scopes)
      (hrest : DeclsTyped r (env.afterLocal scopes 1) ds env') : DeclsTyped r env
      (.var d :: ds) env'
  | fn {env env' : Env} {f : FunDecl} {ds : List Decl} {scopes : Scopes}
      (hdeclare : env.scopes.declare? f.name (env.localEntry (.arrow f.signature)) = some scopes)
      (hfun : FunDecl.Typed r (env.afterLocal scopes 2) f)
      (hrest : DeclsTyped r (env.afterLocal scopes 2) ds env') : DeclsTyped r env (.fn f :: ds) env'
  | cls {env env' : Env} {c : ClassDecl} {ds : List Decl} {l : ObjectLayout} {scopes : Scopes}
      (hclass : c.Typed r env l scopes)
      (hmethods : ∀ m ∈ c.methods, FunDecl.Typed r ((env.afterClass c l scopes).enterClass l) m)
      (hrest : DeclsTyped r (env.afterClass c l scopes) ds env') : DeclsTyped r env
      (.cls c :: ds) env'

end

/-- A program whose body has a type. -/
def Program.Typed (r : Resolution) (p : Program) (t : Ty) : Prop :=
  ∃ env, DeclsTyped r .global p.decls env ∧ p.body.Typed r env t

end Stackling
