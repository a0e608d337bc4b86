import Stackling.Hierarchy.Join
import Stackling.Resolution.Basic
import Stackling.Tree.Basic
import Stackling.Typing.Error

/-!
# Types of expressions

The type of an expression follows from what resolution knows of the names in it. Inference stops
at the first fault, from left to right.
-/

namespace Stackling

/-- The typing rules of binary operators. Types of values compare if one is a subtype of the
other. -/
def BinOp.infer (h : Hierarchy) (op : BinOp) (left right : Ty) (pos : SourcePos) :
    Except Refusal Ty :=
  match op.family with
  | .arithmetic =>
    if h.isSubtype left .int && h.isSubtype right .int then .ok .int
    else .error (.violation (.nonInteger op.word pos))
  | .logical =>
    if h.isSubtype left .bool && h.isSubtype right .bool then .ok .bool
    else .error (.violation (.nonBoolean op.word pos))
  | .comparison =>
    if left.signature?.isSome || right.signature?.isSome then
      .error (.violation (.functionalComparison op.word pos))
    else if h.isSubtype left right || h.isSubtype right left then .ok .bool
    else .error (.violation (.incomparableOperands op.word pos))

namespace Resolution

def useOf (r : Resolution) (id : NodeId) : Except Refusal Binding :=
  match r.uses[id]? with
  | some binding => .ok binding
  | none => .error .unresolved

def sendOf (r : Resolution) (id : NodeId) : Except Refusal Dispatch :=
  match r.sends[id]? with
  | some dispatch => .ok dispatch
  | none => .error .unresolved

end Resolution

/-- The type of a name used as a value. -/
def Ty.asValue (t : Ty) (name : String) (pos : SourcePos) : Except Refusal Ty :=
  match t with
  | .method _ => .error (.violation (.methodAsValue name pos))
  | .cls _ => .error (.violation (.classAsValue name pos))
  | t => .ok t

/-- The signature of a thing that is called with so many arguments. -/
def Ty.asCallee (t : Ty) (name : String) (args : Nat) (pos : SourcePos) :
    Except Refusal Signature :=
  match t.signature? with
  | none => .error (.violation (.notCallable name pos))
  | some sig =>
    if sig.arity = args then .ok sig
    else .error (.violation (.wrongArity name sig.arity args pos))

/-- The members of a class of which an object is made from so many values. -/
def Ty.asClass (t : Ty) (name : String) (values : Nat) (pos : SourcePos) :
    Except Refusal ClassTy :=
  match t with
  | .cls c =>
    if c.fields.length = values then .ok c
    else .error (.violation (.wrongFieldCount name c.fields.length values pos))
  | _ => .error (.violation (.notAClass name pos))

mutual

def Expr.infer (r : Resolution) : Expr → Except Refusal Ty
  | .int _ _ => .ok .int
  | .bool _ _ => .ok .bool
  | .null _ => .ok .null
  | .name id name pos => do
    let binding ← r.useOf id
    binding.entry.ty.asValue name pos
  | .binary op left right pos => do
    let a ← left.infer r
    let b ← right.infer r
    op.infer r.hierarchy a b pos
  | .not operand pos => do
    let a ← operand.infer r
    if r.hierarchy.isSubtype a .bool then .ok .bool
    else .error (.violation (.nonBoolean "not" pos))
  | .ite cond yes no pos => do
    let c ← cond.infer r
    if r.hierarchy.isSubtype c .bool then
      let a ← yes.infer r
      let b ← no.infer r
      match r.hierarchy.join? a b with
      | some t => .ok t
      | none => .error (.violation (.incompatibleBranches pos))
    else .error (.violation (.nonBooleanCondition pos))
  | .print value _ => value.infer r
  | .call id callee args pos => do
    let binding ← r.useOf id
    let sig ← binding.entry.ty.asCallee callee args.length pos
    checkArgs r (.wrongArgument callee · pos) 1 args sig.params
    return sig.result
  | .send id _ method args pos => do
    let dispatch ← r.sendOf id
    let sig ← dispatch.method.ty.asCallee method args.length pos
    checkArgs r (.wrongArgument method · pos) 1 args sig.params
    return sig.result
  | .new id cls args pos => do
    let binding ← r.useOf id
    let c ← binding.entry.ty.asClass cls args.length pos
    checkArgs r (.wrongFieldValue cls · pos) 1 args c.fields
    return .ref cls

/-- Checks arguments against the types they are meant for, in order. The first one is number
`n`. -/
def checkArgs (r : Resolution) (wrong : Nat → TypingError) (n : Nat) :
    List Expr → List Ty → Except Refusal Unit
  | e :: es, t :: ts => do
    let a ← e.infer r
    if r.hierarchy.isSubtype a t then checkArgs r wrong (n + 1) es ts
    else .error (.violation (wrong n))
  | _, _ => .ok ()

end

end Stackling
