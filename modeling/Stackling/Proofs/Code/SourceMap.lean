import Stackling.Proofs.Code.Emission

/-!
# Which code comes from where

Code generation once more, with a record of the places at which the code of each expression,
declaration and function stands. Without the record it is the code generation itself: that is
`Program.sourced_code`.
-/

namespace Stackling

/-- A piece of a program that has code of its own. -/
inductive Origin where
  | expr (e : Expr)
  | decl (d : Decl)
  /-- The body of a function or method, from its entry to its return. -/
  | routine (f : FunDecl)

/-- The instructions from `start` on, up to the one before `stop`. -/
structure Span where
  origin : Origin
  start : Nat
  stop : Nat

/-- A span inside a list of instructions that has others put in front of it. -/
def Span.shift (n : Nat) (s : Span) : Span := { s with start := n + s.start, stop := n + s.stop }

/-- Code together with the places of the pieces that it is made from. -/
structure Sourced where
  code : List Instr
  spans : List Span

namespace Sourced

/-- Code that belongs to the piece around it. -/
def plain (code : List Instr) : Sourced := ⟨code, []⟩

/-- One piece of code after the other. The spans of the second one move along. -/
def append (a b : Sourced) : Sourced :=
  ⟨a.code ++ b.code, a.spans ++ b.spans.map (·.shift a.code.length)⟩

instance : Append Sourced := ⟨append⟩

/-- All of the code is made from one piece. -/
def mark (o : Origin) (m : Sourced) : Sourced := ⟨m.code, ⟨o, 0, m.code.length⟩ :: m.spans⟩

@[simp] theorem code_plain (code : List Instr) : (plain code).code = code := rfl

@[simp] theorem code_append (a b : Sourced) : (a ++ b).code = a.code ++ b.code := rfl

@[simp] theorem code_mark (o : Origin) (m : Sourced) : (m.mark o).code = m.code := rfl

@[simp] theorem spans_plain (code : List Instr) : (plain code).spans = [] := rfl

@[simp] theorem spans_append (a b : Sourced) :
    (a ++ b).spans = a.spans ++ b.spans.map (·.shift a.code.length) := rfl

@[simp] theorem spans_mark (o : Origin) (m : Sourced) :
    (m.mark o).spans = ⟨o, 0, m.code.length⟩ :: m.spans := rfl

/-- Pieces of code with spans can be put together in any order of bracketing. -/
theorem append_assoc (a b c : Sourced) : a ++ b ++ c = a ++ (b ++ c) := by
  change Sourced.mk _ _ = Sourced.mk _ _
  simp [Span.shift, Nat.add_assoc]

theorem plain_append (is js : List Instr) : plain (is ++ js) = plain is ++ plain js := rfl

end Sourced

/-! ### Expressions -/

/-- The code of a comparison, with spans. -/
def compareSourced (kind : Jump) (first second : LabelM Sourced) : LabelM Sourced := do
  let yes ← freshBranch
  let done ← freshBranch
  let a ← first
  let b ← second
  return a ++ b ++ .plain (Code.truthValue kind yes done)

mutual

/-- The code of an expression, with a span for every expression in it. -/
def Expr.sourced (g : CodeContext) (e : Expr) : LabelM Sourced :=
  Sourced.mark (.expr e) <$> match e with
    | .int value _ => return .plain [.push value]
    | .bool value _ => return .plain [.push (if value then 1 else 0)]
    | .null _ => return .plain [.push (-1)]
    | .name id name pos => do
      let b ← g.useOf id name pos
      let offset := b.entry.offset
      return .plain (g.frameAccess b ++
        if b.entry.ty.isArrow then Code.loadClosure offset else Code.load offset)
    | .binary op left right _ =>
      match op with
      | .add => return (← left.sourced g) ++ (← right.sourced g) ++ .plain [.bare .add]
      | .sub => return (← left.sourced g) ++ (← right.sourced g) ++ .plain [.bare .sub]
      | .div => return (← left.sourced g) ++ (← right.sourced g) ++ .plain [.bare .div]
      | .mul | .and => return (← left.sourced g) ++ (← right.sourced g) ++ .plain [.bare .mult]
      | .or => do
        let yes ← freshBranch
        let done ← freshBranch
        let a ← left.sourced g
        let b ← right.sourced g
        return a ++ .plain [.push 1, .jump .equal yes] ++ b ++
          .plain (.push 1 :: Code.truthValue .equal yes done)
      | .equal => compareSourced .equal (left.sourced g) (right.sourced g)
      | .lessEqual => compareSourced .lessEqual (left.sourced g) (right.sourced g)
      | .greaterEqual => compareSourced .lessEqual (right.sourced g) (left.sourced g)
    | .not operand _ => return .plain [.push 1] ++ (← operand.sourced g) ++ .plain [.bare .sub]
    | .ite cond yes no _ => do
      let taken ← freshBranch
      let done ← freshBranch
      let c ← cond.sourced g
      let b ← no.sourced g
      let a ← yes.sourced g
      return c ++ .plain [.push 1, .jump .equal taken] ++ b ++
        .plain [.jump .always done, .label taken] ++ a ++ .plain [.label done]
    | .print value _ => return (← value.sourced g) ++ .plain [.bare .print]
    | .call id callee args pos => do
      let b ← g.useOf id callee pos
      let arguments ← argumentsSourced g args
      let offset := b.entry.offset
      return .plain [.bare .lfp] ++ arguments ++ .plain (g.frameAccess b ++
        if b.entry.ty.isMethod then Code.dispatch offset
        else Code.loadClosure offset ++ [.bare .js])
    | .send id _ method args pos => do
      let d ← g.sendOf id method pos
      let arguments ← argumentsSourced g args
      return .plain [.bare .lfp] ++ arguments ++ .plain (g.frameAccess d.receiver
        ++ Code.load d.receiver.entry.offset ++ Code.dispatch d.method.offset)
    | .new id cls args pos => do
      let b ← g.useOf id cls pos
      match b.entry.ty with
      | .cls c =>
        let values ← valuesSourced g args
        return values ++ .plain (Code.makeObject c.cells (g.globalFrame + b.entry.offset))
      | _ => throw (.unknownClass cls pos)

/-- The code of the arguments of a call, with spans. -/
def argumentsSourced (g : CodeContext) : List Expr → LabelM Sourced
  | [] => return .plain []
  | e :: es => do
    let rest ← argumentsSourced g es
    return rest ++ (← e.sourced g)

/-- The code of the arguments of a constructor, with spans. -/
def valuesSourced (g : CodeContext) : List Expr → LabelM Sourced
  | [] => return .plain []
  | e :: es => do
    let code ← e.sourced g
    return code ++ (← valuesSourced g es)

end

theorem compareSourced_code (kind : Jump) (first second : LabelM Sourced) :
    Sourced.code <$> compareSourced kind first second =
      compareCode kind (Sourced.code <$> first) (Sourced.code <$> second) := by
  simp only [compareSourced, compareCode, map_bind, map_pure, bind_map_left, Sourced.code_append,
    Sourced.code_plain]

mutual

/-- Without its spans it is the code of the expression. It even fails in the same way. -/
theorem Expr.sourced_code (g : CodeContext) : ∀ e : Expr, Sourced.code <$> e.sourced g = e.code g
  | .int .. | .bool .. | .null .. => by
    simp only [Expr.sourced, Expr.code, map_pure, Sourced.code_mark, Sourced.code_plain]
  | .name id name pos => by
    simp only [Expr.sourced, Expr.code, map_bind, map_pure, Sourced.code_mark, Sourced.code_plain]
  | .binary op left right pos => by
    cases op with
    | add | sub | mul | div | and | or =>
      simp [Expr.sourced, Expr.code, ← left.sourced_code g, ← right.sourced_code g]
    | equal | lessEqual | greaterEqual =>
      simp [Expr.sourced, Expr.code, ← left.sourced_code g, ← right.sourced_code g,
        ← compareSourced_code]
  | .not e pos => by
    simp [Expr.sourced, Expr.code, ← e.sourced_code g]
  | .print e pos => by
    simp [Expr.sourced, Expr.code, ← e.sourced_code g]
  | .ite cond yes no pos => by
    simp [Expr.sourced, Expr.code, ← cond.sourced_code g, ← yes.sourced_code g, ← no.sourced_code g]
  | .call id callee args pos => by
    simp [Expr.sourced, Expr.code, ← argumentsSourced_code g args]
  | .send id receiver method args pos => by
    simp [Expr.sourced, Expr.code, ← argumentsSourced_code g args]
  | .new id cls args pos => by
    simp only [Expr.sourced, Expr.code, map_bind]
    refine bind_congr fun b => ?_
    cases b.entry.ty with
    | cls c => simp [← valuesSourced_code g args]
    | int | bool | null | ref _ | arrow _ | method _ => rfl

/-- The same of the arguments of a call. -/
theorem argumentsSourced_code (g : CodeContext) : ∀ es : List Expr,
    Sourced.code <$> argumentsSourced g es = argumentCode g es
  | [] => by
    simp [argumentsSourced, argumentCode]
  | e :: es => by
    simp [argumentsSourced, argumentCode, ← argumentsSourced_code g es, ← e.sourced_code g]

/-- The same of the arguments of a constructor. -/
theorem valuesSourced_code (g : CodeContext) : ∀ es : List Expr,
    Sourced.code <$> valuesSourced g es = valueCode g es
  | [] => by
    simp [valuesSourced, valueCode]
  | e :: es => by
    simp [valuesSourced, valueCode, ← valuesSourced_code g es, ← e.sourced_code g]

end

/-! ### Declarations -/

/-- The code of declarations, with spans. -/
structure SourcedFragment where
  code : Sourced
  bodies : Sourced

namespace SourcedFragment

/-- The code without its spans. -/
def erase (f : SourcedFragment) : Fragment := ⟨f.code.code, f.bodies.code⟩

def empty : SourcedFragment := ⟨.plain [], .plain []⟩

def append (f g : SourcedFragment) : SourcedFragment := ⟨f.code ++ g.code, f.bodies ++ g.bodies⟩

instance : Append SourcedFragment := ⟨append⟩

@[simp] theorem erase_empty : empty.erase = .empty := rfl

@[simp] theorem erase_append (f g : SourcedFragment) : (f ++ g).erase = f.erase ++ g.erase := rfl

@[simp] theorem code_append (f g : SourcedFragment) : (f ++ g).code = f.code ++ g.code := rfl

@[simp] theorem bodies_append (f g : SourcedFragment) : (f ++ g).bodies = f.bodies ++ g.bodies :=
  rfl

end SourcedFragment

/-- The code of a function, with spans. -/
structure SourcedRoutine where
  entry : Label
  bodies : Sourced

/-- The code of a function without its spans. -/
def SourcedRoutine.erase (r : SourcedRoutine) : Routine := ⟨r.entry, r.bodies.code⟩

/-- The code of a function around that of its declarations and its body. -/
def FunDecl.sourcedRoutine (f : FunDecl) (entry : Label) (locals value : Sourced) : Sourced :=
  .mark (.routine f) (.plain (.label entry :: Code.plain [.cfp, .lra]) ++ locals ++ value ++
    .plain (Code.epilogue (totalCells Decl.cells f.decls) (totalCells (·.declared.cells) f.params)
      f.result.isArrow))

mutual

/-- The code of a declaration, with a span for every expression and every function in it. -/
def Decl.sourced (g : CodeContext) : Decl → CodeM SourcedFragment
  | .var d => return ⟨.mark (.decl (.var d)) (← (d.init.sourced g).lift), .plain []⟩
  | .fn f => do
    let routine ← f.sourced g
    return ⟨.mark (.decl (.fn f)) (.plain [.bare .lfp, .pushLabel routine.entry]), routine.bodies⟩
  | .cls ⟨id, name, superclass, fields, methods, pos⟩ => do
    let record ← g.recordOf id name pos
    let inherited := inheritedTable (← get).tables record
    let (table, bodies) ← methodsSourced { g with inClass := true } inherited methods
    modify fun s => { s with tables := s.tables.insert name table }
    return ⟨.mark (.decl (.cls ⟨id, name, superclass, fields, methods, pos⟩))
      (.plain (Code.dispatchTable table)), bodies⟩

/-- The code of a function, with spans. -/
def FunDecl.sourced (g : CodeContext) : FunDecl → CodeM SourcedRoutine
  | ⟨id, name, params, result, decls, body, pos⟩ => do
    let entry ← freshFunction
    let locals ← declsSourced g decls
    let value ← (body.sourced g).lift
    return ⟨entry, locals.bodies ++
      FunDecl.sourcedRoutine ⟨id, name, params, result, decls, body, pos⟩ entry locals.code value⟩

/-- The code of several declarations, with spans. -/
def declsSourced (g : CodeContext) : List Decl → CodeM SourcedFragment
  | [] => return .empty
  | d :: ds => do
    let first ← d.sourced g
    return first ++ (← declsSourced g ds)

/-- The dispatch table of a class and the code of its methods, with spans. -/
def methodsSourced (g : CodeContext) (table : List Label) :
    List FunDecl → CodeM (List Label × Sourced)
  | [] => return (table, .plain [])
  | m :: ms => do
    let entry ← g.entryOf m.id m.name m.pos
    let routine ← m.sourced g
    let (table, bodies) ← methodsSourced g (placeMethod table entry.offset routine.entry) ms
    return (table, routine.bodies ++ bodies)

end

theorem LabelM.lift_map {α β : Type} (f : α → β) (x : LabelM α) :
    (f <$> x).lift = f <$> x.lift := by
  funext s
  change ((x s.labels >>= fun p => Except.ok (f p.1, p.2)) >>= _) = ((x s.labels >>= _) >>= _)
  cases x s.labels <;> rfl

mutual

/-- Without its spans it is the code of the declaration. -/
theorem Decl.sourced_code (g : CodeContext) :
    ∀ d : Decl, SourcedFragment.erase <$> d.sourced g = d.code g
  | .var d => by
    simp [Decl.sourced, Decl.code, SourcedFragment.erase, ← d.init.sourced_code g, LabelM.lift_map]
  | .fn f => by
    simp [Decl.sourced, Decl.code, SourcedFragment.erase, ← f.sourced_code g, SourcedRoutine.erase]
  | .cls ⟨id, name, _, _, methods, pos⟩ => by
    simp [Decl.sourced, Decl.code, SourcedFragment.erase, ← methodsSourced_code _ _ methods]

/-- The same of a function. -/
theorem FunDecl.sourced_code (g : CodeContext) :
    ∀ f : FunDecl, SourcedRoutine.erase <$> f.sourced g = f.code g
  | ⟨id, name, params, result, decls, body, pos⟩ => by
    simp [FunDecl.sourced, FunDecl.code, SourcedRoutine.erase,
      FunDecl.sourcedRoutine, ← declsSourced_code g decls, ← body.sourced_code g, LabelM.lift_map,
      CodeBuffer.openBody, CodeBuffer.emit, CodeBuffer.add, CodeBuffer.closeBody,
      SourcedFragment.erase]

/-- The same of several declarations. -/
theorem declsSourced_code (g : CodeContext) : ∀ ds : List Decl,
    SourcedFragment.erase <$> declsSourced g ds = declCode g ds
  | [] => by
    simp [declsSourced, declCode]
  | d :: ds => by
    simp [declsSourced, declCode, ← d.sourced_code g, ← declsSourced_code g ds]

/-- The same of the methods of a class. -/
theorem methodsSourced_code (g : CodeContext) (table : List Label) : ∀ ms : List FunDecl,
    Prod.map id Sourced.code <$> methodsSourced g table ms = methodCode g table ms
  | [] => by
    simp [methodsSourced, methodCode]
  | m :: ms => by
    simp [methodsSourced, methodCode, ← m.sourced_code g, ← methodsSourced_code g _ ms,
      SourcedRoutine.erase]

end

/-! ### Programs -/

namespace Program

/-- The main code, and behind it the functions. -/
def sourcedCode (g : CodeContext) (p : Program) : CodeM Sourced := do
  let locals ← declsSourced g p.decls
  let value ← (p.body.sourced g).lift
  return .plain (if p.decls.isEmpty then [] else [.push 0]) ++ locals.code ++ value ++
    .plain [.bare .halt] ++ locals.bodies

/-- The code of a program, with spans. -/
def sourced (p : Program) (r : Resolution) (globalFrame : Int32) : Except LoweringError Sourced :=
  (p.sourcedCode { resolution := r, globalFrame }).run' {}

/-- Without its spans it is the code of the program. -/
theorem sourcedCode_code (g : CodeContext) (p : Program) :
    (fun m => Listing.mk m.code) <$> p.sourcedCode g = p.code g := by
  simp [sourcedCode, Program.code, ← declsSourced_code g p.decls, ← p.body.sourced_code g,
    LabelM.lift_map, CodeBuffer.emit, CodeBuffer.add, CodeBuffer.finish, CodeBuffer.closeAll,
    SourcedFragment.erase]

/-- The source map belongs to the code that is generated. -/
theorem sourced_code (p : Program) (r : Resolution) (globalFrame : Int32) :
    (fun m => Listing.mk m.code) <$> p.sourced r globalFrame = p.generate r globalFrame := by
  rw [sourced, generate, ← sourcedCode_code]
  change _ = Prod.fst <$> (p.sourcedCode _ {} >>= fun q => Except.ok (Listing.mk q.1.code, q.2))
  change _ <$> Prod.fst <$> p.sourcedCode _ {} = _
  cases p.sourcedCode _ {} <;> rfl

/-- Whenever there is a listing there are spans for it. -/
theorem exists_sourced {p : Program} {r : Resolution} {globalFrame : Int32} {listing : Listing}
    (h : p.generate r globalFrame = .ok listing) :
    ∃ m, p.sourced r globalFrame = .ok m ∧ m.code = listing.instrs := by
  rw [← sourced_code] at h
  cases hm : p.sourced r globalFrame with
  | error e =>
    rw [hm] at h
    cases h
  | ok m =>
    rw [hm] at h
    cases h
    exact ⟨m, rfl, rfl⟩

end Program

end Stackling
