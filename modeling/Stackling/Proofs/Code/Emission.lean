import Stackling.Code.Declaration

/-!
# What code generation emits

Code generation succeeds on a tree just if it succeeds on the parts, and then puts the code of the
parts together in a fixed way. One equivalence for each form of tree says how; later proofs use
these and do not open the generator.
-/

namespace Stackling

namespace Emission

variable {σ ε α β : Type}

/-- A bind succeeds exactly if both of its steps do, the second one from where the first one
ends. -/
theorem bind_eq_ok {x : StateT σ (Except ε) α} {f : α → StateT σ (Except ε) β} {s : σ} {r : β × σ} :
    (x >>= f) s = .ok r ↔ ∃ a s', x s = .ok (a, s') ∧ f a s' = .ok r := by
  change (x s >>= fun p => f p.1 p.2) = .ok r ↔ _
  cases x s <;> simp [bind, Except.bind, Prod.ext_iff, and_assoc]

theorem pure_eq_ok {a : α} {s : σ} {r : α × σ} :
    (pure a : StateT σ (Except ε) α) s = .ok r ↔ (a, s) = r := by
  change Except.ok (a, s) = .ok r ↔ _
  simp

theorem throw_ne_ok {e : ε} {s : σ} {r : α × σ} :
    (throw e : StateT σ (Except ε) α) s = .ok r ↔ False := by
  change Except.error e = .ok r ↔ _
  simp

theorem map_eq_ok {f : α → β} {x : StateT σ (Except ε) α} {s s' : σ} {b : β} :
    (f <$> x) s = .ok (b, s') ↔ ∃ a, x s = .ok (a, s') ∧ f a = b := by
  rw [map_eq_pure_bind, bind_eq_ok]
  simp only [pure_eq_ok, Prod.mk.injEq]
  exact ⟨fun ⟨a, _, ha, hb, hs⟩ => ⟨a, hs ▸ ha, hb⟩, fun ⟨a, ha, hb⟩ => ⟨a, s', ha, hb, rfl⟩⟩

theorem get_eq_ok {s : σ} {r : σ × σ} : (get : StateT σ (Except ε) σ) s = .ok r ↔ (s, s) = r := by
  change Except.ok (s, s) = .ok r ↔ _
  simp

theorem modify_eq_ok {f : σ → σ} {s : σ} {r : PUnit × σ} :
    (modify f : StateT σ (Except ε) PUnit) s = .ok r ↔ ((), f s) = r := by
  change Except.ok ((), f s) = .ok r ↔ _
  simp

end Emission

open Emission

variable {g : CodeContext} {s s' : LabelSupply}

/-- A fresh label has the next number, and the supply moves on by one. -/
theorem freshBranch_eq_ok {r : Label × LabelSupply} :
    freshBranch s = .ok r ↔ (.branch s.branches, { s with branches := s.branches + 1 }) = r := by
  change Except.ok s.freshBranch = .ok r ↔ _
  simp [LabelSupply.freshBranch]

namespace CodeContext

theorem useOf_eq_ok {id : NodeId} {name : String} {pos : SourcePos} {r : Binding × LabelSupply} :
    g.useOf id name pos s = .ok r ↔ ∃ b, g.resolution.uses[id]? = some b ∧ (b, s) = r := by
  unfold useOf
  cases g.resolution.uses[id]? <;> simp [pure_eq_ok, throw_ne_ok]

theorem sendOf_eq_ok {id : NodeId} {name : String} {pos : SourcePos} {r : Dispatch × LabelSupply} :
    g.sendOf id name pos s = .ok r ↔ ∃ d, g.resolution.sends[id]? = some d ∧ (d, s) = r := by
  unfold sendOf
  cases g.resolution.sends[id]? <;> simp [pure_eq_ok, throw_ne_ok]

end CodeContext

/-- The supply after the two labels that a branching expression takes. -/
def LabelSupply.pastTwo (s : LabelSupply) : LabelSupply := { s with branches := s.branches + 2 }

/-- The operation of an operator that computes on its operands without a branch. -/
def BinOp.bare? : BinOp → Option Bare
  | .add => some .add
  | .sub => some .sub
  | .div => some .div
  | .mul | .and => some .mult
  | _ => none

namespace Expr

variable {code : List Instr} {pos : SourcePos}

theorem code_int {v : Int32} :
    (Expr.int v pos).code g s = .ok (code, s') ↔ [.push v] = code ∧ s = s' := by
  simp only [Expr.code, pure_eq_ok, Prod.mk.injEq]

theorem code_bool {b : Bool} :
    (Expr.bool b pos).code g s = .ok (code, s') ↔ [.push (if b then 1 else 0)] = code ∧ s = s' := by
  simp only [Expr.code, pure_eq_ok, Prod.mk.injEq]

theorem code_null : (Expr.null pos).code g s = .ok (code, s') ↔ [.push (-1)] = code ∧ s = s' := by
  simp only [Expr.code, pure_eq_ok, Prod.mk.injEq]

theorem code_name {id : NodeId} {name : String} :
    (Expr.name id name pos).code g s = .ok (code, s') ↔
      ∃ b, g.resolution.uses[id]? = some b ∧ s = s' ∧
        (g.frameAccess b ++ if b.entry.ty.isArrow then Code.loadClosure b.entry.offset
          else Code.load b.entry.offset) = code := by
  simp only [Expr.code, bind_eq_ok, pure_eq_ok, CodeContext.useOf_eq_ok, Prod.mk.injEq]
  constructor
  · rintro ⟨b, _, ⟨_, hb, rfl, rfl⟩, rfl, rfl⟩
    exact ⟨_, hb, rfl, rfl⟩
  · rintro ⟨b, hb, rfl, rfl⟩
    exact ⟨_, _, ⟨_, hb, rfl, rfl⟩, rfl, rfl⟩

/-- The code of an operator with an instruction of its own is that of its operands and the
instruction. -/
theorem code_bare {op : BinOp} {o : Bare} (hop : op.bare? = some o) {l r : Expr} :
    (Expr.binary op l r pos).code g s = .ok (code, s') ↔
      ∃ a s₁ b, l.code g s = .ok (a, s₁) ∧ r.code g s₁ = .ok (b, s') ∧
        a ++ b ++ [.bare o] = code := by
  cases op <;> simp [BinOp.bare?] at hop <;> subst hop <;>
    simp only [Expr.code, bind_eq_ok, pure_eq_ok, Prod.mk.injEq] <;>
    exact ⟨fun ⟨a, s₁, ha, b, _, hb, hc, hs⟩ => ⟨a, s₁, b, ha, hs ▸ hb, hc⟩,
      fun ⟨a, s₁, b, ha, hb, hc⟩ => ⟨a, s₁, ha, b, _, hb, hc, rfl⟩⟩

/-- A disjunction jumps past its right operand if the left one is true. Its two labels are taken
before the operands are compiled. -/
theorem code_or {l r : Expr} :
    (Expr.binary .or l r pos).code g s = .ok (code, s') ↔
      ∃ a s₁ b, l.code g s.pastTwo = .ok (a, s₁) ∧ r.code g s₁ = .ok (b, s') ∧
        a ++ [.push 1, .jump .equal (.branch s.branches)] ++ b ++ .push 1 ::
          Code.truthValue .equal (.branch s.branches) (.branch (s.branches + 1)) = code := by
  simp only [Expr.code, bind_eq_ok, pure_eq_ok, freshBranch_eq_ok, Prod.mk.injEq]
  constructor
  · rintro ⟨_, _, ⟨rfl, rfl⟩, _, _, ⟨rfl, rfl⟩, a, s₁, ha, b, _, hb, rfl, rfl⟩
    exact ⟨a, s₁, b, ha, hb, rfl⟩
  · rintro ⟨a, s₁, b, ha, hb, rfl⟩
    exact ⟨_, _, ⟨rfl, rfl⟩, _, _, ⟨rfl, rfl⟩, a, s₁, ha, b, _, hb, rfl, rfl⟩

/-- A comparison leaves the truth value of a jump. -/
theorem compareCode_eq_ok {kind : Jump} {x y : LabelM (List Instr)} :
    compareCode kind x y s = .ok (code, s') ↔
      ∃ a s₁ b, x s.pastTwo = .ok (a, s₁) ∧ y s₁ = .ok (b, s') ∧
        a ++ b ++ Code.truthValue kind (.branch s.branches) (.branch (s.branches + 1)) = code := by
  simp only [compareCode, bind_eq_ok, pure_eq_ok, freshBranch_eq_ok, Prod.mk.injEq]
  constructor
  · rintro ⟨_, _, ⟨rfl, rfl⟩, _, _, ⟨rfl, rfl⟩, a, s₁, ha, b, _, hb, rfl, rfl⟩
    exact ⟨a, s₁, b, ha, hb, rfl⟩
  · rintro ⟨a, s₁, b, ha, hb, rfl⟩
    exact ⟨_, _, ⟨rfl, rfl⟩, _, _, ⟨rfl, rfl⟩, a, s₁, ha, b, _, hb, rfl, rfl⟩

/-- A negation is subtracted from one. -/
theorem code_not {e : Expr} :
    (Expr.not e pos).code g s = .ok (code, s') ↔
      ∃ a, e.code g s = .ok (a, s') ∧ .push 1 :: a ++ [.bare .sub] = code := by
  simp only [Expr.code, bind_eq_ok, pure_eq_ok, Prod.mk.injEq]
  exact ⟨fun ⟨a, _, ha, hc, hs⟩ => ⟨a, hs ▸ ha, hc⟩, fun ⟨a, ha, hc⟩ => ⟨a, _, ha, hc, rfl⟩⟩

theorem code_print {e : Expr} :
    (Expr.print e pos).code g s = .ok (code, s') ↔
      ∃ a, e.code g s = .ok (a, s') ∧ a ++ [.bare .print] = code := by
  simp only [Expr.code, bind_eq_ok, pure_eq_ok, Prod.mk.injEq]
  exact ⟨fun ⟨a, _, ha, hc, hs⟩ => ⟨a, hs ▸ ha, hc⟩, fun ⟨a, ha, hc⟩ => ⟨a, _, ha, hc, rfl⟩⟩

/-- A conditional has the code of its second branch first. -/
theorem code_ite {c y n : Expr} :
    (Expr.ite c y n pos).code g s = .ok (code, s') ↔
      ∃ cc s₁ cn s₂ cy, c.code g s.pastTwo = .ok (cc, s₁) ∧ n.code g s₁ = .ok (cn, s₂) ∧
        y.code g s₂ = .ok (cy, s') ∧
        cc ++ [.push 1, .jump .equal (.branch s.branches)] ++ cn ++
          [.jump .always (.branch (s.branches + 1)), .label (.branch s.branches)] ++ cy ++
          [.label (.branch (s.branches + 1))] = code := by
  simp only [Expr.code, bind_eq_ok, pure_eq_ok, freshBranch_eq_ok, Prod.mk.injEq]
  constructor
  · rintro ⟨_, _, ⟨rfl, rfl⟩, _, _, ⟨rfl, rfl⟩, cc, s₁, hc, cn, s₂, hn, cy, _, hy, rfl, rfl⟩
    exact ⟨cc, s₁, cn, s₂, cy, hc, hn, hy, rfl⟩
  · rintro ⟨cc, s₁, cn, s₂, cy, hc, hn, hy, rfl⟩
    exact ⟨_, _, ⟨rfl, rfl⟩, _, _, ⟨rfl, rfl⟩, cc, s₁, hc, cn, s₂, hn, cy, _, hy, rfl, rfl⟩

/-- A call leaves the frame, the arguments in reverse, the static link and the address, and
jumps. -/
theorem code_call {id : NodeId} {callee : String} {args : List Expr} :
    (Expr.call id callee args pos).code g s = .ok (code, s') ↔
      ∃ b a, g.resolution.uses[id]? = some b ∧ argumentCode g args s = .ok (a, s') ∧
        (.bare .lfp :: a ++ g.frameAccess b ++
          if b.entry.ty.isMethod then Code.dispatch b.entry.offset
          else Code.loadClosure b.entry.offset ++ [.bare .js]) = code := by
  simp only [Expr.code, bind_eq_ok, pure_eq_ok, CodeContext.useOf_eq_ok, Prod.mk.injEq]
  constructor
  · rintro ⟨b, _, ⟨_, hb, rfl, rfl⟩, a, _, ha, rfl, rfl⟩
    exact ⟨_, a, hb, ha, rfl⟩
  · rintro ⟨b, a, hb, ha, rfl⟩
    exact ⟨_, _, ⟨_, hb, rfl, rfl⟩, a, _, ha, rfl, rfl⟩

/-- A method call finds its address through the receiver. -/
theorem code_send {id : NodeId} {receiver method : String} {args : List Expr} :
    (Expr.send id receiver method args pos).code g s = .ok (code, s') ↔
      ∃ d a, g.resolution.sends[id]? = some d ∧ argumentCode g args s = .ok (a, s') ∧
        .bare .lfp :: a ++ g.frameAccess d.receiver ++ Code.load d.receiver.entry.offset ++
          Code.dispatch d.method.offset = code := by
  simp only [Expr.code, bind_eq_ok, pure_eq_ok, CodeContext.sendOf_eq_ok, Prod.mk.injEq]
  constructor
  · rintro ⟨d, _, ⟨_, hd, rfl, rfl⟩, a, _, ha, rfl, rfl⟩
    exact ⟨_, a, hd, ha, rfl⟩
  · rintro ⟨d, a, hd, ha, rfl⟩
    exact ⟨_, _, ⟨_, hd, rfl, rfl⟩, a, _, ha, rfl, rfl⟩

/-- A new object is made of its arguments, which are moved to the heap. -/
theorem code_new {id : NodeId} {cls : String} {args : List Expr} :
    (Expr.new id cls args pos).code g s = .ok (code, s') ↔
      ∃ b c a, g.resolution.uses[id]? = some b ∧ b.entry.ty = .cls c ∧
        valueCode g args s = .ok (a, s') ∧
        a ++ Code.makeObject c.cells (g.globalFrame + b.entry.offset) = code := by
  simp only [Expr.code, bind_eq_ok, CodeContext.useOf_eq_ok, Prod.mk.injEq]
  constructor
  · rintro ⟨b, _, ⟨_, hb, rfl, rfl⟩, h⟩
    rename_i b
    cases hty : b.entry.ty with
    | cls c =>
      simp only [hty, bind_eq_ok, pure_eq_ok, Prod.mk.injEq] at h
      obtain ⟨a, _, ha, rfl, rfl⟩ := h
      exact ⟨b, c, a, hb, hty, ha, rfl⟩
    | int | bool | null | ref _ | arrow _ | method _ =>
      simp only [hty] at h
      exact (throw_ne_ok.mp h).elim
  · rintro ⟨b, c, a, hb, hc, ha, rfl⟩
    refine ⟨b, s, ⟨b, hb, rfl, rfl⟩, ?_⟩
    simp only [hc, bind_eq_ok, pure_eq_ok, Prod.mk.injEq]
    exact ⟨a, _, ha, rfl, rfl⟩

end Expr

theorem argumentCode_nil {code : List Instr} :
    argumentCode g [] s = .ok (code, s') ↔ [] = code ∧ s = s' := by
  simp only [argumentCode, pure_eq_ok, Prod.mk.injEq]

/-- Arguments of calls are compiled from the last one to the first one. -/
theorem argumentCode_cons {code : List Instr} {e : Expr} {es : List Expr} :
    argumentCode g (e :: es) s = .ok (code, s') ↔
      ∃ a s₁ b, argumentCode g es s = .ok (a, s₁) ∧ e.code g s₁ = .ok (b, s') ∧ a ++ b = code := by
  simp only [argumentCode, bind_eq_ok, pure_eq_ok, Prod.mk.injEq]
  exact ⟨fun ⟨a, s₁, ha, b, _, hb, hc, hs⟩ => ⟨a, s₁, b, ha, hs ▸ hb, hc⟩,
    fun ⟨a, s₁, b, ha, hb, hc⟩ => ⟨a, s₁, ha, b, _, hb, hc, rfl⟩⟩

theorem valueCode_nil {code : List Instr} :
    valueCode g [] s = .ok (code, s') ↔ [] = code ∧ s = s' := by
  simp only [valueCode, pure_eq_ok, Prod.mk.injEq]

/-- Arguments of constructors are compiled from the first one to the last one. -/
theorem valueCode_cons {code : List Instr} {e : Expr} {es : List Expr} :
    valueCode g (e :: es) s = .ok (code, s') ↔
      ∃ a s₁ b, e.code g s = .ok (a, s₁) ∧ valueCode g es s₁ = .ok (b, s') ∧ a ++ b = code := by
  simp only [valueCode, bind_eq_ok, pure_eq_ok, Prod.mk.injEq]
  exact ⟨fun ⟨a, s₁, ha, b, _, hb, hc, hs⟩ => ⟨a, s₁, b, ha, hs ▸ hb, hc⟩,
    fun ⟨a, s₁, b, ha, hb, hc⟩ => ⟨a, s₁, ha, b, _, hb, hc, rfl⟩⟩

/-! ### Declarations -/

variable {q q' : CodeState}

/-- A step that only takes labels leaves the rest of the state alone. -/
theorem lift_eq_ok {α : Type} {x : LabelM α} {r : α × CodeState} :
    x.lift q = .ok r ↔ ∃ a s', x q.labels = .ok (a, s') ∧ (a, { q with labels := s' }) = r := by
  change (x q.labels >>= fun p => Except.ok (p.1, { q with labels := p.2 })) = .ok r ↔ _
  cases x q.labels <;> simp [bind, Except.bind, Prod.ext_iff, and_assoc]

/-- The state after the label of a function is taken. -/
def CodeState.pastFunction (q : CodeState) : CodeState :=
  { q with labels := { q.labels with functions := q.labels.functions + 1 } }

theorem freshFunction_eq_ok {r : Label × CodeState} :
    freshFunction q = .ok r ↔ (.function q.labels.functions, q.pastFunction) = r := by
  change Except.ok (q.labels.freshFunction.1, { q with labels := q.labels.freshFunction.2 }) =
    .ok r ↔ _
  simp [LabelSupply.freshFunction, CodeState.pastFunction]

/-- The record of a class is there if its declaration has an entry and its name a record. -/
theorem CodeContext.recordOf_eq_ok {id : NodeId} {name : String} {pos : SourcePos}
    {r : ClassRecord × CodeState} :
    g.recordOf id name pos q = .ok r ↔
      ∃ entry record, g.resolution.decls[id]? = some entry ∧
        g.resolution.class? name = some record ∧ (record, q) = r := by
  unfold recordOf
  cases g.resolution.decls[id]? with
  | none => simp [throw_ne_ok]
  | some entry => cases g.resolution.class? name <;> simp [pure_eq_ok, throw_ne_ok]

theorem CodeContext.entryOf_eq_ok {id : NodeId} {name : String} {pos : SourcePos}
    {r : Entry × CodeState} :
    g.entryOf id name pos q = .ok r ↔
      ∃ entry, g.resolution.decls[id]? = some entry ∧ (entry, q) = r := by
  unfold entryOf
  cases g.resolution.decls[id]? <;> simp [pure_eq_ok, throw_ne_ok]

/-- The code of a function from its entry to its return, around the code of its declarations and
its body. -/
def FunDecl.routine (f : FunDecl) (entry : Label) (locals value : List Instr) : List Instr :=
  .label entry :: Code.plain [.cfp, .lra] ++ locals ++ value ++
    Code.epilogue (totalCells Decl.cells f.decls) (totalCells (·.declared.cells) f.params)
    f.result.isArrow

/-- A function has its label taken first, then its declarations compiled and then its body. -/
theorem FunDecl.code_eq_ok {f : FunDecl} {r : Routine} :
    f.code g q = .ok (r, q') ↔
      ∃ locals q₁ value s', declCode g f.decls q.pastFunction = .ok (locals, q₁) ∧
        f.body.code g q₁.labels = .ok (value, s') ∧ { q₁ with labels := s' } = q' ∧
        ⟨.function q.labels.functions, locals.bodies ++
          f.routine (.function q.labels.functions) locals.code value⟩ = r := by
  obtain ⟨id, name, params, result, decls, body, pos⟩ := f
  simp only [FunDecl.code, bind_eq_ok, pure_eq_ok, freshFunction_eq_ok, lift_eq_ok, Prod.mk.injEq]
  constructor
  · rintro ⟨_, _, ⟨rfl, rfl⟩, locals, q₁, hlocals, value, _, ⟨_, s', hvalue, rfl, rfl⟩, rfl, rfl⟩
    exact ⟨locals, q₁, _, s', hlocals, hvalue, rfl, by
      simp [FunDecl.routine, CodeBuffer.openBody, CodeBuffer.emit, CodeBuffer.add,
        CodeBuffer.closeBody]⟩
  · rintro ⟨locals, q₁, value, s', hlocals, hvalue, rfl, rfl⟩
    exact ⟨_, _, ⟨rfl, rfl⟩, locals, q₁, hlocals, value, _, ⟨_, s', hvalue, rfl, rfl⟩, by
      simp [FunDecl.routine, CodeBuffer.openBody, CodeBuffer.emit, CodeBuffer.add,
        CodeBuffer.closeBody], rfl⟩

namespace Decl

variable {f : Fragment}

theorem code_var {d : VarDecl} :
    (Decl.var d).code g q = .ok (f, q') ↔
      ∃ a s', d.init.code g q.labels = .ok (a, s') ∧ { q with labels := s' } = q' ∧
        ⟨a, []⟩ = f := by
  simp only [Decl.code, bind_eq_ok, pure_eq_ok, lift_eq_ok, Prod.mk.injEq]
  constructor
  · rintro ⟨_, _, ⟨a, s', ha, rfl, rfl⟩, rfl, rfl⟩
    exact ⟨a, s', ha, rfl, rfl⟩
  · rintro ⟨a, s', ha, rfl, rfl⟩
    exact ⟨_, _, ⟨a, s', ha, rfl, rfl⟩, rfl, rfl⟩

/-- The declaration of a function leaves a closure: the frame and the address of its code. -/
theorem code_fn {d : FunDecl} :
    (Decl.fn d).code g q = .ok (f, q') ↔
      ∃ r, d.code g q = .ok (r, q') ∧ ⟨[.bare .lfp, .pushLabel r.entry], r.bodies⟩ = f := by
  simp only [Decl.code, bind_eq_ok, pure_eq_ok, Prod.mk.injEq]
  exact ⟨fun ⟨r, _, hr, hf, hq⟩ => ⟨r, hq ▸ hr, hf⟩, fun ⟨r, hr, hf⟩ => ⟨r, _, hr, hf, rfl⟩⟩

/-- The declaration of a class makes its dispatch table out of the inherited one and the own
methods. -/
theorem code_cls {c : ClassDecl} :
    (Decl.cls c).code g q = .ok (f, q') ↔
      ∃ entry record table bodies q₁, g.resolution.decls[c.id]? = some entry ∧
        g.resolution.class? c.name = some record ∧
        methodCode { g with inClass := true } (inheritedTable q.tables record) c.methods q =
          .ok ((table, bodies), q₁) ∧
        { q₁ with tables := q₁.tables.insert c.name table } = q' ∧
        ⟨Code.dispatchTable table, bodies⟩ = f := by
  obtain ⟨id, name, superclass, fields, methods, pos⟩ := c
  simp only [Decl.code, bind_eq_ok, pure_eq_ok, get_eq_ok, modify_eq_ok, CodeContext.recordOf_eq_ok,
    Prod.mk.injEq]
  constructor
  · rintro ⟨_, _, ⟨entry, record, he, hr, rfl, rfl⟩, _, _, ⟨rfl, rfl⟩, ⟨table, bodies⟩, q₁, hm, _,
      _, ⟨-, rfl⟩, rfl, rfl⟩
    exact ⟨entry, record, table, bodies, q₁, he, hr, hm, rfl, rfl⟩
  · rintro ⟨entry, record, table, bodies, q₁, he, hr, hm, rfl, rfl⟩
    exact ⟨_, _, ⟨entry, record, he, hr, rfl, rfl⟩, _, _, ⟨rfl, rfl⟩, ⟨table, bodies⟩, q₁, hm, (),
      _, ⟨trivial, rfl⟩, rfl, rfl⟩

end Decl

theorem declCode_nil {f : Fragment} :
    declCode g [] q = .ok (f, q') ↔ Fragment.empty = f ∧ q = q' := by
  simp only [declCode, pure_eq_ok, Prod.mk.injEq]

/-- Declarations are compiled from the first one to the last one. -/
theorem declCode_cons {f : Fragment} {d : Decl} {ds : List Decl} :
    declCode g (d :: ds) q = .ok (f, q') ↔
      ∃ a q₁ b, d.code g q = .ok (a, q₁) ∧ declCode g ds q₁ = .ok (b, q') ∧ a ++ b = f := by
  simp only [declCode, bind_eq_ok, pure_eq_ok, Prod.mk.injEq]
  exact ⟨fun ⟨a, q₁, ha, b, _, hb, hf, hq⟩ => ⟨a, q₁, b, ha, hq ▸ hb, hf⟩,
    fun ⟨a, q₁, b, ha, hb, hf⟩ => ⟨a, q₁, ha, b, _, hb, hf, rfl⟩⟩

theorem methodCode_nil {table : List Label} {r : List Label × List Instr} :
    methodCode g table [] q = .ok (r, q') ↔ (table, []) = r ∧ q = q' := by
  simp only [methodCode, pure_eq_ok, Prod.mk.injEq]

/-- A method takes its place in the table before the next one is compiled. -/
theorem methodCode_cons {table : List Label} {m : FunDecl} {ms : List FunDecl}
    {r : List Label × List Instr} :
    methodCode g table (m :: ms) q = .ok (r, q') ↔
      ∃ entry routine q₁ rest, g.resolution.decls[m.id]? = some entry ∧
        m.code g q = .ok (routine, q₁) ∧
        methodCode g (placeMethod table entry.offset routine.entry) ms q₁ = .ok (rest, q') ∧
        (rest.1, routine.bodies ++ rest.2) = r := by
  simp only [methodCode, bind_eq_ok, pure_eq_ok, CodeContext.entryOf_eq_ok, Prod.mk.injEq]
  constructor
  · rintro ⟨_, _, ⟨entry, he, rfl, rfl⟩, routine, q₁, hm, rest, _, hrest, hr, rfl⟩
    exact ⟨entry, routine, q₁, rest, he, hm, hrest, hr⟩
  · rintro ⟨entry, routine, q₁, rest, he, hm, hrest, hr⟩
    exact ⟨_, _, ⟨entry, he, rfl, rfl⟩, routine, q₁, hm, rest, _, hrest, hr, rfl⟩

namespace Program

/-- The cell that a program with declarations has in place of a return address. -/
def opening (p : Program) : List Instr := if p.decls.isEmpty then [] else [.push 0]

/-- The listing of a program is its opening, its declarations, its value and a halt, with all
functions behind it. -/
theorem generate_eq_ok {p : Program} {r : Resolution} {globalFrame : Int32} {listing : Listing} :
    p.generate r globalFrame = .ok listing ↔
      ∃ locals q value s', declCode { resolution := r, globalFrame } p.decls {} = .ok (locals, q) ∧
        p.body.code { resolution := r, globalFrame } q.labels = .ok (value, s') ∧
        ⟨p.opening ++ locals.code ++ value ++ .bare .halt :: locals.bodies⟩ = listing := by
  have hrun : p.generate r globalFrame = .ok listing ↔
      ∃ q, p.code { resolution := r, globalFrame } {} = .ok (listing, q) := by
    change (Prod.fst <$> p.code { resolution := r, globalFrame } {}) = .ok listing ↔ _
    cases p.code { resolution := r, globalFrame } {} <;>
      simp [Functor.map, Except.map, Prod.ext_iff]
  simp only [hrun, Program.code, bind_eq_ok, pure_eq_ok, lift_eq_ok, Prod.mk.injEq]
  have hfinish (locals : Fragment) (value : List Instr) :
      (CodeBuffer.emit {} p.opening |>.add locals |>.emit (value ++ [.bare .halt])).finish =
        ⟨p.opening ++ locals.code ++ value ++ .bare .halt :: locals.bodies⟩ := by
    simp [CodeBuffer.emit, CodeBuffer.add, CodeBuffer.finish, CodeBuffer.closeAll]
  constructor
  · rintro ⟨_, locals, q, hlocals, _, _, ⟨value, s', hvalue, rfl, rfl⟩, hlisting, -⟩
    exact ⟨locals, q, value, s', hlocals, hvalue, (hfinish locals value).symm.trans hlisting⟩
  · rintro ⟨locals, q, value, s', hlocals, hvalue, rfl⟩
    exact ⟨_, locals, q, hlocals, _, _, ⟨value, s', hvalue, rfl, rfl⟩, hfinish locals value, rfl⟩

end Program

end Stackling
