import Stackling.Proofs.Code.Coupling
import Stackling.Proofs.Renaming.Resolution

/-!
# Code under other names

No name gets into the code: a name is a key to facts about a node or to the dispatch table of a
class, and labels are numbered. So generation for a renamed program takes the same labels, writes
the same instructions and, where it fails, fails at the same place. Two generations are compared
from state to state, since the dispatch tables met on the way stand under other names.
-/

namespace Stackling

variable {f : String → String}

/-- One failure is the other under other names. -/
def LoweringError.Renamed (f : String → String) (e e' : LoweringError) : Prop := e.rename f = e'

open Lowering (Coupled)
open LoweringError (Renamed)

/-- Two settings of code generation differ in names only: the resolution is renamed, and where the
global frame is and whether code is inside a class are the same. -/
structure CodeContext.Renames (f : String → String) (g g' : CodeContext) : Prop where
  resolution : g.resolution.Renames f g'.resolution
  globalFrame : g'.globalFrame = g.globalFrame
  inClass : g'.inClass = g.inClass

/-! ### Expressions -/

namespace CodeContext.Renames

variable {g g' : CodeContext}

/-- How a frame is reached depends on depths alone, so the code for it is the same. -/
theorem frameAccess_eq (hg : g.Renames f g') (b : Binding) :
    g'.frameAccess (b.rename f) = g.frameAccess b := by
  rw [frameAccess, frameAccess, hg.globalFrame, hg.inClass, Binding.hops_rename]
  rfl

/-- Looking up a use gives the same binding under other names, or fails in both settings. -/
theorem useOf (hg : g.Renames f g') (id : NodeId) (name : String) (pos : SourcePos) :
    Coupled (Renamed f) Eq (Binding.rename f · = ·) (g.useOf id name pos)
      (g'.useOf id (f name) default) := by
  rw [CodeContext.useOf, CodeContext.useOf, hg.resolution.uses]
  cases g.resolution.uses[id]? with
  | none => exact .throw rfl
  | some b => exact .pure rfl

/-- Looking up a method call gives the same dispatch under other names, or fails in both
settings. -/
theorem sendOf (hg : g.Renames f g') (id : NodeId) (name : String) (pos : SourcePos) :
    Coupled (Renamed f) Eq (Dispatch.rename f · = ·) (g.sendOf id name pos)
      (g'.sendOf id (f name) default) := by
  rw [CodeContext.sendOf, CodeContext.sendOf, hg.resolution.sends]
  cases g.resolution.sends[id]? with
  | none => exact .throw rfl
  | some d => exact .pure rfl

end CodeContext.Renames

/-- Comparisons of renamed operands take the same two labels and are the same code. -/
theorem coupled_compareCode (kind : Jump) {x x' y y' : LabelM (List Instr)}
    (hx : Coupled (Renamed f) Eq Eq x x') (hy : Coupled (Renamed f) Eq Eq y y') :
    Coupled (Renamed f) Eq Eq (compareCode kind x y) (compareCode kind x' y') :=
  coupled_freshBranch.bind_eq fun _ => coupled_freshBranch.bind_eq fun _ =>
    hx.bind_eq fun _ => hy.bind_eq fun _ => .pure rfl

variable {g g' : CodeContext}

mutual

/-- A renamed expression has the same code, from the same labels to the same labels. -/
theorem Expr.code_rename (hg : g.Renames f g') :
    ∀ e : Expr, Coupled (Renamed f) Eq Eq (e.code g) ((e.rename f).code g')
  | .int value _ | .bool value _ => by
    rw [Expr.rename, Expr.code, Expr.code]
    exact .pure rfl
  | .null _ => by
    rw [Expr.rename, Expr.code, Expr.code]
    exact .pure rfl
  | .name id name pos => by
    rw [Expr.rename, Expr.code, Expr.code]
    refine (hg.useOf id name pos).bind ?_
    rintro b _ rfl
    rw [hg.frameAccess_eq]
    simp only [Binding.rename, Entry.rename, Ty.isArrow_rename]
    exact .pure rfl
  | .binary op left right _ => by
    have hleft := Expr.code_rename hg left
    have hright := Expr.code_rename hg right
    cases op <;> rw [Expr.rename, Expr.code, Expr.code]
    case add | sub | div | mul | and =>
      exact hleft.bind_eq fun _ => hright.bind_eq fun _ => .pure rfl
    case or =>
      exact coupled_freshBranch.bind_eq fun _ => coupled_freshBranch.bind_eq fun _ =>
        hleft.bind_eq fun _ => hright.bind_eq fun _ => .pure rfl
    case equal => exact coupled_compareCode .equal hleft hright
    case lessEqual => exact coupled_compareCode .lessEqual hleft hright
    case greaterEqual => exact coupled_compareCode .lessEqual hright hleft
  | .not operand _ => by
    rw [Expr.rename, Expr.code, Expr.code]
    exact (Expr.code_rename hg operand).bind_eq fun _ => .pure rfl
  | .ite cond yes no _ => by
    rw [Expr.rename, Expr.code, Expr.code]
    refine coupled_freshBranch.bind_eq fun taken => coupled_freshBranch.bind_eq fun done => ?_
    refine (Expr.code_rename hg cond).bind_eq fun c => (Expr.code_rename hg no).bind_eq fun b => ?_
    exact (Expr.code_rename hg yes).bind_eq fun a => .pure rfl
  | .print value _ => by
    rw [Expr.rename, Expr.code, Expr.code]
    exact (Expr.code_rename hg value).bind_eq fun _ => .pure rfl
  | .call id callee args pos => by
    rw [Expr.rename, Expr.code, Expr.code]
    refine (hg.useOf id callee pos).bind ?_
    rintro b _ rfl
    refine (argumentCode_rename hg args).bind_eq fun arguments => ?_
    rw [hg.frameAccess_eq]
    simp only [Binding.rename, Entry.rename, Ty.isMethod_rename]
    exact .pure rfl
  | .send id receiver method args pos => by
    rw [Expr.rename, Expr.code, Expr.code]
    refine (hg.sendOf id method pos).bind ?_
    rintro d _ rfl
    refine (argumentCode_rename hg args).bind_eq fun arguments => ?_
    rw [show (d.rename f).receiver = d.receiver.rename f from rfl, hg.frameAccess_eq]
    exact .pure rfl
  | .new id cls args pos => by
    rw [Expr.rename, Expr.code, Expr.code]
    refine (hg.useOf id cls pos).bind ?_
    rintro ⟨⟨depth, ty, offset⟩, n⟩ _ rfl
    cases ty with
    | cls c =>
      refine (valueCode_rename hg args).bind_eq fun values => ?_
      rw [ClassTy.cells_rename, hg.globalFrame]
      exact .pure rfl
    | int | bool | null | ref | arrow | method => exact .throw rfl

/-- The arguments of a call have the same code under other names. -/
theorem argumentCode_rename (hg : g.Renames f g') :
    ∀ es, Coupled (Renamed f) Eq Eq (argumentCode g es) (argumentCode g' (renameArgs f es))
  | [] => by
    rw [renameArgs, argumentCode, argumentCode]
    exact .pure rfl
  | e :: es => by
    rw [renameArgs, argumentCode, argumentCode]
    exact (argumentCode_rename hg es).bind_eq fun _ => (Expr.code_rename hg e).bind_eq fun _ =>
      .pure rfl

/-- The field values of a new object have the same code under other names. -/
theorem valueCode_rename (hg : g.Renames f g') :
    ∀ es, Coupled (Renamed f) Eq Eq (valueCode g es) (valueCode g' (renameArgs f es))
  | [] => by
    rw [renameArgs, valueCode, valueCode]
    exact .pure rfl
  | e :: es => by
    rw [renameArgs, valueCode, valueCode]
    exact (Expr.code_rename hg e).bind_eq fun _ => (valueCode_rename hg es).bind_eq fun _ =>
      .pure rfl

end

/-! ### Declarations -/

/-- Two states of code generation have taken the same labels, and their dispatch tables differ only
in the names of the classes. -/
structure CodeState.Renames (f : String → String) (s s' : CodeState) : Prop where
  labels : s'.labels = s.labels
  tables : NameTable.Renames f Eq s.tables s'.tables

/-- The code of expressions does not touch the dispatch tables. -/
theorem coupled_lift {α β : Type} {R : α → β → Prop} {x : LabelM α} {x' : LabelM β}
    (hx : Coupled (Renamed f) Eq R x x') :
    Coupled (Renamed f) (CodeState.Renames f) R x.lift x'.lift :=
  hx.lift (fun hs => hs.labels.symm) fun _ hs => ⟨rfl, hs.tables⟩

/-- Both states give the same label to the next function. -/
theorem coupled_freshFunction :
    Coupled (Renamed f) (CodeState.Renames f) Eq freshFunction freshFunction := by
  refine .modifyGet fun s s' hs => ?_
  rw [hs.labels]
  exact ⟨rfl, rfl, hs.tables⟩

/-- A class inherits the same dispatch table under other names, since its superclass is renamed like
the table of that class. -/
theorem inheritedTable_eq {tables tables' : Std.TreeMap String (List Label)}
    (ht : NameTable.Renames f Eq tables tables') {record record' : ClassRecord}
    (hr : record.Renames f record') :
    inheritedTable tables' record' = inheritedTable tables record := by
  rw [inheritedTable, inheritedTable, hr.superclass]
  cases record.superclass with
  | none => rfl
  | some s =>
    rcases ht.getElem?_cases s with ⟨hget, hget'⟩ | ⟨a, b, hget, hget', hab⟩
    · simp only [Option.map_some, Option.bind_some, hget, hget']
    · simp only [Option.map_some, Option.bind_some, hget, hget', hab]

namespace CodeContext.Renames

/-- Looking up a class gives records that differ in names only, or fails in both settings. -/
theorem recordOf (hg : g.Renames f g') (id : NodeId) (name : String) (pos : SourcePos) :
    Coupled (Renamed f) (CodeState.Renames f) (ClassRecord.Renames f) (g.recordOf id name pos)
      (g'.recordOf id (f name) default) := by
  rw [CodeContext.recordOf, CodeContext.recordOf, hg.resolution.decls]
  cases g.resolution.decls[id]? with
  | none => exact .throw rfl
  | some entry =>
    simp only [Option.map_some, Option.bind_some, Resolution.class?]
    rcases hg.resolution.classes.records.getElem?_cases name with ⟨hget, hget'⟩ |
      ⟨r, r', hget, hget', hr⟩
    · rw [hget, hget']
      exact .throw rfl
    · rw [hget, hget']
      exact .pure hr

/-- Looking up a method gives the same entry under other names, or fails in both settings. -/
theorem entryOf (hg : g.Renames f g') (id : NodeId) (name : String) (pos : SourcePos) :
    Coupled (Renamed f) (CodeState.Renames f) (Entry.rename f · = ·) (g.entryOf id name pos)
      (g'.entryOf id (f name) default) := by
  rw [CodeContext.entryOf, CodeContext.entryOf, hg.resolution.decls]
  cases g.resolution.decls[id]? with
  | none => exact .throw rfl
  | some entry => exact .pure rfl

/-- Going inside a class changes both settings alike. -/
theorem withinClass (hg : g.Renames f g') :
    { g with inClass := true }.Renames f { g' with inClass := true } :=
  ⟨hg.resolution, hg.globalFrame, rfl⟩

end CodeContext.Renames

mutual

/-- A renamed declaration has the same code. The renaming is injective, so that two classes never
come to share a dispatch table. -/
theorem Decl.code_rename (hf : Function.Injective f) {g g' : CodeContext} (hg : g.Renames f g') :
    ∀ d : Decl, Coupled (Renamed f) (CodeState.Renames f) Eq (d.code g) ((d.rename f).code g')
  | .var d => by
    rw [Decl.rename, Decl.code, Decl.code]
    exact (coupled_lift (Expr.code_rename hg d.init)).bind_eq fun _ => .pure rfl
  | .fn d => by
    rw [Decl.rename, Decl.code, Decl.code]
    exact (FunDecl.code_rename hf hg d).bind_eq fun _ => .pure rfl
  | .cls ⟨id, name, superclass, fields, methods, pos⟩ => by
    rw [Decl.rename, ClassDecl.rename, Decl.code, Decl.code]
    refine (hg.recordOf id name pos).bind fun record record' hrecord => ?_
    refine Coupled.get.bind fun s s' hs => ?_
    rw [inheritedTable_eq hs.tables hrecord]
    refine (methodCode_rename hf hg.withinClass _ methods).bind_eq fun (table, bodies) => ?_
    refine Coupled.bind_eq (.modifyGet fun t t' ht => ?_) fun _ => .pure rfl
    exact ⟨rfl, ht.labels, ht.tables.insert hf rfl name⟩

/-- A renamed function has the same code: it takes the same label and the same number of cells. -/
theorem FunDecl.code_rename (hf : Function.Injective f) {g g' : CodeContext} (hg : g.Renames f g') :
    ∀ d : FunDecl, Coupled (Renamed f) (CodeState.Renames f) Eq (d.code g) ((d.rename f).code g')
  | ⟨id, name, params, result, decls, body, pos⟩ => by
    rw [FunDecl.rename, FunDecl.code, FunDecl.code, totalCells_renameDecls, totalCells_map,
      WrittenTy.isArrow_rename]
    simp only [TypedName.rename, WrittenTy.cells_rename]
    refine coupled_freshFunction.bind_eq fun entry => ?_
    refine (declCode_rename hf hg decls).bind_eq fun locals => ?_
    exact (coupled_lift (Expr.code_rename hg body)).bind_eq fun value => .pure rfl

/-- Renamed declarations have the same code, one after the other. -/
theorem declCode_rename (hf : Function.Injective f) {g g' : CodeContext} (hg : g.Renames f g') :
    ∀ ds, Coupled (Renamed f) (CodeState.Renames f) Eq (declCode g ds)
      (declCode g' (renameDecls f ds))
  | [] => by
    rw [renameDecls, declCode, declCode]
    exact .pure rfl
  | d :: ds => by
    rw [renameDecls, declCode, declCode]
    exact (Decl.code_rename hf hg d).bind_eq fun _ => (declCode_rename hf hg ds).bind_eq fun _ =>
      .pure rfl

/-- The renamed methods of a class have the same code and take the same places in the table. -/
theorem methodCode_rename (hf : Function.Injective f) {g g' : CodeContext} (hg : g.Renames f g') :
    ∀ (table : List Label) (ms : List FunDecl),
      Coupled (Renamed f) (CodeState.Renames f) Eq (methodCode g table ms)
        (methodCode g' table (renameMethods f ms))
  | table, [] => by
    rw [renameMethods, methodCode, methodCode]
    exact .pure rfl
  | table, m :: ms => by
    rw [renameMethods, methodCode, methodCode, FunDecl.id_rename, FunDecl.name_rename,
      FunDecl.pos_rename]
    refine (hg.entryOf m.id m.name m.pos).bind ?_
    rintro entry _ rfl
    refine (FunDecl.code_rename hf hg m).bind_eq fun routine => ?_
    exact (methodCode_rename hf hg (placeMethod table entry.offset routine.entry) ms).bind_eq
      fun _ => .pure rfl

end

/-- A renamed program has the same code, or fails in the same way. -/
theorem Program.code_rename (hf : Function.Injective f) (hg : g.Renames f g') (p : Program) :
    Coupled (Renamed f) (CodeState.Renames f) Eq (p.code g) ((p.rename f).code g') := by
  rw [Program.code, Program.code, Program.rename, isEmpty_renameDecls]
  refine (declCode_rename hf hg p.decls).bind_eq fun locals => ?_
  exact (coupled_lift (Expr.code_rename hg p.body)).bind_eq fun value => .pure rfl

/-- The same code, or the same failure under other names. -/
theorem Program.generate_rename (hf : Function.Injective f) {r r' : Resolution}
    (hr : r.Renames f r') (p : Program) (globalFrame : Int32) :
    Lowering.Related (Renamed f) Eq (p.generate r globalFrame)
      ((p.rename f).generate r' globalFrame) := by
  have hg : CodeContext.Renames f { resolution := r, globalFrame }
      { resolution := r', globalFrame } := ⟨hr, rfl, rfl⟩
  exact (Program.code_rename hf hg p).run' ⟨rfl, .empty⟩

end Stackling
