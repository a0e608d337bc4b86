import Mathlib.Logic.Function.Basic
import Stackling.Code.Error
import Stackling.Resolution.Basic
import Stackling.Tree.Basic
import Stackling.Typing.Error

/-!
# Other names

A program, its types and all that is found out about it, with other names and without positions. Two
programs that become one when the names of the first are changed and those of the second are kept
differ in names and positions only, wherever the positions stand.
-/

namespace Stackling

variable {f : String → String}

/-! ### Types -/

mutual

/-- A type with the names of its classes changed. -/
def Ty.rename (f : String → String) : Ty → Ty
  | .int => .int
  | .bool => .bool
  | .null => .null
  | .ref c => .ref (f c)
  | .arrow sig => .arrow (sig.rename f)
  | .method sig => .method (sig.rename f)
  | .cls members => .cls (members.rename f)

/-- A signature with the names of its classes changed. -/
def Signature.rename (f : String → String) : Signature → Signature
  | ⟨params, result⟩ => ⟨renameTys f params, result.rename f⟩

/-- The members of a class, by place, with the names in their types changed. -/
def ClassTy.rename (f : String → String) : ClassTy → ClassTy
  | ⟨fields, methods⟩ => ⟨renameTys f fields, renameSignatures f methods⟩

def renameTys (f : String → String) : List Ty → List Ty
  | [] => []
  | t :: ts => t.rename f :: renameTys f ts

def renameSignatures (f : String → String) : List Signature → List Signature
  | [] => []
  | sig :: sigs => sig.rename f :: renameSignatures f sigs

end

/-- Lists of types are renamed type by type. The recursion on lists is there for the sake of the
trees that hold them. -/
@[simp] theorem renameTys_eq_map : ∀ ts, renameTys f ts = ts.map (Ty.rename f)
  | [] => rfl
  | t :: ts => by rw [renameTys, renameTys_eq_map ts, List.map_cons]

/-- Lists of signatures are renamed one by one. -/
@[simp] theorem renameSignatures_eq_map :
    ∀ sigs, renameSignatures f sigs = sigs.map (Signature.rename f)
  | [] => rfl
  | sig :: sigs => by rw [renameSignatures, renameSignatures_eq_map sigs, List.map_cons]

@[simp] theorem Signature.params_rename (sig : Signature) :
    (sig.rename f).params = sig.params.map (Ty.rename f) := by
  cases sig
  simp [Signature.rename]

@[simp] theorem Signature.result_rename (sig : Signature) :
    (sig.rename f).result = sig.result.rename f := by
  cases sig
  simp [Signature.rename]

@[simp] theorem ClassTy.fields_rename (c : ClassTy) :
    (c.rename f).fields = c.fields.map (Ty.rename f) := by
  cases c
  simp [ClassTy.rename]

@[simp] theorem ClassTy.methods_rename (c : ClassTy) :
    (c.rename f).methods = c.methods.map (Signature.rename f) := by
  cases c
  simp [ClassTy.rename]

/-- A value takes as many cells under other names. -/
@[simp] theorem Ty.cells_rename (t : Ty) : (t.rename f).cells = t.cells := by
  cases t <;> simp [Ty.rename, Ty.cells]

@[simp] theorem Ty.isArrow_rename (t : Ty) : (t.rename f).isArrow = t.isArrow := by
  cases t <;> simp [Ty.rename, Ty.isArrow]

@[simp] theorem Ty.isMethod_rename (t : Ty) : (t.rename f).isMethod = t.isMethod := by
  cases t <;> simp [Ty.rename, Ty.isMethod]

/-- What can be called under one name can be called under the other. -/
@[simp] theorem Ty.signature?_rename (t : Ty) :
    (t.rename f).signature? = t.signature?.map (Signature.rename f) := by
  cases t <;> simp [Ty.rename, Ty.signature?]

@[simp] theorem Signature.arity_rename (sig : Signature) : (sig.rename f).arity = sig.arity := by
  simp [Signature.arity]

/-- An object takes as many cells under other names. -/
@[simp] theorem ClassTy.cells_rename (c : ClassTy) : (c.rename f).cells = c.cells := by
  simp [ClassTy.cells, totalCells_map]

mutual

/-- The identity leaves types alone. -/
@[simp] theorem Ty.rename_id : ∀ t : Ty, t.rename id = t
  | .int | .bool | .null | .ref _ => rfl
  | .arrow sig => by rw [Ty.rename, Signature.rename_id sig]
  | .method sig => by rw [Ty.rename, Signature.rename_id sig]
  | .cls members => by rw [Ty.rename, ClassTy.rename_id members]

@[simp] theorem Signature.rename_id : ∀ sig : Signature, sig.rename id = sig
  | ⟨params, result⟩ => by rw [Signature.rename, renameTys_id params, Ty.rename_id result]

@[simp] theorem ClassTy.rename_id : ∀ c : ClassTy, c.rename id = c
  | ⟨fields, methods⟩ => by rw [ClassTy.rename, renameTys_id fields, renameSignatures_id methods]

theorem renameTys_id : ∀ ts, renameTys id ts = ts
  | [] => rfl
  | t :: ts => by rw [renameTys, Ty.rename_id t, renameTys_id ts]

theorem renameSignatures_id : ∀ sigs, renameSignatures id sigs = sigs
  | [] => rfl
  | sig :: sigs => by rw [renameSignatures, Signature.rename_id sig, renameSignatures_id sigs]

end

mutual

/-- Two renamings one after the other are their composition. -/
theorem Ty.rename_rename (g : String → String) : ∀ t : Ty, (t.rename f).rename g = t.rename (g ∘ f)
  | .int | .bool | .null | .ref _ => rfl
  | .arrow sig => by simp only [Ty.rename, Signature.rename_rename g sig]
  | .method sig => by simp only [Ty.rename, Signature.rename_rename g sig]
  | .cls members => by simp only [Ty.rename, ClassTy.rename_rename g members]

theorem Signature.rename_rename (g : String → String) :
    ∀ sig : Signature, (sig.rename f).rename g = sig.rename (g ∘ f)
  | ⟨params, result⟩ => by
    simp only [Signature.rename, renameTys_renameTys g params, Ty.rename_rename g result]

theorem ClassTy.rename_rename (g : String → String) :
    ∀ c : ClassTy, (c.rename f).rename g = c.rename (g ∘ f)
  | ⟨fields, methods⟩ => by
    simp only [ClassTy.rename, renameTys_renameTys g fields,
      renameSignatures_renameSignatures g methods]

theorem renameTys_renameTys (g : String → String) :
    ∀ ts, renameTys g (renameTys f ts) = renameTys (g ∘ f) ts
  | [] => rfl
  | t :: ts => by simp only [renameTys, Ty.rename_rename g t, renameTys_renameTys g ts]

theorem renameSignatures_renameSignatures (g : String → String) :
    ∀ sigs, renameSignatures g (renameSignatures f sigs) = renameSignatures (g ∘ f) sigs
  | [] => rfl
  | sig :: sigs => by
    simp only [renameSignatures, Signature.rename_rename g sig,
      renameSignatures_renameSignatures g sigs]

end

/-- Names that stay different keep class types different, since the change can be undone. -/
theorem ClassTy.rename_injective (hf : Function.Injective f) :
    Function.Injective (ClassTy.rename f) := by
  obtain ⟨g, hg⟩ := hf.hasLeftInverse
  refine Function.LeftInverse.injective (g := ClassTy.rename g) fun c => ?_
  rw [ClassTy.rename_rename, hg.comp_eq_id, ClassTy.rename_id]

/-! ### Trees -/

mutual

/-- An annotation with the names of its classes changed. -/
def WrittenTy.rename (f : String → String) : WrittenTy → WrittenTy
  | .int => .int
  | .bool => .bool
  | .ref name => .ref (f name)
  | .arrow params result => .arrow (renameWrittenTys f params) (result.rename f)

def renameWrittenTys (f : String → String) : List WrittenTy → List WrittenTy
  | [] => []
  | a :: as => a.rename f :: renameWrittenTys f as

end

mutual

/-- The type that an annotation stands for is renamed like the annotation. -/
@[simp] theorem WrittenTy.ty_rename : ∀ a : WrittenTy, (a.rename f).ty = a.ty.rename f
  | .int | .bool | .ref _ => rfl
  | .arrow params result => by
    rw [WrittenTy.rename, WrittenTy.ty, WrittenTy.ty, tys_renameWrittenTys params,
      WrittenTy.ty_rename result, Ty.rename, Signature.rename]

theorem tys_renameWrittenTys :
    ∀ as, WrittenTy.tys (renameWrittenTys f as) = renameTys f (WrittenTy.tys as)
  | [] => rfl
  | a :: as => by
    rw [renameWrittenTys, WrittenTy.tys, WrittenTy.tys, renameTys, WrittenTy.ty_rename a,
      tys_renameWrittenTys as]

end

@[simp] theorem WrittenTy.isArrow_rename (a : WrittenTy) : (a.rename f).isArrow = a.isArrow := by
  cases a <;> rfl

@[simp] theorem WrittenTy.cells_rename (a : WrittenTy) : (a.rename f).cells = a.cells := by
  simp [WrittenTy.cells]

mutual

/-- The expression with other names, and without its positions. -/
def Expr.rename (f : String → String) : Expr → Expr
  | .int value _ => .int value default
  | .bool value _ => .bool value default
  | .null _ => .null default
  | .name id name _ => .name id (f name) default
  | .binary op left right _ => .binary op (left.rename f) (right.rename f) default
  | .not operand _ => .not (operand.rename f) default
  | .ite cond yes no _ => .ite (cond.rename f) (yes.rename f) (no.rename f) default
  | .call id callee args _ => .call id (f callee) (renameArgs f args) default
  | .send id receiver method args _ => .send id (f receiver) (f method) (renameArgs f args) default
  | .new id cls args _ => .new id (f cls) (renameArgs f args) default
  | .print value _ => .print (value.rename f) default

/-- The arguments of a call, renamed one by one. -/
def renameArgs (f : String → String) : List Expr → List Expr
  | [] => []
  | e :: es => e.rename f :: renameArgs f es

end

@[simp] theorem length_renameArgs (es : List Expr) : (renameArgs f es).length = es.length := by
  induction es with
  | nil => rfl
  | cons e es ih => rw [renameArgs, List.length_cons, ih, List.length_cons]

/-- A parameter or a field under another name and with a renamed type. Its position is forgotten. -/
def TypedName.rename (f : String → String) (p : TypedName) : TypedName where
  id := p.id
  name := f p.name
  declared := p.declared.rename f
  pos := default

/-- A variable under another name. Its position is forgotten. -/
def VarDecl.rename (f : String → String) (d : VarDecl) : VarDecl where
  id := d.id
  name := f d.name
  declared := d.declared.rename f
  init := d.init.rename f
  pos := default

mutual

/-- A declaration in which all names are changed, bound and used ones alike. -/
def Decl.rename (f : String → String) : Decl → Decl
  | .var d => .var (d.rename f)
  | .fn d => .fn (d.rename f)
  | .cls c => .cls (c.rename f)

/-- A function in which all names are changed, its own included. -/
def FunDecl.rename (f : String → String) : FunDecl → FunDecl
  | ⟨id, name, params, result, decls, body, _⟩ =>
    ⟨id, f name, params.map (·.rename f), result.rename f, renameDecls f decls, body.rename f,
      default⟩

/-- A class in which all names are changed, those of its members and of its superclass included. -/
def ClassDecl.rename (f : String → String) : ClassDecl → ClassDecl
  | ⟨id, name, superclass, fields, methods, _⟩ =>
    ⟨id, f name, superclass.map f, fields.map (·.rename f), renameMethods f methods, default⟩

def renameDecls (f : String → String) : List Decl → List Decl
  | [] => []
  | d :: ds => d.rename f :: renameDecls f ds

def renameMethods (f : String → String) : List FunDecl → List FunDecl
  | [] => []
  | m :: ms => m.rename f :: renameMethods f ms

end

/-- The program with other names, and without positions. -/
def Program.rename (f : String → String) (p : Program) : Program where
  decls := renameDecls f p.decls
  body := p.body.rename f
  pos := default

@[simp] theorem renameMethods_eq_map (ms : List FunDecl) :
    renameMethods f ms = ms.map (FunDecl.rename f) := by
  induction ms with
  | nil => rfl
  | cons m ms ih => rw [renameMethods, ih, List.map_cons]

section Fields

variable (d : FunDecl) (c : ClassDecl)

@[simp] theorem FunDecl.id_rename : (d.rename f).id = d.id := by
  cases d
  rfl

@[simp] theorem FunDecl.name_rename : (d.rename f).name = f d.name := by
  cases d
  rfl

@[simp] theorem FunDecl.pos_rename : (d.rename f).pos = default := by
  cases d
  rfl

@[simp] theorem ClassDecl.id_rename : (c.rename f).id = c.id := by
  cases c
  rfl

@[simp] theorem ClassDecl.name_rename : (c.rename f).name = f c.name := by
  cases c
  rfl

@[simp] theorem ClassDecl.superclass_rename : (c.rename f).superclass = c.superclass.map f := by
  cases c
  rfl

@[simp] theorem ClassDecl.fields_rename : (c.rename f).fields = c.fields.map (·.rename f) := by
  cases c
  rfl

@[simp] theorem ClassDecl.methods_rename : (c.rename f).methods = renameMethods f c.methods := by
  cases c
  rfl

@[simp] theorem ClassDecl.pos_rename : (c.rename f).pos = default := by
  cases c
  rfl

end Fields

/-- The signature of a renamed function is the renamed signature. -/
@[simp] theorem FunDecl.signature_rename (d : FunDecl) :
    (d.rename f).signature = d.signature.rename f := by
  cases d
  simp [FunDecl.rename, FunDecl.signature, Signature.rename, TypedName.rename, Function.comp_def]

/-- A declaration takes as many cells under another name. -/
@[simp] theorem Decl.cells_rename (d : Decl) : (d.rename f).cells = d.cells := by
  cases d <;> simp [Decl.rename, Decl.cells, VarDecl.rename]

/-- So do several declarations. -/
theorem totalCells_renameDecls (ds : List Decl) :
    totalCells Decl.cells (renameDecls f ds) = totalCells Decl.cells ds := by
  induction ds with
  | nil => rfl
  | cons d ds ih => rw [renameDecls, totalCells_cons, totalCells_cons, Decl.cells_rename, ih]

theorem isEmpty_renameDecls (ds : List Decl) : (renameDecls f ds).isEmpty = ds.isEmpty := by
  cases ds <;> rfl

/-! ### Findings and faults -/

/-- An entry of a scope. Its depth and its offset have no names in them. -/
def Entry.rename (f : String → String) (e : Entry) : Entry := { e with ty := e.ty.rename f }

/-- An entry as it is seen from some depth. -/
def Binding.rename (f : String → String) (b : Binding) : Binding :=
  { b with entry := b.entry.rename f }

/-- A method call with what is known of its receiver. -/
def Dispatch.rename (f : String → String) (d : Dispatch) : Dispatch where
  receiver := d.receiver.rename f
  cls := f d.cls
  method := d.method.rename f

def Member.rename (f : String → String) (m : Member) : Member :=
  { m with entry := m.entry.rename f }

/-- The error with other names, and without its position. -/
def ScopeError.rename (f : String → String) : ScopeError → ScopeError
  | redeclared kind name _ => redeclared kind (f name) default
  | duplicateMember kind name cls _ => duplicateMember kind (f name) (f cls) default
  | illegalOverride name overridden replacement _ =>
    illegalOverride (f name) overridden replacement default
  | classNotGlobal name _ => classNotGlobal (f name) default
  | undeclared kind name _ => undeclared kind (f name) default
  | undeclaredSuperclass cls superclass _ => undeclaredSuperclass (f cls) (f superclass) default
  | notAnObject name _ => notAnObject (f name) default
  | undeclaredMethod cls method _ => undeclaredMethod (f cls) (f method) default

/-- A finding of resolution: a row for one of the tables, or an error. -/
def Finding.rename (f : String → String) : Finding → Finding
  | use id binding => use id (binding.rename f)
  | send id dispatch => send id (dispatch.rename f)
  | decl id entry => decl id (entry.rename f)
  | position id n => position id n
  | error e => error (e.rename f)

/-- The violation with other names, and without its position. The words for operators are no
names. -/
def TypingError.rename (f : String → String) : TypingError → TypingError
  | nonInteger op _ => nonInteger op default
  | nonBoolean op _ => nonBoolean op default
  | nonBooleanCondition _ => nonBooleanCondition default
  | functionalComparison op _ => functionalComparison op default
  | incomparableOperands op _ => incomparableOperands op default
  | incompatibleBranches _ => incompatibleBranches default
  | notCallable name _ => notCallable (f name) default
  | wrongArity name expected found _ => wrongArity (f name) expected found default
  | wrongArgument name position _ => wrongArgument (f name) position default
  | notAClass name _ => notAClass (f name) default
  | wrongFieldCount cls expected found _ => wrongFieldCount (f cls) expected found default
  | wrongFieldValue cls position _ => wrongFieldValue (f cls) position default
  | methodAsValue name _ => methodAsValue (f name) default
  | classAsValue name _ => classAsValue (f name) default
  | incompatibleVariable name _ => incompatibleVariable (f name) default
  | wrongReturn kind name _ => wrongReturn kind (f name) default
  | badOverride kind cls name _ => badOverride kind (f cls) (f name) default

/-- A refusal of inference. That of a use without a row has no name in it. -/
def Refusal.rename (f : String → String) : Refusal → Refusal
  | violation e => violation (e.rename f)
  | unresolved => unresolved

/-- A failure of code generation. Its position is forgotten. -/
def LoweringError.rename (f : String → String) : LoweringError → LoweringError
  | unresolved name _ => unresolved (f name) default
  | unknownClass name _ => unknownClass (f name) default

@[simp] theorem Entry.rename_id (e : Entry) : e.rename id = e := by simp [Entry.rename]

@[simp] theorem Binding.rename_id (b : Binding) : b.rename id = b := by simp [Binding.rename]

@[simp] theorem Dispatch.rename_id (d : Dispatch) : d.rename id = d := by simp [Dispatch.rename]

@[simp] theorem Member.rename_id (m : Member) : m.rename id = m := by simp [Member.rename]

/-- The number of frames between a use and its declaration has nothing to do with names. -/
@[simp] theorem Binding.hops_rename (b : Binding) : (b.rename f).hops = b.hops := rfl

@[simp] theorem Member.isMethod_rename (m : Member) : (m.rename f).isMethod = m.isMethod :=
  Ty.isMethod_rename m.entry.ty

end Stackling
