import Stackling.Proofs.Code.Emission
import Stackling.Proofs.Machine.Runs
import Stackling.Proofs.Linking
import Stackling.Proofs.Typing.Acceptance

/-!
# The shape of code

Two facts about all code that is generated. It starts with an operation that pushes, so that a
machine without memory stops at once. And where there are no classes, it never sets the heap
pointer, so that nothing on the heap can get lost.
-/

namespace Stackling

/-! ### The first operation -/

/-- The code starts with an operation that pushes, whatever is on the stack. -/
inductive Code.StartsPushing : List Instr → Prop
  | push (v : Int32) (is : List Instr) : StartsPushing (.push v :: is)
  | lfp (is : List Instr) : StartsPushing (.bare .lfp :: is)
  | lhp (is : List Instr) : StartsPushing (.bare .lhp :: is)

namespace Code.StartsPushing

theorem append {is : List Instr} (h : StartsPushing is) (js : List Instr) :
    StartsPushing (is ++ js) := by
  cases h with
  | push v is => exact .push v _
  | lfp is => exact .lfp _
  | lhp is => exact .lhp _

theorem frameAccess (g : CodeContext) (b : Binding) : StartsPushing (g.frameAccess b) := by
  unfold CodeContext.frameAccess
  split
  · exact .push _ _
  · exact .lfp _

theorem makeObject (cells : Nat) (slot : Int32) : StartsPushing (Code.makeObject cells slot) := by
  cases cells with
  | zero => exact .push _ _
  | succ => exact .lhp _

end Code.StartsPushing

open Code (StartsPushing)

mutual

/-- The code of an expression starts with an instruction that pushes. -/
theorem Expr.startsPushing {g : CodeContext} :
    ∀ (e : Expr) {s s' : LabelSupply} {code : List Instr},
    e.code g s = .ok (code, s') → StartsPushing code
  | .int _ _, s, s', code, h => by
    obtain ⟨rfl, -⟩ := Expr.code_int.mp h
    exact .push _ _
  | .bool _ _, s, s', code, h => by
    obtain ⟨rfl, -⟩ := Expr.code_bool.mp h
    exact .push _ _
  | .null _, s, s', code, h => by
    obtain ⟨rfl, -⟩ := Expr.code_null.mp h
    exact .push _ _
  | .name _ _ _, s, s', code, h => by
    obtain ⟨b, -, -, rfl⟩ := Expr.code_name.mp h
    exact (StartsPushing.frameAccess g b).append _
  | .binary op l r _, s, s', code, h => by
    have hl : ∀ {s s' a}, l.code g s = .ok (a, s') → StartsPushing a := l.startsPushing
    have hr : ∀ {s s' a}, r.code g s = .ok (a, s') → StartsPushing a := r.startsPushing
    cases op with
    | add | sub | mul | div | and =>
      obtain ⟨a, s₁, b, ha, -, rfl⟩ := (Expr.code_bare rfl).mp h
      exact ((hl ha).append _).append _
    | or =>
      obtain ⟨a, s₁, b, ha, -, rfl⟩ := Expr.code_or.mp h
      exact (((hl ha).append _).append _).append _
    | equal | lessEqual =>
      obtain ⟨a, s₁, b, ha, -, rfl⟩ := Expr.compareCode_eq_ok.mp h
      exact ((hl ha).append _).append _
    | greaterEqual =>
      obtain ⟨a, s₁, b, ha, -, rfl⟩ := Expr.compareCode_eq_ok.mp h
      exact ((hr ha).append _).append _
  | .not _ _, s, s', code, h => by
    obtain ⟨a, -, rfl⟩ := Expr.code_not.mp h
    exact .push _ _
  | .ite c y n _, s, s', code, h => by
    obtain ⟨cc, s₁, cn, s₂, cy, hc, -, -, rfl⟩ := Expr.code_ite.mp h
    exact (((((c.startsPushing hc).append _).append _).append _).append _).append _
  | .print e _, s, s', code, h => by
    obtain ⟨a, ha, rfl⟩ := Expr.code_print.mp h
    exact (e.startsPushing ha).append _
  | .call _ _ args _, s, s', code, h => by
    obtain ⟨b, a, -, -, rfl⟩ := Expr.code_call.mp h
    exact .lfp _
  | .send _ _ _ args _, s, s', code, h => by
    obtain ⟨d, a, -, -, rfl⟩ := Expr.code_send.mp h
    exact .lfp _
  | .new _ _ args _, s, s', code, h => by
    obtain ⟨b, c, a, -, -, ha, rfl⟩ := Expr.code_new.mp h
    rcases valueCode_startsPushing args ha with rfl | hstarts
    · exact .makeObject _ _
    · exact hstarts.append _

/-- So does the code of the arguments of a constructor, unless there are none. -/
theorem valueCode_startsPushing {g : CodeContext} :
    ∀ (es : List Expr) {s s' : LabelSupply} {code : List Instr},
    valueCode g es s = .ok (code, s') → code = [] ∨ StartsPushing code
  | [], s, s', code, h => .inl (valueCode_nil.mp h).1.symm
  | e :: es, s, s', code, h => by
    obtain ⟨a, s₁, b, ha, -, rfl⟩ := valueCode_cons.mp h
    exact .inr ((e.startsPushing ha).append _)

end

/-- So does every listing. -/
theorem Program.startsPushing {p : Program} {r : Resolution} {globalFrame : Int32}
    {listing : Listing} (h : p.generate r globalFrame = .ok listing) :
    StartsPushing listing.instrs := by
  obtain ⟨locals, q, value, s', hlocals, hvalue, rfl⟩ := generate_eq_ok.mp h
  unfold opening
  cases hdecls : p.decls with
  | nil =>
    rw [hdecls, declCode_nil] at hlocals
    obtain ⟨rfl, rfl⟩ := hlocals
    exact (p.body.startsPushing hvalue).append _
  | cons d ds => exact .push _ _

/-- Without room the first step overflows. -/
theorem Code.StartsPushing.step {is : List Instr} {address : Label → Nat} {image : Image}
    (h : StartsPushing is) (hcode : image.CodeAt address 0 is) {s : State} (hip : s.ip = 0)
    (hmeet : s.sp ≤ s.hp) :
    s.step image = .error (.stackOverflow 0) := by
  have hpush (v : Int32) : State.push { s with ip := 0 + 1 } 0 v = .error (.stackOverflow 0) :=
    if_pos (.inl hmeet)
  rw [State.step, hip]
  cases h with
  | push v is =>
    rw [(Image.codeAt_push.mp hcode).1]
    simp only [State.perform, hpush]
    rfl
  | lfp is =>
    rw [(Image.codeAt_bare.mp hcode).1]
    simp only [State.perform, hpush]
    rfl
  | lhp is =>
    rw [(Image.codeAt_bare.mp hcode).1]
    simp only [State.perform, hpush]
    rfl

/-! ### Code without classes -/

/-- The code never sets the heap pointer. -/
def Code.HeapFree (is : List Instr) : Prop := .bare .shp ∉ is

namespace Code.HeapFree

@[simp] theorem append {is js : List Instr} : HeapFree (is ++ js) ↔ HeapFree is ∧ HeapFree js := by
  simp [HeapFree]

@[simp] theorem cons {i : Instr} {is : List Instr} :
    HeapFree (i :: is) ↔ i ≠ .bare .shp ∧ HeapFree is := by
  simp [HeapFree, eq_comm]

@[simp] theorem nil : HeapFree [] := List.not_mem_nil

@[simp] theorem plain {ops : List Bare} : HeapFree (Code.plain ops) ↔ .shp ∉ ops := by
  simp [HeapFree, Code.plain]

@[simp] theorem load (offset : Int32) : HeapFree (Code.load offset) := by
  simp [Code.load]

@[simp] theorem loadClosure (offset : Int32) : HeapFree (Code.loadClosure offset) := by
  simp [Code.loadClosure]

@[simp] theorem dispatch (offset : Int32) : HeapFree (Code.dispatch offset) := by
  simp [Code.dispatch]

@[simp] theorem truthValue (kind : Jump) (yes done : Label) :
    HeapFree (Code.truthValue kind yes done) := by
  simp [Code.truthValue]

@[simp] theorem frameAccess (g : CodeContext) (b : Binding) : HeapFree (g.frameAccess b) := by
  unfold CodeContext.frameAccess
  split <;> simp

@[simp] theorem epilogue (localCells paramCells : Nat) (returnsClosure : Bool) :
    HeapFree (Code.epilogue localCells paramCells returnsClosure) := by
  cases returnsClosure <;> simp [Code.epilogue, Code.pops]

end Code.HeapFree

open Code (HeapFree)

/-- There are no classes in the environment. -/
def Env.ClassFree (env : Env) : Prop := ∀ name : String, env.classes.records[name]? = none

/-- There are no classes before the first declaration. -/
theorem Env.classFree_global : Env.global.ClassFree := by
  intro name
  simp [Env.global]

mutual

/-- Where there are no classes, the code of a typed expression leaves the heap pointer alone. -/
theorem Expr.heapFree {g : CodeContext} {r : Resolution} {env : Env} (hfree : env.ClassFree) :
    ∀ (e : Expr) {t : Ty} {s s' : LabelSupply} {code : List Instr}, e.Typed r env t →
      e.code g s = .ok (code, s') → HeapFree code
  | .int _ _, t, s, s', code, _, h => by
    obtain ⟨rfl, -⟩ := Expr.code_int.mp h
    simp
  | .bool _ _, t, s, s', code, _, h => by
    obtain ⟨rfl, -⟩ := Expr.code_bool.mp h
    simp
  | .null _, t, s, s', code, _, h => by
    obtain ⟨rfl, -⟩ := Expr.code_null.mp h
    simp
  | .name _ _ _, t, s, s', code, _, h => by
    obtain ⟨b, -, -, rfl⟩ := Expr.code_name.mp h
    split <;> simp
  | .binary op l r _, t, s, s', code, .binary hl hr _, h => by
    have hleft : ∀ {s s' a}, l.code g s = .ok (a, s') → HeapFree a := l.heapFree hfree hl
    have hright : ∀ {s s' a}, r.code g s = .ok (a, s') → HeapFree a := r.heapFree hfree hr
    cases op with
    | add | sub | mul | div | and =>
      obtain ⟨a, s₁, b, ha, hb, rfl⟩ := (Expr.code_bare rfl).mp h
      simp [hleft ha, hright hb]
    | or =>
      obtain ⟨a, s₁, b, ha, hb, rfl⟩ := Expr.code_or.mp h
      simp [hleft ha, hright hb]
    | equal | lessEqual =>
      obtain ⟨a, s₁, b, ha, hb, rfl⟩ := Expr.compareCode_eq_ok.mp h
      simp [hleft ha, hright hb]
    | greaterEqual =>
      obtain ⟨a, s₁, b, ha, hb, rfl⟩ := Expr.compareCode_eq_ok.mp h
      simp [hright ha, hleft hb]
  | .not e _, _, s, s', code, .not he _, h => by
    obtain ⟨a, ha, rfl⟩ := Expr.code_not.mp h
    simp [e.heapFree hfree he ha]
  | .ite c y n _, t, s, s', code, .ite hcond _ hyes hno _, h => by
    obtain ⟨cc, s₁, cn, s₂, cy, hc, hn, hy, rfl⟩ := Expr.code_ite.mp h
    simp [c.heapFree hfree hcond hc, n.heapFree hfree hno hn, y.heapFree hfree hyes hy]
  | .print e _, t, s, s', code, .print he, h => by
    obtain ⟨a, ha, rfl⟩ := Expr.code_print.mp h
    simp [e.heapFree hfree he ha]
  | .call _ _ args _, _, s, s', code, .call _ _ _ hargs, h => by
    obtain ⟨b, a, -, ha, rfl⟩ := Expr.code_call.mp h
    split <;> simp [argumentCode_heapFree hfree args hargs ha]
  | .send _ _ _ _ _, _, s, s', code, .send _ _ hrecord _ _ _ _, _ => by
    rw [hfree] at hrecord
    cases hrecord
  | .new _ _ _ _, _, s, s', code, .new hrecord _ _ _, _ => by
    rw [hfree] at hrecord
    cases hrecord

/-- The same of the arguments of a call. -/
theorem argumentCode_heapFree {g : CodeContext} {r : Resolution} {env : Env}
    (hfree : env.ClassFree) :
    ∀ (es : List Expr) {ts : List Ty} {s s' : LabelSupply} {code : List Instr},
      ArgsTyped r env es ts → argumentCode g es s = .ok (code, s') → HeapFree code
  | [], ts, s, s', code, _, h => by
    obtain ⟨rfl, -⟩ := argumentCode_nil.mp h
    exact .nil
  | e :: es, _, s, s', code, .cons he _ hes, h => by
    obtain ⟨a, s₁, b, ha, hb, rfl⟩ := argumentCode_cons.mp h
    exact HeapFree.append.mpr ⟨argumentCode_heapFree hfree es hes ha, e.heapFree hfree he hb⟩

end

theorem ParamsTyped.classes {env env' : Env} {ps : List TypedName} (h : ParamsTyped env ps env') :
    env'.classes = env.classes := by
  induction h with
  | nil => rfl
  | cons _ _ _ ih => exact ih

/-- The resolution knows no class. -/
def Resolution.ClassFree (r : Resolution) : Prop := ∀ name : String, r.class? name = none

mutual

/-- The same of a function. -/
theorem FunDecl.heapFree {g : CodeContext} {r : Resolution} (hr : r.ClassFree) :
    (f : FunDecl) → {env : Env} →
    {q q' : CodeState} → {routine : Routine} → f.Typed r env → env.ClassFree →
    f.code g q = .ok (routine, q') → HeapFree routine.bodies
  | ⟨_, _, _, _, decls, body, _⟩, _, _, _, _, .mk _ hparams hdecls ⟨_, hbody, _⟩, hfree, hcode => by
    obtain ⟨locals, q₁, value, s', hlocals, hvalue, -, rfl⟩ := FunDecl.code_eq_ok.mp hcode
    obtain ⟨hcode, hbodies, hlast⟩ :=
      declCode_heapFree hr decls hdecls (fun name => hparams.classes ▸ hfree name) hlocals
    simp [FunDecl.routine, hcode, hbodies, body.heapFree hlast hbody hvalue]

/-- The same of several declarations. -/
theorem declCode_heapFree {g : CodeContext} {r : Resolution} (hr : r.ClassFree) :
    (ds : List Decl) → {env env' : Env} →
    {q q' : CodeState} → {locals : Fragment} → DeclsTyped r env ds env' → env.ClassFree →
    declCode g ds q = .ok (locals, q') → HeapFree locals.code ∧ HeapFree locals.bodies ∧
    env'.ClassFree
  | [], _, _, _, _, _, .nil, hfree, hcode => by
    obtain ⟨rfl, -⟩ := declCode_nil.mp hcode
    exact ⟨.nil, .nil, hfree⟩
  | .var d :: ds, _, _, _, _, _, .var _ ⟨_, hinit, _⟩ _ hrest, hfree, hcode => by
    obtain ⟨first, q₁, rest, hfirst, hds, rfl⟩ := declCode_cons.mp hcode
    obtain ⟨value, s', hvalue, rfl, rfl⟩ := Decl.code_var.mp hfirst
    obtain ⟨hcode, hbodies, hlast⟩ := declCode_heapFree hr ds hrest hfree hds
    simp [hcode, hbodies, hlast, d.init.heapFree hfree hinit hvalue]
  | .fn f :: ds, _, _, _, _, _, .fn _ hfun hrest, hfree, hcode => by
    obtain ⟨first, q₁, rest, hfirst, hds, rfl⟩ := declCode_cons.mp hcode
    obtain ⟨routine, hroutine, rfl⟩ := Decl.code_fn.mp hfirst
    obtain ⟨hcode, hbodies, hlast⟩ := declCode_heapFree hr ds hrest hfree hds
    simp [hcode, hbodies, hlast, FunDecl.heapFree hr f hfun hfree hroutine]
  | .cls c :: _, _, _, _, _, _, .cls hclass _ _, _, _ => by
    have hrecord := hclass.record
    rw [hr] at hrecord
    cases hrecord

end

/-- A program without classes never moves the heap pointer. -/
theorem Program.heapFree {p : Program} {r : Resolution} {t : Ty} (hr : r.ClassFree)
    (htyped : p.Typed r t) {globalFrame : Int32} {listing : Listing}
    (h : p.generate r globalFrame = .ok listing) : HeapFree listing.instrs := by
  obtain ⟨locals, q, value, s', hlocals, hvalue, rfl⟩ := generate_eq_ok.mp h
  obtain ⟨env, hdecls, hbody⟩ := htyped
  obtain ⟨hcode, hbodies, hlast⟩ := declCode_heapFree hr p.decls hdecls Env.classFree_global hlocals
  have hopening : HeapFree p.opening := by
    unfold opening
    split <;> simp
  simp [hopening, hcode, hbodies, p.body.heapFree hlast hbody hvalue]

/-- Then nothing that is on the heap gets lost. -/
theorem Code.HeapFree.not_clobbers {is : List Instr} (h : HeapFree is) (s : State) :
    ¬s.Clobbers (Code.link is) := by
  rintro ⟨-, -, hshp⟩
  simp only [Code.link, List.getElem?_toArray] at hshp
  obtain ⟨i, hi, hlink⟩ := List.mem_filterMap.mp (List.mem_of_getElem? hshp)
  cases i with
  | bare op =>
    cases hlink
    exact h hi
  | push | pushLabel | jump | label => cases hlink

/-- Without a class among the declarations there is none afterwards. -/
theorem Env.ClassFree.resolveDecls {env : Env} (h : env.ClassFree) {ds : List Decl}
    (hds : ∀ c, .cls c ∉ declNodes ds) (hfree : ErrorFree (resolveDecls env ds).2) :
    (Stackling.resolveDecls env ds).1.ClassFree := by
  induction ds generalizing env with
  | nil => exact h
  | cons d ds ih =>
    rw [resolveDecls_cons, ErrorFree.append] at hfree
    rw [resolveDecls_cons]
    simp only [declNodes, List.mem_append, not_or] at hds
    refine ih ?_ (fun c => (hds c).2) hfree.2
    rcases Decl.resolve_env hfree.1 with ⟨scopes, entry, cells, -, heq⟩ | ⟨c, scopes, rfl, -⟩
    · rw [heq]
      exact h
    · have hmem : Node.cls c ∈ (Decl.cls c).nodes := by
        rw [Decl.nodes_cls]
        exact List.mem_cons_self
      exact absurd hmem (hds c).1

/-- A program without class declarations has no classes. -/
theorem Program.ClassFree.resolve {p : Program} (h : p.ClassFree)
    (hresolve : p.resolve.errors = []) :
    p.resolve.ClassFree := by
  have hfree : ErrorFree (resolveDecls .global p.decls).2 :=
    (ErrorFree.append.mp (Program.errorFree_findings hresolve)).1
  exact Env.classFree_global.resolveDecls (fun c hc => h c (List.mem_append_left _ hc)) hfree

end Stackling
