import Stackling.Proofs.Code.Labels
import Stackling.Proofs.Nodes

/-!
# The regions of generated code

Code of expressions and declarations is never entered from outside and never left but by calls: its
jumps go to labels behind them. Each function has a region of its own that is put together from such
code. The regions stand behind one another in the order in which the functions are complete, and are
numbered in the order in which they are declared.
-/

namespace Stackling

/-! ### Code inside a region -/

namespace Code

variable {i : Instr} {is js : List Instr}

/-- Each jump goes to a label that is defined behind it. -/
def Forward (is : List Instr) : Prop :=
  ∀ (k : Nat) (kind : Jump) (l : Label), is[k]? = some (.jump kind l) →
    ∃ j, k < j ∧ is[j]? = some (.label l)

theorem forward_cons :
    Forward (i :: is) ↔ (∀ kind l, i = .jump kind l → .label l ∈ is) ∧ Forward is := by
  constructor
  · intro hforward
    refine ⟨fun kind l hi => ?_, fun k kind l hk => ?_⟩
    · obtain ⟨j, hj, hl⟩ := hforward 0 kind l (congrArg some hi)
      obtain ⟨j, rfl⟩ := Nat.exists_eq_add_of_lt hj
      exact List.mem_of_getElem? (i := 0 + j) hl
    · obtain ⟨j, hj, hl⟩ := hforward (k + 1) kind l hk
      cases j with
      | zero => exact absurd hj (Nat.not_lt_zero _)
      | succ j => exact ⟨j, Nat.lt_of_succ_lt_succ hj, hl⟩
  · rintro ⟨hfirst, hrest⟩ k kind l hk
    cases k with
    | zero =>
      obtain ⟨j, hj⟩ := List.mem_iff_getElem?.mp (hfirst kind l (Option.some.inj hk))
      exact ⟨j + 1, Nat.succ_pos j, hj⟩
    | succ k =>
      obtain ⟨j, hj, hl⟩ := hrest k kind l hk
      exact ⟨j + 1, Nat.succ_lt_succ hj, hl⟩

/-- Code that jumps forward only, after code that does so. -/
theorem Forward.append (his : Forward is) (hjs : Forward js) : Forward (is ++ js) := by
  induction is with
  | nil => exact hjs
  | cons i is ih =>
    obtain ⟨hfirst, hrest⟩ := forward_cons.mp his
    exact forward_cons.mpr ⟨fun kind l hi => List.mem_append_left _ (hfirst kind l hi), ih hrest⟩

/-- Code that does not halt, has no entry of a function in it and jumps forward only. -/
structure Interior (is : List Instr) : Prop where
  halt : .bare .halt ∉ is
  entry : ∀ n, .label (.function n) ∉ is
  forward : Forward is

namespace Interior

@[simp] theorem nil : Interior [] := ⟨List.not_mem_nil, fun _ => List.not_mem_nil, nofun⟩

/-- Code that can stand inside a function, after code that can. -/
theorem append (his : Interior is) (hjs : Interior js) : Interior (is ++ js) where
  halt := fun h => (List.mem_append.mp h).elim his.halt hjs.halt
  entry := fun n h => (List.mem_append.mp h).elim (his.entry n) (hjs.entry n)
  forward := his.forward.append hjs.forward

/-- An instruction in front of such code is no halt and no label of a function, and jumps into the
code behind it. -/
theorem cons_iff : Interior (i :: is) ↔
    i ≠ .bare .halt ∧ (∀ n, i ≠ .label (.function n)) ∧
    (∀ kind l, i = .jump kind l → .label l ∈ is) ∧ Interior is := by
  constructor
  · rintro ⟨hhalt, hentry, hforward⟩
    obtain ⟨hfirst, hrest⟩ := forward_cons.mp hforward
    simp only [List.mem_cons, not_or, forall_and] at hhalt hentry
    exact ⟨fun h => hhalt.1 h.symm, fun n h => hentry.1 n h.symm, hfirst, hhalt.2, hentry.2, hrest⟩
  · rintro ⟨hhalt, hentry, hfirst, hrest⟩
    refine ⟨fun h => ?_, fun n h => ?_, forward_cons.mpr ⟨hfirst, hrest.forward⟩⟩
    · exact (List.mem_cons.mp h).elim (fun h => hhalt h.symm) hrest.halt
    · exact (List.mem_cons.mp h).elim (fun h => hentry n h.symm) (hrest.entry n)

@[simp] theorem bare {op : Bare} : Interior (.bare op :: is) ↔ op ≠ .halt ∧ Interior is := by
  simp [cons_iff]

@[simp] theorem push {v : Int32} : Interior (.push v :: is) ↔ Interior is := by
  simp [cons_iff]

@[simp] theorem pushLabel {l : Label} : Interior (.pushLabel l :: is) ↔ Interior is := by
  simp [cons_iff]

@[simp] theorem jump {kind : Jump} {l : Label} :
    Interior (.jump kind l :: is) ↔ .label l ∈ is ∧ Interior is := by
  simp [cons_iff]

@[simp] theorem branch {n : Nat} : Interior (.label (.branch n) :: is) ↔ Interior is := by
  simp [cons_iff]

/-! ### Fixed pieces of code -/

@[simp] theorem plain {ops : List Bare} : Interior (Code.plain ops) ↔ .halt ∉ ops := by
  induction ops with
  | nil => simp [Code.plain]
  | cons op ops ih =>
    rw [Code.plain, List.map_cons, bare, ← Code.plain, ih, List.mem_cons, not_or, ne_comm]

theorem load (offset : Int32) : Interior (Code.load offset) := by
  simp [Code.load]

theorem loadClosure (offset : Int32) : Interior (Code.loadClosure offset) :=
  .append (.append (.append (by simp) (load _)) (by simp)) (load _)

theorem heapStore : Interior Code.heapStore :=
  .append (by simp) (by simp)

theorem dispatch (offset : Int32) : Interior (Code.dispatch offset) :=
  .append (.append (by simp) (load _)) (by simp)

theorem flatten {iss : List (List Instr)} (h : ∀ is ∈ iss, Interior is) : Interior iss.flatten := by
  induction iss with
  | nil => exact nil
  | cons is iss ih =>
    rw [List.flatten_cons]
    exact (h is List.mem_cons_self).append (ih fun js hjs => h js (List.mem_cons_of_mem _ hjs))

theorem makeObject (cells : Nat) (slot : Int32) : Interior (Code.makeObject cells slot) := by
  refine .append (.append (flatten fun is his => ?_) (by simp)) (by simp)
  rw [List.eq_of_mem_replicate his]
  exact heapStore

theorem frameAccess (g : CodeContext) (b : Binding) : Interior (g.frameAccess b) := by
  unfold CodeContext.frameAccess
  split
  · simp
  · rw [plain, List.mem_cons, not_or]
    exact ⟨nofun, fun h => nomatch List.eq_of_mem_replicate h⟩

/-- The end of a function up to the return. -/
theorem exists_epilogue (localCells paramCells : Nat) (returnsClosure : Bool) :
    ∃ ending, Interior ending ∧
    Code.epilogue localCells paramCells returnsClosure = ending ++ [.bare .js] := by
  have hpops (n : Nat) : Interior (Code.pops n) :=
    plain.mpr fun h => nomatch List.eq_of_mem_replicate h
  have hfirst : Interior (Code.plain (.stm :: if returnsClosure then [.lhp, .sw] else [])) := by
    cases returnsClosure <;> simp
  have hresult : Interior (Code.plain (.sfp :: if returnsClosure then [.lhp, .lw] else [])) := by
    cases returnsClosure <;> simp
  have hframe : Interior (Code.plain [.sra, .pop]) := by simp
  have hlast : Interior (Code.plain [.ltm, .lra]) := by simp
  have hreturn :=
    (((hfirst.append (hpops localCells)).append hframe).append (hpops paramCells)).append hresult
  refine ⟨_, hreturn.append hlast, ?_⟩
  simp [Code.epilogue, Code.plain]

theorem dispatchTable (table : List Label) : Interior (Code.dispatchTable table) := by
  rw [Code.dispatchTable, bare, List.flatMap_def]
  refine ⟨nofun, flatten fun is his => ?_⟩
  obtain ⟨l, -, rfl⟩ := List.mem_map.mp his
  rw [pushLabel]
  exact heapStore

end Interior

end Code

open Code (Interior)

/-! ### Expressions -/

/-- A comparison can stand inside a function if its operands can. -/
theorem Code.Interior.compareCode {kind : Jump} {x y : LabelM (List Instr)} {s s' : LabelSupply}
    {code : List Instr} (hx : ∀ {s s' a}, x s = .ok (a, s') → Interior a)
    (hy : ∀ {s s' a}, y s = .ok (a, s') → Interior a)
    (h : Stackling.compareCode kind x y s = .ok (code, s')) : Interior code := by
  obtain ⟨a, s₁, b, ha, hb, rfl⟩ := Expr.compareCode_eq_ok.mp h
  refine ((hx ha).append (hy hb)).append ?_
  simp [Code.truthValue]

mutual

/-- The code of an expression can stand inside a function. -/
theorem Expr.interior {g : CodeContext} : ∀ (e : Expr) {s s' : LabelSupply} {code : List Instr},
    e.code g s = .ok (code, s') → Interior code
  | .int _ _, s, s', code, h => by
    obtain ⟨rfl, -⟩ := Expr.code_int.mp h
    simp
  | .bool _ _, s, s', code, h => by
    obtain ⟨rfl, -⟩ := Expr.code_bool.mp h
    simp
  | .null _, s, s', code, h => by
    obtain ⟨rfl, -⟩ := Expr.code_null.mp h
    simp
  | .name _ _ _, s, s', code, h => by
    obtain ⟨b, -, -, rfl⟩ := Expr.code_name.mp h
    refine (Interior.frameAccess g b).append ?_
    split
    · exact .loadClosure _
    · exact .load _
  | .binary op l r _, s, s', code, h => by
    have hl : ∀ {s s' a}, l.code g s = .ok (a, s') → Interior a := l.interior
    have hr : ∀ {s s' a}, r.code g s = .ok (a, s') → Interior a := r.interior
    cases op with
    | add | sub | mul | div | and =>
      obtain ⟨a, s₁, b, ha, hb, rfl⟩ := (Expr.code_bare rfl).mp h
      exact ((hl ha).append (hr hb)).append (by simp)
    | or =>
      obtain ⟨a, s₁, b, ha, hb, rfl⟩ := Expr.code_or.mp h
      -- the first jump has its label behind the code of the second operand
      have hend : Interior
          (.push 1 :: Code.truthValue .equal (.branch s.branches) (.branch (s.branches + 1))) := by
        simp [Code.truthValue]
      rw [List.append_assoc, List.append_assoc]
      refine (hl ha).append (Interior.push.mpr (Interior.jump.mpr ⟨?_, (hr hb).append hend⟩))
      simp [Code.truthValue]
    | equal | lessEqual => exact .compareCode hl hr (by simpa only [Expr.code] using h)
    | greaterEqual => exact .compareCode hr hl (by simpa only [Expr.code] using h)
  | .not e _, s, s', code, h => by
    obtain ⟨a, ha, rfl⟩ := Expr.code_not.mp h
    exact .append (Interior.push.mpr (e.interior ha)) (by simp)
  | .ite c y n _, s, s', code, h => by
    obtain ⟨cc, s₁, cn, s₂, cy, hc, hn, hy, rfl⟩ := Expr.code_ite.mp h
    have hyes : Interior (cy ++ [.label (.branch (s.branches + 1))]) :=
      (y.interior hy).append (by simp)
    have hskip : Interior
        (.jump .always (.branch (s.branches + 1)) :: .label (.branch s.branches) ::
          (cy ++ [.label (.branch (s.branches + 1))])) := by
      simpa using hyes
    simp only [List.append_assoc, List.cons_append, List.nil_append]
    refine (c.interior hc).append
      (Interior.push.mpr (Interior.jump.mpr ⟨?_, (n.interior hn).append hskip⟩))
    simp
  | .print e _, s, s', code, h => by
    obtain ⟨a, ha, rfl⟩ := Expr.code_print.mp h
    exact (e.interior ha).append (by simp)
  | .call _ _ args _, s, s', code, h => by
    obtain ⟨b, a, -, ha, rfl⟩ := Expr.code_call.mp h
    refine .append
      (.append (Interior.bare.mpr ⟨nofun, argumentCode_interior args ha⟩) (.frameAccess g b)) ?_
    split
    · exact .dispatch _
    · exact (Interior.loadClosure _).append (by simp)
  | .send _ _ _ args _, s, s', code, h => by
    obtain ⟨d, a, -, ha, rfl⟩ := Expr.code_send.mp h
    have hargs : Interior (.bare .lfp :: a) :=
      Interior.bare.mpr ⟨nofun, argumentCode_interior args ha⟩
    exact .append (.append (.append hargs (.frameAccess g _)) (.load _)) (.dispatch _)
  | .new _ _ args _, s, s', code, h => by
    obtain ⟨b, c, a, -, -, ha, rfl⟩ := Expr.code_new.mp h
    exact (valueCode_interior args ha).append (.makeObject _ _)

/-- So can the code of the arguments of a call. -/
theorem argumentCode_interior {g : CodeContext} :
    ∀ (es : List Expr) {s s' : LabelSupply} {code : List Instr},
    argumentCode g es s = .ok (code, s') → Interior code
  | [], s, s', code, h => by
    obtain ⟨rfl, -⟩ := argumentCode_nil.mp h
    exact .nil
  | e :: es, s, s', code, h => by
    obtain ⟨a, s₁, b, ha, hb, rfl⟩ := argumentCode_cons.mp h
    exact (argumentCode_interior es ha).append (e.interior hb)

/-- So can the code of the arguments of a constructor. -/
theorem valueCode_interior {g : CodeContext} :
    ∀ (es : List Expr) {s s' : LabelSupply} {code : List Instr},
    valueCode g es s = .ok (code, s') → Interior code
  | [], s, s', code, h => by
    obtain ⟨rfl, -⟩ := valueCode_nil.mp h
    exact .nil
  | e :: es, s, s', code, h => by
    obtain ⟨a, s₁, b, ha, hb, rfl⟩ := valueCode_cons.mp h
    exact (e.interior ha).append (valueCode_interior es hb)

end

/-- Code without an entry of a function takes no labels of functions. -/
theorem Labelled.functions_eq {s s' : LabelSupply} {is : List Instr} (h : Labelled s s' is)
    (his : Interior is) :
    s'.functions = s.functions := by
  by_contra hne
  have hlt : s.functions < s'.functions := Nat.lt_of_le_of_ne h.before.2 (Ne.symm hne)
  have hcount : (Code.defined is).count (.function s.functions) = 1 :=
    (h.count_defined _).trans (if_pos ⟨Nat.le_refl _, hlt⟩)
  have hmem : Label.function s.functions ∈ Code.defined is :=
    List.count_pos_iff.mp (by rw [hcount]; exact Nat.one_pos)
  exact his.entry _ (Code.mem_defined.mp hmem)

/-! ### Functions -/

/-- The function that is declared at a node. -/
def Node.fn? : Node → Option FunDecl
  | .fn f => some f
  | _ => none

/-- The functions and methods that are declared at the nodes, each one before those inside it. -/
def functionsAt (nodes : List Node) : List FunDecl := nodes.filterMap Node.fn?

theorem functionsAt_append (ms ns : List Node) :
    functionsAt (ms ++ ns) = functionsAt ms ++ functionsAt ns :=
  List.filterMap_append

theorem functionsAt_eq_nil {ns : List Node} (h : ∀ f, .fn f ∉ ns) : functionsAt ns = [] := by
  refine List.filterMap_eq_nil_iff.mpr fun n hn => ?_
  cases n with
  | fn f => exact absurd hn (h f)
  | use | typed | var | cls => rfl

theorem functionsAt_nodes_expr (e : Expr) : functionsAt e.nodes = [] :=
  functionsAt_eq_nil fun f => e.fn_notMem_nodes f

theorem functionsAt_typed (ts : List TypedName) : functionsAt (ts.map .typed) = [] :=
  functionsAt_eq_nil (by simp)

/-- A function comes before the ones inside it, like its label. -/
theorem functionsAt_nodes_fn (f : FunDecl) :
    functionsAt f.nodes = f :: functionsAt (declNodes f.decls) := by
  rw [f.nodes_eq, FunDecl.innerNodes, functionsAt, List.filterMap_cons]
  change f :: functionsAt (_ ++ _ ++ _) = _
  rw [functionsAt_append, functionsAt_append, functionsAt_typed, functionsAt_nodes_expr,
    List.nil_append, List.append_nil]

/-- The functions of a class are its methods and the ones inside them. -/
theorem functionsAt_nodes_cls (c : ClassDecl) :
    functionsAt (Decl.cls c).nodes = functionsAt (methodNodes c.methods) := by
  rw [Decl.nodes_cls, List.cons_append, functionsAt, List.filterMap_cons]
  change functionsAt (_ ++ _) = _
  rw [functionsAt_append, functionsAt_typed, List.nil_append]

/-- The code of one function. -/
structure Region where
  fn : FunDecl
  /-- The number of its label. -/
  number : Nat
  code : List Instr

/-- The region has the code of its function: from its label on it sets up a frame, and it ends with
the return. -/
structure Region.Formed (r : Region) : Prop where
  routine : ∃ locals value, r.code = r.fn.routine (.function r.number) locals value
  shape : ∃ body, Interior body ∧
    r.code = .label (.function r.number) :: .bare .cfp :: .bare .lra :: body ++ [.bare .js]

/-- The routine of a function is a region if its parts can stand inside one. -/
theorem Region.formed_routine {f : FunDecl} {locals value : List Instr} (hlocals : Interior locals)
    (hvalue : Interior value) (n : Nat) :
    Region.Formed ⟨f, n, f.routine (.function n) locals value⟩ where
  routine := ⟨locals, value, rfl⟩
  shape := by
    obtain ⟨ending, hending, heq⟩ := Interior.exists_epilogue (totalCells Decl.cells f.decls)
      (totalCells (·.declared.cells) f.params) f.result.isArrow
    refine ⟨locals ++ value ++ ending, (hlocals.append hvalue).append hending, ?_⟩
    simp [FunDecl.routine, heq, Code.plain]

/-- The code is made of one region for each of the functions, which are numbered from `start` on. -/
def Placed (fns : List FunDecl) (start : Nat) (code : List Instr) : Prop :=
  ∃ regions : List Region, regions.flatMap Region.code = code ∧
    (regions.map fun r => (r.fn, r.number)).Perm (fns.zipIdx start) ∧ ∀ r ∈ regions, r.Formed

namespace Placed

variable {f : FunDecl} {fs gs : List FunDecl} {start : Nat} {is js : List Instr}

theorem nil (start : Nat) : Placed [] start [] := ⟨[], rfl, .nil, nofun⟩

theorem append (his : Placed fs start is) (hjs : Placed gs (start + fs.length) js) :
    Placed (fs ++ gs) start (is ++ js) := by
  obtain ⟨rs, rfl, hperm, hformed⟩ := his
  obtain ⟨rs', rfl, hperm', hformed'⟩ := hjs
  refine ⟨rs ++ rs', List.flatMap_append, ?_, fun r hr => ?_⟩
  · rw [List.map_append, List.zipIdx_append]
    exact hperm.append hperm'
  · exact (List.mem_append.mp hr).elim (hformed r) (hformed' r)

/-- A function takes its number before the functions in it, and its region comes after theirs. -/
theorem around (his : Placed fs (start + 1) is) (hf : Region.Formed ⟨f, start, js⟩) :
    Placed (f :: fs) start (is ++ js) := by
  obtain ⟨rs, rfl, hperm, hformed⟩ := his
  refine ⟨rs ++ [⟨f, start, js⟩], by simp, ?_, fun r hr => ?_⟩
  · rw [List.map_append, List.zipIdx_cons]
    exact List.perm_append_comm.trans (hperm.cons _)
  · rcases List.mem_append.mp hr with hr | hr
    · exact hformed r hr
    · rw [List.mem_singleton.mp hr]
      exact hf

end Placed

/-! ### Declarations -/

mutual

/-- A declaration puts the regions of its functions one after the other, with their numbers in
order. -/
theorem Decl.placed {g : CodeContext} :
    ∀ (d : Decl) {q q' : CodeState} {f : Fragment}, d.code g q = .ok (f, q') →
    Interior f.code ∧ Placed (functionsAt d.nodes) q.labels.functions f.bodies ∧
      q'.labels.functions = q.labels.functions + (functionsAt d.nodes).length
  | .var d, q, q', f, h => by
    obtain ⟨a, s', ha, rfl, rfl⟩ := Decl.code_var.mp h
    have hnone : functionsAt (Decl.var d).nodes = [] := functionsAt_nodes_expr d.init
    rw [hnone]
    exact ⟨d.init.interior ha, .nil _, (d.init.labelled ha).functions_eq (d.init.interior ha)⟩
  | .fn d, q, q', f, h => by
    obtain ⟨r, hr, rfl⟩ := Decl.code_fn.mp h
    exact ⟨by simp, d.placed hr⟩
  | .cls ⟨id, name, superclass, fields, methods, pos⟩, q, q', f, h => by
    obtain ⟨entry, record, table, bodies, q₁, -, -, hm, rfl, rfl⟩ := Decl.code_cls.mp h
    obtain ⟨hbodies, hfunctions⟩ := methodCode_placed methods hm
    rw [functionsAt_nodes_cls]
    exact ⟨.dispatchTable table, hbodies, hfunctions⟩

/-- The same of a function, whose region comes first. -/
theorem FunDecl.placed {g : CodeContext} :
    ∀ (d : FunDecl) {q q' : CodeState} {r : Routine}, d.code g q = .ok (r, q') →
    Placed (functionsAt d.nodes) q.labels.functions r.bodies ∧
      q'.labels.functions = q.labels.functions + (functionsAt d.nodes).length
  | ⟨id, name, params, result, decls, body, pos⟩, q, q', r, h => by
    obtain ⟨locals, q₁, value, s', hlocals, hvalue, rfl, rfl⟩ := FunDecl.code_eq_ok.mp h
    obtain ⟨hcode, hbodies, hfunctions⟩ := declCode_placed decls hlocals
    rw [functionsAt_nodes_fn]
    refine ⟨hbodies.around (Region.formed_routine hcode (body.interior hvalue) _), ?_⟩
    rw [(body.labelled hvalue).functions_eq (body.interior hvalue), hfunctions, List.length_cons]
    exact (Nat.add_assoc _ _ _).trans (congrArg _ (Nat.add_comm _ _))

/-- The same of several declarations. -/
theorem declCode_placed {g : CodeContext} : ∀ (ds : List Decl) {q q' : CodeState} {f : Fragment},
    declCode g ds q = .ok (f, q') →
    Interior f.code ∧ Placed (functionsAt (declNodes ds)) q.labels.functions f.bodies ∧
      q'.labels.functions = q.labels.functions + (functionsAt (declNodes ds)).length
  | [], q, q', f, h => by
    obtain ⟨rfl, rfl⟩ := declCode_nil.mp h
    exact ⟨.nil, .nil _, rfl⟩
  | d :: ds, q, q', f, h => by
    obtain ⟨a, q₁, b, ha, hb, rfl⟩ := declCode_cons.mp h
    obtain ⟨hcode, hbodies, hfunctions⟩ := d.placed ha
    obtain ⟨hcode', hbodies', hfunctions'⟩ := declCode_placed ds hb
    rw [hfunctions] at hbodies'
    rw [declNodes, functionsAt_append, List.length_append, ← Nat.add_assoc, ← hfunctions]
    exact ⟨hcode.append hcode', hbodies.append hbodies', hfunctions'⟩

/-- The same of the methods of a class. -/
theorem methodCode_placed {g : CodeContext} :
    ∀ (ms : List FunDecl) {q q' : CodeState} {table table' : List Label}
    {bodies : List Instr}, methodCode g table ms q = .ok ((table', bodies), q') →
      Placed (functionsAt (methodNodes ms)) q.labels.functions bodies ∧
      q'.labels.functions = q.labels.functions + (functionsAt (methodNodes ms)).length
  | [], q, q', table, table', bodies, h => by
    obtain ⟨h, rfl⟩ := methodCode_nil.mp h
    cases h
    exact ⟨.nil _, rfl⟩
  | m :: ms, q, q', table, table', bodies, h => by
    obtain ⟨entry, routine, q₁, rest, -, hm, hrest, hr⟩ := methodCode_cons.mp h
    cases hr
    obtain ⟨hbodies, hfunctions⟩ := m.placed hm
    obtain ⟨hbodies', hfunctions'⟩ := methodCode_placed ms hrest
    rw [hfunctions] at hbodies'
    rw [methodNodes, functionsAt_append, List.length_append, ← Nat.add_assoc, ← hfunctions]
    exact ⟨hbodies.append hbodies', hfunctions'⟩

end

/-! ### Programs -/

namespace Program

variable {p : Program}

/-- The functions and methods of a program, each one at the place that its label has as its
number. -/
def functions (p : Program) : List FunDecl := functionsAt p.nodes

theorem opening_interior : Interior p.opening := by
  unfold opening
  split
  · exact .nil
  · simp

/-- Up to the end of the run comes the code of the program itself, and after it that of its
functions. -/
theorem generate_placed {r : Resolution} {globalFrame : Int32} {listing : Listing}
    (h : p.generate r globalFrame = .ok listing) :
    ∃ main bodies s, listing.instrs = main ++ .bare .halt :: bodies ∧ Interior main ∧
      Placed p.functions 0 bodies ∧
      Labelled {} s listing.instrs ∧ s.functions = p.functions.length := by
  obtain ⟨locals, q, value, s, hlocals, hvalue, rfl⟩ := generate_eq_ok.mp h
  obtain ⟨hcode, hbodies, hfunctions⟩ := declCode_placed p.decls hlocals
  have hbody : Interior value := p.body.interior hvalue
  have hnodes : p.functions = functionsAt (declNodes p.decls) := by
    rw [functions, nodes, functionsAt_append, functionsAt_nodes_expr, List.append_nil]
  refine ⟨_, locals.bodies, s, rfl, (opening_interior.append hcode).append hbody, ?_,
    labelled hlocals hvalue, ?_⟩
  · rw [hnodes]
    exact hbodies
  · rw [(p.body.labelled hvalue).functions_eq hbody, hfunctions, hnodes]
    exact Nat.zero_add _

end Program

end Stackling
