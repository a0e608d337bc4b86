import Mathlib.Data.List.Perm.Basic
import Stackling.Proofs.Resolution.Tables

/-!
# Findings that hold

The tables of a resolution keep the last finding about a number. If the nodes of a program have
different numbers, no finding displaces another one: a node gets at most one finding of each sort,
so the tables hold all that was found.
-/

namespace Stackling

/-- The tables say what was found. No resolution holds an error. -/
def Resolution.Holds (r : Resolution) : Finding → Prop
  | .use id b => r.uses[id]? = some b
  | .send id d => r.sends[id]? = some d
  | .decl id e => r.decls[id]? = some e
  | .position id n => r.positions[id]? = some n
  | .error _ => False

/-- All of the findings hold. -/
def Resolution.HoldsAll (r : Resolution) (found : List Finding) : Prop := ∀ f ∈ found, r.Holds f

namespace Resolution.HoldsAll

variable {r : Resolution} {found more : List Finding}

/-- Rows of two pieces are among the nodes of both. -/
@[simp] theorem append : r.HoldsAll (found ++ more) ↔ r.HoldsAll found ∧ r.HoldsAll more :=
  List.forall_mem_append

@[simp] theorem cons {f : Finding} : r.HoldsAll (f :: found) ↔ r.Holds f ∧ r.HoldsAll found :=
  List.forall_mem_cons

/-- Errors are not held by any table. -/
theorem errorFree (h : r.HoldsAll found) : ErrorFree found := fun e he => h (.error e) he

end Resolution.HoldsAll

/-! ### One finding of each sort for a node -/

/-- The sorts of findings that have a table. -/
inductive Finding.Sort where
  | use | send | decl | position

namespace Finding

/-- The number of the node that a finding of the sort is about. -/
def key? : Finding.Sort → Finding → Option NodeId
  | .use, .use id _ | .send, .send id _ | .decl, .decl id _ | .position, .position id _ => some id
  | _, _ => none

end Finding

/-- For each number, there are no more findings of the sort than nodes. -/
def Thrifty (s : Finding.Sort) (found : List Finding) (nodes : List Node) : Prop :=
  ∀ id, (found.filterMap (Finding.key? s)).count id ≤ (nodes.map Node.id).count id

namespace Thrifty

variable {s : Finding.Sort} {found more : List Finding} {ms ns : List Node}

theorem nil : Thrifty s [] ns := fun _ => Nat.zero_le _

theorem append (h : Thrifty s found ms) (h' : Thrifty s more ns) :
    Thrifty s (found ++ more) (ms ++ ns) := by
  intro id
  rw [List.filterMap_append, List.map_append, List.count_append, List.count_append]
  exact Nat.add_le_add (h id) (h' id)

/-- The order of the nodes does not matter. -/
theorem perm (h : Thrifty s found ms) (hperm : ms.Perm ns) : Thrifty s found ns := by
  intro id
  rw [← (hperm.map Node.id).count_eq]
  exact h id

theorem single {f : Finding} {n : Node} (h : ∀ id, f.key? s = some id → n.id = id) :
    Thrifty s [f] [n] := by
  intro id
  cases hkey : f.key? s with
  | none => simp [hkey]
  | some id' => simp [hkey, h id' hkey]

theorem cons {f : Finding} {n : Node} (h : ∀ id, f.key? s = some id → n.id = id)
    (hrest : Thrifty s found ns) :
    Thrifty s (f :: found) (n :: ns) :=
  (single h).append hrest

theorem cons_error {e : ScopeError} : Thrifty s (.error e :: found) ns ↔ Thrifty s found ns := by
  cases s <;> rfl

end Thrifty

section Walk

variable {s : Finding.Sort}

mutual

/-- No node of an expression gets two rows in one table. -/
theorem Expr.thrifty {env : Env} : ∀ e : Expr, Thrifty s (e.resolve env) e.nodes
  | .int _ _ | .bool _ _ | .null _ => .nil
  | .name id name pos => by
    refine .single fun id' h => ?_
    unfold Env.useName at h
    split at h <;> cases s <;> cases h
    rfl
  | .binary _ l r _ => l.thrifty.append r.thrifty
  | .not e _ => e.thrifty
  | .ite c y n _ => (c.thrifty.append y.thrifty).append n.thrifty
  | .call id callee args pos => by
    refine .cons (fun id' h => ?_) (args_thrifty args)
    unfold Env.useName at h
    split at h <;> cases s <;> cases h
    rfl
  | .send id receiver method args pos => by
    refine .cons (fun id' h => ?_) (args_thrifty args)
    unfold Env.useMethod at h
    repeat' split at h
    all_goals cases s <;> cases h
    rfl
  | .new id cls args pos => by
    refine .cons (fun id' h => ?_) (args_thrifty args)
    unfold Env.useClass at h
    split at h <;> cases s <;> cases h
    rfl
  | .print e _ => e.thrifty

/-- The same of the arguments of a call. -/
theorem args_thrifty {env : Env} : ∀ es : List Expr, Thrifty s (resolveArgs env es) (argNodes es)
  | [] => .nil
  | e :: es => e.thrifty.append (args_thrifty es)

end

theorem Env.declare_thrifty {env : Env} {kind : NameKind} {name : String} {pos : SourcePos}
    {entry : Entry} (n : Node) : Thrifty s (env.declare kind n.id name pos entry).2 [n] := by
  have hdecl : Thrifty s [.decl n.id entry] [n] := .single fun id h => by
    cases s <;> cases h
    rfl
  unfold declare
  split
  · exact hdecl
  · exact Thrifty.cons_error.mpr hdecl

/-- The same of parameters. -/
theorem Env.declareParams_thrifty {env : Env} (ps : List TypedName) :
    Thrifty s (env.declareParams ps).2 (ps.map .typed) := by
  induction ps generalizing env with
  | nil => exact .nil
  | cons p ps ih =>
    rw [declareParams_cons]
    exact (declare_thrifty (.typed p)).append ih

namespace ClassDraft

/-- A member gets one row at most. -/
theorem count_addOwn_le (d : ClassDraft) (cls : String) (m : OwnMember) (id : NodeId) :
    ((d.addOwn cls m).findings.filterMap (Finding.key? s)).count id ≤
      (d.findings.filterMap (Finding.key? s)).count id + [m.id].count id := by
  unfold addOwn addMember
  dsimp only
  have haccept : ∀ (entry : Entry) (n : Nat),
      ((d.findings ++ [Finding.decl m.id entry, Finding.position m.id n]).filterMap
        (Finding.key? s)).count id ≤
        (d.findings.filterMap (Finding.key? s)).count id + [m.id].count id := by
    intro entry n
    rw [List.filterMap_append, List.count_append]
    refine Nat.add_le_add_left ?_ _
    cases s
    exacts [Nat.zero_le _, Nat.zero_le _, Nat.le_refl _, Nat.le_refl _]
  have hreject : ∀ e : ScopeError,
      ((d.findings ++ [Finding.error e]).filterMap (Finding.key? s)).count id ≤
        (d.findings.filterMap (Finding.key? s)).count id + [m.id].count id := by
    intro e
    rw [List.filterMap_append, List.count_append]
    refine Nat.add_le_add_left ?_ _
    cases s <;> exact Nat.zero_le _
  split
  · exact hreject _
  · split
    · split
      · exact haccept _ _
      · exact hreject _
    · exact haccept _ _

/-- So do all members. -/
theorem count_addAll_le (d : ClassDraft) (cls : String) (ms : List OwnMember) (id : NodeId) :
    ((d.addAll cls ms).findings.filterMap (Finding.key? s)).count id ≤
      (d.findings.filterMap (Finding.key? s)).count id + (ms.map (·.id)).count id := by
  induction ms generalizing d with
  | nil => exact Nat.le_refl _
  | cons m ms ih =>
    have hfirst := d.count_addOwn_le (s := s) cls m id
    have hrest := ih (d.addOwn cls m)
    have hcons : ((m :: ms).map (·.id)).count id = [m.id].count id + (ms.map (·.id)).count id := by
      rw [List.map_cons, ← List.singleton_append, List.count_append]
    rw [hcons]
    change ((addAll (d.addOwn cls m) cls ms).findings.filterMap (Finding.key? s)).count id ≤ _
    omega

end ClassDraft

/-- No member of a class gets two rows in one table. -/
theorem Env.draftOf_thrifty {env : Env} (c : ClassDecl) :
    Thrifty s (env.draftOf c).findings (c.fields.map .typed ++ c.methods.map .fn) := by
  intro id
  rw [Env.draftOf, ClassDecl.draft_eq]
  refine Nat.le_trans (ClassDraft.count_addAll_le _ _ _ id) (Nat.le_of_eq ?_)
  simp only [ClassDecl.ownMembers, List.map_append, List.map_map, List.filterMap_nil,
    List.count_nil, Nat.zero_add]
  rfl

/-- Nor does the class itself. -/
theorem Env.classHeader_thrifty {env : Env} (c : ClassDecl) :
    Thrifty s (env.classHeader c).2.2 (.cls c :: c.fields.map .typed ++ c.methods.map .fn) := by
  have hparent : Thrifty s (env.parentFindings c) [] := by
    unfold parentFindings
    split
    · split
      · exact .nil
      · exact Thrifty.cons_error.mpr .nil
    · exact .nil
  have hfound : Thrifty s (env.parentFindings c ++ (env.draftOf c).findings)
      (c.fields.map .typed ++ c.methods.map .fn) := hparent.append (env.draftOf_thrifty c)
  unfold classHeader
  dsimp only
  split
  · have hdeclare : Thrifty s (env.declareClass c (env.draftOf c).layout).2 [.cls c] := by
      unfold declareClass
      dsimp only
      split
      · refine .single fun id h => ?_
        cases s <;> cases h
        rfl
      · exact Thrifty.cons_error.mpr .nil
    exact (hfound.append hdeclare).perm (List.perm_append_singleton _ _)
  · refine Thrifty.cons_error.mpr ?_
    exact (@Thrifty.nil s [.cls c]).append hfound

mutual

/-- No node of a declaration gets two rows in one table. -/
theorem Decl.thrifty {env : Env} : ∀ d : Decl, Thrifty s (d.resolve env).2 d.nodes
  | .var d => by
    rw [Decl.resolve_var, Decl.nodes]
    exact (d.init.thrifty.append (Env.declare_thrifty (.var d))).perm
      (List.perm_append_singleton _ _)
  | .fn f => by
    rw [Decl.resolve_fn, Decl.nodes, FunDecl.nodes_eq]
    exact (Env.declare_thrifty (.fn f)).append f.thrifty
  | .cls ⟨id, name, superclass, fields, methods, pos⟩ => by
    rw [Decl.resolve_cls, Decl.nodes_cls, methodNodes_eq]
    refine ((Env.classHeader_thrifty _).append (methods_thrifty methods)).perm ?_
    rw [List.append_assoc]
    refine List.Perm.append_left _ ?_
    have hsplit : methods.flatMap FunDecl.nodes = methods.flatMap fun m => .fn m :: m.innerNodes :=
      List.flatMap_congr fun m _ => m.nodes_eq
    rw [hsplit]
    exact List.map_append_flatMap_perm methods Node.fn FunDecl.innerNodes

/-- The same of a function. -/
theorem FunDecl.thrifty {env : Env} : ∀ f : FunDecl, Thrifty s (f.resolve env) f.innerNodes
  | ⟨id, name, params, result, decls, body, pos⟩ => by
    rw [FunDecl.resolve_eq]
    exact ((Env.declareParams_thrifty params).append (decls_thrifty decls)).append body.thrifty

/-- The same of the methods of a class. -/
theorem methods_thrifty {env : Env} :
    ∀ ms : List FunDecl, Thrifty s (resolveMethods env ms) (ms.flatMap FunDecl.innerNodes)
  | [] => .nil
  | m :: ms => by
    rw [resolveMethods, List.flatMap_cons]
    exact m.thrifty.append (methods_thrifty ms)

/-- The same of several declarations. -/
theorem decls_thrifty {env : Env} :
    ∀ ds : List Decl, Thrifty s (resolveDecls env ds).2 (declNodes ds)
  | [] => .nil
  | d :: ds => by
    rw [resolveDecls_cons, declNodes]
    exact d.thrifty.append (decls_thrifty ds)

end

end Walk

/-! ### Tables -/

/-- What stands in a list under a number that occurs there once is in the table. -/
theorem NodeTable.getElem?_ofList {α : Type} {l : List (NodeId × α)} {id : NodeId} {a : α}
    (hmem : (id, a) ∈ l) (hcount : (l.map Prod.fst).count id ≤ 1) :
    (Std.TreeMap.ofList l : NodeTable α)[id]? = some a := by
  obtain ⟨a', ha'⟩ := NodeTable.exists_getElem?_ofList hmem
  have hmem' := NodeTable.mem_of_getElem?_ofList ha'
  rw [ha']
  obtain ⟨before, after, rfl⟩ := List.append_of_mem hmem
  simp only [List.map_append, List.map_cons, List.count_append, List.count_cons_self] at hcount
  have hbefore : (id, a') ∉ before := fun h => by
    have hpos : 0 < (before.map Prod.fst).count id := List.count_pos_iff.mpr (List.mem_map_of_mem h)
    omega
  have hafter : (id, a') ∉ after := fun h => by
    have hpos : 0 < (after.map Prod.fst).count id := List.count_pos_iff.mpr (List.mem_map_of_mem h)
    omega
  rw [List.mem_append, List.mem_cons] at hmem'
  rcases hmem' with h | h | h
  · exact absurd h hbefore
  · exact congrArg some (congrArg Prod.snd h)
  · exact absurd h hafter

/-- No node of a program gets two rows in one table. -/
theorem Program.thrifty (p : Program) (s : Finding.Sort) : Thrifty s p.findings p.nodes :=
  (decls_thrifty p.decls).append p.body.thrifty

/-- The tables say what was found, errors apart. -/
def Resolution.Keeps (r : Resolution) (found : List Finding) : Prop :=
  ∀ f ∈ found, (∀ e, f ≠ .error e) → r.Holds f

namespace Resolution.Keeps

variable {r : Resolution} {found more : List Finding}

@[simp] theorem append : r.Keeps (found ++ more) ↔ r.Keeps found ∧ r.Keeps more :=
  List.forall_mem_append

theorem cons {f : Finding} : r.Keeps (f :: found) ↔ r.Keeps [f] ∧ r.Keeps found :=
  @append r [f] found

end Resolution.Keeps

/-- In a program whose nodes have different numbers, no finding is lost. -/
theorem Program.keeps {p : Program} (hdistinct : p.Distinct) : p.resolve.Keeps p.findings := by
  have hcount : ∀ (s : Finding.Sort) (id : NodeId),
      (p.findings.filterMap (Finding.key? s)).count id ≤ 1 :=
    fun s id => Nat.le_trans (p.thrifty s id) (List.nodup_iff_count.mp hdistinct id)
  have hkeys : ∀ {α : Type} (table? : Finding → Option (NodeId × α)) (s : Finding.Sort),
      (∀ f, (table? f).map Prod.fst = f.key? s) → ∀ id,
        ((p.findings.filterMap table?).map Prod.fst).count id ≤ 1 := by
    intro α table? s htable id
    rw [List.map_filterMap, funext htable]
    exact hcount s id
  intro f hf hne
  cases f with
  | use id b =>
    exact NodeTable.getElem?_ofList (List.mem_filterMap.mpr ⟨_, hf, rfl⟩)
      (hkeys _ .use (fun f => by cases f <;> rfl) id)
  | send id d =>
    exact NodeTable.getElem?_ofList (List.mem_filterMap.mpr ⟨_, hf, rfl⟩)
      (hkeys _ .send (fun f => by cases f <;> rfl) id)
  | decl id e =>
    exact NodeTable.getElem?_ofList (List.mem_filterMap.mpr ⟨_, hf, rfl⟩)
      (hkeys _ .decl (fun f => by cases f <;> rfl) id)
  | position id n =>
    exact NodeTable.getElem?_ofList (List.mem_filterMap.mpr ⟨_, hf, rfl⟩)
      (hkeys _ .position (fun f => by cases f <;> rfl) id)
  | error e => exact absurd rfl (hne e)

/-- In a program whose nodes have different numbers, resolution without errors holds all its
findings. -/
theorem Program.holdsAll {p : Program} (hdistinct : p.Distinct) (h : p.resolve.errors = []) :
    p.resolve.HoldsAll p.findings := by
  intro f hf
  refine keeps hdistinct f hf ?_
  rintro e rfl
  exact errorFree_findings h e hf

/-! ### Functions -/

section Functions

variable {r : Resolution}

mutual

/-- The tables hold what is found in each function inside a declaration, if they hold what is found
in the declaration. -/
theorem Decl.exists_holdsAll : ∀ (d : Decl) {env : Env}, r.HoldsAll (d.resolve env).2 →
    ∀ f, .fn f ∈ d.nodes → ∃ env', r.HoldsAll (f.resolve env')
  | .var d, env, _, f, hf => by
    rw [Decl.nodes, List.mem_cons] at hf
    exact absurd (hf.resolve_left nofun) (d.init.fn_notMem_nodes f)
  | .fn fn, env, hold, f, hf => by
    rw [Decl.resolve_fn, Resolution.HoldsAll.append] at hold
    exact fn.exists_holdsAll hold.2 f hf
  | .cls ⟨id, name, superclass, fields, methods, pos⟩, env, hold, f, hf => by
    rw [Decl.resolve_cls, Resolution.HoldsAll.append] at hold
    rw [Decl.nodes, List.mem_append] at hf
    exact methods_exists_holdsAll methods hold.2 f (hf.resolve_left (by simp))

/-- The same of a function and the ones inside it. -/
theorem FunDecl.exists_holdsAll : ∀ (fn : FunDecl) {env : Env}, r.HoldsAll (fn.resolve env) →
    ∀ f, .fn f ∈ fn.nodes → ∃ env', r.HoldsAll (f.resolve env')
  | ⟨id, name, params, result, decls, body, pos⟩, env, hold, f, hf => by
    rw [FunDecl.nodes, List.cons_append, List.cons_append, List.mem_cons, List.mem_append,
      List.mem_append] at hf
    rcases hf with heq | (hf | hf) | hf
    · cases heq
      exact ⟨env, hold⟩
    · exact absurd hf (by simp)
    · rw [FunDecl.resolve_eq, Resolution.HoldsAll.append, Resolution.HoldsAll.append] at hold
      exact decls_exists_holdsAll decls hold.1.2 f hf
    · exact absurd hf (body.fn_notMem_nodes f)

/-- The same of the methods of a class. -/
theorem methods_exists_holdsAll :
    ∀ (ms : List FunDecl) {env : Env}, r.HoldsAll (resolveMethods env ms) →
    ∀ f, .fn f ∈ methodNodes ms → ∃ env', r.HoldsAll (f.resolve env')
  | [], _, _, _, hf => nomatch hf
  | m :: ms, env, hold, f, hf => by
    rw [resolveMethods, Resolution.HoldsAll.append] at hold
    rcases List.mem_append.mp hf with hf | hf
    · exact m.exists_holdsAll hold.1 f hf
    · exact methods_exists_holdsAll ms hold.2 f hf

/-- The same of several declarations. -/
theorem decls_exists_holdsAll : ∀ (ds : List Decl) {env : Env}, r.HoldsAll (resolveDecls env ds).2 →
    ∀ f, .fn f ∈ declNodes ds → ∃ env', r.HoldsAll (f.resolve env')
  | [], _, _, _, hf => nomatch hf
  | d :: ds, env, hold, f, hf => by
    rw [resolveDecls_cons, Resolution.HoldsAll.append] at hold
    rcases List.mem_append.mp hf with hf | hf
    · exact d.exists_holdsAll hold.1 f hf
    · exact decls_exists_holdsAll ds hold.2 f hf

end

end Functions

/-- The body of each function or method is resolved in some environment, and what is found there
holds. -/
theorem Program.exists_holdsAll {p : Program} (hdistinct : p.Distinct) (h : p.resolve.errors = [])
    {f : FunDecl} (hf : .fn f ∈ p.nodes) : ∃ env, p.resolve.HoldsAll (f.resolve env) := by
  have hold := holdsAll hdistinct h
  rw [findings, Resolution.HoldsAll.append] at hold
  rcases List.mem_append.mp hf with hf | hf
  · exact decls_exists_holdsAll p.decls hold.1 f hf
  · exact absurd hf (p.body.fn_notMem_nodes f)

end Stackling
