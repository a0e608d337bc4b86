import Stackling.Proofs.Resolution.Findings

/-!
# Decorated nodes

A walk that finds no error decorates each node that it meets: a use of a name gets a binding, a
method call a dispatch, a declaration an entry. Conversely each binding comes from a node that it
suits, so that the creation of an object is never bound to anything but a class. And each class in
the tree is on record at the end.
-/

namespace Stackling

/-- What resolution leaves at a node that it accepts. -/
inductive Finding.Decorates : Finding → Node → Prop where
  | name {id : NodeId} {b : Binding} {name : String} {pos : SourcePos} :
    Decorates (.use id b) (.use id (.name id name pos))
  | call {id : NodeId} {b : Binding} {callee : String} {args : List Expr} {pos : SourcePos} :
    Decorates (.use id b) (.use id (.call id callee args pos))
  | send {id : NodeId} {d : Dispatch} {receiver method : String} {args : List Expr}
      {pos : SourcePos} :
    Decorates (.send id d) (.use id (.send id receiver method args pos))
  | new {id : NodeId} {b : Binding} {c : ClassTy} {cls : String} {args : List Expr}
      {pos : SourcePos} (h : b.entry.ty = .cls c) : Decorates (.use id b)
      (.use id (.new id cls args pos))
  | typed {t : TypedName} {entry : Entry} : Decorates (.decl t.id entry) (.typed t)
  | var {d : VarDecl} {entry : Entry} : Decorates (.decl d.id entry) (.var d)
  | fn {f : FunDecl} {entry : Entry} : Decorates (.decl f.id entry) (.fn f)
  | cls {c : ClassDecl} {entry : Entry} : Decorates (.decl c.id entry) (.cls c)

theorem Finding.Decorates.id_eq {id : NodeId} {b : Binding} {n : Node}
    (h : (Finding.use id b).Decorates n) :
    n.id = id := by
  cases h <;> rfl

/-- Each of the nodes is decorated, and each binding decorates one of them. -/
structure Decorated (found : List Finding) (nodes : List Node) : Prop where
  covers : ∀ n ∈ nodes, ∃ f ∈ found, f.Decorates n
  stems : ∀ id b, .use id b ∈ found → ∃ n ∈ nodes, (Finding.use id b).Decorates n

namespace Decorated

variable {found more : List Finding} {ms ns : List Node}

theorem nil : Decorated [] [] := ⟨by simp, by simp⟩

theorem single {f : Finding} {n : Node} (h : f.Decorates n) : Decorated [f] [n] := by
  refine ⟨fun m hm => ⟨f, List.mem_cons_self, ?_⟩, fun id b hb => ⟨n, List.mem_cons_self, ?_⟩⟩
  · rwa [List.mem_singleton.mp hm]
  · rwa [List.mem_singleton.mp hb]

/-- Findings of two pieces decorate the nodes of both. -/
theorem append (h : Decorated found ms) (h' : Decorated more ns) :
    Decorated (found ++ more) (ms ++ ns) := by
  constructor
  · intro n hn
    rcases List.mem_append.mp hn with hn | hn
    · obtain ⟨f, hf, hd⟩ := h.covers n hn
      exact ⟨f, List.mem_append_left _ hf, hd⟩
    · obtain ⟨f, hf, hd⟩ := h'.covers n hn
      exact ⟨f, List.mem_append_right _ hf, hd⟩
  · intro id b hb
    rcases List.mem_append.mp hb with hb | hb
    · obtain ⟨n, hn, hd⟩ := h.stems id b hb
      exact ⟨n, List.mem_append_left _ hn, hd⟩
    · obtain ⟨n, hn, hd⟩ := h'.stems id b hb
      exact ⟨n, List.mem_append_right _ hn, hd⟩

/-- The order of findings and of nodes does not matter. -/
theorem congr (h : Decorated found ms) (hf : ∀ f, f ∈ more ↔ f ∈ found)
    (hn : ∀ n, n ∈ ns ↔ n ∈ ms) :
    Decorated more ns := by
  constructor
  · intro n hmem
    obtain ⟨f, hmem', hd⟩ := h.covers n ((hn n).mp hmem)
    exact ⟨f, (hf f).mpr hmem', hd⟩
  · intro id b hb
    obtain ⟨n, hmem, hd⟩ := h.stems id b ((hf _).mp hb)
    exact ⟨n, (hn n).mpr hmem, hd⟩

end Decorated

/-- In a class table, records stand under their names and hold the class type of their layout. -/
def ClassTable.Valid (t : ClassTable) : Prop :=
  ∀ (name : String) (record : ClassRecord), t.records[name]? = some record →
    record.name = name ∧ record.entry.ty = .cls record.layout.classTy

theorem Env.valid_global : Env.global.classes.Valid := by
  intro name record hrecord
  simp [Env.global] at hrecord

mutual

/-- Resolution finds something for every node of an expression if it finds no error. -/
theorem Expr.decorated {env : Env} (hv : env.classes.Valid) :
    ∀ e : Expr, ErrorFree (e.resolve env) → Decorated (e.resolve env) e.nodes
  | .int _ _, _ | .bool _ _, _ | .null _, _ => .nil
  | .name id name pos, h => by
    obtain ⟨b, -, heq⟩ := Env.useName_errorFree h
    rw [Expr.resolve, heq, Expr.nodes]
    exact .single .name
  | .binary _ l r _, h => by
    rw [Expr.resolve, ErrorFree.append] at h
    exact (l.decorated hv h.1).append (r.decorated hv h.2)
  | .not e _, h => e.decorated hv h
  | .ite c y n _, h => by
    rw [Expr.resolve, ErrorFree.append, ErrorFree.append] at h
    exact ((c.decorated hv h.1.1).append (y.decorated hv h.1.2)).append (n.decorated hv h.2)
  | .call id callee args pos, h => by
    rw [Expr.resolve, ErrorFree.cons] at h
    obtain ⟨b, -, heq⟩ := Env.useName_errorFree h.1
    rw [Expr.resolve, heq, Expr.nodes]
    exact (Decorated.single .call).append (argsDecorated hv args h.2)
  | .send id receiver method args pos, h => by
    rw [Expr.resolve, ErrorFree.cons] at h
    obtain ⟨b, cls, record, member, -, -, -, -, heq⟩ := Env.useMethod_errorFree h.1
    rw [Expr.resolve, heq, Expr.nodes]
    exact (Decorated.single .send).append (argsDecorated hv args h.2)
  | .new id cls args pos, h => by
    rw [Expr.resolve, ErrorFree.cons] at h
    obtain ⟨record, hr, heq⟩ := Env.useClass_errorFree h.1
    rw [Expr.resolve, heq, Expr.nodes]
    exact (Decorated.single (.new (hv cls record hr).2)).append (argsDecorated hv args h.2)
  | .print e _, h => e.decorated hv h

/-- The same of the arguments of a call. -/
theorem argsDecorated {env : Env} (hv : env.classes.Valid) :
    ∀ es : List Expr, ErrorFree (resolveArgs env es) → Decorated (resolveArgs env es) (argNodes es)
  | [], _ => .nil
  | e :: es, h => by
    rw [resolveArgs, ErrorFree.append] at h
    exact (e.decorated hv h.1).append (argsDecorated hv es h.2)

end

/-- A record whose entry has the type of its layout keeps the table valid. -/
theorem ClassTable.Valid.add {t : ClassTable} (ht : t.Valid) {record : ClassRecord}
    (hr : record.entry.ty = .cls record.layout.classTy) : (t.add record).Valid := by
  intro name r h
  simp only [ClassTable.add, Std.TreeMap.getElem?_insert, Std.compare_eq_iff_eq] at h
  split at h
  next hname => cases h; exact ⟨hname, hr⟩
  next => exact ht name r h

namespace Env

variable {env : Env}

theorem classes_declareLocal {kind : NameKind} {id : NodeId} {name : String} {pos : SourcePos}
    {ty : Ty} :
    (env.declareLocal kind id name pos ty).1.classes = env.classes := by
  unfold declareLocal declare
  dsimp only
  split <;> rfl

theorem classes_declareParams (ps : List TypedName) :
    (env.declareParams ps).1.classes = env.classes := by
  induction ps generalizing env with
  | nil => rfl
  | cons p ps ih =>
    have hp : (env.declareParam p).1.classes = env.classes := by
      unfold declareParam declare
      dsimp only
      split <;> rfl
    exact (@ih (env.declareParam p).1).trans hp

/-- The declaration of a class keeps the table valid. -/
theorem valid_classHeader (hv : env.classes.Valid) (c : ClassDecl) :
    (env.classHeader c).1.classes.Valid := by
  unfold classHeader declareClass
  dsimp only
  split
  · split
    · exact hv.add rfl
    · exact hv
  · exact hv

end Env

theorem Decl.valid_resolve {env : Env} (hv : env.classes.Valid) (d : Decl) :
    (d.resolve env).1.classes.Valid := by
  cases d with
  | var d =>
    rw [Decl.resolve_var, Env.classes_declareLocal]
    exact hv
  | fn f =>
    rw [Decl.resolve_fn, Env.classes_declareLocal]
    exact hv
  | cls c =>
    rw [Decl.resolve_cls]
    exact Env.valid_classHeader hv c

/-- So do all declarations. -/
theorem valid_resolveDecls {env : Env} (hv : env.classes.Valid) (ds : List Decl) :
    (resolveDecls env ds).1.classes.Valid := by
  induction ds generalizing env with
  | nil => exact hv
  | cons d ds ih =>
    rw [resolveDecls_cons]
    exact ih (d.valid_resolve hv)

/-- There is an entry for every parameter. -/
theorem declareParams_decorated {env : Env} (ps : List TypedName)
    (h : ErrorFree (env.declareParams ps).2) :
    Decorated (env.declareParams ps).2 (ps.map .typed) := by
  induction ps generalizing env with
  | nil => exact .nil
  | cons p ps ih =>
    rw [Env.declareParams_cons, ErrorFree.append] at h
    obtain ⟨scopes, -, heq⟩ := Env.declareParam_errorFree h.1
    rw [Env.declareParams_cons]
    have hp : Decorated (env.declareParam p).2 [.typed p] := by
      rw [heq]
      exact .single .typed
    exact hp.append (ih h.2)

/-- The members of a class are decorated by its header; the bodies of the methods are not part of
it. -/
theorem Env.decorated_classHeader {env : Env} {c : ClassDecl}
    (h : ErrorFree (env.classHeader c).2.2) :
    Decorated (env.classHeader c).2.2 (.cls c :: c.fields.map .typed ++ c.methods.map .fn) := by
  obtain ⟨-, -, hdraft, scopes, -, heq⟩ := Env.classHeader_errorFree h
  rw [heq]
  have hdecl : ∀ m ∈ c.ownMembers, ∃ entry, .decl m.id entry ∈ (env.draftOf c).findings := by
    rw [Env.draftOf, ClassDecl.draft_eq] at hdraft ⊢
    exact ClassDraft.decl_mem_addAll hdraft
  constructor
  · intro n hn
    rw [List.mem_append, List.mem_cons, List.mem_map, List.mem_map] at hn
    rcases hn with (rfl | ⟨t, ht, rfl⟩) | ⟨m, hm, rfl⟩
    · exact ⟨_, List.mem_append_right _ List.mem_cons_self, .cls⟩
    · obtain ⟨entry, hentry⟩ := hdecl _ (List.mem_append_left _ (List.mem_map_of_mem ht))
      exact ⟨_, List.mem_append_left _ hentry, .typed⟩
    · obtain ⟨entry, hentry⟩ := hdecl _ (List.mem_append_right _ (List.mem_map_of_mem hm))
      exact ⟨_, List.mem_append_left _ hentry, .fn⟩
  · intro id b hb
    obtain ⟨more, hmore, huse⟩ := ClassDraft.findings_addAll
      { layout := ((env.parent? c).map (·.layout)).getD {} } c.name c.ownMembers
    rw [Env.draftOf, ClassDecl.draft_eq, hmore] at hb
    simp [huse] at hb

mutual

/-- Resolution finds something for every node of a declaration if it finds no error. -/
theorem Decl.decorated {env : Env} (hv : env.classes.Valid) :
    ∀ d : Decl, ErrorFree (d.resolve env).2 → Decorated (d.resolve env).2 d.nodes
  | .var d, h => by
    rw [Decl.resolve_var, ErrorFree.append] at h
    obtain ⟨scopes, -, heq⟩ := Env.declareLocal_errorFree h.2
    have hdecl : Decorated (env.declareLocal .variable d.id d.name d.pos d.declared.ty).2
        [.var d] := by
      rw [heq]
      exact .single .var
    rw [Decl.resolve_var, Decl.nodes]
    exact ((d.init.decorated hv h.1).append hdecl).congr (fun f => Iff.rfl)
      (fun n => by rw [List.mem_append, List.mem_cons, List.mem_singleton, or_comm])
  | .fn f, h => by
    rw [Decl.resolve_fn, ErrorFree.append] at h
    obtain ⟨scopes, -, heq⟩ := Env.declareLocal_errorFree h.1
    have hdecl : Decorated (env.declareLocal .function f.id f.name f.pos (.arrow f.signature)).2
        [.fn f] := by
      rw [heq]
      exact .single .fn
    rw [Decl.resolve_fn, Decl.nodes]
    have hv' : (env.declareLocal .function f.id f.name f.pos
        (.arrow f.signature)).1.classes.Valid := by
      rw [Env.classes_declareLocal]
      exact hv
    rw [FunDecl.nodes_eq]
    exact hdecl.append (f.decorated hv' h.2)
  | .cls ⟨id, name, superclass, fields, methods, pos⟩, h => by
    rw [Decl.resolve_cls, ErrorFree.append] at h
    rw [Decl.resolve_cls, Decl.nodes_cls, methodNodes_eq]
    have hv' := Env.valid_classHeader hv ⟨id, name, superclass, fields, methods, pos⟩
    have hmethods := @methodsDecorated (Env.enterClass _ _) hv' methods h.2
    refine ((Env.decorated_classHeader h.1).append hmethods).congr (fun f => Iff.rfl) fun n => ?_
    simp [FunDecl.nodes_eq, exists_or, and_or_left]
    grind

/-- The same of a function. -/
theorem FunDecl.decorated {env : Env} (hv : env.classes.Valid) :
    ∀ f : FunDecl, ErrorFree (f.resolve env) → Decorated (f.resolve env) f.innerNodes
  | ⟨id, name, params, result, decls, body, pos⟩, h => by
    rw [FunDecl.resolve_eq, ErrorFree.append, ErrorFree.append] at h
    rw [FunDecl.resolve_eq]
    have hv' : (FunDecl.paramEnv ⟨id, name, params, result, decls, body, pos⟩
        env).classes.Valid := by
      rw [FunDecl.paramEnv, Env.classes_declareParams]
      exact hv
    exact ((declareParams_decorated params h.1.1).append (declsDecorated hv' decls h.1.2)).append
      (body.decorated (valid_resolveDecls hv' decls) h.2)

/-- The same of the methods of a class. -/
theorem methodsDecorated {env : Env} (hv : env.classes.Valid) :
    ∀ ms : List FunDecl, ErrorFree (resolveMethods env ms) →
      Decorated (resolveMethods env ms) (ms.flatMap FunDecl.innerNodes)
  | [], _ => .nil
  | m :: ms, h => by
    rw [resolveMethods, ErrorFree.append] at h
    rw [resolveMethods, List.flatMap_cons]
    exact (m.decorated hv h.1).append (methodsDecorated hv ms h.2)

/-- The same of several declarations. -/
theorem declsDecorated {env : Env} (hv : env.classes.Valid) :
    ∀ ds : List Decl, ErrorFree (resolveDecls env ds).2 →
      Decorated (resolveDecls env ds).2 (declNodes ds)
  | [], _ => .nil
  | d :: ds, h => by
    rw [resolveDecls_cons, ErrorFree.append] at h
    rw [resolveDecls_cons, declNodes]
    exact (d.decorated hv h.1).append (declsDecorated (d.valid_resolve hv) ds h.2)

end

/-! ### Classes on record -/

namespace Env

variable {env : Env}

theorem stack_length_declare {kind : NameKind} {id : NodeId} {name : String} {pos : SourcePos}
    {entry : Entry} :
    (env.declare kind id name pos entry).1.scopes.stack.length = env.scopes.stack.length := by
  unfold declare
  split
  next scopes hs =>
    obtain ⟨scope, outer, hstack, -, rfl⟩ := Scopes.declare?_eq_some.mp hs
    simp [hstack]
  next => rfl

theorem stack_length_declareLocal {kind : NameKind} {id : NodeId} {name : String} {pos : SourcePos}
    {ty : Ty} :
    (env.declareLocal kind id name pos ty).1.scopes.stack.length = env.scopes.stack.length :=
  stack_length_declare

theorem stack_length_declareParams (ps : List TypedName) :
    (env.declareParams ps).1.scopes.stack.length = env.scopes.stack.length := by
  induction ps generalizing env with
  | nil => rfl
  | cons p ps ih =>
    rw [declareParams_cons]
    exact ih.trans stack_length_declare

end Env

theorem Env.stack_length_classHeader {env : Env} (c : ClassDecl) :
    (env.classHeader c).1.scopes.stack.length = env.scopes.stack.length := by
  unfold classHeader declareClass
  dsimp only
  split
  · split
    next scopes hs =>
      obtain ⟨scope, outer, hstack, -, rfl⟩ := Scopes.declare?_eq_some.mp hs
      simp [hstack]
    next => rfl
  · rfl

/-- A declaration leaves as many scopes as it is met with. -/
theorem Decl.stack_length_resolve (env : Env) (d : Decl) :
    (d.resolve env).1.scopes.stack.length = env.scopes.stack.length := by
  cases d with
  | var d =>
    rw [Decl.resolve_var]
    exact Env.stack_length_declareLocal
  | fn f =>
    rw [Decl.resolve_fn]
    exact Env.stack_length_declareLocal
  | cls c =>
    rw [Decl.resolve_cls]
    exact Env.stack_length_classHeader c

theorem Decl.stack_ne_nil_resolve {env : Env} (hstack : env.scopes.stack ≠ []) (d : Decl) :
    (d.resolve env).1.scopes.stack ≠ [] := by
  rw [← List.length_pos_iff, Decl.stack_length_resolve]
  exact List.length_pos_iff.mpr hstack

mutual

/-- There are no classes in the declarations of a body. -/
theorem Decl.cls_notMem_nodes {env : Env} (hdepth : 0 < env.scopes.depth) (c : ClassDecl) :
    ∀ d : Decl, ErrorFree (d.resolve env).2 → .cls c ∉ d.nodes
  | .var d, _ => by
    rw [Decl.nodes, List.mem_cons, not_or]
    exact ⟨nofun, d.init.cls_notMem_nodes c⟩
  | .fn f, h => by
    rw [Decl.resolve_fn, ErrorFree.append] at h
    rw [Decl.nodes, FunDecl.nodes_eq, List.mem_cons, not_or]
    refine ⟨nofun, f.cls_notMem_nodes ?_ c h.2⟩
    rw [← List.length_pos_iff, Env.stack_length_declareLocal]
    unfold Scopes.depth at hdepth
    omega
  | .cls _, h => by
    rw [Decl.resolve_cls, ErrorFree.append] at h
    exact absurd (Env.classHeader_errorFree h.1).1 (Nat.pos_iff_ne_zero.mp hdepth)

/-- There is no class inside a function, since classes are refused there. -/
theorem FunDecl.cls_notMem_nodes {env : Env} (hstack : env.scopes.stack ≠ []) (c : ClassDecl) :
    ∀ f : FunDecl, ErrorFree (f.resolve env) → .cls c ∉ f.innerNodes
  | ⟨id, name, params, result, decls, body, pos⟩, h => by
    rw [FunDecl.resolve_eq, ErrorFree.append, ErrorFree.append] at h
    rw [FunDecl.innerNodes, List.mem_append, List.mem_append, not_or, not_or]
    refine ⟨⟨by simp, decls_cls_notMem_nodes ?_ c decls h.1.2⟩, body.cls_notMem_nodes c⟩
    have hlength : (FunDecl.paramEnv ⟨id, name, params, result, decls, body, pos⟩
        env).scopes.stack.length =
        env.scopes.stack.length + 1 := Env.stack_length_declareParams params
    have := List.length_pos_iff.mpr hstack
    rw [Scopes.depth, hlength]
    omega

/-- There is no class among the declarations inside a function. -/
theorem decls_cls_notMem_nodes {env : Env} (hdepth : 0 < env.scopes.depth) (c : ClassDecl) :
    ∀ ds : List Decl, ErrorFree (resolveDecls env ds).2 → .cls c ∉ declNodes ds
  | [], _ => by simp [declNodes]
  | d :: ds, h => by
    rw [resolveDecls_cons, ErrorFree.append] at h
    rw [declNodes, List.mem_append, not_or]
    refine ⟨d.cls_notMem_nodes hdepth c h.1, decls_cls_notMem_nodes ?_ c ds h.2⟩
    rw [Scopes.depth, Decl.stack_length_resolve]
    exact hdepth

end

/-- Adding a class adds its name. -/
theorem ClassTable.mem_add {t : ClassTable} {record : ClassRecord} {name : String} :
    name ∈ (t.add record).records ↔ record.name = name ∨ name ∈ t.records := by
  simp [ClassTable.add, Std.TreeMap.mem_insert]

theorem methods_cls_notMem_nodes {env : Env} (hstack : env.scopes.stack ≠ []) (c : ClassDecl)
    (ms : List FunDecl) (h : ErrorFree (resolveMethods env ms)) : .cls c ∉ methodNodes ms := by
  induction ms with
  | nil => simp [methodNodes]
  | cons m ms ih =>
    rw [resolveMethods, ErrorFree.append] at h
    rw [methodNodes, FunDecl.nodes_eq, List.mem_append, List.mem_cons, not_or, not_or]
    exact ⟨⟨nofun, m.cls_notMem_nodes hstack c h.1⟩, ih h.2⟩

/-- A declaration holds no class, unless it is one. -/
theorem Decl.eq_of_cls_mem_nodes {env : Env} (hstack : env.scopes.stack ≠ []) {d : Decl}
    (h : ErrorFree (d.resolve env).2) {c : ClassDecl} (hc : .cls c ∈ d.nodes) : d = .cls c := by
  cases d with
  | var d =>
    rcases List.mem_cons.mp (Decl.nodes.eq_1 d ▸ hc) with ⟨⟨⟩⟩ | hc
    exact absurd hc (d.init.cls_notMem_nodes c)
  | fn f =>
    rw [Decl.resolve_fn, ErrorFree.append] at h
    rw [Decl.nodes, FunDecl.nodes_eq, List.mem_cons] at hc
    rcases hc with ⟨⟨⟩⟩ | hc
    refine absurd hc (f.cls_notMem_nodes ?_ c h.2)
    rw [← List.length_pos_iff, Env.stack_length_declareLocal]
    exact List.length_pos_iff.mpr hstack
  | cls c' =>
    rw [Decl.resolve_cls, ErrorFree.append] at h
    rw [Decl.nodes_cls, List.mem_append, List.mem_cons] at hc
    rcases hc with (hc | hc) | hc
    · cases hc
      rfl
    · simp at hc
    · exact absurd hc (methods_cls_notMem_nodes (List.cons_ne_nil _ _) c c'.methods h.2)

/-- After a declaration the classes are on record that were so before, and those in the
declaration. -/
theorem Decl.mem_records_resolve {env : Env} (hstack : env.scopes.stack ≠ []) {d : Decl}
    (h : ErrorFree (d.resolve env).2) :
    (∀ name ∈ env.classes.records, name ∈ (d.resolve env).1.classes.records) ∧
      ∀ c, .cls c ∈ d.nodes → c.name ∈ (d.resolve env).1.classes.records := by
  have hclass := fun c => Decl.eq_of_cls_mem_nodes (c := c) hstack h
  cases d with
  | var d =>
    rw [Decl.resolve_var, Env.classes_declareLocal]
    exact ⟨fun name hname => hname, fun c hc => nomatch hclass c hc⟩
  | fn f =>
    rw [Decl.resolve_fn, Env.classes_declareLocal]
    exact ⟨fun name hname => hname, fun c hc => nomatch hclass c hc⟩
  | cls c =>
    rw [Decl.resolve_cls, ErrorFree.append] at h
    obtain ⟨-, -, -, scopes, hs, heq⟩ := Env.classHeader_errorFree h.1
    rw [Decl.resolve_cls, heq]
    refine ⟨fun name hname => ClassTable.mem_add.mpr (.inr hname), fun c' hc => ?_⟩
    cases hclass c' hc
    exact ClassTable.mem_add.mpr (.inl rfl)

/-- Every class that is declared has a record in the end, and no record is lost on the way. -/
theorem mem_records_resolveDecls {env : Env} (hstack : env.scopes.stack ≠ []) {ds : List Decl}
    (h : ErrorFree (resolveDecls env ds).2) :
    (∀ name ∈ env.classes.records, name ∈ (resolveDecls env ds).1.classes.records) ∧
      ∀ c, .cls c ∈ declNodes ds → c.name ∈ (resolveDecls env ds).1.classes.records := by
  induction ds generalizing env with
  | nil => exact ⟨fun name hname => hname, fun c hc => by simp [declNodes] at hc⟩
  | cons d ds ih =>
    rw [resolveDecls_cons, ErrorFree.append] at h
    obtain ⟨hkept, hown⟩ := Decl.mem_records_resolve hstack h.1
    obtain ⟨hkept', hown'⟩ := ih (Decl.stack_ne_nil_resolve hstack d) h.2
    rw [resolveDecls_cons]
    refine ⟨fun name hname => hkept' name (hkept name hname), fun c hc => ?_⟩
    rcases List.mem_append.mp (declNodes.eq_2 d ds ▸ hc) with hc | hc
    · exact hkept' _ (hown c hc)
    · exact hown' c hc

end Stackling
