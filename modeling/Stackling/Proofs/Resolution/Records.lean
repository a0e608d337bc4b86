import Mathlib.Data.List.Induction
import Stackling.Proofs.Resolution.Tables

/-!
# Classes on record

The class table at the end of resolution, also where there are errors. A class is on record if it is
the first global declaration of its name, and its record is made in the environment before it. The
superclass of a record is on record by then, so facts about records are proved from superclasses
downwards.
-/

namespace Stackling

/-! ### Names in the global scope -/

namespace Scopes

variable {s s' : Scopes} {x y : String} {entry : Entry}

/-- The innermost scope has the name, so that it cannot be declared there. -/
def taken (s : Scopes) (x : String) : Bool :=
  match s.stack with
  | [] => true
  | scope :: _ => scope.contains x

theorem declare?_eq_none : s.declare? x entry = none ↔ s.taken x = true := by
  unfold declare? taken
  cases s.stack with
  | nil => simp
  | cons scope outer => simp

theorem taken_eq_false (h : s.declare? x entry = some s') : s.taken x = false := by
  obtain ⟨scope, outer, hstack, hfree, -⟩ := declare?_eq_some.mp h
  simp only [taken, hstack]
  exact hfree

theorem taken_declare? (h : s.declare? x entry = some s') :
    s'.taken y = true ↔ y = x ∨ s.taken y = true := by
  obtain ⟨scope, outer, hstack, -, rfl⟩ := declare?_eq_some.mp h
  simp only [taken, hstack]
  rw [Std.TreeMap.contains_insert, Bool.or_eq_true, beq_iff_eq, Std.compare_eq_iff_eq, eq_comm]

end Scopes

namespace Env

variable {env : Env} {x : String}

theorem taken_declare {kind : NameKind} {id : NodeId} {name : String} {pos : SourcePos}
    {entry : Entry} :
    (env.declare kind id name pos entry).1.scopes.taken x = true ↔
      x = name ∨ env.scopes.taken x = true := by
  unfold declare
  cases hs : env.scopes.declare? name entry with
  | some scopes => exact Scopes.taken_declare? hs
  | none =>
    refine ⟨.inr, fun h => h.elim ?_ (fun h => h)⟩
    rintro rfl
    exact Scopes.declare?_eq_none.mp hs

/-- The record of a class that is declared next. -/
def recordOf (env : Env) (c : ClassDecl) : ClassRecord := env.classRecord c (env.draftOf c).layout

/-- What a class in the global scope makes of the environment, and what is found. -/
theorem classHeader_global (hdepth : env.scopes.depth = 0) (c : ClassDecl) :
    (∃ scopes, env.scopes.declare? c.name (env.recordOf c).entry = some scopes ∧
      env.classHeader c =
        ({ scopes, frame := (env.frame.allotLocal 1).2,
           classes := env.classes.add (env.recordOf c) },
          (env.draftOf c).layout,
          env.parentFindings c ++ (env.draftOf c).findings ++
            [.decl c.id (env.recordOf c).entry])) ∨
    env.scopes.taken c.name = true ∧
      env.classHeader c =
        ({ env with frame := (env.frame.allotLocal 1).2 }, (env.draftOf c).layout,
          env.parentFindings c ++ (env.draftOf c).findings ++
            [.error (.redeclared .cls c.name c.pos)]) := by
  have hentry : (⟨0, .cls (env.draftOf c).layout.classTy, (env.frame.allotLocal 1).1⟩ : Entry) =
    (env.recordOf c).entry := rfl
  rw [classHeader_eq, if_pos hdepth]
  unfold declareClass
  dsimp only
  rw [hentry]
  cases hs : env.scopes.declare? c.name (env.recordOf c).entry with
  | some scopes => exact .inl ⟨scopes, rfl, rfl⟩
  | none => exact .inr ⟨Scopes.declare?_eq_none.mp hs, rfl⟩

end Env

theorem Decl.depth_resolve (env : Env) (d : Decl) :
    (d.resolve env).1.scopes.depth = env.scopes.depth := by
  rw [Scopes.depth, Scopes.depth, Decl.stack_length_resolve]

theorem Decl.taken_resolve {env : Env} (hdepth : env.scopes.depth = 0) (d : Decl) (x : String) :
    (d.resolve env).1.scopes.taken x = true ↔ x = d.name ∨ env.scopes.taken x = true := by
  cases d with
  | var d =>
    rw [Decl.resolve_var]
    exact Env.taken_declare
  | fn f =>
    rw [Decl.resolve_fn]
    exact Env.taken_declare
  | cls c =>
    rw [Decl.resolve_cls]
    rcases Env.classHeader_global hdepth c with ⟨scopes, hs, heq⟩ | ⟨htaken, heq⟩
    · rw [heq]
      exact Scopes.taken_declare? hs
    · rw [heq]
      refine ⟨.inr, fun h => h.elim ?_ (fun h => h)⟩
      rintro rfl
      exact htaken

theorem depth_resolveDecls (env : Env) (ds : List Decl) :
    (resolveDecls env ds).1.scopes.depth = env.scopes.depth := by
  induction ds generalizing env with
  | nil => rw [resolveDecls]
  | cons d ds ih => rw [resolveDecls_cons, ih, Decl.depth_resolve]

theorem taken_resolveDecls {env : Env} (hdepth : env.scopes.depth = 0) (ds : List Decl)
    (x : String) :
    (resolveDecls env ds).1.scopes.taken x = true ↔
      (∃ d ∈ ds, d.name = x) ∨ env.scopes.taken x = true := by
  induction ds generalizing env with
  | nil => simp [resolveDecls]
  | cons d ds ih =>
    rw [resolveDecls_cons, ih ((d.depth_resolve env).trans hdepth), Decl.taken_resolve hdepth,
      or_left_comm, ← or_assoc, List.exists_mem_cons_iff, eq_comm]

/-- In the global scope, the names of the declarations are taken. -/
theorem taken_global {ds : List Decl} {x : String} :
    (resolveDecls .global ds).1.scopes.taken x = true ↔ ∃ d ∈ ds, d.name = x := by
  rw [taken_resolveDecls rfl]
  simp [Env.global, Scopes.taken, Scopes.push]

theorem resolveDecls_append (env : Env) (ds ds' : List Decl) :
    resolveDecls env (ds ++ ds') = ((resolveDecls (resolveDecls env ds).1 ds').1,
      (resolveDecls env ds).2 ++ (resolveDecls (resolveDecls env ds).1 ds').2) := by
  induction ds generalizing env with
  | nil => simp [resolveDecls]
  | cons d ds ih =>
    rw [List.cons_append, resolveDecls_cons, resolveDecls_cons, ih, List.append_assoc]

/-! ### The class table -/

/-- The class table after a declaration in the global scope. -/
theorem Decl.classes_resolve {env : Env} (hdepth : env.scopes.depth = 0) (d : Decl) :
    (d.resolve env).1.classes = env.classes ∧ (∀ c, d = .cls c → env.scopes.taken c.name = true) ∨
      ∃ c, d = .cls c ∧ env.scopes.taken c.name = false ∧
        (d.resolve env).1.classes = env.classes.add (env.recordOf c) := by
  cases d with
  | var d =>
    rw [Decl.resolve_var]
    exact .inl ⟨Env.classes_declareLocal, nofun⟩
  | fn f =>
    rw [Decl.resolve_fn]
    exact .inl ⟨Env.classes_declareLocal, nofun⟩
  | cls c =>
    rw [Decl.resolve_cls]
    rcases Env.classHeader_global hdepth c with ⟨scopes, hs, heq⟩ | ⟨htaken, heq⟩
    · refine .inr ⟨c, rfl, Scopes.taken_eq_false hs, ?_⟩
      rw [heq]
    · rw [heq]
      refine .inl ⟨rfl, ?_⟩
      rintro _ ⟨⟩
      exact htaken

/-- A class is the first of the declarations that has its name, and `env` is the environment before
it. -/
def Records (ds : List Decl) (c : ClassDecl) (env : Env) : Prop :=
  ∃ before after, ds = before ++ .cls c :: after ∧ (∀ d ∈ before, d.name ≠ c.name) ∧
    env = (resolveDecls .global before).1

namespace Records

variable {ds : List Decl} {c : ClassDecl} {env : Env}

theorem append (h : Records ds c env) (more : List Decl) : Records (ds ++ more) c env := by
  obtain ⟨before, after, rfl, hfirst, rfl⟩ := h
  exact ⟨before, after ++ more, by simp, hfirst, rfl⟩

theorem append_singleton_iff {d : Decl} : Records (ds ++ [d]) c env ↔
    Records ds c env ∨ d = .cls c ∧ (∀ d ∈ ds, d.name ≠ c.name) ∧
    env = (resolveDecls .global ds).1 := by
  constructor
  · rintro ⟨before, after, hds, hfirst, rfl⟩
    rcases List.eq_nil_or_concat after with rfl | ⟨init, last, rfl⟩
    · obtain ⟨rfl, hd⟩ := List.append_inj' hds rfl
      cases hd
      exact .inr ⟨rfl, hfirst, rfl⟩
    · rw [List.concat_eq_append, ← List.cons_append, ← List.append_assoc] at hds
      exact .inl ⟨before, init, List.append_inj_left' hds rfl, hfirst, rfl⟩
  · rintro (h | ⟨rfl, hfirst, rfl⟩)
    · exact h.append [d]
    · exact ⟨ds, [], rfl, hfirst, rfl⟩

/-- The class table holds the records of the classes that come first. -/
theorem iff_getElem? (ds : List Decl) (x : String) (record : ClassRecord) :
    (resolveDecls .global ds).1.classes.records[x]? = some record ↔
      ∃ c env, Records ds c env ∧ c.name = x ∧ record = env.recordOf c := by
  induction ds using List.reverseRecOn generalizing x record with
  | nil =>
    constructor
    · intro h
      rw [resolveDecls, show Env.global.classes.records = ∅ from rfl] at h
      simp at h
    · rintro ⟨c, env, ⟨before, after, hds, -⟩, -⟩
      simp at hds
  | append_singleton ds d ih =>
    have hglobal : (resolveDecls .global ds).1.scopes.depth = 0 := depth_resolveDecls _ ds
    have hsplit : (resolveDecls .global (ds ++ [d])).1 =
        (d.resolve (resolveDecls .global ds).1).1 := by
      rw [resolveDecls_append, resolveDecls_cons, resolveDecls]
    rw [hsplit]
    rcases Decl.classes_resolve hglobal d with ⟨hclasses, hold⟩ | ⟨c, rfl, hnew, hclasses⟩
    · -- nothing is recorded, so the declaration is not a class that comes first
      have hsame : ∀ c env, Records (ds ++ [d]) c env ↔ Records ds c env := by
        intro c env
        rw [append_singleton_iff]
        refine or_iff_left ?_
        rintro ⟨rfl, hfirst, -⟩
        obtain ⟨d, hd, hname⟩ := taken_global.mp (hold c rfl)
        exact hfirst d hd hname
      simp only [hclasses, ih, hsame]
    · have hfirst : ∀ d ∈ ds, d.name ≠ c.name := by
        intro d hd hname
        rw [← Bool.not_eq_true, taken_global] at hnew
        exact hnew ⟨d, hd, hname⟩
      rw [hclasses, ClassTable.getElem?_add]
      simp only [append_singleton_iff, Decl.cls.injEq]
      split
      next hname =>
        constructor
        · rintro ⟨⟩
          exact ⟨c, _, .inr ⟨rfl, hfirst, rfl⟩, hname, rfl⟩
        · rintro ⟨c', env, ⟨before, after, rfl, -⟩ | ⟨rfl, -, rfl⟩, hname', rfl⟩
          · exact absurd (hname'.trans hname.symm) (hfirst (.cls c') (by simp))
          · rfl
      next hname =>
        rw [ih]
        constructor
        · rintro ⟨c', env, hrec, hrest⟩
          exact ⟨c', env, .inl hrec, hrest⟩
        · rintro ⟨c', env, hrec | ⟨rfl, -, -⟩, hname', hrecord⟩
          · exact ⟨c', env, hrec, hname', hrecord⟩
          · exact absurd hname' hname

theorem mem (h : Records ds c env) : .cls c ∈ ds := by
  obtain ⟨before, after, rfl, -⟩ := h
  simp

theorem find? (h : Records ds c env) : ds.find? (·.name = c.name) = some (.cls c) := by
  obtain ⟨before, after, rfl, hfirst, -⟩ := h
  have hnone : before.find? (·.name = c.name) = none := by
    simpa using hfirst
  rw [List.find?_append, hnone, Option.none_or]
  exact List.find?_cons_of_pos (by simp [Decl.name])

theorem depth_eq_zero (h : Records ds c env) : env.scopes.depth = 0 := by
  obtain ⟨before, after, -, -, rfl⟩ := h
  exact depth_resolveDecls _ before

theorem taken_eq_false (h : Records ds c env) : env.scopes.taken c.name = false := by
  obtain ⟨before, after, -, hfirst, rfl⟩ := h
  rw [← Bool.not_eq_true, taken_resolveDecls rfl]
  rintro (⟨d, hd, hname⟩ | hglobal)
  · exact hfirst d hd hname
  · simp [Env.global, Scopes.taken, Scopes.push] at hglobal

/-- A class on record is declared where it stands. -/
theorem classHeader (h : Records ds c env) : (env.classHeader c).2.2 =
    env.parentFindings c ++ (env.draftOf c).findings ++ [.decl c.id (env.recordOf c).entry] := by
  rcases Env.classHeader_global h.depth_eq_zero c with ⟨scopes, -, heq⟩ | ⟨htaken, -⟩
  · rw [heq]
  · rw [h.taken_eq_false] at htaken
    cases htaken

/-- The record of the superclass was made before. -/
theorem parent (h : Records ds c env) {record : ClassRecord}
    (hparent : env.parent? c = some record) :
    ∃ before after c' env', ds = before ++ .cls c :: after ∧ Records before c' env' ∧
      c.superclass = some c'.name ∧ record = env'.recordOf c' := by
  obtain ⟨before, after, rfl, -, rfl⟩ := h
  obtain ⟨s, hs, hrecord⟩ := Option.bind_eq_some_iff.mp hparent
  obtain ⟨c', env', hrec, rfl, rfl⟩ := (iff_getElem? before s record).mp hrecord
  exact ⟨before, after, c', env', rfl, hrec, hs, rfl⟩

/-- What holds of a class if it holds of its superclass holds of all classes on record. -/
theorem induction {motive : ClassDecl → Env → Prop}
    (step : ∀ c env, Records ds c env →
      (∀ record, env.parent? c = some record → ∃ c' env', Records ds c' env' ∧
        c.superclass = some c'.name ∧ record = env'.recordOf c' ∧ motive c' env') → motive c env)
    (h : Records ds c env) : motive c env := by
  have hprefix : ∀ (n : Nat) (before after : List Decl) (c : ClassDecl) (env : Env),
      before.length = n → ds = before ++ after → Records before c env → motive c env := by
    intro n
    induction n using Nat.strongRecOn with
    | _ n ih =>
      intro before after c env hn hds hrec
      refine step c env (hds ▸ hrec.append after) fun record hparent => ?_
      obtain ⟨before', after', c', env', rfl, hrec', hsuper, rfl⟩ := hrec.parent hparent
      rw [List.append_assoc] at hds
      refine ⟨c', env', hds ▸ hrec'.append _, hsuper, rfl,
        ih before'.length ?_ before' _ c' env' rfl hds hrec'⟩
      rw [← hn, List.length_append, List.length_cons]
      omega
  exact hprefix ds.length ds [] c env rfl (List.append_nil ds).symm h

theorem getElem?_eq_none_of_forall_ne {x : String} (h : ∀ d ∈ ds, d.name ≠ x) :
    (resolveDecls .global ds).1.classes.records[x]? = none := by
  refine Option.eq_none_iff_forall_ne_some.mpr fun record hrecord => ?_
  obtain ⟨c, env, hrec, rfl, -⟩ := (iff_getElem? ds x record).mp hrecord
  exact h _ hrec.mem rfl

end Records

/-! ### Links -/

/-- The hierarchy has the superclasses of the records. -/
def ClassTable.Linked (t : ClassTable) : Prop :=
  ∀ name, t.hierarchy.superclass? name = t.records[name]?.bind (·.superclass)

theorem Hierarchy.superclass?_add {h : Hierarchy} {c s x : String} :
    (h.add c s).superclass? x = if c = x then some s else h.superclass? x := by
  simp only [superclass?, add, Std.TreeMap.getElem?_insert, Std.compare_eq_iff_eq]

theorem ClassTable.Linked.add {t : ClassTable} (h : t.Linked) {record : ClassRecord}
    (hnew : t.records[record.name]? = none) : (t.add record).Linked := by
  intro name
  have hold := h name
  rw [ClassTable.getElem?_add]
  unfold ClassTable.add
  by_cases hname : record.name = name
  · subst hname
    rw [hnew] at hold
    cases hsuper : record.superclass with
    | none => simpa [hsuper] using hold
    | some s => simp [hsuper, Hierarchy.superclass?_add]
  · rw [if_neg hname]
    cases record.superclass with
    | none => exact hold
    | some s => rwa [Hierarchy.superclass?_add, if_neg hname]

theorem linked_resolveDecls (ds : List Decl) : (resolveDecls .global ds).1.classes.Linked := by
  induction ds using List.reverseRecOn with
  | nil =>
    intro name
    simp [resolveDecls, Env.global, Hierarchy.superclass?]
  | append_singleton ds d ih =>
    rw [resolveDecls_append, resolveDecls_cons, resolveDecls]
    rcases Decl.classes_resolve (depth_resolveDecls .global ds) d with ⟨hclasses, -⟩ |
      ⟨c, -, hnew, hclasses⟩
    · rw [hclasses]
      exact ih
    · rw [hclasses]
      rw [← Bool.not_eq_true, taken_global] at hnew
      exact ih.add (Records.getElem?_eq_none_of_forall_ne fun d hd hname => hnew ⟨d, hd, hname⟩)

/-! ### Classes of a program -/

/-- Classes are declared on their own, not in other declarations. -/
theorem cls_mem_of_mem_declNodes {env : Env} {ds : List Decl} (hstack : env.scopes.stack ≠ [])
    (h : ErrorFree (resolveDecls env ds).2) {c : ClassDecl} (hc : .cls c ∈ declNodes ds) :
    .cls c ∈ ds := by
  induction ds generalizing env with
  | nil => cases hc
  | cons d ds ih =>
    rw [resolveDecls_cons, ErrorFree.append] at h
    rcases List.mem_append.mp hc with hc | hc
    · rw [Decl.eq_of_cls_mem_nodes hstack h.1 hc]
      exact List.mem_cons_self
    · exact List.mem_cons_of_mem d (ih (Decl.stack_ne_nil_resolve hstack d) h.2 hc)

namespace Program

variable {p : Program} {c : ClassDecl} {env : Env}

theorem class?_eq_some_iff {x : String} {record : ClassRecord} :
    p.resolve.class? x = some record ↔
      ∃ c env, Records p.decls c env ∧ c.name = x ∧ record = env.recordOf c :=
  Records.iff_getElem? p.decls x record

theorem class?_of_records (h : Records p.decls c env) :
    p.resolve.class? c.name = some (env.recordOf c) :=
  class?_eq_some_iff.mpr ⟨c, env, h, rfl, rfl⟩

theorem linked (p : Program) : p.resolve.classes.Linked := linked_resolveDecls p.decls

theorem mem_findings_of_mem_resolve {before after : List Decl} {d : Decl}
    (hds : p.decls = before ++ d :: after) {f : Finding}
    (hf : f ∈ (d.resolve (resolveDecls .global before).1).2) : f ∈ p.findings := by
  rw [findings, hds]
  refine List.mem_append_left _ ?_
  rw [resolveDecls_append, resolveDecls_cons]
  exact List.mem_append_right _ (List.mem_append_left _ hf)

/-- What is found in a class on record is found in the program. -/
theorem mem_findings_of_records (h : Records p.decls c env) {f : Finding}
    (hf : f ∈ (env.draftOf c).findings ∨ f = .decl c.id (env.recordOf c).entry) :
    f ∈ p.findings := by
  have hheader := h.classHeader
  obtain ⟨before, after, hds, -, rfl⟩ := h
  refine mem_findings_of_mem_resolve hds ?_
  rw [Decl.resolve_cls, hheader]
  refine List.mem_append_left _ ?_
  rcases hf with hf | rfl
  · exact List.mem_append_left _ (List.mem_append_right _ hf)
  · exact List.mem_append_right _ List.mem_cons_self

/-- Classes are declared in the global scope only. -/
theorem cls_mem_decls (h : p.resolve.errors = []) (hc : .cls c ∈ p.nodes) : .cls c ∈ p.decls := by
  have hfree := (ErrorFree.append.mp (errorFree_findings h)).1
  rcases List.mem_append.mp hc with hc | hc
  · exact cls_mem_of_mem_declNodes (List.cons_ne_nil _ _) hfree hc
  · exact absurd hc (p.body.cls_notMem_nodes c)

/-- In a program without errors all classes are on record. -/
theorem exists_records (h : p.resolve.errors = []) (hc : .cls c ∈ p.nodes) :
    ∃ env, Records p.decls c env ∧ ErrorFree (env.parentFindings c) ∧
      ErrorFree (env.draftOf c).findings := by
  obtain ⟨before, after, hds⟩ := List.append_of_mem (cls_mem_decls h hc)
  have hheader : ErrorFree ((resolveDecls .global before).1.classHeader c).2.2 := by
    intro e he
    refine errorFree_findings h e (mem_findings_of_mem_resolve hds ?_)
    rw [Decl.resolve_cls]
    exact List.mem_append_left _ he
  obtain ⟨-, hparent, hdraft, scopes, hs, -⟩ := Env.classHeader_errorFree hheader
  refine ⟨_, ⟨before, after, hds, fun d hd hname => ?_, rfl⟩, hparent, hdraft⟩
  have htaken := Scopes.taken_eq_false hs
  rw [taken_global.mpr ⟨d, hd, hname⟩] at htaken
  cases htaken

end Program

end Stackling
