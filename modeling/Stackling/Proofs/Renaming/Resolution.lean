import Stackling.Proofs.Renaming.Tables
import Stackling.Proofs.Resolution.Tables

/-!
# Resolution under other names

The walk through a renamed program meets renamed environments and notes the same findings under the
new names, one after the other, errors included. What is looked up may be a name that nobody
declared, and what is declared may be taken: both happen to a name just if they happen to the new
one.
-/

namespace Stackling

variable {f : String → String}

/-- Two environments differ in names only: scopes and classes are renamed, and the frame is the
same. -/
structure Env.Renames (f : String → String) (env env' : Env) : Prop where
  scopes : env.scopes.Renames f env'.scopes
  frame : env'.frame = env.frame
  classes : env.classes.Renames f env'.classes

/-- Two declarations leave renamed environments, and what is found at them differs in names only. -/
structure Env.RenamesStep (f : String → String) (step step' : Env × List Finding) : Prop where
  env : step.1.Renames f step'.1
  found : step'.2 = step.2.map (Finding.rename f)

namespace Env.Renames

variable {env env' : Env}

/-! ### Uses -/

/-- Resolving the use of a name under another name is renaming what is found, be it an error or
not. -/
theorem useName_eq (h : env.Renames f env') (kind : NameKind) (id : NodeId) (name : String)
    (pos : SourcePos) :
    env'.useName kind id (f name) default = (env.useName kind id name pos).rename f := by
  rw [useName, useName, h.scopes.use?_eq]
  cases env.scopes.use? name <;> rfl

/-- The same of the name of a class. -/
theorem useClass_eq (h : env.Renames f env') (id : NodeId) (name : String) (pos : SourcePos) :
    env'.useClass id (f name) default = (env.useClass id name pos).rename f := by
  rw [useClass, useClass, h.scopes.depth_eq]
  rcases h.classes.records.getElem?_cases name with ⟨ht, ht'⟩ | ⟨r, r', ht, ht', hr⟩
  · rw [ht, ht']
    rfl
  · rw [ht, ht']
    simp only [hr.entry]
    rfl

/-- The same of a method call, which looks up a receiver, its class and a method in it. -/
theorem useMethod_eq (h : env.Renames f env') (id : NodeId) (receiver method : String)
    (pos : SourcePos) :
    env'.useMethod id (f receiver) (f method) default =
      (env.useMethod id receiver method pos).rename f := by
  rw [useMethod, useMethod, h.scopes.use?_eq]
  rcases env.scopes.use? receiver with _ | ⟨⟨depth, ty, offset⟩, n⟩
  · rfl
  · -- the type of the receiver was renamed with its entry, so its class is asked for under the
    -- new name
    cases ty with
    | ref cls =>
      simp only [Option.map_some, Binding.rename, Entry.rename, Ty.rename]
      rcases h.classes.records.getElem?_cases cls with ⟨ht, ht'⟩ | ⟨r, r', ht, ht', hr⟩
      · rw [ht, ht']
        rfl
      · rw [ht, ht']
        simp only [hr.layout.method?_eq]
        cases r.layout.method? method <;> rfl
    | int | bool | null | arrow | method | cls => rfl

/-! ### Declarations in a frame -/

theorem withFrame (h : env.Renames f env') (frame : Frame) :
    { env with frame }.Renames f { env' with frame } :=
  ⟨h.scopes, rfl, h.classes⟩

/-- A declaration under another name makes renamed environments, and it is refused under both names
or under none. -/
theorem declare (hf : Function.Injective f) (h : env.Renames f env') (kind : NameKind) (id : NodeId)
    (name : String) (pos : SourcePos) (entry : Entry) :
    RenamesStep f (env.declare kind id name pos entry)
      (env'.declare kind id (f name) default (entry.rename f)) := by
  have hrel := h.scopes.declare? hf name entry
  rw [Env.declare, Env.declare]
  generalize env.scopes.declare? name entry = s,
    env'.scopes.declare? (f name) (entry.rename f) = s' at hrel
  cases hrel with
  | none => exact ⟨h, rfl⟩
  | some hscopes => exact ⟨⟨hscopes, h.frame, h.classes⟩, rfl⟩

/-- The same of a declaration in the current frame, which takes the same cells. -/
theorem declareLocal (hf : Function.Injective f) (h : env.Renames f env') (kind : NameKind)
    (id : NodeId) (name : String) (pos : SourcePos) (ty : Ty) :
    RenamesStep f (env.declareLocal kind id name pos ty)
      (env'.declareLocal kind id (f name) default (ty.rename f)) := by
  rw [Env.declareLocal, Env.declareLocal, h.frame, h.scopes.depth_eq, Ty.cells_rename]
  exact (h.withFrame _).declare hf kind id name pos _

/-- The same of a parameter. -/
theorem declareParam (hf : Function.Injective f) (h : env.Renames f env') (p : TypedName) :
    RenamesStep f (env.declareParam p) (env'.declareParam (p.rename f)) := by
  simp only [Env.declareParam, TypedName.rename, h.frame, h.scopes.depth_eq, WrittenTy.ty_rename,
    Ty.cells_rename]
  exact (h.withFrame _).declare hf .parameter p.id p.name p.pos _

/-- The same of all parameters of a function. -/
theorem declareParams (hf : Function.Injective f) (h : env.Renames f env') (ps : List TypedName) :
    RenamesStep f (env.declareParams ps) (env'.declareParams (ps.map (·.rename f))) := by
  induction ps generalizing env env' with
  | nil => exact ⟨h, rfl⟩
  | cons p ps ih =>
    have hfirst := h.declareParam hf p
    have hrest := ih hfirst.env
    rw [List.map_cons, declareParams_cons, declareParams_cons]
    exact ⟨hrest.env, by rw [hfirst.found, hrest.found, List.map_append]⟩

/-- A body is entered in renamed environments alike. -/
theorem enterBody (h : env.Renames f env') : env.enterBody.Renames f env'.enterBody :=
  ⟨h.scopes.push .empty, rfl, h.classes⟩

/-- So is a class, if its layout is renamed. -/
theorem enterClass (h : env.Renames f env') {l l' : ObjectLayout} (hl : l.Renames f l') :
    (env.enterClass l).Renames f (env'.enterClass l') :=
  ⟨h.scopes.push hl.scope, h.frame, h.classes⟩

end Env.Renames

/-! ### Members -/

/-- Two drafts of a class differ in names only. -/
structure ClassDraft.Renames (f : String → String) (d d' : ClassDraft) : Prop where
  layout : d.layout.Renames f d'.layout
  seen : d'.seen = d.seen.map f
  findings : d'.findings = d.findings.map (Finding.rename f)

/-- A member of a class under another name. -/
def OwnMember.rename (f : String → String) (m : OwnMember) : OwnMember :=
  ⟨m.id, f m.name, default, m.ty.rename f⟩

/-- The own members of a renamed class are its renamed members, in the same order. -/
theorem ClassDecl.ownMembers_rename (c : ClassDecl) :
    (c.rename f).ownMembers = c.ownMembers.map (OwnMember.rename f) := by
  simp only [ownMembers, fields_rename, methods_rename, renameMethods_eq_map, List.map_append,
    List.map_map, Function.comp_def, FunDecl.id_rename, FunDecl.name_rename, FunDecl.pos_rename,
    FunDecl.signature_rename, TypedName.rename, WrittenTy.ty_rename, OwnMember.rename, Ty.rename]

namespace ClassDraft.Renames

variable {d d' : ClassDraft}

/-- A member that is refused leaves an error in both drafts. -/
theorem reject (h : d.Renames f d') (name : String) (e : ScopeError) :
    Renames f { d with seen := name :: d.seen, findings := d.findings ++ [.error e] }
      { d' with seen := f name :: d'.seen, findings := d'.findings ++ [.error (e.rename f)] } where
  layout := h.layout
  seen := by rw [h.seen, List.map_cons]
  findings := by
    rw [h.findings, List.map_append]
    rfl

/-- A member that is placed has the same place in both drafts. -/
theorem accept (h : d.Renames f d') (id : NodeId) (name : String)
    {placed placed' : Member × ObjectLayout}
    (hplaced : ObjectLayout.RenamesPlaced f placed placed') :
    Renames f
      { layout := placed.2, seen := name :: d.seen,
        findings := d.findings ++ [.decl id placed.1.entry, .position id placed.1.position] }
      { layout := placed'.2, seen := f name :: d'.seen,
        findings :=
          d'.findings ++ [.decl id placed'.1.entry, .position id placed'.1.position] } where
  layout := hplaced.layout
  seen := by rw [h.seen, List.map_cons]
  findings := by
    rw [h.findings, hplaced.member, List.map_append]
    rfl

/-- Adding a member under another name keeps drafts renamed: it is placed or refused in both. -/
theorem addMember (hf : Function.Injective f) (h : d.Renames f d') (cls : String) (id : NodeId)
    (name : String) (pos : SourcePos) (ty : Ty) :
    (d.addMember cls id name pos ty).Renames f
    (d'.addMember (f cls) id (f name) default (ty.rename f)) := by
  have hseen : f name ∈ d'.seen ↔ name ∈ d.seen := by rw [h.seen, List.mem_map_of_injective hf]
  unfold ClassDraft.addMember
  simp only [hseen, h.layout.members.getElem?_eq, Ty.isMethod_rename]
  by_cases hmem : name ∈ d.seen
  · rw [if_pos hmem, if_pos hmem]
    exact h.reject name _
  · rw [if_neg hmem, if_neg hmem]
    cases d.layout.members[name]? with
    | none =>
      by_cases hmethod : ty.isMethod = true
      · simp only [hmethod, if_true, Option.map_none]
        exact h.accept id name (h.layout.addMethod hf name ty)
      · simp only [hmethod, Option.map_none]
        exact h.accept id name (h.layout.addField hf name ty)
    | some inherited =>
      simp only [Option.map_some, Member.isMethod_rename]
      by_cases hkind : inherited.isMethod = ty.isMethod
      · rw [if_pos hkind, if_pos hkind]
        exact h.accept id name (h.layout.override hf name inherited ty)
      · rw [if_neg hkind, if_neg hkind]
        exact h.reject name _

/-- Adding all members keeps drafts renamed. -/
theorem addAll (hf : Function.Injective f) (h : d.Renames f d') (cls : String)
    (ms : List OwnMember) :
    (d.addAll cls ms).Renames f (d'.addAll (f cls) (ms.map (OwnMember.rename f))) := by
  induction ms generalizing d d' with
  | nil => exact h
  | cons m ms ih => exact ih (h.addMember hf cls m.id m.name m.pos m.ty)

end ClassDraft.Renames

/-! ### Classes -/

/-- What the declaration of a class makes of an environment, by whether the name is free. -/
theorem Env.declareClass_eq (env : Env) (c : ClassDecl) (l : ObjectLayout) :
    env.declareClass c l =
      match env.scopes.declare? c.name (env.classEntry l) with
      | some scopes =>
        ({ scopes, frame := (env.frame.allotLocal 1).2,
           classes := env.classes.add (env.classRecord c l) },
          [.decl c.id (env.classEntry l)])
      | none =>
        ({ env with frame := (env.frame.allotLocal 1).2 },
          [.error (.redeclared .cls c.name c.pos)]) := rfl

namespace Env.Renames

variable {env env' : Env}

/-- The superclass of a renamed class is the renamed superclass. -/
theorem parent? (h : env.Renames f env') (c : ClassDecl) :
    Option.Rel (ClassRecord.Renames f) (env.parent? c) (env'.parent? (c.rename f)) := by
  rw [Env.parent?, Env.parent?, ClassDecl.superclass_rename]
  cases c.superclass with
  | none => exact .none
  | some s => exact h.classes.records.rel s

/-- An unknown superclass is reported under both names. -/
theorem parentFindings_eq (h : env.Renames f env') (c : ClassDecl) :
    env'.parentFindings (c.rename f) = (env.parentFindings c).map (Finding.rename f) := by
  rw [parentFindings, parentFindings, ClassDecl.superclass_rename, ClassDecl.name_rename,
    ClassDecl.pos_rename]
  cases c.superclass with
  | none => rfl
  | some s =>
    simp only [Option.map_some, h.classes.records.contains_eq]
    split <;> rfl

/-- The drafts of a class and of the renamed class differ in names only. -/
theorem draftOf (hf : Function.Injective f) (h : env.Renames f env') (c : ClassDecl) :
    (env.draftOf c).Renames f (env'.draftOf (c.rename f)) := by
  have hinherited : ObjectLayout.Renames f (((env.parent? c).map (·.layout)).getD {})
      (((env'.parent? (c.rename f)).map (·.layout)).getD {}) := by
    have hparent := h.parent? c
    generalize env.parent? c = r, env'.parent? (c.rename f) = r' at hparent
    cases hparent with
    | none => exact .empty
    | some hr => exact hr.layout
  rw [Env.draftOf, Env.draftOf, ClassDecl.draft_eq, ClassDecl.draft_eq, ClassDecl.ownMembers_rename,
    ClassDecl.name_rename]
  exact ClassDraft.Renames.addAll hf ⟨hinherited, rfl, rfl⟩ c.name c.ownMembers

/-- So do the records. -/
theorem classRecord (h : env.Renames f env') (c : ClassDecl) {l l' : ObjectLayout}
    (hl : l.Renames f l') :
    (env.classRecord c l).Renames f (env'.classRecord (c.rename f) l') where
  name := ClassDecl.name_rename c
  superclass := by
    have hparent := h.parent? c
    simp only [Env.classRecord]
    generalize env.parent? c = r, env'.parent? (c.rename f) = r' at hparent
    cases hparent with
    | none => rfl
    | some hr => exact congrArg some hr.name
  entry := by
    simp only [Env.classRecord, Env.classEntry, h.frame, hl.classTy]
    rfl
  layout := hl

/-- A class is declared under another name like under its own. -/
theorem declareClass (hf : Function.Injective f) (h : env.Renames f env') (c : ClassDecl)
    {l l' : ObjectLayout} (hl : l.Renames f l') :
    RenamesStep f (env.declareClass c l) (env'.declareClass (c.rename f) l') := by
  have hrecord := h.classRecord c hl
  have hentry : env'.classEntry l' = (env.classEntry l).rename f := hrecord.entry
  have hrel := h.scopes.declare? hf c.name (env.classEntry l)
  rw [declareClass_eq, declareClass_eq, ClassDecl.name_rename, ClassDecl.id_rename,
    ClassDecl.pos_rename, h.frame, hentry]
  generalize env.scopes.declare? c.name (env.classEntry l) = s,
    env'.scopes.declare? (f c.name) ((env.classEntry l).rename f) = s' at hrel
  cases hrel with
  | none => exact ⟨h.withFrame _, rfl⟩
  | some hscopes => exact ⟨⟨hscopes, rfl, h.classes.add hf hrecord⟩, rfl⟩

/-- The environment after a class, its layout and what is found, all renamed. -/
theorem classHeader (hf : Function.Injective f) (h : env.Renames f env') (c : ClassDecl) :
    (env.classHeader c).1.Renames f (env'.classHeader (c.rename f)).1 ∧
      (env.classHeader c).2.1.Renames f (env'.classHeader (c.rename f)).2.1 ∧
      (env'.classHeader (c.rename f)).2.2 = (env.classHeader c).2.2.map (Finding.rename f) := by
  have hdraft := h.draftOf hf c
  have hdeclare := h.declareClass hf c hdraft.layout
  rw [classHeader_eq, classHeader_eq, h.scopes.depth_eq, h.parentFindings_eq, hdraft.findings,
    hdeclare.found]
  split
  · exact ⟨hdeclare.env, hdraft.layout, by simp only [List.map_append]⟩
  · refine ⟨h, hdraft.layout, ?_⟩
    simp only [List.map_cons, List.map_append, Finding.rename, ScopeError.rename,
      ClassDecl.name_rename, ClassDecl.pos_rename]

end Env.Renames

/-! ### The walk -/

mutual

/-- The findings in a renamed expression are the renamed findings. -/
theorem Expr.resolve_rename {env env' : Env} (h : env.Renames f env') :
    ∀ e : Expr, (e.rename f).resolve env' = (e.resolve env).map (Finding.rename f)
  | .int _ _ | .bool _ _ | .null _ => rfl
  | .name id name pos => by
    rw [Expr.rename, Expr.resolve, Expr.resolve, h.useName_eq .identifier id name pos]
    rfl
  | .binary _ left right _ => by
    simp only [Expr.rename, Expr.resolve, Expr.resolve_rename h left, Expr.resolve_rename h right,
      List.map_append]
  | .not operand _ => by
    simp only [Expr.rename, Expr.resolve, Expr.resolve_rename h operand]
  | .ite cond yes no _ => by
    simp only [Expr.rename, Expr.resolve, Expr.resolve_rename h cond, Expr.resolve_rename h yes,
      Expr.resolve_rename h no, List.map_append]
  | .call id callee args pos => by
    rw [Expr.rename, Expr.resolve, Expr.resolve, resolveArgs_rename h args,
      h.useName_eq .function id callee pos]
    rfl
  | .send id receiver method args pos => by
    rw [Expr.rename, Expr.resolve, Expr.resolve, resolveArgs_rename h args,
      h.useMethod_eq id receiver method pos]
    rfl
  | .new id cls args pos => by
    rw [Expr.rename, Expr.resolve, Expr.resolve, resolveArgs_rename h args,
      h.useClass_eq id cls pos]
    rfl
  | .print value _ => by
    simp only [Expr.rename, Expr.resolve, Expr.resolve_rename h value]

theorem resolveArgs_rename {env env' : Env} (h : env.Renames f env') :
    ∀ es, resolveArgs env' (renameArgs f es) = (resolveArgs env es).map (Finding.rename f)
  | [] => rfl
  | e :: es => by
    simp only [renameArgs, resolveArgs, Expr.resolve_rename h e, resolveArgs_rename h es,
      List.map_append]

end

mutual

/-- A renamed declaration makes renamed environments and has the renamed findings. -/
theorem Decl.resolve_rename (hf : Function.Injective f) {env env' : Env} (h : env.Renames f env') :
    ∀ d : Decl, Env.RenamesStep f (d.resolve env) ((d.rename f).resolve env')
  | .var d => by
    have hstep := h.declareLocal hf .variable d.id d.name d.pos d.declared.ty
    rw [Decl.rename, Decl.resolve_var, Decl.resolve_var]
    simp only [VarDecl.rename, WrittenTy.ty_rename]
    exact ⟨hstep.env, by rw [hstep.found, Expr.resolve_rename h d.init, List.map_append]⟩
  | .fn d => by
    have hstep := h.declareLocal hf .function d.id d.name d.pos (.arrow d.signature)
    have hbody := FunDecl.resolve_rename hf hstep.env d
    rw [Decl.rename, Decl.resolve_fn, Decl.resolve_fn]
    simp only [FunDecl.id_rename, FunDecl.name_rename, FunDecl.pos_rename, FunDecl.signature_rename]
    exact ⟨hstep.env, by rw [List.map_append, ← hbody, ← hstep.found]; rfl⟩
  | .cls ⟨id, name, superclass, fields, methods, pos⟩ => by
    obtain ⟨henv, hlayout, hfound⟩ := h.classHeader hf ⟨id, name, superclass, fields, methods, pos⟩
    have hmethods := resolveMethods_rename hf (henv.enterClass hlayout) methods
    rw [Decl.rename, Decl.resolve_cls, Decl.resolve_cls]
    exact ⟨henv, by rw [hfound, ClassDecl.methods_rename, hmethods, List.map_append]⟩

/-- The findings in a renamed function are the renamed findings. -/
theorem FunDecl.resolve_rename (hf : Function.Injective f) {env env' : Env}
    (h : env.Renames f env') :
    ∀ d : FunDecl, (d.rename f).resolve env' = (d.resolve env).map (Finding.rename f)
  | ⟨id, name, params, result, decls, body, pos⟩ => by
    have hparams := h.enterBody.declareParams hf params
    have hdecls := resolveDecls_rename hf hparams.env decls
    have hbody := Expr.resolve_rename hdecls.env body
    simp only [FunDecl.rename, FunDecl.resolve, hparams.found, hdecls.found, hbody, List.map_append]

/-- Renamed declarations make renamed environments, one after the other. -/
theorem resolveDecls_rename (hf : Function.Injective f) {env env' : Env} (h : env.Renames f env') :
    ∀ ds, Env.RenamesStep f (resolveDecls env ds) (resolveDecls env' (renameDecls f ds))
  | [] => ⟨h, rfl⟩
  | d :: ds => by
    have hfirst := Decl.resolve_rename hf h d
    have hrest := resolveDecls_rename hf hfirst.env ds
    rw [renameDecls, resolveDecls_cons, resolveDecls_cons]
    exact ⟨hrest.env, by rw [hfirst.found, hrest.found, List.map_append]⟩

/-- The findings in the renamed methods of a class are the renamed findings. -/
theorem resolveMethods_rename (hf : Function.Injective f) {env env' : Env}
    (h : env.Renames f env') :
    ∀ ms, resolveMethods env' (renameMethods f ms) = (resolveMethods env ms).map (Finding.rename f)
  | [] => rfl
  | m :: ms => by
    simp only [renameMethods, resolveMethods, FunDecl.resolve_rename hf h m,
      resolveMethods_rename hf h ms, List.map_append]

end

/-! ### The tables -/

/-- Rows that correspond keep tables in correspondence. Nodes keep their numbers under other
names. -/
theorem NodeTable.getElem?_insertMany_map {α β : Type} {g : α → β} {t : NodeTable α}
    {t' : NodeTable β} (h : ∀ id : NodeId, t'[id]? = t[id]?.map g) (rows : List (NodeId × α))
    (id : NodeId) :
    (t'.insertMany (rows.map fun row => (row.1, g row.2)))[id]? =
      (t.insertMany rows)[id]?.map g := by
  induction rows generalizing t t' with
  | nil => simpa using h id
  | cons row rows ih =>
    rw [List.map_cons, Std.TreeMap.insertMany_cons, Std.TreeMap.insertMany_cons]
    refine ih fun id => ?_
    rw [Std.TreeMap.getElem?_insert, Std.TreeMap.getElem?_insert, h]
    split <;> rfl

/-- If the rows of a table are taken from findings in a way that respects names, the table is
renamed. -/
theorem NodeTable.getElem?_rename {α : Type} {row? : Finding → Option (NodeId × α)} {g : α → α}
    (hrow : ∀ found : Finding, row? (found.rename f) = (row? found).map fun row => (row.1, g row.2))
    (found : List Finding) (id : NodeId) :
    (Std.TreeMap.ofList ((found.map (Finding.rename f)).filterMap row?) : NodeTable α)[id]? =
      (Std.TreeMap.ofList (found.filterMap row?) : NodeTable α)[id]?.map g := by
  have hrows : (found.map (Finding.rename f)).filterMap row? =
      (found.filterMap row?).map fun row => (row.1, g row.2) := by
    rw [List.filterMap_map, List.map_filterMap]
    exact congrArg (List.filterMap · found) (funext hrow)
  rw [hrows, Std.TreeMap.ofList_eq_insertMany_empty, Std.TreeMap.ofList_eq_insertMany_empty]
  exact getElem?_insertMany_map (by simp) _ id

/-- The same is known of the nodes, and of the classes under their new names. -/
structure Resolution.Renames (f : String → String) (r r' : Resolution) : Prop where
  uses (id : NodeId) : r'.uses[id]? = r.uses[id]?.map (Binding.rename f)
  sends (id : NodeId) : r'.sends[id]? = r.sends[id]?.map (Dispatch.rename f)
  decls (id : NodeId) : r'.decls[id]? = r.decls[id]?.map (Entry.rename f)
  positions (id : NodeId) : r'.positions[id]? = r.positions[id]?
  classes : r.classes.Renames f r'.classes

/-- The tables made from renamed findings are the renamed tables. -/
theorem Resolution.renames_ofFindings (found : List Finding) {t t' : ClassTable}
    (ht : t.Renames f t') :
    (ofFindings found t).Renames f (ofFindings (found.map (Finding.rename f)) t') where
  uses := NodeTable.getElem?_rename (by rintro (_ | _ | _ | _ | _) <;> rfl) found
  sends := NodeTable.getElem?_rename (by rintro (_ | _ | _ | _ | _) <;> rfl) found
  decls := NodeTable.getElem?_rename (by rintro (_ | _ | _ | _ | _) <;> rfl) found
  positions id := by
    have hrows : (found.map (Finding.rename f)).filterMap Finding.position? =
        found.filterMap Finding.position? := by
      rw [List.filterMap_map]
      refine congrArg (List.filterMap · found) (funext fun finding => ?_)
      cases finding <;> rfl
    simp only [ofFindings, hrows]
  classes := ht

/-- The errors among renamed findings are the renamed errors. -/
theorem Resolution.errors_ofFindings_rename (found : List Finding) (t t' : ClassTable) :
    (ofFindings (found.map (Finding.rename f)) t').errors =
      (ofFindings found t).errors.map (ScopeError.rename f) := by
  simp only [ofFindings, List.filterMap_map, List.map_filterMap]
  refine congrArg (List.filterMap · found) (funext fun finding => ?_)
  cases finding <;> rfl

namespace Program

/-- The walk over a renamed program starts from environments without names. -/
theorem renames_resolveDecls (hf : Function.Injective f) (p : Program) :
    Env.RenamesStep f (resolveDecls .global p.decls) (resolveDecls .global (p.rename f).decls) := by
  have hglobal : Env.global.Renames f .global := ⟨.cons NameTable.Renames.empty .nil, rfl, .empty⟩
  exact resolveDecls_rename hf hglobal p.decls

/-- The findings in a renamed program are the renamed findings. -/
theorem findings_rename (hf : Function.Injective f) (p : Program) :
    (p.rename f).findings = p.findings.map (Finding.rename f) := by
  have hdecls := p.renames_resolveDecls hf
  rw [findings, findings, List.map_append, hdecls.found]
  exact congrArg _ (Expr.resolve_rename hdecls.env p.body)

/-- The resolution of a renamed program is the renamed resolution. -/
theorem resolve_rename (hf : Function.Injective f) (p : Program) :
    p.resolve.Renames f (p.rename f).resolve := by
  rw [resolve_eq, resolve_eq, findings_rename hf]
  exact Resolution.renames_ofFindings p.findings (p.renames_resolveDecls hf).env.classes

/-- The scoping errors of a renamed program are the renamed errors. -/
theorem errors_rename (hf : Function.Injective f) (p : Program) :
    (p.rename f).resolve.errors = p.resolve.errors.map (ScopeError.rename f) := by
  rw [resolve_eq, resolve_eq, findings_rename hf]
  exact Resolution.errors_ofFindings_rename _ _ _

end Program

end Stackling
