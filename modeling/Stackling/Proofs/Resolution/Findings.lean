import Stackling.Proofs.Nodes
import Stackling.Resolution.Resolve

/-!
# Resolution without errors

What the steps of resolution do when they find no error: a use is bound, a declaration takes its
place in the frame, a member its place in the layout. One lemma for each step says it, so that later
proofs do not open the resolver.
-/

namespace Stackling

/-- A list of findings in which there is no error. -/
def ErrorFree (found : List Finding) : Prop := ∀ e, .error e ∉ found

namespace ErrorFree

@[simp] theorem nil : ErrorFree [] := by simp [ErrorFree]

@[simp] theorem append {found more : List Finding} :
    ErrorFree (found ++ more) ↔ ErrorFree found ∧ ErrorFree more := by
  simp [ErrorFree, forall_and]

@[simp] theorem cons {f : Finding} {found : List Finding} :
    ErrorFree (f :: found) ↔ ErrorFree [f] ∧ ErrorFree found :=
  @append [f] found

/-- There is no error among findings exactly if there is none in the tables. -/
theorem iff_errors {found : List Finding} {classes : ClassTable} :
    ErrorFree found ↔ (Resolution.ofFindings found classes).errors = [] := by
  simp only [Resolution.ofFindings, List.filterMap_eq_nil_iff, ErrorFree]
  constructor
  · intro h f hf
    cases f with
    | error e => exact (h e hf).elim
    | use _ _ | send _ _ | decl _ _ | position _ _ => rfl
  · intro h e he
    exact Option.some_ne_none e (h _ he)

end ErrorFree

/-! ### Equations -/

theorem Env.declareParams_cons (env : Env) (p : TypedName) (ps : List TypedName) :
    env.declareParams (p :: ps) = (((env.declareParam p).1.declareParams ps).1,
      (env.declareParam p).2 ++ ((env.declareParam p).1.declareParams ps).2) := rfl

theorem Decl.resolve_var (env : Env) (d : VarDecl) :
    (Decl.var d).resolve env =
      ((env.declareLocal .variable d.id d.name d.pos d.declared.ty).1,
        d.init.resolve env ++ (env.declareLocal .variable d.id d.name d.pos d.declared.ty).2) := by
  cases d
  rw [Decl.resolve]

theorem Decl.resolve_fn (env : Env) (f : FunDecl) :
    (Decl.fn f).resolve env =
      ((env.declareLocal .function f.id f.name f.pos (.arrow f.signature)).1,
        (env.declareLocal .function f.id f.name f.pos (.arrow f.signature)).2 ++
          f.resolve (env.declareLocal .function f.id f.name f.pos (.arrow f.signature)).1) := by
  rw [Decl.resolve]

theorem Decl.resolve_cls (env : Env) (c : ClassDecl) :
    (Decl.cls c).resolve env =
      ((env.classHeader c).1, (env.classHeader c).2.2 ++
        resolveMethods ((env.classHeader c).1.enterClass (env.classHeader c).2.1) c.methods) := by
  cases c
  rw [Decl.resolve]

/-- What is in force in the body of a function, before its local declarations. -/
def FunDecl.paramEnv (f : FunDecl) (env : Env) : Env := (env.enterBody.declareParams f.params).1

theorem FunDecl.resolve_eq (env : Env) (f : FunDecl) :
    f.resolve env = (env.enterBody.declareParams f.params).2 ++
      (resolveDecls (f.paramEnv env) f.decls).2 ++
      f.body.resolve (resolveDecls (f.paramEnv env) f.decls).1 := by
  cases f
  rw [FunDecl.resolve]
  rfl

theorem resolveDecls_cons (env : Env) (d : Decl) (ds : List Decl) :
    resolveDecls env (d :: ds) = ((resolveDecls (d.resolve env).1 ds).1,
      (d.resolve env).2 ++ (resolveDecls (d.resolve env).1 ds).2) := by
  rw [resolveDecls]

/-! ### Uses -/

namespace Env

variable {env : Env} {id : NodeId} {pos : SourcePos}

/-- A name that is used without an error is in scope. -/
theorem useName_errorFree {kind : NameKind} {name : String}
    (h : ErrorFree [env.useName kind id name pos]) :
    ∃ b, env.scopes.use? name = some b ∧ env.useName kind id name pos = .use id b := by
  unfold useName at h ⊢
  cases hb : env.scopes.use? name with
  | none => simp [ErrorFree, hb] at h
  | some b => exact ⟨b, rfl, rfl⟩

/-- A class that is used without an error is on record. -/
theorem useClass_errorFree {name : String} (h : ErrorFree [env.useClass id name pos]) :
    ∃ record, env.classes.records[name]? = some record ∧
      env.useClass id name pos = .use id ⟨record.entry, env.scopes.depth⟩ := by
  unfold useClass at h ⊢
  cases hr : env.classes.records[name]? with
  | none => simp [ErrorFree, hr] at h
  | some record => exact ⟨record, rfl, rfl⟩

/-- A method that is called without an error is a member of the class of the receiver. -/
theorem useMethod_errorFree {receiver method : String}
    (h : ErrorFree [env.useMethod id receiver method pos]) :
    ∃ b cls record member, env.scopes.use? receiver = some b ∧ b.entry.ty = .ref cls ∧
      env.classes.records[cls]? = some record ∧ record.layout.method? method = some member ∧
      env.useMethod id receiver method pos = .send id ⟨b, cls, member.entry⟩ := by
  unfold useMethod at h ⊢
  cases hb : env.scopes.use? receiver with
  | none => simp [ErrorFree, hb] at h
  | some b =>
    cases hty : b.entry.ty with
    | ref cls =>
      cases hr : env.classes.records[cls]? with
      | none => simp [ErrorFree, hb, hty, hr] at h
      | some record =>
        cases hm : record.layout.method? method with
        | none => simp [ErrorFree, hb, hty, hr, hm] at h
        | some member => exact ⟨b, cls, record, member, rfl, hty, hr, hm, by simp [hty, hr, hm]⟩
    | int | bool | null | arrow _ | method _ | cls _ => simp [ErrorFree, hb, hty] at h

end Env

/-! ### Declarations -/

namespace Scopes

/-- A declaration succeeds exactly if the innermost scope has no such name yet. -/
theorem declare?_eq_some {s s' : Scopes} {name : String} {entry : Entry} :
    s.declare? name entry = some s' ↔ ∃ scope outer, s.stack = scope :: outer ∧
      scope.contains name = false ∧ ⟨scope.insert name entry :: outer⟩ = s' := by
  unfold declare?
  cases hs : s.stack with
  | nil => simp
  | cons scope outer => cases hc : scope.contains name <;> simp [hc]

theorem contains_declare? {s s' : Scopes} {name x : String} {entry : Entry}
    (h : s.declare? name entry = some s') {scope : Scope} {outer : List Scope}
    (hs : s'.stack = scope :: outer) (hx : x = name ∨ ∀ scope outer, s.stack = scope :: outer →
      scope.contains x) : scope.contains x := by
  obtain ⟨old, outer', hstack, -, rfl⟩ := declare?_eq_some.mp h
  cases hs
  rw [Std.TreeMap.contains_insert]
  rcases hx with rfl | hx
  · simp
  · simp [hx _ _ hstack]

theorem depth_declare? {s s' : Scopes} {name : String} {entry : Entry}
    (h : s.declare? name entry = some s') : s'.depth = s.depth := by
  obtain ⟨scope, outer, hstack, -, rfl⟩ := declare?_eq_some.mp h
  simp [Scopes.depth, hstack]

theorem stack_declare? {s s' : Scopes} {name : String} {entry : Entry}
    (h : s.declare? name entry = some s') : s'.stack ≠ [] := by
  obtain ⟨scope, outer, -, -, rfl⟩ := declare?_eq_some.mp h
  exact List.cons_ne_nil _ _

/-- A new declaration hides others of its name, and only these. -/
theorem lookup?_declare? {s s' : Scopes} {x y : String} {entry : Entry}
    (h : s.declare? x entry = some s') :
    s'.lookup? y = if y = x then some entry else s.lookup? y := by
  obtain ⟨scope, outer, hstack, -, rfl⟩ := declare?_eq_some.mp h
  rw [lookup?, lookup?, hstack, List.findSome?_cons, List.findSome?_cons,
    Std.TreeMap.getElem?_insert]
  by_cases hyx : y = x
  · subst hyx
    simp
  · have hcompare : ¬compare x y = .eq := fun hc => hyx (Std.compare_eq_iff_eq.mp hc).symm
    rw [if_neg hcompare, if_neg hyx]

/-- A scope that is entered is searched first. -/
theorem lookup?_push {s : Scopes} {scope : Scope} {y : String} :
    (s.push scope).lookup? y = scope[y]?.or (s.lookup? y) := by
  rw [lookup?, push, List.findSome?_cons]
  cases scope[y]? <;> rfl

theorem depth_push {s : Scopes} {scope : Scope} (h : s.stack ≠ []) :
    (s.push scope).depth = s.depth + 1 := by
  have hpos := List.length_pos_iff.mpr h
  rw [depth, depth, push, List.length_cons]
  omega

end Scopes

/-- A new class hides others of its name, and only these. -/
theorem ClassTable.getElem?_add {t : ClassTable} {record : ClassRecord} {name : String} :
    (t.add record).records[name]? = if record.name = name then some record else
      t.records[name]? := by
  simp only [ClassTable.add, Std.TreeMap.getElem?_insert, Std.compare_eq_iff_eq]

namespace Env

variable {env : Env} {id : NodeId} {pos : SourcePos} {kind : NameKind} {name : String} {ty : Ty}

/-- A declaration without an error adds an entry and reports it. -/
theorem declare_errorFree {entry : Entry} (h : ErrorFree (env.declare kind id name pos entry).2) :
    ∃ scopes, env.scopes.declare? name entry = some scopes ∧
      env.declare kind id name pos entry = ({ env with scopes }, [.decl id entry]) := by
  unfold declare at h ⊢
  cases hs : env.scopes.declare? name entry with
  | none => simp [ErrorFree, hs] at h
  | some scopes => exact ⟨scopes, rfl, rfl⟩

/-- The entry of a thing that is declared next in the current frame. -/
def localEntry (env : Env) (ty : Ty) : Entry := ⟨env.scopes.depth, ty, env.frame.nextLocal⟩

/-- The same of a declaration in the current frame, which also takes cells. -/
theorem declareLocal_errorFree (h : ErrorFree (env.declareLocal kind id name pos ty).2) :
    ∃ scopes, env.scopes.declare? name (env.localEntry ty) = some scopes ∧
      env.declareLocal kind id name pos ty =
        ({ env with scopes, frame := (env.frame.allotLocal (Int32.ofNat ty.cells)).2 },
          [.decl id (env.localEntry ty)]) :=
  declare_errorFree h

/-- The entry of the next parameter of the current frame. -/
def paramEntry (env : Env) (ty : Ty) : Entry :=
  ⟨env.scopes.depth, ty, (env.frame.allotParam (Int32.ofNat ty.cells)).1⟩

/-- The same of a parameter. -/
theorem declareParam_errorFree {p : TypedName} (h : ErrorFree (env.declareParam p).2) :
    ∃ scopes, env.scopes.declare? p.name (env.paramEntry p.declared.ty) = some scopes ∧
      env.declareParam p =
        ({ env with scopes, frame := (env.frame.allotParam (Int32.ofNat p.declared.ty.cells)).2 },
          [.decl p.id (env.paramEntry p.declared.ty)]) :=
  declare_errorFree h

/-- The entry and the record of a class that is declared next. -/
def classEntry (env : Env) (layout : ObjectLayout) : Entry :=
  ⟨0, .cls layout.classTy, env.frame.nextLocal⟩

/-- The record that is made for a class. -/
def classRecord (env : Env) (c : ClassDecl) (layout : ObjectLayout) : ClassRecord :=
  ⟨c.name, (env.parent? c).map (·.name), env.classEntry layout, layout⟩

/-- A class that is declared without an error adds its entry and its record. -/
theorem declareClass_errorFree {c : ClassDecl} {layout : ObjectLayout}
    (h : ErrorFree (env.declareClass c layout).2) :
    ∃ scopes, env.scopes.declare? c.name (env.classEntry layout) = some scopes ∧
      env.declareClass c layout =
        ({ scopes, frame := (env.frame.allotLocal 1).2,
           classes := env.classes.add (env.classRecord c layout) },
          [.decl c.id (env.classEntry layout)]) := by
  unfold declareClass at h ⊢
  have hentry : (⟨0, .cls layout.classTy, (env.frame.allotLocal 1).1⟩ : Entry) =
      env.classEntry layout := rfl
  simp only [hentry] at h ⊢
  cases hs : env.scopes.declare? c.name (env.classEntry layout) with
  | none => simp [ErrorFree, hs] at h
  | some scopes => exact ⟨scopes, rfl, rfl⟩

/-- A superclass that is named without an error is on record. -/
theorem parentFindings_errorFree {c : ClassDecl} (h : ErrorFree (env.parentFindings c)) :
    env.parentFindings c = [] ∧ ∀ s, c.superclass = some s → s ∈ env.classes.records := by
  unfold parentFindings at h ⊢
  cases hs : c.superclass with
  | none => simp
  | some s =>
    by_cases hc : env.classes.records.contains s
    · exact ⟨by simp [hc], by rintro _ ⟨⟩; exact hc⟩
    · simp [ErrorFree, hs, hc] at h

/-- The class under construction after all its members. -/
def draftOf (env : Env) (c : ClassDecl) : ClassDraft :=
  c.draft (((env.parent? c).map (·.layout)).getD {})

/-- What the header of a class makes of an environment. Below the top level it is refused. -/
theorem classHeader_eq (env : Env) (c : ClassDecl) :
    env.classHeader c =
      if env.scopes.depth = 0 then
        ((env.declareClass c (env.draftOf c).layout).1, (env.draftOf c).layout,
          env.parentFindings c ++ (env.draftOf c).findings ++
            (env.declareClass c (env.draftOf c).layout).2)
      else (env, (env.draftOf c).layout,
        .error (.classNotGlobal c.name c.pos) ::
          (env.parentFindings c ++ (env.draftOf c).findings)) := rfl

/-- A header without an error stands at the top level, and all of its steps are without errors. -/
theorem classHeader_errorFree {c : ClassDecl} (h : ErrorFree (env.classHeader c).2.2) :
    env.scopes.depth = 0 ∧ ErrorFree (env.parentFindings c) ∧ ErrorFree (env.draftOf c).findings ∧
      ∃ scopes, env.scopes.declare? c.name (env.classEntry (env.draftOf c).layout) = some scopes ∧
        env.classHeader c =
          ({ scopes, frame := (env.frame.allotLocal 1).2,
             classes := env.classes.add (env.classRecord c (env.draftOf c).layout) },
            (env.draftOf c).layout,
            (env.draftOf c).findings ++ [.decl c.id (env.classEntry (env.draftOf c).layout)]) := by
  rw [classHeader_eq] at h ⊢
  split at h
  next hdepth =>
    simp only [ErrorFree.append] at h
    obtain ⟨⟨hparent, hdraft⟩, hdeclare⟩ := h
    obtain ⟨scopes, hs, heq⟩ := declareClass_errorFree hdeclare
    refine ⟨hdepth, hparent, hdraft, scopes, hs, ?_⟩
    rw [if_pos hdepth, heq, (parentFindings_errorFree hparent).1, List.nil_append]
  next => exact absurd List.mem_cons_self (h _)

end Env

/-! ### Members -/

/-- A member that a class declares itself. -/
structure OwnMember where
  id : NodeId
  name : String
  pos : SourcePos
  ty : Ty

/-- The fields of a class, then its methods. -/
def ClassDecl.ownMembers (c : ClassDecl) : List OwnMember :=
  c.fields.map (fun f => ⟨f.id, f.name, f.pos, f.declared.ty⟩) ++
    c.methods.map fun m => ⟨m.id, m.name, m.pos, .method m.signature⟩

namespace ClassDraft

/-- The draft with one more member of the class itself. -/
def addOwn (d : ClassDraft) (cls : String) (m : OwnMember) : ClassDraft :=
  d.addMember cls m.id m.name m.pos m.ty

/-- The draft with all members of the class. -/
def addAll (d : ClassDraft) (cls : String) (ms : List OwnMember) : ClassDraft :=
  ms.foldl (addOwn · cls ·) d

end ClassDraft

/-- The draft of a class starts from what it inherits. -/
theorem ClassDecl.draft_eq (c : ClassDecl) (inherited : ObjectLayout) :
    c.draft inherited = ClassDraft.addAll { layout := inherited } c.name c.ownMembers := by
  simp [ClassDecl.draft, ClassDraft.addAll, ClassDecl.ownMembers, ClassDraft.addOwn, List.foldl_map]

/-- A member with its place in a layout: that of the member it overrides, or else a new one. -/
def ObjectLayout.place (l : ObjectLayout) (name : String) (ty : Ty) : Member × ObjectLayout :=
  match l.members[name]? with
  | some inherited => l.override name inherited ty
  | none => if ty.isMethod then l.addMethod name ty else l.addField name ty

namespace ClassDraft

variable {d : ClassDraft} {cls : String} {m : OwnMember} {ms : List OwnMember}

/-- A member is rejected or takes its place. -/
theorem addOwn_cases (d : ClassDraft) (cls : String) (m : OwnMember) :
    (∃ e, (m.name ∈ d.seen ∨ ∃ old, d.layout.members[m.name]? = some old ∧
      old.isMethod ≠ m.ty.isMethod) ∧
      (∃ kind kind', e = .duplicateMember kind m.name cls m.pos ∨
        e = .illegalOverride m.name kind kind' m.pos) ∧
      d.addOwn cls m = { d with seen := m.name :: d.seen, findings := d.findings ++ [.error e] }) ∨
    m.name ∉ d.seen ∧ (∀ old, d.layout.members[m.name]? = some old → old.isMethod = m.ty.isMethod) ∧
      d.addOwn cls m =
        { layout := (d.layout.place m.name m.ty).2
          seen := m.name :: d.seen
          findings := d.findings ++ [.decl m.id (d.layout.place m.name m.ty).1.entry,
            .position m.id (d.layout.place m.name m.ty).1.position] } := by
  unfold addOwn addMember ObjectLayout.place
  dsimp only
  by_cases hseen : m.name ∈ d.seen
  · rw [if_pos hseen]
    exact .inl ⟨_, .inl hseen, ⟨_, .variable, .inl rfl⟩, rfl⟩
  · rw [if_neg hseen]
    cases hold : d.layout.members[m.name]? with
    | none => exact .inr ⟨hseen, nofun, rfl⟩
    | some old =>
      dsimp only
      by_cases hkind : old.isMethod = m.ty.isMethod
      · rw [if_pos hkind]
        refine .inr ⟨hseen, ?_, rfl⟩
        rintro _ ⟨⟩
        exact hkind
      · rw [if_neg hkind]
        exact .inl ⟨_, .inr ⟨old, rfl, hkind⟩, ⟨_, _, .inr rfl⟩, rfl⟩

theorem findings_addOwn (d : ClassDraft) (cls : String) (m : OwnMember) :
    ∃ more, (d.addOwn cls m).findings = d.findings ++ more ∧ ∀ id b, .use id b ∉ more := by
  rcases d.addOwn_cases cls m with ⟨e, -, -, heq⟩ | ⟨-, -, heq⟩
  · rw [heq]
    exact ⟨_, rfl, by simp⟩
  · rw [heq]
    exact ⟨_, rfl, by simp⟩

theorem findings_addAll (d : ClassDraft) (cls : String) (ms : List OwnMember) :
    ∃ more, (d.addAll cls ms).findings = d.findings ++ more ∧ ∀ id b, .use id b ∉ more := by
  induction ms generalizing d with
  | nil => exact ⟨[], by simp [addAll]⟩
  | cons m ms ih =>
    obtain ⟨more, hmore, huse⟩ := d.findings_addOwn cls m
    obtain ⟨rest, hrest, huse'⟩ := ih (d.addOwn cls m)
    refine ⟨more ++ rest, ?_, fun id b hb => (List.mem_append.mp hb).elim (huse id b) (huse' id b)⟩
    rw [← List.append_assoc, ← hmore]
    exact hrest

/-- A member that is placed without an error is new to the class and of the kind that it
overrides. -/
theorem addOwn_errorFree (h : ErrorFree (d.addOwn cls m).findings) :
    m.name ∉ d.seen ∧
      (∀ inherited, d.layout.members[m.name]? = some inherited →
        inherited.isMethod = m.ty.isMethod) ∧
      d.addOwn cls m =
        { layout := (d.layout.place m.name m.ty).2
          seen := m.name :: d.seen
          findings := d.findings ++ [.decl m.id (d.layout.place m.name m.ty).1.entry,
            .position m.id (d.layout.place m.name m.ty).1.position] } := by
  rcases d.addOwn_cases cls m with ⟨e, -, -, heq⟩ | haccept
  · rw [heq, ErrorFree.append] at h
    exact absurd List.mem_cons_self (h.2 e)
  · exact haccept

/-- Errors are never taken back. -/
theorem addAll_errorFree (h : ErrorFree (d.addAll cls ms).findings) : ErrorFree d.findings := by
  obtain ⟨more, hmore, -⟩ := d.findings_addAll cls ms
  rw [hmore, ErrorFree.append] at h
  exact h.1

/-- Without errors each member gets an entry and a place. -/
theorem placed_mem_addAll (h : ErrorFree (d.addAll cls ms).findings) :
    ∀ m ∈ ms, ∃ placed : Member, .decl m.id placed.entry ∈ (d.addAll cls ms).findings ∧
      .position m.id placed.position ∈ (d.addAll cls ms).findings := by
  induction ms generalizing d with
  | nil => simp
  | cons m ms ih =>
    rintro n (_ | ⟨_, hn⟩)
    · obtain ⟨-, -, heq⟩ := addOwn_errorFree (addAll_errorFree (d := d.addOwn cls m) h)
      obtain ⟨more, hmore, -⟩ := (d.addOwn cls m).findings_addAll cls ms
      refine ⟨(d.layout.place m.name m.ty).1, ?_⟩
      change _ ∈ ((d.addOwn cls m).addAll cls ms).findings ∧
        _ ∈ ((d.addOwn cls m).addAll cls ms).findings
      rw [hmore, heq]
      simp
    · exact ih (d := d.addOwn cls m) h n hn

/-- Every member that is placed gets an entry. -/
theorem decl_mem_addAll (h : ErrorFree (d.addAll cls ms).findings) :
    ∀ m ∈ ms, ∃ entry, .decl m.id entry ∈ (d.addAll cls ms).findings := by
  intro m hm
  obtain ⟨placed, hdecl, -⟩ := placed_mem_addAll h m hm
  exact ⟨placed.entry, hdecl⟩

end ClassDraft

end Stackling
