import Stackling.Proofs.Resolution.Records
import Stackling.Proofs.Typing.Inference

/-!
# Accepted programs are typed

If resolution and checking find no errors and the nodes have different numbers, the typing rules
apply. Resolution walks the declarations once and checking another time, and each of them reports
only what it sees; here the two walks are brought together. A class is on record from its
declaration on, and no later one takes its place.
-/

namespace Stackling

/-! ### Classes on record -/

/-- The classes that are declared by now have the records that they have in the end. -/
def Env.Recorded (r : Resolution) (env : Env) : Prop :=
  ∀ (name : String) (record : ClassRecord), env.classes.records[name]? = some record →
    r.class? name = some record

/-- In the global scope the names of classes are taken. -/
def Env.Registered (env : Env) : Prop :=
  env.scopes.depth = 0 →
    ∀ name ∈ env.classes.records, ∀ scope outer, env.scopes.stack = scope :: outer →
    scope.contains name

/-- The names of classes stay taken at a variable or a function. -/
theorem Env.Registered.afterLocal {env : Env} (h : env.Registered) {scopes : Scopes} {name : String}
    {entry : Entry} (hdeclare : env.scopes.declare? name entry = some scopes) (cells : Int32) :
    (env.afterLocal scopes cells).Registered := by
  intro hdepth x hx scope outer hstack
  have hdepth' : env.scopes.depth = 0 := (Scopes.depth_declare? hdeclare).symm.trans hdepth
  exact Scopes.contains_declare? hdeclare hstack (.inr (h hdepth' x hx))

/-- A class that can be declared is not on record yet. -/
theorem Env.Registered.notMem_of_declare? {env : Env} (h : env.Registered)
    (hdepth : env.scopes.depth = 0) {name : String} {entry : Entry} {scopes : Scopes}
    (hdeclare : env.scopes.declare? name entry = some scopes) :
    name ∉ env.classes.records := by
  intro hmem
  obtain ⟨scope, outer, hstack, hfree, -⟩ := Scopes.declare?_eq_some.mp hdeclare
  have hcontains := h hdepth name hmem scope outer hstack
  rw [hfree] at hcontains
  cases hcontains

/-- A class does not take the place of another one. -/
theorem Env.Registered.keeps {env : Env} (h : env.Registered) (hdepth : env.scopes.depth = 0)
    {c : ClassDecl} {entry : Entry} {scopes : Scopes}
    (hdeclare : env.scopes.declare? c.name entry = some scopes) {name : String}
    {record new : ClassRecord} (hrecord : env.classes.records[name]? = some record)
    (hnew : new.name = c.name) : (env.classes.add new).records[name]? = some record := by
  have hne : new.name ≠ name := by
    rintro rfl
    refine h.notMem_of_declare? hdepth hdeclare ?_
    rw [← hnew, Std.TreeMap.mem_iff_isSome_getElem?, hrecord]
    rfl
  rw [ClassTable.getElem?_add, if_neg hne]
  exact hrecord

/-- A class takes its name by its declaration. -/
theorem Env.Registered.afterClass {env : Env} (h : env.Registered) (hdepth : env.scopes.depth = 0)
    {c : ClassDecl} {l : ObjectLayout} {entry : Entry} {scopes : Scopes}
    (hdeclare : env.scopes.declare? c.name entry = some scopes) :
    (env.afterClass c l scopes).Registered := by
  intro _ x hx scope outer hstack
  have hcases := ClassTable.mem_add.mp hx
  rcases hcases with rfl | hx
  · exact Scopes.contains_declare? hdeclare hstack (.inl rfl)
  · exact Scopes.contains_declare? hdeclare hstack (.inr (h hdepth x hx))

/-- What a declaration without errors makes of the environment. -/
theorem Decl.resolve_env {env : Env} {d : Decl} (h : ErrorFree (d.resolve env).2) :
    (∃ scopes entry cells, env.scopes.declare? d.name entry = some scopes ∧
      (d.resolve env).1 = env.afterLocal scopes cells) ∨
    ∃ c scopes, d = .cls c ∧ env.scopes.depth = 0 ∧
      env.scopes.declare? c.name (env.classEntry (env.draftOf c).layout) = some scopes ∧
      (d.resolve env).1 = env.afterClass c (env.draftOf c).layout scopes := by
  cases d with
  | var d =>
    rw [Decl.resolve_var, ErrorFree.append] at h
    obtain ⟨scopes, hs, heq⟩ := Env.declareLocal_errorFree h.2
    refine .inl ⟨scopes, _, Int32.ofNat d.declared.ty.cells, hs, ?_⟩
    rw [Decl.resolve_var, heq]
    rfl
  | fn f =>
    rw [Decl.resolve_fn, ErrorFree.append] at h
    obtain ⟨scopes, hs, heq⟩ := Env.declareLocal_errorFree h.1
    refine .inl ⟨scopes, _, 2, hs, ?_⟩
    rw [Decl.resolve_fn, heq]
    rfl
  | cls c =>
    rw [Decl.resolve_cls, ErrorFree.append] at h
    obtain ⟨hdepth, -, -, scopes, hs, heq⟩ := Env.classHeader_errorFree h.1
    refine .inr ⟨c, scopes, rfl, hdepth, hs, ?_⟩
    rw [Decl.resolve_cls, heq]
    rfl

/-- The names of classes stay taken at every declaration. -/
theorem Env.Registered.resolve {env : Env} (hreg : env.Registered) {d : Decl}
    (h : ErrorFree (d.resolve env).2) : (d.resolve env).1.Registered := by
  rcases Decl.resolve_env h with ⟨scopes, entry, cells, hs, heq⟩ | ⟨c, scopes, rfl, hdepth, hs, heq⟩
  · rw [heq]
    exact hreg.afterLocal hs cells
  · rw [heq]
    exact hreg.afterClass hdepth hs

namespace Env.Recorded

variable {r : Resolution} {env : Env}

/-- A declaration keeps the records that are there before it. -/
theorem of_resolve {d : Decl} (hreg : env.Registered) (h : ErrorFree (d.resolve env).2)
    (hrec : (d.resolve env).1.Recorded r) : env.Recorded r := by
  intro name record hrecord
  refine hrec name record ?_
  rcases Decl.resolve_env h with ⟨scopes, entry, cells, hs, heq⟩ | ⟨c, scopes, rfl, hdepth, hs, heq⟩
  · rw [heq]
    exact hrecord
  · rw [heq]
    exact hreg.keeps hdepth hs hrecord rfl

/-- So do several declarations. -/
theorem of_resolveDecls {ds : List Decl} (hreg : env.Registered)
    (h : ErrorFree (resolveDecls env ds).2) (hrec : (resolveDecls env ds).1.Recorded r) :
    env.Recorded r := by
  induction ds generalizing env with
  | nil => exact hrec
  | cons d ds ih =>
    rw [resolveDecls_cons] at h hrec
    rw [ErrorFree.append] at h
    exact of_resolve hreg h.1 (ih (hreg.resolve h.1) h.2 hrec)

/-- In a body no class is declared. -/
theorem resolveDecls {ds : List Decl} (hrec : env.Recorded r) (hdepth : env.scopes.depth ≠ 0)
    (h : ErrorFree (resolveDecls env ds).2) : (Stackling.resolveDecls env ds).1.Recorded r := by
  induction ds generalizing env with
  | nil => exact hrec
  | cons d ds ih =>
    rw [resolveDecls_cons] at h ⊢
    rw [ErrorFree.append] at h
    rcases Decl.resolve_env h.1 with ⟨scopes, entry, cells, hs, heq⟩ |
      ⟨c, scopes, rfl, hzero, hs, heq⟩
    · rw [heq] at h ⊢
      exact @ih (env.afterLocal scopes cells) hrec ((Scopes.depth_declare? hs).trans_ne hdepth) h.2
    · exact absurd hzero hdepth

end Env.Recorded

/-! ### Members -/

/-- A draft that is held by the tables lays out its members one after the other. -/
theorem ClassDraft.lays {r : Resolution} {inherited : ClassTy} {cls : String} {ms : List OwnMember}
    {d : ClassDraft} (hold : r.HoldsAll (d.addAll cls ms).findings) (hplain : ∀ m ∈ ms, m.ty.Plain)
    (hadmits : ∀ m ∈ ms, ∀ n, r.positions[m.id]? = some n → inherited.Admits r m.ty n) :
    Lays r inherited d.seen d.layout ms (d.addAll cls ms).layout := by
  induction ms generalizing d with
  | nil => exact .nil
  | cons m ms ih =>
    rw [List.forall_mem_cons] at hplain hadmits
    have hfree : ErrorFree (d.addOwn cls m).findings := @addAll_errorFree _ _ ms hold.errorFree
    obtain ⟨hname, hkind, heq⟩ := addOwn_errorFree hfree
    obtain ⟨more, hmore, -⟩ := (d.addOwn cls m).findings_addAll cls ms
    have hrest := @ih (d.addOwn cls m) hold hplain.2 hadmits.2
    have hown : r.HoldsAll (d.addOwn cls m).findings := by
      change r.HoldsAll ((d.addOwn cls m).addAll cls ms).findings at hold
      rw [hmore, Resolution.HoldsAll.append] at hold
      exact hold.1
    rw [heq, Resolution.HoldsAll.append, Resolution.HoldsAll.cons, Resolution.HoldsAll.cons] at hown
    obtain ⟨-, hdecl, hposition, -⟩ := hown
    rw [heq] at hrest
    change Lays r inherited d.seen d.layout (m :: ms) ((d.addOwn cls m).addAll cls ms).layout
    rw [heq]
    exact .cons hname hplain.1 hkind hdecl (hadmits.1 _ hposition) hrest

theorem WrittenTy.isArrow_ty (a : WrittenTy) : a.ty.isArrow = a.isArrow := by
  cases a <;> simp [WrittenTy.ty, WrittenTy.isArrow, Ty.isArrow]

theorem WrittenTy.cells_of_isArrow {a : WrittenTy} (h : a.isArrow = false) : a.ty.cells = 1 := by
  rw [WrittenTy.cells_ty, WrittenTy.cells, h]
  rfl

theorem WrittenTy.plain_ty {a : WrittenTy} (h : a.isArrow = false) : a.ty.Plain := by
  cases a with
  | arrow => cases h
  | int | bool | ref _ =>
    rw [WrittenTy.ty]
    trivial

/-- The signature of a first-order function has no function types in it. -/
theorem FunDecl.plain_signature {f : FunDecl} (h : ∀ n ∈ f.nodes, n.FirstOrder) :
    (Ty.method f.signature).Plain := by
  rw [FunDecl.nodes_eq, List.forall_mem_cons, FunDecl.innerNodes, List.forall_mem_append,
    List.forall_mem_append, List.forall_mem_map] at h
  obtain ⟨hresult, ⟨hparams, -⟩, -⟩ := h
  refine ⟨?_, (f.result.isArrow_ty).trans hresult⟩
  intro t ht
  obtain ⟨p, hp, rfl⟩ := List.mem_map.mp ht
  exact (p.declared.isArrow_ty).trans (hparams p hp)

/-- Nor have the types of the members of a first-order class. -/
theorem ClassDecl.plain_ownMembers {c : ClassDecl} (h : ∀ n ∈ (Decl.cls c).nodes, n.FirstOrder) :
    ∀ m ∈ c.ownMembers, m.ty.Plain := by
  rw [Decl.nodes_cls, List.cons_append, List.forall_mem_cons, List.forall_mem_append,
    List.forall_mem_map, methodNodes_eq] at h
  obtain ⟨-, hfields, hmethods⟩ := h
  rw [ClassDecl.ownMembers, List.forall_mem_append, List.forall_mem_map, List.forall_mem_map]
  refine ⟨fun f hf => WrittenTy.plain_ty (hfields f hf), fun m hm =>
    FunDecl.plain_signature fun n hn => ?_⟩
  exact hmethods n (List.mem_flatMap.mpr ⟨m, hm, hn⟩)

theorem WrittenTy.isMethod_ty (a : WrittenTy) : a.ty.isMethod = false := by
  cases a <;> simp [WrittenTy.ty, Ty.isMethod]

/-- There is no violation exactly if the member fits the one in its place. -/
theorem Resolution.overrideViolations_eq_nil_iff {r : Resolution} {id : NodeId} {ty : Ty}
    {inherited : List Ty} {e : TypingError} : r.overrideViolations id ty inherited e = [] ↔
      ∀ n, r.positions[id]? = some n → ∀ t, inherited[n]? = some t →
        r.hierarchy.isSubtype ty t = true := by
  unfold Resolution.overrideViolations
  cases hn : r.positions[id]? with
  | none => simp
  | some n => cases ht : inherited[n]? <;> simp [ht]

/-- The members that pass the check of overrides are those that may take their places. -/
theorem ClassDecl.overrideViolations_eq_nil_iff {r : Resolution} {c : ClassDecl}
    {inherited : ClassTy} (h : r.inherited? c.name = some inherited) : c.overrideViolations r = [] ↔
      ∀ m ∈ c.ownMembers, ∀ n, r.positions[m.id]? = some n → inherited.Admits r m.ty n := by
  have hmethod : ∀ (sig : Signature) (n : Nat), inherited.Admits r (.method sig) n ↔
      ∀ t, (inherited.methods.map Ty.method)[n]? = some t →
      r.hierarchy.isSubtype (.method sig) t = true := by
    intro sig n
    simp [ClassTy.Admits, Ty.isMethod]
  have hfield : ∀ (a : WrittenTy) (n : Nat), inherited.Admits r a.ty n ↔
      ∀ t, inherited.fields[n]? = some t → r.hierarchy.isSubtype a.ty t = true := by
    intro a n
    simp [ClassTy.Admits, a.isMethod_ty]
  simp only [ClassDecl.overrideViolations, h, List.append_eq_nil_iff, List.flatMap_eq_nil_iff,
    Resolution.overrideViolations_eq_nil_iff, ClassDecl.ownMembers, List.forall_mem_append,
    List.forall_mem_map, hmethod, hfield]

/-- What a class inherits is known by its superclass. -/
theorem Env.inherited?_eq {r : Resolution} {env : Env} {c : ClassDecl} {l : ObjectLayout}
    (hvalid : env.classes.Valid) (hrec : env.Recorded r)
    (hrecord : r.class? c.name = some (env.classRecord c l)) :
    r.inherited? c.name = (env.parent? c).map (·.layout.classTy) := by
  cases hparent : env.parent? c with
  | none => simp [Resolution.inherited?, hrecord, Env.classRecord, hparent]
  | some parent =>
    obtain ⟨s, -, hs⟩ := Option.bind_eq_some_iff.mp hparent
    have hname : r.class? parent.name = some parent := by
      rw [(hvalid s parent hs).1]
      exact hrec s parent hs
    simp [Resolution.inherited?, hrecord, Env.classRecord, hparent, hname]

/-- A class without violations admits its members. -/
theorem ClassDecl.admits {r : Resolution} {env : Env} {c : ClassDecl} {l : ObjectLayout}
    (hvalid : env.classes.Valid) (hrec : env.Recorded r)
    (hrecord : r.class? c.name = some (env.classRecord c l)) (h : c.overrideViolations r = []) :
    ∀ m ∈ c.ownMembers, ∀ n, r.positions[m.id]? = some n →
      (env.inheritedLayout c).classTy.Admits r m.ty n := by
  intro m hm n hn
  have hinherits := Env.inherited?_eq hvalid hrec hrecord
  cases hparent : env.parent? c with
  | none =>
    have hempty : (env.inheritedLayout c).classTy =
        .empty := by rw [Env.inheritedLayout, hparent]; rfl
    rw [hempty, ClassTy.Admits]
    split
    · nofun
    · nofun
  | some parent =>
    have hinherited : (env.inheritedLayout c).classTy = parent.layout.classTy := by
      rw [Env.inheritedLayout, hparent]
      rfl
    rw [hparent] at hinherits
    rw [hinherited]
    exact (ClassDecl.overrideViolations_eq_nil_iff hinherits).mp h m hm n hn

/-! ### Declarations -/

/-- Parameters without function types are typed by their annotations. -/
theorem ParamsTyped.of_holds {r : Resolution} {env : Env} {ps : List TypedName}
    (hold : r.HoldsAll (env.declareParams ps).2) (hplain : ∀ p ∈ ps, p.declared.isArrow = false) :
    ParamsTyped env ps (env.declareParams ps).1 := by
  induction ps generalizing env with
  | nil => exact .nil
  | cons p ps ih =>
    rw [List.forall_mem_cons] at hplain
    rw [Env.declareParams_cons, Resolution.HoldsAll.append] at hold
    obtain ⟨scopes, hs, heq⟩ := Env.declareParam_errorFree hold.1.errorFree
    have hcells : Int32.ofNat p.declared.ty.cells =
        1 := by rw [WrittenTy.cells_of_isArrow hplain.1]; rfl
    have hframe : env.frame.allotParam 1 =
        (env.frame.nextParam, { env.frame with nextParam := env.frame.nextParam + 1 }) := by
      simp [Frame.allotParam]
    rw [Env.paramEntry, hcells, hframe] at hs
    rw [hcells, hframe] at heq
    have hrest := ih hold.2 hplain.2
    rw [Env.declareParams_cons]
    rw [heq] at hrest ⊢
    exact .cons hplain.1 hs hrest

/-- A class that is accepted is typed, given its methods. -/
theorem ClassDecl.typed {r : Resolution} {env : Env} {c : ClassDecl} {scopes : Scopes}
    (hdepth : env.scopes.depth = 0) (hparent : ErrorFree (env.parentFindings c))
    (hold : r.HoldsAll (env.draftOf c).findings)
    (hs : env.scopes.declare? c.name (env.classEntry (env.draftOf c).layout) = some scopes)
    (hviol : c.overrideViolations r = []) (hplain : ∀ n ∈ (Decl.cls c).nodes, n.FirstOrder)
    (hvalid : env.classes.Valid) (hrec : env.Recorded r)
    (hrecord : r.class? c.name = some (env.classRecord c (env.draftOf c).layout)) :
    c.Typed r env (env.draftOf c).layout scopes where
  depth := hdepth
  parent := by
    intro s hsuper
    have hmem := (Env.parentFindings_errorFree hparent).2 s hsuper
    exact ⟨_, Std.TreeMap.getElem?_eq_some_getElem hmem⟩
  lays := by
    rw [Env.draftOf, ClassDecl.draft_eq] at hold ⊢
    exact ClassDraft.lays hold (ClassDecl.plain_ownMembers hplain)
      (ClassDecl.admits hvalid hrec hrecord hviol)
  declare := hs
  record := hrecord

/-- The methods of a class that is laid out without errors are declared members. -/
theorem ClassDecl.methods_declared {r : Resolution} {env : Env} {c : ClassDecl}
    (hold : r.HoldsAll (env.draftOf c).findings) :
    ∀ m ∈ c.methods, ∃ e, r.decls[m.id]? = some e := by
  intro m hm
  rw [Env.draftOf, ClassDecl.draft_eq] at hold
  obtain ⟨e, he⟩ :=
    ClassDraft.decl_mem_addAll hold.errorFree ⟨m.id, m.name, m.pos, .method m.signature⟩
      (List.mem_append_right _ (List.mem_map_of_mem hm))
  exact ⟨e, hold _ he⟩

namespace FunDecl

variable (f : FunDecl) (env : Env)

theorem stack_paramEnv : (f.paramEnv env).scopes.stack.length = env.scopes.stack.length + 1 :=
  Env.stack_length_declareParams f.params

theorem classes_paramEnv : (f.paramEnv env).classes = env.classes :=
  Env.classes_declareParams f.params

theorem depth_paramEnv : (f.paramEnv env).scopes.depth = env.scopes.stack.length := by
  rw [Scopes.depth, stack_paramEnv]
  rfl

end FunDecl

mutual

/-- A first-order function that is accepted is typed. -/
theorem FunDecl.typed {r : Resolution} : ∀ (f : FunDecl) {env : Env} {kind : NameKind},
    r.HoldsAll (f.resolve env) → f.violations r kind = [] → (∀ n ∈ f.nodes, n.FirstOrder) →
      env.scopes.stack ≠ [] → env.classes.Valid → env.Recorded r → f.Typed r env
  | ⟨id, name, params, result, decls, body, pos⟩, env, kind, hold, hviol, hplain, hstack, hvalid,
      hrec => by
    rw [FunDecl.resolve_eq, Resolution.HoldsAll.append, Resolution.HoldsAll.append] at hold
    rw [FunDecl.violations, List.append_eq_nil_iff] at hviol
    rw [FunDecl.nodes, List.cons_append, List.cons_append, List.forall_mem_cons,
      List.forall_mem_append, List.forall_mem_append, List.forall_mem_map] at hplain
    obtain ⟨⟨hparams, hdecls⟩, hbody⟩ := hold
    obtain ⟨hresult, ⟨hplainParams, hplainDecls⟩, -⟩ := hplain
    have hdepth := FunDecl.depth_paramEnv ⟨id, name, params, result, decls, body, pos⟩ env
    have hlength := FunDecl.stack_paramEnv ⟨id, name, params, result, decls, body, pos⟩ env
    have hclasses := FunDecl.classes_paramEnv ⟨id, name, params, result, decls, body, pos⟩ env
    rw [← List.length_pos_iff] at hstack
    have hvalid' : (FunDecl.paramEnv ⟨id, name, params, result, decls, body, pos⟩
        env).classes.Valid := by
      rw [hclasses]
      exact hvalid
    have htyped := declsTyped decls hdecls hviol.1 hplainDecls (List.length_pos_iff.mp (by omega))
      (fun h => by omega) hvalid'
      (Env.Recorded.resolveDecls (by rw [Env.Recorded, hclasses]; exact hrec)
        (by omega) hdecls.errorFree)
    exact .mk hresult (ParamsTyped.of_holds hparams hplainParams) htyped
      (Expr.fits_of_expect (valid_resolveDecls hvalid' decls) hbody hviol.2)

/-- So are methods. -/
theorem methodsTyped {r : Resolution} : ∀ (ms : List FunDecl) {env : Env},
    r.HoldsAll (resolveMethods env ms) → methodViolations r ms = [] →
      (∀ m ∈ ms, ∃ e, r.decls[m.id]? = some e) → (∀ n ∈ methodNodes ms, n.FirstOrder) →
      env.scopes.stack ≠ [] → env.classes.Valid → env.Recorded r → ∀ m ∈ ms, m.Typed r env
  | [], _, _, _, _, _, _, _, _ => by simp
  | m :: ms, env, hold, hviol, hdecl, hplain, hstack, hvalid, hrec => by
    rw [resolveMethods, Resolution.HoldsAll.append] at hold
    rw [methodViolations, List.append_eq_nil_iff] at hviol
    rw [methodNodes, List.forall_mem_append] at hplain
    rw [List.forall_mem_cons] at hdecl ⊢
    obtain ⟨e, he⟩ := hdecl.1
    rw [if_pos (Resolution.contains_decls he)] at hviol
    exact ⟨m.typed hold.1 hviol.1 hplain.1 hstack hvalid hrec,
      methodsTyped ms hold.2 hviol.2 hdecl.2 hplain.2 hstack hvalid hrec⟩

/-- So are several declarations. -/
theorem declsTyped {r : Resolution} : ∀ (ds : List Decl) {env : Env},
    r.HoldsAll (resolveDecls env ds).2 → declViolations r ds = [] →
    (∀ n ∈ declNodes ds, n.FirstOrder) →
      env.scopes.stack ≠ [] → env.Registered → env.classes.Valid →
      (resolveDecls env ds).1.Recorded r → DeclsTyped r env ds (resolveDecls env ds).1
  | [], _, _, _, _, _, _, _, _ => .nil
  | .var d :: ds, env, hold, hviol, hplain, hstack, hreg, hvalid, hrec => by
    rw [resolveDecls_cons] at hold hrec ⊢
    rw [Resolution.HoldsAll.append] at hold
    rw [declViolations, List.append_eq_nil_iff] at hviol
    rw [declNodes, List.forall_mem_append] at hplain
    have hreg' := hreg.resolve hold.1.errorFree
    have hvalid' := (Decl.var d).valid_resolve hvalid
    obtain ⟨hinit, hdeclare⟩ := Resolution.HoldsAll.append.mp (Decl.resolve_var env d ▸ hold.1)
    obtain ⟨scopes, hs, heq⟩ := Env.declareLocal_errorFree hdeclare.errorFree
    have hd : d.declared.isArrow = false := hplain.1 (.var d) List.mem_cons_self
    have henv : ((Decl.var d).resolve env).1 = env.afterLocal scopes 1 := by
      rw [Decl.resolve_var, heq, WrittenTy.cells_of_isArrow hd]
      rfl
    rw [henv] at hold hrec hreg' hvalid' ⊢
    rw [Decl.violations] at hviol
    exact .var hd (Expr.fits_of_expect hvalid hinit hviol.1) hs
      (declsTyped ds hold.2 hviol.2 hplain.2 (Scopes.stack_declare? hs) hreg' hvalid' hrec)
  | .fn f :: ds, env, hold, hviol, hplain, hstack, hreg, hvalid, hrec => by
    rw [resolveDecls_cons] at hold hrec ⊢
    rw [Resolution.HoldsAll.append] at hold
    rw [declViolations, List.append_eq_nil_iff] at hviol
    rw [declNodes, List.forall_mem_append] at hplain
    have hreg' := hreg.resolve hold.1.errorFree
    have hvalid' := (Decl.fn f).valid_resolve hvalid
    have hrec' := Env.Recorded.of_resolveDecls hreg' hold.2.errorFree hrec
    obtain ⟨hdeclare, hfun⟩ := Resolution.HoldsAll.append.mp (Decl.resolve_fn env f ▸ hold.1)
    obtain ⟨scopes, hs, heq⟩ := Env.declareLocal_errorFree hdeclare.errorFree
    have henv : ((Decl.fn f).resolve env).1 = env.afterLocal scopes 2 := by
      rw [Decl.resolve_fn, heq]
      rfl
    rw [← show ((Decl.fn f).resolve env).1 = _ from congrArg Prod.fst (Decl.resolve_fn env f)]
      at hfun
    rw [henv] at hold hrec hreg' hvalid' hrec' hfun ⊢
    rw [Decl.violations] at hviol
    rw [Decl.nodes] at hplain
    have hstack' := Scopes.stack_declare? hs
    exact .fn hs (f.typed hfun hviol.1 hplain.1 hstack' hvalid' hrec')
      (declsTyped ds hold.2 hviol.2 hplain.2 hstack' hreg' hvalid' hrec)
  | .cls ⟨id, name, superclass, fields, methods, pos⟩ :: ds, env, hold, hviol, hplain, hstack, hreg,
      hvalid, hrec => by
    rw [resolveDecls_cons] at hold hrec ⊢
    rw [Resolution.HoldsAll.append] at hold
    rw [declViolations, List.append_eq_nil_iff] at hviol
    rw [declNodes, List.forall_mem_append] at hplain
    have hreg' := hreg.resolve hold.1.errorFree
    have hvalid' := (Decl.cls ⟨id, name, superclass, fields, methods, pos⟩).valid_resolve hvalid
    have hrec' := Env.Recorded.of_resolveDecls hreg' hold.2.errorFree hrec
    have hrec'' := Env.Recorded.of_resolve hreg hold.1.errorFree hrec'
    rw [Decl.resolve_cls] at hold hrec hreg' hvalid' hrec' ⊢
    obtain ⟨hheader, hmethods⟩ := Resolution.HoldsAll.append.mp hold.1
    obtain ⟨hdepth, hparent, -, scopes, hs, heq⟩ := Env.classHeader_errorFree hheader.errorFree
    rw [heq] at hold hrec hreg' hvalid' hrec' hheader hmethods ⊢
    obtain ⟨hdraft, hlast⟩ := Resolution.HoldsAll.append.mp hheader
    have hdecl := hlast _ List.mem_cons_self
    rw [Decl.violations, if_pos (Resolution.contains_decls hdecl), List.append_eq_nil_iff] at hviol
    have hrecord : r.class? name =
        some (env.classRecord ⟨id, name, superclass, fields, methods, pos⟩
          (env.draftOf ⟨id, name, superclass, fields, methods, pos⟩).layout) := by
      refine hrec' name _ ?_
      rw [ClassTable.getElem?_add]
      exact if_pos rfl
    have htyped := ClassDecl.typed hdepth hparent hdraft hs hviol.1.1 hplain.1 hvalid hrec'' hrecord
    have hstack' : scopes.stack ≠ [] := Scopes.stack_declare? hs
    rw [Decl.nodes, List.cons_append, List.forall_mem_cons, List.forall_mem_append] at hplain
    exact .cls htyped
      (methodsTyped methods hmethods hviol.1.2 (ClassDecl.methods_declared hdraft) hplain.1.2.2
        (List.cons_ne_nil _ _) hvalid' hrec')
      (declsTyped ds hold.2 hviol.2 hplain.2 hstack' hreg' hvalid' hrec)

end

theorem Env.registered_global : Env.global.Registered := by
  intro _ name hname
  rw [show Env.global.classes.records = ∅ from rfl] at hname
  simp at hname

/-- The records that resolution ends with are the records in the end. -/
theorem Program.recorded (p : Program) : (resolveDecls .global p.decls).1.Recorded p.resolve :=
  fun _ _ hrecord => hrecord

/-- An accepted program is typed by the rules. -/
theorem Program.typed {p : Program} (hdistinct : p.Distinct) (hplain : p.FirstOrder)
    (hresolve : p.resolve.errors = []) (hcheck : (p.check p.resolve).errors = []) :
    ∃ t, (p.check p.resolve).result = some t ∧ p.Typed p.resolve t := by
  obtain ⟨hdecls, hbody⟩ := Resolution.HoldsAll.append.mp (Program.holdsAll hdistinct hresolve)
  have hplain' : ∀ n ∈ declNodes p.decls, n.FirstOrder := (List.forall_mem_append.mp hplain).1
  unfold Program.check at hcheck ⊢
  cases hinfer : p.body.infer p.resolve with
  | error refusal =>
    rw [hinfer] at hcheck
    obtain ⟨-, hrefusal⟩ := List.append_eq_nil_iff.mp hcheck
    cases refusal with
    | violation => cases hrefusal
    | unresolved =>
      have hserved := AllServed.append.mp (Program.served hdistinct.built hresolve)
      exact absurd hinfer (p.body.infer_ne_unresolved hserved.2)
  | ok t =>
    rw [hinfer] at hcheck
    exact ⟨t, rfl, _, declsTyped p.decls hdecls hcheck hplain' (List.cons_ne_nil _ _)
      Env.registered_global Env.valid_global p.recorded, Expr.typed_of_infer hbody hinfer⟩

end Stackling
