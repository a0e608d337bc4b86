import Stackling.Proofs.Classes.Arrangement
import Stackling.Proofs.Typing.Inference
import Stackling.Proofs.UpperBounds

/-!
# Types come from annotations

Resolution gives a name the type that its declaration is annotated with, and from such types
inference makes others only where it joins the branches of a choice. So the type of an expression is
that of `null` or one that could be written down, and no method or class is part of it. This holds
whatever errors there are.
-/

namespace Stackling

/-! ### Types that can be written -/

namespace Ty

/-- Some annotation denotes the type. -/
def Written (t : Ty) : Prop := ∃ a : WrittenTy, a.ty = t

/-- The types of expressions. -/
def Valued (t : Ty) : Prop := t = .null ∨ t.Written

/-- The types of names. Methods have annotations as functions do. -/
def Declared : Ty → Prop
  | .method sig => (Ty.arrow sig).Written
  | .cls _ => True
  | t => t.Written

theorem written_int : Ty.int.Written := ⟨.int, rfl⟩

theorem written_bool : Ty.bool.Written := ⟨.bool, rfl⟩

theorem written_ref (c : String) : (Ty.ref c).Written := ⟨.ref c, rfl⟩

/-- A function type is written exactly if its parameters and its result are. -/
theorem written_arrow {sig : Signature} :
    (Ty.arrow sig).Written ↔ (∀ p ∈ sig.params, p.Written) ∧ sig.result.Written := by
  obtain ⟨ps, r⟩ := sig
  constructor
  · rintro ⟨a, ha⟩
    cases a with
    | arrow as b =>
      rw [WrittenTy.ty, WrittenTy.tys_eq_map] at ha
      cases ha
      exact ⟨List.forall_mem_map.mpr fun a _ => ⟨a, rfl⟩, b, rfl⟩
    | int | bool | ref => simp [WrittenTy.ty] at ha
  · rintro ⟨hps, b, rfl⟩
    obtain ⟨as, rfl⟩ : ∃ as : List WrittenTy, as.map WrittenTy.ty = ps := by
      induction ps with
      | nil => exact ⟨[], rfl⟩
      | cons p ps ih =>
        obtain ⟨⟨a, rfl⟩, hrest⟩ := List.forall_mem_cons.mp hps
        obtain ⟨as, rfl⟩ := ih hrest
        exact ⟨a :: as, rfl⟩
    exact ⟨.arrow as b, by rw [WrittenTy.ty, WrittenTy.tys_eq_map]⟩

end Ty

mutual

/-- No part of the type is that of a method or of a class. -/
def Ty.isMemberFree : Ty → Bool
  | .int | .bool | .null | .ref _ => true
  | .arrow ⟨ps, r⟩ => allMemberFree ps && r.isMemberFree
  | .method _ | .cls _ => false

/-- The check on lists of types. -/
def allMemberFree : List Ty → Bool
  | [] => true
  | a :: as => a.isMemberFree && allMemberFree as

end

mutual

/-- Annotations cannot mention methods or the members of classes. -/
theorem WrittenTy.isMemberFree_ty : ∀ a : WrittenTy, a.ty.isMemberFree = true
  | .int | .bool | .ref _ => by rw [WrittenTy.ty, Ty.isMemberFree]
  | .arrow as b => by
    rw [WrittenTy.ty, Ty.isMemberFree, allMemberFree_tys as, b.isMemberFree_ty, Bool.and_self]

theorem allMemberFree_tys : ∀ as : List WrittenTy, allMemberFree (WrittenTy.tys as) = true
  | [] => by rw [WrittenTy.tys, allMemberFree]
  | a :: as => by
    rw [WrittenTy.tys, allMemberFree, a.isMemberFree_ty, allMemberFree_tys as, Bool.and_self]

end

theorem Ty.Valued.isMemberFree {t : Ty} (h : t.Valued) : t.isMemberFree = true := by
  rcases h with rfl | ⟨a, rfl⟩
  · rw [Ty.isMemberFree]
  · exact a.isMemberFree_ty

/-- A choice between two values has a type that can be written. -/
theorem Hierarchy.written_of_join? {h : Hierarchy} {a b t : Ty} (ha : a.Valued) (hb : b.Valued)
    (hjoin : h.join? a b = some t) : t.Written := by
  fun_induction h.join? a b generalizing t with
  | case1 c | case2 c =>
    cases hjoin
    exact Ty.written_ref c
  | case3 | case4 | case5 =>
    cases hjoin
    exact Ty.written_int
  | case6 =>
    cases hjoin
    exact Ty.written_bool
  | case7 c d =>
    obtain ⟨e, -, rfl⟩ := Option.map_eq_some_iff.mp hjoin
    exact Ty.written_ref e
  | case8 ps r qs s ih =>
    simp only [Option.bind_eq_bind, Option.bind_eq_some_iff, Option.pure_def, Option.some.injEq]
      at hjoin
    obtain ⟨t, ht, ms, hms, rfl⟩ := hjoin
    obtain ⟨hps, hr⟩ := Ty.written_arrow.mp (ha.resolve_left (by simp))
    obtain ⟨hqs, hs⟩ := Ty.written_arrow.mp (hb.resolve_left (by simp))
    exact Ty.written_arrow.mpr ⟨forall_mem_narrowerAll? hps hqs hms, ih (.inr hr) (.inr hs) ht⟩
  | case9 => cases hjoin

/-! ### Types of declarations -/

/-- An annotation is the type of a declaration. -/
theorem WrittenTy.declared_ty (a : WrittenTy) : a.ty.Declared := by
  cases a with
  | int => exact Ty.written_int
  | bool => exact Ty.written_bool
  | ref c => exact Ty.written_ref c
  | arrow as b => exact ⟨.arrow as b, rfl⟩

/-- The signature of a function is made of annotations. -/
theorem FunDecl.written_signature (f : FunDecl) : (Ty.arrow f.signature).Written :=
  Ty.written_arrow.mpr ⟨List.forall_mem_map.mpr fun p _ => ⟨p.declared, rfl⟩, f.result, rfl⟩

/-- So are the types of members. -/
theorem ClassDecl.declared_ownMembers (c : ClassDecl) : ∀ m ∈ c.ownMembers, m.ty.Declared := by
  rw [ClassDecl.ownMembers, List.forall_mem_append, List.forall_mem_map, List.forall_mem_map]
  exact ⟨fun f _ => f.declared.declared_ty, fun m _ => m.written_signature⟩

namespace Ty.Declared

variable {t : Ty}

/-- A name that is used as a value has a type that can be written. -/
theorem written_of_asValue (h : t.Declared) {x : String} {pos : SourcePos} {t' : Ty}
    (hvalue : t.asValue x pos = .ok t') :
    t'.Written := by
  cases t with
  | method | cls => cases hvalue
  | int | bool | null | ref | arrow =>
    cases hvalue
    exact h

/-- So has the result of whatever can be called. -/
theorem written_result (h : t.Declared) {sig : Signature} (hsig : t.signature? = some sig) :
    sig.result.Written := by
  cases t with
  | arrow | method =>
    cases hsig
    exact (Ty.written_arrow.mp h).2
  | int | bool | null | ref | cls => cases hsig

end Ty.Declared

/-- The tables bind uses to things of declared types. -/
structure Resolution.Declares (r : Resolution) : Prop where
  use : ∀ (id : NodeId) (b : Binding), r.uses[id]? = some b → b.entry.ty.Declared
  send : ∀ (id : NodeId) (d : Dispatch), r.sends[id]? = some d → d.method.ty.Declared

/-- So has the result of an operator. -/
theorem BinOp.written_of_infer {h : Hierarchy} {op : BinOp} {a b t : Ty} {pos : SourcePos}
    (hinfer : op.infer h a b pos = .ok t) : t.Written := by
  have hty : t = .int ∨ t = .bool := by
    unfold BinOp.infer at hinfer
    repeat' split at hinfer
    all_goals cases hinfer
    all_goals simp
  rcases hty with rfl | rfl
  · exact Ty.written_int
  · exact Ty.written_bool

/-- What is inferred from declared types is the type of a value. -/
theorem Expr.valued_of_infer {r : Resolution} (hr : r.Declares) :
    ∀ (e : Expr) {t : Ty}, e.infer r = .ok t → t.Valued
  | .int _ _, t, h => by
    cases h
    exact .inr Ty.written_int
  | .bool _ _, t, h => by
    cases h
    exact .inr Ty.written_bool
  | .null _, t, h => by
    cases h
    exact .inl rfl
  | .name id x pos, t, h => by
    simp only [Expr.infer, Except.bind_eq_ok, Resolution.useOf_eq_ok] at h
    obtain ⟨b, huse, hvalue⟩ := h
    exact .inr ((hr.use id b huse).written_of_asValue hvalue)
  | .binary op left right pos, t, h => by
    simp only [Expr.infer, Except.bind_eq_ok] at h
    obtain ⟨a, -, b, -, hop⟩ := h
    exact .inr (BinOp.written_of_infer hop)
  | .not e pos, t, h => by
    rw [Expr.infer, Except.bind_eq_ok] at h
    obtain ⟨a, -, h⟩ := h
    split at h
    next =>
      cases h
      exact .inr Ty.written_bool
    next => cases h
  | .ite c y n pos, t, h => by
    rw [Expr.infer, Except.bind_eq_ok] at h
    obtain ⟨a, -, h⟩ := h
    split at h
    next =>
      simp only [Except.bind_eq_ok] at h
      obtain ⟨b, hb, b', hb', h⟩ := h
      split at h
      next hjoin =>
        cases h
        exact .inr (Hierarchy.written_of_join? (y.valued_of_infer hr hb) (n.valued_of_infer hr hb')
          hjoin)
      next => cases h
    next => cases h
  | .print e pos, t, h => by
    rw [Expr.infer] at h
    exact e.valued_of_infer hr h
  | .call id callee args pos, t, h => by
    simp only [Expr.infer, Except.bind_eq_ok, Resolution.useOf_eq_ok, Ty.asCallee_eq_ok] at h
    obtain ⟨b, huse, sig, ⟨hsig, -⟩, _, -, ⟨⟩⟩ := h
    exact .inr ((hr.use id b huse).written_result hsig)
  | .send id receiver method args pos, t, h => by
    simp only [Expr.infer, Except.bind_eq_ok, Resolution.sendOf_eq_ok, Ty.asCallee_eq_ok] at h
    obtain ⟨d, hsend, sig, ⟨hsig, -⟩, _, -, ⟨⟩⟩ := h
    exact .inr ((hr.send id d hsend).written_result hsig)
  | .new id cls args pos, t, h => by
    simp only [Expr.infer, Except.bind_eq_ok] at h
    obtain ⟨b, -, c, -, _, -, ⟨⟩⟩ := h
    exact .inr (Ty.written_ref cls)

/-! ### Resolution -/

/-- Members have declared types. -/
def ObjectLayout.Declares (l : ObjectLayout) : Prop :=
  ∀ (x : String) (m : Member), l.members[x]? = some m → m.entry.ty.Declared

/-- What is in force has declared types: names in scope, and classes with their members. -/
structure Env.Declares (env : Env) : Prop where
  names : ∀ (x : String) (entry : Entry), env.scopes.lookup? x = some entry → entry.ty.Declared
  records : ∀ (x : String) (record : ClassRecord), env.classes.records[x]? = some record →
    record.entry.ty.Declared ∧ record.layout.Declares

/-- A use that is found is one of a thing of a declared type. -/
def Finding.Declared : Finding → Prop
  | .use _ b => b.entry.ty.Declared
  | .send _ d => d.method.ty.Declared
  | .decl _ _ | .position _ _ | .error _ => True

/-- All entries among the findings have types of declarations. -/
def AllDeclared (found : List Finding) : Prop := ∀ f ∈ found, f.Declared

namespace AllDeclared

variable {found more : List Finding} {f : Finding}

theorem nil : AllDeclared [] := List.forall_mem_nil _

theorem append (h : AllDeclared found) (h' : AllDeclared more) : AllDeclared (found ++ more) :=
  List.forall_mem_append.mpr ⟨h, h'⟩

theorem cons (hf : f.Declared) (h : AllDeclared found) : AllDeclared (f :: found) :=
  List.forall_mem_cons.mpr ⟨hf, h⟩

end AllDeclared

namespace Env.Declares

variable {env : Env} {id : NodeId} {x : String} {pos : SourcePos}

theorem global : Env.global.Declares where
  names x entry h := by simp [Env.global, Scopes.lookup?, Scopes.push] at h
  records x record h := by simp [Env.global] at h

/-! #### Uses -/

/-- A name is found with the type of a declaration. -/
theorem useName (h : env.Declares) {kind : NameKind} : (env.useName kind id x pos).Declared := by
  unfold Env.useName
  split
  next b hb =>
    obtain ⟨entry, hentry, rfl⟩ := Option.map_eq_some_iff.mp hb
    exact h.names x entry hentry
  next => trivial

theorem useClass (h : env.Declares) : (env.useClass id x pos).Declared := by
  unfold Env.useClass
  split
  next record hrecord => exact (h.records x record hrecord).1
  next => trivial

theorem useMethod (h : env.Declares) {method : String} :
    (env.useMethod id x method pos).Declared := by
  unfold Env.useMethod
  split
  next => trivial
  next b hb =>
    split
    next cls hty =>
      split
      next => trivial
      next record hrecord =>
        split
        next member hmember =>
          exact (h.records cls record hrecord).2 method member
            (Option.filter_eq_some_iff.mp hmember).1
        next => trivial
    next => trivial

end Env.Declares

mutual

/-- Every use in an expression is one of a declaration. -/
theorem Expr.allDeclared {env : Env} (h : env.Declares) : ∀ e : Expr, AllDeclared (e.resolve env)
  | .int _ _ | .bool _ _ | .null _ => .nil
  | .name _ _ _ => .cons h.useName .nil
  | .binary _ l r _ => (l.allDeclared h).append (r.allDeclared h)
  | .not e _ | .print e _ => e.allDeclared h
  | .ite c y n _ => ((c.allDeclared h).append (y.allDeclared h)).append (n.allDeclared h)
  | .call _ _ args _ => .cons h.useName (args_allDeclared h args)
  | .send _ _ _ args _ => .cons h.useMethod (args_allDeclared h args)
  | .new _ _ args _ => .cons h.useClass (args_allDeclared h args)

/-- So is every use in the arguments of a call. -/
theorem args_allDeclared {env : Env} (h : env.Declares) :
    ∀ es : List Expr, AllDeclared (resolveArgs env es)
  | [] => .nil
  | e :: es => (e.allDeclared h).append (args_allDeclared h es)

end

namespace Env.Declares

variable {env : Env} {id : NodeId} {x : String} {pos : SourcePos} {kind : NameKind}

/-! #### Declarations -/

theorem declare? (h : env.Declares) {entry : Entry} {scopes : Scopes}
    (hs : env.scopes.declare? x entry = some scopes) (hty : entry.ty.Declared) (y : String)
    (e : Entry) (he : scopes.lookup? y = some e) :
    e.ty.Declared := by
  rw [Scopes.lookup?_declare? hs] at he
  split at he
  · cases he
    exact hty
  · exact h.names y e he

/-- An entry with the type of a declaration keeps the environment so. -/
theorem declare (h : env.Declares) (entry : Entry) (hty : entry.ty.Declared) :
    (env.declare kind id x pos entry).1.Declares ∧
    AllDeclared (env.declare kind id x pos entry).2 := by
  unfold Env.declare
  split
  next scopes hs => exact ⟨⟨h.declare? hs hty, h.records⟩, .cons trivial .nil⟩
  next => exact ⟨h, .cons trivial (.cons trivial .nil)⟩

/-- The same of a declaration in the current frame. -/
theorem declareLocal (h : env.Declares) {ty : Ty} (hty : ty.Declared) :
    (env.declareLocal kind id x pos ty).1.Declares ∧
    AllDeclared (env.declareLocal kind id x pos ty).2 := by
  have hframe : Env.Declares
      { env with frame := (env.frame.allotLocal (Int32.ofNat ty.cells)).2 } := ⟨h.names, h.records⟩
  exact hframe.declare (env.localEntry ty) hty

/-- Parameters have the types of their annotations. -/
theorem declareParams (h : env.Declares) (ps : List TypedName) :
    (env.declareParams ps).1.Declares ∧ AllDeclared (env.declareParams ps).2 := by
  induction ps generalizing env with
  | nil => exact ⟨h, .nil⟩
  | cons p ps ih =>
    have hframe : Env.Declares
        { env with frame := (env.frame.allotParam (Int32.ofNat p.declared.ty.cells)).2 } :=
      ⟨h.names, h.records⟩
    have hp : (env.declareParam p).1.Declares ∧ AllDeclared (env.declareParam p).2 :=
      hframe.declare (env.paramEntry p.declared.ty) p.declared.declared_ty
    have hrest := ih hp.1
    rw [Env.declareParams_cons]
    exact ⟨hrest.1, hp.2.append hrest.2⟩

theorem push (h : env.Declares) {scope : Scope}
    (hscope : ∀ (x : String) (e : Entry), scope[x]? = some e → e.ty.Declared) (x : String)
    (e : Entry) (he : (env.scopes.push scope).lookup? x = some e) : e.ty.Declared := by
  rw [Scopes.lookup?_push, Option.or_eq_some_iff] at he
  rcases he with he | ⟨-, he⟩
  · exact hscope x e he
  · exact h.names x e he

/-- Entering a body adds no entries. -/
theorem enterBody (h : env.Declares) : env.enterBody.Declares :=
  ⟨h.push (by simp), h.records⟩

/-- Inside a class its members are added, with the types of their declarations. -/
theorem enterClass (h : env.Declares) {l : ObjectLayout} (hl : l.Declares) :
    (env.enterClass l).Declares := by
  refine ⟨h.push fun x e he => ?_, h.records⟩
  rw [ObjectLayout.scope, Std.TreeMap.getElem?_map] at he
  obtain ⟨m, hm, rfl⟩ := Option.map_eq_some_iff.mp he
  exact hl x m hm

end Env.Declares

/-! #### Classes -/

/-- A member with the type of a declaration keeps the draft so, whether it is placed or refused. -/
theorem ClassDraft.declares_addOwn {d : ClassDraft}
    (hd : d.layout.Declares ∧ AllDeclared d.findings) {cls : String} {m : OwnMember}
    (hm : m.ty.Declared) :
    (d.addOwn cls m).layout.Declares ∧ AllDeclared (d.addOwn cls m).findings := by
  rcases d.addOwn_cases cls m with ⟨e, -, -, heq⟩ | ⟨-, -, heq⟩
  · rw [heq]
    exact ⟨hd.1, hd.2.append (.cons trivial .nil)⟩
  · rw [heq]
    refine ⟨fun x placed hplaced => ?_, hd.2.append (.cons trivial (.cons trivial .nil))⟩
    rcases ObjectLayout.Arranged.cases_place hplaced with ⟨-, rfl⟩ | ⟨-, hold⟩
    · rw [ObjectLayout.ty_place]
      exact hm
    · exact hd.1 x placed hold

/-- So do all members. -/
theorem ClassDraft.declares_addAll {cls : String} {ms : List OwnMember}
    (hms : ∀ m ∈ ms, m.ty.Declared) {d : ClassDraft}
    (hd : d.layout.Declares ∧ AllDeclared d.findings) :
    (d.addAll cls ms).layout.Declares ∧ AllDeclared (d.addAll cls ms).findings := by
  induction ms generalizing d with
  | nil => exact hd
  | cons m ms ih =>
    rw [List.forall_mem_cons] at hms
    exact ih hms.2 (declares_addOwn hd hms.1)

namespace Env.Declares

variable {env : Env}

/-- The members of a class have the types of their declarations, inherited or not. -/
theorem draftOf (h : env.Declares) (c : ClassDecl) :
    (env.draftOf c).layout.Declares ∧ AllDeclared (env.draftOf c).findings := by
  rw [Env.draftOf, ClassDecl.draft_eq]
  refine ClassDraft.declares_addAll c.declared_ownMembers ⟨?_, .nil⟩
  cases hparent : env.parent? c with
  | none =>
    intro x m hm
    simp at hm
  | some record =>
    obtain ⟨s, -, hs⟩ := Option.bind_eq_some_iff.mp hparent
    exact (h.records s record hs).2

theorem parentFindings (env : Env) (c : ClassDecl) : AllDeclared (env.parentFindings c) := by
  unfold Env.parentFindings
  repeat' split
  all_goals first | exact .nil | exact .cons trivial .nil

/-- A class adds itself with the type of its members. -/
theorem declareClass (h : env.Declares) (c : ClassDecl) {l : ObjectLayout} (hl : l.Declares) :
    (env.declareClass c l).1.Declares ∧ AllDeclared (env.declareClass c l).2 := by
  unfold Env.declareClass
  dsimp only
  split
  next scopes hs =>
    refine ⟨⟨h.declare? hs trivial, fun x record hrecord => ?_⟩, .cons trivial .nil⟩
    rw [ClassTable.getElem?_add] at hrecord
    split at hrecord
    · cases hrecord
      exact ⟨trivial, hl⟩
    · exact h.records x record hrecord
  next => exact ⟨⟨h.names, h.records⟩, .cons trivial .nil⟩

/-- The header of a class, as a whole, keeps the environment so. -/
theorem classHeader (h : env.Declares) (c : ClassDecl) :
    (env.classHeader c).1.Declares ∧ (env.classHeader c).2.1.Declares ∧
    AllDeclared (env.classHeader c).2.2 := by
  obtain ⟨hlayout, hfound⟩ := h.draftOf c
  have hheader := (parentFindings env c).append hfound
  rw [Env.classHeader_eq]
  split
  next =>
    obtain ⟨hafter, hdeclared⟩ := h.declareClass c hlayout
    exact ⟨hafter, hlayout, hheader.append hdeclared⟩
  next => exact ⟨h, hlayout, .cons trivial hheader⟩

end Env.Declares

mutual

/-- Every declaration keeps the environment so, and all uses in it are ones of declarations. -/
theorem Decl.declares {env : Env} (h : env.Declares) :
    ∀ d : Decl, (d.resolve env).1.Declares ∧ AllDeclared (d.resolve env).2
  | .var d => by
    rw [Decl.resolve_var]
    obtain ⟨hafter, hdeclared⟩ := h.declareLocal d.declared.declared_ty
    exact ⟨hafter, (d.init.allDeclared h).append hdeclared⟩
  | .fn f => by
    rw [Decl.resolve_fn]
    obtain ⟨hafter, hdeclared⟩ :=
      h.declareLocal (show (Ty.arrow f.signature).Declared from f.written_signature)
    exact ⟨hafter, hdeclared.append (f.allDeclared hafter)⟩
  | .cls ⟨id, name, superclass, fields, methods, pos⟩ => by
    rw [Decl.resolve_cls]
    obtain ⟨hafter, hlayout, hfound⟩ := h.classHeader ⟨id, name, superclass, fields, methods, pos⟩
    exact ⟨hafter, hfound.append (methods_allDeclared (hafter.enterClass hlayout) methods)⟩

/-- All uses in a function are ones of declarations. -/
theorem FunDecl.allDeclared {env : Env} (h : env.Declares) :
    ∀ f : FunDecl, AllDeclared (f.resolve env)
  | ⟨id, name, params, result, decls, body, pos⟩ => by
    rw [FunDecl.resolve_eq]
    obtain ⟨hinner, hparams⟩ := h.enterBody.declareParams params
    obtain ⟨hlast, hdecls⟩ := declares_resolveDecls hinner decls
    exact (hparams.append hdecls).append (body.allDeclared hlast)

/-- So are all uses in methods. -/
theorem methods_allDeclared {env : Env} (h : env.Declares) :
    ∀ ms : List FunDecl, AllDeclared (resolveMethods env ms)
  | [] => .nil
  | m :: ms => (m.allDeclared h).append (methods_allDeclared h ms)

/-- The run over several declarations. -/
theorem declares_resolveDecls {env : Env} (h : env.Declares) :
    ∀ ds : List Decl, (resolveDecls env ds).1.Declares ∧ AllDeclared (resolveDecls env ds).2
  | [] => ⟨h, .nil⟩
  | d :: ds => by
    rw [resolveDecls_cons]
    obtain ⟨hafter, hfound⟩ := d.declares h
    obtain ⟨hlast, hrest⟩ := declares_resolveDecls hafter ds
    exact ⟨hlast, hfound.append hrest⟩

end

/-- All entries that a program is resolved to have types of declarations. -/
theorem Program.declares (p : Program) : p.resolve.Declares := by
  obtain ⟨hlast, hdecls⟩ := declares_resolveDecls .global p.decls
  have hall : AllDeclared p.findings := hdecls.append (p.body.allDeclared hlast)
  rw [Program.resolve_eq]
  exact ⟨fun id b huse => hall _ (Resolution.use_mem huse), fun id d hsend =>
    hall _ (Resolution.send_mem hsend)⟩

end Stackling
