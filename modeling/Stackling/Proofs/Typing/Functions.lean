import Stackling.Proofs.Code.Shape
import Stackling.Proofs.Semantics.Values
import Stackling.Proofs.Typing.Checked

/-!
# Typing rules for function values

The rules for programs without classes whose annotations may be function types. A variable or a
parameter takes as many cells as its type says. The rules keep track of whether functions return
functions: that is the proposition `escapes`, which such a function needs.
-/

namespace Stackling

/-! ### Wider types -/

/-- A value of the first type may come to have the second one: where a wider type is expected, or as
one of two alternatives. -/
inductive Widens (h : Hierarchy) : Ty → Ty → Prop
  | refl {a : Ty} : Widens h a a
  | sub {a b : Ty} (hsub : h.isSubtype a b) : Widens h a b
  | left {a b t : Ty} (hjoin : h.join? a b = some t) : Widens h a t
  | right {a b t : Ty} (hjoin : h.join? a b = some t) : Widens h b t
  | trans {a b c : Ty} (hab : Widens h a b) (hbc : Widens h b c) : Widens h a c

/-- A function of the first signature can be called by the second one. -/
def Signature.Widens (h : Hierarchy) (s t : Signature) : Prop :=
  List.Forall₂ (fun p q => Stackling.Widens h q p) s.params t.params ∧
    Stackling.Widens h s.result t.result

namespace Widens

variable {h : Hierarchy} {a b : Ty}

theorem value {σ : Store} {v : Value} (hab : Widens h a b) (hv : v.HasTy h σ a) :
    v.HasTy h σ b := by
  induction hab with
  | refl => exact hv
  | sub hsub => exact hv.sub hsub
  | left hjoin => exact .join hjoin (.inl hv)
  | right hjoin => exact .join hjoin (.inr hv)
  | trans _ _ ihab ihbc => exact ihbc (ihab hv)

theorem of_narrower? {c : Ty} (hc : h.narrower? a b = some c) : Widens h c a ∧ Widens h c b := by
  unfold Hierarchy.narrower? at hc
  split at hc
  next hsub =>
    cases hc
    exact ⟨.refl, .sub hsub⟩
  next =>
    split at hc
    next hsub =>
      cases hc
      exact ⟨.sub hsub, .refl⟩
    next => cases hc

theorem of_narrowerAll? : ∀ {ps qs ts : List Ty}, h.narrowerAll? ps qs = some ts →
    List.Forall₂ (fun p t => Widens h t p) ps ts ∧ List.Forall₂ (fun q t => Widens h t q) qs ts
  | [], [], _, hts => by
    cases hts
    exact ⟨.nil, .nil⟩
  | [], _ :: _, _, hts | _ :: _, [], _, hts => by simp [Hierarchy.narrowerAll?] at hts
  | p :: ps, q :: qs, _, hts => by
    simp only [Hierarchy.narrowerAll?, Option.bind_eq_bind, Option.bind_eq_some_iff] at hts
    obtain ⟨t, ht, ts, hts, hcons⟩ := hts
    cases hcons
    have hfirst := of_narrower? ht
    have hrest := of_narrowerAll? hts
    exact ⟨.cons hfirst.1 hrest.1, .cons hfirst.2 hrest.2⟩

theorem of_fitAll :
    ∀ {ps qs : List Ty}, h.fitAll .contra ps qs → List.Forall₂ (fun p q => Widens h q p) ps qs
  | [], [], _ => .nil
  | [], _ :: _, hfit | _ :: _, [], hfit => by simp [Hierarchy.fitAll] at hfit
  | p :: ps, q :: qs, hfit => by
    rw [Hierarchy.fitAll, Bool.and_eq_true] at hfit
    refine .cons (.sub ?_) (of_fitAll hfit.2)
    rw [Hierarchy.isSubtype, ← Hierarchy.fits_flip]
    exact hfit.1

theorem params_trans {ps qs ts : List Ty} (hpq : List.Forall₂ (fun p q => Widens h q p) ps qs)
    (hqt : List.Forall₂ (fun q t => Widens h t q) qs ts) :
    List.Forall₂ (fun p t => Widens h t p) ps ts := by
  induction hpq generalizing ts with
  | nil => exact hqt
  | cons hp _ ih =>
    cases hqt with
    | cons hq hqs => exact .cons (.trans hq hp) (ih hqs)

/-- A type that is wider than a function type is a function type, of a wider signature. -/
theorem arrow {s : Signature} {t : Ty} (hst : Widens h (.arrow s) t) :
    ∃ s', t = .arrow s' ∧ Signature.Widens h s s' := by
  generalize hs : Ty.arrow s = a at hst
  induction hst generalizing s with
  | refl =>
    subst hs
    exact ⟨s, rfl, List.forall₂_same.mpr fun _ _ => .refl, .refl⟩
  | @sub _ b hsub =>
    subst hs
    obtain ⟨ps, a⟩ := s
    cases b with
    | arrow s' =>
      obtain ⟨qs, b⟩ := s'
      rw [Hierarchy.isSubtype, Hierarchy.fits, Bool.and_eq_true] at hsub
      exact ⟨_, rfl, of_fitAll hsub.2, .sub hsub.1⟩
    | int | bool | null | ref _ | method _ | cls _ =>
      simp [Hierarchy.isSubtype, Hierarchy.fits] at hsub
  | @left _ b _ hjoin =>
    subst hs
    obtain ⟨ps, a⟩ := s
    cases b with
    | arrow s' =>
      obtain ⟨qs, b⟩ := s'
      simp only [Hierarchy.join?, Option.bind_eq_bind, Option.bind_eq_some_iff] at hjoin
      obtain ⟨result, hresult, params, hparams, heq⟩ := hjoin
      cases heq
      exact ⟨_, rfl, (of_narrowerAll? hparams).1, .left hresult⟩
    | int | bool | null | ref _ | method _ | cls _ => simp [Hierarchy.join?] at hjoin
  | @right a _ _ hjoin =>
    subst hs
    obtain ⟨qs, b⟩ := s
    cases a with
    | arrow s' =>
      obtain ⟨ps, a⟩ := s'
      simp only [Hierarchy.join?, Option.bind_eq_bind, Option.bind_eq_some_iff] at hjoin
      obtain ⟨result, hresult, params, hparams, heq⟩ := hjoin
      cases heq
      exact ⟨_, rfl, (of_narrowerAll? hparams).2, .right hresult⟩
    | int | bool | null | ref _ | method _ | cls _ => simp [Hierarchy.join?] at hjoin
  | trans _ _ ihab ihbc =>
    obtain ⟨s₁, rfl, hparams₁, hresult₁⟩ := ihab hs
    obtain ⟨s₂, rfl, hparams₂, hresult₂⟩ := ihbc rfl
    exact ⟨s₂, rfl, params_trans hparams₁ hparams₂, .trans hresult₁ hresult₂⟩

end Widens

/-! ### Declarations -/

/-- The environment after the next parameter of the current frame. -/
def Env.afterParam (env : Env) (scopes : Scopes) (ty : Ty) : Env :=
  { env with scopes, frame := (env.frame.allotParam (Int32.ofNat ty.cells)).2 }

/-- Parameters in the frame of a function. -/
inductive ParamsFormed : Env → List TypedName → Env → Prop
  | nil {env : Env} : ParamsFormed env [] env
  | cons {env env' : Env} {p : TypedName} {ps : List TypedName} {scopes : Scopes}
      (hdeclare : env.scopes.declare? p.name (env.paramEntry p.declared.ty) = some scopes)
      (hrest : ParamsFormed (env.afterParam scopes p.declared.ty) ps env') : ParamsFormed env
      (p :: ps) env'

mutual

/-- A function that is declared in an environment. -/
inductive FunDecl.Formed (r : Resolution) (escapes : Prop) : Env → FunDecl → Prop
  | mk {env inner last : Env} {f : FunDecl} (hfree : env.ClassFree)
      (hresult : f.result.isArrow → escapes) (hparams : ParamsFormed env.enterBody f.params inner)
      (hdecls : DeclsFormed r escapes inner f.decls last)
      (hbody : f.body.Fits r last f.result.ty) : FunDecl.Formed r escapes env f

/-- Declarations lead from one environment to another. -/
inductive DeclsFormed (r : Resolution) (escapes : Prop) : Env → List Decl → Env → Prop
  | nil {env : Env} : DeclsFormed r escapes env [] env
  | var {env env' : Env} {d : VarDecl} {ds : List Decl} {scopes : Scopes}
      (hinit : d.init.Fits r env d.declared.ty)
      (hdeclare : env.scopes.declare? d.name (env.localEntry d.declared.ty) = some scopes)
      (hrest : DeclsFormed r escapes (env.afterLocal scopes (Int32.ofNat d.declared.cells)) ds
        env') :
      DeclsFormed r escapes env (.var d :: ds) env'
  | fn {env env' : Env} {f : FunDecl} {ds : List Decl} {scopes : Scopes}
      (hdeclare : env.scopes.declare? f.name (env.localEntry (.arrow f.signature)) = some scopes)
      (hfun : FunDecl.Formed r escapes (env.afterLocal scopes 2) f)
      (hrest : DeclsFormed r escapes (env.afterLocal scopes 2) ds env') :
      DeclsFormed r escapes env (.fn f :: ds) env'

end

variable {r : Resolution} {escapes : Prop} {env env' : Env}

theorem ParamsFormed.classes {ps : List TypedName} (h : ParamsFormed env ps env') :
    env'.classes = env.classes := by
  induction h with
  | nil => rfl
  | cons _ _ ih => exact ih

theorem DeclsFormed.classes :
    ∀ {ds : List Decl} {env : Env}, DeclsFormed r escapes env ds env' → env'.classes = env.classes
  | [], _, .nil => rfl
  | .var _ :: _, _, .var _ _ hrest => hrest.classes
  | .fn _ :: _, _, .fn _ _ hrest => hrest.classes

theorem Env.ClassFree.of_classes (h : env.ClassFree) (heq : env'.classes = env.classes) :
    env'.ClassFree :=
  fun name => heq ▸ h name

/-! ### Accepted programs -/

theorem ParamsFormed.of_errorFree {ps : List TypedName}
    (hfree : ErrorFree (env.declareParams ps).2) :
    ParamsFormed env ps (env.declareParams ps).1 := by
  induction ps generalizing env with
  | nil => exact .nil
  | cons p ps ih =>
    rw [Env.declareParams_cons, ErrorFree.append] at hfree
    obtain ⟨scopes, hs, heq⟩ := Env.declareParam_errorFree hfree.1
    have hrest := ih hfree.2
    rw [Env.declareParams_cons]
    rw [heq] at hrest ⊢
    exact .cons hs hrest

theorem Expr.Meets.fits {e : Expr} {a : WrittenTy} (h : e.Meets r a)
    (hold : r.HoldsAll (e.resolve env)) :
    e.Fits r env a.ty := by
  obtain ⟨t, hinfer, hsub⟩ := h
  exact ⟨t, Expr.typed_of_infer hold hinfer, hsub⟩

/-- Only functions that `escapes` allows return functions. -/
def Node.Returns (escapes : Prop) : Node → Prop
  | fn f => f.result.isArrow → escapes
  | use _ _ | typed _ | var _ | cls _ => True

mutual

theorem FunDecl.formed : ∀ (f : FunDecl) {env : Env}, r.HoldsAll (f.resolve env) → f.Meets r →
    (∀ c, .cls c ∉ f.nodes) → (∀ n ∈ f.nodes, n.Returns escapes) → env.ClassFree →
    f.Formed r escapes env
  | ⟨id, name, params, result, decls, body, pos⟩, env, hold, hmeets, hcls, hreturns, hfree => by
    rw [FunDecl.resolve_eq, Resolution.HoldsAll.append, Resolution.HoldsAll.append] at hold
    rw [FunDecl.Meets] at hmeets
    simp only [FunDecl.nodes, List.mem_append, List.mem_cons, not_or] at hcls
    rw [FunDecl.nodes, List.cons_append, List.cons_append, List.forall_mem_cons,
      List.forall_mem_append, List.forall_mem_append] at hreturns
    obtain ⟨⟨hparams, hdecls⟩, hbody⟩ := hold
    have hinner := ParamsFormed.of_errorFree hparams.errorFree
    exact .mk hfree hreturns.1 hinner
      (declsFormed decls hdecls hmeets.1 (fun c => (hcls c).1.2) hreturns.2.1.2
        (hfree.of_classes hinner.classes)) (hmeets.2.fits hbody)

theorem declsFormed :
    ∀ (ds : List Decl) {env : Env}, r.HoldsAll (resolveDecls env ds).2 → declsMeet r ds →
    (∀ c, .cls c ∉ declNodes ds) → (∀ n ∈ declNodes ds, n.Returns escapes) → env.ClassFree →
    DeclsFormed r escapes env ds (resolveDecls env ds).1
  | [], _, _, _, _, _, _ => .nil
  | .var d :: ds, env, hold, hmeets, hcls, hreturns, hfree => by
    rw [resolveDecls_cons, Resolution.HoldsAll.append] at hold
    rw [declsMeet, Decl.Meets] at hmeets
    simp only [declNodes, List.mem_append, not_or] at hcls
    rw [declNodes, List.forall_mem_append] at hreturns
    obtain ⟨hinit, hdeclare⟩ := Resolution.HoldsAll.append.mp (Decl.resolve_var env d ▸ hold.1)
    obtain ⟨scopes, hs, heq⟩ := Env.declareLocal_errorFree hdeclare.errorFree
    have henv : ((Decl.var d).resolve env).1 =
        env.afterLocal scopes (Int32.ofNat d.declared.cells) := by
      rw [Decl.resolve_var, heq, WrittenTy.cells_ty]
      rfl
    rw [resolveDecls_cons]
    rw [henv] at hold ⊢
    exact .var (hmeets.1.fits hinit) hs
      (declsFormed ds hold.2 hmeets.2 (fun c => (hcls c).2) hreturns.2 hfree)
  | .fn f :: ds, env, hold, hmeets, hcls, hreturns, hfree => by
    rw [resolveDecls_cons, Resolution.HoldsAll.append] at hold
    rw [declsMeet, Decl.Meets] at hmeets
    simp only [declNodes, Decl.nodes, List.mem_append, not_or] at hcls
    rw [declNodes, Decl.nodes, List.forall_mem_append] at hreturns
    obtain ⟨hdeclare, hfun⟩ := Resolution.HoldsAll.append.mp (Decl.resolve_fn env f ▸ hold.1)
    obtain ⟨scopes, hs, heq⟩ := Env.declareLocal_errorFree hdeclare.errorFree
    have henv : ((Decl.fn f).resolve env).1 = env.afterLocal scopes 2 := by
      rw [Decl.resolve_fn, heq]
      rfl
    rw [← show ((Decl.fn f).resolve env).1 = _ from congrArg Prod.fst (Decl.resolve_fn env f)]
      at hfun
    rw [resolveDecls_cons]
    rw [henv] at hold hfun ⊢
    exact .fn hs (f.formed hfun hmeets.1 (fun c => (hcls c).1) hreturns.1 hfree)
      (declsFormed ds hold.2 hmeets.2 (fun c => (hcls c).2) hreturns.2 hfree)
  | .cls c :: ds, _, _, _, hcls, _, _ => by
    refine absurd ?_ (hcls c)
    rw [declNodes, Decl.nodes_cls]
    exact List.mem_append_left _ List.mem_cons_self

end

namespace Program

variable {p : Program}

/-- Some function of the program returns a function. -/
def ReturnsFunctions (p : Program) : Prop := ∃ f, .fn f ∈ p.nodes ∧ f.result.isArrow

/-- A program whose body has a type. -/
def Formed (r : Resolution) (escapes : Prop) (p : Program) (t : Ty) : Prop :=
  ∃ env, DeclsFormed r escapes .global p.decls env ∧ p.body.Typed r env t

theorem formed (hdistinct : p.Distinct) (hclasses : p.ClassFree) (hresolve : p.resolve.errors = [])
    (hcheck : (p.check p.resolve).errors = []) {t : Ty}
    (hresult : (p.check p.resolve).result = some t) :
    p.Formed p.resolve p.ReturnsFunctions t := by
  obtain ⟨hdecls, hbody⟩ := Resolution.HoldsAll.append.mp (Program.holdsAll hdistinct hresolve)
  obtain ⟨hmeets, t', hinfer⟩ := Program.meets hdistinct.built hresolve hcheck
  obtain rfl : t' = t := by
    unfold Program.check at hresult
    rw [hinfer] at hresult
    exact Option.some.inj hresult
  refine ⟨_, declsFormed p.decls hdecls hmeets (fun c hc => hclasses c (List.mem_append_left _ hc))
    ?_ Env.classFree_global, Expr.typed_of_infer hbody hinfer⟩
  intro n hn
  cases n with
  | fn f => exact fun harrow => ⟨f, List.mem_append_left _ hn, harrow⟩
  | use | typed | var | cls => trivial

end Program

/-! ### Code -/

open Code (HeapFree)

mutual

theorem FunDecl.Formed.heapFree {g : CodeContext} :
    (f : FunDecl) → {env : Env} → {q q' : CodeState} →
    {routine : Routine} → f.Formed r escapes env → f.code g q = .ok (routine, q') →
    HeapFree routine.bodies
  | ⟨_, _, _, _, decls, body, _⟩, _, _, _, _, .mk hfree _ hparams hdecls ⟨_, hbody, _⟩, hcode => by
    obtain ⟨locals, q₁, value, s', hlocals, hvalue, -, rfl⟩ := FunDecl.code_eq_ok.mp hcode
    have hinner := hfree.of_classes hparams.classes
    obtain ⟨hcode, hbodies⟩ := DeclsFormed.heapFree decls hdecls hinner hlocals
    simp [FunDecl.routine, hcode, hbodies, body.heapFree (hinner.of_classes hdecls.classes) hbody
      hvalue]

theorem DeclsFormed.heapFree {g : CodeContext} :
    (ds : List Decl) → {env env' : Env} → {q q' : CodeState} →
    {locals : Fragment} → DeclsFormed r escapes env ds env' → env.ClassFree →
    declCode g ds q = .ok (locals, q') → HeapFree locals.code ∧ HeapFree locals.bodies
  | [], _, _, _, _, _, .nil, _, hcode => by
    obtain ⟨rfl, -⟩ := declCode_nil.mp hcode
    exact ⟨.nil, .nil⟩
  | .var d :: ds, _, _, _, _, _, .var ⟨_, hinit, _⟩ _ hrest, hfree, hcode => by
    obtain ⟨first, q₁, rest, hfirst, hds, rfl⟩ := declCode_cons.mp hcode
    obtain ⟨value, s', hvalue, rfl, rfl⟩ := Decl.code_var.mp hfirst
    obtain ⟨hcode, hbodies⟩ := DeclsFormed.heapFree ds hrest hfree hds
    simp [hcode, hbodies, d.init.heapFree hfree hinit hvalue]
  | .fn f :: ds, _, _, _, _, _, .fn _ hfun hrest, hfree, hcode => by
    obtain ⟨first, q₁, rest, hfirst, hds, rfl⟩ := declCode_cons.mp hcode
    obtain ⟨routine, hroutine, rfl⟩ := Decl.code_fn.mp hfirst
    obtain ⟨hcode, hbodies⟩ := DeclsFormed.heapFree ds hrest hfree hds
    simp [hcode, hbodies, FunDecl.Formed.heapFree f hfun hroutine]

end

theorem Program.Formed.heapFree {p : Program} {t : Ty} (h : p.Formed r escapes t)
    {globalFrame : Int32} {listing : Listing} (hgenerate : p.generate r globalFrame = .ok listing) :
    HeapFree listing.instrs := by
  obtain ⟨locals, q, value, s', hlocals, hvalue, rfl⟩ := generate_eq_ok.mp hgenerate
  obtain ⟨env, hdecls, hbody⟩ := h
  obtain ⟨hcode, hbodies⟩ := DeclsFormed.heapFree p.decls hdecls Env.classFree_global hlocals
  have hopening : HeapFree p.opening := by
    unfold opening
    split <;> simp
  simp [hopening, hcode, hbodies, p.body.heapFree (Env.classFree_global.of_classes hdecls.classes)
    hbody hvalue]

end Stackling
