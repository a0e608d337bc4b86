import Stackling.Proofs.Resolution.Agreement

/-!
# Resolution is lexical scoping

Resolution walks a program once and changes its scopes on the way; offsets, types and layouts go
along with the names. Against the occurrences of names, which know nothing of all this, it is right:
each use is bound to the entry of its declaration, over as many frames as there are scopes between,
and errors are reported for those uses and declarations that are at fault and for no others.
-/

namespace Stackling

/-! ### Programs -/

/-- There is no class in the body of a function. -/
def Node.isFlat : Node → Bool
  | fn f => f.innerNodes.all fun n => !n.isClass
  | _ => true

/-- No class is declared outside the global scope. -/
def Program.ClassesGlobal (p : Program) : Prop := ∀ n ∈ p.nodes, n.isFlat = true

instance (p : Program) : Decidable p.ClassesGlobal :=
  inferInstanceAs (Decidable (∀ n ∈ p.nodes, n.isFlat = true))

theorem Node.cls_notMem_of_isFlat {f : FunDecl} (h : (Node.fn f).isFlat = true) (c : ClassDecl) :
    .cls c ∉ f.innerNodes := by
  intro hc
  have hclass := List.all_eq_true.mp h _ hc
  cases hclass

mutual

theorem Decl.agrees {r : Resolution} :
    ∀ (d : Decl) {v : View} {env : Env}, v.Mirrors r env → v.IsOpen →
    r.Keeps (d.resolve env).2 → (∀ n ∈ d.nodes, n.isFlat = true) →
    (∀ c, .cls c ∈ d.nodes → env.scopes.depth = 0) →
      (d.occurrences v).1.Mirrors r (d.resolve env).1 ∧ (d.occurrences v).1.IsOpen ∧
        Agrees r (d.occurrences v).2 (d.resolve env).2 d.nodes
  | .var d, v, env, h, hopen, hkeeps, _, _ => by
    rw [Decl.resolve_var, Resolution.Keeps.append] at hkeeps
    have hframe : v.Mirrors r
        { env with frame := (env.frame.allotLocal (Int32.ofNat d.declared.ty.cells)).2 } :=
      ⟨h.levels, h.classes⟩
    rw [Decl.resolve_var, Decl.occurrences_var, Decl.nodes]
    -- the initial value does not see the variable
    refine ⟨hframe.declare hopen rfl hkeeps.2, hopen.declare d.name d.id, ?_⟩
    have hdecl : Agrees r [.declaration .variable d.name d.pos v.levels]
        (env.declareLocal .variable d.id d.name d.pos d.declared.ty).2 [.var d] :=
        hframe.declare_agrees hopen nofun
    exact ((d.init.agrees h hkeeps.1).append hdecl).perm (List.perm_append_singleton _ _)
  | .fn f, v, env, h, hopen, hkeeps, hflat, _ => by
    rw [Decl.resolve_fn, Resolution.Keeps.append] at hkeeps
    rw [Decl.nodes, FunDecl.nodes_eq, List.forall_mem_cons] at hflat
    have hframe : v.Mirrors r { env with frame := (env.frame.allotLocal 2).2 } :=
      ⟨h.levels, h.classes⟩
    have hafter : (v.declare f.name f.id).Mirrors r
        (env.declareLocal .function f.id f.name f.pos (.arrow f.signature)).1 :=
        hframe.declare hopen rfl hkeeps.1
    rw [Decl.resolve_fn, Decl.occurrences, Decl.nodes, FunDecl.nodes_eq]
    refine ⟨hafter, hopen.declare f.name f.id, ?_⟩
    have hdecl : Agrees r [.declaration .function f.name f.pos v.levels]
        (env.declareLocal .function f.id f.name f.pos (.arrow f.signature)).2 [.fn f] :=
      hframe.declare_agrees hopen nofun
    -- the body does see the function
    exact hdecl.append (f.agrees hafter hkeeps.2 hflat.1 hflat.2)
  | .cls ⟨id, name, superclass, fields, methods, pos⟩, v, env, h, hopen, hkeeps, hflat,
      hglobal => by
    have hdepth := hglobal ⟨id, name, superclass, fields, methods, pos⟩
      (by rw [Decl.nodes]; exact List.mem_cons_self)
    rw [Decl.resolve_cls, Resolution.Keeps.append] at hkeeps
    rw [Decl.nodes, List.forall_mem_append] at hflat
    obtain ⟨hmirrors, htable, hheader⟩ := h.declareClass hopen hdepth hkeeps.1
    -- members have depth 1, which is the depth of their scope because the class is global
    have hlength : (env.classHeader ⟨id, name, superclass, fields, methods,
        pos⟩).1.scopes.stack.length = 1 := by
      obtain ⟨ds, outer, hlevels⟩ := hopen
      have hlevels' := h.levels.length_eq
      rw [hlevels, List.length_cons] at hlevels'
      rw [Env.stack_length_classHeader]
      unfold Scopes.depth at hdepth
      omega
    have hmethods := methods_agree methods (hmirrors.enterClass hlength htable) hkeeps.2 hflat.2
    have hfields : Agrees r [] [] (fields.map Node.typed) :=
      .silent rfl rfl fun id e he => by simp at he
    rw [Decl.resolve_cls, Decl.occurrences_cls, Decl.nodes]
    refine ⟨hmirrors, hopen.declare name id, ?_⟩
    have hall := (hheader.append hfields).append hmethods
    rwa [List.append_nil, List.append_nil] at hall

theorem FunDecl.agrees {r : Resolution} : ∀ (f : FunDecl) {v : View} {env : Env}, v.Mirrors r env →
    r.Keeps (f.resolve env) → (Node.fn f).isFlat = true → (∀ n ∈ f.innerNodes, n.isFlat = true) →
      Agrees r (f.occurrences v) (f.resolve env) f.innerNodes
  | ⟨id, name, params, result, decls, body, pos⟩, v, env, h, hkeeps, hflat, hinner => by
    have hclass := Node.cls_notMem_of_isFlat hflat
    rw [FunDecl.innerNodes, List.forall_mem_append, List.forall_mem_append] at hinner
    rw [FunDecl.resolve_eq, Resolution.Keeps.append, Resolution.Keeps.append] at hkeeps
    obtain ⟨hmirrors, hopen, hparams⟩ :=
      params_agree params h.enterBody ⟨[], v.levels, rfl⟩ hkeeps.1.1
    obtain ⟨hmirrors', -, hdecls⟩ :=
      decls_agree decls hmirrors hopen hkeeps.1.2 hinner.1.2 fun c hc =>
      absurd (List.mem_append_left _ (List.mem_append_right _ hc)) (hclass c)
    rw [FunDecl.resolve_eq, FunDecl.occurrences_eq]
    exact (hparams.append hdecls).append (body.agrees hmirrors' hkeeps.2)

theorem decls_agree {r : Resolution} :
    ∀ (ds : List Decl) {v : View} {env : Env}, v.Mirrors r env → v.IsOpen →
    r.Keeps (resolveDecls env ds).2 → (∀ n ∈ declNodes ds, n.isFlat = true) →
      (∀ c, .cls c ∈ declNodes ds → env.scopes.depth = 0) →
      (declOccurrences v ds).1.Mirrors r (resolveDecls env ds).1 ∧ (declOccurrences v ds).1.IsOpen ∧
        Agrees r (declOccurrences v ds).2 (resolveDecls env ds).2 (declNodes ds)
  | [], _, _, h, hopen, _, _, _ => by
    rw [declOccurrences, resolveDecls, declNodes]
    exact ⟨h, hopen, .nil⟩
  | d :: ds, v, env, h, hopen, hkeeps, hflat, hglobal => by
    rw [resolveDecls_cons, Resolution.Keeps.append] at hkeeps
    rw [declNodes, List.forall_mem_append] at hflat
    simp only [declNodes, List.mem_append] at hglobal
    obtain ⟨hmirrors, hopen', hfirst⟩ :=
      d.agrees h hopen hkeeps.1 hflat.1 fun c hc => hglobal c (.inl hc)
    obtain ⟨hmirrors', hopen'', hrest⟩ :=
      decls_agree ds hmirrors hopen' hkeeps.2 hflat.2 fun c hc =>
      (d.depth_resolve env).trans (hglobal c (.inr hc))
    rw [declOccurrences_cons, resolveDecls_cons, declNodes]
    exact ⟨hmirrors', hopen'', hfirst.append hrest⟩

theorem methods_agree {r : Resolution} :
    ∀ (ms : List FunDecl) {v : View} {env : Env}, v.Mirrors r env →
    r.Keeps (resolveMethods env ms) → (∀ n ∈ methodNodes ms, n.isFlat = true) →
      Agrees r (methodOccurrences v ms) (resolveMethods env ms) (methodNodes ms)
  | [], _, _, _, _, _ => .nil
  | m :: ms, v, env, h, hkeeps, hflat => by
    rw [resolveMethods, Resolution.Keeps.append] at hkeeps
    rw [methodNodes, FunDecl.nodes_eq, List.forall_mem_append, List.forall_mem_cons] at hflat
    have hmethod : Agrees r [] [] [.fn m] := .silent rfl rfl fun id e he => by simp at he
    rw [methodOccurrences, resolveMethods, methodNodes, FunDecl.nodes_eq]
    exact (hmethod.append (m.agrees h hkeeps.1 hflat.1.1 hflat.1.2)).append
      (methods_agree ms h hkeeps.2 hflat.2)

end

namespace Program

variable {p : Program}

theorem mirrors_global (r : Resolution) : View.global.Mirrors r .global := by
  refine ⟨⟨fun x => ?_, trivial⟩, fun x => ?_⟩
  · rw [show (∅ : Scope)[x]? = none by simp]
    exact .none
  · rw [show Env.global.classes.records[x]? = none by simp [Env.global]]
    exact .none

theorem agrees (hdistinct : p.Distinct) (hglobal : p.ClassesGlobal) :
    Agrees p.resolve p.occurrences p.findings p.nodes := by
  obtain ⟨hdecls, hbody⟩ := Resolution.Keeps.append.mp (keeps hdistinct)
  obtain ⟨hmirrors, -, hagrees⟩ :=
    decls_agree p.decls (mirrors_global p.resolve) ⟨[], [], rfl⟩ hdecls
      (List.forall_mem_append.mp hglobal).1 fun c hc => rfl
  exact hagrees.append (p.body.agrees hmirrors hbody)

/-- A use without a declaration is not bound. -/
theorem notBound_of_target? (h : Agrees p.resolve p.occurrences p.findings p.nodes)
    (hdistinct : p.Distinct) {u : NameUse} (hu : .use u ∈ p.occurrences)
    (htarget : u.target? = none) :
    p.resolve.uses[u.id]? = none ∧ p.resolve.sends[u.id]? = none := by
  have hunbound : 0 < (p.occurrences.filterMap Occurrence.unbound?).count u.id := by
    refine List.count_pos_iff.mpr (List.mem_filterMap.mpr ⟨_, hu, ?_⟩)
    simp [Occurrence.unbound?, htarget]
  have hle := Nat.le_trans (h.single u.id) (List.nodup_iff_count.mp hdistinct u.id)
  have hnone : ∀ f ∈ p.findings, f.bound? ≠ some u.id := by
    intro f hf hbound
    have hpos := List.count_pos_iff.mpr (List.mem_filterMap.mpr ⟨f, hf, hbound⟩)
    omega
  constructor
  · cases huse : p.resolve.uses[u.id]? with
    | none => rfl
    | some b => exact absurd rfl (hnone _ (Resolution.use_mem huse))
  · cases hsend : p.resolve.sends[u.id]? with
    | none => rfl
    | some d => exact absurd rfl (hnone _ (Resolution.send_mem hsend))

/-- Resolution is lexical scoping, also in programs with errors. Every name that an expression looks
up is among the occurrences. A use is bound to the entry of its declaration, and its hops are the
scopes between; a use without a declaration is not bound. The errors about scopes are those of the
occurrences, in their order. -/
theorem resolve_lexical (hdistinct : p.Distinct) (hglobal : p.ClassesGlobal) :
    (∀ id e, .use id e ∈ p.nodes → (∃ cls args pos, e = .new id cls args pos) ∨
      ∃ u, .use u ∈ p.occurrences ∧ e.LooksUp u) ∧
    (∀ u, .use u ∈ p.occurrences →
      match u.target? with
      | some (hops, d) => ∃ entry, p.resolve.decls[d]? = some entry ∧ entry.depth ≤ u.depth ∧
        Binding.hops ⟨entry, u.depth⟩ = hops ∧ u.Binds p.resolve p.resolve.errors ⟨entry, u.depth⟩
      | none => p.resolve.uses[u.id]? = none ∧ p.resolve.sends[u.id]? = none) ∧
    p.resolve.errors.filter ScopeError.isScoping = p.occurrences.filterMap Occurrence.error? := by
  have hagrees := agrees hdistinct hglobal
  refine ⟨hagrees.covers, fun u hu => ?_, hagrees.errors⟩
  cases htarget : u.target? with
  | none => exact notBound_of_target? hagrees hdistinct hu htarget
  | some t =>
    obtain ⟨entry, hentry, hdepth, hbinds⟩ := hagrees.resolved u hu t.1 t.2 htarget
    refine ⟨entry, hentry, by omega, ?_, hbinds⟩
    show u.depth - entry.depth = t.1
    omega

/-- A function in a method uses its parameter, an inherited field and a variable that is out of
scope. -/
def nested : Program where
  decls := [
    .cls {
      id := 0
      name := "A"
      superclass := none
      fields := [⟨1, "a", .int, default⟩]
      methods := []
      pos := default },
    .cls {
      id := 2
      name := "B"
      superclass := some "A"
      fields := []
      methods := [
        { id := 3, name := "m", params := [⟨4, "x", .int, default⟩], result := .int,
          decls := [.fn {
            id := 5, name := "f", params := [⟨6, "y", .int, default⟩], result := .int, decls := [],
            body := .binary .add (.name 7 "a" default)
              (.binary .add (.name 8 "y" default) (.name 9 "z" default) default) default, pos :=
              default }],
          body := .call 10 "f" [.name 11 "x" default] default, pos := default }]
      pos := default },
    .var ⟨12, "z", .int, .name 13 "z" default, default⟩,
    .var ⟨14, "z", .bool, .bool true default, default⟩]
  body := .name 15 "z" default
  pos := default

theorem resolve_lexical_nested :
    (∃ entry, nested.resolve.decls[1]? = some entry ∧ nested.resolve.uses[7]? = some ⟨entry, 3⟩ ∧
      Binding.hops ⟨entry, 3⟩ = 2) ∧
    nested.resolve.errors.filter ScopeError.isScoping =
      [.undeclared .identifier "z" default, .undeclared .identifier "z" default,
        .redeclared .variable "z" default] := by
  obtain ⟨-, huses, herrors⟩ :=
    resolve_lexical (p := nested) (by decide +kernel) (by decide +kernel)
  have hfound : (nested.occurrences.any fun o => match o with
      | .use u => u.id = 7 && u.target? = some (2, 1) && u.method.isNone && u.depth = 3
      | _ => false) = true := by decide +kernel
  obtain ⟨o, ho, hmatch⟩ := List.any_eq_true.mp hfound
  cases o with
  | use u =>
    simp only [Bool.and_eq_true, decide_eq_true_eq, Option.isNone_iff_eq_none] at hmatch
    obtain ⟨⟨⟨hid, htarget⟩, hmethod⟩, hdepth⟩ := hmatch
    have huse := huses u ho
    rw [htarget, hdepth] at huse
    obtain ⟨entry, hentry, -, hhops, hbinds⟩ := huse
    rw [NameUse.Binds, hmethod, hid] at hbinds
    exact ⟨⟨entry, hentry, hbinds, hhops⟩, herrors.trans (by decide +kernel)⟩
  | declaration => cases hmatch

end Program

end Stackling
