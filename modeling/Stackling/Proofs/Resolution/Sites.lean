import Stackling.Proofs.Code.Pieces
import Stackling.Proofs.Typing.Acceptance

/-!
# Where names are used

An expression that uses a name stands somewhere in the program, and resolution came there with some
environment. Here this environment is found again, for all uses at once: the classes that it knows
are those on record in the end, and what was found for the expression is what the tables hold.
-/

namespace Stackling

/-! ### The nodes of a piece -/

mutual

/-- The nodes of a piece of an expression are nodes of the expression. -/
theorem Expr.nodes_subset_of_mem_pieces :
    ∀ (e : Expr) {e' : Expr}, .expr e' ∈ e.pieces → e'.nodes ⊆ e.nodes
  | .int _ _, _, h | .bool _ _, _, h | .null _, _, h | .name _ _ _, _, h => by
    cases List.mem_singleton.mp h
    exact List.Subset.refl _
  | .binary _ left right _, _, h => by
    rw [Expr.pieces, List.cons_append, List.mem_cons, List.mem_append] at h
    rcases h with heq | h | h
    · cases heq
      exact List.Subset.refl _
    · exact List.subset_append_of_subset_left _ (left.nodes_subset_of_mem_pieces h)
    · exact List.subset_append_of_subset_right _ (right.nodes_subset_of_mem_pieces h)
  | .not e _, _, h | .print e _, _, h => by
    rcases List.mem_cons.mp h with heq | h
    · cases heq
      exact List.Subset.refl _
    · exact e.nodes_subset_of_mem_pieces h
  | .ite c y n _, _, h => by
    rw [Expr.pieces, List.cons_append, List.cons_append, List.mem_cons, List.mem_append,
      List.mem_append] at h
    rcases h with heq | (h | h) | h
    · cases heq
      exact List.Subset.refl _
    · exact List.subset_append_of_subset_left _
        (List.subset_append_of_subset_left _ (c.nodes_subset_of_mem_pieces h))
    · exact List.subset_append_of_subset_left _
        (List.subset_append_of_subset_right _ (y.nodes_subset_of_mem_pieces h))
    · exact List.subset_append_of_subset_right _ (n.nodes_subset_of_mem_pieces h)
  | .call _ _ args _, _, h | .send _ _ _ args _, _, h | .new _ _ args _, _, h => by
    rcases List.mem_cons.mp h with heq | h
    · cases heq
      exact List.Subset.refl _
    · exact List.subset_cons_of_subset _ (args_nodes_subset_of_mem_pieces args h)

/-- The same of the arguments of a call. -/
theorem args_nodes_subset_of_mem_pieces {e' : Expr} :
    ∀ es : List Expr, .expr e' ∈ argPieces es → e'.nodes ⊆ argNodes es
  | [], h => nomatch h
  | e :: es, h => by
    rcases List.mem_append.mp h with h | h
    · exact List.subset_append_of_subset_left _ (e.nodes_subset_of_mem_pieces h)
    · exact List.subset_append_of_subset_right _ (args_nodes_subset_of_mem_pieces es h)

end

mutual

/-- The nodes of an expression inside a declaration are nodes of the declaration. -/
theorem Decl.nodes_subset_of_mem_pieces {e : Expr} :
    ∀ d : Decl, .expr e ∈ d.pieces → e.nodes ⊆ d.nodes
  | .var d, h => by
    rw [Decl.pieces, List.mem_cons] at h
    exact List.subset_cons_of_subset _ (d.init.nodes_subset_of_mem_pieces (h.resolve_left nofun))
  | .fn f, h => by
    rw [Decl.pieces, List.mem_cons] at h
    exact f.nodes_subset_of_mem_pieces (h.resolve_left nofun)
  | .cls ⟨id, name, superclass, fields, methods, pos⟩, h => by
    rw [Decl.pieces, List.mem_cons] at h
    exact List.subset_append_of_subset_right _
      (methods_nodes_subset_of_mem_pieces methods (h.resolve_left nofun))

/-- The same of a function, with the initial values and functions inside it. -/
theorem FunDecl.nodes_subset_of_mem_pieces {e : Expr} :
    ∀ f : FunDecl, .expr e ∈ f.pieces → e.nodes ⊆ f.nodes
  | ⟨id, name, params, result, decls, body, pos⟩, h => by
    rw [FunDecl.pieces, List.cons_append, List.mem_cons, List.mem_append] at h
    rcases h.resolve_left nofun with h | h
    · exact List.subset_append_of_subset_left _
        (List.subset_append_of_subset_right _ (decls_nodes_subset_of_mem_pieces decls h))
    · exact List.subset_append_of_subset_right _ (body.nodes_subset_of_mem_pieces h)

theorem decls_nodes_subset_of_mem_pieces {e : Expr} :
    ∀ ds : List Decl, .expr e ∈ declPieces ds → e.nodes ⊆ declNodes ds
  | [], h => nomatch h
  | d :: ds, h => by
    rcases List.mem_append.mp h with h | h
    · exact List.subset_append_of_subset_left _ (d.nodes_subset_of_mem_pieces h)
    · exact List.subset_append_of_subset_right _ (decls_nodes_subset_of_mem_pieces ds h)

theorem methods_nodes_subset_of_mem_pieces {e : Expr} :
    ∀ ms : List FunDecl, .expr e ∈ methodPieces ms → e.nodes ⊆ methodNodes ms
  | [], h => nomatch h
  | m :: ms, h => by
    rcases List.mem_append.mp h with h | h
    · exact List.subset_append_of_subset_left _ (m.nodes_subset_of_mem_pieces h)
    · exact List.subset_append_of_subset_right _ (methods_nodes_subset_of_mem_pieces ms h)

end

/-- The nodes of every expression of a program are nodes of the program. -/
theorem Program.nodes_subset_of_mem_pieces {p : Program} {e : Expr} (h : .expr e ∈ p.pieces) :
    e.nodes ⊆ p.nodes := by
  rcases List.mem_append.mp h with h | h
  · exact List.subset_append_of_subset_left _ (decls_nodes_subset_of_mem_pieces p.decls h)
  · exact List.subset_append_of_subset_right _ (p.body.nodes_subset_of_mem_pieces h)

/-! ### The environment of a use -/

/-- A use is resolved in an environment whose classes are on record, and what is found there
holds. -/
def Node.Sited (r : Resolution) : Node → Prop
  | .use _ e => ∃ env, env.Recorded r ∧ r.HoldsAll (e.resolve env)
  | _ => True

section Sites

variable {r : Resolution}

mutual

/-- Every node of an expression is a use in the environment where resolution meets the
expression. -/
theorem Expr.sited {env : Env} (hrec : env.Recorded r) :
    ∀ e : Expr, r.HoldsAll (e.resolve env) → ∀ n ∈ e.nodes, n.Sited r
  | .int _ _, _ | .bool _ _, _ | .null _, _ => nofun
  | .name id name pos, hold => List.forall_mem_singleton.mpr ⟨env, hrec, hold⟩
  | .binary _ left right _, hold => by
    rw [Expr.resolve, Resolution.HoldsAll.append] at hold
    exact List.forall_mem_append.mpr ⟨left.sited hrec hold.1, right.sited hrec hold.2⟩
  | .not e _, hold | .print e _, hold => e.sited hrec hold
  | .ite c y n _, hold => by
    rw [Expr.resolve, Resolution.HoldsAll.append, Resolution.HoldsAll.append] at hold
    rw [Expr.nodes, List.forall_mem_append, List.forall_mem_append]
    exact ⟨⟨c.sited hrec hold.1.1, y.sited hrec hold.1.2⟩, n.sited hrec hold.2⟩
  | .call id callee args pos, hold => by
    refine List.forall_mem_cons.mpr ⟨⟨env, hrec, hold⟩, args_sited hrec args ?_⟩
    rw [Expr.resolve, Resolution.HoldsAll.cons] at hold
    exact hold.2
  | .new id cls args pos, hold => by
    refine List.forall_mem_cons.mpr ⟨⟨env, hrec, hold⟩, args_sited hrec args ?_⟩
    rw [Expr.resolve, Resolution.HoldsAll.cons] at hold
    exact hold.2
  | .send id receiver method args pos, hold => by
    refine List.forall_mem_cons.mpr ⟨⟨env, hrec, hold⟩, args_sited hrec args ?_⟩
    rw [Expr.resolve, Resolution.HoldsAll.cons] at hold
    exact hold.2

theorem args_sited {env : Env} (hrec : env.Recorded r) :
    ∀ es : List Expr, r.HoldsAll (resolveArgs env es) → ∀ n ∈ argNodes es, n.Sited r
  | [], _ => nofun
  | e :: es, hold => by
    rw [resolveArgs, Resolution.HoldsAll.append] at hold
    exact List.forall_mem_append.mpr ⟨e.sited hrec hold.1, args_sited hrec es hold.2⟩

end

mutual

/-- Inside a function, too, every node is a use in some environment on record. -/
theorem FunDecl.sited :
    ∀ (f : FunDecl) {env : Env}, r.HoldsAll (f.resolve env) → env.scopes.stack ≠ [] →
    env.Recorded r → ∀ n ∈ f.nodes, n.Sited r
  | ⟨id, name, params, result, decls, body, pos⟩, env, hold, hstack, hrec => by
    rw [FunDecl.resolve_eq, Resolution.HoldsAll.append, Resolution.HoldsAll.append] at hold
    have hdepth := FunDecl.depth_paramEnv ⟨id, name, params, result, decls, body, pos⟩ env
    have hlength := FunDecl.stack_paramEnv ⟨id, name, params, result, decls, body, pos⟩ env
    have hclasses := FunDecl.classes_paramEnv ⟨id, name, params, result, decls, body, pos⟩ env
    rw [← List.length_pos_iff] at hstack
    have hinner : (FunDecl.paramEnv ⟨id, name, params, result, decls, body, pos⟩ env).Recorded
        r := by
      rw [Env.Recorded, hclasses]
      exact hrec
    have hbody := Env.Recorded.resolveDecls hinner (by omega) hold.1.2.errorFree
    rw [FunDecl.nodes, List.forall_mem_append, List.forall_mem_append, List.forall_mem_cons,
      List.forall_mem_map]
    exact ⟨⟨⟨trivial, fun _ _ => trivial⟩,
      decls_sited decls hold.1.2 (List.length_pos_iff.mp (by omega)) (fun h => by omega) hbody⟩,
        body.sited hbody hold.2⟩

theorem methods_sited :
    ∀ (ms : List FunDecl) {env : Env}, r.HoldsAll (resolveMethods env ms) → env.scopes.stack ≠ [] →
    env.Recorded r → ∀ n ∈ methodNodes ms, n.Sited r
  | [], _, _, _, _ => nofun
  | m :: ms, env, hold, hstack, hrec => by
    rw [resolveMethods, Resolution.HoldsAll.append] at hold
    exact List.forall_mem_append.mpr
      ⟨m.sited hold.1 hstack hrec, methods_sited ms hold.2 hstack hrec⟩

/-- Every node of some declarations is a use in some environment on record. Classes declared later
do not take the place of earlier ones. -/
theorem decls_sited :
    ∀ (ds : List Decl) {env : Env}, r.HoldsAll (resolveDecls env ds).2 → env.scopes.stack ≠ [] →
    env.Registered → (resolveDecls env ds).1.Recorded r → ∀ n ∈ declNodes ds, n.Sited r
  | [], _, _, _, _, _ => nofun
  | d :: ds, env, hold, hstack, hreg, hrec => by
    rw [resolveDecls_cons] at hold hrec
    rw [Resolution.HoldsAll.append] at hold
    have hreg' := hreg.resolve hold.1.errorFree
    have hrec' := Env.Recorded.of_resolveDecls hreg' hold.2.errorFree hrec
    have hrec'' := Env.Recorded.of_resolve hreg hold.1.errorFree hrec'
    have hstack' := Decl.stack_ne_nil_resolve hstack d
    refine List.forall_mem_append.mpr ⟨?_, decls_sited ds hold.2 hstack' hreg' hrec⟩
    match d with
    | .var d =>
      rw [Decl.resolve_var] at hold
      obtain ⟨hinit, -⟩ := Resolution.HoldsAll.append.mp hold.1
      exact List.forall_mem_cons.mpr ⟨trivial, d.init.sited hrec'' hinit⟩
    | .fn f =>
      rw [Decl.resolve_fn] at hold hstack' hrec'
      obtain ⟨-, hfun⟩ := Resolution.HoldsAll.append.mp hold.1
      exact f.sited hfun hstack' hrec'
    | .cls ⟨id, name, superclass, fields, methods, pos⟩ =>
      rw [Decl.resolve_cls] at hold hrec'
      obtain ⟨-, hmethods⟩ := Resolution.HoldsAll.append.mp hold.1
      rw [Decl.nodes, List.forall_mem_append, List.forall_mem_cons, List.forall_mem_map]
      exact ⟨⟨trivial, fun _ _ => trivial⟩, methods_sited methods hmethods (List.cons_ne_nil _ _)
        hrec'⟩

end

end Sites

/-- In a program whose nodes have different numbers, all uses have their place. -/
theorem Program.sited {p : Program} (hdistinct : p.Distinct) (h : p.resolve.errors = []) :
    ∀ n ∈ p.nodes, n.Sited p.resolve := by
  obtain ⟨hdecls, hbody⟩ := Resolution.HoldsAll.append.mp (p.holdsAll hdistinct h)
  exact List.forall_mem_append.mpr
    ⟨decls_sited p.decls hdecls (List.cons_ne_nil _ _) Env.registered_global p.recorded,
      p.body.sited p.recorded hbody⟩

end Stackling
