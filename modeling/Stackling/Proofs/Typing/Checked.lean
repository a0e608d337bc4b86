import Stackling.Proofs.Typing.Inference

/-!
# What checking finds out

In a program without errors the initial value of each variable and the body of each function have a
type that fits the annotation, whether or not function types occur in it.
-/

namespace Stackling

/-- The expression has a type that fits the annotation. -/
def Expr.Meets (r : Resolution) (e : Expr) (a : WrittenTy) : Prop :=
  ∃ t, e.infer r = .ok t ∧ r.hierarchy.isSubtype t a.ty = true

mutual

/-- The values and bodies in a declaration fit their annotations. -/
def Decl.Meets (r : Resolution) : Decl → Prop
  | .var d => d.init.Meets r d.declared
  | .fn f => f.Meets r
  | .cls ⟨_, _, _, _, methods, _⟩ => methodsMeet r methods

/-- The same of a function: its body meets the declared result. -/
def FunDecl.Meets (r : Resolution) : FunDecl → Prop
  | ⟨_, _, _, result, decls, body, _⟩ => declsMeet r decls ∧ body.Meets r result

/-- The same of several declarations. -/
def declsMeet (r : Resolution) : List Decl → Prop
  | [] => True
  | d :: ds => d.Meets r ∧ declsMeet r ds

/-- The same of the methods of a class. -/
def methodsMeet (r : Resolution) : List FunDecl → Prop
  | [] => True
  | m :: ms => m.Meets r ∧ methodsMeet r ms

end

variable {r : Resolution}

mutual

/-- Without violations, every expression in a declaration meets what is expected of it. -/
theorem Decl.meets : ∀ d : Decl, AllServed r d.nodes → d.violations r = [] → d.Meets r
  | .var d, hserved, hviol => by
    rw [Decl.nodes, AllServed.cons] at hserved
    rw [Decl.violations] at hviol
    exact (Expr.expect_eq_nil_iff hserved.2).mp hviol
  | .fn f, hserved, hviol => by
    rw [Decl.violations] at hviol
    exact f.meets hserved hviol
  | .cls ⟨id, name, superclass, fields, methods, pos⟩, hserved, hviol => by
    rw [Decl.nodes, List.cons_append, AllServed.cons, AllServed.append] at hserved
    obtain ⟨⟨⟨entry, hentry⟩, -⟩, -, hmethods⟩ := hserved
    rw [Decl.violations, if_pos (Resolution.contains_decls hentry), List.append_eq_nil_iff] at hviol
    exact methodsMeet_of_served methods hmethods hviol.2

/-- The same of a function. -/
theorem FunDecl.meets :
    ∀ (f : FunDecl) {kind : NameKind}, AllServed r f.nodes → f.violations r kind = [] → f.Meets r
  | ⟨id, name, params, result, decls, body, pos⟩, kind, hserved, hviol => by
    rw [FunDecl.nodes, List.cons_append, List.cons_append, AllServed.cons, AllServed.append,
      AllServed.append] at hserved
    rw [FunDecl.violations, List.append_eq_nil_iff] at hviol
    exact ⟨declsMeet_of_served decls hserved.2.1.2 hviol.1,
      (Expr.expect_eq_nil_iff hserved.2.2).mp hviol.2⟩

/-- The same of several declarations. -/
theorem declsMeet_of_served :
    ∀ ds : List Decl, AllServed r (declNodes ds) → declViolations r ds = [] → declsMeet r ds
  | [], _, _ => trivial
  | d :: ds, hserved, hviol => by
    rw [declNodes, AllServed.append] at hserved
    rw [declViolations, List.append_eq_nil_iff] at hviol
    exact ⟨d.meets hserved.1 hviol.1, declsMeet_of_served ds hserved.2 hviol.2⟩

/-- The same of the methods of a class. -/
theorem methodsMeet_of_served :
    ∀ ms : List FunDecl, AllServed r (methodNodes ms) → methodViolations r ms = [] →
    methodsMeet r ms
  | [], _, _ => trivial
  | m :: ms, hserved, hviol => by
    rw [methodNodes, AllServed.append] at hserved
    obtain ⟨entry, hentry⟩ := hserved.1 (.fn m) (m.nodes_eq ▸ List.mem_cons_self)
    rw [methodViolations, if_pos (Resolution.contains_decls hentry), List.append_eq_nil_iff]
      at hviol
    exact ⟨m.meets hserved.1 hviol.1, methodsMeet_of_served ms hserved.2 hviol.2⟩

end

/-- All values and bodies of an accepted program fit their annotations, and the body of the program
has a type. -/
theorem Program.meets {p : Program} (hbuilt : p.Built) (hresolve : p.resolve.errors = [])
    (hcheck : (p.check p.resolve).errors = []) :
    declsMeet p.resolve p.decls ∧ ∃ t, p.body.infer p.resolve = .ok t := by
  obtain ⟨hdecls, hbody⟩ := AllServed.append.mp (Program.served hbuilt hresolve)
  unfold Program.check at hcheck
  cases hinfer : p.body.infer p.resolve with
  | error refusal =>
    rw [hinfer] at hcheck
    obtain ⟨-, hrefusal⟩ := List.append_eq_nil_iff.mp hcheck
    cases refusal with
    | violation => cases hrefusal
    | unresolved => exact absurd hinfer (p.body.infer_ne_unresolved hbody)
  | ok t =>
    rw [hinfer] at hcheck
    exact ⟨declsMeet_of_served p.decls hdecls hcheck, t, rfl⟩

end Stackling
