import Stackling.Proofs.Inheritance
import Stackling.Proofs.Resolution.Sites
import Stackling.Proofs.Typing.Annotations
import Stackling.Proofs.Typing.Checked

/-!
# Checking is thorough

The checker passes over what resolution has left open: expressions with names that are not bound,
classes and methods without an entry, members without a place. In a program that is resolved without
errors nothing is left open. Each declaration has a duty of its own, and what is reported are the
faults of all duties, in order, and that of the body.
-/

namespace Stackling

/-! ### Duties -/

/-- What has to be checked of a declaration. -/
inductive Duty where
  /-- The initial value of a variable has a type that fits. -/
  | initial (d : VarDecl)
  /-- The body of a function or method has a type that fits. -/
  | body (kind : NameKind) (f : FunDecl)
  /-- The members of a class fit the places that they take over. -/
  | members (c : ClassDecl)

namespace Duty

/-- The declaration that the duty is about. -/
def node : Duty → Node
  | initial d => .var d
  | body _ f => .fn f
  | members c => .cls c

/-- The declaration and the uses of names that are met when it is checked. -/
def nodes : Duty → List Node
  | initial d => .var d :: d.init.nodes
  | body _ f => .fn f :: f.body.nodes
  | members c => [.cls c]

/-- What the checker has to say. -/
def faults (r : Resolution) : Duty → List TypingError
  | initial d => d.init.expect r d.declared.ty (.incompatibleVariable d.name d.pos)
  | body kind f => f.body.expect r f.result.ty (.wrongReturn kind f.name f.pos)
  | members c => c.overrideViolations r

/-- Nothing stays open: expressions have types, superclasses are on record, and members have
places. -/
def Met (r : Resolution) : Duty → Prop
  | initial d => d.init.Meets r d.declared
  | body _ f => f.body.Meets r f.result
  | members c => ∀ s, c.superclass = some s → ∃ parent, r.class? s = some parent ∧
      ∀ o ∈ c.ownMembers, ∃ i, r.positions[o.id]? = some i ∧ parent.layout.classTy.Admits r o.ty i

end Duty

mutual

/-- The duties in a declaration, in the order of the checker. -/
def Decl.duties : Decl → List Duty
  | .var d => [.initial d]
  | .fn f => f.duties .function
  | .cls ⟨id, name, superclass, fields, methods, pos⟩ =>
    .members ⟨id, name, superclass, fields, methods, pos⟩ :: methodDuties methods

def FunDecl.duties (kind : NameKind) : FunDecl → List Duty
  | ⟨id, name, params, result, decls, body, pos⟩ =>
    declDuties decls ++ [.body kind ⟨id, name, params, result, decls, body, pos⟩]

def declDuties : List Decl → List Duty
  | [] => []
  | d :: ds => d.duties ++ declDuties ds

def methodDuties : List FunDecl → List Duty
  | [] => []
  | m :: ms => m.duties .method ++ methodDuties ms

end

def Program.duties (p : Program) : List Duty := declDuties p.decls

/-! ### Nothing is passed over -/

section Violations

variable {r : Resolution}

mutual

theorem Decl.violations_eq :
    ∀ d : Decl, AllServed r d.nodes → d.violations r = d.duties.flatMap (Duty.faults r)
  | .var d, _ => by
    rw [Decl.violations, Decl.duties, List.flatMap_singleton]
    rfl
  | .fn f, hserved => by
    rw [Decl.violations, Decl.duties]
    exact f.violations_eq hserved
  | .cls ⟨id, name, superclass, fields, methods, pos⟩, hserved => by
    rw [Decl.nodes, List.cons_append, AllServed.cons, AllServed.append] at hserved
    obtain ⟨⟨⟨entry, hentry⟩, -⟩, -, hmethods⟩ := hserved
    rw [Decl.violations, if_pos (Resolution.contains_decls hentry),
      methodViolations_eq methods hmethods, Decl.duties, List.flatMap_cons]
    rfl

theorem FunDecl.violations_eq : ∀ (f : FunDecl) {kind : NameKind}, AllServed r f.nodes →
    f.violations r kind = (f.duties kind).flatMap (Duty.faults r)
  | ⟨id, name, params, result, decls, body, pos⟩, kind, hserved => by
    rw [FunDecl.nodes, List.cons_append, List.cons_append, AllServed.cons, AllServed.append,
      AllServed.append] at hserved
    rw [FunDecl.violations, declViolations_eq decls hserved.2.1.2, FunDecl.duties,
      List.flatMap_append, List.flatMap_singleton]
    rfl

theorem declViolations_eq : ∀ ds : List Decl, AllServed r (declNodes ds) →
    declViolations r ds = (declDuties ds).flatMap (Duty.faults r)
  | [], _ => by rw [declViolations, declDuties, List.flatMap_nil]
  | d :: ds, hserved => by
    rw [declNodes, AllServed.append] at hserved
    rw [declViolations, d.violations_eq hserved.1, declViolations_eq ds hserved.2, declDuties,
      List.flatMap_append]

theorem methodViolations_eq : ∀ ms : List FunDecl, AllServed r (methodNodes ms) →
    methodViolations r ms = (methodDuties ms).flatMap (Duty.faults r)
  | [], _ => by rw [methodViolations, methodDuties, List.flatMap_nil]
  | m :: ms, hserved => by
    rw [methodNodes, AllServed.append] at hserved
    obtain ⟨entry, hentry⟩ := hserved.1 (.fn m) (m.nodes_eq ▸ List.mem_cons_self)
    rw [methodViolations, if_pos (Resolution.contains_decls hentry), m.violations_eq hserved.1,
      methodViolations_eq ms hserved.2, methodDuties, List.flatMap_append]

end

end Violations

/-! ### Each declaration has its duty -/

/-- Parameters and fields are checked with the functions and classes that they belong to. -/
def Node.isChecked : Node → Bool
  | .typed _ => false
  | _ => true

def Node.isDeclaration : Node → Bool
  | .var _ | .fn _ | .cls _ => true
  | .use _ _ | .typed _ => false

theorem Expr.filter_isChecked (e : Expr) : e.nodes.filter Node.isChecked = e.nodes := by
  rw [List.filter_eq_self]
  intro n hn
  obtain ⟨id, u, rfl⟩ := e.exists_use_of_mem hn
  rfl

theorem Expr.filter_isDeclaration (e : Expr) : e.nodes.filter Node.isDeclaration = [] := by
  rw [List.filter_eq_nil_iff]
  intro n hn
  obtain ⟨id, u, rfl⟩ := e.exists_use_of_mem hn
  nofun

theorem filter_isChecked_typed (ts : List TypedName) :
    (ts.map Node.typed).filter Node.isChecked = [] := by
  simp [List.filter_map, Node.isChecked]

mutual

theorem Decl.perm_duties :
    ∀ d : Decl, (d.duties.flatMap Duty.nodes).Perm (d.nodes.filter Node.isChecked)
  | .var d => by
    rw [Decl.duties, List.flatMap_singleton, Decl.nodes, List.filter_cons_of_pos rfl,
      d.init.filter_isChecked]
    exact .refl _
  | .fn f => by
    rw [Decl.duties, Decl.nodes]
    exact f.perm_duties
  | .cls ⟨id, name, superclass, fields, methods, pos⟩ => by
    rw [Decl.duties, List.flatMap_cons, Decl.nodes, List.filter_append, List.filter_cons_of_pos rfl,
      filter_isChecked_typed]
    exact (methods_perm_duties methods).cons _

theorem FunDecl.perm_duties : ∀ (f : FunDecl) {kind : NameKind},
    ((f.duties kind).flatMap Duty.nodes).Perm (f.nodes.filter Node.isChecked)
  | ⟨id, name, params, result, decls, body, pos⟩, kind => by
    rw [FunDecl.duties, List.flatMap_append, List.flatMap_singleton, FunDecl.nodes,
      List.filter_append, List.filter_append, List.filter_cons_of_pos rfl, filter_isChecked_typed,
      body.filter_isChecked]
    exact List.perm_middle.trans (((decls_perm_duties decls).append_right _).cons _)

theorem decls_perm_duties : ∀ ds : List Decl,
    ((declDuties ds).flatMap Duty.nodes).Perm ((declNodes ds).filter Node.isChecked)
  | [] => .refl _
  | d :: ds => by
    rw [declDuties, List.flatMap_append, declNodes, List.filter_append]
    exact d.perm_duties.append (decls_perm_duties ds)

theorem methods_perm_duties : ∀ ms : List FunDecl,
    ((methodDuties ms).flatMap Duty.nodes).Perm ((methodNodes ms).filter Node.isChecked)
  | [] => .refl _
  | m :: ms => by
    rw [methodDuties, List.flatMap_append, methodNodes, List.filter_append]
    exact m.perm_duties.append (methods_perm_duties ms)

end

namespace Duty

theorem filter_nodes (duty : Duty) : duty.nodes.filter Node.isDeclaration = [duty.node] := by
  cases duty with
  | initial d => rw [nodes, List.filter_cons_of_pos rfl, d.init.filter_isDeclaration, node]
  | body kind f => rw [nodes, List.filter_cons_of_pos rfl, f.body.filter_isDeclaration, node]
  | members c => rfl

end Duty

namespace Program

variable {p : Program}

/-- The declarations of a program are those that have duties, as often as they stand in it. -/
theorem perm_duties (p : Program) :
    (p.duties.map Duty.node).Perm (p.nodes.filter Node.isDeclaration) := by
  have hduties := (decls_perm_duties p.decls).filter Node.isDeclaration
  have hnodes : (fun n : Node => n.isDeclaration && n.isChecked) = Node.isDeclaration := by
    funext n
    cases n <;> rfl
  rw [List.filter_filter, hnodes, List.filter_flatMap] at hduties
  simp only [Duty.filter_nodes, ← List.map_eq_flatMap] at hduties
  rw [nodes, List.filter_append, p.body.filter_isDeclaration, List.append_nil]
  exact hduties

theorem nodes_subset_of_mem_duties {duty : Duty} (h : duty ∈ p.duties) : duty.nodes ⊆ p.nodes := by
  intro n hn
  have hmem := (decls_perm_duties p.decls).subset (List.mem_flatMap.mpr ⟨duty, h, hn⟩)
  exact List.mem_append_left _ (List.mem_filter.mp hmem).1

/-! ### Duties without faults are met -/

section Resolved

variable (hbuilt : p.Built) (hresolve : p.resolve.errors = [])

include hresolve in
/-- A class of a program without errors with its environment, the superclass, and the places of its
members. -/
theorem exists_inherited {c : ClassDecl} (hc : .cls c ∈ p.nodes) : ∃ env, Records p.decls c env ∧
    (∀ o ∈ c.ownMembers, ∃ i, p.resolve.positions[o.id]? = some i) ∧
    ∀ s, c.superclass = some s → ∃ parent, env.parent? c = some parent ∧
      p.resolve.class? s = some parent := by
  obtain ⟨env, hrec, hparent, hdraft⟩ := exists_records hresolve hc
  refine ⟨env, hrec, fun o ho => ?_, fun s hs => ?_⟩
  · have hadd := hdraft
    rw [Env.draftOf, ClassDecl.draft_eq] at hadd
    obtain ⟨placed, -, hposition⟩ := ClassDraft.placed_mem_addAll hadd o ho
    rw [← ClassDecl.draft_eq] at hposition
    rw [resolve_eq]
    exact Resolution.exists_position (mem_findings_of_records hrec (.inl hposition))
  · have hmem := (Env.parentFindings_errorFree hparent).2 s hs
    have hrecord := Std.TreeMap.getElem?_eq_some_getElem hmem
    exact ⟨_, by rw [Env.parent?, hs]; exact hrecord, recorded_of_records hrec s _ hrecord⟩

include hresolve in
theorem members_met_iff {c : ClassDecl} (hc : .cls c ∈ p.nodes) :
    c.overrideViolations p.resolve = [] ↔ (Duty.members c).Met p.resolve := by
  obtain ⟨env, hrec, hplaces, hsuper⟩ := exists_inherited hresolve hc
  have hinherits := Env.inherited?_eq hrec.valid (recorded_of_records hrec) (class?_of_records hrec)
  cases hs : c.superclass with
  | none =>
    have hnone : env.parent? c = none := by rw [Env.parent?, hs]; rfl
    rw [hnone] at hinherits
    simp [ClassDecl.overrideViolations, hinherits, Duty.Met, hs]
  | some s =>
    obtain ⟨parent, hparent, hclass⟩ := hsuper s hs
    rw [hparent] at hinherits
    rw [ClassDecl.overrideViolations_eq_nil_iff hinherits]
    constructor
    · intro hadmits s' hs'
      cases hs.symm.trans hs'
      refine ⟨parent, hclass, fun o ho => ?_⟩
      obtain ⟨i, hi⟩ := hplaces o ho
      exact ⟨i, hi, hadmits o ho i hi⟩
    · intro hmet o ho n hn
      obtain ⟨parent', hclass', hmembers⟩ := hmet s hs
      cases hclass.symm.trans hclass'
      obtain ⟨i, hi, hadmits⟩ := hmembers o ho
      cases hn.symm.trans hi
      exact hadmits

include hresolve in
/-- The members of a class narrow those of its superclass, if each of them has its own place. -/
theorem exists_narrowed (hdistinct : p.Distinct) {c : ClassDecl} (hc : .cls c ∈ p.nodes)
    (hviol : c.overrideViolations p.resolve = []) {s : String} (hs : c.superclass = some s) :
    ∃ record parent, p.resolve.class? c.name = some record ∧ p.resolve.class? s = some parent ∧
      ∀ (x : String) (old : Member), parent.layout.members[x]? = some old →
        ∃ m, record.layout.members[x]? = some m ∧
          p.resolve.hierarchy.isSubtype m.entry.ty old.entry.ty = true := by
  obtain ⟨env, hrec, -, hsuper⟩ := exists_inherited hresolve hc
  obtain ⟨parent, hparent, hclass⟩ := hsuper s hs
  refine ⟨env.recordOf c, parent, class?_of_records hrec, hclass, fun x old hold => ?_⟩
  have hinherited : (env.inheritedLayout c).members[x]? = some old := by
    rw [Env.inheritedLayout, hparent]
    exact hold
  obtain ⟨m, hm, -, hsub⟩ := exists_narrower hdistinct hresolve hrec hviol hinherited
  exact ⟨m, hm, hsub⟩

include hbuilt hresolve

theorem met_iff {duty : Duty} (h : duty ∈ p.duties) :
    duty.faults p.resolve = [] ↔ duty.Met p.resolve := by
  have hserved : AllServed p.resolve duty.nodes := fun n hn =>
    served hbuilt hresolve n (nodes_subset_of_mem_duties h hn)
  cases duty with
  | initial d => exact Expr.expect_eq_nil_iff (AllServed.cons.mp hserved).2
  | body kind f => exact Expr.expect_eq_nil_iff (AllServed.cons.mp hserved).2
  | members c => exact members_met_iff hresolve (nodes_subset_of_mem_duties h List.mem_cons_self)

/-- The outcome of checking: the body has a type, or a fault that is reported last. -/
theorem check_eq :
    (∃ t, p.body.infer p.resolve = .ok t ∧
      p.check p.resolve = ⟨some t, p.duties.flatMap (Duty.faults p.resolve)⟩) ∨
    ∃ error, p.body.infer p.resolve = .error (.violation error) ∧
      p.check p.resolve = ⟨none, p.duties.flatMap (Duty.faults p.resolve) ++ [error]⟩ := by
  obtain ⟨hdecls, hbody⟩ := AllServed.append.mp (served hbuilt hresolve)
  rw [check, declViolations_eq p.decls hdecls]
  cases hinfer : p.body.infer p.resolve with
  | ok t => exact .inl ⟨t, rfl, rfl⟩
  | error refusal =>
    cases refusal with
    | violation error => exact .inr ⟨error, rfl, rfl⟩
    | unresolved => exact absurd hinfer (p.body.infer_ne_unresolved hbody)

end Resolved

/-- A program is checked in full: nothing is passed over, and the outcome is what was found. -/
structure CheckedInFull (p : Program) (r : Resolution) : Prop where
  /-- No expression is given up for a name that is not bound. -/
  bound : ∀ e, .expr e ∈ p.pieces → e.infer r ≠ .error .unresolved
  /-- Each declaration is checked, as often as it stands in the program. -/
  declarations : (p.duties.map Duty.node).Perm (p.nodes.filter Node.isDeclaration)
  /-- A declaration with nothing to report is as it should be. -/
  met : ∀ duty ∈ p.duties, duty.faults r = [] ↔ duty.Met r
  /-- If no number occurs twice, a class with nothing to report has the members of its superclass at
  subtypes. -/
  narrows : p.Distinct → ∀ c, .members c ∈ p.duties → c.overrideViolations r = [] →
    ∀ s, c.superclass = some s →
    ∃ record parent, r.class? c.name = some record ∧ r.class? s = some parent ∧
      ∀ (x : String) (old : Member), parent.layout.members[x]? = some old →
        ∃ m, record.layout.members[x]? = some m ∧
        r.hierarchy.isSubtype m.entry.ty old.entry.ty = true
  /-- The faults of the declarations are reported in order, and after them that of the body. -/
  outcome :
    (∃ t, p.body.infer r = .ok t ∧ p.check r = ⟨some t, p.duties.flatMap (Duty.faults r)⟩) ∨
    ∃ error, p.body.infer r = .error (.violation error) ∧
      p.check r = ⟨none, p.duties.flatMap (Duty.faults r) ++ [error]⟩
  rejected : (p.check r).result = none ↔ ∃ error, p.body.infer r = .error (.violation error)
  last : ∀ error, p.body.infer r = .error (.violation error) →
    (p.check r).errors.getLast? = some error
  accepted : (p.check r).errors = [] → ∃ t, (p.check r).result = some t ∧ t.isMemberFree = true ∧
    (t = .null ∨ ∃ a : WrittenTy, a.ty = t)

/-- Checking a program that is resolved without errors never gives up in silence. -/
theorem check_thorough (hbuilt : p.Built) (hresolve : p.resolve.errors = []) :
    p.CheckedInFull p.resolve where
  bound e he :=
    e.infer_ne_unresolved fun n hn => served hbuilt hresolve n (nodes_subset_of_mem_pieces he hn)
  declarations := p.perm_duties
  met duty h := met_iff hbuilt hresolve h
  narrows hdistinct c hc hviol s hs :=
    exists_narrowed hresolve hdistinct (nodes_subset_of_mem_duties hc List.mem_cons_self) hviol hs
  outcome := check_eq hbuilt hresolve
  rejected := by
    rcases check_eq hbuilt hresolve with ⟨t, hinfer, hcheck⟩ | ⟨error, hinfer, hcheck⟩
    · simp [hcheck, hinfer]
    · simp [hcheck, hinfer]
  last := by
    intro error herror
    rcases check_eq hbuilt hresolve with ⟨t, hinfer, -⟩ | ⟨error', hinfer, hcheck⟩
    · cases herror.symm.trans hinfer
    · cases herror.symm.trans hinfer
      rw [hcheck, List.getLast?_concat]
  accepted := by
    intro hnone
    rcases check_eq hbuilt hresolve with ⟨t, hinfer, hcheck⟩ | ⟨error, -, hcheck⟩
    · have hvalued := p.body.valued_of_infer p.declares hinfer
      exact ⟨t, by rw [hcheck], hvalued.isMemberFree, hvalued⟩
    · simp [hcheck] at hnone

/-- A field that does not fit the one it overrides, a value that does not fit its variable, and a
body without a type. -/
def strained : Program where
  decls := [
    .cls {
      id := 0
      name := "A"
      superclass := none
      fields := [⟨1, "x", .int, default⟩]
      methods := [
        { id := 2, name := "get", params := [], result := .int, decls := [],
          body := .name 3 "x" default, pos := default }]
      pos := default },
    .cls { id := 4, name := "B", superclass := some "A", fields := [⟨5, "x", .ref "A", default⟩],
           methods := [], pos := default },
    .fn {
      id := 6
      name := "f"
      params := []
      result := .int
      decls := [.var ⟨7, "flag", .bool, .int 1 default, default⟩]
      body := .name 8 "flag" default
      pos := default }]
  body := .not (.call 9 "f" [] default) default
  pos := default

theorem check_thorough_strained :
    strained.Distinct ∧ strained.resolve.errors = [] ∧ strained.CheckedInFull strained.resolve ∧
      (strained.duties.map Duty.node).length = 5 ∧ (strained.check strained.resolve).result = none ∧
      (strained.check strained.resolve).errors =
        [.badOverride .field "B" "x" default, .incompatibleVariable "flag" default,
          .nonBoolean "not" default] ∧
      shapes.CheckedInFull shapes.resolve ∧ (shapes.check shapes.resolve).result = some .int := by
  have hdistinct : strained.Distinct := by decide +kernel
  have hresolve : strained.resolve.errors = [] := by decide +kernel
  have hshapes : shapes.Distinct := by decide +kernel
  exact ⟨hdistinct, hresolve,
    check_thorough hdistinct.built
    hresolve, by decide +kernel, by decide +kernel, by decide +kernel, check_thorough hshapes.built
    (by decide +kernel), by decide +kernel⟩

end Program

end Stackling
