import Mathlib.Data.List.Forall2
import Stackling.Proofs.Resolution.Holds

/-!
# Every use is accounted for

Whatever is wrong with a program, resolution comes to each use of a name once and has one finding
about it: the use is bound, or there is an error that names it. The findings about uses stand in the
order of the uses, so they are compared place by place; declarations and members add no finding of
this sort. If the nodes of the program have different numbers, the tables keep all these findings
apart, and the rows and errors can be counted.
-/

namespace Stackling

/-! ### Findings about uses -/

namespace ScopeError

/-- Errors about the use of a name. -/
def isUse : ScopeError → Bool
  | undeclared _ _ _ | notAnObject _ _ | undeclaredMethod _ _ _ => true
  | _ => false

/-- Errors about a declaration. -/
def isDeclaration : ScopeError → Bool
  | redeclared _ _ _ | duplicateMember _ _ _ _ | illegalOverride _ _ _ _ | classNotGlobal _ _
  | undeclaredSuperclass _ _ _ => true
  | _ => false

/-- An error is about this use: it has its name and its place. A method call can fail in four
ways. -/
inductive Blames : ScopeError → Node → Prop
  | name {id : NodeId} {x : String} {pos : SourcePos} :
    Blames (.undeclared .identifier x pos) (.use id (.name id x pos))
  | callee {id : NodeId} {x : String} {args : List Expr} {pos : SourcePos} :
    Blames (.undeclared .function x pos) (.use id (.call id x args pos))
  | new {id : NodeId} {x : String} {args : List Expr} {pos : SourcePos} :
    Blames (.undeclared .cls x pos) (.use id (.new id x args pos))
  | receiver {id : NodeId} {x method : String} {args : List Expr} {pos : SourcePos} :
    Blames (.undeclared .identifier x pos) (.use id (.send id x method args pos))
  | object {id : NodeId} {x method : String} {args : List Expr} {pos : SourcePos} :
    Blames (.notAnObject x pos) (.use id (.send id x method args pos))
  | cls {id : NodeId} {x method cls : String} {args : List Expr} {pos : SourcePos} :
    Blames (.undeclared .cls cls pos) (.use id (.send id x method args pos))
  | method {id : NodeId} {x method cls : String} {args : List Expr} {pos : SourcePos} :
    Blames (.undeclaredMethod cls method pos) (.use id (.send id x method args pos))

theorem Blames.isUse {e : ScopeError} {n : Node} (h : e.Blames n) : e.isUse = true := by
  cases h <;> rfl

end ScopeError

def Node.isUse : Node → Bool
  | use _ _ => true
  | _ => false

def Expr.isSend : Expr → Bool
  | .send _ _ _ _ _ => true
  | _ => false

/-- The use has a row in the table for its sort. -/
def Resolution.decorates (r : Resolution) : Node → Bool
  | .use id e => if e.isSend then r.sends.contains id else r.uses.contains id
  | _ => false

namespace Finding

def isUse : Finding → Bool
  | use _ _ | send _ _ => true
  | error e => e.isUse
  | decl _ _ | position _ _ => false

/-- A finding is the one about this use. -/
inductive Answers : Finding → Node → Prop
  | use {id : NodeId} {b : Binding} {e : Expr} (he : e.isSend = false) :
      Answers (.use id b) (.use id e)
  | send {id : NodeId} {d : Dispatch} {e : Expr} (he : e.isSend = true) :
      Answers (.send id d) (.use id e)
  | error {e : ScopeError} {n : Node} (he : e.Blames n) : Answers (.error e) n

theorem Answers.isUse {f : Finding} {n : Node} (h : f.Answers n) :
    f.isUse = true ∧ n.isUse = true := by
  cases h with
  | use | send => exact ⟨rfl, rfl⟩
  | error he => exact ⟨he.isUse, by cases he <;> rfl⟩

end Finding

/-- The findings about uses are about these uses, in this order. -/
def Accounts (found : List Finding) (nodes : List Node) : Prop :=
  List.Forall₂ Finding.Answers (found.filter Finding.isUse) (nodes.filter Node.isUse)

namespace Accounts

variable {found more : List Finding} {ms ns : List Node}

theorem append (h : Accounts found ms) (h' : Accounts more ns) :
    Accounts (found ++ more) (ms ++ ns) := by
  rw [Accounts, List.filter_append, List.filter_append]
  exact List.rel_append h h'

theorem nil : Accounts [] [] := List.Forall₂.nil

theorem cons {f : Finding} {n : Node} (h : f.Answers n) (hrest : Accounts found ns) :
    Accounts (f :: found) (n :: ns) := by
  obtain ⟨hf, hn⟩ := h.isUse
  rw [Accounts, List.filter_cons_of_pos hf, List.filter_cons_of_pos hn]
  exact .cons h hrest

/-- Declarations have no findings of this sort. -/
theorem silent (hfound : ∀ f ∈ found, f.isUse = false) (hnodes : ∀ n ∈ ns, n.isUse = false) :
    Accounts found ns := by
  have hnil : found.filter Finding.isUse = [] :=
    List.filter_eq_nil_iff.mpr fun f hf => by simp [hfound f hf]
  have hnil' : ns.filter Node.isUse = [] :=
    List.filter_eq_nil_iff.mpr fun n hn => by simp [hnodes n hn]
  rw [Accounts, hnil, hnil']
  exact .nil

end Accounts

/-! ### The walk -/

namespace Env

variable {env : Env} {id : NodeId} {x : String} {pos : SourcePos}

theorem useName_answers :
    (env.useName .identifier id x pos).Answers (.use id (.name id x pos)) := by
  unfold useName
  split
  · exact .use rfl
  · exact .error .name

theorem useName_answers_call {args : List Expr} :
    (env.useName .function id x pos).Answers (.use id (.call id x args pos)) := by
  unfold useName
  split
  · exact .use rfl
  · exact .error .callee

theorem useClass_answers {args : List Expr} :
    (env.useClass id x pos).Answers (.use id (.new id x args pos)) := by
  unfold useClass
  split
  · exact .use rfl
  · exact .error .new

theorem useMethod_answers {method : String} {args : List Expr} :
    (env.useMethod id x method pos).Answers (.use id (.send id x method args pos)) := by
  unfold useMethod
  split
  · exact .error .receiver
  · split
    · split
      · exact .error .cls
      · split
        · exact .send rfl
        · exact .error .method
    · exact .error .object

theorem declare_isUse {kind : NameKind} {entry : Entry} :
    ∀ f ∈ (env.declare kind id x pos entry).2, f.isUse = false := by
  unfold declare
  split <;> simp [Finding.isUse, ScopeError.isUse]

theorem declareParams_isUse (ps : List TypedName) :
    ∀ f ∈ (env.declareParams ps).2, f.isUse = false := by
  induction ps generalizing env with
  | nil => exact nofun
  | cons p ps ih =>
    rw [declareParams_cons]
    exact List.forall_mem_append.mpr ⟨declare_isUse, ih⟩

end Env

theorem ClassDraft.addAll_isUse {d : ClassDraft} {cls : String} (ms : List OwnMember)
    (h : ∀ f ∈ d.findings, f.isUse = false) :
    ∀ f ∈ (d.addAll cls ms).findings, f.isUse = false := by
  induction ms generalizing d with
  | nil => exact h
  | cons m ms ih =>
    refine ih (d := d.addOwn cls m) ?_
    rcases d.addOwn_cases cls m with ⟨e, -, ⟨kind, kind', rfl | rfl⟩, heq⟩ | ⟨-, -, heq⟩ <;>
      rw [heq]
    all_goals exact List.forall_mem_append.mpr ⟨h, by simp [Finding.isUse, ScopeError.isUse]⟩

theorem Env.classHeader_isUse (env : Env) (c : ClassDecl) :
    ∀ f ∈ (env.classHeader c).2.2, f.isUse = false := by
  have hparent : ∀ f ∈ env.parentFindings c, f.isUse = false := by
    unfold parentFindings
    repeat' split
    all_goals simp [Finding.isUse, ScopeError.isUse]
  have hdraft : ∀ f ∈ (env.draftOf c).findings, f.isUse = false := by
    rw [draftOf, ClassDecl.draft_eq]
    exact ClassDraft.addAll_isUse _ (List.forall_mem_nil _)
  have hfound := List.forall_mem_append.mpr ⟨hparent, hdraft⟩
  rw [classHeader_eq]
  split
  · refine List.forall_mem_append.mpr ⟨hfound, ?_⟩
    unfold declareClass
    dsimp only
    split <;> simp [Finding.isUse, ScopeError.isUse]
  · exact List.forall_mem_cons.mpr ⟨rfl, hfound⟩

theorem typed_isUse (ts : List TypedName) : ∀ n ∈ ts.map Node.typed, n.isUse = false := by
  intro n hn
  obtain ⟨t, -, rfl⟩ := List.mem_map.mp hn
  rfl

mutual

theorem Expr.accounts {env : Env} : ∀ e : Expr, Accounts (e.resolve env) e.nodes
  | .int _ _ | .bool _ _ | .null _ => .nil
  | .name _ _ _ => .cons Env.useName_answers .nil
  | .binary _ l r _ => l.accounts.append r.accounts
  | .not e _ => e.accounts
  | .ite c y n _ => (c.accounts.append y.accounts).append n.accounts
  | .call _ _ args _ => .cons Env.useName_answers_call (args_accounts args)
  | .send _ _ _ args _ => .cons Env.useMethod_answers (args_accounts args)
  | .new _ _ args _ => .cons Env.useClass_answers (args_accounts args)
  | .print e _ => e.accounts

theorem args_accounts {env : Env} : ∀ es : List Expr, Accounts (resolveArgs env es) (argNodes es)
  | [] => .nil
  | e :: es => e.accounts.append (args_accounts es)

end

mutual

theorem Decl.accounts {env : Env} : ∀ d : Decl, Accounts (d.resolve env).2 d.nodes
  | .var d => by
    have hnode : Accounts [] [.var d] := .silent nofun (List.forall_mem_singleton.mpr rfl)
    have hdecl : Accounts (env.declareLocal .variable d.id d.name d.pos d.declared.ty).2 [] :=
      .silent Env.declare_isUse nofun
    have hinit : Accounts (d.init.resolve env) d.init.nodes := d.init.accounts
    have hall := (hnode.append hinit).append hdecl
    rw [List.append_nil] at hall
    rw [Decl.resolve_var, Decl.nodes]
    exact hall
  | .fn f => by
    have hdecl : Accounts (env.declareLocal .function f.id f.name f.pos (.arrow f.signature)).2
        [.fn f] :=
      .silent Env.declare_isUse (List.forall_mem_singleton.mpr rfl)
    rw [Decl.resolve_fn, Decl.nodes, FunDecl.nodes_eq]
    exact hdecl.append f.accounts
  | .cls ⟨id, name, superclass, fields, methods, pos⟩ => by
    rw [Decl.resolve_cls, Decl.nodes]
    exact (Accounts.silent (Env.classHeader_isUse _ _)
      (List.forall_mem_cons.mpr ⟨rfl, typed_isUse fields⟩)).append (methods_account methods)

theorem FunDecl.accounts {env : Env} : ∀ f : FunDecl, Accounts (f.resolve env) f.innerNodes
  | ⟨id, name, params, result, decls, body, pos⟩ => by
    rw [FunDecl.resolve_eq]
    exact ((Accounts.silent (Env.declareParams_isUse params) (typed_isUse params)).append
      (decls_account decls)).append body.accounts

theorem methods_account {env : Env} :
    ∀ ms : List FunDecl, Accounts (resolveMethods env ms) (methodNodes ms)
  | [] => .nil
  | m :: ms => by
    have hnode : Accounts [] [.fn m] := .silent nofun (List.forall_mem_singleton.mpr rfl)
    rw [resolveMethods, methodNodes, FunDecl.nodes_eq]
    exact (hnode.append m.accounts).append (methods_account ms)

theorem decls_account {env : Env} :
    ∀ ds : List Decl, Accounts (resolveDecls env ds).2 (declNodes ds)
  | [] => .nil
  | d :: ds => by
    rw [resolveDecls_cons, declNodes]
    exact d.accounts.append (decls_account ds)

end

/-! ### Rows and errors -/

/-- The two lists go together: a finding that is an error is about a use that has no row. -/
theorem Accounts.blames {r : Resolution} {found : List Finding} {ns : List Node}
    (h : List.Forall₂ (fun f n => f.Answers n ∧ r.decorates n = f.error?.isNone) found ns) :
    List.Forall₂ ScopeError.Blames (found.filterMap Finding.error?)
      (ns.filter fun n => !r.decorates n) := by
  induction h with
  | nil => exact .nil
  | cons hfirst _ ih =>
    obtain ⟨hanswers, hrow⟩ := hfirst
    cases hanswers with
    | use | send =>
      rw [List.filterMap_cons_none rfl, List.filter_cons_of_neg (by simp [hrow, Finding.error?])]
      exact ih
    | error he =>
      rw [List.filter_cons_of_pos (by simp [hrow, Finding.error?])]
      exact .cons he ih

/-- Errors about uses can be picked out before or after the other findings. -/
theorem Finding.filter_filterMap_error? (found : List Finding) :
    (found.filterMap Finding.error?).filter ScopeError.isUse =
      (found.filter Finding.isUse).filterMap Finding.error? := by
  rw [List.filter_filterMap, List.filterMap_filter]
  refine List.filterMap_congr fun f _ => ?_
  cases f with
  | error e => rfl
  | use | send | decl | position => rfl

/-- Findings about uses are rows of one of two tables or errors. -/
theorem Finding.length_filter_isUse (found : List Finding) :
    (found.filterMap Finding.use?).length + (found.filterMap Finding.send?).length +
      ((found.filter Finding.isUse).filterMap Finding.error?).length =
        (found.filter Finding.isUse).length := by
  induction found with
  | nil => rfl
  | cons f found ih =>
    cases f with
    | error e =>
      cases he : e.isUse with
      | true =>
        simp only [List.filterMap_cons, List.filter_cons, use?, send?, isUse, error?, he, if_true,
          List.length_cons]
        omega
      | false => simpa [List.filterMap_cons, List.filter_cons, use?, send?, isUse, he] using ih
    | use | send =>
      simp only [List.filterMap_cons, List.filter_cons, use?, send?, isUse, error?, if_true,
        List.length_cons]
      omega
    | decl | position => simpa [List.filterMap_cons, List.filter_cons, use?, send?, isUse] using ih

namespace Program

variable {p : Program}

theorem accounts (p : Program) : Accounts p.findings p.nodes :=
  (decls_account p.decls).append p.body.accounts

/-- The findings about uses, each with its use. -/
def answers (p : Program) : List (Finding × Node) :=
  (p.findings.filter Finding.isUse).zip (p.nodes.filter Node.isUse)

theorem answers_fst (p : Program) : p.answers.map Prod.fst = p.findings.filter Finding.isUse :=
  List.map_fst_zip (Nat.le_of_eq p.accounts.length_eq)

theorem answers_snd (p : Program) : p.answers.map Prod.snd = p.nodes.filter Node.isUse :=
  List.map_snd_zip (Nat.le_of_eq p.accounts.length_eq.symm)

theorem answers_of_mem {f : Finding} {n : Node} (h : (f, n) ∈ p.answers) : f.Answers n :=
  (List.forall₂_iff_zip.mp p.accounts).2 h

theorem exists_mem_answers {f : Finding} (h : f ∈ p.findings.filter Finding.isUse) :
    ∃ n, (f, n) ∈ p.answers := by
  rw [← answers_fst] at h
  obtain ⟨⟨_, n⟩, hmem, rfl⟩ := List.mem_map.mp h
  exact ⟨n, hmem⟩

theorem exists_answered {f : Finding} (hf : f ∈ p.findings) (huse : f.isUse = true) :
    ∃ n ∈ p.nodes, f.Answers n := by
  obtain ⟨n, hmem⟩ := exists_mem_answers (List.mem_filter.mpr ⟨hf, huse⟩)
  have hn : n ∈ p.nodes.filter Node.isUse := p.answers_snd ▸ List.mem_map_of_mem hmem
  exact ⟨n, (List.mem_filter.mp hn).1, answers_of_mem hmem⟩

theorem nodup_answers (hdistinct : p.Distinct) : (p.answers.map fun q => q.2.id).Nodup := by
  have hids : ((p.nodes.filter Node.isUse).map Node.id).Nodup :=
    (List.filter_sublist.map Node.id).nodup hdistinct
  rw [← answers_snd, List.map_map] at hids
  exact hids

/-- A row comes from a finding, which is about a use with that number. -/
theorem exists_of_decorates {n : Node} (h : p.resolve.decorates n = true) :
    ∃ f ∈ p.findings.filter Finding.isUse, f.error? = none ∧ ∀ m, f.Answers m → m.id = n.id := by
  cases n with
  | use id e =>
    rw [Resolution.decorates] at h
    split at h
    · obtain ⟨d, hd⟩ :=
        Option.isSome_iff_exists.mp (Std.TreeMap.isSome_getElem?_eq_contains.trans h)
      refine ⟨.send id d, List.mem_filter.mpr ⟨Resolution.send_mem hd, rfl⟩, rfl, fun m hm => ?_⟩
      cases hm
      rfl
    · obtain ⟨b, hb⟩ :=
        Option.isSome_iff_exists.mp (Std.TreeMap.isSome_getElem?_eq_contains.trans h)
      refine ⟨.use id b, List.mem_filter.mpr ⟨Resolution.use_mem hb, rfl⟩, rfl, fun m hm => ?_⟩
      cases hm
      rfl
  | typed | var | fn | cls => cases h

theorem decorates_of_answers {f : Finding} {n : Node} (hf : f ∈ p.findings) (h : f.Answers n)
    (hrow : f.error? = none) :
    p.resolve.decorates n = true := by
  cases h with
  | use he =>
    obtain ⟨b, hb⟩ : ∃ b, p.resolve.uses[_]? = some b := Resolution.exists_use hf
    rw [Resolution.decorates, if_neg (by simp [he]), ← Std.TreeMap.isSome_getElem?_eq_contains]
    exact Option.isSome_of_eq_some hb
  | send he =>
    obtain ⟨d, hd⟩ : ∃ d, p.resolve.sends[_]? = some d := Resolution.exists_send hf
    rw [Resolution.decorates, if_pos he, ← Std.TreeMap.isSome_getElem?_eq_contains]
    exact Option.isSome_of_eq_some hd
  | error => cases hrow

/-- If the numbers are different, a use has a row just if the finding about it is no error. -/
theorem accounts_rows (hdistinct : p.Distinct) :
    List.Forall₂ (fun f n => f.Answers n ∧ p.resolve.decorates n = f.error?.isNone)
      (p.findings.filter Finding.isUse) (p.nodes.filter Node.isUse) := by
  refine List.forall₂_iff_zip.mpr ⟨p.accounts.length_eq, fun {f n} hmem =>
    ⟨answers_of_mem hmem, ?_⟩⟩
  have hf : f ∈ p.findings.filter Finding.isUse := p.answers_fst ▸ List.mem_map_of_mem hmem
  cases herror : f.error? with
  | none => exact decorates_of_answers (List.mem_filter.mp hf).1 (answers_of_mem hmem) herror
  | some e =>
    refine Bool.eq_false_iff.mpr fun hrow => ?_
    obtain ⟨f', hf', hnone, hid⟩ := exists_of_decorates hrow
    obtain ⟨m, hmem'⟩ := exists_mem_answers hf'
    -- a row would be from another finding about the same number
    have hsame :=
      List.inj_on_of_nodup_map (nodup_answers hdistinct) hmem' hmem (hid m (answers_of_mem hmem'))
    cases hsame
    cases hnone.symm.trans herror

/-- A table has as many rows as there are findings of its sort. -/
theorem size_ofList {α : Type} {row? : Finding → Option (NodeId × α)} (sort : Finding.Sort)
    (hdistinct : p.Distinct) (hkey : ∀ f, (row? f).map Prod.fst = f.key? sort) :
    (Std.TreeMap.ofList (p.findings.filterMap row?) : NodeTable α).size =
      (p.findings.filterMap row?).length := by
  have hnodup : ((p.findings.filterMap row?).map Prod.fst).Nodup := by
    rw [List.map_filterMap, funext hkey, List.nodup_iff_count]
    exact fun id => Nat.le_trans (p.thrifty sort id) (List.nodup_iff_count.mp hdistinct id)
  refine Std.TreeMap.size_ofList ((List.pairwise_map.mp hnodup).imp fun hne heq => ?_)
  exact hne (Std.compare_eq_iff_eq.mp heq)

/-- Every use of a name has one row in the table for its sort, or else there is one error for it,
which has its name and place; the errors about uses stand in the order of the uses that have no row.
There are no other rows and no other errors about uses. -/
theorem uses_accounted (hdistinct : p.Distinct) :
    (∀ id, p.resolve.uses.contains id = true → ∃ e, .use id e ∈ p.nodes ∧ e.isSend = false) ∧
    (∀ id, p.resolve.sends.contains id = true → ∃ e, .use id e ∈ p.nodes ∧ e.isSend = true) ∧
    List.Forall₂ ScopeError.Blames (p.resolve.errors.filter ScopeError.isUse)
      (p.nodes.filter fun n => n.isUse && !p.resolve.decorates n) ∧
    p.resolve.uses.size + p.resolve.sends.size + (p.resolve.errors.filter ScopeError.isUse).length =
      (p.nodes.filter Node.isUse).length ∧
    ∀ e ∈ p.resolve.errors, e.isUse = true ∨ e.isDeclaration = true := by
  have herrors : p.resolve.errors.filter ScopeError.isUse =
      (p.findings.filter Finding.isUse).filterMap Finding.error? :=
    Finding.filter_filterMap_error? p.findings
  refine ⟨fun id hid => ?_, fun id hid => ?_, ?_, ?_, fun e _ => ?_⟩
  · obtain ⟨b, hb⟩ :=
      Option.isSome_iff_exists.mp (Std.TreeMap.isSome_getElem?_eq_contains.trans hid)
    obtain ⟨n, hn, hanswers⟩ := exists_answered (Resolution.use_mem hb) rfl
    cases hanswers with
    | use he => exact ⟨_, hn, he⟩
  · obtain ⟨d, hd⟩ :=
      Option.isSome_iff_exists.mp (Std.TreeMap.isSome_getElem?_eq_contains.trans hid)
    obtain ⟨n, hn, hanswers⟩ := exists_answered (Resolution.send_mem hd) rfl
    cases hanswers with
    | send he => exact ⟨_, hn, he⟩
  · have hfilter : (p.nodes.filter fun n => n.isUse && !p.resolve.decorates n) =
        (p.nodes.filter Node.isUse).filter fun n => !p.resolve.decorates n := by
      rw [List.filter_filter]
      exact List.filter_congr fun n _ => Bool.and_comm _ _
    rw [herrors, hfilter]
    exact Accounts.blames (accounts_rows hdistinct)
  · have huses : p.resolve.uses.size = (p.findings.filterMap Finding.use?).length :=
      size_ofList .use hdistinct fun f => by cases f <;> rfl
    have hsends : p.resolve.sends.size = (p.findings.filterMap Finding.send?).length :=
      size_ofList .send hdistinct fun f => by cases f <;> rfl
    rw [huses, hsends, herrors, Finding.length_filter_isUse]
    exact p.accounts.length_eq
  · cases e <;> simp [ScopeError.isUse, ScopeError.isDeclaration]

/-- An undeclared superclass, a method that is declared twice, a class in a function and a function
that is declared twice, each with uses of names inside. Method calls fail in each of the four
ways. -/
def faulty : Program where
  decls := [
    .cls {
      id := 0
      name := "A"
      superclass := some "Z"
      fields := [⟨1, "x", .int, default⟩]
      methods := [
        { id := 2, name := "m", params := [], result := .int, decls := [],
          body := .name 3 "y" default, pos := default },
        { id := 4, name := "m", params := [], result := .int, decls := [],
          body := .name 5 "x" default, pos := default }]
      pos := default },
    .fn {
      id := 6
      name := "f"
      params := [⟨7, "a", .ref "A", default⟩]
      result := .int
      decls := [.cls {
        id := 8
        name := "B"
        superclass := none
        fields := []
        methods := [{
          id := 9
          name := "k"
          params := []
          result := .int
          decls := []
          body := .call 10 "g" [.name 11 "a" default] default
          pos := default }]
        pos := default }]
      body := .send 12 "a" "m" [.new 13 "B" [] default] default
      pos := default },
    .fn {
      id := 14
      name := "f"
      params := [⟨15, "b", .ref "B", default⟩, ⟨16, "c", .ref "A", default⟩]
      result := .int
      decls := []
      body := .binary .add (.send 17 "b" "k" [] default) (.send 18 "c" "k" [] default) default
      pos := default }]
  body := .binary .add (.send 19 "f" "k" [] default)
    (.send 20 "e" "k" [.call 21 "f" [] default] default) default
  pos := default

theorem uses_accounted_faulty : faulty.Distinct ∧
    faulty.resolve.uses.size = 3 ∧ faulty.resolve.sends.size = 1 ∧
    List.Forall₂ ScopeError.Blames
      [.undeclared .identifier "y" default, .undeclared .function "g" default,
      .undeclared .cls "B" default, .undeclared .cls "B" default, .undeclaredMethod "A" "k" default,
      .notAnObject "f" default, .undeclared .identifier "e" default]
      (faulty.nodes.filter fun n => n.isUse && !faulty.resolve.decorates n) ∧
    faulty.resolve.uses.size + faulty.resolve.sends.size + 7 =
      (faulty.nodes.filter Node.isUse).length := by
  have hdistinct : faulty.Distinct := by decide +kernel
  obtain ⟨-, -, hblames, hcount, -⟩ := uses_accounted hdistinct
  have herrors : faulty.resolve.errors.filter ScopeError.isUse =
      [.undeclared .identifier "y" default, .undeclared .function "g" default,
        .undeclared .cls "B" default, .undeclared .cls "B" default,
      .undeclaredMethod "A" "k" default, .notAnObject "f" default, .undeclared .identifier "e"
        default] := by
    decide +kernel
  rw [herrors] at hblames hcount
  exact ⟨hdistinct, by decide +kernel, by decide +kernel, hblames, hcount⟩

end Program

end Stackling
