import Stackling.Proofs.Renaming.Resolution
import Stackling.Typing.Check

/-!
# Checking under other names

Types are compared by the hierarchy, by their form and, where one class stands for another, by
equality. All three see only which names are the same, so inference takes the same way through a
renamed program: it ends in the renamed type, or in the same refusal at the same place.
-/

namespace Stackling

variable {f : String → String}

/-! ### Subtypes and joins -/

namespace Hierarchy.Renames

variable {h h' : Hierarchy}

mutual

/-- Renamed types fit exactly if the types do. Classes are compared by name, so the renaming is
injective. -/
theorem fits_eq (hf : Function.Injective f) (hr : h.Renames f h') :
    ∀ (v : Variance) (a b : Ty), h'.fits v (a.rename f) (b.rename f) = h.fits v a b
  | v, .int, b => by cases v <;> cases b <;> simp [Ty.rename, fits]
  | v, .bool, b => by cases v <;> cases b <;> simp [Ty.rename, fits]
  | v, .null, b => by cases v <;> cases b <;> simp [Ty.rename, fits]
  | v, .ref c, b => by cases v <;> cases b <;> simp [Ty.rename, fits, hr.isSubclass_eq hf]
  | v, .arrow ⟨ps, r⟩, b => by
    rcases b with _ | _ | _ | _ | ⟨qs, s⟩ | _ | _ <;>
      simp only [Ty.rename, Signature.rename, fits, fits_eq hf hr v r, fitAll_eq hf hr v.flip ps]
  | v, .method ⟨ps, r⟩, b => by
    rcases b with _ | _ | _ | _ | _ | ⟨qs, s⟩ | _ <;>
      simp only [Ty.rename, Signature.rename, fits, fits_eq hf hr v r, fitAll_eq hf hr v.flip ps]
  -- classes themselves are compared as wholes, for which names must not fall together anywhere in
  -- them
  | v, .cls c, b => by
    cases v <;> cases b <;> simp [Ty.rename, fits, (ClassTy.rename_injective hf).eq_iff]

/-- Renamed lists of types fit exactly if the lists do. -/
theorem fitAll_eq (hf : Function.Injective f) (hr : h.Renames f h') :
    ∀ (v : Variance) (as bs : List Ty), h'.fitAll v (renameTys f as) (renameTys f bs) =
      h.fitAll v as bs
  | v, [], bs => by cases bs <;> simp [renameTys, fitAll]
  | v, a :: as, [] => by simp [renameTys, fitAll]
  | v, a :: as, b :: bs => by
    simp only [renameTys, fitAll, fits_eq hf hr v a b, fitAll_eq hf hr v as bs]

end

/-- The subtypes of a renamed type are the renamed subtypes. -/
theorem isSubtype_eq (hf : Function.Injective f) (hr : h.Renames f h') (a b : Ty) :
    h'.isSubtype (a.rename f) (b.rename f) = h.isSubtype a b :=
  hr.fits_eq hf .co a b

/-- The least common class is found under its other name, or not at all in both hierarchies. -/
theorem joinClass?_eq (hf : Function.Injective f) (hr : h.Renames f h') (c d : String) :
    h'.joinClass? (f c) (f d) = (h.joinClass? c d).map f := by
  rw [joinClass?, joinClass?, hr.isSubclass_eq hf, hr.isSubclass_eq hf, hr.ancestors_eq hf,
    List.find?_map]
  have hfound : ((h'.isSubclass (f d) ·) ∘ f) = (h.isSubclass d ·) :=
    funext fun a => hr.isSubclass_eq hf d a
  rw [hfound]
  split
  · rfl
  · split <;> rfl

/-- The narrower of two types is the same one under other names. -/
theorem narrower?_eq (hf : Function.Injective f) (hr : h.Renames f h') (a b : Ty) :
    h'.narrower? (a.rename f) (b.rename f) = (h.narrower? a b).map (Ty.rename f) := by
  rw [narrower?, narrower?, hr.isSubtype_eq hf, hr.isSubtype_eq hf]
  split
  · rfl
  · split <;> rfl

/-- So are the narrower ones of two lists, place by place. -/
theorem narrowerAll?_eq (hf : Function.Injective f) (hr : h.Renames f h') : ∀ as bs : List Ty,
    h'.narrowerAll? (as.map (Ty.rename f)) (bs.map (Ty.rename f)) =
      (h.narrowerAll? as bs).map (List.map (Ty.rename f))
  | [], [] | [], _ :: _ | _ :: _, [] => rfl
  | a :: as, b :: bs => by
    rw [List.map_cons, List.map_cons, narrowerAll?, narrowerAll?, hr.narrower?_eq hf,
      narrowerAll?_eq hf hr as bs]
    cases h.narrower? a b with
    | none => rfl
    | some t => cases h.narrowerAll? as bs <;> rfl

/-- The join of renamed types is the renamed join. -/
theorem join?_eq (hf : Function.Injective f) (hr : h.Renames f h') :
    ∀ a b : Ty, h'.join? (a.rename f) (b.rename f) = (h.join? a b).map (Ty.rename f)
  | .int, b | .bool, b | .null, b | .method _, b | .cls _, b => by
    cases b <;> simp [Ty.rename, join?]
  | .ref c, b => by
    cases b with
    | ref d =>
      simp only [Ty.rename, join?, hr.joinClass?_eq hf, Option.map_map]
      rfl
    | int | bool | null | arrow | method | cls => rfl
  | .arrow ⟨ps, r⟩, b => by
    rcases b with _ | _ | _ | _ | ⟨qs, s⟩ | _ | _
    case arrow =>
      simp only [Ty.rename, Signature.rename, renameTys_eq_map, join?, join?_eq hf hr r s,
        hr.narrowerAll?_eq hf]
      cases h.join? r s with
      | none => rfl
      | some t =>
        cases h.narrowerAll? ps qs with
        | none => rfl
        | some ts => simp [Ty.rename, Signature.rename]
    all_goals rfl

end Hierarchy.Renames

/-! ### Types of expressions -/

/-- What inference ends with, under other names. -/
def renameInferred {α β : Type} (f : String → String) (g : α → β) :
    Except Refusal α → Except Refusal β
  | .ok a => .ok (g a)
  | .error refusal => .error (refusal.rename f)

/-- Inferences follow each other as before, if the second does so for each answer of the first. -/
theorem renameInferred_bind {α β γ δ : Type} {g : α → β} {g' : γ → δ} {x : Except Refusal α}
    {x' : Except Refusal β} {k : α → Except Refusal γ} {k' : β → Except Refusal δ}
    (hx : x' = renameInferred f g x) (hk : ∀ a, k' (g a) = renameInferred f g' (k a)) :
    x' >>= k' = renameInferred f g' (x >>= k) := by
  subst hx
  cases x with
  | ok a => exact hk a
  | error refusal => rfl

/-- An operator has the same result type under other names, or refuses its operands in the same
way. -/
theorem BinOp.infer_rename (hf : Function.Injective f) {h h' : Hierarchy} (hr : h.Renames f h')
    (op : BinOp) (a b : Ty) (pos : SourcePos) :
    op.infer h' (a.rename f) (b.rename f) default =
      renameInferred f (Ty.rename f) (op.infer h a b pos) := by
  have hint (t : Ty) : h'.isSubtype (t.rename f) .int = h.isSubtype t .int :=
    hr.isSubtype_eq hf t .int
  have hbool (t : Ty) : h'.isSubtype (t.rename f) .bool = h.isSubtype t .bool :=
    hr.isSubtype_eq hf t .bool
  unfold BinOp.infer
  cases op.family with
  | arithmetic =>
    simp only [hint]
    split <;> rfl
  | logical =>
    simp only [hbool]
    split <;> rfl
  | comparison =>
    simp only [Ty.signature?_rename, Option.isSome_map, hr.isSubtype_eq hf]
    split
    · rfl
    · split <;> rfl

/-- A name is refused as a value under both names or under none. -/
theorem Ty.asValue_rename (t : Ty) (name : String) (pos : SourcePos) :
    (t.rename f).asValue (f name) default =
      renameInferred f (Ty.rename f) (t.asValue name pos) := by
  cases t <;> rfl

/-- A name is refused as a callee under both names or under none. -/
theorem Ty.asCallee_rename (t : Ty) (name : String) (args : Nat) (pos : SourcePos) :
    (t.rename f).asCallee (f name) args default = renameInferred f (Signature.rename f)
    (t.asCallee name args pos) := by
  rw [asCallee, asCallee, Ty.signature?_rename]
  cases t.signature? with
  | none => rfl
  | some sig =>
    simp only [Option.map_some, Signature.arity_rename]
    split <;> rfl

/-- A name is refused as a class under both names or under none. -/
theorem Ty.asClass_rename (t : Ty) (name : String) (values : Nat) (pos : SourcePos) :
    (t.rename f).asClass (f name) values default = renameInferred f (ClassTy.rename f)
    (t.asClass name values pos) := by
  cases t with
  | cls c =>
    simp only [Ty.rename, asClass, ClassTy.fields_rename, List.length_map]
    split <;> rfl
  | int | bool | null | ref | arrow | method => rfl

namespace Resolution.Renames

variable {r r' : Resolution}

/-- The class hierarchy of a renamed resolution is the renamed hierarchy. -/
theorem hierarchy (hr : r.Renames f r') : r.hierarchy.Renames f r'.hierarchy := hr.classes.hierarchy

theorem contains_decls_eq (hr : r.Renames f r') (id : NodeId) :
    r'.decls.contains id = r.decls.contains id := by
  rw [← Std.TreeMap.isSome_getElem?_eq_contains, ← Std.TreeMap.isSome_getElem?_eq_contains,
    hr.decls, Option.isSome_map]

/-- A use has the same binding under other names, and is unbound in both resolutions or in none. -/
theorem useOf_eq (hr : r.Renames f r') (id : NodeId) :
    r'.useOf id = renameInferred f (Binding.rename f) (r.useOf id) := by
  rw [useOf, useOf, hr.uses]
  cases r.uses[id]? <;> rfl

/-- A method call has the same dispatch under other names. -/
theorem sendOf_eq (hr : r.Renames f r') (id : NodeId) :
    r'.sendOf id = renameInferred f (Dispatch.rename f) (r.sendOf id) := by
  rw [sendOf, sendOf, hr.sends]
  cases r.sends[id]? <;> rfl

/-- A class inherits the same members under other names. -/
theorem inherited?_eq (hr : r.Renames f r') (cls : String) :
    r'.inherited? (f cls) = (r.inherited? cls).map (ClassTy.rename f) := by
  have hclass (x : String) : r.class? x = none ∧ r'.class? (f x) = none ∨
      ∃ a b, r.class? x = some a ∧ r'.class? (f x) = some b ∧ ClassRecord.Renames f a b :=
    hr.classes.records.getElem?_cases x
  rcases hclass cls with ⟨hget, hget'⟩ | ⟨record, record', hget, hget', hrecord⟩
  · simp [inherited?, hget, hget']
  · cases hsuper : record.superclass with
    | none => simp [inherited?, hget, hget', hrecord.superclass, hsuper]
    | some s =>
      rcases hclass s with ⟨hs, hs'⟩ | ⟨parent, parent', hs, hs', hparent⟩
      · simp [inherited?, hget, hget', hrecord.superclass, hsuper, hs, hs']
      · simp [inherited?, hget, hget', hrecord.superclass, hsuper, hs, hs', hparent.layout.classTy]

end Resolution.Renames

variable {r r' : Resolution}

section

variable (hf : Function.Injective f) (hr : r.Renames f r')

include hf hr

mutual

/-- What is inferred for a renamed expression is the renamed type, or the renamed refusal. -/
theorem Expr.infer_rename :
    ∀ e : Expr, (e.rename f).infer r' = renameInferred f (Ty.rename f) (e.infer r)
  | .int _ _ | .bool _ _ | .null _ => rfl
  | .name id name pos => by
    rw [Expr.rename, Expr.infer, Expr.infer]
    exact renameInferred_bind (hr.useOf_eq id) fun b => b.entry.ty.asValue_rename name pos
  | .binary op left right pos => by
    rw [Expr.rename, Expr.infer, Expr.infer]
    refine renameInferred_bind (Expr.infer_rename left) fun a => ?_
    refine renameInferred_bind (Expr.infer_rename right) fun b => ?_
    exact op.infer_rename hf hr.hierarchy a b pos
  | .not operand pos => by
    rw [Expr.rename, Expr.infer, Expr.infer]
    refine renameInferred_bind (Expr.infer_rename operand) fun a => ?_
    rw [show r'.hierarchy.isSubtype (a.rename f) .bool = _ from
      hr.hierarchy.isSubtype_eq hf a .bool]
    split <;> rfl
  | .ite cond yes no pos => by
    rw [Expr.rename, Expr.infer, Expr.infer]
    refine renameInferred_bind (Expr.infer_rename cond) fun c => ?_
    rw [show r'.hierarchy.isSubtype (c.rename f) .bool = _ from
      hr.hierarchy.isSubtype_eq hf c .bool]
    split
    · refine renameInferred_bind (Expr.infer_rename yes) fun a => ?_
      refine renameInferred_bind (Expr.infer_rename no) fun b => ?_
      rw [hr.hierarchy.join?_eq hf a b]
      cases r.hierarchy.join? a b <;> rfl
    · rfl
  | .print value _ => by
    rw [Expr.rename, Expr.infer, Expr.infer]
    exact Expr.infer_rename value
  | .call id callee args pos => by
    rw [Expr.rename, Expr.infer, Expr.infer, length_renameArgs]
    refine renameInferred_bind (hr.useOf_eq id) fun b => ?_
    refine renameInferred_bind (b.entry.ty.asCallee_rename callee args.length pos) fun sig => ?_
    rw [Signature.params_rename, Signature.result_rename]
    exact renameInferred_bind (checkArgs_rename (.wrongArgument callee · pos) 1 args sig.params)
      fun _ => rfl
  | .send id receiver method args pos => by
    rw [Expr.rename, Expr.infer, Expr.infer, length_renameArgs]
    refine renameInferred_bind (hr.sendOf_eq id) fun d => ?_
    refine renameInferred_bind (d.method.ty.asCallee_rename method args.length pos) fun sig => ?_
    rw [Signature.params_rename, Signature.result_rename]
    exact renameInferred_bind (checkArgs_rename (.wrongArgument method · pos) 1 args sig.params)
      fun _ => rfl
  | .new id cls args pos => by
    rw [Expr.rename, Expr.infer, Expr.infer, length_renameArgs]
    refine renameInferred_bind (hr.useOf_eq id) fun b => ?_
    refine renameInferred_bind (b.entry.ty.asClass_rename cls args.length pos) fun c => ?_
    rw [ClassTy.fields_rename]
    exact renameInferred_bind (checkArgs_rename (.wrongFieldValue cls · pos) 1 args c.fields)
      fun _ => rfl

/-- Renamed arguments pass the check, or the same one of them is refused. -/
theorem checkArgs_rename (wrong : Nat → TypingError) : ∀ (n : Nat) (es : List Expr) (ts : List Ty),
    checkArgs r' (fun n => (wrong n).rename f) n (renameArgs f es) (ts.map (Ty.rename f)) =
      renameInferred f id (checkArgs r wrong n es ts)
  | _, [], _ => by simp [renameArgs, checkArgs, renameInferred]
  | _, _ :: _, [] => by simp [renameArgs, checkArgs, renameInferred]
  | n, e :: es, t :: ts => by
    rw [renameArgs, List.map_cons, checkArgs, checkArgs]
    refine renameInferred_bind (Expr.infer_rename e) fun a => ?_
    rw [hr.hierarchy.isSubtype_eq hf a t]
    split
    · exact checkArgs_rename wrong (n + 1) es ts
    · rfl

end

/-! ### Violations -/

/-- The violations at a place where a type is expected are the same under other names. -/
theorem Expr.expect_rename (e : Expr) (t : Ty) (mismatch : TypingError) :
    (e.rename f).expect r' (t.rename f) (mismatch.rename f) =
      (e.expect r t mismatch).map (TypingError.rename f) := by
  rw [Expr.expect, Expr.expect, Expr.infer_rename hf hr]
  cases e.infer r with
  | error refusal => cases refusal <;> rfl
  | ok a =>
    simp only [renameInferred, hr.hierarchy.isSubtype_eq hf]
    split <;> rfl

/-- A member that does not fit the one in its place is reported under both names. -/
theorem Resolution.Renames.overrideViolations_eq (id : NodeId) (own : Ty) (inherited : List Ty)
    (error : TypingError) :
    r'.overrideViolations id (own.rename f) (inherited.map (Ty.rename f)) (error.rename f) =
      (r.overrideViolations id own inherited error).map (TypingError.rename f) := by
  have hplace : (r.positions[id]?.bind ((inherited.map (Ty.rename f))[·]?)) =
      (r.positions[id]?.bind (inherited[·]?)).map (Ty.rename f) := by
    cases r.positions[id]? with
    | none => rfl
    | some n => exact List.getElem?_map
  rw [Resolution.overrideViolations, Resolution.overrideViolations, hr.positions, hplace]
  cases r.positions[id]?.bind (inherited[·]?) with
  | none => rfl
  | some t =>
    simp only [Option.map_some, hr.hierarchy.isSubtype_eq hf]
    split <;> rfl

/-- The violations among the members of a class are the same under other names. -/
theorem ClassDecl.overrideViolations_rename (c : ClassDecl) :
    (c.rename f).overrideViolations r' = (c.overrideViolations r).map (TypingError.rename f) := by
  rw [ClassDecl.overrideViolations, ClassDecl.overrideViolations, ClassDecl.name_rename,
    hr.inherited?_eq]
  cases r.inherited? c.name with
  | none => rfl
  | some inherited =>
    have hmethods : (inherited.methods.map (Signature.rename f)).map Ty.method =
        (inherited.methods.map Ty.method).map (Ty.rename f) := by
      simp only [List.map_map, Function.comp_def, Ty.rename]
    simp only [Option.map_some, ClassDecl.fields_rename, ClassDecl.methods_rename,
      renameMethods_eq_map, List.flatMap_map, List.map_append, List.map_flatMap,
      ClassTy.fields_rename, ClassTy.methods_rename, hmethods]
    congr 1
    · refine congrArg (List.flatMap · c.fields) (funext fun p => ?_)
      simp only [TypedName.rename, WrittenTy.ty_rename]
      exact hr.overrideViolations_eq hf p.id p.declared.ty inherited.fields
        (.badOverride .field c.name p.name p.pos)
    · refine congrArg (List.flatMap · c.methods) (funext fun m => ?_)
      simp only [FunDecl.id_rename, FunDecl.name_rename, FunDecl.pos_rename,
        FunDecl.signature_rename]
      exact hr.overrideViolations_eq hf m.id (.method m.signature) _
        (.badOverride .method c.name m.name m.pos)

end

mutual

/-- A renamed declaration has the renamed violations, in the same order. -/
theorem Decl.violations_rename (hf : Function.Injective f) (hr : r.Renames f r') :
    ∀ d : Decl, (d.rename f).violations r' = (d.violations r).map (TypingError.rename f)
  | .var d => by
    rw [Decl.rename, Decl.violations, Decl.violations]
    simp only [VarDecl.rename, WrittenTy.ty_rename]
    exact d.init.expect_rename hf hr d.declared.ty (.incompatibleVariable d.name d.pos)
  | .fn d => by
    rw [Decl.rename, Decl.violations, Decl.violations]
    exact FunDecl.violations_rename hf hr .function d
  | .cls ⟨id, name, superclass, fields, methods, pos⟩ => by
    have hown :=
      ClassDecl.overrideViolations_rename hf hr ⟨id, name, superclass, fields, methods, pos⟩
    have hmethods := methodViolations_rename hf hr methods
    simp only [Decl.rename, ClassDecl.rename, Decl.violations] at hown ⊢
    rw [hr.contains_decls_eq]
    split
    · rw [hown, hmethods, List.map_append]
    · rfl

/-- A renamed function has the renamed violations, in the same order. -/
theorem FunDecl.violations_rename (hf : Function.Injective f) (hr : r.Renames f r')
    (kind : NameKind) :
    ∀ d : FunDecl, (d.rename f).violations r' kind =
      (d.violations r kind).map (TypingError.rename f)
  | ⟨id, name, params, result, decls, body, pos⟩ => by
    have hbody := body.expect_rename hf hr result.ty (.wrongReturn kind name pos)
    simp only [FunDecl.rename, FunDecl.violations, WrittenTy.ty_rename, List.map_append,
      declViolations_rename hf hr decls, ← hbody]
    rfl

/-- Renamed declarations have the renamed violations, one declaration after the other. -/
theorem declViolations_rename (hf : Function.Injective f) (hr : r.Renames f r') :
    ∀ ds, declViolations r' (renameDecls f ds) = (declViolations r ds).map (TypingError.rename f)
  | [] => rfl
  | d :: ds => by
    rw [renameDecls, declViolations, declViolations, Decl.violations_rename hf hr d,
      declViolations_rename hf hr ds, List.map_append]

/-- The renamed methods of a class have the renamed violations. -/
theorem methodViolations_rename (hf : Function.Injective f) (hr : r.Renames f r') :
    ∀ ms, methodViolations r' (renameMethods f ms) =
      (methodViolations r ms).map (TypingError.rename f)
  | [] => rfl
  | m :: ms => by
    rw [renameMethods, methodViolations, methodViolations, FunDecl.id_rename, hr.contains_decls_eq,
      FunDecl.violations_rename hf hr .method m, methodViolations_rename hf hr ms, List.map_append]
    split <;> rfl

end

/-- The outcome of checking under other names. -/
def Checked.rename (f : String → String) (c : Checked) : Checked where
  result := c.result.map (Ty.rename f)
  errors := c.errors.map (TypingError.rename f)

/-- Checking a renamed program has the renamed outcome. -/
theorem Program.check_rename (hf : Function.Injective f) (hr : r.Renames f r') (p : Program) :
    (p.rename f).check r' = (p.check r).rename f := by
  rw [Program.check, Program.check, Program.rename, Expr.infer_rename hf hr,
    declViolations_rename hf hr]
  cases p.body.infer r with
  | ok t => rfl
  | error refusal =>
    cases refusal <;> simp [renameInferred, Checked.rename, Refusal.rename, Refusal.violations]

end Stackling
