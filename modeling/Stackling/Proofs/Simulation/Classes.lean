import Stackling.Proofs.Simulation.Calls

/-!
# Classes and dispatch tables

A class declaration writes a dispatch table to the heap. Code generation fills the table by the
offsets that resolution has given to the methods, and the evaluator fills the methods of the class
by name; the table has the code of each method in the place that the class has for it. With that,
the new class fits its record, and what fitted before still does.
-/

namespace Stackling

/-! ### Code of functions leaves the tables alone -/

theorem ParamsTyped.depth {env env' : Env} {ps : List TypedName} (h : ParamsTyped env ps env') :
    env'.scopes.depth = env.scopes.depth := by
  induction h with
  | nil => rfl
  | cons _ hdeclare _ ih => exact ih.trans (Scopes.depth_declare? hdeclare)

theorem Env.depth_enterBody {env : Env} (h : env.scopes.stack ≠ []) :
    env.enterBody.scopes.depth = env.scopes.depth + 1 :=
  Scopes.depth_push h

section Tables

variable {r : Resolution} {g : CodeContext}

mutual

theorem FunDecl.tables_code :
    (f : FunDecl) → {env : Env} → {q q' : CodeState} → {routine : Routine} → f.Typed r env →
    env.scopes.stack ≠ [] → f.code g q = .ok (routine, q') → q'.tables = q.tables
  | ⟨_, _, _, _, decls, _, _⟩, _, _, _, _, .mk _ hparams hdecls _, hstack, hcode => by
    obtain ⟨locals, q₁, value, s', hlocals, -, rfl, -⟩ := FunDecl.code_eq_ok.mp hcode
    have hdepth := hparams.depth.trans (Env.depth_enterBody hstack)
    have htables := declCode_tables decls hdecls (hdepth ▸ Nat.succ_ne_zero _) hlocals
    exact htables

/-- Only the global scope has classes, so code of inner declarations makes no table. -/
theorem declCode_tables :
    (ds : List Decl) → {env env' : Env} → {q q' : CodeState} → {locals : Fragment} →
    DeclsTyped r env ds env' → env.scopes.depth ≠ 0 → declCode g ds q = .ok (locals, q') →
    q'.tables = q.tables
  | [], _, _, _, _, _, .nil, _, hcode => by
    obtain ⟨-, rfl⟩ := declCode_nil.mp hcode
    rfl
  | .var _ :: ds, _, _, _, _, _, .var _ _ hdeclare hrest, hdepth, hcode => by
    obtain ⟨first, q₁, rest, hfirst, hcode, -⟩ := declCode_cons.mp hcode
    obtain ⟨_, s', -, rfl, -⟩ := Decl.code_var.mp hfirst
    have htables :=
      declCode_tables ds hrest ((Scopes.depth_declare? hdeclare).trans_ne hdepth) hcode
    exact htables
  | .fn f :: ds, _, _, _, _, _, .fn hdeclare hfun hrest, hdepth, hcode => by
    obtain ⟨first, q₁, rest, hfirst, hcode, -⟩ := declCode_cons.mp hcode
    obtain ⟨routine, hroutine, -⟩ := Decl.code_fn.mp hfirst
    rw [declCode_tables ds hrest ((Scopes.depth_declare? hdeclare).trans_ne hdepth) hcode]
    exact FunDecl.tables_code f hfun (Scopes.stack_declare? hdeclare) hroutine
  | .cls _ :: _, _, _, _, _, _, .cls hclass _ _, hdepth, _ => absurd hclass.depth hdepth

end

theorem methodCode_tables {env : Env} (hstack : env.scopes.stack ≠ []) {ms : List FunDecl}
    (htyped : ∀ m ∈ ms, m.Typed r env) {table : List Label} {q q' : CodeState}
    {result : List Label × List Instr} (hcode : methodCode g table ms q = .ok (result, q')) :
    q'.tables = q.tables := by
  induction ms generalizing table q result with
  | nil =>
    obtain ⟨-, rfl⟩ := methodCode_nil.mp hcode
    rfl
  | cons m ms ih =>
    rw [List.forall_mem_cons] at htyped
    obtain ⟨entry, routine, q₁, rest, -, hm, hrest, -⟩ := methodCode_cons.mp hcode
    rw [ih htyped.2 hrest]
    exact FunDecl.tables_code m htyped.1 hstack hm

end Tables

/-! ### Members by name -/

theorem foldl_put_fields (fs : List TypedName)
    (p : List (String × Ty) × List (String × Signature)) :
    (fs.map fun f => (⟨f.id, f.name, f.pos, f.declared.ty⟩ : OwnMember)).foldl OwnMember.put p =
      (fs.foldl (fun fs f => putNamed fs f.name f.declared.ty) p.1, p.2) := by
  induction fs generalizing p with
  | nil => rfl
  | cons f fs ih =>
    rw [List.map_cons, List.foldl_cons, OwnMember.put_of_isMethod (WrittenTy.isMethod_ty _), ih]
    rfl

theorem foldl_put_methods (ms : List FunDecl) (p : List (String × Ty) × List (String × Signature)) :
    (ms.map fun m => (⟨m.id, m.name, m.pos, .method m.signature⟩ : OwnMember)).foldl OwnMember.put
      p = (p.1, ms.foldl (fun ms m => putNamed ms m.name m.signature) p.2) := by
  induction ms generalizing p with
  | nil => rfl
  | cons m ms ih =>
    rw [List.map_cons, List.foldl_cons, ih]
    rfl

/-- The own members of a class change its inherited fields and methods apart from each other. -/
theorem ClassDecl.foldl_ownMembers (c : ClassDecl) (fields : List (String × Ty))
    (methods : List (String × Signature)) :
    c.ownMembers.foldl OwnMember.put (fields, methods) =
      (c.fields.foldl (fun fs f => putNamed fs f.name f.declared.ty) fields,
        c.methods.foldl (fun ms m => putNamed ms m.name m.signature) methods) := by
  rw [ClassDecl.ownMembers, List.foldl_append, foldl_put_fields, foldl_put_methods]

theorem Lays.append {r : Resolution} {inherited : ClassTy} {own own' : List OwnMember}
    {seen : List String} {l l' : ObjectLayout} (h : Lays r inherited seen l (own ++ own') l') :
    ∃ seen' mid, Lays r inherited seen l own mid ∧ Lays r inherited seen' mid own' l' := by
  induction own generalizing seen l with
  | nil => exact ⟨seen, l, .nil, h⟩
  | cons m own ih =>
    cases h with
    | cons hname hplain hkind hdecl hadmits hrest =>
      obtain ⟨seen', mid, hown, hown'⟩ := ih hrest
      exact ⟨seen', mid, .cons hname hplain hkind hdecl hadmits hown, hown'⟩

/-! ### Dispatch tables -/

/-- A dispatch table has the code of each method in its place. -/
def TableFits (r : Resolution) (w : World) (table : List Label) (methods : List (String × Method)) :
    Prop :=
  List.Forall₂ (fun label p => w.Placed r true p.2.decl (w.address label)) table methods

theorem length_le_of_methodCode {g : CodeContext} {ms : List FunDecl} {table table' : List Label}
    {bodies : List Instr} {q q' : CodeState}
    (hcode : methodCode g table ms q = .ok ((table', bodies), q')) :
    table.length ≤ table'.length := by
  induction ms generalizing table bodies q with
  | nil =>
    obtain ⟨hresult, -⟩ := methodCode_nil.mp hcode
    cases hresult
    exact Nat.le_refl _
  | cons m ms ih =>
    obtain ⟨entry, routine, q₁, ⟨table₁, bodies₁⟩, -, -, hrest, hresult⟩ := methodCode_cons.mp hcode
    cases hresult
    exact Nat.le_trans (length_le_length_placeMethod _ _ _) (ih hrest)

/-- A method goes to the place in the table that it has among the methods. -/
theorem TableFits.place {r : Resolution} {w : World} {table : List Label}
    {methods : List (String × Method)} (h : TableFits r w table methods)
    (hnodup : (methods.map Prod.fst).Nodup) {x : String} {m : Method} {i : Nat}
    (hi : (addName (methods.map Prod.fst) x)[i]? = some x) (hlt : i < 2 ^ 31) {label : Label}
    (hlabel : w.Placed r true m.decl (w.address label)) :
    TableFits r w (placeMethod table (Int32.ofNat i) label) (putNamed methods x m) :=
  forall₂_placeMethod h hnodup hi hlt hlabel

theorem map_fst_signatures (methods : List (String × Method)) :
    (signatures methods).map Prod.fst = methods.map Prod.fst := by
  rw [signatures, List.map_map]
  rfl

/-- Code generation puts the methods of a class where the class has them. -/
theorem Lays.tableFits {r : Resolution} {w : World} {inherited : ClassTy}
    {method : FunDecl → Method} (hmethod : ∀ f, (method f).decl = f) {ms : List FunDecl}
    {seen : List String} {l l' : ObjectLayout}
    (h : Lays r inherited seen l (ms.map fun m => ⟨m.id, m.name, m.pos, .method m.signature⟩) l')
    {fields : List (String × Ty)} {methods : List (String × Method)}
    (hl : l.Lists fields (signatures methods)) {table table' : List Label} {bodies : List Instr}
    {q q' : CodeState} {pc : Nat} (htable : TableFits r w table methods)
    (hcode : methodCode (w.context r true) table ms q = .ok ((table', bodies), q'))
    (hbodies : w.image.CodeAt w.address pc bodies) (hlt : table'.length < 2 ^ 31) :
    TableFits r w table' (ms.foldl (fun ms f => putNamed ms f.name (method f)) methods) := by
  induction ms generalizing seen l methods table bodies q pc with
  | nil =>
    obtain ⟨hresult, -⟩ := methodCode_nil.mp hcode
    cases hresult
    exact htable
  | cons m ms ih =>
    obtain ⟨entry, routine, q₁, ⟨table₁, bodies₁⟩, hentry, hm, hrest, hresult⟩ :=
      methodCode_cons.mp hcode
    cases hresult
    cases h with
    | cons hname hplain hkind hdecl hadmits hlays =>
      obtain ⟨i, hi, hplace, hlists⟩ := hl.place_method hplain hkind
      have hsignatures : signatures (putNamed methods m.name (method m)) =
          putNamed (signatures methods) m.name m.signature := by
        rw [signatures, map_putNamed fun m : Method => m.decl.signature, hmethod]
        rfl
      have hnames : (addName (methods.map Prod.fst) m.name)[i]? = some m.name := by
        rw [← map_fst_signatures, ← map_fst_putNamed _ _ m.signature, List.getElem?_map, hi]
        rfl
      rw [← hsignatures] at hlists
      rw [hplace] at hdecl
      obtain rfl : (ObjectLayout.methodMember i m.signature).entry = entry :=
        Option.some.inj (hdecl.symm.trans hentry)
      obtain ⟨hbody, hbodies⟩ := Image.codeAt_append.mp hbodies
      have hnodup : (methods.map Prod.fst).Nodup := map_fst_signatures methods ▸ hl.methods_nodup
      have hplaced : w.Placed r true (method m).decl (w.address routine.entry) :=
        ⟨_, _, _, _, (hmethod m).symm ▸ hm, hbody, rfl⟩
      refine ih hlays hlists (htable.place hnodup hnames ?_ hplaced) hrest hbodies
      calc i ≤ methods.length := by
            have hle := length_addName_le (methods.map Prod.fst) m.name
            have hi := (List.getElem?_eq_some_iff.mp hnames).1
            rw [List.length_map] at hle
            omega
        _ = table.length := htable.length_eq.symm
        _ ≤ table₁.length :=
          Nat.le_trans (length_le_length_placeMethod _ _ _) (length_le_of_methodCode hrest)
        _ < 2 ^ 31 := hlt

/-! ### A new class -/

section NewClass

variable {ι : Type} {r : Resolution} {w : ι → World} {s : Site ι} {σ : Store} {hp : ι → List Int32}
  {c : ClassDecl} {l : ObjectLayout} {scopes : Scopes}

/-- The superclass of a class, if it has one, as the evaluator finds it. -/
def Store.parent? (σ : Store) (ρ : Bindings) (c : ClassDecl) : Option Class :=
  (c.superclass.bind (findClass? · ρ)).bind (σ.classes[·]?)

/-- A class starts from the members of its superclass. -/
theorem Matches.inherited (hm : Matches r w s σ hp) (hclass : c.Typed r s.env l scopes) :
    ∃ fields, (s.env.inheritedLayout c).Lists fields
      (signatures ((σ.parent? s.bindings c).elim [] (·.methods))) ∧
      (σ.parent? s.bindings c).elim [] (·.fields) = fields.map Prod.fst ∧
      ((s.env.parent? c = none ∧ σ.parent? s.bindings c = none) ∨
        ∃ k parent record, s.env.parent? c = some record ∧ σ.parent? s.bindings c = some parent ∧
          σ.classes[k]? = some parent ∧ parent.name = record.name ∧
          c.superclass = some parent.name ∧ findClass? parent.name s.bindings = some k ∧
          ClassFits r w σ s.base hp parent record fields) := by
  unfold Store.parent? Env.inheritedLayout Env.parent?
  cases hsuper : c.superclass with
  | none => exact ⟨[], .empty, rfl, .inl ⟨rfl, rfl⟩⟩
  | some super =>
    obtain ⟨record, hrecord⟩ := hclass.parent super hsuper
    obtain ⟨k, parent, hfind, hk, rfl, hname, hrecord', -⟩ := hm.scope.findClass? hrecord
    obtain ⟨record₁, fields, hfits⟩ := hm.classes k parent hk
    obtain rfl : record = record₁ := Option.some.inj (hrecord'.symm.trans hfits.recorded)
    simp only [Option.bind_some, hrecord, hfind, hk]
    exact ⟨fields, hfits.lists, hfits.names,
      .inr ⟨k, parent, record, rfl, rfl, hk, hname.symm, rfl, hfind, hfits⟩⟩

def Store.newClass (σ : Store) (ρ : Bindings) (c : ClassDecl) : Class :=
  c.toClass (σ.parent? ρ c) ρ σ.classes.length σ.heap.length

/-- The store after a class is declared. -/
def Store.withClass (σ : Store) (ρ : Bindings) (c : ClassDecl) : Store :=
  { σ with
    heap := σ.heap ++ (σ.newClass ρ c).methods.map (Cell.method ∘ Prod.snd)
    classes := σ.classes ++ [σ.newClass ρ c] }

theorem Store.extends_withClass (σ : Store) (ρ : Bindings) (c : ClassDecl) :
    σ.Extends (σ.withClass ρ c) :=
  ⟨List.prefix_append _ _, List.prefix_append _ _⟩

theorem ClassDecl.signatures_toClass (c : ClassDecl) (parent : Option Class) (ρ : Bindings)
    (index table : Nat) :
    signatures (c.toClass parent ρ index table).methods =
      c.methods.foldl (fun ms m => putNamed ms m.name m.signature)
        (signatures (parent.elim [] (·.methods))) :=
  map_foldl_putNamed (fun m : Method => m.decl.signature) c.methods _

/-- The lists of a new class, which override those it inherits. -/
theorem Matches.lists_newClass (hm : Matches r w s σ hp) (hclass : c.Typed r s.env l scopes) :
    ∃ fields inherited, l.Lists fields (signatures (σ.newClass s.bindings c).methods) ∧
      (σ.newClass s.bindings c).fields = fields.map Prod.fst ∧
      (s.env.inheritedLayout c).Lists inherited
      (signatures ((σ.parent? s.bindings c).elim [] (·.methods))) ∧
      Overrides (Ty.Sub r.hierarchy) inherited fields ∧
      Overrides (Signature.Sub r.hierarchy)
        (signatures ((σ.parent? s.bindings c).elim [] (·.methods)))
        (signatures (σ.newClass s.bindings c).methods) := by
  obtain ⟨inherited, hlists, hnames, -⟩ := hm.inherited hclass
  obtain ⟨hnew, hfields, hmethods⟩ :=
    @Lays.lists _ _ _ _ _ _ hclass.lays _ _ hlists.fields_ty hlists.methods_ty
      (inherited, signatures ((σ.parent? s.bindings c).elim [] (·.methods))) hlists (.refl _ _)
      (.refl _ _)
  simp only [ClassDecl.foldl_ownMembers] at hnew hfields hmethods
  rw [← ClassDecl.signatures_toClass c _ s.bindings σ.classes.length σ.heap.length] at hnew hmethods
  refine ⟨_, inherited, hnew, ?_, hlists, hfields.mono fun _ _ => Hierarchy.sub_of_isSubtype,
    hmethods.mono fun _ _ => Hierarchy.sub_of_isSubtype_method⟩
  rw [map_fst_foldl_putNamed, ← hnames]
  rfl

theorem MethodFits.below {σ : Store} {st hp : ι → List Int32} {sub super : String} {m : Method}
    (h : MethodFits r w σ st hp super m) (hbelow : r.hierarchy.Below sub super) :
    MethodFits r w σ st hp sub m := by
  obtain ⟨hscoped, hdepth, hhome, hrecord, hlists, hfields, hmethods, hfun⟩ := h
  exact ⟨hscoped, hdepth, hbelow.trans hhome, hrecord, hlists, hfields, hmethods, hfun⟩

/-- A new class fits its record. -/
theorem Matches.classFits_newClass (hm : Matches r w s σ hp) (hclass : c.Typed r s.env l scopes)
    (hmethods : ∀ m ∈ c.methods, m.Typed r ((s.env.afterClass c l scopes).enterClass l))
    (hlinked : r.classes.Linked) {st' hp' : ι → List Int32} (hst : ∀ i, s.base i <:+ st' i)
    (hhp : ∀ i, hp i <+: hp' i)
    (hscoped : Scoped r w (σ.withClass s.bindings c) st' hp' false (s.env.afterClass c l scopes)
      ((c.name, .cls σ.classes.length) :: s.bindings) (globalFrame w)) :
    ∃ fields, ClassFits r w (σ.withClass s.bindings c) st' hp' (σ.newClass s.bindings c)
      (s.env.classRecord c l)
      fields := by
  have hσ := σ.extends_withClass s.bindings c
  have hsuper : r.hierarchy.superclass? c.name = (s.env.parent? c).map (·.name) := by
    refine (hlinked c.name).trans ?_
    rw [show r.classes.records[c.name]? = some (s.env.classRecord c l) from hclass.record]
    rfl
  obtain ⟨fields, inherited, hlists, hnames, hinherited, hfields, hsignatures⟩ :=
    hm.lists_newClass hclass
  obtain ⟨_, -, -, hparent⟩ := hm.inherited hclass
  refine ⟨fields, hclass.record, hlists, hnames, ?_, ?_, ?_⟩
  · intro j x m hj
    rw [Store.withClass, show (σ.newClass s.bindings c).table = σ.heap.length from rfl,
      List.getElem?_append_right (Nat.le_add_right _ _), Nat.add_sub_cancel_left, List.getElem?_map,
      hj]
    rfl
  · intro p hp
    rcases mem_foldl_putNamed hp with ⟨hp, -⟩ | ⟨m, hm', rfl⟩
    · rcases hparent with ⟨-, hnone⟩ | ⟨k, parent, record, hrecord, hsome, hk, hname, -, -, hfits⟩
      · rw [hnone] at hp
        cases hp
      · rw [hsome] at hp
        refine ((hfits.methods p hp).mono hσ hst hhp).below (.single ?_)
        rw [hname]
        exact hsuper.trans (congrArg (Option.map (·.name)) hrecord)
    · refine .mk hscoped ?_ .refl hclass.record hlists hnames ?_ (hmethods m hm')
      · exact (Scopes.depth_declare? hclass.declare).trans hclass.depth
      · rw [map_fst_signatures]
        exact (map_fst_foldl_putNamed c.methods _).symm
  · intro super hs
    have hs : (s.env.parent? c).map (·.name) = some super := hsuper.symm.trans hs
    rcases hparent with ⟨hnone, -⟩ | ⟨k, parent, record, hrecord, hsome, hk, hname, -, -, hfits⟩
    · rw [hnone] at hs
      cases hs
    · rw [hrecord] at hs
      obtain rfl : parent.name = super := hname.trans (Option.some.inj hs)
      refine ⟨k, parent, record, getElem?_extend hσ.classes hk, rfl, hfits.recorded, ?_⟩
      rw [Env.inheritedLayout, hrecord] at hinherited
      exact ⟨_, _, _, _, hlists, hinherited, hfields, hsignatures⟩

/-- The methods of a new class fit their cells in the dispatch table. -/
theorem HeapFits.withClass (h : HeapFits r w σ hp) {ρ : Bindings} {table : ι → List Label}
    (htable : ∀ i, TableFits r (w i) (table i) (σ.newClass ρ c).methods) :
    HeapFits r w (σ.withClass ρ c) fun i => hp i ++ (table i).map fun l =>
      Int32.ofNat ((w i).address l) := by
  refine h.append (σ.extends_withClass ρ c) _ _ rfl (fun i => ?_) fun j cell hj => ?_
  · rw [List.length_map, List.length_map]
    exact (htable i).length_eq
  · rw [List.getElem?_map, Option.map_eq_some_iff] at hj
    obtain ⟨⟨x, m⟩, hm, rfl⟩ := hj
    choose label hlabel hplaced using fun i => forall₂_getElem? (htable i) hm
    refine ⟨_, .method hplaced, fun i => ?_⟩
    rw [List.getElem?_map, hlabel i]
    rfl

/-- The site after a class is declared. -/
def Site.afterClass (s : Site ι) (c : ClassDecl) (l : ObjectLayout) (scopes : Scopes) (σ : Store)
    (hp : ι → List Int32) : Site ι :=
  { s with
    env := s.env.afterClass c l scopes
    bindings := (c.name, .cls σ.classes.length) :: s.bindings
    base := fun i => Int32.ofNat (hp i).length :: s.base i }

theorem Matches.afterClass (hm : Matches r w s σ hp) (hclass : c.Typed r s.env l scopes)
    (hmethods : ∀ m ∈ c.methods, m.Typed r ((s.env.afterClass c l scopes).enterClass l))
    (hlinked : r.classes.Linked) {table : ι → List Label}
    (htable : ∀ i, TableFits r (w i) (table i) (σ.newClass s.bindings c).methods)
    (hslot : ∀ i, s.frame i + s.env.frame.nextLocal = (w i).slot (s.base i).length) :
    Matches r w (s.afterClass c l scopes σ hp) (σ.withClass s.bindings c)
      fun i => hp i ++ (table i).map fun l => Int32.ofNat ((w i).address l) := by
  have hσ := σ.extends_withClass s.bindings c
  have hst : ∀ i, s.base i <:+ Int32.ofNat (hp i).length :: s.base i :=
    fun i => List.suffix_cons _ _
  have hhp : ∀ i, hp i <+: hp i ++ (table i).map fun l => Int32.ofNat ((w i).address l) := fun i =>
    List.prefix_append _ _
  have hframe : s.frame = globalFrame w := hm.scope.eq_globalFrame hclass.depth
  have hglobal : s.inClass = false := by
    cases hb : s.inClass with
    | false => rfl
    | true => exact absurd hclass.depth (hm.scope.depth_ne_zero hb)
  have hnew : (σ.withClass s.bindings c).classes[σ.classes.length]? =
      some (σ.newClass s.bindings c) :=
    List.getElem?_concat_length ..
  have hscoped : Scoped r w (σ.withClass s.bindings c)
      (fun i => Int32.ofNat (hp i).length :: s.base i) (fun i => hp i ++ (table i).map fun l =>
        Int32.ofNat ((w i).address l)) false (s.env.afterClass c l scopes)
      ((c.name, .cls σ.classes.length) :: s.bindings) s.frame := by
    refine .cls (hglobal ▸ hm.scope.mono hσ hst hhp) hclass.depth hclass.declare hclass.record hnew
      rfl fun i => ?_
    dsimp only
    rw [hslot i, show (σ.newClass s.bindings c).table = σ.heap.length from rfl, ← hm.heap.length i]
    exact .top (w i) _ _ _
  refine ⟨?_, hm.heap.withClass htable, ?_, fun i => (hm.above i).trans (hhp i)⟩
  · rw [Site.afterClass, hglobal]
    exact hscoped
  · intro k cls hk
    rw [hframe] at hscoped
    rcases Nat.lt_or_ge k σ.classes.length with hlt | hge
    · rw [Store.withClass, List.getElem?_append_left hlt] at hk
      obtain ⟨record, fields, hfits⟩ := hm.classes k cls hk
      exact ⟨record, fields, hfits.mono hσ hst hhp⟩
    · obtain rfl : k = σ.classes.length := by
        have hk' := (List.getElem?_eq_some_iff.mp hk).1
        rw [Store.withClass, List.length_append, List.length_singleton] at hk'
        omega
      obtain rfl := Option.some.inj (hnew.symm.trans hk)
      exact ⟨_, hm.classFits_newClass hclass hmethods hlinked hst hhp hscoped⟩

/-- The tables that code generation has kept are those of the classes in force. -/
def TablesFit (r : Resolution) (w : World) (σ : Store) (ρ : Bindings) (q : CodeState) : Prop :=
  ∀ name k, findClass? name ρ = some k → ∃ cls table, σ.classes[k]? = some cls ∧
    q.tables[name]? = some table ∧ TableFits r w table cls.methods

/-- The table of a new class. -/
theorem Matches.tableFits_newClass (hm : Matches r w s σ hp) (hclass : c.Typed r s.env l scopes)
    {i : ι} {q q' : CodeState} {table : List Label} {bodies : List Instr} {pc : Nat}
    (htables : TablesFit r (w i) σ s.bindings q)
    (hcode : methodCode ((w i).context r true) (inheritedTable q.tables (s.env.classRecord c l))
      c.methods q = .ok ((table, bodies), q'))
    (hbodies : (w i).image.CodeAt (w i).address pc bodies) (hlt : table.length < 2 ^ 31) :
    TableFits r (w i) table (σ.newClass s.bindings c).methods := by
  obtain ⟨inherited, hlists, -, hparent⟩ := hm.inherited hclass
  have hinherited : TableFits r (w i) (inheritedTable q.tables (s.env.classRecord c l))
      ((σ.parent? s.bindings c).elim [] (·.methods)) := by
    rcases hparent with ⟨hnone, hnone'⟩ | ⟨k, parent, record, hrecord, hsome, hk, hname, -,
      hfind, -⟩
    · rw [hnone', inheritedTable, Env.classRecord, hnone]
      exact .nil
    · obtain ⟨cls, table, hcls, htable, hfits⟩ := htables _ k hfind
      obtain rfl := Option.some.inj (hk.symm.trans hcls)
      rw [hname] at htable
      have htable' : inheritedTable q.tables (s.env.classRecord c l) = table := by
        rw [inheritedTable, Env.classRecord, hrecord]
        exact congrArg (Option.getD · []) htable
      rw [htable', hsome]
      exact hfits
  have hlays := hclass.lays
  rw [ClassDecl.ownMembers] at hlays
  obtain ⟨seen, mid, hfields, hmethods⟩ := hlays.append
  obtain ⟨hmid, -, -⟩ := @Lays.lists _ _ _ _ _ _ hfields _ _ hlists.fields_ty hlists.methods_ty
    (inherited, signatures ((σ.parent? s.bindings c).elim [] (·.methods))) hlists (.refl _ _)
    (.refl _ _)
  rw [foldl_put_fields] at hmid
  exact hmethods.tableFits (fun _ => rfl) hmid hinherited hcode hbodies hlt

theorem TablesFit.afterClass {w : World} {ρ : Bindings} {q q' : CodeState} {table : List Label}
    (h : TablesFit r w σ ρ q) (htable : TableFits r w table (σ.newClass ρ c).methods)
    (htables : q'.tables = q.tables.insert c.name table) :
    TablesFit r w (σ.withClass ρ c) ((c.name, .cls σ.classes.length) :: ρ) q' := by
  intro name k hk
  rw [findClass?] at hk
  rw [htables, Std.TreeMap.getElem?_insert]
  split at hk
  next hname =>
    cases hk
    rw [if_pos (Std.compare_eq_iff_eq.mpr hname)]
    exact ⟨_, table, List.getElem?_concat_length .., rfl, htable⟩
  next hname =>
    rw [if_neg fun hcompare => hname (Std.compare_eq_iff_eq.mp hcompare)]
    obtain ⟨cls, table', hcls, htable', hfits⟩ := h name k hk
    exact ⟨cls, table', getElem?_extend (List.prefix_append _ _) hcls, htable', hfits⟩

end NewClass

end Stackling
