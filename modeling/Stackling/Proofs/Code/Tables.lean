import Stackling.Proofs.Classes.Methods
import Stackling.Proofs.Code.Pieces
import Stackling.Proofs.Typing.Acceptance

/-!
# Dispatch tables

Resolution gives offsets to the methods of a class, and code generation fills the dispatch table of
the class on its own, from a copy of the table of the superclass. The two agree: in the place of
each method stands the entry of the code that the class provides for it.
-/

namespace Stackling

open Emission

/-! ### Entries -/

namespace Sourced

variable {a b : Sourced} {f : FunDecl} {l : Label} {o : Origin} {code : List Instr}

/-- The label is the entry of the code that is generated for the function. -/
def Enters (m : Sourced) (f : FunDecl) (l : Label) : Prop :=
  ∃ s ∈ m.spans, s.origin = .routine f ∧ m.code[s.start]? = some (.label l)

theorem Enters.append_left (h : a.Enters f l) : (a ++ b).Enters f l := by
  obtain ⟨s, hs, ho, hl⟩ := h
  refine ⟨s, List.mem_append_left _ hs, ho, ?_⟩
  rw [code_append, List.getElem?_append_left (List.getElem?_eq_some_iff.mp hl).1, hl]

theorem Enters.append_right (h : b.Enters f l) : (a ++ b).Enters f l := by
  obtain ⟨s, hs, ho, hl⟩ := h
  refine ⟨s.shift a.code.length, List.mem_append_right _ (List.mem_map_of_mem hs), ho, ?_⟩
  change (a.code ++ b.code)[a.code.length + s.start]? = some (.label l)
  rw [List.getElem?_append_right (Nat.le_add_right _ _), Nat.add_sub_cancel_left, hl]

/-- The piece has this code. -/
def Has (m : Sourced) (o : Origin) (code : List Instr) : Prop :=
  ∃ s ∈ m.spans, s.origin = o ∧ s.start ≤ s.stop ∧ s.stop ≤ m.code.length ∧
    m.code.extract s.start s.stop = code

theorem Has.append_left (h : a.Has o code) : (a ++ b).Has o code := by
  obtain ⟨s, hs, ho, hle, hstop, hcode⟩ := h
  refine ⟨s, List.mem_append_left _ hs, ho, hle, ?_, ?_⟩
  · rw [code_append, List.length_append]
    omega
  · rw [code_append, Code.extract_append_left hle hstop, hcode]

theorem Has.append_right (h : b.Has o code) : (a ++ b).Has o code := by
  obtain ⟨s, hs, ho, hle, hstop, hcode⟩ := h
  refine ⟨s.shift a.code.length, List.mem_append_right _ (List.mem_map_of_mem hs), ho,
    Nat.add_le_add_left hle _, ?_, ?_⟩
  · rw [code_append, List.length_append]
    exact Nat.add_le_add_left hstop _
  · rw [code_append, ← hcode]
    exact Code.extract_append_right

theorem has_mark (m : Sourced) (o : Origin) : (m.mark o).Has o m.code :=
  ⟨_, List.mem_cons_self, rfl, Nat.zero_le _, Nat.le_refl _, by simp [List.extract_eq_take_drop]⟩

end Sourced

theorem FunDecl.enters {f : FunDecl} {g : CodeContext} {routine : SourcedRoutine} {q q' : CodeState}
    (h : f.sourced g q = .ok (routine, q')) : routine.bodies.Enters f routine.entry := by
  obtain ⟨id, name, params, result, decls, body, pos⟩ := f
  simp only [FunDecl.sourced, bind_eq_ok, pure_eq_ok, Prod.mk.injEq] at h
  obtain ⟨entry, _, -, locals, _, -, value, _, -, rfl, rfl⟩ := h
  exact Sourced.Enters.append_right ⟨_, List.mem_cons_self, rfl, rfl⟩

/-! ### Code of functions leaves the tables alone -/

section Tables

variable {g : CodeContext}

mutual

theorem FunDecl.tables_sourced : ∀ (f : FunDecl) {q q' : CodeState} {routine : SourcedRoutine},
    (∀ c, .cls c ∉ f.innerNodes) → f.sourced g q = .ok (routine, q') → q'.tables = q.tables
  | ⟨id, name, params, result, decls, body, pos⟩, q, q', routine, hfree, h => by
    simp only [FunDecl.sourced, bind_eq_ok, pure_eq_ok, lift_eq_ok, freshFunction_eq_ok,
      Prod.mk.injEq] at h
    obtain ⟨_, _, ⟨rfl, rfl⟩, locals, q₁, hlocals, _, _, ⟨value, s', -, rfl, rfl⟩, rfl, rfl⟩ := h
    refine (declsSourced_tables decls (fun c hc => hfree c ?_) hlocals).trans rfl
    exact List.mem_append_left _ (List.mem_append_right _ hc)

theorem declsSourced_tables : ∀ (ds : List Decl) {q q' : CodeState} {f : SourcedFragment},
    (∀ c, .cls c ∉ declNodes ds) → declsSourced g ds q = .ok (f, q') → q'.tables = q.tables
  | [], q, q', f, _, h => by
    simp only [declsSourced, pure_eq_ok, Prod.mk.injEq] at h
    rw [h.2]
  | d :: ds, q, q', f, hfree, h => by
    simp only [declsSourced, bind_eq_ok, pure_eq_ok, Prod.mk.injEq] at h
    obtain ⟨a, q₁, ha, b, _, hb, rfl, rfl⟩ := h
    have hds := declsSourced_tables ds (fun c hc => hfree c (List.mem_append_right _ hc)) hb
    have hd : ∀ c, .cls c ∉ d.nodes := fun c hc => hfree c (List.mem_append_left _ hc)
    cases d with
    | var d =>
      simp only [Decl.sourced, bind_eq_ok, pure_eq_ok, lift_eq_ok, Prod.mk.injEq] at ha
      obtain ⟨_, _, ⟨_, _, -, rfl, rfl⟩, rfl, rfl⟩ := ha
      exact hds
    | fn fn =>
      simp only [Decl.sourced, bind_eq_ok, pure_eq_ok, Prod.mk.injEq] at ha
      obtain ⟨routine, _, hroutine, rfl, rfl⟩ := ha
      refine hds.trans (fn.tables_sourced (fun c hc => hd c ?_) hroutine)
      rw [Decl.nodes, FunDecl.nodes_eq]
      exact List.mem_cons_of_mem _ hc
    | cls c =>
      refine absurd ?_ (hd c)
      rw [Decl.nodes_cls]
      exact List.mem_append_left _ List.mem_cons_self

end

theorem methodsSourced_tables {ms : List FunDecl} {q q' : CodeState} {table : List Label}
    {m : List Label × Sourced} (hfree : ∀ c, .cls c ∉ methodNodes ms)
    (h : methodsSourced g table ms q = .ok (m, q')) : q'.tables = q.tables := by
  induction ms generalizing q table m with
  | nil =>
    simp only [methodsSourced, pure_eq_ok, Prod.mk.injEq] at h
    rw [h.2]
  | cons f ms ih =>
    simp only [methodsSourced, bind_eq_ok, pure_eq_ok, CodeContext.entryOf_eq_ok, Prod.mk.injEq]
      at h
    obtain ⟨_, _, ⟨entry, -, rfl, rfl⟩, routine, q₁, hroutine, rest, _, hrest, rfl, rfl⟩ := h
    rw [ih (fun c hc => hfree c (List.mem_append_right _ hc)) hrest]
    refine f.tables_sourced (fun c hc => hfree c (List.mem_append_left _ ?_)) hroutine
    rw [FunDecl.nodes_eq]
    exact List.mem_cons_of_mem _ hc

end Tables

/-! ### Filling a table -/

/-- A layout has the methods that the class provides, and the table has their entries in the same
order. Offsets are machine integers, so this is said of tables with a place for each of them
only. -/
structure Implements (ds : List Decl) (m : Sourced) (cls : String) (l : ObjectLayout)
    (table : List Label) (ms : Methods) :
    Prop where
  ranks : l.Ranks ms.signatures
  provides : ∀ p ∈ ms, Provides ds cls p.1 p.2
  enters : ms.length ≤ 2 ^ 31 → List.Forall₂ (fun label p => m.Enters p.2 label) table ms

theorem Implements.mono {ds : List Decl} {a b : Sourced} {cls : String} {l : ObjectLayout}
    {table : List Label} {ms : Methods} (hab : ∀ {f label}, a.Enters f label → b.Enters f label)
    (h : Implements ds a cls l table ms) :
    Implements ds b cls l table ms where
  ranks := h.ranks
  provides := h.provides
  enters := fun hle => (h.enters hle).imp fun _ _ hentry => hab hentry

/-- The own methods of a class go to their places, one by one. -/
theorem methods_fill {r : Resolution} {g : CodeContext} (hg : g.resolution = r) {cls : String}
    {own : List FunDecl} {d : ClassDraft} {ms : Methods} {m bodies : Sourced}
    {table table' : List Label} {q q' : CodeState}
    (hold : r.HoldsAll (d.addAll cls (own.map fun f =>
      ⟨f.id, f.name, f.pos, .method f.signature⟩)).findings) (hd : d.layout.Ranks ms.signatures)
    (htable : (ms.putAll own).length ≤ 2 ^ 31 →
      List.Forall₂ (fun label p => m.Enters p.2 label) table ms)
    (hcode : methodsSourced g table own q = .ok ((table', bodies), q')) :
    (d.addAll cls (own.map fun f => ⟨f.id, f.name, f.pos, .method f.signature⟩)).layout.Ranks
    (ms.putAll own).signatures ∧
      ((ms.putAll own).length ≤ 2 ^ 31 →
        List.Forall₂ (fun label p => (m ++ bodies).Enters p.2 label) table' (ms.putAll own)) := by
  induction own generalizing d ms m bodies table q with
  | nil =>
    simp only [methodsSourced, pure_eq_ok, Prod.mk.injEq] at hcode
    obtain ⟨⟨rfl, rfl⟩, rfl⟩ := hcode
    exact ⟨hd, fun hle => (htable hle).imp fun _ _ hentry => hentry.append_left⟩
  | cons f own ih =>
    simp only [methodsSourced, bind_eq_ok, pure_eq_ok, CodeContext.entryOf_eq_ok, Prod.mk.injEq]
      at hcode
    obtain ⟨_, _, ⟨entry, hentry, rfl, rfl⟩, routine, q₁, hroutine, ⟨table₁, bodies₁⟩, _, hrest,
        ⟨rfl, rfl⟩, rfl⟩ := hcode
    obtain ⟨i, hi, hdecl, hranks⟩ := ClassDraft.ranks_method hold hd
    rw [hg] at hentry
    cases hdecl.symm.trans hentry
    rw [← Sourced.append_assoc]
    refine ih hold hranks (fun hle => ?_) hrest
    have hnodup : (ms.map Prod.fst).Nodup := ms.map_fst_signatures ▸ hd.nodup
    refine forall₂_placeMethod ((htable hle).imp fun _ _ hentry => hentry.append_left) hnodup hi ?_
      (FunDecl.enters hroutine).append_right
    -- the place is one of the methods so far, and there are no fewer in the end
    calc i < (addName (ms.map Prod.fst) f.name).length := (List.getElem?_eq_some_iff.mp hi).1
      _ = (putNamed ms f.name f).length := by rw [← map_fst_putNamed ms f.name f, List.length_map]
      _ ≤ (Methods.putAll (putNamed ms f.name f) own).length := Methods.length_le_putAll _ own
      _ ≤ 2 ^ 31 := hle

/-- A class and the code for its table. -/
structure ClassDecl.Tabled (ds : List Decl) (r : Resolution) (code bodies : Sourced) (c : ClassDecl)
    (record : ClassRecord) (table : List Label) (ms : Methods) : Prop where
  recorded : r.class? c.name = some record
  has : code.Has (.decl (.cls c)) (Code.dispatchTable table)
  implements : Implements ds bodies c.name record.layout table ms
  /-- The methods of the superclass have the offsets that they have there. -/
  inherits : ∀ s, c.superclass = some s → ∃ parent, r.class? s = some parent ∧
    ∀ x member, parent.layout.method? x = some member →
      ∃ member', record.layout.method? x = some member' ∧ member'.entry.offset = member.entry.offset

theorem ClassDecl.Tabled.mono {ds : List Decl} {r : Resolution} {a a' b b' : Sourced}
    {c : ClassDecl} {record : ClassRecord} {table : List Label} {ms : Methods}
    (ha : ∀ {o code}, a.Has o code → a'.Has o code)
    (hb : ∀ {f label}, b.Enters f label → b'.Enters f label)
    (h : c.Tabled ds r a b record table ms) :
    c.Tabled ds r a' b' record table ms where
  recorded := h.recorded
  has := ha h.has
  implements := h.implements.mono hb
  inherits := h.inherits

/-- All classes on record have tables. -/
def Known (ds : List Decl) (env : Env) (tables : Std.TreeMap String (List Label)) (m : Sourced) :
    Prop :=
  ∀ (name : String) (record : ClassRecord), env.classes.records[name]? = some record →
    ∃ table ms, tables[name]? = some table ∧ Implements ds m name record.layout table ms

theorem Known.global (ds : List Decl) (tables : Std.TreeMap String (List Label)) (m : Sourced) :
    Known ds .global tables m := by
  intro name record hrecord
  simp [Env.global] at hrecord

theorem Known.append {ds : List Decl} {env : Env} {tables : Std.TreeMap String (List Label)}
    {a b : Sourced} (h : Known ds env tables a) : Known ds env tables (a ++ b) := by
  intro name record hrecord
  obtain ⟨table, ms, htable, himplements⟩ := h name record hrecord
  exact ⟨table, ms, htable, himplements.mono .append_left⟩

/-- What a class starts from. -/
theorem Known.inherited {ds : List Decl} {env : Env} {q : CodeState} {m : Sourced}
    (h : Known ds env q.tables m) (hvalid : env.classes.Valid) {c : ClassDecl}
    (hparent : ErrorFree (env.parentFindings c)) (l : ObjectLayout) :
    ∃ ms : Methods, (env.inheritedLayout c).Ranks ms.signatures ∧
      (∀ p ∈ ms, ∃ s, c.superclass = some s ∧ Provides ds s p.1 p.2) ∧
      (ms.length ≤ 2 ^ 31 →
        List.Forall₂ (fun label p => m.Enters p.2 label)
          (inheritedTable q.tables (env.classRecord c l)) ms) ∧
      ∀ s, c.superclass = some s → ∃ parent, env.classes.records[s]? = some parent ∧
        parent.layout.Ranks ms.signatures := by
  unfold Env.inheritedLayout Env.classRecord inheritedTable Env.parent?
  cases hsuper : c.superclass with
  | none => exact ⟨[], .empty, nofun, fun _ => .nil, nofun⟩
  | some s =>
    have hmem := (Env.parentFindings_errorFree hparent).2 s hsuper
    have hs : env.classes.records[s]? = some env.classes.records[s] :=
      Std.TreeMap.getElem?_eq_some_getElem hmem
    obtain ⟨table, ms, htable, himplements⟩ := h s _ hs
    have hname := (hvalid s _ hs).1
    simp only [Option.bind_some, hs, Option.map_some, Option.getD_some, hname, htable]
    exact ⟨ms, himplements.ranks, fun p hp => ⟨s, rfl, himplements.provides p hp⟩,
      himplements.enters,
      fun s' hs' => ⟨_, Option.some.inj hs' ▸ hs, himplements.ranks⟩⟩

/-- Methods stay in place from the superclass on. -/
theorem ObjectLayout.Ranks.inherits {parent l : ObjectLayout} {ms : Methods} {own : List FunDecl}
    (hparent : parent.Ranks ms.signatures) (hl : l.Ranks (ms.putAll own).signatures) {x : String}
    {member : Member} (hmember : parent.method? x = some member) :
    ∃ member', l.method? x = some member' ∧ member'.entry.offset = member.entry.offset := by
  obtain ⟨i, sig, hi, rfl⟩ := (hparent.method x member).mp hmember
  rw [Methods.signatures, List.getElem?_map, Option.map_eq_some_iff] at hi
  obtain ⟨⟨_, f⟩, hf, heq⟩ := hi
  cases heq
  obtain ⟨f', hf', -⟩ :=
    Methods.overrides_putAll (ms.map_fst_signatures ▸ hparent.nodup) own i _ f hf
  refine ⟨methodMember i f'.signature, (hl.method _ _).mpr ⟨i, _, ?_, rfl⟩, rfl⟩
  rw [Methods.signatures, List.getElem?_map, hf']
  rfl

theorem Env.draftOf_eq (env : Env) (c : ClassDecl) :
    env.draftOf c = ClassDraft.addAll
      (ClassDraft.addAll { layout := env.inheritedLayout c } c.name
        (c.fields.map fun f => ⟨f.id, f.name, f.pos, f.declared.ty⟩)) c.name
      (c.methods.map fun f => ⟨f.id, f.name, f.pos, .method f.signature⟩) := by
  rw [Env.draftOf, ClassDecl.draft_eq, ClassDecl.ownMembers, ClassDraft.addAll, List.foldl_append]
  rfl

/-- The table of a class. -/
theorem ClassDecl.tabled {ds : List Decl} {g : CodeContext} {env : Env} {c : ClassDecl}
    {q q' : CodeState} {m : Sourced} {f : SourcedFragment} (hc : .cls c ∈ ds)
    (hvalid : env.classes.Valid) (hrec : env.Recorded g.resolution)
    (hparent : ErrorFree (env.parentFindings c))
    (hdraft : g.resolution.HoldsAll (env.draftOf c).findings)
    (hrecord : g.resolution.class? c.name = some (env.classRecord c (env.draftOf c).layout))
    (hfree : ∀ c', .cls c' ∉ methodNodes c.methods) (hknown : Known ds env q.tables m)
    (hcode : (Decl.cls c).sourced g q = .ok (f, q')) :
    ∃ table ms, q'.tables = q.tables.insert c.name table ∧
      c.Tabled ds g.resolution f.code (m ++ f.bodies) (env.classRecord c (env.draftOf c).layout)
        table ms := by
  obtain ⟨ms, hranks, hprovides, henters, hsuper⟩ :=
    hknown.inherited hvalid hparent (env.draftOf c).layout
  obtain ⟨id, name, superclass, fields, methods, pos⟩ := c
  simp only [Decl.sourced, bind_eq_ok, pure_eq_ok, get_eq_ok, modify_eq_ok,
    CodeContext.recordOf_eq_ok, Prod.mk.injEq] at hcode
  obtain ⟨_, _, ⟨_, record, -, hrecord', rfl, rfl⟩, _, _, ⟨rfl, rfl⟩, ⟨table, bodies⟩, q₁, hmethods,
    _, _, ⟨-, rfl⟩, rfl, rfl⟩ := hcode
  cases hrecord.symm.trans hrecord'
  rw [Env.draftOf_eq] at hdraft
  have hfields := ClassDraft.ranks_fields (ClassDraft.addAll_errorFree hdraft.errorFree) hranks
  obtain ⟨hlayout, htable⟩ := methods_fill (g := { g with inClass := true }) rfl hdraft hfields
    (fun hle => henters (Nat.le_trans (ms.length_le_putAll methods) hle)) hmethods
  rw [← Env.draftOf_eq] at hlayout
  refine ⟨table, ms.putAll methods, by rw [methodsSourced_tables hfree hmethods], hrecord,
    Sourced.has_mark _ _, ⟨hlayout, Provides.putAll hc hprovides, htable⟩, fun s hs => ?_⟩
  obtain ⟨parent, hs', hparent'⟩ := hsuper s hs
  exact ⟨parent, hrec s parent hs', fun x member hmember => hparent'.inherits hlayout hmember⟩

/-! ### Declarations -/

/-- After a declaration all classes on record have tables, and if it is a class, its table is in the
code. -/
theorem Decl.known {ds : List Decl} {g : CodeContext} {env : Env} {d : Decl} {q q' : CodeState}
    {m : Sourced} {f : SourcedFragment} (hd : d ∈ ds)
    (hold : g.resolution.HoldsAll (d.resolve env).2) (hstack : env.scopes.stack ≠ [])
    (hvalid : env.classes.Valid) (hreg : env.Registered)
    (hrec : (d.resolve env).1.Recorded g.resolution) (hknown : Known ds env q.tables m)
    (hcode : d.sourced g q = .ok (f, q')) :
    Known ds (d.resolve env).1 q'.tables (m ++ f.bodies) ∧
      ∀ c, d = .cls c →
        ∃ record table ms, c.Tabled ds g.resolution f.code (m ++ f.bodies) record table ms := by
  have hrec' := Env.Recorded.of_resolve hreg hold.errorFree hrec
  cases d with
  | var d =>
    simp only [Decl.sourced, bind_eq_ok, pure_eq_ok, lift_eq_ok, Prod.mk.injEq] at hcode
    obtain ⟨_, _, ⟨_, _, -, rfl, rfl⟩, rfl, rfl⟩ := hcode
    refine ⟨?_, nofun⟩
    intro name record hrecord
    rw [Decl.resolve_var, Env.classes_declareLocal] at hrecord
    exact hknown.append name record hrecord
  | fn fn =>
    simp only [Decl.sourced, bind_eq_ok, pure_eq_ok, Prod.mk.injEq] at hcode
    obtain ⟨routine, _, hroutine, rfl, rfl⟩ := hcode
    rw [Decl.resolve_fn, Resolution.HoldsAll.append] at hold
    have hfree : ∀ c, .cls c ∉ fn.innerNodes := by
      refine fun c => fn.cls_notMem_nodes ?_ c hold.2.errorFree
      rw [← List.length_pos_iff, Env.stack_length_declareLocal]
      exact List.length_pos_iff.mpr hstack
    refine ⟨?_, nofun⟩
    intro name record hrecord
    rw [Decl.resolve_fn, Env.classes_declareLocal] at hrecord
    rw [fn.tables_sourced hfree hroutine]
    exact hknown.append name record hrecord
  | cls c =>
    rw [Decl.resolve_cls] at hold hrec ⊢
    obtain ⟨hheader, hmethods⟩ := Resolution.HoldsAll.append.mp hold
    obtain ⟨hdepth, hparent, -, scopes, hs, heq⟩ := Env.classHeader_errorFree hheader.errorFree
    rw [heq] at hrec hheader hmethods ⊢
    have hdraft := (Resolution.HoldsAll.append.mp hheader).1
    have hrecord : g.resolution.class? c.name =
        some (env.classRecord c (env.draftOf c).layout) := by
      refine hrec c.name _ ?_
      rw [ClassTable.getElem?_add]
      exact if_pos rfl
    have hfree :=
      fun c' => methods_cls_notMem_nodes (List.cons_ne_nil _ _) c' c.methods hmethods.errorFree
    obtain ⟨table, ms, htables, htabled⟩ :=
      ClassDecl.tabled hd hvalid hrec' hparent hdraft hrecord hfree hknown hcode
    refine ⟨?_, ?_⟩
    · intro name record hname
      rw [ClassTable.getElem?_add] at hname
      change (if c.name = name then some (env.classRecord c (env.draftOf c).layout)
        else env.classes.records[name]?) = some record at hname
      rw [htables, Std.TreeMap.getElem?_insert]
      by_cases heq : c.name = name
      · subst heq
        rw [if_pos rfl] at hname
        cases hname
        exact ⟨table, ms, by simp, htabled.implements⟩
      · have hcompare : ¬compare c.name name = .eq := fun h => heq (Std.compare_eq_iff_eq.mp h)
        rw [if_neg hcompare]
        rw [if_neg heq] at hname
        exact hknown.append name record hname
    · rintro _ ⟨⟩
      exact ⟨_, table, ms, htabled⟩

theorem decls_tabled {ds : List Decl} {g : CodeContext} {rest : List Decl} {env : Env}
    {q q' : CodeState} {m : Sourced} {f : SourcedFragment} (hsub : ∀ d ∈ rest, d ∈ ds)
    (hold : g.resolution.HoldsAll (resolveDecls env rest).2) (hstack : env.scopes.stack ≠ [])
    (hvalid : env.classes.Valid) (hreg : env.Registered)
    (hrec : (resolveDecls env rest).1.Recorded g.resolution) (hknown : Known ds env q.tables m)
    (hcode : declsSourced g rest q = .ok (f, q')) :
    ∀ c, .cls c ∈ rest →
      ∃ record table ms, c.Tabled ds g.resolution f.code (m ++ f.bodies) record table ms := by
  induction rest generalizing env q m f with
  | nil => nofun
  | cons d rest ih =>
    rw [List.forall_mem_cons] at hsub
    rw [resolveDecls_cons] at hold hrec
    rw [Resolution.HoldsAll.append] at hold
    simp only [declsSourced, bind_eq_ok, pure_eq_ok, Prod.mk.injEq] at hcode
    obtain ⟨a, q₁, ha, b, _, hb, rfl, rfl⟩ := hcode
    have hreg' := hreg.resolve hold.1.errorFree
    have hrec' := Env.Recorded.of_resolveDecls hreg' hold.2.errorFree hrec
    obtain ⟨hknown', hfirst⟩ := Decl.known hsub.1 hold.1 hstack hvalid hreg hrec' hknown ha
    have hstack' := Decl.stack_ne_nil_resolve hstack d
    have hrest := ih hsub.2 hold.2 hstack' (d.valid_resolve hvalid) hreg' hrec hknown' hb
    intro c hc
    rw [SourcedFragment.code_append, SourcedFragment.bodies_append, ← Sourced.append_assoc]
    rcases List.mem_cons.mp hc with rfl | hc
    · obtain ⟨record, table, ms, htabled⟩ := hfirst c rfl
      exact ⟨record, table, ms, htabled.mono .append_left .append_left⟩
    · obtain ⟨record, table, ms, htabled⟩ := hrest c hc
      exact ⟨record, table, ms, htabled.mono .append_right id⟩

/-! ### Names -/

/-- No class on record is declared again. -/
theorem Env.Registered.notMem_records {env : Env} {ds : List Decl} (hreg : env.Registered)
    (h : ErrorFree (resolveDecls env ds).2) {c : ClassDecl} (hc : .cls c ∈ ds) :
    c.name ∉ env.classes.records := by
  induction ds generalizing env with
  | nil => cases hc
  | cons d ds ih =>
    rw [resolveDecls_cons, ErrorFree.append] at h
    rcases List.mem_cons.mp hc with rfl | hc
    · rcases Decl.resolve_env h.1 with ⟨scopes, entry, cells, hs, heq⟩ |
        ⟨c', scopes, hd, hdepth, hs, heq⟩
      · have hheader := h.1
        rw [Decl.resolve_cls, ErrorFree.append] at hheader
        exact hreg.notMem_of_declare? (Env.classHeader_errorFree hheader.1).1 hs
      · cases hd
        exact hreg.notMem_of_declare? hdepth hs
    · intro hmem
      refine ih (hreg.resolve h.1) h.2 hc ?_
      rcases Decl.resolve_env h.1 with ⟨scopes, entry, cells, hs, heq⟩ |
        ⟨c', scopes, hd, hdepth, hs, heq⟩
      · rw [heq]
        exact hmem
      · rw [heq]
        exact ClassTable.mem_add.mpr (.inr hmem)

theorem Env.Registered.unambiguous {env : Env} {ds : List Decl} (hreg : env.Registered)
    (hstack : env.scopes.stack ≠ []) (h : ErrorFree (resolveDecls env ds).2) : Unambiguous ds := by
  induction ds generalizing env with
  | nil => exact ⟨nofun, nofun⟩
  | cons d ds ih =>
    rw [resolveDecls_cons, ErrorFree.append] at h
    have hreg' := hreg.resolve h.1
    have hds := ih hreg' (Decl.stack_ne_nil_resolve hstack d) h.2
    -- a class is on record after its declaration, so no later one has its name
    have hlater : ∀ c, d = .cls c → ∀ c', .cls c' ∈ ds → c'.name ≠ c.name := by
      rintro c rfl c' hc' heq
      refine hreg'.notMem_records h.2 hc' (heq ▸ (Decl.mem_records_resolve hstack h.1).2 c ?_)
      rw [Decl.nodes_cls]
      exact List.mem_append_left _ List.mem_cons_self
    constructor
    · intro c c' hc hc' hname
      rcases List.mem_cons.mp hc with hd | hc <;> rcases List.mem_cons.mp hc' with hd' | hc'
      · cases hd.trans hd'.symm
        rfl
      · exact absurd hname.symm (hlater c hd.symm c' hc')
      · exact absurd hname (hlater c' hd'.symm c hc)
      · exact hds.classes c c' hc hc' hname
    · intro c hc
      rcases List.mem_cons.mp hc with rfl | hc
      · have hheader := h.1
        rw [Decl.resolve_cls, ErrorFree.append] at hheader
        obtain ⟨-, -, hdraft, -⟩ := Env.classHeader_errorFree hheader.1
        rw [Env.draftOf_eq] at hdraft
        have hnodup := (ClassDraft.nodup_addAll hdraft).1
        rwa [List.map_map] at hnodup
      · exact hds.methods c hc

end Stackling
