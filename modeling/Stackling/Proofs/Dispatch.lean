import Stackling.Proofs.Code.Tables
import Stackling.Proofs.Pipeline
import Stackling.Proofs.Resolution.Sites

/-!
# Virtual dispatch

A class has a dispatch table with the entries of its methods, each in its place. A call that is
resolved against a class finds in the table of any subclass what the subclass provides for the
method.
-/

namespace Stackling

/-! ### Calls of methods -/

/-- A method call is resolved to the method that the class of its receiver has under the name. -/
def Node.Sent (r : Resolution) : Node → Prop
  | .use _ (.send id _ method _ _) =>
    ∃ d record member, r.sends[id]? = some d ∧
      r.class? d.cls = some record ∧
      record.layout.method? method = some member ∧ d.method = member.entry
  | _ => True

/-! ### Subclasses -/

/-- The class is the other one, or its superclass inherits from the other one. -/
inductive Inherits (ds : List Decl) : (cls ancestor : String) → Prop where
  | refl {cls : String} : Inherits ds cls cls
  | step {c : ClassDecl} {s ancestor : String} (hc : .cls c ∈ ds) (hs : c.superclass = some s)
      (h : Inherits ds s ancestor) : Inherits ds c.name ancestor

/-- A method keeps its offset in all subclasses. -/
theorem Inherits.method? {ds : List Decl} {r : Resolution} {code bodies : Sourced}
    {cls ancestor : String}
    (htabled : ∀ c, .cls c ∈ ds → ∃ record table ms, c.Tabled ds r code bodies record table ms)
    (h : Inherits ds cls ancestor) {record : ClassRecord}
    (hrecord : r.class? ancestor = some record) {x : String} {member : Member}
    (hmember : record.layout.method? x = some member) :
    ∃ record' member', r.class? cls = some record' ∧ record'.layout.method? x = some member' ∧
      member'.entry.offset = member.entry.offset := by
  induction h with
  | refl => exact ⟨record, member, hrecord, hmember, rfl⟩
  | step hc hs _ ih =>
    obtain ⟨parent, member', hparent, hmember', hoffset⟩ := ih hrecord
    obtain ⟨record', table, ms, hown⟩ := htabled _ hc
    obtain ⟨parent', hparent', hkeeps⟩ := hown.inherits _ hs
    cases hparent.symm.trans hparent'
    obtain ⟨member'', hmember'', hoffset'⟩ := hkeeps x member' hmember'
    exact ⟨record', member'', hown.recorded, hmember'', hoffset'.trans hoffset⟩

/-! ### Tables of programs -/

/-- The method has the place with this number. -/
def ObjectLayout.Offers (l : ObjectLayout) (x : String) (i : Nat) : Prop :=
  ∃ member, l.method? x = some member ∧ member.entry.offset = Int32.ofNat i

/-- The label at a place of the table is the entry of what the class provides for the method, and of
nothing else. -/
def ClassDecl.Finds (ds : List Decl) (m : Sourced) (c : ClassDecl) (labels : List Label)
    (x : String) (i : Nat) : Prop :=
  ∃ f label, labels[i]? = some label ∧ m.Enters f label ∧ ∀ f', Provides ds c.name x f' ↔ f' = f

/-- The code has a dispatch table for the class, with a label for each method and no more. -/
structure ClassDecl.Dispatches (p : Program) (m : Sourced) (c : ClassDecl) (l : ObjectLayout)
    (labels : List Label) :
    Prop where
  has : m.Has (.decl (.cls c)) (Code.dispatchTable labels)
  length : labels.length = l.classTy.methods.length
  place : ∀ i < labels.length, ∃ x, (∀ y, l.Offers y i ↔ y = x) ∧ c.Finds p.decls m labels x i
  /-- A call that is resolved against a superclass finds the method. -/
  send : ∀ id receiver method args pos d, .use id (.send id receiver method args pos) ∈ p.nodes →
    p.resolve.sends[id]? = some d → Inherits p.decls c.name d.cls →
      ∃ i, d.method.offset = Int32.ofNat i ∧ c.Finds p.decls m labels method i

namespace Implements

variable {ds : List Decl} {m : Sourced} {c : ClassDecl} {l : ObjectLayout} {table : List Label}
  {ms : Methods}

theorem length_methods (h : Implements ds m c.name l table ms) :
    l.classTy.methods.length = ms.length := by
  rw [h.ranks.methods_ty, List.length_map, Methods.signatures, List.length_map]

theorem method?_eq_some (h : Implements ds m c.name l table ms) {x : String} {member : Member} :
    l.method? x = some member ↔
      ∃ i f, ms[i]? = some (x, f) ∧ member = ObjectLayout.methodMember i f.signature := by
  rw [h.ranks.method x member]
  constructor
  · rintro ⟨i, sig, hi, rfl⟩
    rw [Methods.signatures, List.getElem?_map, Option.map_eq_some_iff] at hi
    obtain ⟨⟨_, f⟩, hf, heq⟩ := hi
    cases heq
    exact ⟨i, f, hf, rfl⟩
  · rintro ⟨i, f, hf, rfl⟩
    refine ⟨i, f.signature, ?_, rfl⟩
    rw [Methods.signatures, List.getElem?_map, hf]
    rfl

/-- As long as offsets tell places apart, there is one method for each place. -/
theorem offers (h : Implements ds m c.name l table ms) (hle : ms.length ≤ 2 ^ 31) {i : Nat}
    {x : String} {f : FunDecl} (hi : ms[i]? = some (x, f)) (y : String) : l.Offers y i ↔ y = x := by
  constructor
  · rintro ⟨member, hmember, hoffset⟩
    obtain ⟨j, f', hj, rfl⟩ := h.method?_eq_some.mp hmember
    have hi' := (List.getElem?_eq_some_iff.mp hi).1
    have hj' := (List.getElem?_eq_some_iff.mp hj).1
    have hplace : j = i := by
      have hint := congrArg Int32.toInt hoffset
      change (Int32.ofNat j).toInt = _ at hint
      rw [Int32.toInt_ofNat_of_lt (by omega), Int32.toInt_ofNat_of_lt (by omega)] at hint
      exact Int.ofNat.inj hint
    subst hplace
    cases hj.symm.trans hi
    rfl
  · rintro rfl
    exact ⟨_, h.method?_eq_some.mpr ⟨i, f, hi, rfl⟩, rfl⟩

theorem finds (h : Implements ds m c.name l table ms) (hds : Unambiguous ds)
    (hle : ms.length ≤ 2 ^ 31) {i : Nat} {x : String} {f : FunDecl} (hi : ms[i]? = some (x, f)) :
    c.Finds ds m table x i := by
  have hprovides := h.provides _ (List.mem_of_getElem? hi)
  obtain ⟨label, hlabel, henters⟩ := forall₂_getElem? (h.enters hle) hi
  refine ⟨f, label, hlabel, henters, fun f' => ⟨hprovides.unique hds, ?_⟩⟩
  rintro rfl
  exact hprovides

end Implements

/-- The table of a class serves all calls that may reach it. -/
theorem ClassDecl.Tabled.dispatches {p : Program} {code bodies m : Sourced} {c : ClassDecl}
    {record : ClassRecord} {table : List Label} {ms : Methods} (hds : Unambiguous p.decls)
    (htabled : ∀ c, .cls c ∈ p.decls →
      ∃ record table ms, c.Tabled p.decls p.resolve code bodies record table ms)
    (hsent : ∀ n ∈ p.nodes, n.Sent p.resolve) (h : c.Tabled p.decls p.resolve m m record table ms)
    (hle : record.layout.classTy.methods.length ≤ 2 ^ 31) :
    c.Dispatches p m record.layout table := by
  rw [h.implements.length_methods] at hle
  have hlength := (h.implements.enters hle).length_eq
  refine ⟨h.has, hlength.trans h.implements.length_methods.symm, fun i hi => ?_, ?_⟩
  · have hi' : ms[i]? = some ms[i] := List.getElem?_eq_getElem (hlength ▸ hi)
    exact ⟨_, h.implements.offers hle hi', h.implements.finds hds hle hi'⟩
  · intro id receiver method args pos d hmem hd hinherits
    obtain ⟨d', parent, member, hd', hparent, hmember, hmethod⟩ := hsent _ hmem
    cases hd.symm.trans hd'
    obtain ⟨record', member', hrecord', hmember', hoffset⟩ :=
      hinherits.method? htabled hparent hmember
    cases h.recorded.symm.trans hrecord'
    obtain ⟨i, f, hi, rfl⟩ := h.implements.method?_eq_some.mp hmember'
    exact ⟨i, hmethod ▸ hoffset.symm, h.implements.finds hds hle hi⟩

namespace Program

variable {p : Program}

theorem sent (hdistinct : p.Distinct) (h : p.resolve.errors = []) {n : Node} (hn : n ∈ p.nodes) :
    n.Sent p.resolve := by
  have hsited := sited hdistinct h n hn
  unfold Node.Sent
  split
  next id receiver method args pos =>
    obtain ⟨env, hrec, hold⟩ := hsited
    rw [Expr.resolve, Resolution.HoldsAll.cons] at hold
    obtain ⟨entry, cls, record, member, -, -, hrecord, hmember, hsend⟩ := Env.useMethod_holds hold.1
    exact ⟨_, record, member, hsend, hrec cls record hrecord, hmember, rfl⟩
  next => trivial

/-- Dispatch tables have the right entries: each method of a class is found in its place, and calls
find what the class of the object provides. Offsets are machine integers, and this is said of
classes with no more methods than there are offsets. -/
theorem generate_dispatches (hdistinct : p.Distinct) (h : p.resolve.errors = [])
    (globalFrame : Int32) :
    ∃ m, p.sourced p.resolve globalFrame = .ok m ∧ p.generate p.resolve globalFrame = .ok ⟨m.code⟩ ∧
      m.Maps { resolution := p.resolve, globalFrame } p.pieces ∧
      ∀ c, .cls c ∈ p.nodes → ∃ record, p.resolve.class? c.name = some record ∧
        (record.layout.classTy.methods.length ≤ 2 ^ 31 →
          ∃ labels, c.Dispatches p m record.layout labels) := by
  obtain ⟨listing, hgenerate⟩ := exists_generate_resolve hdistinct.built h globalFrame
  obtain ⟨m, hm, hcode⟩ := exists_sourced hgenerate
  refine ⟨m, hm, hcode ▸ hgenerate, sourced_maps hm, fun c hc => ?_⟩
  obtain ⟨locals, q, value, s', hlocals, hvalue, rfl⟩ := sourced_eq_ok.mp hm
  have hdecls := (Resolution.HoldsAll.append.mp (p.holdsAll hdistinct h)).1
  have hds := Env.registered_global.unambiguous (List.cons_ne_nil _ _) hdecls.errorFree
  have htabled := decls_tabled (fun d hd => hd) hdecls (List.cons_ne_nil _ _) Env.valid_global
    Env.registered_global p.recorded
    (Known.global p.decls _ (.plain p.opening ++ locals.code ++ value ++ .plain [.bare .halt]))
    hlocals
  obtain ⟨record, table, ms, hc⟩ := htabled c (cls_mem_decls h hc)
  refine ⟨record, hc.recorded, fun hle => ⟨table, ?_⟩⟩
  refine ClassDecl.Tabled.dispatches hds htabled (fun _ hn => sent hdistinct h hn)
    (hc.mono (fun hhas => ?_) id) hle
  exact hhas.append_right.append_left.append_left.append_left

/-- A class that adds a method and overrides one. -/
def middle : ClassDecl where
  id := 5
  name := "B"
  superclass := some "A"
  fields := []
  methods := [
    { id := 6, name := "three", params := [], result := .int, decls := [], body := .int 3 default,
      pos := default },
    { id := 7, name := "two", params := [], result := .int, decls := [], pos := default
      body := .binary .add (.name 8 "a" default) (.int 2 default) default }]
  pos := default

/-- A subclass of it, which adds a method and overrides one from each level above. -/
def bottom : ClassDecl where
  id := 10
  name := "C"
  superclass := some "B"
  fields := []
  methods := [
    { id := 11, name := "four", params := [], result := .int, decls := [], body := .int 4 default,
      pos := default },
    { id := 12, name := "three", params := [], result := .int, decls := [],
      body := .name 13 "a" default, pos := default },
    { id := 14, name := "one", params := [], result := .int, decls := [],
      body := .name 15 "a" default, pos := default }]
  pos := default

/-- A program with three levels of classes. -/
def layered : Program where
  decls := [
    .cls {
      id := 0
      name := "A"
      superclass := none
      fields := [⟨1, "a", .int, default⟩]
      methods := [
        { id := 2, name := "one", params := [], result := .int, decls := [], body := .int 1 default,
          pos := default },
        { id := 3, name := "two", params := [], result := .int, decls := [],
          body := .name 4 "a" default, pos := default }]
      pos := default },
    .cls middle,
    .cls bottom,
    .var ⟨16, "x", .ref "A", .new 17 "C" [.int 20 default] default, default⟩]
  body := .binary .add (.send 18 "x" "one" [] default) (.send 19 "x" "two" [] default) default
  pos := default

theorem generate_dispatches_layered :
    layered.Distinct ∧ layered.resolve.errors = [] ∧ ∃ m record labels,
      layered.sourced layered.resolve 10000 = .ok m ∧
      layered.resolve.class? "C" = some record ∧ labels.length = 4 ∧
      bottom.Dispatches layered m record.layout labels ∧
      ∃ d i, layered.resolve.sends[19]? = some d ∧ d.cls = "A" ∧ d.method.offset = Int32.ofNat i ∧
        bottom.Finds layered.decls m labels "two" i := by
  have hdistinct : layered.Distinct := by decide +kernel
  have hresolve : layered.resolve.errors = [] := by decide +kernel
  have hcount : (layered.resolve.class? "C").map (·.layout.classTy.methods.length) =
      some 4 := by decide +kernel
  have hcall : (layered.resolve.sends[19]?).map (·.cls) = some "A" := by decide +kernel
  obtain ⟨m, hm, -, -, hclasses⟩ := generate_dispatches hdistinct hresolve 10000
  obtain ⟨record, hrecord, hdispatch⟩ :=
    hclasses bottom (by simp [nodes, layered, declNodes, Decl.nodes, bottom])
  obtain ⟨record', hrecord', hlength⟩ := Option.map_eq_some_iff.mp hcount
  cases hrecord.symm.trans hrecord'
  obtain ⟨labels, hlabels⟩ := hdispatch (hlength ▸ by decide)
  obtain ⟨d, hd, hcls⟩ := Option.map_eq_some_iff.mp hcall
  have hinherits : Inherits layered.decls "C" "A" :=
    .step (c := bottom) (by simp [layered]) rfl (.step (c := middle) (by simp [layered]) rfl .refl)
  obtain ⟨i, hoffset, hfinds⟩ :=
    hlabels.send 19 "x" "two" [] default d (by simp [nodes, layered, Expr.nodes]) hd
      (hcls ▸ hinherits)
  exact ⟨hdistinct, hresolve, m, record, labels, hm, hrecord, hlabels.length.trans hlength, hlabels,
    d, i, hd, hcls, hoffset, hfinds⟩

end Program

end Stackling
