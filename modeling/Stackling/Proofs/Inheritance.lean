import Stackling.Proofs.Classes.Arrangement
import Stackling.Proofs.Classes.Methods
import Stackling.Proofs.Hierarchy
import Stackling.Proofs.Resolution.Records
import Stackling.Proofs.Typing.Acceptance

/-!
# Classes and their superclasses

The layouts of the classes of a program. Each is arranged, and has what it inherits where it was. In
a program that is accepted, a member that overrides another one has a subtype of its type. So the
fields lie side by side, and an object of a class can stand for one of any class above it: what an
ancestor has under a name is found there at the same place, at a subtype.
-/

namespace Stackling

namespace Records

variable {ds : List Decl} {c : ClassDecl} {env : Env}

/-- What a class inherits, from what its superclass is made of. -/
theorem inheritedLayout_of {P : ObjectLayout → Prop} (hempty : P {})
    (hparent : ∀ record, env.parent? c = some record → P record.layout) :
    P (env.inheritedLayout c) := by
  unfold Env.inheritedLayout
  cases hp : env.parent? c with
  | none => exact hempty
  | some record => exact hparent record hp

theorem arranged (h : Records ds c env) : (env.draftOf c).layout.Arranged := by
  refine h.induction (motive := fun c env => (env.draftOf c).layout.Arranged)
    fun c env _ hparent => ?_
  have hinherited : (env.inheritedLayout c).Arranged := by
    refine inheritedLayout_of .empty fun record hrecord => ?_
    obtain ⟨c', env', -, -, rfl, harranged⟩ := hparent record hrecord
    exact harranged
  rw [Env.draftOf, ClassDecl.draft_eq]
  exact hinherited.addAll c.name c.ownMembers

theorem arranged_inherited (h : Records ds c env) : (env.inheritedLayout c).Arranged := by
  refine inheritedLayout_of .empty fun record hrecord => ?_
  obtain ⟨before, after, c', env', -, hrec, -, rfl⟩ := h.parent hrecord
  exact hrec.arranged

theorem valid (h : Records ds c env) : env.classes.Valid := by
  obtain ⟨before, after, -, -, rfl⟩ := h
  exact valid_resolveDecls Env.valid_global before

end Records

namespace Program

variable {p : Program} {c : ClassDecl} {env : Env}

theorem recorded_of_records (h : Records p.decls c env) : env.Recorded p.resolve := by
  obtain ⟨before, after, hds, -, rfl⟩ := h
  intro x record hrecord
  obtain ⟨c', env', hrec, hname, hrecord⟩ := (Records.iff_getElem? before x record).mp hrecord
  exact class?_eq_some_iff.mpr ⟨c', env', hds ▸ hrec.append _, hname, hrecord⟩

theorem violations_eq_nil (hcheck : (p.check p.resolve).errors = []) {d : Decl} (hd : d ∈ p.decls) :
    d.violations p.resolve = [] := by
  have hall : ∀ ds : List Decl, declViolations p.resolve ds = [] →
      ∀ d ∈ ds, d.violations p.resolve = [] := by
    intro ds
    induction ds with
    | nil => exact fun _ => nofun
    | cons d ds ih =>
      intro h
      rw [declViolations, List.append_eq_nil_iff] at h
      exact List.forall_mem_cons.mpr ⟨h.1, ih h.2⟩
  refine hall p.decls ?_ d hd
  unfold check at hcheck
  split at hcheck
  · exact hcheck
  · exact (List.append_eq_nil_iff.mp hcheck).1

/-- A member narrows the one that it overrides. -/
theorem isSubtype_of_placed (hdistinct : p.Distinct) (hresolve : p.resolve.errors = [])
    (h : Records p.decls c env) (hviol : c.overrideViolations p.resolve = []) {o : OwnMember}
    (ho : o ∈ c.ownMembers) {m old : Member}
    (hplaced : o.Placed (some old) (env.draftOf c).findings m)
    (hold : (env.inheritedLayout c).members[o.name]? = some old) :
    p.resolve.hierarchy.isSubtype o.ty old.entry.ty = true := by
  have hposition : p.resolve.positions[o.id]? = some m.position :=
    holdsAll hdistinct hresolve _ (mem_findings_of_records h (.inl hplaced.position))
  have hadmits :=
    ClassDecl.admits h.valid (recorded_of_records h) (class?_of_records h) hviol o ho _ hposition
  have hreplaces := hplaced.replaces old rfl
  have hsort : old.isMethod = o.ty.isMethod := by
    rw [← hreplaces.isMethod, ← hplaced.ty]
    rfl
  have hty := h.arranged_inherited.ty_at hold
  rw [← hreplaces.position, hsort] at hty
  unfold ClassTy.Admits at hadmits
  cases hkind : o.ty.isMethod with
  | true =>
    rw [hkind] at hadmits hty
    obtain ⟨sig, hsig, hmethod⟩ := Option.map_eq_some_iff.mp ((List.getElem?_map).symm.trans hty)
    rw [← hmethod]
    exact hadmits sig hsig
  | false =>
    rw [hkind] at hadmits hty
    exact hadmits _ hty

/-- What a class inherits is found in it at a subtype. -/
theorem exists_narrower (hdistinct : p.Distinct) (hresolve : p.resolve.errors = [])
    (h : Records p.decls c env) (hviol : c.overrideViolations p.resolve = []) {x : String}
    {old : Member} (hold : (env.inheritedLayout c).members[x]? = some old) :
    ∃ m, (env.draftOf c).layout.members[x]? = some m ∧ m.Replaces old ∧
      p.resolve.hierarchy.isSubtype m.entry.ty old.entry.ty = true := by
  have hextends := env.draftOf_extends c
  cases ho : c.ownMembers.find? (·.name = x) with
  | none =>
    refine ⟨old, (hextends.kept x ?_).trans hold, ⟨rfl, rfl, rfl⟩, Hierarchy.isSubtype_refl _ _⟩
    simpa using ho
  | some o =>
    obtain rfl : o.name = x := by
      have hname := List.find?_some ho
      exact of_decide_eq_true hname
    rcases hextends.first _ o ho with ⟨old', hold', -, hm⟩ | ⟨-, m, hm, hplaced⟩
    · obtain rfl := Option.some.inj (hold.symm.trans hold')
      exact ⟨old, hm, ⟨rfl, rfl, rfl⟩, Hierarchy.isSubtype_refl _ _⟩
    · refine ⟨m, hm, hplaced.replaces old hold, ?_⟩
      rw [hold] at hplaced
      rw [hplaced.ty]
      exact isSubtype_of_placed hdistinct hresolve h hviol (List.mem_of_find?_eq_some ho)
        hplaced hold

section Accepted

variable (hdistinct : p.Distinct) (hresolve : p.resolve.errors = [])
  (hcheck : (p.check p.resolve).errors = [])

include hdistinct hresolve hcheck

theorem overrideViolations_eq_nil (h : Records p.decls c env) :
    c.overrideViolations p.resolve = [] := by
  have hviol := violations_eq_nil hcheck h.mem
  have hentry := mem_findings_of_records h (.inr rfl)
  have hcontains : p.resolve.decls.contains c.id = true :=
    Resolution.contains_decls (holdsAll hdistinct hresolve _ hentry)
  obtain ⟨id, name, superclass, fields, methods, pos⟩ := c
  rw [Decl.violations, if_pos hcontains, List.append_eq_nil_iff] at hviol
  exact hviol.1

theorem tiled_of_records (h : Records p.decls c env) : (env.draftOf c).layout.Tiled := by
  refine h.induction (motive := fun c env => (env.draftOf c).layout.Tiled)
    fun c env hrec hparent => ?_
  have hinherited : (env.inheritedLayout c).Tiled := by
    refine Records.inheritedLayout_of .empty fun record hrecord => ?_
    obtain ⟨c', env', -, -, rfl, htiled⟩ := hparent record hrecord
    exact htiled
  have hfree : ErrorFree (env.draftOf c).findings := fun e he =>
    errorFree_findings hresolve e (mem_findings_of_records hrec (.inl he))
  have hextends := env.draftOf_extends c
  rw [Env.draftOf, ClassDecl.draft_eq]
  change (ClassDraft.addAll { layout := env.inheritedLayout c } c.name c.ownMembers).layout.Tiled
  refine hinherited.addAll hrec.arranged_inherited (.start _) c.name fun o ho old hold hsort => ?_
  -- Names do not repeat, so the member is the first one of its name and stands in the place of the
  -- other.
  have hfind : c.ownMembers.find? (·.name = o.name) = some o := by
    rw [Env.draftOf, ClassDecl.draft_eq] at hfree
    have hnodup := (ClassDraft.nodup_addAll hfree).1
    cases ho' : c.ownMembers.find? (·.name = o.name) with
    | none => exact absurd ho (by simpa using List.find?_eq_none.mp ho' o)
    | some o' =>
      have hname := List.find?_some ho'
      exact congrArg some (List.inj_on_of_nodup_map hnodup (List.mem_of_find?_eq_some ho') ho
        (of_decide_eq_true hname))
  rcases hextends.first _ o hfind with ⟨old', hold', hne, -⟩ | ⟨-, m, -, hplaced⟩
  · obtain rfl := Option.some.inj (hold.symm.trans hold')
    exact absurd hsort hne
  · rw [hold] at hplaced
    have hviol := overrideViolations_eq_nil hdistinct hresolve hcheck hrec
    exact Hierarchy.cells_of_isSubtype
      (isSubtype_of_placed hdistinct hresolve hrec hviol ho hplaced hold)

/-- Along the superclasses, members are replaced in their places by narrower ones. -/
theorem exists_narrower_of_below {x a : String} (hbelow : p.resolve.hierarchy.Below x a)
    {record : ClassRecord} (hrecord : p.resolve.class? x = some record) :
    ∃ above, p.resolve.class? a = some above ∧
      ∀ (y : String) (old : Member), above.layout.members[y]? = some old →
      ∃ m, record.layout.members[y]? = some m ∧ m.Replaces old ∧
        p.resolve.hierarchy.isSubtype m.entry.ty old.entry.ty = true := by
  -- by induction from the ancestor down, since a class is compared with what its superclass has by
  -- then
  induction hbelow using Relation.ReflTransGen.head_induction_on generalizing record with
  | refl =>
    exact ⟨record, hrecord, fun y old hold =>
      ⟨old, hold, ⟨rfl, rfl, rfl⟩, Hierarchy.isSubtype_refl _ _⟩⟩
  | @head x s hs _ ih =>
    have hlink := (linked p x).symm.trans hs
    rw [show p.resolve.classes.records[x]? = some record from hrecord, Option.bind_some] at hlink
    obtain ⟨c, env, hrec, rfl, rfl⟩ := class?_eq_some_iff.mp hrecord
    obtain ⟨parent, hparent, rfl⟩ := Option.map_eq_some_iff.mp hlink
    obtain ⟨before, after, c', env', hds, hrec', -, rfl⟩ := hrec.parent hparent
    obtain ⟨above, habove, hmembers⟩ := ih (class?_of_records (hds ▸ hrec'.append _))
    refine ⟨above, habove, fun y old hold => ?_⟩
    obtain ⟨m, hm, hreplaces, hsub⟩ := hmembers y old hold
    have hm' : (env.inheritedLayout c).members[y]? = some m := by
      rw [Env.inheritedLayout, hparent]
      exact hm
    have hviol := overrideViolations_eq_nil hdistinct hresolve hcheck hrec
    obtain ⟨m', hm'', hreplaces', hsub'⟩ := exists_narrower hdistinct hresolve hrec hviol hm'
    exact ⟨m', hm'',
      ⟨hreplaces'.isMethod.trans hreplaces.isMethod, hreplaces'.offset.trans hreplaces.offset,
        hreplaces'.position.trans hreplaces.position⟩, Hierarchy.isSubtype_trans hsub' hsub⟩

end Accepted

/-! ### Substitutability -/

/-- What a class above another one has under a name, the other one has at the same place and at a
subtype of the same size. -/
theorem members_substitutable (hdistinct : p.Distinct) (hresolve : p.resolve.errors = [])
    (hcheck : (p.check p.resolve).errors = []) {x a : String} {record : ClassRecord}
    (hrecord : p.resolve.class? x = some record) (hbelow : p.resolve.hierarchy.Below x a) :
    ∃ above, p.resolve.class? a = some above ∧
      ∀ (y : String) (old : Member), above.layout.members[y]? = some old →
      ∃ m, record.layout.members[y]? = some m ∧ m.isMethod = old.isMethod ∧
        m.entry.offset = old.entry.offset ∧
        m.position = old.position ∧ p.resolve.hierarchy.isSubtype m.entry.ty old.entry.ty = true ∧
        m.entry.ty.cells = old.entry.ty.cells := by
  obtain ⟨above, habove, hmembers⟩ :=
    exists_narrower_of_below hdistinct hresolve hcheck hbelow hrecord
  refine ⟨above, habove, fun y old hold => ?_⟩
  obtain ⟨m, hm, hreplaces, hsub⟩ := hmembers y old hold
  exact ⟨m, hm, hreplaces.isMethod, hreplaces.offset, hreplaces.position, hsub,
    Hierarchy.cells_of_isSubtype hsub⟩

/-- Squares narrow a field and a method of shapes, and tiles inherit from both. -/
def shapes : Program where
  decls := [
    .cls {
      id := 0
      name := "Shape"
      superclass := none
      fields := [⟨1, "size", .int, default⟩, ⟨2, "scale", .arrow [.int] .int, default⟩,
        ⟨3, "next", .ref "Shape", default⟩]
      methods := [
        { id := 4, name := "area", params := [], result := .int, decls := [],
          body := .name 5 "size" default, pos := default },
        { id := 6, name := "twin", params := [⟨7, "other", .ref "Square", default⟩],
          result := .ref "Shape", decls := [], body := .name 8 "other" default, pos := default }]
      pos := default },
    .cls {
      id := 9
      name := "Square"
      superclass := some "Shape"
      fields := [⟨10, "next", .ref "Square", default⟩]
      methods := [
        { id := 11, name := "twin", params := [⟨12, "other", .ref "Shape", default⟩],
          result := .ref "Square", decls := [], body := .name 13 "next" default, pos := default }]
      pos := default },
    .cls {
      id := 14
      name := "Tile"
      superclass := some "Square"
      fields := [⟨15, "mark", .bool, default⟩]
      methods := []
      pos := default }]
  body := .int 0 default
  pos := default

theorem members_substitutable_shapes :
    shapes.Distinct ∧ shapes.resolve.errors = [] ∧ (shapes.check shapes.resolve).errors = [] ∧
      shapes.resolve.hierarchy.Below "Tile" "Shape" ∧
      ∃ record above old m, shapes.resolve.class? "Tile" = some record ∧
        shapes.resolve.class? "Shape" = some above ∧
        above.layout.members["next"]? = some old ∧ old.entry.ty = .ref "Shape" ∧
        record.layout.members["next"]? = some m ∧ m.isMethod = old.isMethod ∧
        m.entry.offset = old.entry.offset ∧
        m.position = old.position ∧
        shapes.resolve.hierarchy.isSubtype m.entry.ty old.entry.ty = true ∧
        m.entry.ty.cells = old.entry.ty.cells := by
  have hdistinct : shapes.Distinct := by decide +kernel
  have hresolve : shapes.resolve.errors = [] := by decide +kernel
  have hcheck : (shapes.check shapes.resolve).errors = [] := by decide +kernel
  have hbelow : shapes.resolve.hierarchy.Below "Tile" "Shape" :=
    Hierarchy.isSubclass_iff.mp (by decide +kernel)
  have hsome : (shapes.resolve.class? "Tile").isSome = true := by decide +kernel
  have hnext : ((shapes.resolve.class? "Shape").bind (·.layout.members["next"]?)).map (·.entry.ty) =
      some (.ref "Shape") := by
    decide +kernel
  obtain ⟨record, hrecord⟩ := Option.isSome_iff_exists.mp hsome
  obtain ⟨above, habove, hmembers⟩ := members_substitutable hdistinct hresolve hcheck hrecord hbelow
  rw [habove] at hnext
  obtain ⟨old, hold, hty⟩ := Option.map_eq_some_iff.mp hnext
  obtain ⟨m, hm, hsame⟩ := hmembers "next" old hold
  exact ⟨hdistinct, hresolve, hcheck, hbelow, record, above, old, m, hrecord, habove, hold, hty, hm,
    hsame⟩

/-! ### Layouts -/

/-- The layout of a class on record, in whatever program. Members are arranged by their positions,
and those of the superclass are kept, or overridden in their places. In a program that is accepted,
the fields tile an object. -/
theorem layouts_arranged {x : String} {record : ClassRecord}
    (hrecord : p.resolve.class? x = some record) :
    record.layout.Arranged ∧ record.entry.ty = .cls record.layout.classTy ∧
    (∃ c, p.decls.find? (·.name = x) = some (.cls c) ∧ ∀ s, record.superclass = some s →
      c.superclass = some s ∧ ∃ parent, p.resolve.class? s = some parent ∧
        ∀ (y : String) (old : Member), parent.layout.members[y]? = some old →
          ((∀ own ∈ c.ownMembers, own.name ≠ y) → record.layout.members[y]? = some old) ∧
          ∃ m, record.layout.members[y]? = some m ∧ m.Replaces old) ∧
    (p.Distinct → p.resolve.errors = [] → (p.check p.resolve).errors = [] →
      record.layout.fieldCells = record.layout.classTy.cells ∧
      ∃ order, record.layout.Orders order ∧
        Tiles (order.flatMap (·.entry.cells)) (-1) record.layout.fieldCells) := by
  obtain ⟨c, env, hrec, rfl, rfl⟩ := class?_eq_some_iff.mp hrecord
  have hextends := env.draftOf_extends c
  refine ⟨hrec.arranged, rfl, ⟨c, hrec.find?, fun s hs => ?_⟩, fun hdistinct hresolve hcheck => ?_⟩
  · obtain ⟨parent, hparent, rfl⟩ := Option.map_eq_some_iff.mp hs
    obtain ⟨before, after, c', env', hds, hrec', hsuper, rfl⟩ := hrec.parent hparent
    have hinherited : env.inheritedLayout c = (env'.draftOf c').layout := by
      rw [Env.inheritedLayout, hparent]
      rfl
    rw [hinherited] at hextends
    refine ⟨hsuper, _, class?_of_records (hds ▸ hrec'.append _), fun y old hold => ?_⟩
    exact ⟨fun hown => (hextends.kept y hown).trans hold, hextends.exists_replaces hold⟩
  · have htiled := tiled_of_records hdistinct hresolve hcheck hrec
    obtain ⟨order, horder⟩ := hrec.arranged.exists_order
    exact ⟨htiled.cells, order, horder, htiled.tiles hrec.arranged horder⟩

theorem layouts_arranged_shapes :
    ∃ record, shapes.resolve.class? "Tile" = some record ∧ record.layout.Arranged ∧
      record.layout.fieldCells = 5 ∧
      ∃ order, record.layout.Orders order ∧
        order.flatMap (·.entry.cells) = [-1, -2, -3, -4, -5] := by
  have hcells : (shapes.resolve.class? "Tile").map (·.layout.fieldCells) =
      some 5 := by decide +kernel
  obtain ⟨record, hrecord, hfive⟩ := Option.map_eq_some_iff.mp hcells
  obtain ⟨harranged, -, -, htiled⟩ := layouts_arranged hrecord
  obtain ⟨-, order, horder, htiles⟩ :=
    htiled (by decide +kernel) (by decide +kernel) (by decide +kernel)
  refine ⟨record, hrecord, harranged, hfive, order, horder, ?_⟩
  rw [htiles.eq_downFrom, hfive]
  decide

end Program

end Stackling
