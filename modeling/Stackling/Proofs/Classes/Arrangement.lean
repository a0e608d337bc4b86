import Stackling.Proofs.Cells
import Stackling.Proofs.Typing.Rules

/-!
# Arranged layouts

A layout says four times where its members are: in the table of names, in the list of types, by
positions and by offsets. `Arranged` says that the first three agree, whatever was rejected on the
way, and `Tiled` that the offsets of the fields do too. The latter needs overriding fields of the
size of those they override.
-/

namespace Stackling

namespace ObjectLayout

variable {l : ObjectLayout} {x y : String} {ty : Ty} {old m : Member}

/-- The types of the fields, or else of the methods, in the order of their positions. -/
def types (l : ObjectLayout) : (methods : Bool) → List Ty
  | false => l.classTy.fields
  | true => l.classTy.methods.map Ty.method

/-! ### The place of a member -/

theorem getElem?_members_place (l : ObjectLayout) (x : String) (ty : Ty) (y : String) :
    (l.place x ty).2.members[y]? = if y = x then some (l.place x ty).1 else l.members[y]? := by
  have hmembers : (l.place x ty).2.members = l.members.insert x (l.place x ty).1 := by
    unfold place
    split
    · rfl
    · split <;> rfl
  rw [hmembers, Std.TreeMap.getElem?_insert]
  by_cases hyx : y = x
  · subst hyx
    rw [if_pos Std.ReflCmp.compare_self, if_pos rfl]
  · rw [if_neg (fun h => hyx (Std.compare_eq_iff_eq.mp h).symm), if_neg hyx]

theorem ty_place (l : ObjectLayout) (x : String) (ty : Ty) : (l.place x ty).1.entry.ty = ty := by
  unfold place
  split
  · rfl
  · split <;> rfl

theorem isMethod_place (l : ObjectLayout) (x : String) (ty : Ty) :
    (l.place x ty).1.isMethod = ty.isMethod :=
  congrArg Ty.isMethod (l.ty_place x ty)

theorem depth_place (l : ObjectLayout) (x : String) (ty : Ty) :
    (l.place x ty).1.entry.depth = memberDepth := by
  unfold place
  split
  · rfl
  · split <;> rfl

/-- A member that overrides another one takes over its offset and position, and its type replaces
the other one's. -/
theorem place_of_some (hold : l.members[x]? = some old) (ty : Ty) :
    (l.place x ty).1.entry.offset = old.entry.offset ∧ (l.place x ty).1.position = old.position ∧
      (l.place x ty).2.fieldCells = l.fieldCells ∧
      ∀ b, (l.place x ty).2.types b =
        if b = ty.isMethod then (l.types b).set old.position ty else l.types b := by
  unfold place
  rw [hold]
  refine ⟨rfl, rfl, rfl, fun b => ?_⟩
  cases ty <;> cases b <;> simp [override, types, Ty.isMethod, List.map_set]

/-- A new member takes the first free position, and a field also the first free cell. -/
theorem place_of_none (hnone : l.members[x]? = none) (ty : Ty) :
    (l.place x ty).1.position = (l.types ty.isMethod).length ∧
      (l.place x ty).1.entry.offset =
        (if ty.isMethod then Int32.ofNat (l.types true).length
          else -(Int32.ofNat l.fieldCells) - 1) ∧
      (l.place x ty).2.fieldCells =
        (if ty.isMethod then l.fieldCells else l.fieldCells + ty.cells) ∧
      ∀ b, (l.place x ty).2.types b = if b = ty.isMethod then l.types b ++ [ty] else l.types b := by
  unfold place
  rw [hnone]
  cases ty with
  | method sig =>
    refine ⟨by simp [addMethod, types, Ty.isMethod], by simp [addMethod, types, Ty.isMethod], rfl,
      fun b => ?_⟩
    cases b <;> simp [addMethod, types, Ty.isMethod]
  | int | bool | null | ref | arrow | cls =>
    refine ⟨rfl, rfl, rfl, fun b => ?_⟩
    cases b <;> simp [addField, types, Ty.isMethod]

/-! ### Positions -/

/-- The members of each sort have the positions of the types of that sort, each position belongs to
one name, and the type there is that of the member. The place of a method in a dispatch table is its
position. -/
structure Arranged (l : ObjectLayout) : Prop where
  ty_at : ∀ {x : String} {m : Member}, l.members[x]? = some m →
    (l.types m.isMethod)[m.position]? = some m.entry.ty
  exists_at : ∀ methods i, i < (l.types methods).length →
    ∃ (x : String) (m : Member), l.members[x]? = some m ∧ m.isMethod = methods ∧ m.position = i
  unique : ∀ {x y : String} {m m' : Member}, l.members[x]? = some m → l.members[y]? = some m' →
    m.isMethod = m'.isMethod → m.position = m'.position → x = y
  offset : ∀ {x : String} {m : Member}, l.members[x]? = some m → m.isMethod = true →
    m.entry.offset = Int32.ofNat m.position
  depth : ∀ {x : String} {m : Member}, l.members[x]? = some m → m.entry.depth = memberDepth

namespace Arranged

theorem empty : Arranged {} where
  ty_at := by simp
  exists_at := by
    rintro (_ | _) i hi
    · exact absurd hi (Nat.not_lt_zero i)
    · exact absurd hi (Nat.not_lt_zero i)
  unique := by simp
  offset := by simp
  depth := by simp

theorem position_lt (h : l.Arranged) (hm : l.members[x]? = some m) :
    m.position < (l.types m.isMethod).length :=
  (List.getElem?_eq_some_iff.mp (h.ty_at hm)).1

/-- What a placement says about a member: it is the new one, or it was there under another name. -/
theorem cases_place (hm : (l.place x ty).2.members[y]? = some m) :
    y = x ∧ m = (l.place x ty).1 ∨ y ≠ x ∧ l.members[y]? = some m := by
  rw [getElem?_members_place] at hm
  split at hm
  next hyx => exact .inl ⟨hyx, (Option.some.inj hm).symm⟩
  next hyx => exact .inr ⟨hyx, hm⟩

theorem depth_place_member (h : l.Arranged) {m : Member}
    (hm : (l.place x ty).2.members[y]? = some m) :
    m.entry.depth = memberDepth := by
  rcases cases_place hm with ⟨rfl, rfl⟩ | ⟨-, hm⟩
  · exact l.depth_place _ ty
  · exact h.depth hm

theorem place_override (h : l.Arranged) (hold : l.members[x]? = some old)
    (hkind : old.isMethod = ty.isMethod) :
    (l.place x ty).2.Arranged := by
  obtain ⟨hoffset, hposition, -, htypes⟩ := place_of_some hold ty
  have hnew := l.isMethod_place x ty
  have hmember := l.getElem?_members_place x ty
  have hlt := h.position_lt hold
  -- The member before the placement that has the position of a given one, and its name.
  have hback : ∀ {y : String} {m : Member}, (l.place x ty).2.members[y]? = some m →
      ∃ m', l.members[y]? = some m' ∧ m'.isMethod = m.isMethod ∧ m'.position = m.position := by
    intro y m hm
    rcases cases_place hm with ⟨rfl, rfl⟩ | ⟨-, hm⟩
    · exact ⟨old, hold, hkind.trans hnew.symm, hposition.symm⟩
    · exact ⟨m, hm, rfl, rfl⟩
  constructor
  case ty_at =>
    intro y m hm
    rw [htypes]
    rcases cases_place hm with ⟨rfl, rfl⟩ | ⟨hyx, hm⟩
    · rw [if_pos hnew, hposition, hnew, ← hkind, List.getElem?_set_self hlt, l.ty_place]
    · split
      next hsort =>
        rw [List.getElem?_set_ne]
        · exact h.ty_at hm
        · exact fun hpos => hyx (h.unique hold hm (hkind.trans hsort.symm) hpos).symm
      next => exact h.ty_at hm
  case exists_at =>
    intro b i hi
    have hi' : i < (l.types b).length := by
      rw [htypes] at hi
      split at hi
      · rwa [List.length_set] at hi
      · exact hi
    obtain ⟨y, m, hm, hsort, hpos⟩ := h.exists_at b i hi'
    by_cases hyx : y = x
    · subst hyx
      obtain rfl := Option.some.inj (hold.symm.trans hm)
      exact ⟨y, _, by rw [hmember, if_pos rfl], hnew.trans (hkind.symm.trans hsort),
        hposition.trans hpos⟩
    · exact ⟨y, m, by rw [hmember, if_neg hyx, hm], hsort, hpos⟩
  case unique =>
    intro y z m m' hm hm' hsort hpos
    obtain ⟨n, hn, hnsort, hnpos⟩ := hback hm
    obtain ⟨n', hn', hnsort', hnpos'⟩ := hback hm'
    exact h.unique hn hn' (by rw [hnsort, hnsort', hsort]) (by rw [hnpos, hnpos', hpos])
  case offset =>
    intro y m hm hsort
    rcases cases_place hm with ⟨rfl, rfl⟩ | ⟨-, hm⟩
    · rw [hoffset, hposition]
      exact h.offset hold (hkind.trans (hnew.symm.trans hsort))
    · exact h.offset hm hsort
  case depth => exact h.depth_place_member

theorem place_new (h : l.Arranged) (hnone : l.members[x]? = none) : (l.place x ty).2.Arranged := by
  obtain ⟨hposition, hoffset, -, htypes⟩ := place_of_none hnone ty
  have hnew := l.isMethod_place x ty
  have hmember := l.getElem?_members_place x ty
  -- The new position is beyond all the others.
  have hfresh : ∀ {y : String} {m : Member}, l.members[y]? = some m → m.isMethod = ty.isMethod →
      m.position ≠ (l.place x ty).1.position := by
    intro y m hm hsort
    have hlt := h.position_lt hm
    rw [hsort] at hlt
    rw [hposition]
    exact Nat.ne_of_lt hlt
  constructor
  case ty_at =>
    intro y m hm
    rw [htypes]
    rcases cases_place hm with ⟨rfl, rfl⟩ | ⟨-, hm⟩
    · rw [if_pos hnew, hposition, hnew, List.getElem?_concat_length, l.ty_place]
    · split
      · rw [List.getElem?_append_left (h.position_lt hm)]
        exact h.ty_at hm
      · exact h.ty_at hm
  case exists_at =>
    intro b i hi
    by_cases hi' : i < (l.types b).length
    · obtain ⟨y, m, hm, hsort, hpos⟩ := h.exists_at b i hi'
      have hyx : y ≠ x := by
        rintro rfl
        cases hnone.symm.trans hm
      exact ⟨y, m, by rw [hmember, if_neg hyx, hm], hsort, hpos⟩
    · rw [htypes] at hi
      split at hi
      next hb =>
        subst hb
        rw [List.length_append, List.length_singleton] at hi
        exact ⟨x, _, by rw [hmember, if_pos rfl], hnew, hposition.trans (by omega)⟩
      next => exact absurd hi hi'
  case unique =>
    intro y z m m' hm hm' hsort hpos
    rcases cases_place hm with ⟨rfl, rfl⟩ | ⟨-, hm⟩
    · rcases cases_place hm' with ⟨rfl, -⟩ | ⟨-, hm'⟩
      · rfl
      · exact absurd hpos.symm (hfresh hm' (hsort.symm.trans hnew))
    · rcases cases_place hm' with ⟨-, rfl⟩ | ⟨-, hm'⟩
      · exact absurd hpos (hfresh hm (hsort.trans hnew))
      · exact h.unique hm hm' hsort hpos
  case offset =>
    intro y m hm hsort
    rcases cases_place hm with ⟨rfl, rfl⟩ | ⟨-, hm⟩
    · rw [hnew] at hsort
      rw [hoffset, hposition, hsort, if_pos rfl]
    · exact h.offset hm hsort
  case depth => exact h.depth_place_member

/-- A member of the sort of the one it overrides, if there is one, takes its place. -/
theorem place (h : l.Arranged)
    (hkind : ∀ old, l.members[x]? = some old → old.isMethod = ty.isMethod) :
    (l.place x ty).2.Arranged := by
  cases hold : l.members[x]? with
  | none => exact h.place_new hold
  | some old => exact h.place_override hold (hkind old hold)

theorem addAll {d : ClassDraft} (h : d.layout.Arranged) (cls : String) (ms : List OwnMember) :
    (d.addAll cls ms).layout.Arranged := by
  induction ms generalizing d with
  | nil => exact h
  | cons m ms ih =>
    refine ih (d := d.addOwn cls m) ?_
    rcases d.addOwn_cases cls m with ⟨e, -, -, heq⟩ | ⟨-, hkind, heq⟩
    · rw [heq]
      exact h
    · rw [heq]
      exact h.place hkind

end Arranged

end ObjectLayout

/-! ### What a class makes of what it inherits -/

/-- A member stands where another one stood. -/
structure Member.Replaces (new old : Member) : Prop where
  isMethod : new.isMethod = old.isMethod
  offset : new.entry.offset = old.entry.offset
  position : new.position = old.position

/-- A member of its own is in the table of a class, in the place of an inherited one of the name. -/
structure OwnMember.Placed (own : OwnMember) (inherited : Option Member) (found : List Finding)
    (m : Member) : Prop where
  ty : m.entry.ty = own.ty
  depth : m.entry.depth = ObjectLayout.memberDepth
  decl : .decl own.id m.entry ∈ found
  position : .position own.id m.position ∈ found
  replaces : ∀ old, inherited = some old → m.Replaces old

theorem OwnMember.Placed.append {own : OwnMember} {inherited : Option Member} {found : List Finding}
    {m : Member} (h : own.Placed inherited found m) (more : List Finding) :
    own.Placed inherited (found ++ more) m :=
  { h with
    decl := List.mem_append_left more h.decl
    position := List.mem_append_left more h.position }

/-- The table of a class has the inherited members, but for a name that the class declares itself
the first member that it declares, unless that is of the other sort. -/
structure ClassDraft.Extends (inherited : ObjectLayout) (own : List OwnMember) (d : ClassDraft) :
    Prop where
  seen : ∀ x, x ∈ d.seen ↔ ∃ o ∈ own, o.name = x
  kept : ∀ x, (∀ o ∈ own, o.name ≠ x) → d.layout.members[x]? = inherited.members[x]?
  first : ∀ x o, own.find? (·.name = x) = some o →
    (∃ old, inherited.members[x]? = some old ∧ old.isMethod ≠ o.ty.isMethod ∧
      d.layout.members[x]? = some old) ∨
    (∀ old, inherited.members[x]? = some old → old.isMethod = o.ty.isMethod) ∧
      ∃ m, d.layout.members[x]? = some m ∧ o.Placed inherited.members[x]? d.findings m

namespace ClassDraft.Extends

variable {inherited : ObjectLayout} {own : List OwnMember} {d : ClassDraft} {m : OwnMember}

theorem start (inherited : ObjectLayout) : Extends inherited [] { layout := inherited } where
  seen := by simp
  kept _ _ := rfl
  first := nofun

/-- A name that the class has declared keeps its first member, and a name that it declares next is
not among the others. -/
theorem find?_append_singleton {x : String} {o : OwnMember}
    (h : (own ++ [m]).find? (·.name = x) = some o) :
    own.find? (·.name = x) = some o ∨ (∀ o ∈ own, o.name ≠ x) ∧ m.name = x ∧ m = o := by
  rw [List.find?_append, Option.or_eq_some_iff] at h
  rcases h with h | ⟨hnone, h⟩
  · exact .inl h
  · have hm := List.find?_some h
    have hmem := List.mem_singleton.mp (List.mem_of_find?_eq_some h)
    subst hmem
    refine .inr ⟨?_, of_decide_eq_true hm, rfl⟩
    simpa using hnone

theorem addOwn (h : d.Extends inherited own) (cls : String) (m : OwnMember) :
    (d.addOwn cls m).Extends inherited (own ++ [m]) := by
  have hseen : ∀ x, x ∈ m.name :: d.seen ↔ ∃ o ∈ own ++ [m], o.name = x := by
    intro x
    rw [List.mem_cons, h.seen]
    simp only [List.mem_append, List.mem_singleton, or_and_right, exists_or, exists_eq_left]
    rw [or_comm, eq_comm]
  have hold : ∀ x, (∀ o ∈ own ++ [m], o.name ≠ x) → (∀ o ∈ own, o.name ≠ x) ∧ x ≠ m.name := by
    intro x hx
    rw [List.forall_mem_append, List.forall_mem_singleton] at hx
    exact ⟨hx.1, hx.2.symm⟩
  rcases d.addOwn_cases cls m with ⟨e, hwhy, -, heq⟩ | ⟨hnew, hkind, heq⟩
  · rw [heq]
    refine ⟨hseen, fun x hx => h.kept x (hold x hx).1, fun x o ho => ?_⟩
    rcases find?_append_singleton ho with ho | ⟨hfirst, rfl, rfl⟩
    · refine (h.first x o ho).imp_right fun hplaced => ⟨hplaced.1, ?_⟩
      obtain ⟨-, m', hm', hplaced⟩ := hplaced
      exact ⟨m', hm', hplaced.append _⟩
    · -- The name is new, so the member was rejected for its sort.
      have hnotSeen : m.name ∉ d.seen := by
        rw [h.seen]
        rintro ⟨o, ho, hname⟩
        exact hfirst o ho hname
      obtain ⟨old, hmember, hsort⟩ := hwhy.resolve_left hnotSeen
      exact .inl ⟨old, (h.kept m.name hfirst).symm.trans hmember, hsort, hmember⟩
  · have hmember := d.layout.getElem?_members_place m.name m.ty
    have hother : ∀ x, x ≠ m.name →
        (d.layout.place m.name m.ty).2.members[x]? = d.layout.members[x]? := by
      intro x hx
      rw [hmember, if_neg hx]
    rw [heq]
    refine ⟨hseen, fun x hx => ?_, fun x o ho => ?_⟩
    · exact (hother x (hold x hx).2).trans (h.kept x (hold x hx).1)
    · rcases find?_append_singleton ho with ho | ⟨hfirst, rfl, rfl⟩
      · have hne : x ≠ m.name := by
          rintro rfl
          have hname := List.find?_some ho
          exact hnew ((h.seen _).mpr ⟨o, List.mem_of_find?_eq_some ho, of_decide_eq_true hname⟩)
        dsimp only
        rw [hother x hne]
        refine (h.first x o ho).imp_right fun hplaced => ⟨hplaced.1, ?_⟩
        obtain ⟨-, m', hm', hplaced⟩ := hplaced
        exact ⟨m', hm', hplaced.append _⟩
      · have hkept := h.kept m.name hfirst
        refine .inr ⟨fun old hold => hkind old (hkept.trans hold), _,
          (hmember _).trans (if_pos rfl), ?_⟩
        refine ⟨d.layout.ty_place _ _, d.layout.depth_place _ _, by simp, by simp,
          fun old hold => ?_⟩
        have hold' : d.layout.members[m.name]? = some old := hkept.trans hold
        obtain ⟨hoffset, hposition, -⟩ := ObjectLayout.place_of_some hold' m.ty
        exact ⟨(d.layout.isMethod_place _ _).trans (hkind old hold').symm, hoffset, hposition⟩

theorem addAll (h : d.Extends inherited own) (cls : String) (ms : List OwnMember) :
    (d.addAll cls ms).Extends inherited (own ++ ms) := by
  induction ms generalizing d own with
  | nil => rwa [List.append_nil]
  | cons m ms ih =>
    have hrest := ih (h.addOwn cls m)
    rwa [List.append_assoc] at hrest

/-- A member that was inherited is there, or another one in its place. -/
theorem exists_replaces (h : d.Extends inherited own) {x : String} {old : Member}
    (hold : inherited.members[x]? = some old) :
    ∃ m, d.layout.members[x]? = some m ∧ m.Replaces old := by
  cases ho : own.find? (·.name = x) with
  | none =>
    refine ⟨old, (h.kept x ?_).trans hold, rfl, rfl, rfl⟩
    simpa using ho
  | some o =>
    rcases h.first x o ho with ⟨old', hold', -, hm⟩ | ⟨-, m, hm, hplaced⟩
    · obtain rfl := Option.some.inj (hold.symm.trans hold')
      exact ⟨old, hm, rfl, rfl, rfl⟩
    · exact ⟨m, hm, hplaced.replaces old hold⟩

end ClassDraft.Extends

theorem Env.draftOf_extends (env : Env) (c : ClassDecl) :
    (env.draftOf c).Extends (env.inheritedLayout c) c.ownMembers := by
  have h := (ClassDraft.Extends.start (env.inheritedLayout c)).addAll c.name c.ownMembers
  rw [List.nil_append, ← ClassDecl.draft_eq] at h
  exact h

namespace ObjectLayout

variable {l : ObjectLayout} {x y : String} {ty : Ty} {old m : Member}

/-! ### Cells -/

/-- The fields lie one below the other from offset -1 on, in the order of their positions, and take
all the cells that the layout counts. -/
structure Tiled (l : ObjectLayout) : Prop where
  cells : l.fieldCells = l.classTy.cells
  offset : ∀ {x : String} {m : Member}, l.members[x]? = some m → m.isMethod = false →
    m.entry.offset = Int32.ofInt (-1 - totalCells Ty.cells (l.classTy.fields.take m.position))

namespace Tiled

theorem empty : Tiled {} where
  cells := rfl
  offset := by simp

theorem place_override (h : l.Tiled) (harranged : l.Arranged) (hold : l.members[x]? = some old)
    (hkind : old.isMethod = ty.isMethod) (hcells : ty.cells = old.entry.ty.cells) :
    (l.place x ty).2.Tiled := by
  obtain ⟨hoffset, hposition, hfieldCells, htypes⟩ := place_of_some hold ty
  have hold' := harranged.ty_at hold
  -- The sums over the first fields are as before, since the cells are.
  have hsum : ∀ n, totalCells Ty.cells ((l.place x ty).2.classTy.fields.take n) =
      totalCells Ty.cells (l.classTy.fields.take n) := by
    intro n
    have hfields := htypes false
    rw [show (l.place x ty).2.types false = (l.place x ty).2.classTy.fields from rfl] at hfields
    rw [hfields]
    split
    next hsort =>
      rw [hkind, ← hsort] at hold'
      rw [List.take_set]
      by_cases hn : old.position < n
      · exact totalCells_set Ty.cells ((List.getElem?_take_of_lt hn).trans hold') hcells
      · rw [List.set_eq_of_length_le]
        · rfl
        · exact Nat.le_trans (List.length_take_le _ _) (Nat.not_lt.mp hn)
    next => rfl
  constructor
  · have hall := hsum ((l.place x ty).2.classTy.fields.length + l.classTy.fields.length)
    rw [List.take_of_length_le (Nat.le_add_right _ _), List.take_of_length_le (Nat.le_add_left _ _)]
      at hall
    rw [hfieldCells, h.cells]
    exact hall.symm
  · intro y m hm hsort
    rw [hsum]
    rcases Arranged.cases_place hm with ⟨rfl, rfl⟩ | ⟨-, hm⟩
    · rw [hoffset, hposition]
      exact h.offset hold (hkind.trans ((l.isMethod_place y ty).symm.trans hsort))
    · exact h.offset hm hsort

theorem place_new (h : l.Tiled) (harranged : l.Arranged) (hnone : l.members[x]? = none) :
    (l.place x ty).2.Tiled := by
  obtain ⟨hposition, hoffset, hfieldCells, htypes⟩ := place_of_none hnone ty
  have hfields : (l.place x ty).2.classTy.fields =
      if false = ty.isMethod then l.classTy.fields ++ [ty] else l.classTy.fields := htypes false
  have hnew := l.isMethod_place x ty
  cases hty : ty.isMethod with
  | true =>
    rw [hty] at hfields hfieldCells hnew
    refine ⟨?_, fun {y m} hm hsort => ?_⟩
    · rw [ClassTy.cells, hfields, hfieldCells]
      exact h.cells
    · rw [hfields]
      rcases Arranged.cases_place hm with ⟨rfl, rfl⟩ | ⟨-, hm⟩
      · cases hnew.symm.trans hsort
      · exact h.offset hm hsort
  | false =>
    rw [hty] at hposition hoffset hfields hfieldCells
    refine ⟨?_, fun {y m} hm hsort => ?_⟩
    · rw [ClassTy.cells, hfields, hfieldCells, if_pos rfl, totalCells_append, totalCells_cons,
        totalCells_nil, h.cells]
      rfl
    · rw [hfields, if_pos rfl]
      rcases Arranged.cases_place hm with ⟨rfl, rfl⟩ | ⟨-, hm⟩
      · rw [hoffset, hposition, show l.types false = l.classTy.fields from rfl, List.take_left,
          h.cells]
        rw [if_neg Bool.false_ne_true, Int32.ofInt_sub, Int32.ofInt_eq_ofNat, ClassTy.cells]
        rw [show Int32.ofInt (-1) = -1 from rfl, Int32.sub_eq_add_neg, Int32.sub_eq_add_neg,
          Int32.add_comm]
      · have hlt : m.position < l.classTy.fields.length := by
          have hlt := harranged.position_lt hm
          rwa [hsort] at hlt
        rw [List.take_append_of_le_length (Nat.le_of_lt hlt)]
        exact h.offset hm hsort

/-- Members whose types have the cells of those that they override keep the fields side by side. -/
theorem addAll {inherited : ObjectLayout} {own ms : List OwnMember} {d : ClassDraft}
    (h : d.layout.Tiled) (harranged : d.layout.Arranged) (hextends : d.Extends inherited own)
    (cls : String) (hcells : ∀ m ∈ ms, ∀ old, inherited.members[m.name]? = some old →
      old.isMethod = m.ty.isMethod →
      m.ty.cells = old.entry.ty.cells) : (d.addAll cls ms).layout.Tiled := by
  induction ms generalizing d own with
  | nil => exact h
  | cons m ms ih =>
    rw [List.forall_mem_cons] at hcells
    refine ih (d := d.addOwn cls m) ?_ (harranged.addAll cls [m]) (hextends.addOwn cls m) hcells.2
    rcases d.addOwn_cases cls m with ⟨e, -, -, heq⟩ | ⟨hnew, hkind, heq⟩
    · rw [heq]
      exact h
    · rw [heq]
      cases hold : d.layout.members[m.name]? with
      | none => exact h.place_new harranged hold
      | some old =>
        have hinherited : inherited.members[m.name]? = some old := by
          rw [← hextends.kept m.name, hold]
          intro o ho hname
          exact hnew ((hextends.seen _).mpr ⟨o, ho, hname⟩)
        exact h.place_override harranged hold (hkind old hold)
          (hcells.1 old hinherited (hkind old hold))

end Tiled

/-- The fields in the order of their positions. -/
def Orders (l : ObjectLayout) (order : List Member) : Prop :=
  ∀ (i : Nat) (m : Member), order[i]? = some m ↔
    ∃ x : String, l.members[x]? = some m ∧ m.isMethod = false ∧ m.position = i

theorem Arranged.exists_order (h : l.Arranged) : ∃ order : List Member, l.Orders order := by
  choose name member hmember hsort hposition using fun i : Fin (l.types false).length =>
    h.exists_at false i i.isLt
  refine ⟨List.ofFn member, fun i m => ?_⟩
  rw [List.getElem?_ofFn]
  constructor
  · intro hm
    split at hm
    next hi =>
      cases hm
      exact ⟨name ⟨i, hi⟩, hmember _, hsort _, hposition _⟩
    next => cases hm
  · rintro ⟨x, hm, hfield, rfl⟩
    have hlt := h.position_lt hm
    rw [hfield] at hlt
    rw [dif_pos hlt]
    obtain rfl :=
      h.unique hm (hmember ⟨_, hlt⟩) (hfield.trans (hsort _).symm) (hposition ⟨_, hlt⟩).symm
    exact (hmember ⟨_, hlt⟩).symm.trans hm

theorem Arranged.types_order (h : l.Arranged) {order : List Member} (horder : l.Orders order) :
    order.map (·.entry.ty) = l.classTy.fields := by
  refine List.ext_getElem? fun i => Option.ext fun t => ?_
  rw [List.getElem?_map, Option.map_eq_some_iff]
  constructor
  · rintro ⟨m, hm, rfl⟩
    obtain ⟨x, hx, hfield, rfl⟩ := (horder i m).mp hm
    have hty := h.ty_at hx
    rwa [hfield] at hty
  · intro ht
    obtain ⟨x, m, hx, hfield, rfl⟩ := h.exists_at false i (List.getElem?_eq_some_iff.mp ht).1
    have hty := h.ty_at hx
    rw [hfield] at hty
    exact ⟨m, (horder _ m).mpr ⟨x, hx, hfield, rfl⟩, Option.some.inj (hty.symm.trans ht)⟩

/-- The cells of the fields are those from offset -1 downwards. -/
theorem Tiled.tiles (h : l.Tiled) (harranged : l.Arranged) {order : List Member}
    (horder : l.Orders order) :
    Tiles (order.flatMap (·.entry.cells)) (-1) l.fieldCells := by
  have htypes := harranged.types_order horder
  have hoffset : ∀ (j : Nat) (e : Entry), (order.map (·.entry))[j]? = some e →
      e.offset = Int32.ofInt
      (-1 - totalCells (fun e : Entry => e.ty.cells) ((order.map (·.entry)).take j)) := by
    intro j e hj
    rw [List.getElem?_map, Option.map_eq_some_iff] at hj
    obtain ⟨m, hm, rfl⟩ := hj
    obtain ⟨x, hx, hfield, rfl⟩ := (horder j m).mp hm
    rw [h.offset hx hfield, ← htypes, ← List.map_take, ← List.map_take, totalCells_map,
      totalCells_map]
  have hcells := flatMap_cells_eq_downFrom hoffset
  refine .of_eq ?_
  rw [List.flatMap_map] at hcells
  rw [hcells, h.cells, ClassTy.cells, ← htypes, totalCells_map, totalCells_map]

end ObjectLayout

end Stackling
