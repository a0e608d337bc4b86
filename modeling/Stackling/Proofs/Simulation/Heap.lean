import Stackling.Proofs.Simulation.Scopes

/-!
# Stores on the heap

How a store lies on the heap of a machine. A value is its word, the header of an object is the
address of the dispatch table of its class, and a method is the address of its code. The classes of
a store fit their records: members are where the layout says, a method is typed in the class that
declares it, and what a class says about a member holds in the classes below it.
-/

namespace Stackling

variable {ι : Type}

/-! ### Cells -/

/-- A cell of the store and the words at its address. The fields of an object are below its
header. -/
inductive CellFits (r : Resolution) (w : ι → World) (σ : Store) (a : Nat) :
    Cell → (ι → Int32) → Prop
  | value {v : Value} : CellFits r w σ a (.value v) fun _ => v.word
  | method {m : Method} {entry : ι → Nat} (hplaced : ∀ i, (w i).Placed r true m.decl (entry i)) :
    CellFits r w σ a (.method m) fun i => Int32.ofNat (entry i)
  | object {k : Nat} {cls : Class} {record : ClassRecord} (hclass : σ.classes[k]? = some cls)
      (hrecord : r.class? cls.name = some record)
      (hfields : ∀ (j : Nat) (t : Ty), record.layout.classTy.fields[j]? = some t → j < a ∧
        ∃ v : Value, σ.heap[a - 1 - j]? = some (.value v) ∧ v.HasTy r.hierarchy σ t) :
    CellFits r w σ a (.object k) fun _ => Int32.ofNat cls.table

theorem CellFits.mono {r : Resolution} {w : ι → World} {σ σ' : Store} {a : Nat} {cell : Cell}
    {u : ι → Int32} (h : CellFits r w σ a cell u) (hσ : σ.Extends σ') :
    CellFits r w σ' a cell u := by
  cases h with
  | value => exact .value
  | method hplaced => exact .method hplaced
  | object hclass hrecord hfields =>
    refine .object (getElem?_extend hσ.classes hclass) hrecord fun j t hj => ?_
    obtain ⟨hlt, v, hv, hty⟩ := hfields j t hj
    exact ⟨hlt, v, getElem?_extend hσ.heap hv, hty.mono hσ⟩

/-- The heap of the store lies on the heaps of the machines. -/
structure HeapFits (r : Resolution) (w : ι → World) (σ : Store) (hp : ι → List Int32) : Prop where
  length : ∀ i, (hp i).length = σ.heap.length
  cell : ∀ (a : Nat) (cell : Cell), σ.heap[a]? = some cell →
    ∃ u, CellFits r w σ a cell u ∧ ∀ i, (hp i)[a]? = some (u i)

namespace HeapFits

variable {r : Resolution} {w : ι → World} {σ σ' : Store} {hp : ι → List Int32}

theorem append (h : HeapFits r w σ hp) (hσ : σ.Extends σ') (cells : List Cell) (us : ι → List Int32)
    (hheap : σ'.heap = σ.heap ++ cells) (hlength : ∀ i, (us i).length = cells.length)
    (hcells : ∀ (j : Nat) (cell : Cell), cells[j]? = some cell →
      ∃ u, CellFits r w σ' (σ.heap.length + j) cell u ∧ ∀ i, (us i)[j]? = some (u i)) :
    HeapFits r w σ' fun i => hp i ++ us i where
  length i := by rw [hheap, List.length_append, List.length_append, h.length, hlength]
  cell a cell ha := by
    rw [hheap, List.getElem?_append] at ha
    split at ha
    next hlt =>
      obtain ⟨u, hu, hcell⟩ := h.cell a cell ha
      refine ⟨u, hu.mono hσ, fun i => ?_⟩
      rw [List.getElem?_append_left (by rw [h.length]; exact hlt)]
      exact hcell i
    next hge =>
      obtain ⟨u, hu, hcell⟩ := hcells _ cell ha
      rw [Nat.add_sub_cancel' (Nat.le_of_not_lt hge)] at hu
      refine ⟨u, hu, fun i => ?_⟩
      rw [List.getElem?_append_right (by rw [h.length]; exact Nat.le_of_not_lt hge), h.length]
      exact hcell i

theorem output (h : HeapFits r w σ hp) (out : Array Int32) :
    HeapFits r w { σ with output := out } hp :=
  ⟨h.length, fun a cell ha => by
    obtain ⟨u, hu, hcell⟩ := h.cell a cell ha
    exact ⟨u, hu.mono ⟨List.prefix_refl _, List.prefix_refl _⟩, hcell⟩⟩

end HeapFits

/-! ### Classes -/

/-- A class is laid out below another one: its fields and methods are in the places that the other
one has for them. -/
def LayoutBelow (r : Resolution) (l l' : ObjectLayout) : Prop :=
  ∃ fields methods fields' methods', l.Lists fields methods ∧ l'.Lists fields' methods' ∧
    Overrides (Ty.Sub r.hierarchy) fields' fields ∧
    Overrides (Signature.Sub r.hierarchy) methods' methods

theorem LayoutBelow.refl {r : Resolution} {l : ObjectLayout} {fields : List (String × Ty)}
    {methods : List (String × Signature)} (h : l.Lists fields methods) : LayoutBelow r l l :=
  ⟨_, _, _, _, h, h, .refl _ _, .refl _ _⟩

theorem LayoutBelow.trans {r : Resolution} {l₁ l₂ l₃ : ObjectLayout} (h : LayoutBelow r l₁ l₂)
    (h' : LayoutBelow r l₂ l₃) : LayoutBelow r l₁ l₃ := by
  obtain ⟨f₁, m₁, f₂, m₂, hl₁, hl₂, hf, hm⟩ := h
  obtain ⟨f₂', m₂', f₃, m₃, hl₂', hl₃, hf', hm'⟩ := h'
  obtain ⟨rfl, rfl⟩ := hl₂.unique hl₂'
  exact ⟨f₁, m₁, f₃, m₃, hl₁, hl₃, hf'.trans Ty.Sub.trans hf, hm'.trans Signature.Sub.trans hm⟩

/-- A method of a class, as it was declared in that class or in one above it. -/
inductive MethodFits (r : Resolution) (w : ι → World) (σ : Store) (st hp : ι → List Int32)
    (cls : String) :
    Method → Prop
  | mk {m : Method} {env : Env} {home : String} {record : ClassRecord} {fields : List (String × Ty)}
      {methods : List (String × Signature)}
      (hscoped : Scoped r w σ st hp false env m.globals (globalFrame w))
      (hdepth : env.scopes.depth = 0) (hbelow : r.hierarchy.Below cls home)
      (hrecord : r.class? home = some record) (hlists : record.layout.Lists fields methods)
      (hfields : m.fields = fields.map Prod.fst) (hmethods : m.methods = methods.map Prod.fst)
      (hfun : m.decl.Typed r (env.enterClass record.layout)) :
      MethodFits r w σ st hp cls m

/-- The names and signatures of methods. -/
def signatures (methods : List (String × Method)) : List (String × Signature) :=
  methods.map fun p => (p.1, p.2.decl.signature)

/-- A class of the store and its record. -/
structure ClassFits (r : Resolution) (w : ι → World) (σ : Store) (st hp : ι → List Int32)
    (cls : Class) (record : ClassRecord) (fields : List (String × Ty)) : Prop where
  recorded : r.class? cls.name = some record
  lists : record.layout.Lists fields (signatures cls.methods)
  names : cls.fields = fields.map Prod.fst
  table : ∀ (j : Nat) (x : String) (m : Method), cls.methods[j]? = some (x, m) →
    σ.heap[cls.table + j]? = some (.method m)
  methods : ∀ p ∈ cls.methods, MethodFits r w σ st hp cls.name p.2
  parent : ∀ s, r.hierarchy.superclass? cls.name = some s →
    ∃ (k : Nat) (super : Class) (record' : ClassRecord), σ.classes[k]? = some super ∧
    super.name = s ∧ r.class? s = some record' ∧
      LayoutBelow r record.layout record'.layout

/-- All classes of the store fit their records. -/
def ClassesFit (r : Resolution) (w : ι → World) (σ : Store) (st hp : ι → List Int32) : Prop :=
  ∀ (k : Nat) (cls : Class), σ.classes[k]? = some cls →
    ∃ record fields, ClassFits r w σ st hp cls record fields

section

variable {r : Resolution} {w : ι → World} {σ σ' : Store} {st st' hp hp' : ι → List Int32}

theorem MethodFits.mono {cls : String} {m : Method} (h : MethodFits r w σ st hp cls m)
    (hσ : σ.Extends σ') (hst : ∀ i, st i <:+ st' i) (hhp : ∀ i, hp i <+: hp' i) :
    MethodFits r w σ' st' hp' cls m := by
  obtain ⟨hscoped, hdepth, hbelow, hrecord, hlists, hfields, hmethods, hfun⟩ := h
  exact ⟨hscoped.mono hσ hst hhp, hdepth, hbelow, hrecord, hlists, hfields, hmethods, hfun⟩

theorem ClassFits.mono {cls : Class} {record : ClassRecord} {fields : List (String × Ty)}
    (h : ClassFits r w σ st hp cls record fields) (hσ : σ.Extends σ') (hst : ∀ i, st i <:+ st' i)
    (hhp : ∀ i, hp i <+: hp' i) : ClassFits r w σ' st' hp' cls record fields where
  recorded := h.recorded
  lists := h.lists
  names := h.names
  table j x m hj := getElem?_extend hσ.heap (h.table j x m hj)
  methods p hp := (h.methods p hp).mono hσ hst hhp
  parent s hs := by
    obtain ⟨k, super, record', hk, hname, hrecord', hbelow⟩ := h.parent s hs
    exact ⟨k, super, record', getElem?_extend hσ.classes hk, hname, hrecord', hbelow⟩

theorem ClassesFit.mono (h : ClassesFit r w σ st hp) (hσ : σ.Grows σ') (hst : ∀ i, st i <:+ st' i)
    (hhp : ∀ i, hp i <+: hp' i) : ClassesFit r w σ' st' hp' := by
  intro k cls hk
  rw [hσ.classes] at hk
  obtain ⟨record, fields, hfits⟩ := h k cls hk
  exact ⟨record, fields, hfits.mono hσ.extends hst hhp⟩

/-- The classes above a class of the store are in the store too. -/
theorem ClassesFit.below (h : ClassesFit r w σ st hp) {k : Nat} {cls : Class}
    (hk : σ.classes[k]? = some cls) {c : String} (hbelow : r.hierarchy.Below cls.name c) :
    ∃ record record', r.class? cls.name = some record ∧ r.class? c = some record' ∧
      LayoutBelow r record.layout record'.layout := by
  obtain ⟨name, hname⟩ : ∃ name, cls.name = name := ⟨_, rfl⟩
  rw [hname] at hbelow
  induction hbelow using Relation.ReflTransGen.head_induction_on generalizing k cls with
  | refl =>
    obtain ⟨record, fields, hfits⟩ := h k cls hk
    refine ⟨record, record, hfits.recorded, hname ▸ hfits.recorded, .refl hfits.lists⟩
  | head hs _ ih =>
    obtain ⟨record, fields, hfits⟩ := h k cls hk
    obtain ⟨k', super, record', hk', hsuper, hrecord', hlayout⟩ := hfits.parent _ (hname ▸ hs)
    obtain ⟨record₁, record'', hrecord₁, hrecord'', hlayout'⟩ := ih hk' hsuper
    rw [hsuper, hrecord'] at hrecord₁
    cases hrecord₁
    exact ⟨record, record'', hfits.recorded, hrecord'', hlayout.trans hlayout'⟩

/-! ### Objects -/

theorem Store.class?_eq_some {a : Nat} {cls : Class} :
    σ.class? a = some cls ↔ ∃ k, σ.heap[a]? = some (.object k) ∧ σ.classes[k]? = some cls := by
  unfold Store.class?
  split
  next k hk => simp [hk]
  next hne => simpa using fun k hk => absurd hk (hne k)

/-- An object has the fields of each of its classes. -/
theorem HeapFits.field (h : HeapFits r w σ hp) (hclasses : ClassesFit r w σ st hp) {a : Nat}
    {c : String} (hobject : (Value.object a).HasTy r.hierarchy σ (.ref c)) {record : ClassRecord}
    (hrecord : r.class? c = some record) {fields : List (String × Ty)}
    {methods : List (String × Signature)} (hlists : record.layout.Lists fields methods) {j : Nat}
    {x : String} {t : Ty} (hj : fields[j]? = some (x, t)) :
    ∃ v : Value, σ.field? a j = some v ∧ v.HasTy r.hierarchy σ t ∧
      Shows w st hp (fun _ => Int32.ofNat a + (-(Int32.ofNat j) - 1)) fun _ => v.word := by
  obtain ⟨cls, hclass, hbelow⟩ := hobject.exists_class
  obtain ⟨k, hk, hcls⟩ := Store.class?_eq_some.mp hclass
  obtain ⟨own, record', hown, hrecord', hlayout⟩ := hclasses.below hcls hbelow
  rw [hrecord] at hrecord'
  cases hrecord'
  obtain ⟨fields', methods', _, _, hlists', hlists'', hfields, -⟩ := hlayout
  obtain ⟨rfl, rfl⟩ := hlists.unique hlists''
  obtain ⟨t', ht', hsub⟩ := hfields j x t hj
  obtain ⟨u, hu, -⟩ := h.cell a _ hk
  cases hu with
  | object hcls' hown' hcells =>
    rw [hcls] at hcls'
    cases hcls'
    rw [hown] at hown'
    cases hown'
    obtain ⟨hlt, v, hv, hty⟩ := hcells j t' (by rw [hlists'.fields_ty, List.getElem?_map, ht']; rfl)
    refine ⟨v, by rw [Store.field?, hv], ?_, fun i => ?_⟩
    · rcases hsub with rfl | hsub
      · exact hty
      · exact hsub σ v hty
    · obtain ⟨u, hu, hcell⟩ := h.cell _ _ hv
      cases hu
      refine .inr ⟨a - 1 - j, hcell i, ?_⟩
      rw [Int32.ofNat_sub _ _ (by omega), Int32.ofNat_sub _ _ (by omega), Platform.one_eq_ofNat]
      grind

theorem lookup_of_getElem? {α : Type} {items : List (String × α)}
    (hnodup : (items.map Prod.fst).Nodup) {j : Nat} {x : String} {a : α}
    (hj : items[j]? = some (x, a)) : items.lookup x = some a := by
  induction items generalizing j with
  | nil => cases hj
  | cons p items ih =>
    obtain ⟨y, b⟩ := p
    rw [List.map_cons, List.nodup_cons] at hnodup
    cases j with
    | zero =>
      cases hj
      rw [List.lookup_cons_self]
    | succ j =>
      have hne : (x == y) = false := by
        rw [beq_eq_false_iff_ne]
        rintro rfl
        rw [List.getElem?_cons_succ] at hj
        exact hnodup.1 (List.mem_map.mpr ⟨(x, a), List.mem_of_getElem? hj, rfl⟩)
      rw [List.lookup_cons, hne]
      exact ih hnodup.2 hj

/-- The method that an object has under a name of one of its classes: its code is found through the
dispatch table, and it can be called as that class says. -/
theorem HeapFits.dispatch (h : HeapFits r w σ hp) (hclasses : ClassesFit r w σ st hp) {a : Nat}
    {c : String} (hobject : (Value.object a).HasTy r.hierarchy σ (.ref c)) {record : ClassRecord}
    (hrecord : r.class? c = some record) {fields : List (String × Ty)}
    {methods : List (String × Signature)} (hlists : record.layout.Lists fields methods) {j : Nat}
    {x : String} {sig : Signature} (hj : methods[j]? = some (x, sig)) :
    ∃ (m : Method) (cls : Class) (entry : ι → Nat), σ.method? a x = some m ∧ σ.class? a = some cls ∧
      MethodFits r w σ st hp cls.name m ∧
      (m.decl.signature = sig ∨ Signature.Sub r.hierarchy m.decl.signature sig) ∧
      (∀ i, (w i).Placed r true m.decl (entry i)) ∧
      Shows w st hp (fun _ => Int32.ofNat a) (fun _ => Int32.ofNat cls.table) ∧
      Shows w st hp (fun _ => Int32.ofNat cls.table + Int32.ofNat j) fun i =>
        Int32.ofNat (entry i) := by
  obtain ⟨cls, hclass, hbelow⟩ := hobject.exists_class
  obtain ⟨k, hk, hcls⟩ := Store.class?_eq_some.mp hclass
  obtain ⟨own, ownFields, hfits⟩ := hclasses k cls hcls
  obtain ⟨own', record', hown, hrecord', hlayout⟩ := hclasses.below hcls hbelow
  rw [hrecord] at hrecord'
  cases hrecord'
  rw [hfits.recorded] at hown
  cases hown
  obtain ⟨_, _, _, _, hlists', hlists'', -, hmethods⟩ := hlayout
  obtain ⟨rfl, rfl⟩ := hlists.unique hlists''
  obtain ⟨rfl, rfl⟩ := hfits.lists.unique hlists'
  obtain ⟨sig', hsig', hsub⟩ := hmethods j x sig hj
  rw [signatures, List.getElem?_map, Option.map_eq_some_iff] at hsig'
  obtain ⟨⟨x', m⟩, hm, heq⟩ := hsig'
  obtain ⟨rfl, rfl⟩ : x' = x ∧ m.decl.signature = sig' := Prod.mk.injEq .. ▸ heq
  obtain ⟨u, hu, hcell⟩ := h.cell _ _ (hfits.table j x' m hm)
  obtain ⟨u', hu', hheader⟩ := h.cell a _ hk
  cases hu with
  | method hplaced =>
    cases hu' with
    | object hcls' =>
      rw [hcls] at hcls'
      cases hcls'
      have hnodup : (cls.methods.map Prod.fst).Nodup := by
        have := hfits.lists.methods_nodup
        rwa [signatures, List.map_map] at this
      refine ⟨m, cls, _, ?_, hclass, hfits.methods (x', m) (List.mem_of_getElem? hm), hsub, hplaced,
        fun i => .inr ⟨a, hheader i, rfl⟩, fun i =>
        .inr ⟨cls.table + j, hcell i, Int32.ofNat_add .. |>.symm⟩⟩
      rw [Store.method?, hclass]
      exact lookup_of_getElem? hnodup hm

end

end Stackling
