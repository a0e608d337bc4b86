import Stackling.Proofs.Classes.Layout
import Stackling.Proofs.Resolution.Holds

/-!
# The methods of a class

The methods of a layout, put in order of their places, are a list of names with signatures, whatever
the fields are. A class takes over the list of its superclass and puts its own methods into it.
-/

namespace Stackling

namespace ObjectLayout

variable {l l' : ObjectLayout} {x : String} {methods : List (String × Signature)}

/-- The layout has these methods, in the order of their places. -/
structure Ranks (l : ObjectLayout) (methods : List (String × Signature)) : Prop where
  methods_ty : l.classTy.methods = methods.map Prod.snd
  nodup : (methods.map Prod.fst).Nodup
  method : ∀ (x : String) (m : Member), l.method? x = some m ↔ Makes methods methodMember x m

theorem method?_eq_some {m : Member} :
    l.method? x = some m ↔ l.members[x]? = some m ∧ m.isMethod = true :=
  Option.filter_eq_some_iff

theorem method?_insert {new : Member} (hmembers : l'.members = l.members.insert x new)
    (y : String) :
    l'.method? y = if y = x then (if new.isMethod then some new else none) else l.method? y := by
  rw [method?, hmembers, Std.TreeMap.getElem?_insert]
  by_cases hyx : y = x
  · subst hyx
    simp [Option.filter]
  · have hcompare : ¬compare x y = .eq := fun h => hyx (Std.compare_eq_iff_eq.mp h).symm
    rw [if_neg hcompare, if_neg hyx, method?]

namespace Ranks

theorem empty : Ranks {} [] where
  methods_ty := rfl
  nodup := List.nodup_nil
  method := by simp [Makes, method?]

/-- A field changes no method. -/
theorem place_field (h : l.Ranks methods) {ty : Ty} (hty : ty.isMethod = false)
    (hkind : ∀ old, l.members[x]? = some old → old.isMethod = false) :
    (l.place x ty).2.Ranks methods := by
  obtain ⟨hnew, hmembers, hmethods⟩ : (l.place x ty).1.isMethod = false ∧
      (l.place x ty).2.members = l.members.insert x (l.place x ty).1 ∧
      (l.place x ty).2.classTy.methods = l.classTy.methods := by
    unfold place
    cases l.members[x]? with
    | none =>
      rw [hty]
      exact ⟨hty, rfl, rfl⟩
    | some old =>
      cases ty with
      | method sig => cases hty
      | int | bool | null | ref | arrow | cls => exact ⟨rfl, rfl, rfl⟩
  refine ⟨hmethods.trans h.methods_ty, h.nodup, fun y m => ?_⟩
  rw [← h.method y m, method?_insert hmembers, hnew]
  by_cases hyx : y = x
  · subst hyx
    have hnone : l.method? y = none := by
      cases hm : l.method? y with
      | none => rfl
      | some m =>
        obtain ⟨hold, hmethod⟩ := method?_eq_some.mp hm
        exact Bool.noConfusion (hmethod.symm.trans (hkind m hold))
    simp [hnone]
  · rw [if_neg hyx]

/-- A method takes its place. -/
theorem place_method (h : l.Ranks methods) {sig : Signature}
    (hkind : ∀ old, l.members[x]? = some old → old.isMethod = true) :
    ∃ i, (putNamed methods x sig)[i]? = some (x, sig) ∧
      (l.place x (.method sig)).1 = methodMember i sig ∧
      (l.place x (.method sig)).2.Ranks (putNamed methods x sig) := by
  have hmethod {i : Nat} {l' : ObjectLayout}
      (hmembers : l'.members = l.members.insert x (methodMember i sig))
      (hmakes : ∀ y m, Makes (putNamed methods x sig) methodMember y m ↔
        if y = x then m = methodMember i sig else Makes methods methodMember y m) (y : String)
          (m : Member) :
      l'.method? y = some m ↔ Makes (putNamed methods x sig) methodMember y m := by
    rw [method?_insert hmembers, hmakes, ← h.method]
    split
    · exact ⟨fun heq => (Option.some.inj heq).symm, fun heq => congrArg some heq.symm⟩
    · rfl
  have hnodup : ((putNamed methods x sig).map Prod.fst).Nodup := by
    rw [map_fst_putNamed]
    exact nodup_addName h.nodup x
  rcases putNamed_cases h.nodup x sig with ⟨i, s, hi, hput⟩ | ⟨hx, hput⟩
  · have hlt := (List.getElem?_eq_some_iff.mp hi).1
    have hold : l.members[x]? = some (methodMember i s) :=
      (method?_eq_some.mp ((h.method x _).mpr ⟨i, s, hi, rfl⟩)).1
    have hplace : l.place x (.method sig) = (methodMember i sig,
        { l with
          classTy := { l.classTy with methods := l.classTy.methods.set i sig }
          members := l.members.insert x (methodMember i sig) }) := by
      simp [place, override, methodMember, hold]
    rw [hplace]
    refine ⟨i, by rw [hput, List.getElem?_set_self hlt], rfl, ?_, hnodup, hmethod rfl fun y m => ?_⟩
    · rw [hput, h.methods_ty, List.map_set]
    · rw [hput]
      exact makes_set h.nodup hi methodMember y m
  · have hnone : l.members[x]? = none := by
      cases hm : l.members[x]? with
      | none => rfl
      | some m =>
        obtain ⟨i, s, hi, -⟩ := (h.method x m).mp (method?_eq_some.mpr ⟨hm, hkind m hm⟩)
        exact absurd (List.mem_map_of_mem (List.mem_of_getElem? hi)) hx
    have hplace : l.place x (.method sig) = (methodMember methods.length sig,
        { l with
          classTy := { l.classTy with methods := l.classTy.methods ++ [sig] }
          members := l.members.insert x (methodMember methods.length sig) }) := by
      simp [place, hnone, addMethod, methodMember, h.methods_ty, Ty.isMethod]
    rw [hplace]
    refine ⟨methods.length, by rw [hput, List.getElem?_concat_length], rfl, ?_, hnodup,
      hmethod rfl fun y m => ?_⟩
    · rw [hput, h.methods_ty, List.map_append]
      rfl
    · rw [hput]
      exact makes_append hx methodMember y m

end Ranks

end ObjectLayout

/-! ### Implementations -/

/-- The method that a class has under a name: its own one, or else the one that its superclass
has. -/
inductive Provides (ds : List Decl) : (cls method : String) → FunDecl → Prop where
  | own {c : ClassDecl} {f : FunDecl} (hc : .cls c ∈ ds) (hf : f ∈ c.methods) :
      Provides ds c.name f.name f
  | inherited {c : ClassDecl} {s x : String} {f : FunDecl} (hc : .cls c ∈ ds)
      (hs : c.superclass = some s) (hx : ∀ m ∈ c.methods, x ≠ m.name)
      (hf : Provides ds s x f) : Provides ds c.name x f

/-- Classes have names of their own, and so have the methods of a class. -/
structure Unambiguous (ds : List Decl) : Prop where
  classes : ∀ c c', .cls c ∈ ds → .cls c' ∈ ds → c.name = c'.name → c = c'
  methods : ∀ c, .cls c ∈ ds → (c.methods.map FunDecl.name).Nodup

theorem Provides.unique {ds : List Decl} (h : Unambiguous ds) {cls x : String} {f f' : FunDecl}
    (hf : Provides ds cls x f) (hf' : Provides ds cls x f') : f' = f := by
  induction hf generalizing f' with
  | @own c f hc hf =>
    generalize hname : c.name = name, hx : f.name = x at hf'
    cases hf' with
    | own hc' hm =>
      obtain rfl := h.classes _ _ hc hc' hname
      exact (List.inj_on_of_nodup_map (h.methods c hc) hf hm hx).symm
    | inherited hc' _ hown =>
      obtain rfl := h.classes _ _ hc hc' hname
      exact absurd hx.symm (hown f hf)
  | @inherited c s x f hc hs hown _ ih =>
    generalize hname : c.name = name at hf'
    cases hf' with
    | own hc' hm =>
      obtain rfl := h.classes _ _ hc hc' hname
      exact absurd rfl (hown _ hm)
    | inherited hc' hs' _ hf' =>
      obtain rfl := h.classes _ _ hc hc' hname
      obtain rfl := Option.some.inj (hs.symm.trans hs')
      exact ih hf'

/-- Methods by place, with the code that each name stands for. -/
abbrev Methods := List (String × FunDecl)

namespace Methods

def signatures (ms : Methods) : List (String × Signature) := ms.map fun p => (p.1, p.2.signature)

/-- The methods of a class, from those of its superclass. -/
def putAll (ms : Methods) (own : List FunDecl) : Methods :=
  own.foldl (fun ms f => putNamed ms f.name f) ms

variable {ms : Methods} {own : List FunDecl}

theorem map_fst_signatures (ms : Methods) : ms.signatures.map Prod.fst = ms.map Prod.fst := by
  rw [signatures, List.map_map]
  rfl

theorem signatures_put (ms : Methods) (f : FunDecl) :
    signatures (putNamed ms f.name f) = putNamed ms.signatures f.name f.signature :=
  map_putNamed FunDecl.signature ms f.name f

theorem length_le_putAll (ms : Methods) (own : List FunDecl) :
    ms.length ≤ (ms.putAll own).length := by
  induction own generalizing ms with
  | nil => exact Nat.le_refl _
  | cons f own ih =>
    exact Nat.le_trans (length_le_length_putNamed ms f.name f) (ih _)

/-- A method keeps its place and its name when others are put. -/
theorem overrides_putAll (hnodup : (ms.map Prod.fst).Nodup) (own : List FunDecl) :
    Overrides (fun _ _ => True) ms (ms.putAll own) := by
  have hstep : ∀ {items : Methods} (own : List FunDecl), (items.map Prod.fst).Nodup →
      Overrides (fun _ _ => True) ms items → Overrides (fun _ _ => True) ms (items.putAll own) := by
    intro items own
    induction own generalizing items with
    | nil => exact fun _ h => h
    | cons f own ih =>
      intro hnodup h
      refine ih ?_ (h.put hnodup fun _ _ _ _ => trivial)
      rw [map_fst_putNamed]
      exact nodup_addName hnodup f.name
  exact hstep own hnodup (.refl _ ms)

end Methods

/-- The methods of a class are those that it should provide. -/
theorem Provides.putAll {ds : List Decl} {c : ClassDecl} (hc : .cls c ∈ ds) {ms : Methods}
    (hms : ∀ p ∈ ms, ∃ s, c.superclass = some s ∧ Provides ds s p.1 p.2) :
    ∀ p ∈ ms.putAll c.methods, Provides ds c.name p.1 p.2 := by
  intro p hp
  rcases mem_foldl_putNamed hp with ⟨hp, hnames⟩ | ⟨f, hf, rfl⟩
  · obtain ⟨s, hs, hf⟩ := hms p hp
    exact .inherited hc hs hnames hf
  · exact .own hc hf

/-! ### Drafts -/

namespace ClassDraft

variable {r : Resolution} {cls : String}

theorem ranks_fields {methods : List (String × Signature)} {fs : List TypedName} {d : ClassDraft}
    (h : ErrorFree (d.addAll cls (fs.map fun f => ⟨f.id, f.name, f.pos, f.declared.ty⟩)).findings)
    (hd : d.layout.Ranks methods) :
    (d.addAll cls (fs.map fun f => ⟨f.id, f.name, f.pos, f.declared.ty⟩)).layout.Ranks methods := by
  induction fs generalizing d with
  | nil => exact hd
  | cons f fs ih =>
    have hty : f.declared.ty.isMethod =
        false := by cases f.declared <;> simp [WrittenTy.ty, Ty.isMethod]
    obtain ⟨-, hkind, heq⟩ := addOwn_errorFree (addAll_errorFree h)
    refine ih h ?_
    change (d.addOwn cls ⟨f.id, f.name, f.pos, f.declared.ty⟩).layout.Ranks methods
    rw [heq]
    exact hd.place_field hty fun old hold => (hkind old hold).trans hty

theorem nodup_addAll {ms : List OwnMember} {d : ClassDraft}
    (h : ErrorFree (d.addAll cls ms).findings) :
    (ms.map OwnMember.name).Nodup ∧ ∀ m ∈ ms, m.name ∉ d.seen := by
  induction ms generalizing d with
  | nil => exact ⟨List.nodup_nil, nofun⟩
  | cons m ms ih =>
    obtain ⟨hm, -, heq⟩ := addOwn_errorFree (addAll_errorFree (d := d.addOwn cls m) h)
    obtain ⟨hnodup, hseen⟩ := ih (d := d.addOwn cls m) h
    rw [heq] at hseen
    refine ⟨List.nodup_cons.mpr ⟨fun hmem => ?_, hnodup⟩,
      List.forall_mem_cons.mpr ⟨hm, fun m' hm' hold => ?_⟩⟩
    · obtain ⟨m', hm', hname⟩ := List.mem_map.mp hmem
      exact hseen m' hm' (hname ▸ List.mem_cons_self)
    · exact hseen m' hm' (List.mem_cons_of_mem _ hold)

/-- A method of a class is placed, and its entry says where. -/
theorem ranks_method {ms : Methods} {m : FunDecl} {d : ClassDraft} {rest : List OwnMember}
    (hold : r.HoldsAll (d.addAll cls (⟨m.id, m.name, m.pos, .method m.signature⟩ :: rest)).findings)
    (hd : d.layout.Ranks ms.signatures) :
    ∃ i, (addName (ms.map Prod.fst) m.name)[i]? = some m.name ∧
      r.decls[m.id]? = some (ObjectLayout.methodMember i m.signature).entry ∧
      (d.addOwn cls ⟨m.id, m.name, m.pos, .method m.signature⟩).layout.Ranks
      (Methods.signatures (putNamed ms m.name m)) := by
  obtain ⟨-, hkind, heq⟩ := addOwn_errorFree (addAll_errorFree hold.errorFree)
  obtain ⟨more, hmore, -⟩ :=
    (d.addOwn cls ⟨m.id, m.name, m.pos, .method m.signature⟩).findings_addAll cls rest
  obtain ⟨i, hi, hplace, hranks⟩ := hd.place_method hkind
  have hown : r.HoldsAll (d.addOwn cls ⟨m.id, m.name, m.pos, .method m.signature⟩).findings := by
    change r.HoldsAll ((d.addOwn cls _).addAll cls rest).findings at hold
    rw [hmore, Resolution.HoldsAll.append] at hold
    exact hold.1
  rw [heq, Resolution.HoldsAll.append, Resolution.HoldsAll.cons] at hown
  refine ⟨i, ?_, ?_, ?_⟩
  · rw [← Methods.map_fst_signatures, ← map_fst_putNamed _ _ m.signature, List.getElem?_map, hi]
    rfl
  · rw [← hplace]
    exact hown.2.1
  · rw [heq, Methods.signatures_put]
    exact hranks

end ClassDraft

end Stackling
