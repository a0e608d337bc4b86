import Mathlib.Data.List.Forall2
import Stackling.Proofs.Renaming.Basic

/-!
# Tables under other names

Tables by name are searched, not listed, so two of them count as renamed if they answer alike under
the old and the new names and are equally large. Entries are added under names that stay different,
which is all that keeps tables renamed.
-/

namespace Stackling

variable {f : String → String}

/-! ### Tables -/

namespace NameTable

variable {α β : Type} {R : α → β → Prop} {t : Std.TreeMap String α} {t' : Std.TreeMap String β}

/-- The second table has related values under the new names, and nothing else. -/
structure Renames (f : String → String) (R : α → β → Prop) (t : Std.TreeMap String α)
    (t' : Std.TreeMap String β) :
    Prop where
  rel (x : String) : Option.Rel R t[x]? t'[f x]?
  size_eq : t'.size = t.size

theorem rel_of_rel {γ : Type} {S : γ → β → Prop} {T : α → γ → Prop}
    (hvalue : ∀ a b c, R a b → S c b → T a c) {a : Option α} {b : Option β} {c : Option γ} :
    Option.Rel R a b → Option.Rel S c b → Option.Rel T a c
  | .none, .none => .none
  | .some hab, .some hcb => .some (hvalue _ _ _ hab hcb)

namespace Renames

theorem empty : Renames f R ∅ ∅ where
  rel x := by
    simp only [Std.TreeMap.getElem?_emptyc]
    exact .none
  size_eq := rfl

/-- A name is missing in both tables, or both have rows for it, which are related. -/
theorem getElem?_cases (h : Renames f R t t') (x : String) :
    t[x]? = none ∧ t'[f x]? = none ∨ ∃ a b, t[x]? = some a ∧ t'[f x]? = some b ∧ R a b := by
  have hrel := h.rel x
  generalize t[x]? = o, t'[f x]? = o' at hrel
  cases hrel with
  | none => exact .inl ⟨rfl, rfl⟩
  | some hab => exact .inr ⟨_, _, rfl, rfl, hab⟩

/-- A name is taken in one table exactly if its other name is taken in the other. -/
theorem contains_eq (h : Renames f R t t') (x : String) : t'.contains (f x) = t.contains x := by
  rw [← Std.TreeMap.isSome_getElem?_eq_contains, ← Std.TreeMap.isSome_getElem?_eq_contains]
  rcases h.getElem?_cases x with ⟨ht, ht'⟩ | ⟨a, b, ht, ht', -⟩
  · rw [ht, ht', Option.isSome_none, Option.isSome_none]
  · rw [ht, ht', Option.isSome_some, Option.isSome_some]

/-- Related rows keep tables renamed. The renaming is injective, so that no other row is lost. -/
theorem insert (hf : Function.Injective f) (h : Renames f R t t') {a : α} {b : β} (hab : R a b)
    (x : String) :
    Renames f R (t.insert x a) (t'.insert (f x) b) where
  rel y := by
    simp only [Std.TreeMap.getElem?_insert, Std.compare_eq_iff_eq, hf.eq_iff]
    split
    · exact .some hab
    · exact h.rel y
  size_eq := by
    simp only [Std.TreeMap.size_insert, h.contains_eq, h.size_eq]

/-- Where the values are renamed by a function, so are the answers. -/
theorem getElem?_eq {g : α → β} (h : Renames f (g · = ·) t t') (x : String) :
    t'[f x]? = t[x]?.map g := by
  rcases h.getElem?_cases x with ⟨ht, ht'⟩ | ⟨a, b, ht, ht', hab⟩
  · rw [ht, ht', Option.map_none]
  · rw [ht, ht', Option.map_some, hab]

/-- Tables that become one table differ in names as the first of them does from it. -/
theorem of_id {γ : Type} {S : γ → β → Prop} {T : α → γ → Prop} {u : Std.TreeMap String γ}
    (hvalue : ∀ a b c, R a b → S c b → T a c) (h : Renames f R t t') (hid : Renames id S u t') :
    Renames f T t u where
  rel x := rel_of_rel hvalue (h.rel x) (hid.rel (f x))
  size_eq := hid.size_eq.symm.trans h.size_eq

end Renames

end NameTable

/-! ### Hierarchies -/

/-- The links lead from and to the new names. -/
def Hierarchy.Renames (f : String → String) (h h' : Hierarchy) : Prop :=
  NameTable.Renames f (f · = ·) h.links h'.links

namespace Hierarchy.Renames

variable {h h' : Hierarchy}

/-- The superclass of a renamed class is the renamed superclass. -/
theorem superclass?_eq (hr : h.Renames f h') (c : String) :
    h'.superclass? (f c) = (h.superclass? c).map f :=
  hr.getElem?_eq c

/-- The walk upwards from a renamed class meets the renamed classes. -/
theorem climb_eq (hf : Function.Injective f) (hr : h.Renames f h') (fuel : Nat) (seen : List String)
    (c : String) :
    h'.climb fuel (seen.map f) (f c) = (h.climb fuel seen c).map f := by
  induction fuel generalizing seen c with
  | zero => rfl
  | succ fuel ih =>
    rw [climb, climb, hr.superclass?_eq]
    cases h.superclass? c with
    | none => rfl
    | some s =>
      have hmem : f s ∈ seen.map f ↔ s ∈ seen := List.mem_map_of_injective hf
      have hrest := ih (s :: seen) s
      rw [List.map_cons] at hrest
      by_cases hs : s ∈ seen <;> simp [hmem, hs, hrest]

/-- The walks upwards are equally long, since the hierarchies have equally many links. -/
theorem ancestors_eq (hf : Function.Injective f) (hr : h.Renames f h') (c : String) :
    h'.ancestors (f c) = (h.ancestors c).map f := by
  rw [ancestors, hr.size_eq]
  exact hr.climb_eq hf _ [c] c

/-- A renamed class is below another one exactly if the class is. -/
theorem isSubclass_eq (hf : Function.Injective f) (hr : h.Renames f h') (c d : String) :
    h'.isSubclass (f c) (f d) = h.isSubclass c d := by
  simp only [isSubclass, hr.ancestors_eq hf, List.mem_map_of_injective hf, hf.eq_iff]

end Hierarchy.Renames

/-! ### Scopes -/

/-- A scope has renamed entries under other names. -/
def Scope.Renames (f : String → String) (s s' : Scope) : Prop :=
  NameTable.Renames f (Entry.rename f · = ·) s s'

/-- So have all scopes of a stack. -/
def Scopes.Renames (f : String → String) (s s' : Scopes) : Prop :=
  List.Forall₂ (Scope.Renames f) s.stack s'.stack

namespace Scopes.Renames

variable {s s' : Scopes}

/-- Entering a scope keeps stacks renamed. -/
theorem push (h : s.Renames f s') {scope scope' : Scope} (hscope : scope.Renames f scope') :
    (s.push scope).Renames f (s'.push scope') :=
  .cons hscope h

/-- Renamed stacks are equally deep. -/
theorem depth_eq (h : s.Renames f s') : s'.depth = s.depth := by
  rw [depth, depth, List.Forall₂.length_eq h]

/-- The same entry is found under the other name. -/
theorem lookup?_eq (h : s.Renames f s') (x : String) :
    s'.lookup? (f x) = (s.lookup? x).map (Entry.rename f) := by
  obtain ⟨stack⟩ := s
  obtain ⟨stack'⟩ := s'
  change List.Forall₂ (Scope.Renames f) stack stack' at h
  simp only [lookup?]
  induction h with
  | nil => rfl
  | @cons scope _ _ _ hscope _ ih =>
    rw [List.findSome?_cons, List.findSome?_cons, NameTable.Renames.getElem?_eq hscope x, ih]
    cases scope[x]? <;> rfl

/-- The same use is found under the other name, from the same depth. -/
theorem use?_eq (h : s.Renames f s') (x : String) :
    s'.use? (f x) = (s.use? x).map (Binding.rename f) := by
  rw [use?, use?, h.lookup?_eq, h.depth_eq, Option.map_map, Option.map_map]
  rfl

/-- A new name is taken just if the old one is. -/
theorem declare? (hf : Function.Injective f) (h : s.Renames f s') (x : String) (entry : Entry) :
    Option.Rel (Scopes.Renames f) (s.declare? x entry) (s'.declare? (f x) (entry.rename f)) := by
  obtain ⟨stack⟩ := s
  obtain ⟨stack'⟩ := s'
  cases h with
  | nil => exact .none
  | cons hscope houter =>
    simp only [Scopes.declare?, NameTable.Renames.contains_eq hscope]
    split
    · exact .none
    · exact .some (.cons (NameTable.Renames.insert hf hscope rfl x) houter)

end Scopes.Renames

/-! ### Object layouts -/

/-- Two layouts of a class differ in names only: members have the same places. -/
structure ObjectLayout.Renames (f : String → String) (l l' : ObjectLayout) : Prop where
  classTy : l'.classTy = l.classTy.rename f
  fieldCells : l'.fieldCells = l.fieldCells
  members : NameTable.Renames f (Member.rename f · = ·) l.members l'.members

/-- Members that get the same place in layouts that stay renamed. -/
structure ObjectLayout.RenamesPlaced (f : String → String)
    (placed placed' : Member × ObjectLayout) : Prop where
  member : placed'.1 = placed.1.rename f
  layout : placed.2.Renames f placed'.2

namespace ObjectLayout.Renames

variable {l l' : ObjectLayout}

theorem empty : ({} : ObjectLayout).Renames f {} where
  classTy := rfl
  fieldCells := rfl
  members := .empty

/-- A new field has the same place under another name. -/
theorem addField (hf : Function.Injective f) (h : l.Renames f l') (x : String) (ty : Ty) :
    RenamesPlaced f (l.addField x ty) (l'.addField (f x) (ty.rename f)) := by
  have hmember : (l'.addField (f x) (ty.rename f)).1 = (l.addField x ty).1.rename f := by
    simp [ObjectLayout.addField, h.classTy, h.fieldCells, Member.rename, Entry.rename]
  refine ⟨hmember, ?_, ?_, h.members.insert hf hmember.symm x⟩
  · simp [ObjectLayout.addField, h.classTy, ClassTy.rename]
  · simp [ObjectLayout.addField, h.fieldCells]

/-- A new method has the same place under another name. -/
theorem addMethod (hf : Function.Injective f) (h : l.Renames f l') (x : String) (ty : Ty) :
    RenamesPlaced f (l.addMethod x ty) (l'.addMethod (f x) (ty.rename f)) := by
  have hmember : (l'.addMethod (f x) (ty.rename f)).1 = (l.addMethod x ty).1.rename f := by
    simp [ObjectLayout.addMethod, h.classTy, Member.rename, Entry.rename]
  refine ⟨hmember, ?_, h.fieldCells, h.members.insert hf hmember.symm x⟩
  cases ty <;> simp [ObjectLayout.addMethod, h.classTy, ClassTy.rename, Ty.rename]

/-- A member that overrides another one takes the same place under other names. -/
theorem override (hf : Function.Injective f) (h : l.Renames f l') (x : String) (inherited : Member)
    (ty : Ty) :
    RenamesPlaced f (l.override x inherited ty)
      (l'.override (f x) (inherited.rename f) (ty.rename f)) := by
  have hmember : (l'.override (f x) (inherited.rename f) (ty.rename f)).1 =
      (l.override x inherited ty).1.rename f := rfl
  refine ⟨hmember, ?_, h.fieldCells, h.members.insert hf hmember.symm x⟩
  cases ty <;> simp [ObjectLayout.override, h.classTy, ClassTy.rename, Ty.rename, Member.rename]

/-- The scope of the members is renamed with the layout. -/
theorem scope (h : l.Renames f l') : l.scope.Renames f l'.scope where
  rel x := by
    rw [ObjectLayout.scope, ObjectLayout.scope, Std.TreeMap.getElem?_map, Std.TreeMap.getElem?_map,
      h.members.getElem?_eq]
    cases l.members[x]? with
    | none => exact .none
    | some m => exact .some rfl
  size_eq := by
    rw [ObjectLayout.scope, ObjectLayout.scope, Std.TreeMap.size_map, Std.TreeMap.size_map,
      h.members.size_eq]

/-- A method is found under its other name. -/
theorem method?_eq (h : l.Renames f l') (x : String) :
    l'.method? (f x) = (l.method? x).map (Member.rename f) := by
  rw [method?, method?, h.members.getElem?_eq, Option.filter_map]
  simp only [Function.comp_def, Member.isMethod_rename]

end ObjectLayout.Renames

/-! ### Class tables -/

/-- Two records of a class differ in names only. -/
structure ClassRecord.Renames (f : String → String) (r r' : ClassRecord) : Prop where
  name : r'.name = f r.name
  superclass : r'.superclass = r.superclass.map f
  entry : r'.entry = r.entry.rename f
  layout : r.layout.Renames f r'.layout

/-- Two tables of classes differ in names only. -/
structure ClassTable.Renames (f : String → String) (t t' : ClassTable) : Prop where
  records : NameTable.Renames f (ClassRecord.Renames f) t.records t'.records
  hierarchy : t.hierarchy.Renames f t'.hierarchy

namespace ClassTable.Renames

variable {t t' : ClassTable}

theorem empty : ({} : ClassTable).Renames f {} := ⟨.empty, NameTable.Renames.empty⟩

/-- A class that is added under another name keeps the tables renamed. -/
theorem add (hf : Function.Injective f) (h : t.Renames f t') {r r' : ClassRecord}
    (hr : r.Renames f r') :
    (t.add r).Renames f (t'.add r') where
  records := by
    rw [ClassTable.add, ClassTable.add, hr.name]
    exact h.records.insert hf hr r.name
  hierarchy := by
    rw [ClassTable.add, ClassTable.add, hr.name, hr.superclass]
    cases r.superclass with
    | none => exact h.hierarchy
    | some s => exact NameTable.Renames.insert hf h.hierarchy rfl r.name

end ClassTable.Renames

end Stackling
