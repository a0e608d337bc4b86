import Mathlib.Data.List.Forall2
import Stackling.Proofs.Joins
import Stackling.Proofs.Semantics.Eval

/-!
# Typed values

What it means for a value to have a type in a store. An object has the types of its class and of all
classes above it. Subtypes have fewer values, the join of two types has the values of both, and a
store that grows keeps the types of its values.
-/

namespace Stackling

/-! ### Stores that grow -/

/-- A store grows: cells are added to the heap, and no class is declared. -/
structure Store.Grows (σ σ' : Store) : Prop where
  heap : σ.heap <+: σ'.heap
  classes : σ'.classes = σ.classes

/-- Cells and classes are added to a store. -/
structure Store.Extends (σ σ' : Store) : Prop where
  heap : σ.heap <+: σ'.heap
  classes : σ.classes <+: σ'.classes

namespace Store

variable {σ σ₁ σ₂ σ₃ : Store}

theorem Grows.refl (σ : Store) : σ.Grows σ := ⟨List.prefix_refl _, rfl⟩

theorem Grows.trans (h : σ₁.Grows σ₂) (h' : σ₂.Grows σ₃) : σ₁.Grows σ₃ :=
  ⟨h.heap.trans h'.heap, h'.classes.trans h.classes⟩

/-- A store that has grown has all objects of the old one. -/
theorem Grows.extends (h : σ₁.Grows σ₂) : σ₁.Extends σ₂ := ⟨h.heap, h.classes ▸ List.prefix_refl _⟩

theorem Extends.refl (σ : Store) : σ.Extends σ := ⟨List.prefix_refl _, List.prefix_refl _⟩

theorem Extends.trans (h : σ₁.Extends σ₂) (h' : σ₂.Extends σ₃) : σ₁.Extends σ₃ :=
  ⟨h.heap.trans h'.heap, h.classes.trans h'.classes⟩

end Store

theorem getElem?_extend {α : Type} {l l' : List α} (h : l <+: l') {i : Nat} {a : α}
    (hi : l[i]? = some a) :
    l'[i]? = some a := by
  obtain ⟨more, rfl⟩ := h
  rw [List.getElem?_append_left (List.getElem?_eq_some_iff.mp hi).1]
  exact hi

namespace Store.Extends

variable {σ σ' : Store} (h : σ.Extends σ')
include h

theorem class? {a : Nat} {cls : Class} (ha : σ.class? a = some cls) : σ'.class? a = some cls := by
  unfold Store.class? at ha ⊢
  split at ha
  next i hi =>
    rw [getElem?_extend h.heap hi]
    exact getElem?_extend h.classes ha
  next => cases ha

theorem field? {a j : Nat} {v : Value} (ha : σ.field? a j = some v) : σ'.field? a j = some v := by
  unfold Store.field? at ha ⊢
  split at ha
  next u hu =>
    rw [getElem?_extend h.heap hu]
    exact ha
  next => cases ha

end Store.Extends

/-! ### Values and types -/

/-- A value has a type. Function values are none of the values here. -/
inductive Value.HasTy (h : Hierarchy) (σ : Store) : Value → Ty → Prop
  | int {n : Int32} : HasTy h σ (.int n) .int
  | bool {b : Bool} : HasTy h σ (.bool b) .bool
  | boolInt {b : Bool} : HasTy h σ (.bool b) .int
  | null : HasTy h σ .null .null
  | nullRef {c : String} : HasTy h σ .null (.ref c)
  | object {a : Nat} {cls : Class} {c : String} (hclass : σ.class? a = some cls)
      (hbelow : h.Below cls.name c) :
    HasTy h σ (.object a) (.ref c)

namespace Value.HasTy

variable {h : Hierarchy} {σ σ' : Store} {v : Value} {t t' : Ty}

/-- A value keeps its type while objects are added. -/
theorem mono (hv : v.HasTy h σ t) (hσ : σ.Extends σ') : v.HasTy h σ' t := by
  cases hv with
  | int => exact .int
  | bool => exact .bool
  | boolInt => exact .boolInt
  | null => exact .null
  | nullRef => exact .nullRef
  | object hclass hbelow => exact .object (hσ.class? hclass) hbelow

/-- A value of a type is a value of every supertype. -/
theorem sub (hv : v.HasTy h σ t) (hsub : h.isSubtype t t') : v.HasTy h σ t' := by
  unfold Hierarchy.isSubtype at hsub
  cases hv with
  | int => cases t' <;> first | exact .int | simp [Hierarchy.fits] at hsub
  | bool => cases t' <;> first | exact .bool | exact .boolInt | simp [Hierarchy.fits] at hsub
  | boolInt => cases t' <;> first | exact .boolInt | simp [Hierarchy.fits] at hsub
  | null => cases t' <;> first | exact .null | exact .nullRef | simp [Hierarchy.fits] at hsub
  | nullRef => cases t' <;> first | exact .nullRef | simp [Hierarchy.fits] at hsub
  | object hclass hbelow =>
    cases t' with
    | ref d =>
      rw [Hierarchy.fits] at hsub
      exact .object hclass (hbelow.trans (Hierarchy.below_of_isSubclass hsub))
    | int | bool | null | arrow _ | method _ | cls _ => simp [Hierarchy.fits] at hsub

/-- The join of two types has the values of both. -/
theorem join {a b : Ty} (hjoin : h.join? a b = some t) (hv : v.HasTy h σ a ∨ v.HasTy h σ b) :
    v.HasTy h σ t := by
  have hleast := Hierarchy.isJoin_of_join? hjoin
  rcases hv with hv | hv
  · exact hv.sub hleast.left
  · exact hv.sub hleast.right

theorem number? (hv : v.HasTy h σ .int) : v.number? = some v.word := by
  cases hv <;> rfl

theorem exists_bool (hv : v.HasTy h σ .bool) : ∃ b, v = .bool b := by
  cases hv with
  | bool => exact ⟨_, rfl⟩

/-- An object of a class type has a class below it. -/
theorem exists_class {a : Nat} {c : String} (hv : (Value.object a).HasTy h σ (.ref c)) :
    ∃ cls, σ.class? a = some cls ∧ h.Below cls.name c := by
  cases hv with
  | object hclass hbelow => exact ⟨_, hclass, hbelow⟩

/-- No value has a function type: functions are not first-class here. -/
theorem isArrow (hv : v.HasTy h σ t) : t.isArrow = false := by
  cases hv <;> rfl

end Value.HasTy

/-! ### Subtypes as types of fewer values -/

/-- The values of the first type have the second type too. -/
def Ty.Sub (h : Hierarchy) (a b : Ty) : Prop :=
  ∀ (σ : Store) (v : Value), v.HasTy h σ a → v.HasTy h σ b

/-- Whatever is called by the second signature can be called by the first one. -/
def Signature.Sub (h : Hierarchy) (s t : Signature) : Prop :=
  List.Forall₂ (fun p q => Ty.Sub h q p) s.params t.params ∧ Ty.Sub h s.result t.result

namespace Hierarchy

variable {h : Hierarchy}

/-- The check for subtypes decides the order that evaluation goes by. -/
theorem sub_of_isSubtype {a b : Ty} (hsub : h.isSubtype a b) : Ty.Sub h a b :=
  fun _ _ hv => hv.sub hsub

theorem forall₂_of_fitAll : ∀ {ps qs : List Ty}, h.fitAll .contra ps qs →
    List.Forall₂ (fun p q => Ty.Sub h q p) ps qs
  | [], [], _ => .nil
  | [], _ :: _, hfit | _ :: _, [], hfit => by simp [fitAll] at hfit
  | p :: ps, q :: qs, hfit => by
    rw [fitAll, Bool.and_eq_true] at hfit
    refine .cons (sub_of_isSubtype ?_) (forall₂_of_fitAll hfit.2)
    rw [isSubtype, ← fits_flip]
    exact hfit.1

/-- The same of the types of methods. -/
theorem sub_of_isSubtype_method {s t : Signature} (hsub : h.isSubtype (.method s) (.method t)) :
    Signature.Sub h s t := by
  obtain ⟨ps, a⟩ := s
  obtain ⟨qs, b⟩ := t
  rw [isSubtype, fits, Bool.and_eq_true] at hsub
  exact ⟨forall₂_of_fitAll hsub.2, sub_of_isSubtype hsub.1⟩

end Hierarchy

/-- The order of types is transitive. -/
theorem Ty.Sub.trans {h : Hierarchy} (a b c : Ty) (hab : Ty.Sub h a b) (hbc : Ty.Sub h b c) :
    Ty.Sub h a c :=
  fun σ v hv => hbc σ v (hab σ v hv)

/-- So is the order of signatures. -/
theorem Signature.Sub.trans {h : Hierarchy} (s t u : Signature) (hst : Signature.Sub h s t)
    (htu : Signature.Sub h t u) : Signature.Sub h s u := by
  have hparams : ∀ {ps qs us : List Ty}, List.Forall₂ (fun p q => Ty.Sub h q p) ps qs →
      List.Forall₂ (fun p q => Ty.Sub h q p) qs us →
      List.Forall₂ (fun p q => Ty.Sub h q p) ps us := by
    intro ps qs us hpq
    induction hpq generalizing us with
    | nil => exact id
    | cons hp _ ih =>
      rintro (_ | ⟨hq, hqs⟩)
      exact .cons (Ty.Sub.trans _ _ _ hq hp) (ih hqs)
  exact ⟨hparams hst.1 htu.1, Ty.Sub.trans _ _ _ hst.2 htu.2⟩

/-- A subtype of something else than a function type is none either. -/
theorem Hierarchy.isArrow_of_isSubtype {h : Hierarchy} {a b : Ty} (hsub : h.isSubtype a b)
    (hb : b.isArrow = false) :
    a.isArrow = false := by
  cases a with
  | arrow sig =>
    cases b with
    | arrow => cases hb
    | int | bool | null | ref _ | method _ | cls _ =>
      simp [Hierarchy.isSubtype, Hierarchy.fits] at hsub
  | int | bool | null | ref _ | method _ | cls _ => rfl

end Stackling
