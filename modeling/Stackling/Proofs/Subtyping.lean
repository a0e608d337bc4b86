import Stackling.Proofs.Hierarchy

/-!
# Subtypes are ordered

Every type is a subtype of itself and subtypes compose, also where the links between classes run in
a circle. If they do not, two types that are subtypes of each other are the same: function types
compare their parameters the other way round, so that the two directions exchange roles on the way
down and the statement is for both.
-/

namespace Stackling.Hierarchy

variable {h : Hierarchy} {c d : String}

/-! ### Hierarchies without circles -/

/-- No class is above itself. -/
def Acyclic (h : Hierarchy) : Prop :=
  ∀ c, ¬Relation.TransGen (fun c s => h.superclass? c = some s) c c

/-- It is enough that classes can be ranked so that links go down. -/
theorem acyclic_of_rank (rank : String → Nat)
    (hrank : ∀ c s, h.superclass? c = some s → rank s < rank c) :
    h.Acyclic := by
  have hdown {c d : String} (hcd : Relation.TransGen (fun c s => h.superclass? c = some s) c d) :
      rank d < rank c := by
    induction hcd with
    | single hs => exact hrank _ _ hs
    | tail _ hs ih => exact Nat.lt_trans (hrank _ _ hs) ih
  intro c hc
  exact Nat.lt_irrefl _ (hdown hc)

theorem Acyclic.below_antisymm (hacyclic : h.Acyclic) (hcd : h.Below c d) (hdc : h.Below d c) :
    c = d := by
  rcases Relation.reflTransGen_iff_eq_or_transGen.mp hcd with heq | hcd
  · exact heq.symm
  · exact absurd (hcd.trans_left hdc) (hacyclic c)

/-! ### Antisymmetry -/

theorem below_of_fits_ref {v : Variance} (hcd : h.fits v (.ref c) (.ref d) = true)
    (hdc : h.fits v (.ref d) (.ref c) = true) : h.Below c d ∧ h.Below d c := by
  cases v with
  | co => exact ⟨isSubclass_iff.mp hcd, isSubclass_iff.mp hdc⟩
  | contra => exact ⟨isSubclass_iff.mp hdc, isSubclass_iff.mp hcd⟩

mutual

theorem fits_antisymm (hacyclic : h.Acyclic) : (v : Variance) → (a b : Ty) → h.fits v a b = true →
    h.fits v b a = true → a = b
  | v, .int, b => by cases v <;> cases b <;> simp [fits]
  | v, .bool, b => by cases v <;> cases b <;> simp [fits]
  | v, .null, b => by cases v <;> cases b <;> simp [fits]
  | v, .ref c, b => by
    intro hab hba
    cases b with
    | ref d =>
      obtain ⟨hcd, hdc⟩ := below_of_fits_ref hab hba
      rw [hacyclic.below_antisymm hcd hdc]
    | null => cases v <;> simp [fits] at hab hba
    | int | bool | arrow | method | cls => simp [fits] at hab
  | v, .arrow ⟨ps, r⟩, b => by
    intro hab hba
    rcases b with _ | _ | _ | _ | ⟨qs, s⟩ | _ | _
    case arrow =>
      rw [fits, Bool.and_eq_true] at hab hba
      rw [fits_antisymm hacyclic v r s hab.1 hba.1,
        fitAll_antisymm hacyclic v.flip ps qs hab.2 hba.2]
    all_goals simp [fits] at hab
  | v, .method ⟨ps, r⟩, b => by
    intro hab hba
    rcases b with _ | _ | _ | _ | _ | ⟨qs, s⟩ | _
    case method =>
      rw [fits, Bool.and_eq_true] at hab hba
      rw [fits_antisymm hacyclic v r s hab.1 hba.1,
        fitAll_antisymm hacyclic v.flip ps qs hab.2 hba.2]
    all_goals simp [fits] at hab
  | v, .cls x, b => by
    intro hab _
    cases b with
    | cls y =>
      rw [fits, decide_eq_true_iff] at hab
      rw [hab]
    | int | bool | null | ref | arrow | method => simp [fits] at hab

theorem fitAll_antisymm (hacyclic : h.Acyclic) :
    (v : Variance) → (as bs : List Ty) → h.fitAll v as bs = true → h.fitAll v bs as = true → as = bs
  | _, [], [] => fun _ _ => rfl
  | _, [], _ :: _ => fun hab _ => by simp [fitAll] at hab
  | _, _ :: _, [] => fun hab _ => by simp [fitAll] at hab
  | v, a :: as, b :: bs => fun hab hba => by
    rw [fitAll, Bool.and_eq_true] at hab hba
    rw [fits_antisymm hacyclic v a b hab.1 hba.1, fitAll_antisymm hacyclic v as bs hab.2 hba.2]

end

theorem isSubtype_antisymm {a b : Ty} (hacyclic : h.Acyclic) (hab : h.isSubtype a b = true)
    (hba : h.isSubtype b a = true) : a = b :=
  fits_antisymm hacyclic .co a b hab hba

/-- Subtyping is a preorder for every hierarchy, and a partial order if no class is above itself. -/
theorem subtypes_ordered (h : Hierarchy) :
    (∀ a, h.isSubtype a a = true) ∧
    (∀ a b c, h.isSubtype a b = true → h.isSubtype b c = true → h.isSubtype a c = true) ∧
    (h.Acyclic → ∀ a b, h.isSubtype a b = true → h.isSubtype b a = true → a = b) :=
  ⟨h.isSubtype_refl, fun _ _ _ => isSubtype_trans, fun hacyclic _ _ => isSubtype_antisymm hacyclic⟩

/-- Two classes below one. -/
def kinds : Hierarchy := (add {} "Square" "Shape").add "Disc" "Shape"

theorem acyclic_kinds : kinds.Acyclic := by
  refine acyclic_of_rank (fun c => if c = "Shape" then 0 else 1) fun c s hs => ?_
  simp only [superclass?, kinds, add, Std.TreeMap.getElem?_insert,
    Std.LawfulEqCmp.compare_eq_iff_eq] at hs
  split at hs
  · next hc =>
    cases hs
    subst hc
    decide
  · split at hs
    · next hc =>
      cases hs
      subst hc
      decide
    · simp at hs

theorem subtypes_ordered_kinds :
    kinds.Acyclic ∧ kinds.isSubtype .null (.ref "Shape") = true ∧
      kinds.isSubtype (.arrow ⟨[.ref "Shape"], .ref "Square"⟩)
        (.arrow ⟨[.ref "Square"], .ref "Shape"⟩) = true ∧
      ∀ a b, kinds.isSubtype a b = true → kinds.isSubtype b a = true → a = b := by
  obtain ⟨-, htrans, hantisymm⟩ := subtypes_ordered kinds
  refine ⟨acyclic_kinds, ?_, by decide +kernel, hantisymm acyclic_kinds⟩
  exact htrans .null (.ref "Square") (.ref "Shape") (by decide +kernel) (by decide +kernel)

/-- Two classes below each other. -/
def circle : Hierarchy := (add {} "X" "Y").add "Y" "X"

example : circle.isSubtype (.ref "X") (.ref "Y") = true ∧
    circle.isSubtype (.ref "Y") (.ref "X") = true := by
  decide +kernel

end Stackling.Hierarchy
