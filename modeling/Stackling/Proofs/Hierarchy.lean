import Mathlib.Data.List.Perm.Subperm
import Mathlib.Logic.Relation
import Stackling.Hierarchy.Subtype

/-!
# Subclasses and subtypes

The walk upwards from a class meets every class that links lead to, also where the links run in a
circle: what it has met is closed under links, or there are more classes on the way than links. So
subclasses are ordered, and with them the types, in both directions at once.
-/

namespace Stackling

namespace Hierarchy

variable {h : Hierarchy} {a b : Ty} {c d e : String}

/-! ### Classes above a class -/

/-- A class is another one or is below it. -/
def Below (h : Hierarchy) : String → String → Prop :=
  Relation.ReflTransGen fun c s => h.superclass? c = some s

theorem climb_succ_of_notMem {fuel : Nat} {seen : List String} (hs : h.superclass? c = some d)
    (hd : d ∉ seen) :
    h.climb (fuel + 1) seen c = d :: h.climb fuel (d :: seen) d := by
  rw [climb, hs]
  exact if_neg hd

/-- Only superclasses are met on the way up. -/
theorem below_of_mem_climb {fuel : Nat} {seen : List String} (hd : d ∈ h.climb fuel seen c) :
    h.Below c d := by
  induction fuel generalizing seen c with
  | zero => cases hd
  | succ fuel ih =>
    cases hs : h.superclass? c with
    | none =>
      rw [climb, hs] at hd
      cases hd
    | some s =>
      by_cases hseen : s ∈ seen
      · rw [climb, hs] at hd
        dsimp only at hd
        rw [if_pos hseen] at hd
        cases hd
      · rw [climb_succ_of_notMem hs hseen] at hd
        rcases List.mem_cons.mp hd with rfl | hd
        · exact .single hs
        · exact .head hs (ih hd)

/-- Different classes with a superclass are no more than the links. -/
theorem length_le_size {seen : List String} (hnodup : seen.Nodup)
    (hlinked : ∀ c ∈ seen, ∃ s, h.superclass? c = some s) : seen.length ≤ h.links.size := by
  rw [← Std.TreeMap.length_keys]
  refine (hnodup.subperm fun c hc => ?_).length_le
  obtain ⟨s, hs⟩ := hlinked c hc
  exact Std.TreeMap.mem_keys.mpr
    (Std.TreeMap.mem_iff_isSome_getElem?.mpr (Option.isSome_of_eq_some hs))

/-- The superclasses of all classes in the list are in it too, that of one class apart. -/
def ClosedUpTo (h : Hierarchy) (seen : List String) (c : String) : Prop :=
  ∀ x ∈ seen, x ≠ c → ∃ s ∈ seen, h.superclass? x = some s

namespace ClosedUpTo

variable {seen : List String} {x s t : String}

theorem mem (hseen : h.ClosedUpTo seen c) (hx : x ∈ seen) (hxc : x ≠ c)
    (hs : h.superclass? x = some s) : s ∈ seen := by
  obtain ⟨t, ht, hxt⟩ := hseen x hx hxc
  obtain rfl : s = t := Option.some.inj (hs.symm.trans hxt)
  exact ht

theorem cons (hseen : h.ClosedUpTo seen c) (ht : h.superclass? c = some t) :
    h.ClosedUpTo (t :: seen) t := by
  intro y hy hyt
  have hy : y ∈ seen := (List.mem_cons.mp hy).resolve_left hyt
  by_cases hyc : y = c
  · exact ⟨t, List.mem_cons_self, hyc ▸ ht⟩
  · obtain ⟨u, hu, hyu⟩ := hseen y hy hyc
    exact ⟨u, List.mem_cons_of_mem _ hu, hyu⟩

/-- If the one class has a superclass as well, there are no more classes than links. -/
theorem length_le (hseen : h.ClosedUpTo seen c) (hnodup : seen.Nodup)
    (hs : h.superclass? c = some s) :
    seen.length ≤ h.links.size := by
  refine length_le_size hnodup fun y hy => ?_
  by_cases hyc : y = c
  · exact ⟨s, hyc ▸ hs⟩
  · obtain ⟨t, -, ht⟩ := hseen y hy hyc
    exact ⟨t, ht⟩

end ClosedUpTo

/-- What the walk has met is closed under links, if it has enough fuel and what it had met was
closed up to the class where it stands. -/
theorem climb_closed {fuel : Nat} {seen : List String} (hnodup : seen.Nodup)
    (hseen : h.ClosedUpTo seen c) (hfuel : h.links.size < fuel + seen.length) {x s : String}
    (hx : x ∈ seen ∨ x ∈ h.climb fuel seen c) (hs : h.superclass? x = some s) :
    s ∈ seen ∨ s ∈ h.climb fuel seen c := by
  induction fuel generalizing seen c with
  | zero =>
    have hx : x ∈ seen := hx.resolve_right List.not_mem_nil
    refine .inl (hseen.mem hx ?_ hs)
    rintro rfl
    have hle := hseen.length_le hnodup hs
    omega
  | succ fuel ih =>
    by_cases hgo : ∃ t, h.superclass? c = some t ∧ t ∉ seen
    · obtain ⟨t, ht, htseen⟩ := hgo
      rw [climb_succ_of_notMem ht htseen] at hx ⊢
      have hmem : ∀ y, y ∈ seen ∨ y ∈ t :: h.climb fuel (t :: seen) t ↔
          y ∈ t :: seen ∨ y ∈ h.climb fuel (t :: seen) t := by
        intro y
        rw [List.mem_cons, List.mem_cons, or_left_comm, or_assoc]
      rw [hmem] at hx ⊢
      refine ih (List.nodup_cons.mpr ⟨htseen, hnodup⟩) (hseen.cons ht) ?_ hx
      rw [List.length_cons]
      omega
    · -- the walk ends here: the class has no superclass, or one that is met a second time
      have hnil : h.climb (fuel + 1) seen c = [] := by
        rw [climb]
        cases ht : h.superclass? c with
        | none => rfl
        | some t => exact if_pos (not_not.mp fun hne => hgo ⟨t, ht, hne⟩)
      rw [hnil] at hx
      have hx : x ∈ seen := hx.resolve_right List.not_mem_nil
      by_cases hxc : x = c
      · subst hxc
        exact .inl (not_not.mp fun hne => hgo ⟨s, hs, hne⟩)
      · exact .inl (hseen.mem hx hxc hs)

theorem isSubclass_iff_mem :
    h.isSubclass c d = true ↔ d ∈ [c] ∨ d ∈ h.climb h.links.size [c] c := by
  rw [isSubclass, Bool.or_eq_true, decide_eq_true_eq, decide_eq_true_eq, List.mem_singleton,
    eq_comm]
  exact Iff.rfl

/-- The check for subclasses, which stops at repetitions, decides the order of classes. -/
theorem isSubclass_iff : h.isSubclass c d = true ↔ h.Below c d := by
  rw [isSubclass_iff_mem]
  constructor
  · rintro (hd | hd)
    · cases List.mem_singleton.mp hd
      exact .refl
    · exact below_of_mem_climb hd
  · intro hbelow
    induction hbelow with
    | refl => exact .inl List.mem_cons_self
    | tail _ hs ih =>
      refine climb_closed (List.pairwise_singleton _ c) ?_ (Nat.lt_succ_self _) ih hs
      intro x hx hne
      exact absurd (List.mem_singleton.mp hx) hne

theorem below_of_isSubclass (hsub : h.isSubclass c d) : h.Below c d := isSubclass_iff.mp hsub

theorem isSubclass_refl (h : Hierarchy) (c : String) : h.isSubclass c c = true :=
  isSubclass_iff.mpr .refl

/-- Being a subclass is transitive, cycles or not. -/
theorem isSubclass_trans (hcd : h.isSubclass c d = true) (hde : h.isSubclass d e = true) :
    h.isSubclass c e = true :=
  isSubclass_iff.mpr ((isSubclass_iff.mp hcd).trans (isSubclass_iff.mp hde))

/-! ### Subtypes -/

theorem cells_of_fits {v : Variance} (hfits : h.fits v a b = true) : a.cells = b.cells := by
  cases a <;> cases b <;> first | rfl | (cases v <;> simp [fits] at hfits)

/-- A value takes as many cells at a supertype. -/
theorem cells_of_isSubtype (hsub : h.isSubtype a b = true) : a.cells = b.cells := cells_of_fits hsub

mutual

/-- Every type fits itself, in both directions. -/
theorem fits_refl (h : Hierarchy) : (v : Variance) → (a : Ty) → h.fits v a a = true
  | v, .int => by rw [fits]
  | v, .bool => by rw [fits]
  | v, .null => by rw [fits]
  | v, .ref c => by cases v <;> exact h.isSubclass_refl c
  | v, .arrow ⟨ps, r⟩ => by rw [fits, fits_refl h v r, fitAll_refl h v.flip ps, Bool.and_self]
  | v, .method ⟨ps, r⟩ => by rw [fits, fits_refl h v r, fitAll_refl h v.flip ps, Bool.and_self]
  | v, .cls c => by rw [fits, decide_eq_true_iff]

theorem fitAll_refl (h : Hierarchy) : (v : Variance) → (as : List Ty) → h.fitAll v as as = true
  | _, [] => rfl
  | v, a :: as => by rw [fitAll, fits_refl h v a, fitAll_refl h v as, Bool.and_self]

end

theorem isSubtype_refl (h : Hierarchy) (a : Ty) : h.isSubtype a a = true := h.fits_refl .co a

mutual

/-- The parameters of functions turn the direction around, so the statement is for both. -/
theorem fits_trans (h : Hierarchy) :
    (v : Variance) → (a b c : Ty) → h.fits v a b = true → h.fits v b c = true → h.fits v a c = true
  | v, .int, b, c => by cases v <;> cases b <;> cases c <;> simp [fits]
  | v, .bool, b, c => by cases v <;> cases b <;> cases c <;> simp [fits]
  | v, .null, b, c => by cases v <;> cases b <;> cases c <;> simp [fits]
  | v, .ref x, b, c => by
    intro hab hbc
    cases v with
    | co =>
      cases b with
      | ref y =>
        cases c with
        | ref z => exact isSubclass_trans hab hbc
        | int | bool | null | arrow | method | cls => simp [fits] at hbc
      | int | bool | null | arrow | method | cls => simp [fits] at hab
    | contra =>
      cases b with
      | ref y =>
        cases c with
        | ref z => exact isSubclass_trans hbc hab
        | null => rw [fits]
        | int | bool | arrow | method | cls => simp [fits] at hbc
      | null => cases c <;> simp [fits] at hbc ⊢
      | int | bool | arrow | method | cls => simp [fits] at hab
  | v, .arrow ⟨ps, r⟩, b, c => by
    intro hab hbc
    rcases b with _ | _ | _ | _ | ⟨qs, s⟩ | _ | _
    case arrow =>
      rcases c with _ | _ | _ | _ | ⟨us, t⟩ | _ | _
      case arrow =>
        rw [fits, Bool.and_eq_true] at hab hbc ⊢
        exact ⟨fits_trans h v r s t hab.1 hbc.1, fitAll_trans h v.flip ps qs us hab.2 hbc.2⟩
      all_goals simp [fits] at hbc
    all_goals simp [fits] at hab
  | v, .method ⟨ps, r⟩, b, c => by
    intro hab hbc
    rcases b with _ | _ | _ | _ | _ | ⟨qs, s⟩ | _
    case method =>
      rcases c with _ | _ | _ | _ | _ | ⟨us, t⟩ | _
      case method =>
        rw [fits, Bool.and_eq_true] at hab hbc ⊢
        exact ⟨fits_trans h v r s t hab.1 hbc.1, fitAll_trans h v.flip ps qs us hab.2 hbc.2⟩
      all_goals simp [fits] at hbc
    all_goals simp [fits] at hab
  | v, .cls x, b, c => by
    intro hab hbc
    cases b with
    | cls y =>
      rw [fits, decide_eq_true_iff] at hab
      exact hab ▸ hbc
    | int | bool | null | ref | arrow | method => simp [fits] at hab

/-- Lists of types fit transitively, in both directions. -/
theorem fitAll_trans (h : Hierarchy) :
    (v : Variance) → (as bs cs : List Ty) → h.fitAll v as bs = true →
    h.fitAll v bs cs = true → h.fitAll v as cs = true
  | _, [], [], _ => fun _ hbc => hbc
  | _, [], _ :: _, _ => fun hab _ => by simp [fitAll] at hab
  | _, _ :: _, [], _ => fun hab _ => by simp [fitAll] at hab
  | _, _ :: _, _ :: _, [] => fun _ hbc => by simp [fitAll] at hbc
  | v, a :: as, b :: bs, c :: cs => fun hab hbc => by
    rw [fitAll, Bool.and_eq_true] at hab hbc ⊢
    exact ⟨fits_trans h v a b c hab.1 hbc.1, fitAll_trans h v as bs cs hab.2 hbc.2⟩

end

/-- Being a subtype is transitive. -/
theorem isSubtype_trans {a b c : Ty} (hab : h.isSubtype a b = true) (hbc : h.isSubtype b c = true) :
    h.isSubtype a c = true :=
  h.fits_trans .co a b c hab hbc

end Hierarchy

end Stackling
