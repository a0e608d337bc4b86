import Stackling.Hierarchy.Join
import Stackling.Proofs.Subtyping

/-!
# Joins are least upper bounds

What a choice between two values has for a type is above both of their types and below every other
type that is. Classes are looked for upwards from the first of the two only, but all classes that
are above the first one lie on one way, so that it makes no difference which of the two is taken
first.
-/

namespace Stackling.Hierarchy

variable {h : Hierarchy} {c d e : String}

/-! ### Classes -/

/-- A class above two classes that is below all others above them. -/
structure IsJoinClass (h : Hierarchy) (c d e : String) : Prop where
  left : h.Below c e
  right : h.Below d e
  least : ∀ f, h.Below c f → h.Below d f → h.Below e f

/-- The walk upwards meets the nearer classes first. -/
theorem pairwise_below_climb (fuel : Nat) (seen : List String) (c : String) :
    (h.climb fuel seen c).Pairwise h.Below := by
  induction fuel generalizing seen c with
  | zero => exact .nil
  | succ fuel ih =>
    rw [climb]
    cases h.superclass? c with
    | none => exact .nil
    | some s =>
      dsimp only
      split
      · exact .nil
      · exact .cons (fun d hd => below_of_mem_climb hd) (ih _ _)

/-- Every superclass of a class is among its ancestors. -/
theorem eq_or_mem_ancestors_of_below (hcd : h.Below c d) : d = c ∨ d ∈ h.ancestors c :=
  (isSubclass_iff_mem.mp (isSubclass_iff.mpr hcd)).imp_left List.mem_singleton.mp

/-- The class that is found is the least one above both. -/
theorem isJoinClass_of_joinClass? (hjoin : h.joinClass? c d = some e) : h.IsJoinClass c d e := by
  unfold joinClass? at hjoin
  split at hjoin
  · rename_i hdc
    cases hjoin
    exact ⟨.refl, isSubclass_iff.mp hdc, fun _ hc _ => hc⟩
  · rename_i hdc
    split at hjoin
    · rename_i hcd
      cases hjoin
      exact ⟨isSubclass_iff.mp hcd, .refl, fun _ _ hd => hd⟩
    · obtain ⟨hde, nearer, further, hsplit, hnearer⟩ := List.find?_eq_some_iff_append.mp hjoin
      have hmem : e ∈ h.ancestors c := by
        rw [hsplit]
        exact List.mem_append_right _ List.mem_cons_self
      refine ⟨below_of_mem_climb hmem, isSubclass_iff.mp hde, fun f hcf hdf => ?_⟩
      -- a class that is above both stands on the walk, and not before the first such class
      rcases eq_or_mem_ancestors_of_below hcf with rfl | hf
      · exact absurd (isSubclass_iff.mpr hdf) hdc
      · have hpairwise := pairwise_below_climb (h := h) h.links.size [c] c
        rw [← ancestors, hsplit] at hpairwise
        rw [hsplit] at hf
        rcases List.mem_append.mp hf with hf | hf
        · have hnot := hnearer f hf
          rw [isSubclass_iff.mpr hdf] at hnot
          cases hnot
        · rcases List.mem_cons.mp hf with rfl | hf
          · exact .refl
          · exact List.rel_of_pairwise_cons (List.pairwise_append.mp hpairwise).2.1 hf

/-- There is a join if there is any class above both. -/
theorem isSome_joinClass? (hc : h.Below c e) (hd : h.Below d e) : (h.joinClass? c d).isSome := by
  unfold joinClass?
  split
  · rfl
  · rename_i hdc
    split
    · rfl
    · rcases eq_or_mem_ancestors_of_below hc with rfl | he
      · exact absurd (isSubclass_iff.mpr hd) hdc
      · exact List.find?_isSome.mpr ⟨e, he, isSubclass_iff.mpr hd⟩

/-- Whether two classes have a join does not depend on their order. -/
theorem isSome_joinClass?_swap (hsome : (h.joinClass? c d).isSome) : (h.joinClass? d c).isSome := by
  obtain ⟨e, he⟩ := Option.isSome_iff_exists.mp hsome
  have hjoin := isJoinClass_of_joinClass? he
  exact isSome_joinClass? hjoin.right hjoin.left

/-! ### Types above a type -/

variable {a b r u : Ty} {ps qs ms us : List Ty}

theorem isSubtype_null_iff : h.isSubtype .null u = true ↔ u = .null ∨ ∃ d, u = .ref d := by
  cases u <;> simp [isSubtype, fits]

theorem isSubtype_ref_iff : h.isSubtype (.ref c) u = true ↔ ∃ d, u = .ref d ∧ h.Below c d := by
  cases u <;> simp [isSubtype, fits, isSubclass_iff]

theorem isSubtype_arrow_iff : h.isSubtype (.arrow ⟨ps, r⟩) u = true ↔
    ∃ qs s, u = .arrow ⟨qs, s⟩ ∧ h.isSubtype r s = true ∧ h.fitAll .contra ps qs = true := by
  rcases u with _ | _ | _ | _ | ⟨qs, s⟩ | _ | _ <;> simp [isSubtype, fits, Variance.flip]

/-! ### Parameters -/

/-- The narrower of two types is one of them, and it fits the other one. -/
theorem narrower?_eq_some {m : Ty} (hm : h.narrower? a b = some m) :
    m = a ∧ h.isSubtype a b = true ∨ m = b ∧ h.isSubtype b a = true := by
  unfold narrower? at hm
  split at hm
  · rename_i hab
    cases hm
    exact .inl ⟨rfl, hab⟩
  · split at hm
    · rename_i hba
      cases hm
      exact .inr ⟨rfl, hba⟩
    · cases hm

/-- Two types have a narrower one exactly if one fits the other. -/
theorem isSome_narrower? :
    (h.narrower? a b).isSome ↔ h.isSubtype a b = true ∨ h.isSubtype b a = true := by
  unfold narrower?
  split
  · simp [*]
  · split <;> simp [*]

theorem isSome_narrower?_swap (hsome : (h.narrower? a b).isSome) : (h.narrower? b a).isSome :=
  isSome_narrower?.mpr (isSome_narrower?.mp hsome).symm

theorem fits_contra : h.fits .contra a b = h.isSubtype b a := h.fits_flip .co a b

/-- The narrower of two types is the wider one when types are compared the other way round. -/
theorem fits_narrower? {m : Ty} (hm : h.narrower? a b = some m) :
    h.fits .contra a m = true ∧ h.fits .contra b m = true ∧
      ∀ u, h.fits .contra a u = true → h.fits .contra b u = true → h.fits .contra m u = true := by
  rcases narrower?_eq_some hm with ⟨rfl, hab⟩ | ⟨rfl, hba⟩
  · exact ⟨h.fits_refl _ _, fits_contra.trans hab, fun _ hu _ => hu⟩
  · exact ⟨fits_contra.trans hba, h.fits_refl _ _, fun _ _ hu => hu⟩

/-- The narrower types are the greatest ones below both lists, place by place. -/
theorem fitAll_narrowerAll? (hms : h.narrowerAll? ps qs = some ms) :
    h.fitAll .contra ps ms = true ∧ h.fitAll .contra qs ms = true ∧
      ∀ us, h.fitAll .contra ps us = true → h.fitAll .contra qs us = true →
        h.fitAll .contra ms us = true := by
  fun_induction h.narrowerAll? ps qs generalizing ms with
  | case1 =>
    cases hms
    exact ⟨rfl, rfl, fun _ hus _ => hus⟩
  | case2 p ps q qs ih =>
    simp only [Option.bind_eq_bind, Option.bind_eq_some_iff, Option.pure_def, Option.some.injEq]
      at hms
    obtain ⟨m, hm, ms, hrest, rfl⟩ := hms
    obtain ⟨hp, hq, hleast⟩ := fits_narrower? hm
    obtain ⟨hps, hqs, hleasts⟩ := ih hrest
    simp only [fitAll, hp, hq, hps, hqs, Bool.and_self, true_and]
    intro us hpus hqus
    cases us with
    | nil => simp [fitAll] at hpus
    | cons u us =>
      rw [fitAll, Bool.and_eq_true] at hpus hqus ⊢
      exact ⟨hleast u hpus.1 hqus.1, hleasts us hpus.2 hqus.2⟩
  | case3 => cases hms

theorem isSome_narrowerAll?_swap (hsome : (h.narrowerAll? ps qs).isSome) :
    (h.narrowerAll? qs ps).isSome := by
  fun_induction h.narrowerAll? ps qs with
  | case1 => rfl
  | case2 p ps q qs ih =>
    simp only [Option.isSome_iff_exists, Option.bind_eq_bind, Option.bind_eq_some_iff] at hsome
    obtain ⟨_, m, hm, ms, hrest, -⟩ := hsome
    obtain ⟨m', hm'⟩ :=
      Option.isSome_iff_exists.mp (isSome_narrower?_swap (Option.isSome_of_eq_some hm))
    obtain ⟨ms', hrest'⟩ := Option.isSome_iff_exists.mp (ih (Option.isSome_of_eq_some hrest))
    simp [narrowerAll?, hm', hrest']
  | case3 => cases hsome

/-! ### Joins of types -/

/-- A type above two types that is below all others above them. -/
structure IsJoin (h : Hierarchy) (a b r : Ty) : Prop where
  left : h.isSubtype a r = true
  right : h.isSubtype b r = true
  least : ∀ u, h.isSubtype a u = true → h.isSubtype b u = true → h.isSubtype r u = true

namespace IsJoin

/-- The join of a type and a supertype is the supertype. -/
theorem of_isSubtype (hab : h.isSubtype a b = true) : h.IsJoin a b b :=
  ⟨hab, h.isSubtype_refl b, fun _ _ hb => hb⟩

/-- Joins do not depend on the order of the two types. -/
theorem symm (hr : h.IsJoin a b r) : h.IsJoin b a r :=
  ⟨hr.right, hr.left, fun u hb ha => hr.least u ha hb⟩

/-- Two joins of the same types are equivalent. -/
theorem isSubtype {s : Ty} (hr : h.IsJoin a b r) (hs : h.IsJoin a b s) : h.isSubtype r s = true :=
  hr.least s hs.left hs.right

/-- The join of two classes is the class above them. -/
theorem ref (hjoin : h.IsJoinClass c d e) : h.IsJoin (.ref c) (.ref d) (.ref e) where
  left := isSubtype_ref_iff.mpr ⟨e, rfl, hjoin.left⟩
  right := isSubtype_ref_iff.mpr ⟨e, rfl, hjoin.right⟩
  least := by
    intro u hc hd
    obtain ⟨f, rfl, hcf⟩ := isSubtype_ref_iff.mp hc
    obtain ⟨_, ⟨⟩, hdf⟩ := isSubtype_ref_iff.mp hd
    exact isSubtype_ref_iff.mpr ⟨f, rfl, hjoin.least f hcf hdf⟩

/-- The join of two function types takes the join of the results and the narrower parameters. -/
theorem arrow (hr : h.IsJoin a b r) (hms : h.narrowerAll? ps qs = some ms) :
    h.IsJoin (.arrow ⟨ps, a⟩) (.arrow ⟨qs, b⟩) (.arrow ⟨ms, r⟩) := by
  obtain ⟨hps, hqs, hleast⟩ := fitAll_narrowerAll? hms
  refine ⟨isSubtype_arrow_iff.mpr ⟨ms, r, rfl, hr.left, hps⟩,
    isSubtype_arrow_iff.mpr ⟨ms, r, rfl, hr.right, hqs⟩, ?_⟩
  intro u ha hb
  obtain ⟨us, t, rfl, hat, hpus⟩ := isSubtype_arrow_iff.mp ha
  obtain ⟨_, _, ⟨⟩, hbt, hqus⟩ := isSubtype_arrow_iff.mp hb
  exact isSubtype_arrow_iff.mpr ⟨us, t, rfl, hr.least t hat hbt, hleast us hpus hqus⟩

end IsJoin

/-- The type that is found is the least one above both. -/
theorem isJoin_of_join? (hjoin : h.join? a b = some r) : h.IsJoin a b r := by
  fun_induction h.join? a b generalizing r with
  | case1 c =>
    cases hjoin
    exact .of_isSubtype (isSubtype_null_iff.mpr (.inr ⟨c, rfl⟩))
  | case2 c =>
    cases hjoin
    exact (IsJoin.of_isSubtype (isSubtype_null_iff.mpr (.inr ⟨c, rfl⟩))).symm
  | case3 =>
    cases hjoin
    exact .of_isSubtype rfl
  | case4 =>
    cases hjoin
    exact (IsJoin.of_isSubtype rfl).symm
  | case5 =>
    cases hjoin
    exact .of_isSubtype rfl
  | case6 =>
    cases hjoin
    exact .of_isSubtype rfl
  | case7 c d =>
    obtain ⟨e, he, rfl⟩ := Option.map_eq_some_iff.mp hjoin
    exact .ref (isJoinClass_of_joinClass? he)
  | case8 ps r qs s ih =>
    simp only [Option.bind_eq_bind, Option.bind_eq_some_iff, Option.pure_def, Option.some.injEq]
      at hjoin
    obtain ⟨t, ht, ms, hms, rfl⟩ := hjoin
    exact (ih ht).arrow hms
  | case9 => cases hjoin

/-- Whether two types have a join does not depend on their order. -/
theorem isSome_join?_swap (hsome : (h.join? a b).isSome) : (h.join? b a).isSome := by
  fun_induction h.join? a b with
  | case1 | case2 | case3 | case4 | case5 | case6 => rfl
  | case7 c d =>
    rw [join?, Option.isSome_map]
    exact isSome_joinClass?_swap (Option.isSome_map ▸ hsome)
  | case8 ps r qs s ih =>
    simp only [Option.isSome_iff_exists, Option.bind_eq_bind, Option.bind_eq_some_iff] at hsome
    obtain ⟨_, t, ht, ms, hms, -⟩ := hsome
    obtain ⟨t', ht'⟩ := Option.isSome_iff_exists.mp (ih (Option.isSome_of_eq_some ht))
    obtain ⟨ms', hms'⟩ :=
      Option.isSome_iff_exists.mp (isSome_narrowerAll?_swap (Option.isSome_of_eq_some hms))
    simp [join?, ht', hms']
  | case9 => cases hsome

/-- Joins are least upper bounds, and which of the two types is first makes no difference: not
whether there is a join, nor which one it is up to classes that are below each other. -/
theorem joins_least (h : Hierarchy) (a b : Ty) :
    (∀ r, h.join? a b = some r → h.IsJoin a b r) ∧
    ((h.join? b a).isSome ↔ (h.join? a b).isSome) ∧
    ∀ r s, h.join? a b = some r → h.join? b a = some s →
      h.isSubtype r s = true ∧ h.isSubtype s r = true ∧ (h.Acyclic → r = s) := by
  refine ⟨fun r => isJoin_of_join?, ⟨isSome_join?_swap, isSome_join?_swap⟩, fun r s hr hs => ?_⟩
  have hrs := (isJoin_of_join? hr).isSubtype (isJoin_of_join? hs).symm
  have hsr := (isJoin_of_join? hs).isSubtype (isJoin_of_join? hr).symm
  exact ⟨hrs, hsr, fun hacyclic => isSubtype_antisymm hacyclic hrs hsr⟩

theorem joins_least_kinds :
    kinds.IsJoin (.arrow ⟨[.ref "Shape"], .ref "Square"⟩) (.arrow ⟨[.ref "Disc"], .ref "Disc"⟩)
      (.arrow ⟨[.ref "Disc"], .ref "Shape"⟩) ∧
    kinds.Acyclic ∧
    kinds.join? (.arrow ⟨[.ref "Disc"], .ref "Disc"⟩) (.arrow ⟨[.ref "Shape"], .ref "Square"⟩) =
      some (.arrow ⟨[.ref "Disc"], .ref "Shape"⟩) := by
  have hjoin : kinds.join? (.arrow ⟨[.ref "Shape"], .ref "Square"⟩)
      (.arrow ⟨[.ref "Disc"], .ref "Disc"⟩) = some (.arrow ⟨[.ref "Disc"], .ref "Shape"⟩) := by
    decide +kernel
  obtain ⟨hleast, hsome, hequal⟩ := joins_least kinds (.arrow ⟨[.ref "Shape"], .ref "Square"⟩)
    (.arrow ⟨[.ref "Disc"], .ref "Disc"⟩)
  refine ⟨hleast _ hjoin, acyclic_kinds, ?_⟩
  obtain ⟨s, hs⟩ := Option.isSome_iff_exists.mp (hsome.mpr (Option.isSome_of_eq_some hjoin))
  obtain ⟨-, -, heq⟩ := hequal _ s hjoin hs
  rw [hs, heq acyclic_kinds]

-- in a circle the join depends on the order
example : circle.join? (.ref "X") (.ref "Y") = some (.ref "X") ∧
    circle.join? (.ref "Y") (.ref "X") = some (.ref "Y") := by
  decide +kernel

end Stackling.Hierarchy
