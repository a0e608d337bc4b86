import Stackling.Proofs.Joins

/-!
# Joins exist where upper bounds do

On the types of functions that take no functions, a choice between two values is refused only if no
such type is above the types of both. For the parameters of two functions the narrower one is taken,
place by place. Nothing is missed by that: two classes with a common class below them are on one way
upwards, circle or not, so one is below the other.
-/

namespace Stackling

/-- Types of values that are no functions, as far as they can be written. -/
def Ty.isGround : Ty → Bool
  | .int | .bool | .ref _ => true
  | .null | .arrow _ | .method _ | .cls _ => false

/-- Types of values in which functions take no functions, though they may return them. -/
def Ty.isFirstOrder : Ty → Bool
  | .int | .bool | .ref _ => true
  | .arrow ⟨ps, r⟩ => ps.all Ty.isGround && r.isFirstOrder
  | .null | .method _ | .cls _ => false

namespace Hierarchy

variable {h : Hierarchy} {c d e : String} {a b m u : Ty} {ps qs ms us : List Ty}

/-- Links lead from a class to one class only, so all classes above it are on one way. -/
theorem Below.comparable (hc : h.Below e c) (hd : h.Below e d) : h.Below c d ∨ h.Below d c :=
  Relation.ReflTransGen.total_of_right_unique
    (fun _ _ _ hs ht => Option.some.inj (hs.symm.trans ht)) hc hd

/-! ### Parameters -/

/-- Types that are above one ground type are related. -/
theorem isSubtype_or_of_isGround (hu : u.isGround) (hua : h.isSubtype u a = true)
    (hub : h.isSubtype u b = true) :
    h.isSubtype a b = true ∨ h.isSubtype b a = true := by
  cases u with
  | int => cases a <;> cases b <;> simp [isSubtype, fits] at hua hub ⊢
  | bool => cases a <;> cases b <;> simp [isSubtype, fits] at hua hub ⊢
  | ref e =>
    obtain ⟨c, rfl, hc⟩ := isSubtype_ref_iff.mp hua
    obtain ⟨d, rfl, hd⟩ := isSubtype_ref_iff.mp hub
    refine (hc.comparable hd).imp (fun hcd => ?_) fun hdc => ?_
    · exact isSubtype_ref_iff.mpr ⟨d, rfl, hcd⟩
    · exact isSubtype_ref_iff.mpr ⟨c, rfl, hdc⟩
  | null | arrow | method | cls => cases hu

theorem isSome_narrowerAll? (hground : us.all Ty.isGround) (hps : h.fitAll .contra ps us = true)
    (hqs : h.fitAll .contra qs us = true) : (h.narrowerAll? ps qs).isSome := by
  induction us generalizing ps qs with
  | nil =>
    cases ps with
    | cons => cases hps
    | nil =>
      cases qs with
      | cons => cases hqs
      | nil => rfl
  | cons u us ih =>
    cases ps with
    | nil => cases hps
    | cons p ps =>
      cases qs with
      | nil => cases hqs
      | cons q qs =>
        rw [fitAll, Bool.and_eq_true, fits_contra] at hps hqs
        rw [List.all_cons, Bool.and_eq_true] at hground
        have hsome := isSome_narrower?.mpr (isSubtype_or_of_isGround hground.1 hps.1 hqs.1)
        obtain ⟨m, hm⟩ := Option.isSome_iff_exists.mp hsome
        obtain ⟨ms, hms⟩ := Option.isSome_iff_exists.mp (ih hground.2 hps.2 hqs.2)
        rw [narrowerAll?, hm, hms]
        rfl

/-- What holds of both types of a place holds of the narrower one. -/
theorem of_narrower? {P : Ty → Prop} (ha : P a) (hb : P b) (hm : h.narrower? a b = some m) :
    P m := by
  rcases narrower?_eq_some hm with ⟨rfl, -⟩ | ⟨rfl, -⟩
  · exact ha
  · exact hb

theorem forall_mem_narrowerAll? {P : Ty → Prop} (hps : ∀ p ∈ ps, P p) (hqs : ∀ q ∈ qs, P q)
    (hms : h.narrowerAll? ps qs = some ms) : ∀ m ∈ ms, P m := by
  fun_induction h.narrowerAll? ps qs generalizing ms with
  | case1 =>
    cases hms
    exact List.forall_mem_nil _
  | case2 p ps q qs ih =>
    simp only [Option.bind_eq_bind, Option.bind_eq_some_iff, Option.pure_def, Option.some.injEq]
      at hms
    obtain ⟨m, hm, ms, hrest, rfl⟩ := hms
    rw [List.forall_mem_cons] at hps hqs ⊢
    exact ⟨of_narrower? hps.1 hqs.1 hm, ih hps.2 hqs.2 hrest⟩
  | case3 => cases hms

theorem isGround_of_narrowerAll? (hps : ps.all Ty.isGround) (hqs : qs.all Ty.isGround)
    (hms : h.narrowerAll? ps qs = some ms) : ms.all Ty.isGround := by
  rw [List.all_eq_true] at hps hqs ⊢
  exact forall_mem_narrowerAll? hps hqs hms

/-! ### Types -/

theorem isFirstOrder_arrow {ps : List Ty} {r : Ty} :
    (Ty.arrow ⟨ps, r⟩).isFirstOrder = true ↔ ps.all Ty.isGround = true ∧ r.isFirstOrder = true := by
  rw [Ty.isFirstOrder, Bool.and_eq_true]

theorem isFirstOrder_of_join? (ha : a.isFirstOrder) (hb : b.isFirstOrder)
    (hjoin : h.join? a b = some m) :
    m.isFirstOrder := by
  fun_induction h.join? a b generalizing m with
  | case1 | case2 | case3 | case4 | case5 | case6 =>
    cases hjoin
    rfl
  | case7 c d =>
    obtain ⟨e, -, rfl⟩ := Option.map_eq_some_iff.mp hjoin
    rfl
  | case8 ps r qs s ih =>
    simp only [Option.bind_eq_bind, Option.bind_eq_some_iff, Option.pure_def, Option.some.injEq]
      at hjoin
    obtain ⟨t, ht, ms, hms, rfl⟩ := hjoin
    rw [isFirstOrder_arrow] at ha hb ⊢
    exact ⟨isGround_of_narrowerAll? ha.1 hb.1 hms, ih ha.2 hb.2 ht⟩
  | case9 => cases hjoin

theorem isSubtype_int_iff : h.isSubtype a .int = true ↔ a = .int ∨ a = .bool := by
  cases a <;> simp [isSubtype, fits]

theorem eq_int_of_isSubtype (hint : h.isSubtype .int u = true) : u = .int := by
  cases u <;> simp [isSubtype, fits] at hint ⊢

theorem isSubtype_int_of_bool (hbool : h.isSubtype .bool u = true) : h.isSubtype u .int = true := by
  cases u <;> simp [isSubtype, fits] at hbool ⊢

theorem isSome_join?_of_isSubtype_int (ha : a = .int ∨ a = .bool) (hb : h.isSubtype b .int = true) :
    (h.join? a b).isSome := by
  rcases ha with rfl | rfl <;> rcases isSubtype_int_iff.mp hb with rfl | rfl <;> rfl

/-- An upper bound of two function types has one of their results in it. -/
theorem isSome_join? :
    ∀ {a b u : Ty}, a.isFirstOrder = true → u.isFirstOrder = true → h.isSubtype a u = true →
    h.isSubtype b u = true → (h.join? a b).isSome
  | .int, _, _, _, _, hau, hbu =>
    isSome_join?_of_isSubtype_int (.inl rfl) (eq_int_of_isSubtype hau ▸ hbu)
  | .bool, _, _, _, _, hau, hbu =>
    isSome_join?_of_isSubtype_int (.inr rfl) (isSubtype_trans hbu (isSubtype_int_of_bool hau))
  | .ref c, b, u, _, _, hau, hbu => by
    obtain ⟨e, rfl, hce⟩ := isSubtype_ref_iff.mp hau
    cases b with
    | null => rfl
    | ref d =>
      obtain ⟨_, ⟨⟩, hde⟩ := isSubtype_ref_iff.mp hbu
      rw [join?, Option.isSome_map]
      exact isSome_joinClass? hce hde
    | int | bool | arrow | method | cls => simp [isSubtype, fits] at hbu
  | .arrow ⟨ps, r⟩, b, u, ha, hu, hau, hbu => by
    obtain ⟨us, t, rfl, hrt, hpus⟩ := isSubtype_arrow_iff.mp hau
    rw [isFirstOrder_arrow] at ha hu
    rcases b with _ | _ | _ | _ | ⟨qs, s⟩ | _ | _
    case arrow =>
      obtain ⟨_, _, ⟨⟩, hst, hqus⟩ := isSubtype_arrow_iff.mp hbu
      obtain ⟨m, hm⟩ := Option.isSome_iff_exists.mp (isSome_join? ha.2 hu.2 hrt hst)
      obtain ⟨ms, hms⟩ := Option.isSome_iff_exists.mp (isSome_narrowerAll? hu.1 hpus hqus)
      simp [join?, hm, hms]
    all_goals simp [isSubtype, fits] at hbu

/-- On first-order types, there is a join if and only if there is a type above both, and the join is
one of them. -/
theorem joins_complete (h : Hierarchy) {a b : Ty} (ha : a.isFirstOrder = true)
    (hb : b.isFirstOrder = true) :
    (h.join? a b).isSome ↔
      ∃ u, u.isFirstOrder = true ∧ h.isSubtype a u = true ∧ h.isSubtype b u = true := by
  constructor
  · intro hsome
    obtain ⟨m, hm⟩ := Option.isSome_iff_exists.mp hsome
    have hjoin := isJoin_of_join? hm
    exact ⟨m, isFirstOrder_of_join? ha hb hm, hjoin.left, hjoin.right⟩
  · rintro ⟨u, hu, hau, hbu⟩
    exact isSome_join? ha hu hau hbu

/-- Functions of a shape and of a disc, and of a square and of a disc, with functions as results. -/
theorem joins_complete_kinds :
    (∃ u, u.isFirstOrder = true ∧
      kinds.isSubtype (.arrow ⟨[.ref "Shape", .bool], .arrow ⟨[], .ref "Square"⟩⟩) u = true ∧
      kinds.isSubtype (.arrow ⟨[.ref "Disc", .int], .arrow ⟨[], .ref "Disc"⟩⟩) u = true) ∧
    kinds.join? (.arrow ⟨[.ref "Square"], .arrow ⟨[], .int⟩⟩)
      (.arrow ⟨[.ref "Disc"], .arrow ⟨[], .int⟩⟩) = none ∧
    ¬∃ u, u.isFirstOrder = true ∧ kinds.isSubtype (.arrow ⟨[.ref "Square"], .arrow ⟨[], .int⟩⟩) u =
      true ∧ kinds.isSubtype (.arrow ⟨[.ref "Disc"], .arrow ⟨[], .int⟩⟩) u = true := by
  have hnone : kinds.join? (.arrow ⟨[.ref "Square"], .arrow ⟨[], .int⟩⟩)
      (.arrow ⟨[.ref "Disc"], .arrow ⟨[], .int⟩⟩) = none := by
    decide +kernel
  refine ⟨(joins_complete kinds (by decide +kernel) (by decide +kernel)).mp (by decide +kernel),
    hnone, fun hbound => ?_⟩
  have hsome := (joins_complete kinds (by decide +kernel) (by decide +kernel)).mpr hbound
  rw [hnone] at hsome
  cases hsome

-- for functions that take functions the narrower parameter may not exist though there is one below
-- both
example : kinds.join? (.arrow ⟨[.arrow ⟨[.ref "Square"], .int⟩], .int⟩)
    (.arrow ⟨[.arrow ⟨[.ref "Disc"], .int⟩], .int⟩) = none ∧
    kinds.isSubtype (.arrow ⟨[.arrow ⟨[.ref "Square"], .int⟩], .int⟩)
      (.arrow ⟨[.arrow ⟨[.ref "Shape"], .int⟩], .int⟩) = true ∧
    kinds.isSubtype (.arrow ⟨[.arrow ⟨[.ref "Disc"], .int⟩], .int⟩)
      (.arrow ⟨[.arrow ⟨[.ref "Shape"], .int⟩], .int⟩) = true := by
  decide +kernel

end Hierarchy

end Stackling
