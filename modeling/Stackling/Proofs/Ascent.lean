import Mathlib.Data.List.Nodup
import Stackling.Proofs.Hierarchy

/-!
# The walk upwards from a class

The walk goes on until it comes to a class without superclass or to one that it has met. Nothing in
it counts: it ends because every round meets another class, and there are no more of those than
links. Where the links run in a circle, turning away from a class that was met loses nothing, since
the way from there on has been gone. So each class above the first has its place in the list by its
distance, and the classes that cannot be reached have none.
-/

namespace Stackling.Hierarchy

variable {h : Hierarchy} {c d s : String} {seen met : List String}

/-! ### Rounds -/

/-- The walk from a class past the classes `seen`, with no bound on its rounds. -/
inductive Walk (h : Hierarchy) : (seen : List String) → (cls : String) → (met : List String) → Prop
  | root {seen : List String} {c : String} (hc : h.superclass? c = none) : Walk h seen c []
  | again {seen : List String} {c s : String} (hs : h.superclass? c = some s) (hmet : s ∈ seen) :
      Walk h seen c []
  | up {seen met : List String} {c s : String} (hs : h.superclass? c = some s) (hnew : s ∉ seen)
      (hrest : Walk h (s :: seen) s met) : Walk h seen c (s :: met)

theorem Walk.unique {met' : List String} (hw : h.Walk seen c met) (hw' : h.Walk seen c met') :
    met = met' := by
  induction hw generalizing met' with
  | root hc =>
    cases hw' with
    | root | again => rfl
    | up hs => cases hc.symm.trans hs
  | again hs hmet =>
    cases hw' with
    | root | again => rfl
    | up hs' hnew =>
      obtain rfl := Option.some.inj (hs.symm.trans hs')
      exact absurd hmet hnew
  | up hs hnew _ ih =>
    cases hw' with
    | root hc => cases hc.symm.trans hs
    | again hs' hmet =>
      obtain rfl := Option.some.inj (hs.symm.trans hs')
      exact absurd hmet hnew
    | up hs' _ hrest =>
      obtain rfl := Option.some.inj (hs.symm.trans hs')
      rw [ih hrest]

/-- With fuel for all classes that were not met yet, the bounded walk is not cut short. -/
theorem walk_climb {fuel : Nat} (hnodup : seen.Nodup) (hseen : h.ClosedUpTo seen c)
    (hfuel : h.links.size < fuel + seen.length) : h.Walk seen c (h.climb fuel seen c) := by
  induction fuel generalizing seen c with
  | zero =>
    refine .root (Option.eq_none_iff_forall_ne_some.mpr fun s hs => ?_)
    have hle := hseen.length_le hnodup hs
    omega
  | succ fuel ih =>
    cases hs : h.superclass? c with
    | none =>
      rw [climb, hs]
      exact .root hs
    | some s =>
      by_cases hmet : s ∈ seen
      · rw [climb, hs]
        dsimp only
        rw [if_pos hmet]
        exact .again hs hmet
      · rw [climb_succ_of_notMem hs hmet]
        refine .up hs hmet (ih (List.nodup_cons.mpr ⟨hmet, hnodup⟩) (hseen.cons hs) ?_)
        rw [List.length_cons]
        omega

theorem walk_ancestors (h : Hierarchy) (c : String) : h.Walk [c] c (h.ancestors c) := by
  refine walk_climb (List.nodup_singleton c) ?_ (Nat.lt_succ_self _)
  intro x hx hne
  exact absurd (List.mem_singleton.mp hx) hne

theorem length_climb_le (h : Hierarchy) (fuel : Nat) (seen : List String) (c : String) :
    (h.climb fuel seen c).length ≤ fuel := by
  induction fuel generalizing seen c with
  | zero => exact Nat.le_refl 0
  | succ fuel ih =>
    rw [climb]
    split
    · exact Nat.zero_le _
    · split
      · exact Nat.zero_le _
      · exact Nat.succ_le_succ (ih _ _)

/-! ### Distances -/

/-- The class a number of links above a class. -/
def above? (h : Hierarchy) (c : String) : Nat → Option String
  | 0 => some c
  | n + 1 => (h.above? c n).bind h.superclass?

/-- A class is reached over a number of links, and over no fewer. -/
def AtDistance (h : Hierarchy) (c d : String) (n : Nat) : Prop :=
  h.above? c n = some d ∧ ∀ m < n, h.above? c m ≠ some d

theorem AtDistance.unique {m n : Nat} (hm : h.AtDistance c d m) (hn : h.AtDistance c d n) :
    m = n := by
  rcases Nat.lt_trichotomy m n with hlt | heq | hgt
  · exact absurd hm.1 (hn.2 m hlt)
  · exact heq
  · exact absurd hn.1 (hm.2 n hgt)

/-- A class is reached over at most a number of links. -/
def Within (h : Hierarchy) (c : String) (n : Nat) (d : String) : Prop :=
  ∃ m ≤ n, h.above? c m = some d

theorem within_succ_iff {n : Nat} (hs : h.above? c (n + 1) = some s) :
    h.Within c (n + 1) d ↔ d = s ∨ h.Within c n d := by
  constructor
  · rintro ⟨m, hm, hd⟩
    rcases Nat.lt_or_eq_of_le hm with hlt | rfl
    · exact .inr ⟨m, Nat.le_of_lt_succ hlt, hd⟩
    · exact .inl (Option.some.inj (hd.symm.trans hs))
  · rintro (rfl | ⟨m, hm, hd⟩)
    · exact ⟨n + 1, Nat.le_refl _, hs⟩
    · exact ⟨m, Nat.le_succ_of_le hm, hd⟩

/-- If the next link leads nowhere or back, no link leads further. -/
theorem within_of_above? {n : Nat} (hnext : ∀ s, h.above? c (n + 1) = some s → h.Within c n s)
    {k : Nat} (hk : h.above? c k = some d) : h.Within c n d := by
  induction k generalizing d with
  | zero => exact ⟨0, Nat.zero_le n, hk⟩
  | succ k ih =>
    obtain ⟨x, hx, hd⟩ := Option.bind_eq_some_iff.mp hk
    obtain ⟨m, hm, hmx⟩ := ih hx
    have hd : h.above? c (m + 1) = some d := Option.bind_eq_some_iff.mpr ⟨x, hmx, hd⟩
    rcases Nat.lt_or_eq_of_le hm with hlt | rfl
    · exact ⟨m + 1, hlt, hd⟩
    · exact hnext d hd

/-- A walk that stands `n` links above its first class, having met those on the way, meets each
further class at its distance. -/
theorem Walk.getElem?_eq_some_iff {c₀ : String} {n : Nat} (hw : h.Walk seen c met)
    (hc : h.above? c₀ n = some c) (hseen : ∀ x, x ∈ seen ↔ h.Within c₀ n x) (i : Nat) :
    met[i]? = some d ↔ h.AtDistance c₀ d (n + 1 + i) := by
  have hnext {c s : String} {n : Nat} (hc : h.above? c₀ n = some c) :
      h.above? c₀ (n + 1) = some s ↔ h.superclass? c = some s := by
    rw [above?, hc, Option.bind_some]
  -- at its end, the walk has met everything that links lead to
  have hend {n i : Nat} (hback : ∀ s, h.above? c₀ (n + 1) = some s → h.Within c₀ n s) :
      ¬h.AtDistance c₀ d (n + 1 + i) := by
    rintro ⟨hd, hfirst⟩
    obtain ⟨m, hm, hmd⟩ := within_of_above? hback hd
    exact hfirst m (by omega) hmd
  induction hw generalizing n i with
  | root hroot =>
    refine iff_of_false nofun (hend fun s hs => ?_)
    cases hroot.symm.trans ((hnext hc).mp hs)
  | again hs hmet =>
    refine iff_of_false nofun (hend fun t ht => ?_)
    obtain rfl := Option.some.inj (hs.symm.trans ((hnext hc).mp ht))
    exact (hseen _).mp hmet
  | @up seen met c s hs hnew _ ih =>
    have hs := (hnext hc).mpr hs
    cases i with
    | zero =>
      constructor
      · rintro ⟨⟩
        exact ⟨hs, fun m hm hmd => hnew ((hseen _).mpr ⟨m, Nat.le_of_lt_succ hm, hmd⟩)⟩
      · rintro ⟨hd, -⟩
        exact hs.symm.trans hd
    | succ i =>
      have hseen : ∀ x, x ∈ s :: seen ↔ h.Within c₀ (n + 1) x := fun x => by
        rw [List.mem_cons, hseen, within_succ_iff hs]
      rw [List.getElem?_cons_succ, ← Nat.add_assoc, Nat.add_right_comm (n + 1)]
      exact ih hs hseen i

theorem getElem?_ancestors {i : Nat} : (h.ancestors c)[i]? = some d ↔ h.AtDistance c d (i + 1) := by
  have hseen : ∀ x, x ∈ [c] ↔ h.Within c 0 x := by
    intro x
    rw [List.mem_singleton]
    constructor
    · rintro rfl
      exact ⟨0, Nat.le_refl 0, rfl⟩
    · rintro ⟨m, hm, hx⟩
      obtain rfl := Nat.le_zero.mp hm
      exact (Option.some.inj hx).symm
  rw [(h.walk_ancestors c).getElem?_eq_some_iff rfl hseen, Nat.zero_add, Nat.add_comm]

theorem nodup_ancestors (h : Hierarchy) (c : String) : (h.ancestors c).Nodup := by
  rw [List.nodup_iff_getElem?_ne_getElem?]
  intro i j hlt hj heq
  obtain ⟨d, hd⟩ : ∃ d, (h.ancestors c)[j]? = some d := ⟨_, List.getElem?_eq_getElem hj⟩
  have hdist := (getElem?_ancestors.mp (heq.trans hd)).unique (getElem?_ancestors.mp hd)
  omega

theorem self_notMem_ancestors (h : Hierarchy) (c : String) : c ∉ h.ancestors c := by
  intro hmem
  obtain ⟨i, hi⟩ := List.mem_iff_getElem?.mp hmem
  exact (getElem?_ancestors.mp hi).2 0 (Nat.succ_pos i) rfl

theorem mem_ancestors_iff :
    d ∈ h.ancestors c ↔ d ≠ c ∧ Relation.TransGen (fun c s => h.superclass? c = some s) c d := by
  have hmem : d ∈ [c] ∨ d ∈ h.ancestors c ↔ h.Below c d :=
    isSubclass_iff_mem.symm.trans isSubclass_iff
  constructor
  · intro hd
    have hne : d ≠ c := fun heq => h.self_notMem_ancestors c (heq ▸ hd)
    exact ⟨hne, (Relation.reflTransGen_iff_eq_or_transGen.mp (hmem.mp (.inr hd))).resolve_left hne⟩
  · rintro ⟨hne, hd⟩
    exact (hmem.mpr hd.to_reflTransGen).resolve_left fun heq => hne (List.mem_singleton.mp heq)

/-- Whatever the links, circles included: the walk from a class ends, after no more rounds than
there are links, and meets just the other classes above it, each once and at the place of its
distance. A class is below those that links lead to, and so being below is transitive. -/
theorem ancestors_by_distance (h : Hierarchy) (c : String) :
    (∀ met, h.Walk [c] c met ↔ met = h.ancestors c) ∧ (h.ancestors c).length ≤ h.links.size ∧
    (h.ancestors c).Nodup ∧ c ∉ h.ancestors c ∧
    (∀ d, d ∈ h.ancestors c ↔ d ≠ c ∧ Relation.TransGen (fun c s => h.superclass? c = some s) c d) ∧
    (∀ i d, (h.ancestors c)[i]? = some d ↔ h.AtDistance c d (i + 1)) ∧
    (∀ d, h.isSubclass c d = true ↔
      Relation.ReflTransGen (fun c s => h.superclass? c = some s) c d) ∧
    ∀ d e, h.isSubclass c d = true → h.isSubclass d e = true → h.isSubclass c e = true := by
  refine ⟨fun met => ⟨fun hw => hw.unique (h.walk_ancestors c), ?_⟩, h.length_climb_le _ _ _,
    h.nodup_ancestors c, h.self_notMem_ancestors c, fun _ => mem_ancestors_iff, fun _ _ =>
    getElem?_ancestors, fun _ => isSubclass_iff,
    fun _ _ => isSubclass_trans⟩
  rintro rfl
  exact h.walk_ancestors c

/-- Two classes that are each other's superclass, and a way that leads to them from outside. -/
def roundabout : Hierarchy :=
  (((add {} "slip" "lane").add "lane" "north").add "north" "south").add "south" "north"

theorem ancestors_by_distance_roundabout :
    roundabout.ancestors "slip" = ["lane", "north", "south"] ∧
    roundabout.AtDistance "slip" "south" 3 ∧
      roundabout.ancestors "north" = ["south"] ∧
      roundabout.isSubclass "slip" "south" = true ∧ roundabout.isSubclass "south" "north" = true ∧
      roundabout.isSubclass "slip" "north" = true := by
  obtain ⟨-, -, -, -, -, hdistance, -, htrans⟩ := ancestors_by_distance roundabout "slip"
  have hslip : roundabout.ancestors "slip" = ["lane", "north", "south"] := by decide +kernel
  have hsub : roundabout.isSubclass "slip" "south" = true := by decide +kernel
  have hback : roundabout.isSubclass "south" "north" = true := by decide +kernel
  refine ⟨hslip, (hdistance 2 "south").mp ?_, by decide +kernel, hsub, hback, htrans _ _ hsub hback⟩
  rw [hslip]
  rfl

end Stackling.Hierarchy
