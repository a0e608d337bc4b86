import Stackling.Proofs.Ascent
import Stackling.Proofs.Resolution.Records
import Stackling.Proofs.Subtyping

/-!
# The class hierarchy of a program is a forest

Nothing in resolution looks for circles among the classes. There are none because a class is linked
to its superclass when it goes on record, to one that is on record by then, and because the global
scope gives a name to one thing only. So links lead to earlier classes, in programs with errors too,
and the walk upwards from a class is the whole chain of its superclasses.
-/

namespace Stackling

/-! ### Chains of superclasses -/

namespace Hierarchy

variable {h : Hierarchy} {c s : String}

/-- The superclasses of a class one after the other, up to a class that has none. -/
inductive Chain (h : Hierarchy) : String → List String → Prop
  | root {c : String} (hc : h.superclass? c = none) : Chain h c []
  | link {c s : String} {above : List String} (hs : h.superclass? c = some s)
      (habove : Chain h s above) :
    Chain h c (s :: above)

/-- Without circles the walk never meets a class again, so that it ends only where there is no
superclass. -/
theorem Acyclic.chain_of_walk (hacyclic : h.Acyclic) {seen met : List String}
    (hw : h.Walk seen c met) (hbelow : ∀ x ∈ seen, h.Below x c) : h.Chain c met := by
  induction hw with
  | root hc => exact .root hc
  | again hs hmet => exact absurd (.tail' (hbelow _ hmet) hs) (hacyclic _)
  | up hs _ _ ih =>
    refine .link hs (ih fun x hx => ?_)
    rcases List.mem_cons.mp hx with rfl | hx
    · exact .refl
    · exact (hbelow x hx).tail hs

theorem Acyclic.chain_ancestors (hacyclic : h.Acyclic) (c : String) :
    h.Chain c (h.ancestors c) := by
  refine hacyclic.chain_of_walk (h.walk_ancestors c) fun x hx => ?_
  cases List.mem_singleton.mp hx
  exact .refl

end Hierarchy

/-! ### The order of registration -/

namespace Program

variable {p : Program} {a b c s : String}

/-- The classes on record after the first `n` declarations. -/
def classesAfter (p : Program) (n : Nat) : ClassTable :=
  (resolveDecls .global (p.decls.take n)).1.classes

/-- At some point the one class is on record and the other is not. -/
def RegisteredBefore (p : Program) (a b : String) : Prop :=
  ∃ n, a ∈ (p.classesAfter n).records ∧ b ∉ (p.classesAfter n).records

theorem mem_classesAfter {n : Nat} : a ∈ (p.classesAfter n).records ↔
    ∃ c env, Records (p.decls.take n) c env ∧ c.name = a := by
  rw [Std.TreeMap.mem_iff_isSome_getElem?, Option.isSome_iff_exists]
  simp only [classesAfter, Records.iff_getElem?]
  constructor
  · rintro ⟨_, c, env, hrec, hname, rfl⟩
    exact ⟨c, env, hrec, hname⟩
  · rintro ⟨c, env, hrec, hname⟩
    exact ⟨_, c, env, hrec, hname, rfl⟩

/-- Classes stay on record. -/
theorem mem_classesAfter_of_le {m n : Nat} (hle : m ≤ n) (h : a ∈ (p.classesAfter m).records) :
    a ∈ (p.classesAfter n).records := by
  obtain ⟨c, env, hrec, rfl⟩ := mem_classesAfter.mp h
  obtain ⟨rest, hrest⟩ := List.take_prefix_take_left (l := p.decls) hle
  exact mem_classesAfter.mpr ⟨c, env, hrest ▸ hrec.append rest, rfl⟩

theorem RegisteredBefore.irrefl : ¬p.RegisteredBefore a a := fun ⟨_, hmem, hnot⟩ => hnot hmem

theorem RegisteredBefore.trans (hab : p.RegisteredBefore a b) (hbc : p.RegisteredBefore b c) :
    p.RegisteredBefore a c := by
  obtain ⟨m, ha, hb⟩ := hab
  obtain ⟨n, hb', hc⟩ := hbc
  rcases Nat.le_total m n with hle | hle
  · exact ⟨n, mem_classesAfter_of_le hle ha, hc⟩
  · exact absurd (mem_classesAfter_of_le hle hb') hb

theorem isSome_class?_of_mem {n : Nat} (h : a ∈ (p.classesAfter n).records) :
    (p.resolve.class? a).isSome = true := by
  obtain ⟨c, env, hrec, rfl⟩ := mem_classesAfter.mp h
  have hrec : Records p.decls c env :=
    List.take_append_drop n p.decls ▸ hrec.append (p.decls.drop n)
  rw [class?_of_records hrec]
  rfl

theorem superclass?_eq_some_iff : p.resolve.hierarchy.superclass? c = some s ↔
    ∃ record, p.resolve.class? c = some record ∧ record.superclass = some s := by
  rw [show p.resolve.hierarchy.superclass? c = (p.resolve.class? c).bind (·.superclass) from
    p.linked c]
  exact Option.bind_eq_some_iff

/-- A superclass is on record before the class is. -/
theorem registeredBefore_of_superclass? (h : p.resolve.hierarchy.superclass? c = some s) :
    p.RegisteredBefore s c := by
  obtain ⟨_, hrecord, hsuper⟩ := superclass?_eq_some_iff.mp h
  obtain ⟨d, env, hrec, rfl, rfl⟩ := class?_eq_some_iff.mp hrecord
  obtain ⟨before, after, hds, hfirst, rfl⟩ := hrec
  obtain ⟨parent, hparent, rfl⟩ := Option.map_eq_some_iff.mp hsuper
  obtain ⟨x, -, hget⟩ := Option.bind_eq_some_iff.mp hparent
  obtain ⟨d', env', hrec', rfl, rfl⟩ := (Records.iff_getElem? before x parent).mp hget
  have htake : p.decls.take before.length = before := by
    rw [hds]
    exact List.take_left
  refine ⟨before.length, mem_classesAfter.mpr ⟨d', env', htake.symm ▸ hrec', rfl⟩, fun hmem => ?_⟩
  obtain ⟨d'', _, hrec'', hname⟩ := mem_classesAfter.mp hmem
  exact hfirst (.cls d'') (htake ▸ hrec''.mem) hname

theorem registeredBefore_of_transGen
    (h : Relation.TransGen (fun c s => p.resolve.hierarchy.superclass? c = some s) c s) :
    p.RegisteredBefore s c := by
  induction h with
  | single hs => exact registeredBefore_of_superclass? hs
  | tail _ hs ih => exact (registeredBefore_of_superclass? hs).trans ih

theorem acyclic_hierarchy (p : Program) : p.resolve.hierarchy.Acyclic :=
  fun _ hc => (registeredBefore_of_transGen hc).irrefl

/-- Along a chain, each class is on record before those from which it is reached. -/
theorem pairwise_of_chain {as : List String} (h : p.resolve.hierarchy.Chain c as) :
    (c :: as).Pairwise fun sub sup => p.RegisteredBefore sup sub := by
  induction h with
  | root => exact List.pairwise_singleton _ _
  | link hs _ ih =>
    have hfirst := registeredBefore_of_superclass? hs
    refine List.pairwise_cons.mpr ⟨fun a ha => ?_, ih⟩
    rcases List.mem_cons.mp ha with rfl | ha
    · exact hfirst
    · exact ((List.pairwise_cons.mp ih).1 a ha).trans hfirst

/-- The hierarchy of a program has the links that the records of its classes tell of, each to a
class that was on record before. It has no circles, and the ancestors of a class are the chain of
its superclasses up to one that has none, each on record before those below it. -/
theorem hierarchy_forest (p : Program) :
    (∀ c s, p.resolve.hierarchy.superclass? c = some s ↔
      ∃ record, p.resolve.class? c = some record ∧ record.superclass = some s) ∧
    (∀ c s, p.resolve.hierarchy.superclass? c = some s →
      (p.resolve.class? s).isSome = true ∧ p.RegisteredBefore s c) ∧
    p.resolve.hierarchy.Acyclic ∧
    ∀ c, p.resolve.hierarchy.Chain c (p.resolve.hierarchy.ancestors c) ∧
      (∀ a ∈ p.resolve.hierarchy.ancestors c, (p.resolve.class? a).isSome = true) ∧
      (c :: p.resolve.hierarchy.ancestors c).Pairwise fun sub sup =>
        p.RegisteredBefore sup sub := by
  refine ⟨fun _ _ => superclass?_eq_some_iff, fun c s hs => ?_, p.acyclic_hierarchy, fun c => ?_⟩
  · have hbefore := registeredBefore_of_superclass? hs
    exact ⟨isSome_class?_of_mem hbefore.choose_spec.1, hbefore⟩
  · have hchain := p.acyclic_hierarchy.chain_ancestors c
    have hpairwise := pairwise_of_chain hchain
    refine ⟨hchain, fun a ha => ?_, hpairwise⟩
    obtain ⟨n, hmem, -⟩ := (List.pairwise_cons.mp hpairwise).1 a ha
    exact isSome_class?_of_mem hmem

/-- A class that extends itself, one that is declared twice, one that extends a later class, and one
that extends a class in a function. -/
def tangled : Program where
  decls := [
    .cls { id := 0, name := "A", superclass := some "A", fields := [], methods := [],
           pos := default },
    .cls { id := 1, name := "B", superclass := some "A", fields := [], methods := [],
           pos := default },
    .cls { id := 2, name := "B", superclass := some "B", fields := [], methods := [],
           pos := default },
    .cls { id := 3, name := "C", superclass := some "D", fields := [], methods := [],
           pos := default },
    .cls { id := 4, name := "D", superclass := some "B", fields := [], methods := [],
           pos := default },
    .fn {
      id := 5
      name := "f"
      params := []
      result := .int
      decls := [.cls { id := 6, name := "E", superclass := some "D", fields := [], methods := [],
                       pos := default }]
      body := .int 0 default
      pos := default },
    .cls { id := 7, name := "F", superclass := some "E", fields := [], methods := [],
           pos := default }]
  body := .int 0 default
  pos := default

theorem hierarchy_forest_tangled :
    tangled.resolve.hierarchy.superclass? "D" = some "B" ∧ tangled.RegisteredBefore "B" "D" ∧
      tangled.resolve.hierarchy.ancestors "D" = ["B", "A"] ∧
      tangled.resolve.hierarchy.Chain "D" ["B", "A"] ∧ tangled.resolve.hierarchy.Acyclic ∧
      ["A", "C", "E", "F"].map tangled.resolve.hierarchy.superclass? =
        [none, none, none, none] := by
  obtain ⟨-, hbefore, hacyclic, hchain⟩ := hierarchy_forest tangled
  have hlink : tangled.resolve.hierarchy.superclass? "D" = some "B" := by decide +kernel
  have hancestors : tangled.resolve.hierarchy.ancestors "D" = ["B", "A"] := by decide +kernel
  exact ⟨hlink, (hbefore _ _ hlink).2, hancestors, hancestors ▸ (hchain "D").1,
    hacyclic, by decide +kernel⟩

end Program

end Stackling
