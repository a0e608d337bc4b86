import Stackling.Proofs.Resolution.Decoration

/-!
# Tables of a resolution

A resolution sorts its findings into tables by node number. A number is in a table just if some
finding of that sort has it, and what stands there was found at a node with that number. In a
program without errors this is all that code generation asks for.
-/

namespace Stackling

namespace NodeTable

variable {α : Type} {l : List (NodeId × α)} {id : NodeId} {a : α}

/-- A row of the table is a new one or an old one. -/
theorem mem_of_getElem?_insertMany {t : NodeTable α} (h : (t.insertMany l)[id]? = some a) :
    (id, a) ∈ l ∨ t[id]? = some a := by
  induction l generalizing t with
  | nil => exact .inr (by simpa using h)
  | cons p l ih =>
    rw [Std.TreeMap.insertMany_cons] at h
    rcases ih h with hmem | hmem
    · exact .inl (List.mem_cons_of_mem _ hmem)
    · rw [Std.TreeMap.getElem?_insert] at hmem
      split at hmem
      next hid =>
        refine .inl (List.mem_cons.mpr (.inl ?_))
        rw [← Std.compare_eq_iff_eq.mp hid, ← Option.some.inj hmem]
      next => exact .inr hmem

/-- A row of the table comes from the list. -/
theorem mem_of_getElem?_ofList (h : (Std.TreeMap.ofList l : NodeTable α)[id]? = some a) :
    (id, a) ∈ l := by
  rw [Std.TreeMap.ofList_eq_insertMany_empty] at h
  exact (mem_of_getElem?_insertMany h).resolve_right (by simp)

/-- A node of the list has a row in the table, if not the same one: a later row for the node takes
its place. -/
theorem exists_getElem?_ofList (h : (id, a) ∈ l) :
    ∃ a', (Std.TreeMap.ofList l : NodeTable α)[id]? = some a' := by
  rw [← Option.isSome_iff_exists, Std.TreeMap.isSome_getElem?_eq_contains,
    Std.TreeMap.contains_ofList]
  simpa using ⟨a, h⟩

end NodeTable

theorem Resolution.contains_decls {r : Resolution} {id : NodeId} {entry : Entry}
    (h : r.decls[id]? = some entry) :
    r.decls.contains id = true := by
  rw [Std.TreeMap.contains_eq_isSome_getElem?, h]
  rfl

/-- A resolution holds what code generation looks up at the node. -/
def Node.Served (r : Resolution) : Node → Prop
  | .use id (.name _ _ _) | .use id (.call _ _ _ _) => ∃ b, r.uses[id]? = some b
  | .use id (.send _ _ _ _ _) => ∃ d, r.sends[id]? = some d
  | .use id (.new _ _ _ _) => ∃ b c, r.uses[id]? = some b ∧ b.entry.ty = .cls c
  | .fn f => ∃ entry, r.decls[f.id]? = some entry
  | .cls c => (∃ entry, r.decls[c.id]? = some entry) ∧ ∃ record, r.class? c.name = some record
  | _ => True

/-- The resolution serves each of the nodes. -/
def AllServed (r : Resolution) (nodes : List Node) : Prop := ∀ n ∈ nodes, n.Served r

namespace AllServed

variable {r : Resolution} {n : Node} {ms ns : List Node}

@[simp] theorem append : AllServed r (ms ++ ns) ↔ AllServed r ms ∧ AllServed r ns :=
  List.forall_mem_append

@[simp] theorem cons : AllServed r (n :: ns) ↔ n.Served r ∧ AllServed r ns :=
  List.forall_mem_cons

end AllServed

namespace Resolution

variable {found : List Finding} {classes : ClassTable} {id : NodeId}

/-- A use that was found has a row. -/
theorem exists_use {b : Binding} (h : .use id b ∈ found) :
    ∃ b', (ofFindings found classes).uses[id]? = some b' :=
  NodeTable.exists_getElem?_ofList (List.mem_filterMap.mpr ⟨_, h, rfl⟩)

theorem exists_send {d : Dispatch} (h : .send id d ∈ found) :
    ∃ d', (ofFindings found classes).sends[id]? = some d' :=
  NodeTable.exists_getElem?_ofList (List.mem_filterMap.mpr ⟨_, h, rfl⟩)

theorem exists_decl {entry : Entry} (h : .decl id entry ∈ found) :
    ∃ entry', (ofFindings found classes).decls[id]? = some entry' :=
  NodeTable.exists_getElem?_ofList (List.mem_filterMap.mpr ⟨_, h, rfl⟩)

theorem exists_position {n : Nat} (h : .position id n ∈ found) :
    ∃ n', (ofFindings found classes).positions[id]? = some n' :=
  NodeTable.exists_getElem?_ofList (List.mem_filterMap.mpr ⟨_, h, rfl⟩)

/-- A row of the table of uses was found. -/
theorem use_mem {b : Binding} (h : (ofFindings found classes).uses[id]? = some b) :
    .use id b ∈ found := by
  obtain ⟨f, hf, huse⟩ := List.mem_filterMap.mp (NodeTable.mem_of_getElem?_ofList h)
  cases f with
  | use id' b' =>
    cases huse
    exact hf
  | send _ _ | decl _ _ | position _ _ | error _ => cases huse

theorem send_mem {d : Dispatch} (h : (ofFindings found classes).sends[id]? = some d) :
    .send id d ∈ found := by
  obtain ⟨f, hf, hsend⟩ := List.mem_filterMap.mp (NodeTable.mem_of_getElem?_ofList h)
  cases f with
  | send id' d' =>
    cases hsend
    exact hf
  | use _ _ | decl _ _ | position _ _ | error _ => cases hsend

end Resolution

namespace Program

/-- The findings of resolution in their order. -/
def findings (p : Program) : List Finding :=
  (resolveDecls .global p.decls).2 ++ p.body.resolve (resolveDecls .global p.decls).1

/-- The tables of a program are made from its findings. -/
theorem resolve_eq (p : Program) :
    p.resolve = .ofFindings p.findings (resolveDecls .global p.decls).1.classes := rfl

/-- Without errors in the tables there are none among the findings. -/
theorem errorFree_findings {p : Program} (h : p.resolve.errors = []) : ErrorFree p.findings :=
  ErrorFree.iff_errors.mpr h

/-- If there are no errors, something is found for every node of a program. -/
theorem decorated {p : Program} (h : p.resolve.errors = []) : Decorated p.findings p.nodes := by
  have hfree := ErrorFree.append.mp (errorFree_findings h)
  exact (declsDecorated Env.valid_global p.decls hfree.1).append
    (p.body.decorated (valid_resolveDecls Env.valid_global p.decls) hfree.2)

/-- If different nodes have different numbers, resolution without errors leaves nothing open. -/
theorem served {p : Program} (hbuilt : p.Built) (h : p.resolve.errors = []) :
    ∀ n ∈ p.nodes, n.Served p.resolve := by
  intro n hn
  obtain ⟨f, hf, hdec⟩ := (decorated h).covers n hn
  rw [resolve_eq]
  cases hdec with
  | name | call => exact Resolution.exists_use hf
  | send => exact Resolution.exists_send hf
  | new hty =>
    obtain ⟨b, hb⟩ := Resolution.exists_use hf
    obtain ⟨m, hm, hdec⟩ := (decorated h).stems _ b (Resolution.use_mem hb)
    -- The binding that is left is from this very node, so it is a class too.
    obtain rfl := hbuilt m hm _ hn hdec.id_eq
    cases hdec with
    | new hty => exact ⟨b, _, hb, hty⟩
  | typed | var => trivial
  | fn => exact Resolution.exists_decl hf
  | cls =>
    refine ⟨Resolution.exists_decl hf, ?_⟩
    have hfree := (ErrorFree.append.mp (errorFree_findings h)).1
    have hmem := (mem_records_resolveDecls (List.cons_ne_nil _ _) hfree).2 _
      ((List.mem_append.mp hn).resolve_right (p.body.cls_notMem_nodes _))
    exact ⟨_, Std.TreeMap.getElem?_eq_some_getElem hmem⟩

end Program

end Stackling
