import Stackling.Proofs.Code.Heights
import Stackling.Proofs.Code.Pieces
import Stackling.Proofs.Nodes

/-!
# The code of a frame

A function sets up its frame, then its declarations leave their cells one after the other, then
comes the value, and at the end all cells are given up again. Here is where the code of these parts
stands.
-/

namespace Stackling

open Emission

namespace Sourced

variable {a b m : Sourced} {s : Span} {o : Origin} {i j : Nat} {code : List Instr}

theorem mem_spans_append_left (h : s ∈ a.spans) : s ∈ (a ++ b).spans := List.mem_append_left _ h

theorem mem_spans_append_right (h : ⟨o, i, j⟩ ∈ b.spans) :
    ⟨o, a.code.length + i, a.code.length + j⟩ ∈ (a ++ b).spans :=
  List.mem_append_right _ (List.mem_map_of_mem h)

theorem drop_append_left (h : code <+: a.code.drop i) : code <+: (a ++ b).code.drop i := by
  rw [code_append, List.drop_append]
  exact h.trans (List.prefix_append _ _)

theorem drop_append_right (h : code <+: b.code.drop i) :
    code <+: (a ++ b).code.drop (a.code.length + i) := by
  rw [code_append, List.drop_length_add_append]
  exact h

/-! ### Declarations -/

/-- The code of the declarations stands in a row, in which each one stops where the next one
starts. -/
structure Row (m : Sourced) (ds : List Decl) (start : Nat) (place : Nat → Nat) : Prop where
  first : place 0 = start
  span : ∀ (j : Nat) (d : Decl), ds[j]? = some d → ⟨.decl d, place j, place (j + 1)⟩ ∈ m.spans

namespace Row

variable {d : Decl} {ds : List Decl} {start : Nat} {place : Nat → Nat}

theorem nil : m.Row [] 0 (fun _ => 0) := ⟨rfl, nofun⟩

/-- A row stays where it is when code is put behind it. -/
theorem append_left (h : a.Row ds start place) : (a ++ b).Row ds start place where
  first := h.first
  span := fun j d hd => mem_spans_append_left (h.span j d hd)

theorem mark (h : m.Row ds start place) : (m.mark o).Row ds start place where
  first := h.first
  span := fun j d hd => List.mem_cons_of_mem _ (h.span j d hd)

/-- A row moves along when code is put in front of it. -/
theorem append_right (h : b.Row ds start place) :
    (a ++ b).Row ds (a.code.length + start) (a.code.length + place ·) where
  first := congrArg (a.code.length + ·) h.first
  span := fun j d hd => mem_spans_append_right (h.span j d hd)

/-- A row with one more declaration in front of it. -/
theorem cons (hd : ⟨.decl d, 0, a.code.length⟩ ∈ a.spans) (h : b.Row ds 0 place) :
    (a ++ b).Row (d :: ds) 0 (Nat.casesOn · 0 (a.code.length + place ·)) where
  first := rfl
  span := by
    intro j d' hj
    cases j with
    | zero =>
      obtain rfl : d = d' := Option.some.inj hj
      change ⟨.decl d, 0, a.code.length + place 0⟩ ∈ (a ++ b).spans
      rw [h.first]
      exact mem_spans_append_left hd
    | succ j => exact h.append_right.span j d' hj

end Row

end Sourced

/-- The first span in the code of an expression is that of the expression. -/
theorem Expr.span_of_sourced {e : Expr} {g : CodeContext} {m : Sourced} {s s' : LabelSupply}
    (h : e.sourced g s = .ok (m, s')) : ⟨.expr e, 0, m.code.length⟩ ∈ m.spans := by
  unfold Expr.sourced at h
  obtain ⟨m', -, rfl⟩ := map_eq_ok.mp h
  exact List.mem_cons_self

/-- The first span in the code of a declaration is that of the declaration. -/
theorem Decl.span_of_sourced {d : Decl} {g : CodeContext} {f : SourcedFragment} {q q' : CodeState}
    (h : d.sourced g q = .ok (f, q')) : ⟨.decl d, 0, f.code.code.length⟩ ∈ f.code.spans := by
  cases d with
  | var d =>
    simp only [Decl.sourced, bind_eq_ok, pure_eq_ok, Prod.mk.injEq] at h
    obtain ⟨_, _, -, rfl, -⟩ := h
    exact List.mem_cons_self
  | fn f =>
    simp only [Decl.sourced, bind_eq_ok, pure_eq_ok, Prod.mk.injEq] at h
    obtain ⟨_, _, -, rfl, -⟩ := h
    exact List.mem_cons_self
  | cls c =>
    obtain ⟨id, name, superclass, fields, methods, pos⟩ := c
    simp only [Decl.sourced, bind_eq_ok, pure_eq_ok, Prod.mk.injEq] at h
    obtain ⟨_, _, -, _, _, -, _, _, -, _, _, -, rfl, -⟩ := h
    exact List.mem_cons_self

/-- The code of several declarations is a row. -/
theorem declsSourced_row {ds : List Decl} {g : CodeContext} {f : SourcedFragment} {q q' : CodeState}
    (h : declsSourced g ds q = .ok (f, q')) :
    ∃ place, f.code.Row ds 0 place ∧ place ds.length = f.code.code.length := by
  induction ds generalizing f q with
  | nil =>
    simp only [declsSourced, pure_eq_ok, Prod.mk.injEq] at h
    obtain ⟨rfl, -⟩ := h
    exact ⟨_, .nil, rfl⟩
  | cons d ds ih =>
    simp only [declsSourced, bind_eq_ok, pure_eq_ok, Prod.mk.injEq] at h
    obtain ⟨a, q₁, ha, b, _, hb, rfl, rfl⟩ := h
    obtain ⟨place, hrow, hstop⟩ := ih hb
    refine ⟨_, .cons (Decl.span_of_sourced ha) hrow, ?_⟩
    change a.code.code.length + place ds.length = (a.code.code ++ b.code.code).length
    rw [hstop, List.length_append]

/-! ### Functions -/

/-- The code of a function starts the frame, has its declarations in a row and then its value, and
ends with as many pops as there are cells of declarations and of parameters. -/
structure FunDecl.Lowered (m : Sourced) (f : FunDecl) (start : Nat) (place : Nat → Nat) : Prop where
  opening : ∃ entry, .label entry :: Code.plain [.cfp, .lra] <+: m.code.drop start
  row : m.Row f.decls (start + 3) place
  closing : ∃ mid stop, ⟨.expr f.body, place f.decls.length, mid⟩ ∈ m.spans ∧
    Code.epilogue f.localCells f.paramCells f.result.isArrow <+: m.code.drop mid ∧
    mid + f.epilogue.length = stop ∧ ⟨.routine f, start, stop⟩ ∈ m.spans

/-- The functions among the nodes have their code. -/
def Sourced.Lowers (m : Sourced) (nodes : List Node) : Prop :=
  ∀ f, .fn f ∈ nodes → ∃ start place, f.Lowered m start place

section

variable {a b m : Sourced} {f : FunDecl} {start : Nat} {place : Nat → Nat} {ms ns : List Node}

theorem FunDecl.Lowered.append_left (h : f.Lowered a start place) :
    f.Lowered (a ++ b) start place := by
  obtain ⟨⟨entry, hopening⟩, hrow, mid, stop, hvalue, hend, hstop, hroutine⟩ := h
  exact ⟨⟨entry, Sourced.drop_append_left hopening⟩, hrow.append_left, mid, stop,
    Sourced.mem_spans_append_left hvalue, Sourced.drop_append_left hend, hstop,
    Sourced.mem_spans_append_left hroutine⟩

theorem FunDecl.Lowered.append_right (h : f.Lowered b start place) :
    f.Lowered (a ++ b) (a.code.length + start) (a.code.length + place ·) := by
  obtain ⟨⟨entry, hopening⟩, hrow, mid, stop, hvalue, hend, hstop, hroutine⟩ := h
  exact ⟨⟨entry, Sourced.drop_append_right hopening⟩, hrow.append_right, a.code.length + mid,
    a.code.length + stop, Sourced.mem_spans_append_right hvalue, Sourced.drop_append_right hend, by
    rw [Nat.add_assoc, hstop], Sourced.mem_spans_append_right hroutine⟩

namespace Sourced.Lowers

/-- There is nothing to show where there are no functions. -/
theorem of_forall_notMem (h : ∀ f, .fn f ∉ ns) : m.Lowers ns := fun f hf => absurd hf (h f)

theorem append_left (h : a.Lowers ns) : (a ++ b).Lowers ns := by
  intro f hf
  obtain ⟨start, place, hlowered⟩ := h f hf
  exact ⟨start, place, hlowered.append_left⟩

theorem append_right (h : b.Lowers ns) : (a ++ b).Lowers ns := by
  intro f hf
  obtain ⟨start, place, hlowered⟩ := h f hf
  exact ⟨_, _, hlowered.append_right⟩

/-- The functions of two pieces of code are those of both. -/
theorem append (ha : a.Lowers ms) (hb : b.Lowers ns) : (a ++ b).Lowers (ms ++ ns) := by
  intro f hf
  rcases List.mem_append.mp hf with hf | hf
  · exact ha.append_left f hf
  · exact hb.append_right f hf

end Sourced.Lowers

/-- The code of a function is put together from that of its declarations and its value. -/
theorem FunDecl.lowered_routine {entry : Label} {locals value : Sourced}
    (hrow : locals.Row f.decls 0 place) (hstop : place f.decls.length = locals.code.length)
    (hvalue : ⟨.expr f.body, 0, value.code.length⟩ ∈ value.spans) :
    f.Lowered (f.sourcedRoutine entry locals value) 0 (3 + place ·) where
  opening :=
    ⟨entry, Sourced.drop_append_left
      (Sourced.drop_append_left (Sourced.drop_append_left (List.prefix_refl _)))⟩
  row := hrow.append_right.append_left.append_left.mark
  closing := by
    have hlength : (Sourced.plain (.label entry :: Code.plain [.cfp, .lra]) ++ locals).code.length =
        3 + place f.decls.length := by
      rw [Sourced.code_append, List.length_append, hstop]
      rfl
    have hspan := @Sourced.mem_spans_append_right
      (.plain (.label entry :: Code.plain [.cfp, .lra]) ++ locals) _ _ _ _ hvalue
    rw [hlength, Nat.add_zero] at hspan
    refine ⟨_, _, List.mem_cons_of_mem _ (Sourced.mem_spans_append_left hspan), ?_, ?_,
      List.mem_cons_self⟩
    · rw [← hlength, ← List.length_append, FunDecl.sourcedRoutine, Sourced.code_mark,
        Sourced.code_append]
      exact (List.drop_left.symm ▸ List.prefix_refl _)
    · rw [← hlength, ← List.length_append]
      exact List.length_append.symm

mutual

/-- Every function inside a declaration is lowered among the bodies that belong to it. -/
theorem Decl.lowers : ∀ (d : Decl) {g : CodeContext} {f : SourcedFragment} {q q' : CodeState},
    d.sourced g q = .ok (f, q') → f.bodies.Lowers d.nodes
  | .var d, g, f, q, q', _ => .of_forall_notMem fun f hf => by
    rw [Decl.nodes, List.mem_cons] at hf
    exact d.init.fn_notMem_nodes f (hf.resolve_left nofun)
  | .fn fn, g, f, q, q', hf => by
    simp only [Decl.sourced, bind_eq_ok, pure_eq_ok, Prod.mk.injEq] at hf
    obtain ⟨routine, _, hroutine, rfl, rfl⟩ := hf
    exact fn.lowers hroutine
  | .cls ⟨id, name, superclass, fields, methods, pos⟩, g, f, q, q', hf => by
    simp only [Decl.sourced, bind_eq_ok, pure_eq_ok, Prod.mk.injEq] at hf
    obtain ⟨_, _, -, _, _, -, ⟨table, bodies⟩, q₁, hmethods, _, _, -, rfl, -⟩ := hf
    intro f hf
    rw [Decl.nodes, List.mem_append] at hf
    exact methods_lower methods hmethods f (hf.resolve_left (by simp))

/-- The same of a function and the ones inside it. -/
theorem FunDecl.lowers :
    ∀ (f : FunDecl) {g : CodeContext} {routine : SourcedRoutine} {q q' : CodeState},
    f.sourced g q = .ok (routine, q') → routine.bodies.Lowers f.nodes
  | ⟨id, name, params, result, decls, body, pos⟩, g, routine, q, q', hr => by
    simp only [FunDecl.sourced, bind_eq_ok, pure_eq_ok, lift_eq_ok, Prod.mk.injEq] at hr
    obtain ⟨entry, _, -, locals, q₁, hlocals, _, _, ⟨value, s', hvalue, rfl, rfl⟩, rfl, rfl⟩ := hr
    obtain ⟨place, hrow, hstop⟩ := declsSourced_row hlocals
    -- the code of the functions in it stands before its own
    intro f hf
    rw [FunDecl.nodes, List.cons_append, List.cons_append, List.mem_cons, List.mem_append,
      List.mem_append] at hf
    rcases hf with heq | (hf | hf) | hf
    · cases heq
      exact ⟨_, _, (FunDecl.lowered_routine hrow hstop (Expr.span_of_sourced hvalue)).append_right⟩
    · exact absurd hf (by simp)
    · exact (decls_lower decls hlocals).append_left f hf
    · exact absurd hf (body.fn_notMem_nodes f)

/-- The same of the methods of a class. -/
theorem methods_lower :
    ∀ (ms : List FunDecl) {g : CodeContext} {table : List Label} {m : List Label × Sourced}
    {q q' : CodeState}, methodsSourced g table ms q = .ok (m, q') → m.2.Lowers (methodNodes ms)
  | [], g, table, m, q, q', _ => .of_forall_notMem nofun
  | f :: fs, g, table, m, q, q', hm => by
    simp only [methodsSourced, bind_eq_ok, pure_eq_ok, Prod.mk.injEq] at hm
    obtain ⟨entry, _, -, routine, q₁, hroutine, rest, _, hrest, rfl, rfl⟩ := hm
    exact (f.lowers hroutine).append (methods_lower fs hrest)

/-- The same of several declarations. -/
theorem decls_lower : ∀ (ds : List Decl) {g : CodeContext} {f : SourcedFragment} {q q' : CodeState},
    declsSourced g ds q = .ok (f, q') → f.bodies.Lowers (declNodes ds)
  | [], g, f, q, q', _ => .of_forall_notMem nofun
  | d :: ds, g, f, q, q', hf => by
    simp only [declsSourced, bind_eq_ok, pure_eq_ok, Prod.mk.injEq] at hf
    obtain ⟨a, q₁, ha, b, _, hb, rfl, rfl⟩ := hf
    exact (d.lowers ha).append (decls_lower ds hb)

end

end

namespace Program

variable {p : Program} {r : Resolution} {globalFrame : Int32} {m : Sourced}

/-- The functions and methods of a program all have their code. -/
theorem lowers (h : p.sourced r globalFrame = .ok m) : m.Lowers p.nodes := by
  obtain ⟨locals, q, value, s', hlocals, hvalue, rfl⟩ := sourced_eq_ok.mp h
  intro f hf
  rcases List.mem_append.mp hf with hf | hf
  · exact (decls_lower p.decls hlocals).append_right f hf
  · exact absurd hf (p.body.fn_notMem_nodes f)

/-- The code of the global declarations stands in a row behind the start of the program. -/
theorem exists_row (h : p.sourced r globalFrame = .ok m) :
    ∃ place, m.Row p.decls p.opening.length place := by
  obtain ⟨locals, q, value, s', hlocals, hvalue, rfl⟩ := sourced_eq_ok.mp h
  obtain ⟨place, hrow, -⟩ := declsSourced_row hlocals
  exact ⟨_, hrow.append_right.append_left.append_left.append_left⟩

/-- What a class declaration has for code. -/
theorem exists_dispatchTable (h : p.sourced r globalFrame = .ok m) {c : ClassDecl} {i j : Nat}
    (hs : ⟨.decl (.cls c), i, j⟩ ∈ m.spans) :
    ∃ table, m.code.extract i j = Code.dispatchTable table := by
  obtain ⟨inClass, bodies, q, q', hcode⟩ := ((sourced_maps h).emitted _ hs).emits
  obtain ⟨id, name, superclass, fields, methods, pos⟩ := c
  simp only [Decl.code, bind_eq_ok, pure_eq_ok, Prod.mk.injEq, Fragment.mk.injEq] at hcode
  obtain ⟨_, _, -, _, _, -, ⟨table, _⟩, _, -, _, _, -, ⟨hcode, -⟩, -⟩ := hcode
  exact ⟨table, hcode.symm⟩

end Program

end Stackling
