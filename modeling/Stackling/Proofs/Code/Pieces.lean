import Stackling.Proofs.Code.SourceMap

/-!
# The source map is complete and right

The source map of a program has an entry for each expression, declaration and function of the
program and for nothing else, and what stands at each entry is the code that is generated for it.
-/

namespace Stackling

/-! ### The pieces of a program -/

mutual

/-- The expressions inside an expression, itself included. -/
def Expr.pieces : Expr → List Origin
  | .int value pos => [.expr (.int value pos)]
  | .bool value pos => [.expr (.bool value pos)]
  | .null pos => [.expr (.null pos)]
  | .name id name pos => [.expr (.name id name pos)]
  | .binary op left right pos => .expr (.binary op left right pos) :: left.pieces ++ right.pieces
  | .not operand pos => .expr (.not operand pos) :: operand.pieces
  | .ite cond yes no pos => .expr (.ite cond yes no pos) :: cond.pieces ++ yes.pieces ++ no.pieces
  | .call id callee args pos => .expr (.call id callee args pos) :: argPieces args
  | .send id receiver method args pos => .expr (.send id receiver method args pos) :: argPieces args
  | .new id cls args pos => .expr (.new id cls args pos) :: argPieces args
  | .print value pos => .expr (.print value pos) :: value.pieces

/-- The expressions inside the arguments of a call. -/
def argPieces : List Expr → List Origin
  | [] => []
  | e :: es => e.pieces ++ argPieces es

end

mutual

/-- The expressions, declarations and functions inside a declaration, itself included. -/
def Decl.pieces : Decl → List Origin
  | .var d => .decl (.var d) :: d.init.pieces
  | .fn f => .decl (.fn f) :: f.pieces
  | .cls ⟨id, name, superclass, fields, methods, pos⟩ =>
    .decl (.cls ⟨id, name, superclass, fields, methods, pos⟩) :: methodPieces methods

/-- The pieces of a function, itself included. -/
def FunDecl.pieces : FunDecl → List Origin
  | ⟨id, name, params, result, decls, body, pos⟩ =>
    .routine ⟨id, name, params, result, decls, body, pos⟩ :: declPieces decls ++ body.pieces

/-- The pieces of several declarations. -/
def declPieces : List Decl → List Origin
  | [] => []
  | d :: ds => d.pieces ++ declPieces ds

/-- The pieces of the methods of a class. -/
def methodPieces : List FunDecl → List Origin
  | [] => []
  | m :: ms => m.pieces ++ methodPieces ms

end

/-- The pieces of a program. -/
def Program.pieces (p : Program) : List Origin := declPieces p.decls ++ p.body.pieces

/-! ### Their code -/

/-- The code that is generated for a piece, up to the labels. The code of the functions in a
function stands before its own. -/
def Origin.Emits (g : CodeContext) (o : Origin) (code : List Instr) : Prop :=
  match o with
  | .expr e => ∃ l l', e.code g l = .ok (code, l')
  | .decl d => ∃ bodies q q', d.code g q = .ok (⟨code, bodies⟩, q')
  | .routine f => ∃ entry inner q q', f.code g q = .ok (⟨entry, inner ++ code⟩, q')

section

variable {a b : List Instr} {i j : Nat}

theorem Code.extract_append_left (hle : i ≤ j) (hj : j ≤ a.length) :
    (a ++ b).extract i j = a.extract i j := by
  rw [List.extract_eq_take_drop, List.drop_append_of_le_length (Nat.le_trans hle hj),
    List.take_append_of_le_length (by rw [List.length_drop]; omega), ← List.extract_eq_take_drop]

theorem Code.extract_append_right :
    (a ++ b).extract (a.length + i) (a.length + j) = b.extract i j := by
  rw [List.extract_eq_take_drop, List.drop_length_add_append,
    Nat.add_sub_add_left, ← List.extract_eq_take_drop]

theorem Code.extract_of_append {code : List Instr} (h : code.extract i j = a ++ b) (hij : i ≤ j) :
    i + a.length ≤ j ∧ code.extract i (i + a.length) = a ∧ code.extract (i + a.length) j = b := by
  rw [List.extract_eq_take_drop] at h
  have hle : a.length ≤ j - i := by
    have hlength := congrArg List.length h
    rw [List.length_take, List.length_append] at hlength
    omega
  refine ⟨by omega, ?_, ?_⟩
  · rw [List.extract_eq_take_drop, Nat.add_sub_cancel_left, ← Nat.min_eq_left hle, ← List.take_take,
      h, List.take_left]
  · rw [List.extract_eq_take_drop, ← List.drop_drop, Nat.sub_add_eq, ← List.drop_take, h,
      List.drop_left]

end

/-- The code at the span is generated for its piece, within a class or not. -/
structure Span.Emitted (g : CodeContext) (code : List Instr) (s : Span) : Prop where
  start_le : s.start ≤ s.stop
  stop_le : s.stop ≤ code.length
  emits : ∃ inClass, s.origin.Emits { g with inClass } (code.extract s.start s.stop)

/-- The pieces that have entries. -/
def Sourced.origins (m : Sourced) : List Origin := m.spans.map Span.origin

/-- The map has entries for just the pieces in the list, and they are right. -/
structure Sourced.Maps (g : CodeContext) (m : Sourced) (pieces : List Origin) : Prop where
  mem_iff : ∀ o, o ∈ m.origins ↔ o ∈ pieces
  emitted : ∀ s ∈ m.spans, s.Emitted g m.code

namespace Sourced.Maps

variable {g : CodeContext} {a b m : Sourced} {os os' : List Origin}

theorem plain (code : List Instr) : (Sourced.plain code).Maps g [] where
  mem_iff := fun _ => Iff.rfl
  emitted := nofun

/-- The pieces of two parts are mapped by the spans of both. -/
theorem append (ha : a.Maps g os) (hb : b.Maps g os') : (a ++ b).Maps g (os ++ os') where
  mem_iff := by
    intro o
    have horigins : (a ++ b).origins = a.origins ++ b.origins := by
      rw [origins, spans_append, List.map_append, List.map_map]
      rfl
    rw [horigins, List.mem_append, List.mem_append, ha.mem_iff, hb.mem_iff]
  emitted := by
    rw [spans_append, code_append, List.forall_mem_append, List.forall_mem_map]
    constructor
    · intro s hs
      obtain ⟨hle, hstop, inClass, hemits⟩ := ha.emitted s hs
      refine ⟨hle, by rw [List.length_append]; omega, inClass, ?_⟩
      rw [Code.extract_append_left hle hstop]
      exact hemits
    · intro s hs
      obtain ⟨hle, hstop, inClass, hemits⟩ := hb.emitted s hs
      refine ⟨Nat.add_le_add_left hle _, ?_, inClass, ?_⟩
      · rw [List.length_append]
        exact Nat.add_le_add_left hstop _
      · change s.origin.Emits _
          ((a.code ++ b.code).extract (a.code.length + s.start) (a.code.length + s.stop))
        rw [Code.extract_append_right]
        exact hemits

/-- A span for the whole code maps one more piece. -/
theorem mark (hm : m.Maps g os) {o : Origin} (inClass : Bool)
    (ho : o.Emits { g with inClass } m.code) :
    (m.mark o).Maps g (o :: os) where
  mem_iff := by
    intro o'
    rw [List.mem_cons, ← hm.mem_iff]
    exact List.mem_cons
  emitted := by
    rw [spans_mark, List.forall_mem_cons]
    refine ⟨⟨Nat.zero_le _, Nat.le_refl _, inClass, ?_⟩, hm.emitted⟩
    simpa [List.extract_eq_take_drop] using ho

/-- The order of the pieces does not matter. -/
theorem congr (hm : m.Maps g os) (h : ∀ o, o ∈ os ↔ o ∈ os') : m.Maps g os' where
  mem_iff := fun o => (hm.mem_iff o).trans (h o)
  emitted := hm.emitted

/-- Whether the code stands in a class is left open. -/
theorem outside {inClass : Bool} (hm : m.Maps { g with inClass } os) : m.Maps g os where
  mem_iff := hm.mem_iff
  emitted := fun s hs =>
    have hs := hm.emitted s hs
    ⟨hs.start_le, hs.stop_le, hs.emits⟩

end Sourced.Maps

open Emission

/-- The code without its spans, for a run that succeeds. -/
theorem Expr.code_of_sourced {g : CodeContext} {e : Expr} {m : Sourced} {s s' : LabelSupply}
    (h : e.sourced g s = .ok (m, s')) : e.code g s = .ok (m.code, s') := by
  rw [← e.sourced_code g, map_eq_ok]
  exact ⟨m, h, rfl⟩

/-- An expression whose parts are mapped is mapped. -/
theorem Sourced.Maps.expr {g : CodeContext} {e : Expr} {m : Sourced} {os : List Origin}
    {s s' : LabelSupply} (hm : m.Maps g os) (h : e.sourced g s = .ok (m.mark (.expr e), s')) :
    (m.mark (.expr e)).Maps g (.expr e :: os) := by
  have hcode := Expr.code_of_sourced h
  exact hm.mark g.inClass ⟨s, s', hcode⟩

mutual

/-- There is a span for every piece of an expression, and what stands there is emitted for the
piece. -/
theorem Expr.maps {g : CodeContext} :
    ∀ (e : Expr) {m : Sourced} {s s' : LabelSupply}, e.sourced g s = .ok (m, s') → m.Maps g e.pieces
  | .int _ _, m, s, s', hm | .bool _ _, m, s, s', hm | .null _, m, s, s', hm => by
    have h := hm
    simp only [Expr.sourced, map_eq_ok, pure_eq_ok, Prod.mk.injEq] at h
    obtain ⟨_, ⟨rfl, rfl⟩, rfl⟩ := h
    exact .expr (.plain _) hm
  | .name id name pos, m, s, s', hm => by
    have h := hm
    simp only [Expr.sourced, map_eq_ok, bind_eq_ok, pure_eq_ok, Prod.mk.injEq] at h
    obtain ⟨_, ⟨b, _, -, rfl, rfl⟩, rfl⟩ := h
    exact .expr (.plain _) hm
  | .binary op left right pos, m, s, s', hm => by
    have h := hm
    cases op with
    | add | sub | mul | div | and =>
      simp only [Expr.sourced, map_eq_ok, bind_eq_ok, pure_eq_ok, Prod.mk.injEq] at h
      obtain ⟨_, ⟨a, s₁, ha, b, _, hb, rfl, rfl⟩, rfl⟩ := h
      exact (Sourced.Maps.expr (((left.maps ha).append (right.maps hb)).append (.plain _)) hm).congr
        (by simp [Expr.pieces])
    | or =>
      simp only [Expr.sourced, map_eq_ok, bind_eq_ok, pure_eq_ok, Prod.mk.injEq] at h
      obtain ⟨_, ⟨yes, _, -, done, _, -, a, s₁, ha, b, _, hb, rfl, rfl⟩, rfl⟩ := h
      exact (Sourced.Maps.expr ((((left.maps ha).append (.plain _)).append (right.maps hb)).append
        (.plain _)) hm).congr (by simp [Expr.pieces])
    | equal | lessEqual =>
      simp only [Expr.sourced, compareSourced, map_eq_ok, bind_eq_ok, pure_eq_ok, Prod.mk.injEq]
        at h
      obtain ⟨_, ⟨yes, _, -, done, _, -, a, s₁, ha, b, _, hb, rfl, rfl⟩, rfl⟩ := h
      exact (Sourced.Maps.expr (((left.maps ha).append (right.maps hb)).append (.plain _)) hm).congr
        (by simp [Expr.pieces])
    | greaterEqual =>
      simp only [Expr.sourced, compareSourced, map_eq_ok, bind_eq_ok, pure_eq_ok, Prod.mk.injEq]
        at h
      obtain ⟨_, ⟨yes, _, -, done, _, -, b, s₁, hb, a, _, ha, rfl, rfl⟩, rfl⟩ := h
      exact (Sourced.Maps.expr (((right.maps hb).append (left.maps ha)).append (.plain _)) hm).congr
        (by simp [Expr.pieces, or_comm])
  | .not e pos, m, s, s', hm => by
    have h := hm
    simp only [Expr.sourced, map_eq_ok, bind_eq_ok, pure_eq_ok, Prod.mk.injEq] at h
    obtain ⟨_, ⟨a, _, ha, rfl, rfl⟩, rfl⟩ := h
    exact (Sourced.Maps.expr (((Sourced.Maps.plain _).append (e.maps ha)).append (.plain _))
      hm).congr (by simp [Expr.pieces])
  | .ite c y n pos, m, s, s', hm => by
    have h := hm
    simp only [Expr.sourced, map_eq_ok, bind_eq_ok, pure_eq_ok, Prod.mk.injEq] at h
    obtain ⟨_, ⟨taken, _, -, done, _, -, cc, _, hcc, cn, _, hcn, cy, _, hcy, rfl, rfl⟩, rfl⟩ := h
    exact (Sourced.Maps.expr
      ((((((c.maps hcc).append (.plain _)).append (n.maps hcn)).append (.plain _)).append
        (y.maps hcy)).append (.plain _)) hm).congr (by simp [Expr.pieces, or_comm])
  | .print e pos, m, s, s', hm => by
    have h := hm
    simp only [Expr.sourced, map_eq_ok, bind_eq_ok, pure_eq_ok, Prod.mk.injEq] at h
    obtain ⟨_, ⟨a, _, ha, rfl, rfl⟩, rfl⟩ := h
    exact (Sourced.Maps.expr ((e.maps ha).append (.plain _)) hm).congr (by simp [Expr.pieces])
  | .call id callee args pos, m, s, s', hm => by
    have h := hm
    simp only [Expr.sourced, map_eq_ok, bind_eq_ok, pure_eq_ok, Prod.mk.injEq] at h
    obtain ⟨_, ⟨b, _, -, a, _, ha, rfl, rfl⟩, rfl⟩ := h
    exact (Sourced.Maps.expr (((Sourced.Maps.plain _).append (argumentsSourced_maps args ha)).append
      (.plain _)) hm).congr (by simp [Expr.pieces])
  | .send id receiver method args pos, m, s, s', hm => by
    have h := hm
    simp only [Expr.sourced, map_eq_ok, bind_eq_ok, pure_eq_ok, Prod.mk.injEq] at h
    obtain ⟨_, ⟨d, _, -, a, _, ha, rfl, rfl⟩, rfl⟩ := h
    exact (Sourced.Maps.expr (((Sourced.Maps.plain _).append (argumentsSourced_maps args ha)).append
      (.plain _)) hm).congr (by simp [Expr.pieces])
  | .new id cls args pos, m, s, s', hm => by
    have h := hm
    simp only [Expr.sourced, map_eq_ok, bind_eq_ok] at h
    obtain ⟨_, ⟨b, _, -, h⟩, rfl⟩ := h
    cases hty : b.entry.ty with
    | cls c =>
      simp only [hty, bind_eq_ok, pure_eq_ok, Prod.mk.injEq] at h
      obtain ⟨a, _, ha, rfl, rfl⟩ := h
      exact (Sourced.Maps.expr ((valuesSourced_maps args ha).append (.plain _)) hm).congr
        (by simp [Expr.pieces])
    | int | bool | null | ref _ | arrow _ | method _ =>
      simp only [hty] at h
      exact (throw_ne_ok.mp h).elim

/-- The same of the arguments of a call. -/
theorem argumentsSourced_maps {g : CodeContext} :
    ∀ (es : List Expr) {m : Sourced} {s s' : LabelSupply},
    argumentsSourced g es s = .ok (m, s') → m.Maps g (argPieces es)
  | [], m, s, s', hm => by
    simp only [argumentsSourced, pure_eq_ok, Prod.mk.injEq] at hm
    obtain ⟨rfl, rfl⟩ := hm
    exact .plain []
  | e :: es, m, s, s', hm => by
    simp only [argumentsSourced, bind_eq_ok, pure_eq_ok, Prod.mk.injEq] at hm
    obtain ⟨a, s₁, ha, b, _, hb, rfl, rfl⟩ := hm
    exact ((argumentsSourced_maps es ha).append (e.maps hb)).congr (by simp [argPieces, or_comm])

/-- The same of the arguments of a constructor. -/
theorem valuesSourced_maps {g : CodeContext} :
    ∀ (es : List Expr) {m : Sourced} {s s' : LabelSupply},
    valuesSourced g es s = .ok (m, s') → m.Maps g (argPieces es)
  | [], m, s, s', hm => by
    simp only [valuesSourced, pure_eq_ok, Prod.mk.injEq] at hm
    obtain ⟨rfl, rfl⟩ := hm
    exact .plain []
  | e :: es, m, s, s', hm => by
    simp only [valuesSourced, bind_eq_ok, pure_eq_ok, Prod.mk.injEq] at hm
    obtain ⟨a, s₁, ha, b, _, hb, rfl, rfl⟩ := hm
    exact (e.maps ha).append (valuesSourced_maps es hb)

end

theorem Decl.code_of_sourced {g : CodeContext} {d : Decl} {f : SourcedFragment} {q q' : CodeState}
    (h : d.sourced g q = .ok (f, q')) : d.code g q = .ok (⟨f.code.code, f.bodies.code⟩, q') := by
  rw [← d.sourced_code g, map_eq_ok]
  exact ⟨f, h, rfl⟩

theorem FunDecl.code_of_sourced {g : CodeContext} {f : FunDecl} {r : SourcedRoutine}
    {q q' : CodeState} (h : f.sourced g q = .ok (r, q')) :
    f.code g q = .ok (⟨r.entry, r.bodies.code⟩, q') := by
  rw [← f.sourced_code g, map_eq_ok]
  exact ⟨r, h, rfl⟩

/-- A fragment is mapped if its two parts are. -/
def SourcedFragment.Maps (g : CodeContext) (f : SourcedFragment) (pieces : List Origin) : Prop :=
  ∃ own inner, f.code.Maps g own ∧ f.bodies.Maps g inner ∧ ∀ o, o ∈ own ++ inner ↔ o ∈ pieces

mutual

/-- The same of a declaration, part of whose pieces are among the bodies. -/
theorem Decl.maps : ∀ (d : Decl) {g : CodeContext} {f : SourcedFragment} {q q' : CodeState},
    d.sourced g q = .ok (f, q') → f.Maps g d.pieces
  | .var d, g, f, q, q', hf => by
    have hcode := Decl.code_of_sourced hf
    simp only [Decl.sourced, bind_eq_ok, pure_eq_ok, lift_eq_ok, Prod.mk.injEq] at hf
    obtain ⟨_, _, ⟨a, s', ha, rfl, rfl⟩, rfl, rfl⟩ := hf
    exact ⟨_, _, (d.init.maps ha).mark g.inClass ⟨_, _, _, hcode⟩, .plain [], by simp [Decl.pieces]⟩
  | .fn fn, g, f, q, q', hf => by
    have hcode := Decl.code_of_sourced hf
    simp only [Decl.sourced, bind_eq_ok, pure_eq_ok, Prod.mk.injEq] at hf
    obtain ⟨routine, _, hroutine, rfl, rfl⟩ := hf
    exact ⟨_, _, (Sourced.Maps.plain _).mark g.inClass ⟨_, _, _, hcode⟩,
      fn.maps hroutine, by simp [Decl.pieces]⟩
  | .cls ⟨id, name, superclass, fields, methods, pos⟩, g, f, q, q', hf => by
    have hcode := Decl.code_of_sourced hf
    simp only [Decl.sourced, bind_eq_ok, pure_eq_ok, get_eq_ok, modify_eq_ok, Prod.mk.injEq] at hf
    obtain ⟨_, _, -, _, _, -, ⟨table, bodies⟩, q₁, hmethods, _, _, -, rfl, -⟩ := hf
    exact ⟨_, _, (Sourced.Maps.plain _).mark g.inClass ⟨_, _, _, hcode⟩,
      (methods_map methods hmethods).outside, by simp [Decl.pieces]⟩

/-- The same of a function. -/
theorem FunDecl.maps :
    ∀ (f : FunDecl) {g : CodeContext} {routine : SourcedRoutine} {q q' : CodeState},
    f.sourced g q = .ok (routine, q') → routine.bodies.Maps g f.pieces
  | ⟨id, name, params, result, decls, body, pos⟩, g, routine, q, q', hr => by
    have hcode := FunDecl.code_of_sourced hr
    simp only [FunDecl.sourced, bind_eq_ok, pure_eq_ok, lift_eq_ok, Prod.mk.injEq] at hr
    obtain ⟨entry, _, -, locals, q₁, hlocals, _, _, ⟨value, s', hvalue, rfl, rfl⟩, rfl, rfl⟩ := hr
    obtain ⟨own, inner, hown, hinner, hmem⟩ := decls_map decls hlocals
    have hroutine :
        (FunDecl.sourcedRoutine ⟨id, name, params, result, decls, body, pos⟩ entry
          locals.code value).Maps g
        (.routine ⟨id, name, params, result, decls, body, pos⟩ ::
          ([] ++ own ++ body.pieces ++ [])) :=
      Sourced.Maps.mark ((((Sourced.Maps.plain _).append hown).append (body.maps hvalue)).append
        (.plain _)) g.inClass ⟨entry, locals.bodies.code, _, _, hcode⟩
    refine (hinner.append hroutine).congr fun o => ?_
    simp only [FunDecl.pieces, List.nil_append, List.append_nil, List.cons_append, List.mem_append,
      List.mem_cons, ← hmem]
    grind

/-- The same of several declarations. -/
theorem decls_map : ∀ (ds : List Decl) {g : CodeContext} {f : SourcedFragment} {q q' : CodeState},
    declsSourced g ds q = .ok (f, q') → f.Maps g (declPieces ds)
  | [], g, f, q, q', hf => by
    simp only [declsSourced, pure_eq_ok, Prod.mk.injEq] at hf
    obtain ⟨rfl, rfl⟩ := hf
    exact ⟨[], [], .plain [], .plain [], by simp [declPieces]⟩
  | d :: ds, g, f, q, q', hf => by
    simp only [declsSourced, bind_eq_ok, pure_eq_ok, Prod.mk.injEq] at hf
    obtain ⟨a, q₁, ha, b, _, hb, rfl, rfl⟩ := hf
    obtain ⟨own, inner, hown, hinner, hmem⟩ := d.maps ha
    obtain ⟨own', inner', hown', hinner', hmem'⟩ := decls_map ds hb
    refine ⟨_, _, hown.append hown', hinner.append hinner', fun o => ?_⟩
    simp only [declPieces, List.mem_append, ← hmem, ← hmem']
    grind

/-- The same of the methods of a class. -/
theorem methods_map :
    ∀ (ms : List FunDecl) {g : CodeContext} {table : List Label} {m : List Label × Sourced}
    {q q' : CodeState}, methodsSourced g table ms q = .ok (m, q') → m.2.Maps g (methodPieces ms)
  | [], g, table, m, q, q', hm => by
    simp only [methodsSourced, pure_eq_ok, Prod.mk.injEq] at hm
    obtain ⟨rfl, rfl⟩ := hm
    exact .plain []
  | f :: fs, g, table, m, q, q', hm => by
    simp only [methodsSourced, bind_eq_ok, pure_eq_ok, Prod.mk.injEq] at hm
    obtain ⟨entry, _, -, routine, q₁, hroutine, rest, _, hrest, rfl, rfl⟩ := hm
    exact (f.maps hroutine).append (methods_map fs hrest)

end

namespace Program

variable {p : Program} {r : Resolution} {globalFrame : Int32}

theorem sourced_eq_ok {m : Sourced} :
    p.sourced r globalFrame = .ok m ↔
      ∃ locals q value s', declsSourced { resolution := r, globalFrame } p.decls {} =
        .ok (locals, q) ∧
        p.body.sourced { resolution := r, globalFrame } q.labels = .ok (value, s') ∧
        .plain p.opening ++ locals.code ++ value ++ .plain [.bare .halt] ++ locals.bodies = m := by
  have hrun : p.sourced r globalFrame = .ok m ↔
      ∃ q, p.sourcedCode { resolution := r, globalFrame } {} = .ok (m, q) := by
    change (Prod.fst <$> p.sourcedCode { resolution := r, globalFrame } {}) = .ok m ↔ _
    cases p.sourcedCode { resolution := r, globalFrame } {} <;>
      simp [Functor.map, Except.map, Prod.ext_iff]
  simp only [hrun, sourcedCode, bind_eq_ok, pure_eq_ok, lift_eq_ok, Prod.mk.injEq]
  constructor
  · rintro ⟨_, locals, q, hlocals, _, _, ⟨value, s', hvalue, rfl, rfl⟩, rfl, -⟩
    exact ⟨locals, q, value, s', hlocals, hvalue, rfl⟩
  · rintro ⟨locals, q, value, s', hlocals, hvalue, rfl⟩
    exact ⟨_, locals, q, hlocals, _, _, ⟨value, s', hvalue, rfl, rfl⟩, rfl, rfl⟩

/-- The source map of a program has all its pieces, with their code. -/
theorem sourced_maps {m : Sourced} (h : p.sourced r globalFrame = .ok m) :
    m.Maps { resolution := r, globalFrame } p.pieces := by
  obtain ⟨locals, q, value, s', hlocals, hvalue, rfl⟩ := sourced_eq_ok.mp h
  obtain ⟨own, inner, hown, hinner, hmem⟩ := decls_map p.decls hlocals
  refine (((((Sourced.Maps.plain _).append hown).append (p.body.maps hvalue)).append
    (.plain _)).append hinner).congr
    fun o => ?_
  simp only [Program.pieces, List.nil_append, List.append_nil, List.mem_append, ← hmem]
  grind

end Program

end Stackling
