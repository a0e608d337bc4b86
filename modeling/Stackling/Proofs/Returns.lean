import Stackling.Proofs.Code.Labels
import Stackling.Proofs.Code.Rows
import Stackling.Proofs.Machine.Segments
import Stackling.Proofs.Machine.Sequences
import Stackling.Proofs.Pipeline

/-!
# Returns

The code of a function ends with a fixed sequence that gives up its frame. Whatever the function did
before, if it left its frame as it should, then the caller finds its own frame again, with the
result on top and all else as it was. There is room enough for that even if heap and stack have met:
a cell is only taken after others were given up.
-/

namespace Stackling

open Emission

/-! ### Where functions end -/

/-- The code of each function ends with the value of its body, and then its epilogue. -/
def Sourced.Closes (m : Sourced) : Prop :=
  ∀ f start stop, ⟨.routine f, start, stop⟩ ∈ m.spans →
    ∃ value mid, ⟨.expr f.body, value, mid⟩ ∈ m.spans ∧
    f.epilogue <+: m.code.drop mid ∧ mid + f.epilogue.length = stop

mutual

theorem Expr.routine_notMem_pieces (f : FunDecl) : ∀ e : Expr, .routine f ∉ e.pieces
  | .int _ _ | .bool _ _ | .null _ | .name _ _ _ => by simp [Expr.pieces]
  | .binary _ left right _ => by
    simp [Expr.pieces, left.routine_notMem_pieces f, right.routine_notMem_pieces f]
  | .not e _ | .print e _ => by simp [Expr.pieces, e.routine_notMem_pieces f]
  | .ite c y n _ => by
    simp [Expr.pieces, c.routine_notMem_pieces f, y.routine_notMem_pieces f,
      n.routine_notMem_pieces f]
  | .call _ _ args _ | .send _ _ _ args _ | .new _ _ args _ => by
    simp [Expr.pieces, routine_notMem_argPieces f args]

theorem routine_notMem_argPieces (f : FunDecl) : ∀ es : List Expr, .routine f ∉ argPieces es
  | [] => by simp [argPieces]
  | e :: es => by simp [argPieces, e.routine_notMem_pieces f, routine_notMem_argPieces f es]

end

namespace Sourced.Closes

variable {a b m : Sourced}

theorem plain (code : List Instr) : (Sourced.plain code).Closes := nofun

theorem append (ha : a.Closes) (hb : b.Closes) : (a ++ b).Closes := by
  intro f start stop hs
  rw [spans_append, List.mem_append, List.mem_map] at hs
  rcases hs with hs | ⟨⟨_, i, j⟩, hs, heq⟩
  · obtain ⟨value, mid, hvalue, hend, hstop⟩ := ha f start stop hs
    exact ⟨value, mid, mem_spans_append_left hvalue, drop_append_left hend, hstop⟩
  · cases heq
    obtain ⟨value, mid, hvalue, hend, hstop⟩ := hb f i j hs
    exact ⟨_, _, mem_spans_append_right hvalue,
      drop_append_right hend, by rw [Nat.add_assoc, hstop]⟩

theorem decl (hm : m.Closes) (d : Decl) : (m.mark (.decl d)).Closes := by
  intro f start stop hs
  rw [spans_mark, List.mem_cons] at hs
  obtain ⟨value, mid, hvalue, hend⟩ := hm f start stop (hs.resolve_left nofun)
  exact ⟨value, mid, List.mem_cons_of_mem _ hvalue, hend⟩

end Sourced.Closes

theorem Expr.closes {g : CodeContext} {e : Expr} {m : Sourced} {s s' : LabelSupply}
    (h : e.sourced g s = .ok (m, s')) :
    m.Closes := by
  intro f start stop hs
  have hmem := ((e.maps h).mem_iff _).mp (List.mem_map_of_mem hs)
  exact absurd hmem (e.routine_notMem_pieces f)

theorem FunDecl.closes_routine {f : FunDecl} {entry : Label} {locals value : Sourced}
    (hlocals : locals.Closes) (hvalue : value.Closes)
    (hspan : ⟨.expr f.body, 0, value.code.length⟩ ∈ value.spans) :
    (f.sourcedRoutine entry locals value).Closes := by
  intro f' start stop hs
  rw [FunDecl.sourcedRoutine, Sourced.spans_mark, List.mem_cons] at hs
  rcases hs with heq | hs
  · cases heq
    -- the span of the function itself
    let front := Sourced.plain (.label entry :: Code.plain [.cfp, .lra]) ++ locals
    have hbody := @Sourced.mem_spans_append_right front _ _ _ _ hspan
    refine ⟨_, _, List.mem_cons_of_mem _ (Sourced.mem_spans_append_left hbody), ?_, ?_⟩
    · rw [← List.length_append, FunDecl.sourcedRoutine, Sourced.code_mark, Sourced.code_append]
      exact List.drop_left.symm ▸ List.prefix_refl _
    · rw [← List.length_append]
      exact List.length_append.symm
  · have hparts :=
      (((Sourced.Closes.plain (.label entry :: Code.plain [.cfp, .lra])).append hlocals).append
        hvalue).append (.plain f.epilogue)
    obtain ⟨value', mid, hbody, hend⟩ := hparts f' start stop hs
    exact ⟨value', mid, List.mem_cons_of_mem _ hbody, hend⟩

mutual

theorem Decl.closes : ∀ (d : Decl) {g : CodeContext} {f : SourcedFragment} {q q' : CodeState},
    d.sourced g q = .ok (f, q') → f.code.Closes ∧ f.bodies.Closes
  | .var d, g, f, q, q', hf => by
    simp only [Decl.sourced, bind_eq_ok, pure_eq_ok, lift_eq_ok, Prod.mk.injEq] at hf
    obtain ⟨_, _, ⟨a, s', ha, rfl, rfl⟩, rfl, rfl⟩ := hf
    exact ⟨(Expr.closes ha).decl _, .plain []⟩
  | .fn fn, g, f, q, q', hf => by
    simp only [Decl.sourced, bind_eq_ok, pure_eq_ok, Prod.mk.injEq] at hf
    obtain ⟨routine, _, hroutine, rfl, rfl⟩ := hf
    exact ⟨(Sourced.Closes.plain _).decl _, fn.closes hroutine⟩
  | .cls ⟨id, name, superclass, fields, methods, pos⟩, g, f, q, q', hf => by
    simp only [Decl.sourced, bind_eq_ok, pure_eq_ok, Prod.mk.injEq] at hf
    obtain ⟨_, _, -, _, _, -, ⟨table, bodies⟩, q₁, hmethods, _, _, -, rfl, -⟩ := hf
    exact ⟨(Sourced.Closes.plain _).decl _, methods_close methods hmethods⟩

theorem FunDecl.closes :
    ∀ (f : FunDecl) {g : CodeContext} {routine : SourcedRoutine} {q q' : CodeState},
    f.sourced g q = .ok (routine, q') → routine.bodies.Closes
  | ⟨id, name, params, result, decls, body, pos⟩, g, routine, q, q', hr => by
    simp only [FunDecl.sourced, bind_eq_ok, pure_eq_ok, lift_eq_ok, Prod.mk.injEq] at hr
    obtain ⟨entry, _, -, locals, q₁, hlocals, _, _, ⟨value, s', hvalue, rfl, rfl⟩, rfl, rfl⟩ := hr
    obtain ⟨hcode, hbodies⟩ := decls_close decls hlocals
    exact hbodies.append
      (FunDecl.closes_routine hcode (Expr.closes hvalue) (Expr.span_of_sourced hvalue))

theorem methods_close :
    ∀ (ms : List FunDecl) {g : CodeContext} {table : List Label} {m : List Label × Sourced}
    {q q' : CodeState}, methodsSourced g table ms q = .ok (m, q') → m.2.Closes
  | [], g, table, m, q, q', hm => by
    simp only [methodsSourced, pure_eq_ok, Prod.mk.injEq] at hm
    obtain ⟨rfl, -⟩ := hm
    exact .plain []
  | f :: fs, g, table, m, q, q', hm => by
    simp only [methodsSourced, bind_eq_ok, pure_eq_ok, Prod.mk.injEq] at hm
    obtain ⟨entry, _, -, routine, q₁, hroutine, rest, _, hrest, rfl, rfl⟩ := hm
    exact (f.closes hroutine).append (methods_close fs hrest)

theorem decls_close : ∀ (ds : List Decl) {g : CodeContext} {f : SourcedFragment} {q q' : CodeState},
    declsSourced g ds q = .ok (f, q') → f.code.Closes ∧ f.bodies.Closes
  | [], g, f, q, q', hf => by
    simp only [declsSourced, pure_eq_ok, Prod.mk.injEq] at hf
    obtain ⟨rfl, -⟩ := hf
    exact ⟨.plain [], .plain []⟩
  | d :: ds, g, f, q, q', hf => by
    simp only [declsSourced, bind_eq_ok, pure_eq_ok, Prod.mk.injEq] at hf
    obtain ⟨a, q₁, ha, b, _, hb, rfl, rfl⟩ := hf
    obtain ⟨hcode, hbodies⟩ := d.closes ha
    obtain ⟨hcode', hbodies'⟩ := decls_close ds hb
    exact ⟨hcode.append hcode', hbodies.append hbodies'⟩

end

theorem Program.closes {p : Program} {r : Resolution} {globalFrame : Int32} {m : Sourced}
    (h : p.sourced r globalFrame = .ok m) : m.Closes := by
  obtain ⟨locals, q, value, s', hlocals, hvalue, rfl⟩ := sourced_eq_ok.mp h
  obtain ⟨hcode, hbodies⟩ := decls_close p.decls hlocals
  exact ((((Sourced.Closes.plain _).append hcode).append (Expr.closes hvalue)).append
    (.plain _)).append hbodies

/-! ### What the end of a function does -/

/-- A function is about to return, with its result on top of its frame. Heap and stack may meet but
do not overlap. -/
structure FunDecl.Finishing (f : FunDecl) (image : Image) (s : State) (frame : Nat)
    (target caller : Int32) : Prop where
  /-- Memories of a machine are addressed with its integers. -/
  size_lt : s.memory.size < 2 ^ 31
  fp : s.fp.toInt = frame
  sp : s.sp.toInt = frame - 1 - f.localCells - f.result.cells
  hp_nonneg : 0 ≤ s.hp.toInt
  hp_le : s.hp.toInt ≤ s.sp.toInt
  target_mem : s.memory.get? (frame - 1) = some target
  target_nonneg : 0 ≤ target.toInt
  target_lt : target.toInt < image.ops.size
  caller_mem : s.memory.get? (frame + f.paramCells + 1) = some caller

/-- The function has returned, and all that is left of its frame is the result. -/
structure FunDecl.Returned (f : FunDecl) (s : State) (frame : Nat) (target caller : Int32)
    (s' : State) : Prop where
  ip : s'.ip = target.toInt
  fp : s'.fp = caller
  sp : s'.sp.toInt = frame + f.paramCells + 2 - f.result.cells
  hp : s'.hp = s.hp
  output : s'.output = s.output
  result : ∀ i < f.result.cells,
    s'.memory.get? (frame + f.paramCells + 2 - f.result.cells + i) =
    s.memory.get? (frame - 1 - f.localCells - f.result.cells + i)
  above : ∀ a, frame + f.paramCells + 2 ≤ a → s'.memory.get? a = s.memory.get? a
  below : ∀ a : Nat, a < s.hp.toInt → s'.memory.get? a = s.memory.get? a

/-- The cells of a frame, from the result on its top to the frame of the caller. -/
theorem Memory.segment_frame {m : Memory} {top result locals frame params : Nat}
    {target caller : Int32} (htop : top + result + locals + 1 = frame)
    (hsize : frame + params + 1 < m.size) (htarget : m.get? (frame - 1) = some target)
    (hcaller : m.get? (frame + params + 1) = some caller) :
    ∃ link, m.segment top m.size = m.segment top (top + result) ++
      (m.segment (top + result) (frame - 1) ++
      target :: link :: (m.segment (frame + 1) (frame + params + 1) ++ caller ::
        m.segment (frame + params + 2) m.size)) := by
  obtain ⟨link, hlink⟩ :=
    Option.isSome_iff_exists.mp (Memory.isSome_get? (show frame < m.size by omega))
  have hcallers := segment_cons hsize hcaller
  have hparams :=
    segment_append (m := m) (show frame + 1 ≤ frame + params + 1 by omega) (Nat.le_of_lt hsize)
  have hlinks := segment_cons (show frame < m.size by omega) hlink
  have htargets := segment_cons (show frame - 1 < m.size by omega) htarget
  rw [show frame - 1 + 1 = frame by omega] at htargets
  refine ⟨link, ?_⟩
  rw [← hcallers, hparams, ← hlinks, ← htargets, segment_append (by omega) (by omega),
    segment_append (by omega) (by omega)]

namespace FunDecl.Finishing

variable {f : FunDecl} {w : Platform} {s : State} {frame : Nat} {target caller : Int32}

theorem returned (h : f.Finishing w.image s frame target caller) (hsize : s.memory.size = w.size)
    (hcode : w.image.CodeAt w.address s.ip f.epilogue) :
    ∃ s', s.after w.image (Code.size f.epilogue) = some s' ∧
      f.Returned s frame target caller s' := by
  obtain ⟨-, hfp, hsp, hnonneg, happart, htarget, htarget₀, htarget₁, hcaller⟩ := h
  obtain ⟨top, htop⟩ := Int.eq_ofNat_of_zero_le (Int.le_trans hnonneg happart)
  obtain ⟨heap, hheap⟩ := Int.eq_ofNat_of_zero_le hnonneg
  have hinside := Memory.lt_of_get? hcaller
  obtain ⟨link, hstack⟩ := Memory.segment_frame
    (show top + f.result.cells + f.localCells + 1 = frame by omega) hinside htarget hcaller
  have hpoints := Image.points_of_toInt htarget₀ htarget₁
  have hrep := Platform.rep_segments hsize htop hheap (by omega) (by omega)
  rw [← hsize, hstack] at hrep
  have hlocals : f.localCells = (s.memory.segment (top + f.result.cells) (frame - 1)).length := by
    rw [Memory.length_segment]
    omega
  have hparams : f.paramCells =
      (s.memory.segment (frame + 1) (frame + f.paramCells + 1)).length := by
    rw [Memory.length_segment]
    omega
  have hresult : (s.memory.segment top (top + f.result.cells)).length =
      if f.result.isArrow then 2 else 1 := by
    rw [Memory.length_segment, Nat.add_sub_cancel_left]
    rfl
  rw [FunDecl.epilogue, hlocals, hparams] at hcode
  obtain ⟨ra, tm, hpasses⟩ := Platform.passes_return hcode hresult hpoints hrep.apart
  rw [← hlocals, ← hparams] at hpasses
  obtain ⟨s', hafter, hrep'⟩ := hpasses.advances s hrep
  have hcells : f.result.cells ≤ frame + f.paramCells + 2 := by omega
  have hstart : frame - 1 - f.localCells - f.result.cells = top := by omega
  refine ⟨s', hafter, ?_, hrep'.fp, ?_, ?_, hrep'.output, fun i hi => ?_, fun a ha => ?_,
    fun a ha => ?_⟩
  · rw [hrep'.ip]
    exact Int.toNat_of_nonneg htarget₀
  · rw [hrep'.toInt_sp, List.length_append, Memory.length_segment, Memory.length_segment]
    omega
  · rw [hrep'.hp, Memory.length_segment, Nat.sub_zero]
    exact (Platform.eq_ofNat_of_toInt hheap).symm
  · have hget :=
      hrep'.get?_top (congrArg _ (congrArg _ hsize)) (by omega) (show i < _ from hresult.symm ▸ hi)
    rw [Memory.length_segment, Nat.add_sub_cancel_left] at hget
    rw [hget, hstart, Memory.getElem?_segment (by omega) (by omega)]
  · exact hrep'.get?_above (congrArg _ (congrArg _ hsize)) hsize ha
  · exact hrep'.get?_below (List.append_nil _).symm (by omega) (by omega)

end FunDecl.Finishing

/-- Where the code has come to this place, the function gives up its frame and returns to the
caller. -/
def FunDecl.ReturnsFrom (f : FunDecl) (code : List Instr) (mid : Nat) : Prop :=
  ∀ s frame target caller, s.ip = Code.size (code.take mid) →
    f.Finishing (Code.link code) s frame target caller →
    ∃ s', s.after (Code.link code) (Code.size f.epilogue) = some s' ∧
    f.Returned s frame target caller s'

theorem FunDecl.returnsFrom {f : FunDecl} {code : List Instr} {mid : Nat}
    (hnodup : (Code.defined code).Nodup) (hend : f.epilogue <+: code.drop mid) :
    f.ReturnsFrom code mid := by
  intro s frame target caller hip h
  let w : Platform := ⟨Code.link code, Code.address code, s.memory.size, h.size_lt⟩
  have hcode : w.image.CodeAt w.address s.ip f.epilogue := by
    rw [hip]
    exact Code.codeAt_link_of_prefix hnodup hend
  exact FunDecl.Finishing.returned (w := w) h rfl hcode

namespace Program

/-- In all code that is generated, each function and method ends with its epilogue, and from there
it returns to the caller with nothing but its result. -/
theorem epilogues_restore_callers {p : Program} {r : Resolution} {globalFrame : Int32}
    {listing : Listing} (h : p.generate r globalFrame = .ok listing) :
    ∃ m, p.sourced r globalFrame = .ok m ∧ m.code = listing.instrs ∧
      m.Maps { resolution := r, globalFrame } p.pieces ∧
      Image.ofText listing.text = .ok (Code.link m.code) ∧
      (∀ f, .fn f ∈ p.nodes → ∃ start stop, ⟨.routine f, start, stop⟩ ∈ m.spans) ∧
      ∀ f start stop, ⟨.routine f, start, stop⟩ ∈ m.spans →
        ∃ value mid, ⟨.expr f.body, value, mid⟩ ∈ m.spans ∧
        m.code.extract mid stop = f.epilogue ∧ f.ReturnsFrom m.code mid := by
  obtain ⟨m, hm, hcode⟩ := exists_sourced h
  obtain ⟨hnodup, hdefined⟩ := generate_labels h
  have htext := Image.ofText_text hnodup hdefined
  rw [← hcode] at hnodup
  refine ⟨m, hm, hcode, sourced_maps hm, hcode ▸ htext, fun f hf => ?_, fun f start stop hs => ?_⟩
  · obtain ⟨start, place, hlowered⟩ := lowers hm f hf
    obtain ⟨mid, stop, -, -, -, hspan⟩ := hlowered.closing
    exact ⟨start, stop, hspan⟩
  · obtain ⟨value, mid, hvalue, hend, rfl⟩ := closes hm f start stop hs
    refine ⟨value, mid, hvalue, ?_, FunDecl.returnsFrom hnodup hend⟩
    rw [List.extract_eq_take_drop, Nat.add_sub_cancel_left]
    exact (List.prefix_iff_eq_take.mp hend).symm

/-- A function that returns one of its own functions. -/
def chooser : FunDecl where
  id := 0
  name := "choose"
  params := [⟨1, "b", .bool, default⟩]
  result := .arrow [.int] .int
  decls := [
    .fn {
      id := 2, name := "up", params := [⟨3, "n", .int, default⟩], result := .int, decls :=
        [], pos := default
      body := .binary .add (.name 4 "n" default) (.int 1 default) default },
    .fn {
      id := 5, name := "down", params := [⟨6, "n", .int, default⟩], result := .int, decls :=
        [], pos := default
      body := .binary .sub (.name 7 "n" default) (.int 1 default) default }]
  body := .ite (.name 8 "b" default) (.name 9 "up" default) (.name 10 "down" default) default
  pos := default

def choosing : Program where
  decls := [.fn chooser]
  body := .call 11 "choose" [.bool true default] default
  pos := default

/-- A memory that its frame takes as a whole, with a result on top. -/
def filled : Memory := ((((Memory.zeros 10).set 0 11).set 1 12).set 6 3).set 9 8

theorem epilogues_restore_callers_choosing :
    ∃ m mid s', choosing.sourced choosing.resolve 10 = .ok m ∧
    State.after (Code.link m.code) 16
      { memory := filled, ip := Code.size (m.code.take mid), sp := 0, fp := 7 } = some s' ∧
    s'.ip = 3 ∧ s'.fp = 8 ∧ s'.sp.toInt = 8 ∧ s'.memory.get? 8 = some 11 ∧
    s'.memory.get? 9 = some 12 := by
  have hdistinct : choosing.Distinct := by decide +kernel
  have hresolve : choosing.resolve.errors = [] := by decide +kernel
  have hlength : (choosing.generate choosing.resolve 10).toOption.any (fun l =>
      3 < Code.size l.instrs) = true := by
    decide +kernel
  obtain ⟨listing, hlisting⟩ := exists_generate_resolve hdistinct.built hresolve 10
  obtain ⟨m, hm, hcode, -, -, hfns, hreturns⟩ := epilogues_restore_callers hlisting
  obtain ⟨start, stop, hspan⟩ :=
    hfns chooser (by simp [nodes, choosing, declNodes, Decl.nodes, chooser, FunDecl.nodes])
  obtain ⟨value, mid, -, -, hreturn⟩ := hreturns chooser start stop hspan
  rw [hlisting, Except.toOption, Option.any_some, decide_eq_true_iff, ← hcode, ← Code.size_link]
    at hlength
  obtain ⟨s', hafter, h⟩ :=
    hreturn { memory := filled, ip := Code.size (m.code.take mid), sp := 0, fp := 7 } 7 3 8 rfl
      ⟨show filled.size < 2 ^ 31 by decide +kernel, rfl, rfl, Int.le_refl 0, Int.le_refl 0,
      show filled.get? 6 = some 3 by decide +kernel, by decide, Int.ofNat_lt.mpr hlength,
      show filled.get? 9 = some 8 by decide +kernel⟩
  have hfirst := h.result 0 (by decide)
  have hsecond := h.result 1 (by decide)
  refine ⟨m, mid, s', hm, hafter, Int.ofNat.inj h.ip, h.fp, h.sp, hfirst.trans ?_, hsecond.trans ?_⟩
  · change filled.get? 0 = _
    decide +kernel
  · change filled.get? 1 = _
    decide +kernel

end Program

end Stackling
