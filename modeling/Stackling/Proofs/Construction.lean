import Stackling.Proofs.Balance
import Stackling.Proofs.Inheritance
import Stackling.Proofs.Machine.Segments
import Stackling.Proofs.Machine.Sequences
import Stackling.Proofs.Resolution.Sites

/-!
# Construction of objects

The values of the fields are computed onto the stack one after the other. Then they are taken from
the top and written behind the heap, so that the last cell comes first; the address behind them,
which holds the dispatch pointer, becomes the object. Layouts count the same cells from there
downwards, in the order of the fields. So each field is at its offset.
-/

namespace Stackling

open Emission

/-! ### Arguments -/

/-- Arguments that pass the check have types of the sizes that are asked for. -/
theorem exists_types_of_checkArgs {r : Resolution} {wrong : Nat → TypingError} :
    ∀ {es : List Expr} {ts : List Ty} {n : Nat},
    checkArgs r wrong n es ts = .ok () → es.length = ts.length →
      ∃ as, List.Forall₂ (fun e a => e.infer r = .ok a) es as ∧ as.map Ty.cells = ts.map Ty.cells
  | [], [], _, _, _ => ⟨[], .nil, rfl⟩
  | e :: es, t :: ts, n, h, hlength => by
    rw [checkArgs, Except.bind_eq_ok] at h
    obtain ⟨a, ha, h⟩ := h
    split at h
    next hsub =>
      obtain ⟨as, has, hcells⟩ := exists_types_of_checkArgs h (Nat.succ.inj hlength)
      exact ⟨a :: as, .cons ha has,
        by rw [List.map_cons, List.map_cons, hcells, Hierarchy.cells_of_isSubtype hsub]⟩
    next => cases h

/-! ### What construction does to a state -/

/-- The arguments of an object are on top of the stack and there is room between them and the heap.
Somewhere below the arguments the dispatch pointer is found. -/
structure State.Supplied (s : State) (cells stack heap slot : Nat) (table : Int32) : Prop where
  /-- Memories of a machine are addressed with its integers. -/
  size_lt : s.memory.size < 2 ^ 31
  sp : s.sp.toInt = stack
  stack_le : stack + cells ≤ s.memory.size
  hp : s.hp.toInt = heap
  room : heap + 3 < stack
  slot_ge : stack + cells ≤ slot
  slot_mem : s.memory.get? slot = some table

/-- The arguments are behind the heap and the dispatch pointer behind them, and its address has
taken their place on the stack. -/
structure State.Constructs (s : State) (cells stack heap : Nat) (table : Int32) (s' : State) :
    Prop where
  sp : s'.sp.toInt = stack + cells - 1
  object : s'.memory.get? (stack + cells - 1) = some (Int32.ofNat (heap + cells))
  hp : s'.hp.toInt = heap + cells + 1
  table : s'.memory.get? (heap + cells) = some table
  cell : ∀ i < cells, s'.memory.get? (heap + i) = s.memory.get? (stack + i)
  fp : s'.fp = s.fp
  output : s'.output = s.output
  below : ∀ a < heap, s'.memory.get? a = s.memory.get? a
  above : ∀ a, stack + cells ≤ a → s'.memory.get? a = s.memory.get? a

theorem State.Supplied.constructs {w : Platform} {s : State} {cells stack heap slot : Nat}
    {table word : Int32} (h : s.Supplied cells stack heap slot table)
    (hsize : s.memory.size = w.size) (hword : word.toInt = slot)
    (hcode : w.image.CodeAt w.address s.ip (Code.makeObject cells word)) :
    ∃ s', s.after w.image (Code.size (Code.makeObject cells word)) = some s' ∧
      s'.ip = s.ip + Code.size (Code.makeObject cells word) ∧
      s.Constructs cells stack heap table s' := by
  obtain ⟨-, hsp, hstack, hhp, hroom, hslot, htable⟩ := h
  rw [hsize] at hstack
  have hrep := Platform.rep_segments hsize hsp hhp (by omega) (by omega)
  have hcells : cells = (s.memory.segment stack (stack + cells)).length := by
    rw [Memory.length_segment, Nat.add_sub_cancel_left]
  rw [← Memory.segment_append (Nat.le_add_right stack cells) hstack] at hrep
  rw [hcells] at hcode
  have hgap : (s.memory.segment 0 heap).length + (s.memory.segment stack (stack + cells) ++
      s.memory.segment (stack + cells) w.size).length + 3 < w.size := by
    simp only [List.length_append, Memory.length_segment]
    omega
  obtain ⟨s', hafter, hrep'⟩ :=
    (Platform.passes_makeObject hcode (Platform.has_segment hsize hslot hword htable _)
      hgap).advances s hrep
  rw [← hcells, ← Code.size_makeObject cells word] at hafter hrep'
  refine ⟨s', hafter, hrep'.ip, ?_, ?_, ?_, ?_, fun i hi => ?_, hrep'.fp, hrep'.output, fun a ha =>
    ?_, fun a ha => ?_⟩
  · rw [hrep'.toInt_sp, List.length_cons, Memory.length_segment]
    omega
  · have htop := hrep'.get?_top (List.singleton_append).symm hstack (Nat.zero_lt_one)
    rw [Memory.length_segment] at htop
    exact htop
  · rw [hrep'.toInt_hp]
    simp only [List.length_append, Memory.length_segment, List.length_singleton]
    omega
  · refine hrep'.heap _ _ ?_
    rw [List.getElem?_append_right (by simp), List.length_append, ← hcells, Memory.length_segment,
      Nat.sub_zero, Nat.sub_self]
    rfl
  · obtain ⟨v, hv⟩ :=
      Option.isSome_iff_exists.mp (Memory.isSome_get? (show stack + i < s.memory.size by omega))
    rw [hv]
    refine hrep'.heap _ _ ?_
    rw [List.append_assoc, List.getElem?_append_right (by simp), Memory.length_segment,
      Nat.sub_zero, Nat.add_sub_cancel_left, List.getElem?_append_left (by omega),
      Memory.getElem?_segment (by omega) (by omega), hv]
  · exact hrep'.get?_below (List.append_assoc _ _ _) (by omega) ha
  · exact hrep'.get?_above List.singleton_append.symm hsize ha

/-! ### Fields -/

/-- Each field of the object is found at its offset and has the value of the argument at its
position. The arguments from there on are on top of the stack, so the first cell of the argument is
the last one of theirs. -/
def ObjectLayout.Filled (l : ObjectLayout) (types : List Ty) (s : State) (stack : Nat)
    (object : Int32) (s' : State) : Prop :=
  ∀ (x : String) (m : Member), l.members[x]? = some m → m.isMethod = false →
    s'.memory.cell? (object + m.entry.offset) =
      s.memory.get? (stack + totalCells Ty.cells (types.drop m.position) - 1) ∧
    (m.entry.ty.isArrow = true → s'.memory.cell? (object + m.entry.offset - 1) =
      s.memory.get? (stack + totalCells Ty.cells (types.drop m.position) - 2))

theorem State.Constructs.filled {l : ObjectLayout} {types : List Ty} {s s' : State}
    {stack heap : Nat} {table : Int32} (h : s.Constructs l.classTy.cells stack heap table s')
    (harranged : l.Arranged) (htiled : l.Tiled)
    (htypes : types.map Ty.cells = l.classTy.fields.map Ty.cells)
    (hlt : heap + l.classTy.cells < 2 ^ 31) :
    l.Filled types s stack (Int32.ofNat (heap + l.classTy.cells)) s' := by
  intro x m hm hfield
  have hty := harranged.ty_at hm
  rw [hfield] at hty
  have hcells : m.entry.ty.cells ≤ totalCells Ty.cells (l.classTy.fields.drop m.position) :=
    le_totalCells_drop _ hty
  have hsum : _ = l.classTy.cells := totalCells_take_add_drop Ty.cells l.classTy.fields m.position
  have hrest : totalCells Ty.cells (types.drop m.position) =
      totalCells Ty.cells (l.classTy.fields.drop m.position) :=
    totalCells_eq_of_map_eq (by rw [List.map_drop, List.map_drop, htypes])
  rw [hrest, htiled.offset hm hfield]
  generalize totalCells Ty.cells (l.classTy.fields.take m.position) = before at hsum ⊢
  generalize totalCells Ty.cells (l.classTy.fields.drop m.position) = rest at hcells hsum ⊢
  have hpos := m.entry.ty.cells_pos
  have haddress : Int32.ofNat (heap + l.classTy.cells) + Int32.ofInt (-1 - before) =
      Int32.ofNat (heap + (rest - 1)) := by
    rw [← Int32.ofInt_eq_ofNat, ← Int32.ofInt_add, ← Int32.ofInt_eq_ofNat]
    congr 1
    omega
  rw [haddress]
  refine ⟨?_, fun harrow => ?_⟩
  · rw [Platform.cell?_ofNat (by omega), h.cell _ (by omega), Nat.add_sub_assoc (by omega)]
  · have htwo : 2 ≤ rest := by
      cases hty' : m.entry.ty <;> simp [hty', Ty.isArrow] at harrow
      rw [hty'] at hcells
      exact hcells
    have hsecond : Int32.ofNat (heap + (rest - 1)) - 1 = Int32.ofNat (heap + (rest - 2)) := by
      rw [show heap + (rest - 2) = heap + (rest - 1) - 1 by omega, Int32.ofNat_sub _ 1 (by omega)]
      rfl
    rw [hsecond, Platform.cell?_ofNat (by omega), h.cell _ (by omega), Nat.add_sub_assoc (by omega)]

/-! ### Programs -/

/-- From the place `mid` up to `stop`, the code makes an object of the class from arguments of these
types. The slot of the class is the cell at its offset in the global frame. -/
def ClassRecord.MadeFrom (record : ClassRecord) (globalFrame : Int32) (types : List Ty)
    (code : List Instr) (mid stop : Nat) :
    Prop :=
  ∀ (s : State) (stack heap slot : Nat) (table : Int32), s.ip = Code.size (code.take mid) →
    (globalFrame + record.entry.offset).toInt = slot →
    s.Supplied record.layout.classTy.cells stack heap slot table →
      ∃ s', s.after (Code.link code) (Code.size (code.extract mid stop)) = some s' ∧
      s'.ip = Code.size (code.take stop) ∧
        s.Constructs record.layout.classTy.cells stack heap table s' ∧
        record.layout.Filled types s stack (Int32.ofNat (heap + record.layout.classTy.cells)) s'

theorem ClassRecord.madeFrom {record : ClassRecord} {globalFrame : Int32} {types : List Ty}
    {code : List Instr} {mid stop : Nat} (hnodup : (Code.defined code).Nodup) (hle : mid ≤ stop)
    (hcode : code.extract mid stop =
      Code.makeObject record.layout.classTy.cells (globalFrame + record.entry.offset))
    (harranged : record.layout.Arranged) (htiled : record.layout.Tiled)
    (htypes : types.map Ty.cells = record.layout.classTy.fields.map Ty.cells) :
    record.MadeFrom globalFrame types code mid stop := by
  intro s stack heap slot table hip hslot h
  let w : Platform := ⟨Code.link code, Code.address code, s.memory.size, h.size_lt⟩
  have hat : w.image.CodeAt w.address s.ip (code.extract mid stop) := by
    rw [hip, List.extract_eq_take_drop]
    exact Code.codeAt_link_of_prefix hnodup (List.take_prefix _ _)
  rw [hcode] at hat ⊢
  obtain ⟨s', hafter, hip', hconstructs⟩ := State.Supplied.constructs (w := w) h rfl hslot hat
  refine ⟨s', hafter, ?_, hconstructs, hconstructs.filled harranged htiled htypes ?_⟩
  · rw [hip', hip, ← hcode, Code.size_take_add_size_extract hle]
  · have hsize := h.size_lt
    have hstack := h.stack_le
    have hroom := h.room
    omega

namespace Program

variable {p : Program}

/-- A class that is used is on record. -/
theorem exists_record_of_new (hdistinct : p.Distinct) (h : p.resolve.errors = []) {id : NodeId}
    {cls : String} {args : List Expr} {pos : SourcePos}
    (hmem : .expr (.new id cls args pos) ∈ p.pieces) {b : Binding}
    (hb : p.resolve.uses[id]? = some b) :
    ∃ record, p.resolve.class? cls = some record ∧ b.entry = record.entry := by
  have hnode : Node.use id (.new id cls args pos) ∈ p.nodes :=
    nodes_subset_of_mem_pieces hmem List.mem_cons_self
  obtain ⟨env, hrec, hold⟩ := sited hdistinct h _ hnode
  rw [Expr.resolve, Resolution.HoldsAll.cons] at hold
  obtain ⟨record, hrecord, huse⟩ := Env.useClass_holds hold.1
  cases hb.symm.trans huse
  exact ⟨record, hrec cls record hrecord, rfl⟩

theorem layout_of_class? (hdistinct : p.Distinct) (haccepted : p.Accepted) {x : String}
    {record : ClassRecord} (hrecord : p.resolve.class? x = some record) :
    record.entry.ty = .cls record.layout.classTy ∧ record.layout.Arranged ∧
    record.layout.Tiled := by
  obtain ⟨c, env, hrec, rfl, rfl⟩ := class?_eq_some_iff.mp hrecord
  exact ⟨rfl, hrec.arranged, tiled_of_records hdistinct haccepted.1 haccepted.2 hrec⟩

/-- Where an object is made in an accepted program, its code makes it as the layout of its class
says. -/
theorem objects_constructed (hdistinct : p.Distinct) (haccepted : p.Accepted)
    (globalFrame : Int32) :
    ∃ m, p.sourced p.resolve globalFrame = .ok m ∧ p.generate p.resolve globalFrame = .ok ⟨m.code⟩ ∧
      m.Maps { resolution := p.resolve, globalFrame } p.pieces ∧
      Image.ofText (Listing.mk m.code).text = .ok (Code.link m.code) ∧
      ∀ id cls args pos start stop, ⟨.expr (.new id cls args pos), start, stop⟩ ∈ m.spans →
        ∃ record types mid, p.resolve.class? cls = some record ∧
          List.Forall₂ (fun e t => e.infer p.resolve = .ok t) args types ∧
          totalCells Ty.cells types = record.layout.classTy.cells ∧
          (∃ inClass l l', valueCode { resolution := p.resolve, globalFrame, inClass } args l =
            .ok (m.code.extract start mid, l')) ∧
          m.code.extract mid stop =
            Code.makeObject record.layout.classTy.cells (globalFrame + record.entry.offset) ∧
          record.MadeFrom globalFrame types m.code mid stop := by
  obtain ⟨⟨_⟩, hgenerate⟩ := exists_generate_resolve hdistinct.built haccepted.1 globalFrame
  obtain ⟨m, hm, rfl⟩ := exists_sourced hgenerate
  obtain ⟨hnodup, hdefined⟩ := generate_labels hgenerate
  have hmaps := sourced_maps hm
  obtain ⟨height, hbalanced⟩ := exists_balanced hdistinct haccepted hm
  refine ⟨m, hm, hgenerate, hmaps, Image.ofText_text hnodup hdefined, ?_⟩
  intro id cls args pos start stop hs
  obtain ⟨hstart, -, inClass, l, l', hcode⟩ := hmaps.emitted _ hs
  obtain ⟨⟨entry, depth⟩, c, values, hb, hc, hvalues, hextract⟩ := Expr.code_new.mp hcode
  have hmem := (hmaps.mem_iff _).mp (List.mem_map_of_mem hs)
  obtain ⟨record, hrecord, rfl⟩ := exists_record_of_new hdistinct haccepted.1 hmem hb
  obtain ⟨hty, harranged, htiled⟩ := layout_of_class? hdistinct haccepted hrecord
  cases hc.symm.trans hty
  -- the arguments were checked against the fields, so they have the same sizes
  obtain ⟨t, hinfer, -⟩ := Expr.Balanced.value (hbalanced.spans _ hs)
  simp only [Expr.infer, Except.bind_eq_ok, Resolution.useOf_eq_ok, Ty.asClass_eq_ok] at hinfer
  obtain ⟨b, hb', c, ⟨hc', hlength⟩, _, hcheck, -⟩ := hinfer
  cases hb.symm.trans hb'
  cases hc'.symm.trans hty
  obtain ⟨types, htypes, hcells⟩ := exists_types_of_checkArgs hcheck hlength.symm
  obtain ⟨hle, hfront, hback⟩ := Code.extract_of_append hextract.symm hstart
  refine ⟨record, types, start + values.length, hrecord, htypes, totalCells_eq_of_map_eq hcells, ?_,
    hback, ?_⟩
  · exact ⟨inClass, l, l', hfront.symm ▸ hvalues⟩
  · exact ClassRecord.madeFrom hnodup hle hback harranged htiled hcells

/-- A square is made from a number, a function and no other square. -/
def drawing : Program where
  decls := shapes.decls ++ [
    .fn {
      id := 16, name := "grow", params := [⟨17, "n", .int, default⟩], result := .int, decls :=
        [], pos := default
      body := .binary .add (.name 18 "n" default) (.int 1 default) default }]
  body := .new 19 "Square" [.int 5 default, .name 20 "grow" default, .null default] default
  pos := default

/-- Four cells of arguments from address 4 on, and a dispatch pointer. -/
def supplies : Memory := (((((Memory.zeros 20).set 4 (-1)).set 5 60).set 6 20).set 7 5).set 17 33

theorem objects_constructed_drawing :
    ∃ m mid s' record scale, drawing.sourced drawing.resolve 20 = .ok m ∧
    State.after (Code.link m.code) 33
      { memory := supplies, ip := Code.size (m.code.take mid), sp := 4, fp := 20 } = some s' ∧
    s'.sp.toInt = 7 ∧ s'.memory.get? 7 = some 4 ∧ s'.memory.get? 4 = some 33 ∧
    drawing.resolve.class? "Square" = some record ∧ record.layout.members["scale"]? = some scale ∧
    s'.memory.cell? (4 + scale.entry.offset) = some 20 ∧
    s'.memory.cell? (4 + scale.entry.offset - 1) = some 60 := by
  have hdistinct : drawing.Distinct := by decide +kernel
  have haccepted : drawing.Accepted := by decide +kernel
  have hlayout : (drawing.resolve.class? "Square").map (fun r =>
      (r.layout.classTy.cells, r.entry.offset)) = some (4, -3) := by
    decide +kernel
  have hscale : ((drawing.resolve.class? "Square").bind (·.layout.members["scale"]?)).map
      (fun m => (m.isMethod, m.entry.ty.isArrow, m.position)) = some (false, true, 1) := by
    decide +kernel
  obtain ⟨m, hm, -, hmaps, -, hnew⟩ := objects_constructed hdistinct haccepted 20
  obtain ⟨⟨_, start, stop⟩, hspan, rfl⟩ := List.mem_map.mp ((hmaps.mem_iff (.expr drawing.body)).mpr
    (List.mem_append_right _ List.mem_cons_self))
  obtain ⟨record, types, mid, hrecord, htypes, -, -, hcode, hmade⟩ := hnew _ _ _ _ start stop hspan
  rw [hrecord] at hlayout hscale
  obtain ⟨hcells, hoffset⟩ := Prod.mk.inj (Option.some.inj hlayout)
  obtain ⟨scale, hmember, hscale⟩ := Option.map_eq_some_iff.mp hscale
  obtain ⟨hfield, hscale⟩ := Prod.mk.inj hscale
  obtain ⟨harrow, hposition⟩ := Prod.mk.inj hscale
  obtain ⟨s', hafter, -, hmakes, hfilled⟩ := hmade
    { memory := supplies, ip := Code.size (m.code.take mid), sp := 4, fp := 20 } 4 0 17 33 rfl
    (by rw [hoffset]; rfl) ⟨show supplies.size < 2 ^ 31 by decide +kernel, rfl,
      show 4 + record.layout.classTy.cells ≤ supplies.size by
      rw [hcells]; decide +kernel, rfl, by decide, by omega, show supplies.get? 17 =
        some 33 by decide +kernel⟩
  rw [hcode, Code.size_makeObject, hcells] at hafter
  rw [hcells] at hmakes hfilled
  obtain ⟨hfirst, hsecond⟩ := hfilled "scale" scale hmember hfield
  -- the function takes two cells and what comes after it one
  have hrest : totalCells Ty.cells (types.drop scale.position) = 3 := by
    have hgrow : ((Expr.name 20 "grow" default).infer drawing.resolve).toOption.map Ty.cells =
        some 2 := by decide +kernel
    rcases htypes with _ | ⟨-, _ | ⟨hname, _ | ⟨hnull, ⟨⟩⟩⟩⟩
    rw [hname] at hgrow
    cases hnull
    rw [hposition]
    exact congrArg (· + 1) (Option.some.inj hgrow)
  rw [hrest] at hfirst hsecond
  refine ⟨m, mid, s', record, scale, hm, hafter, hmakes.sp, hmakes.object, hmakes.table, hrecord,
    hmember, hfirst.trans ?_, (hsecond harrow).trans ?_⟩
  · change supplies.get? 6 = _
    decide +kernel
  · change supplies.get? 5 = _
    decide +kernel

end Program

end Stackling
