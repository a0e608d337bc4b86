import Stackling.Proofs.Balance
import Stackling.Proofs.Code.Rows
import Stackling.Proofs.Machine.Sequences
import Stackling.Proofs.Resolution.Frames

/-!
# Frames

Resolution numbers the cells of a frame, and code generation fills them and gives them up again
without looking at the numbers. The two agree: a thing is found at the offset at which the code has
left it, provided that its types are right.
-/

namespace Stackling

/-! ### Heights in a row -/

/-- Declarations put their cells where their entries say. The first cell that one of them adds to
the stack is at its offset from the frame, which stands at the height `base`. -/
def Resolution.Situates (r : Resolution) (height place : Nat → Nat) (base : Nat) (ds : List Decl) :
    Prop :=
  ∀ (j : Nat) (d : Decl) (e : Entry), ds[j]? = some d → r.decls[d.id]? = some e →
    e.offset = Int32.ofInt (base - (height (place j) + 1))

section

variable {r : Resolution} {m : Sourced} {height : Nat → Nat} {ds : List Decl} {start : Nat}
  {place : Nat → Nat}

theorem Sourced.Row.height_place (h : m.Row ds start place) (hm : m.Balanced r height) {j : Nat}
    (hj : j ≤ ds.length) :
    height (place j) = height start + totalCells Decl.cells (ds.take j) := by
  induction j with
  | zero => rw [h.first, List.take_zero, totalCells_nil, Nat.add_zero]
  | succ j ih =>
    have hd : ds[j]? = some ds[j] := List.getElem?_eq_getElem hj
    have hstop : height (place (j + 1)) = height (place j) + ds[j].cells :=
      hm.spans _ (h.span j _ hd)
    rw [hstop, ih (Nat.le_of_succ_le hj), ← List.take_append_getElem hj, totalCells_append,
      totalCells_cons, totalCells_nil, Nat.add_zero, Nat.add_assoc]

/-- The return address is the one cell of a frame below its declarations. -/
theorem Sourced.Row.situates (h : m.Row ds start place) (hm : m.Balanced r height) {es : List Entry}
    (hlocals : r.Locals (-2) ds es) {base : Nat} (hstart : ds ≠ [] → height start = base + 1) :
    r.Situates height place base ds := by
  intro j d e hd he
  have hj : j < ds.length := (List.getElem?_eq_some_iff.mp hd).1
  have hne : ds ≠ [] := List.ne_nil_of_length_pos (Nat.zero_lt_of_lt hj)
  rw [hlocals.offset_of_decl hd he, h.height_place hm (Nat.le_of_lt hj), hstart hne]
  congr 1
  omega

/-- The frame stands at the height at which the code of the function starts. -/
theorem FunDecl.Lowered.height_row {f : FunDecl} (h : f.Lowered m start place)
    (hm : m.Balanced r height) :
    height (start + 3) = height start + 1 := by
  obtain ⟨entry, rest, hopening⟩ := h.opening
  have hget : ∀ (i : Nat) (x : Instr), (Instr.label entry :: Code.plain [.cfp, .lra])[i]? = some x →
      m.code[start + i]? = some x := by
    intro i x hx
    rw [← List.getElem?_drop, ← hopening,
      List.getElem?_append_left (List.getElem?_eq_some_iff.mp hx).1, hx]
  -- only the last of the three leaves a cell, the return address
  have hlabel := (hm.step _ _ (hget 0 _ rfl)).2 rfl
  have hcfp := (hm.step _ _ (hget 1 _ rfl)).2 rfl
  have hlra := (hm.step _ _ (hget 2 _ rfl)).2 rfl
  exact hlra.trans (congrArg (· + 1) (hcfp.trans hlabel))

end

/-! ### Classes -/

/-- The code writes a dispatch table to the heap, and on a stack of the given height it leaves the
address of the table in the given cell. -/
def Code.LeavesTable (code : List Instr) (height : Nat) (memorySize cell : Int32) : Prop :=
  ∃ table, code = Code.dispatchTable table ∧
    ∀ (w : Platform) (pc : Nat) (st heap : List Int32) (fp ra tm : Int32) (out : Array Int32),
      Int32.ofNat w.size = memorySize → st.length = height → w.image.CodeAt w.address pc code →
        ∃ st' heap', w.Reach (1 + 7 * table.length) ⟨pc, st, heap, fp, ra, tm, out, none⟩
            ⟨pc + (1 + 7 * table.length), st', heap', fp, ra, tm, out, none⟩ ∧
          heap' = heap ++ table.map (fun l => Int32.ofNat (w.address l)) ∧
            w.Has st' heap' cell (Int32.ofNat heap.length)

theorem Code.leavesTable_dispatchTable (table : List Label) (height : Nat) (memorySize : Int32) :
    Code.LeavesTable (Code.dispatchTable table) height memorySize
      (memorySize + Int32.ofInt (0 - (height + 1))) := by
  refine ⟨table, rfl, ?_⟩
  rintro w pc st heap fp ra tm out rfl rfl hcode
  refine ⟨_, _, Platform.reach_dispatchTable hcode, rfl, ?_⟩
  have hslot : Int32.ofNat w.size + Int32.ofInt (0 - (st.length + 1)) = w.slot st.length := by
    have hneg : (0 - (st.length + 1) : Int) = -1 - st.length := by omega
    rw [Platform.slot, hneg, Int32.ofInt_sub, Int32.ofInt_eq_ofNat,
      show Int32.ofInt (-1) = -1 from rfl,
      Int32.sub_eq_add_neg, ← Int32.add_assoc, ← Int32.sub_eq_add_neg, ← Int32.sub_eq_add_neg]
  rw [hslot]
  exact Platform.Has.top w st _ _

namespace Program

variable {p : Program}

theorem height_opening {r : Resolution} {globalFrame : Int32} {m : Sourced} {height : Nat → Nat}
    (h : p.sourced r globalFrame = .ok m) (hm : m.Balanced r height) (hne : p.decls ≠ []) :
    height p.opening.length = 1 := by
  obtain ⟨locals, q, value, s', hlocals, hvalue, rfl⟩ := sourced_eq_ok.mp h
  have hopening : p.opening = [.push 0] := if_neg (by simpa using hne)
  have hpush := (hm.step 0 (.push 0) (by simp [hopening])).2 rfl
  rw [hopening]
  rw [hm.start] at hpush
  exact hpush

/-- Resolution and the code of a program agree on the cells of its frames. -/
structure FramesAgree (p : Program) (m : Sourced) : Prop where
  /-- The cells of a function or method have no gaps, and its code gives up just as many. -/
  functions : ∀ f, .fn f ∈ p.nodes → f.Framed p.resolve ∧ ∃ start place, f.Lowered m start place
  /-- The global frame has no parameters, and it is not given up. -/
  globals : (∃ es, p.resolve.Locals (-2) p.decls es) ∧ ∃ place, m.Row p.decls p.opening.length place

/-- With these heights of the stack, the code of a program leaves each thing in the cell that
resolution has given it. -/
structure FramesFilled (p : Program) (globalFrame : Int32) (m : Sourced) (height : Nat → Nat) :
    Prop where
  balanced : m.Balanced p.resolve height
  /-- The declarations of a function put their cells at their offsets. -/
  locals : ∀ f start place, .fn f ∈ p.nodes → f.Lowered m start place →
    p.resolve.Situates height place (height start) f.decls
  /-- So do the global declarations, in the frame at the end of the memory. -/
  globals : ∀ place, m.Row p.decls p.opening.length place →
    p.resolve.Situates height place 0 p.decls
  /-- What a class puts there is the address of its dispatch table. -/
  tables : ∀ place, m.Row p.decls p.opening.length place →
    ∀ j c e, p.decls[j]? = some (.cls c) → p.resolve.decls[c.id]? = some e →
      Code.LeavesTable (m.code.extract (place j) (place (j + 1))) (height (place j)) globalFrame
        (globalFrame + e.offset)

section

variable (hdistinct : p.Distinct) (hresolve : p.resolve.errors = []) {globalFrame : Int32}
  {m : Sourced} (hm : p.sourced p.resolve globalFrame = .ok m)

include hdistinct hresolve hm

theorem framesAgree : p.FramesAgree m where
  functions := fun f hf => ⟨framed hdistinct hresolve hf, lowers hm f hf⟩
  globals := ⟨exists_globals hdistinct hresolve, exists_row hm⟩

/-- Heights that fit the types of all expressions fit the offsets of all declarations. -/
theorem framesFilled {height : Nat → Nat} (hbalanced : m.Balanced p.resolve height) :
    p.FramesFilled globalFrame m height := by
  obtain ⟨es, hglobals⟩ := exists_globals hdistinct hresolve
  have hsituates (place : Nat → Nat) (hrow : m.Row p.decls p.opening.length place) :
      p.resolve.Situates height place 0 p.decls :=
    hrow.situates hbalanced hglobals fun hne => height_opening hm hbalanced hne
  constructor
  case balanced => exact hbalanced
  case locals =>
    intro f start place hf hlowered
    obtain ⟨es, hlocals⟩ := (framed hdistinct hresolve hf).locals
    exact hlowered.row.situates hbalanced hlocals fun _ => hlowered.height_row hbalanced
  case globals => exact hsituates
  case tables =>
    intro place hrow j c e hc he
    obtain ⟨table, htable⟩ := exists_dispatchTable hm (hrow.span j _ hc)
    rw [htable, hsituates place hrow j _ e hc he]
    exact Code.leavesTable_dispatchTable table _ globalFrame

end

/-- A program without errors of resolution has code that takes and gives up the cells that
resolution has numbered. If its types are right too, the code leaves each thing at its offset;
otherwise a value may have fewer cells than its declaration has. What is declared in a function or
class has no part in the numbering of the frame around it, in any environment. -/
theorem frames_agree (hdistinct : p.Distinct) (hresolve : p.resolve.errors = [])
    (globalFrame : Int32) :
    (∃ m, p.sourced p.resolve globalFrame = .ok m ∧
      p.generate p.resolve globalFrame = .ok ⟨m.code⟩ ∧
      m.Maps { resolution := p.resolve, globalFrame } p.pieces ∧ p.FramesAgree m ∧
      ((p.check p.resolve).errors = [] → ∃ height, p.FramesFilled globalFrame m height)) ∧
    ∀ (env : Env) (d : Decl),
      (d.resolve env).1.frame = (env.frame.allotLocal (Int32.ofNat d.cells)).2 ∨
      (∃ c, d = .cls c) ∧ env.scopes.depth ≠ 0 ∧ (d.resolve env).1.frame = env.frame := by
  obtain ⟨listing, hgenerate⟩ := exists_generate_resolve hdistinct.built hresolve globalFrame
  obtain ⟨m, hm, hcode⟩ := exists_sourced hgenerate
  refine ⟨⟨m, hm, hcode ▸ hgenerate, sourced_maps hm, framesAgree hdistinct hresolve hm,
    fun hcheck => ?_⟩, Decl.frame_resolve⟩
  obtain ⟨height, hbalanced⟩ := exists_balanced hdistinct ⟨hresolve, hcheck⟩ hm
  exact ⟨height, framesFilled hdistinct hresolve hm hbalanced⟩

/-- In its global frame, a class stands behind two functions and before two variables. -/
theorem frames_agree_passing :
    passing.Distinct ∧ passing.resolve.errors = [] ∧ (passing.check passing.resolve).errors = [] ∧
      passing.decls.map (fun d => passing.resolve.decls[d.id]?.map Entry.offset) =
        [some (-2), some (-4), some (-6), some (-7), some (-8)] ∧
      ∃ m height, passing.sourced passing.resolve 10000 = .ok m ∧ passing.FramesAgree m ∧
        passing.FramesFilled 10000 m height := by
  have hdistinct : passing.Distinct := by decide +kernel
  have hresolve : passing.resolve.errors = [] := by decide +kernel
  have hcheck : (passing.check passing.resolve).errors = [] := by decide +kernel
  obtain ⟨m, hm, -, -, hagree, hfilled⟩ := (frames_agree hdistinct hresolve 10000).1
  obtain ⟨height, hfilled⟩ := hfilled hcheck
  exact ⟨hdistinct, hresolve, hcheck, by decide +kernel, m, height, hm, hagree, hfilled⟩

/-- Initializes a function variable with a number. The variable has two cells, but the code leaves
only one. -/
def misfit : Program where
  decls := [
    .cls {
      id := 1, name := "Z", superclass := none, fields := [], pos := default
      methods := [
        { id := 0, name := "m", params := [], result := .int, decls := [], body := .int 1 default,
          pos := default }] },
    .var ⟨2, "f", .arrow [.int] .int, .int 5 default, default⟩,
    .cls {
      id := 4, name := "A", superclass := none, fields := [], pos := default
      methods := [
        { id := 3, name := "k", params := [], result := .int, decls := [], body := .int 2 default,
          pos := default }] }]
  body := .name 5 "A" default
  pos := default

/-- The program resolves without errors, but its types are wrong. The code of the last class writes
its table to the heap at 1. It leaves this address four cells below the end of the memory, and not
five as the entry of the class says: the value that is read there is no address of a table. -/
theorem frames_disagree_misfit :
    misfit.Distinct ∧ misfit.resolve.errors = [] ∧ (misfit.check misfit.resolve).errors ≠ [] ∧
      misfit.decls.map (fun d => misfit.resolve.decls[d.id]?.map Entry.offset) =
        [some (-2), some (-3), some (-5)] ∧
      ∃ listing image s t, misfit.generate misfit.resolve 64 = .ok listing ∧
        Image.ofText listing.text = .ok image ∧
        listing.instrs.extract 10 18 = Code.dispatchTable [.function 1] ∧
        (State.initial 64).after image 10 = some s ∧ s.ip = 10 ∧ s.hp = 1 ∧
        s.after image 8 = some t ∧ t.ip = 18 ∧ t.hp = 2 ∧
        t.memory.cell? (64 - 4) = some 1 ∧ t.memory.cell? (64 - 5) = some 2 ∧
        image.run ⟨64, 1000⟩ = .ok ⟨some 59, #[], 23⟩ := by
  have hdistinct : misfit.Distinct := by decide +kernel
  have hresolve : misfit.resolve.errors = [] := by decide +kernel
  refine ⟨hdistinct, hresolve, by decide +kernel, by decide +kernel, ?_⟩
  obtain ⟨listing, hgenerate⟩ := exists_generate_resolve hdistinct.built hresolve 64
  obtain ⟨hnodup, hdefined⟩ := generate_labels hgenerate
  have hcode : (misfit.generate misfit.resolve 64).map (·.instrs.extract 10 18) =
      .ok (Code.dispatchTable [.function 1]) := by decide +kernel
  have hbefore : (misfit.generate misfit.resolve 64).map (fun listing =>
      ((State.initial 64).after (Code.link listing.instrs) 10).map fun s => (s.ip, s.hp)) =
      .ok (some (10, 1)) := by decide +kernel
  have hafter : (misfit.generate misfit.resolve 64).map (fun listing =>
      ((State.initial 64).after (Code.link listing.instrs) 18).map fun s =>
        (s.ip, s.hp, s.memory.cell? (64 - 4), s.memory.cell? (64 - 5))) =
      .ok (some (18, 2, some 1, some 2)) := by decide +kernel
  have hrun : (misfit.generate misfit.resolve 64).map (fun listing =>
      (Code.link listing.instrs).run ⟨64, 1000⟩) = .ok (.ok ⟨some 59, #[], 23⟩) := by decide +kernel
  rw [hgenerate] at hcode hbefore hafter hrun
  obtain ⟨s, hs, hregs⟩ := Option.map_eq_some_iff.mp (Except.ok.inj hbefore)
  obtain ⟨t, ht, hregs'⟩ := Option.map_eq_some_iff.mp (Except.ok.inj hafter)
  rw [show 18 = 10 + 8 from rfl, State.after_add hs] at ht
  simp only [Prod.mk.injEq] at hregs hregs'
  obtain ⟨hip, hhp⟩ := hregs
  obtain ⟨hip', hhp', hfour, hfive⟩ := hregs'
  exact ⟨listing, _, s, t, hgenerate, Image.ofText_text hnodup hdefined, Except.ok.inj hcode, hs,
    hip, hhp, ht, hip', hhp', hfour, hfive, Except.ok.inj hrun⟩

end Program

end Stackling
