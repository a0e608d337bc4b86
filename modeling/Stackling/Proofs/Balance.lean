import Stackling.Proofs.Code.Balance
import Stackling.Proofs.Code.Labels
import Stackling.Proofs.Code.Pieces
import Stackling.Proofs.Simulation.Program
import Stackling.Proofs.Typing.Checked

/-!
# Generated code is balanced

The code of an accepted program, with all its functions, methods and function values, has heights
that fit everywhere.
-/

namespace Stackling

open Emission

/-! ### Functions -/

/-- Heights fit code that nothing runs into or out of, such as the bodies of functions. -/
def Stands (r : Resolution) (m : Sourced) : Prop :=
  ∃ ls, (∀ h, Annotates r m ls 0 (Lines.first ls h) h) ∧ Lines.Lands ls ls ∧ m.Leaves

namespace Stands

variable {r : Resolution} {a b : Sourced}

theorem empty : Stands r (.plain []) :=
  ⟨[], fun _ => .lines rfl rfl trivial nofun, nofun, .plain (by simp)⟩

theorem append (ha : Stands r a) (hb : Stands r b) : Stands r (a ++ b) := by
  obtain ⟨la, ha, hlands, hleaves⟩ := ha
  obtain ⟨lb, hb, hlands', hleaves'⟩ := hb
  refine ⟨la ++ lb, fun h => ?_, Lines.lands_append.mpr ⟨?_, ?_⟩, hleaves.append hleaves'⟩
  · rw [Lines.first_append]
    exact (ha _).append (hb h)
  · exact hlands.mono (List.subset_append_left _ _)
  · exact hlands'.mono (List.subset_append_right _ _)

end Stands

/-- The end of a function without the jump to its caller. -/
def FunDecl.closing (f : FunDecl) : List Instr :=
  Code.plain (.stm :: if f.result.isArrow then [.lhp, .sw] else []) ++ Code.pops f.localCells
    ++ Code.plain [.sra, .pop] ++ Code.pops f.paramCells
    ++ Code.plain (.sfp :: if f.result.isArrow then [.lhp, .lw] else []) ++ Code.plain [.ltm, .lra]

theorem FunDecl.epilogue_eq (f : FunDecl) : f.epilogue = f.closing ++ [.bare .js] := by
  simp [epilogue, closing, Code.epilogue, Code.plain]

/-- The end of a function leaves its result and the address of the caller. -/
theorem FunDecl.closing_straight (f : FunDecl) :
    Straight 0 f.closing (f.paramCells + 3 + f.localCells + f.result.cells)
      (f.result.cells + 1) := by
  have hlocals : Straight 0 (Code.pops f.localCells) (f.paramCells + 3 + f.localCells)
      (f.paramCells + 3) :=
    Straight.pops _ (Nat.zero_le _)
  have hparams : Straight 0 (Code.pops f.paramCells) (1 + f.paramCells) 1 :=
    Straight.pops _ (Nat.zero_le _)
  have hlinks : Straight 0 (Code.plain [.sra, .pop]) (f.paramCells + 3) (1 + f.paramCells) := by
    simp [Straight, Code.plain]
    omega
  have hfront : Straight 0 (Code.plain (.stm :: if f.result.isArrow then [.lhp, .sw] else []))
      (f.paramCells + 3 + f.localCells + f.result.cells) (f.paramCells + 3 + f.localCells) := by
    unfold WrittenTy.cells
    cases f.result.isArrow <;> simp [Straight, Code.plain]
  have hback : Straight 0
      (Code.plain (.sfp :: if f.result.isArrow then [.lhp, .lw] else []) ++ Code.plain [.ltm, .lra])
      1 (f.result.cells + 1) := by
    unfold WrittenTy.cells
    cases f.result.isArrow <;> simp [Straight, Code.plain]
  rw [closing, List.append_assoc _ _ (Code.plain [.ltm, .lra])]
  exact (((hfront.append hlocals).append hlinks).append hparams).append hback

/-- The heights of a function from those of the parts before and after its value is there. -/
theorem FunDecl.balanced_of_annotates {r : Resolution} {f : FunDecl} {entry : Label}
    {body : Sourced} {lb lc lj : List Line} {h : Nat} (hentry : body.code[0]? = some (.label entry))
    (hbody : Annotates r body lb 0 (f.paramCells + 2)
      (f.paramCells + 3 + f.localCells + f.result.cells))
    (hclose : Annotates r (.plain f.closing) lc 0
      (f.paramCells + 3 + f.localCells + f.result.cells) (f.result.cells + 1))
    (hjump : Annotates r (.plain [.bare .js]) lj 0 (f.result.cells + 1) h) :
    f.Balanced (body.code ++ f.closing ++ [Instr.bare .js]) (Lines.heightAt (lb ++ lc ++ lj) h) 0
      (body.code ++ f.closing ++ [Instr.bare .js]).length where
  entry := by
    have hpos : 0 < body.code.length := (List.getElem?_eq_some_iff.mp hentry).1
    refine ⟨entry, ?_⟩
    rw [List.append_assoc, List.getElem?_append_left hpos, hentry]
  height_start := by
    rw [Lines.heightAt_zero, ((hbody.append hclose).append hjump).first]
  finish := by
    refine ⟨body.code.length, (List.getElem?_eq_some_iff.mp hentry).1, ?_, fun i _ => ?_, ?_⟩
    · rw [f.epilogue_eq, List.append_assoc]
      exact List.length_append.symm
    · rw [List.append_assoc, ← f.epilogue_eq, List.getElem?_append_right (Nat.le_add_right _ _),
        Nat.add_sub_cancel_left]
    · rw [List.append_assoc]
      exact hbody.heightAt_append (hclose.append hjump)
  height_return := by
    have hlast := (hbody.append hclose).heightAt_append hjump
    rw [Sourced.code_append, Sourced.code_plain] at hlast
    rw [List.length_append, List.length_singleton, Nat.add_sub_cancel]
    exact ⟨Nat.succ_pos _, List.getElem?_concat_length, hlast⟩

theorem FunDecl.stands_routine {r : Resolution} {f : FunDecl} {entry : Label}
    {locals value : Sourced} (hlocals : ∀ h, Rises r locals h h (h + f.localCells))
    (hvalue : ∀ h, Rises r value h h (h + f.result.cells)) :
    Stands r (f.sourcedRoutine entry locals value) := by
  have hopen : Straight 0 (.label entry :: Code.plain [.cfp, .lra]) (f.paramCells + 2)
      (f.paramCells + 3) := by
    simp [Straight, Code.plain]
  have hbody := ((Rises.straight hopen).append ((hlocals _).mono (Nat.zero_le _))).append
    ((hvalue _).mono (Nat.zero_le _))
  obtain ⟨lb, hb, hlandsb, hleavesb⟩ := hbody
  obtain ⟨lc, hc, hlandsc, hleavesc⟩ := @Rises.straight r _ _ _ _ f.closing_straight
  have hjump (h : Nat) : Annotates r (.plain [.bare .js]) [⟨f.result.cells + 1, .bare .js⟩] 0
      (f.result.cells + 1) h :=
    .lines rfl rfl (by simp [Lines.Linked, Instr.falls]) (by simp)
  have hall (h : Nat) := (hb.append hc).append (hjump h)
  have hepilogue : Code.epilogue (totalCells Decl.cells f.decls)
      (totalCells (·.declared.cells) f.params) f.result.isArrow =
      f.closing ++ [.bare .js] := f.epilogue_eq
  rw [FunDecl.sourcedRoutine, hepilogue, Sourced.append_plain_append]
  refine ⟨lb ++ lc ++ [⟨f.result.cells + 1, .bare .js⟩], fun h => ?_, ?_,
    (hleavesb.append hleavesc).mark_js trivial⟩
  · rw [(hall h).first]
    exact (hall h).mark (f.balanced_of_annotates rfl hb hc (hjump h))
  · simp only [Lines.lands_append]
    exact ⟨⟨hlandsb.mono fun l hl => by simp [hl], hlandsc.mono fun l hl => by simp [hl]⟩, by simp⟩

/-! ### Declarations -/

theorem Expr.Meets.cells {r : Resolution} {e : Expr} {a : WrittenTy} (h : e.Meets r a) :
    ∃ t, e.infer r = .ok t ∧ t.cells = a.cells := by
  obtain ⟨t, hinfer, hsub⟩ := h
  exact ⟨t, hinfer, (Hierarchy.cells_of_isSubtype hsub).trans a.cells_ty⟩

theorem Rises.decl {r : Resolution} {m : Sourced} {h : Nat} {d : Decl}
    (hm : Rises r m h h (h + d.cells)) :
    Rises r (m.mark (.decl d)) h h (h + d.cells) := by
  obtain ⟨ls, hm, hlands, hleaves⟩ := hm
  refine ⟨ls, hm.mark ?_, hlands, hleaves.mark _⟩
  change Lines.heightAt ls (h + d.cells) m.code.length = Lines.heightAt ls (h + d.cells) 0 + d.cells
  rw [hm.heightAt_stop, Lines.heightAt_zero, hm.first]

mutual

theorem Decl.rises :
    ∀ (d : Decl) {g : CodeContext} {f : SourcedFragment} {q q' : CodeState}, d.Meets g.resolution →
    d.sourced g q = .ok (f, q') → (∀ h, Rises g.resolution f.code h h (h + d.cells)) ∧
    Stands g.resolution f.bodies
  | .var d, g, f, q, q', hmeets, hf => by
    simp only [Decl.sourced, bind_eq_ok, pure_eq_ok, lift_eq_ok, Prod.mk.injEq] at hf
    obtain ⟨_, _, ⟨a, s', ha, rfl, rfl⟩, rfl, rfl⟩ := hf
    obtain ⟨t, hinfer, hcells⟩ := Expr.Meets.cells hmeets
    refine ⟨fun h => .decl ?_, .empty⟩
    have hrise := d.init.rises hinfer ha h
    rwa [hcells] at hrise
  | .fn fn, g, f, q, q', hmeets, hf => by
    simp only [Decl.sourced, bind_eq_ok, pure_eq_ok, Prod.mk.injEq] at hf
    obtain ⟨routine, _, hroutine, rfl, rfl⟩ := hf
    exact ⟨fun h => .decl (.straight ⟨rfl, Nat.le_refl _, rfl, Nat.le_succ _, rfl⟩),
      fn.stands hmeets hroutine⟩
  | .cls ⟨id, name, superclass, fields, methods, pos⟩, g, f, q, q', hmeets, hf => by
    simp only [Decl.sourced, bind_eq_ok, pure_eq_ok, get_eq_ok, modify_eq_ok,
      CodeContext.recordOf_eq_ok, Prod.mk.injEq] at hf
    obtain ⟨_, _, -, _, _, -, ⟨table, bodies⟩, q₁, hmethods, _, _, -, rfl, -⟩ := hf
    exact ⟨fun h => .decl (.straight (Straight.dispatchTable table (Nat.le_refl h))),
      methods_stand methods (g := { g with inClass := true }) hmeets hmethods⟩

theorem FunDecl.stands :
    ∀ (f : FunDecl) {g : CodeContext} {routine : SourcedRoutine} {q q' : CodeState},
    f.Meets g.resolution → f.sourced g q = .ok (routine, q') → Stands g.resolution routine.bodies
  | ⟨id, name, params, result, decls, body, pos⟩, g, routine, q, q', hmeets, hr => by
    simp only [FunDecl.sourced, bind_eq_ok, pure_eq_ok, lift_eq_ok, Prod.mk.injEq] at hr
    obtain ⟨entry, _, -, locals, q₁, hlocals, _, _, ⟨value, s', hvalue, rfl, rfl⟩, rfl, rfl⟩ := hr
    obtain ⟨t, hinfer, hcells⟩ := Expr.Meets.cells hmeets.2
    obtain ⟨hrise, hstands⟩ := decls_rise decls hmeets.1 hlocals
    refine hstands.append (FunDecl.stands_routine hrise fun h => ?_)
    have hrise := body.rises hinfer hvalue h
    rwa [hcells] at hrise

theorem decls_rise : ∀ (ds : List Decl) {g : CodeContext} {f : SourcedFragment} {q q' : CodeState},
    declsMeet g.resolution ds → declsSourced g ds q = .ok (f, q') →
      (∀ h, Rises g.resolution f.code h h (h + totalCells Decl.cells ds)) ∧
      Stands g.resolution f.bodies
  | [], g, f, q, q', _, hf => by
    simp only [declsSourced, pure_eq_ok, Prod.mk.injEq] at hf
    obtain ⟨rfl, rfl⟩ := hf
    exact ⟨fun h => .straight rfl, .empty⟩
  | d :: ds, g, f, q, q', hmeets, hf => by
    simp only [declsSourced, bind_eq_ok, pure_eq_ok, Prod.mk.injEq] at hf
    obtain ⟨a, q₁, ha, b, _, hb, rfl, rfl⟩ := hf
    obtain ⟨hfirst, hstands⟩ := d.rises hmeets.1 ha
    obtain ⟨hrest, hstands'⟩ := decls_rise ds hmeets.2 hb
    refine ⟨fun h => ?_, hstands.append hstands'⟩
    rw [totalCells_cons, ← Nat.add_assoc]
    exact (hfirst h).append ((hrest (h + d.cells)).mono (Nat.le_add_right _ _))

theorem methods_stand :
    ∀ (ms : List FunDecl) {g : CodeContext} {table : List Label} {m : List Label × Sourced}
    {q q' : CodeState}, methodsMeet g.resolution ms → methodsSourced g table ms q = .ok (m, q') →
      Stands g.resolution m.2
  | [], g, table, m, q, q', _, hm => by
    simp only [methodsSourced, pure_eq_ok, Prod.mk.injEq] at hm
    obtain ⟨rfl, rfl⟩ := hm
    exact .empty
  | f :: fs, g, table, m, q, q', hmeets, hm => by
    simp only [methodsSourced, bind_eq_ok, pure_eq_ok, Prod.mk.injEq] at hm
    obtain ⟨entry, _, -, routine, q₁, hroutine, rest, _, hrest, rfl, rfl⟩ := hm
    exact (f.stands hmeets.1 hroutine).append (methods_stand fs hmeets.2 hrest)

end

/-! ### Programs -/

/-- A label that is defined once stands at one place. -/
theorem Code.label_unique {is : List Instr} {l : Label} {j k : Nat}
    (hnodup : (Code.defined is).Nodup) (hj : is[j]? = some (.label l))
    (hk : is[k]? = some (.label l)) : j = k := by
  have hmem {is : List Instr} {k : Nat} (hk : is[k]? = some (.label l)) : l ∈ Code.defined is :=
    List.mem_filterMap.mpr ⟨_, List.mem_of_getElem? hk, rfl⟩
  induction is generalizing j k with
  | nil => cases hj
  | cons i is ih =>
    rw [Code.defined_cons, List.nodup_append] at hnodup
    cases j with
    | zero =>
      cases hj
      cases k with
      | zero => rfl
      | succ k => exact absurd rfl (hnodup.2.2 l (by simp [Instr.defined?]) l (hmem hk))
    | succ j =>
      cases k with
      | zero =>
        cases hk
        exact absurd rfl (hnodup.2.2 l (by simp [Instr.defined?]) l (hmem hj))
      | succ k => rw [ih hnodup.2.1 hj hk]

/-- The heights fit all of the code. They start from zero, each instruction that falls through
changes them by its effect on the stack, and jumps hand them on to their labels. All pieces are
balanced, and jumps to an address on the stack occur as the ends of calls and functions only. -/
structure Sourced.Balanced (r : Resolution) (m : Sourced) (height : Nat → Nat) : Prop where
  start : height 0 = 0
  effect : ∀ x ∈ m.code, x.Effective
  step : ∀ i x, m.code[i]? = some x →
    x.pops ≤ height i ∧ (x.falls = true → height (i + 1) + x.pops = height i + x.pushes)
  jump : ∀ i kind l, m.code[i]? = some (.jump kind l) →
    ∃ j, (∀ k, m.code[k]? = some (.label l) ↔ k = j) ∧ height j + kind.pops = height i
  spans : ∀ s ∈ m.spans, s.Balanced r m.code height
  leaves : m.Leaves

theorem Annotates.sourced_balanced {r : Resolution} {m : Sourced} {ls : List Line} {n h : Nat}
    (hm : Annotates r m ls n 0 h) (hlands : Lines.Lands ls ls) (hleaves : m.Leaves)
    (hnodup : (Code.defined m.code).Nodup) : m.Balanced r (Lines.heightAt ls h) where
  start := hm.first
  effect := fun x _ => x.effective
  step := by
    intro i x hx
    rw [hm.getElem?, Option.map_eq_some_iff] at hx
    obtain ⟨l, hl, rfl⟩ := hx
    rw [Lines.heightAt_of_getElem? hl]
    exact hm.linked.step hl
  jump := by
    intro i kind target hi
    rw [hm.getElem?, Option.map_eq_some_iff] at hi
    obtain ⟨⟨k, _⟩, hl, rfl⟩ := hi
    obtain ⟨k', hmem, heq⟩ := hlands k kind target (List.mem_of_getElem? hl)
    obtain ⟨j, hj⟩ := List.getElem?_of_mem hmem
    have hlabel : m.code[j]? = some (.label target) := by
      rw [hm.getElem?, hj]
      rfl
    refine ⟨j, fun k => ⟨fun hk => Code.label_unique hnodup hk hlabel, fun hk => hk ▸ hlabel⟩, ?_⟩
    rw [Lines.heightAt_of_getElem? hj, Lines.heightAt_of_getElem? hl]
    exact heq
  spans := fun s hs => (hm.spans s hs).2.2
  leaves := hleaves

namespace Program

variable {p : Program}

/-- The source map of an accepted program has heights that fit. -/
theorem exists_balanced (hdistinct : p.Distinct) (haccepted : p.Accepted) {globalFrame : Int32}
    {m : Sourced} (hm : p.sourced p.resolve globalFrame = .ok m) :
    ∃ height, m.Balanced p.resolve height := by
  obtain ⟨hdecls, t, hinfer⟩ := Program.meets hdistinct.built haccepted.1 haccepted.2
  have hgenerate := p.sourced_code p.resolve globalFrame
  rw [hm] at hgenerate
  obtain ⟨locals, q, value, s', hlocals, hvalue, rfl⟩ := sourced_eq_ok.mp hm
  obtain ⟨hrise, lb, hbodies, hlandsb, hleavesb⟩ := decls_rise p.decls hdecls hlocals
  obtain ⟨k, hopening⟩ : ∃ k, Straight 0 p.opening 0 k := by
    unfold opening
    split
    · exact ⟨0, rfl⟩
    · exact ⟨1, rfl, Nat.le_refl _, rfl⟩
  obtain ⟨la, ha, hlandsa, hleavesa⟩ :=
    ((Rises.straight hopening).append ((hrise k).mono (Nat.zero_le _))).append
      ((p.body.rises hinfer hvalue _).mono (Nat.zero_le _))
  -- nothing runs past the end of the main code, so the heights of the functions are free
  have hhalt : Annotates p.resolve (.plain [.bare .halt])
      [⟨k + totalCells Decl.cells p.decls + t.cells, .bare .halt⟩] 0
      (k + totalCells Decl.cells p.decls + t.cells) (Lines.first lb 0) :=
    .lines rfl rfl (by simp [Lines.Linked, Instr.falls]) (by simp)
  refine ⟨_, ((ha.append hhalt).append (hbodies 0)).sourced_balanced ?_
    ((hleavesa.append (.plain (by simp))).append hleavesb)
    (Program.generate_labels hgenerate.symm).1⟩
  simp only [Lines.lands_append]
  exact ⟨⟨hlandsa.mono fun l hl => by simp [hl], by simp⟩, hlandsb.mono fun l hl => by simp [hl]⟩

/-- The code of an accepted program is balanced: for each of its pieces the stack has the height
that the types ask for. -/
theorem generate_balanced (hdistinct : p.Distinct) (haccepted : p.Accepted) (globalFrame : Int32) :
    ∃ m height, p.sourced p.resolve globalFrame = .ok m ∧
      p.generate p.resolve globalFrame = .ok ⟨m.code⟩ ∧
      m.Maps { resolution := p.resolve, globalFrame } p.pieces ∧ m.Balanced p.resolve height := by
  obtain ⟨listing, hgenerate⟩ := exists_generate_resolve hdistinct.built haccepted.1 globalFrame
  obtain ⟨m, hm, hcode⟩ := exists_sourced hgenerate
  obtain ⟨height, hbalanced⟩ := exists_balanced hdistinct haccepted hm
  exact ⟨m, height, hm, hcode ▸ hgenerate, sourced_maps hm, hbalanced⟩

/-- A program in which function values are passed, chosen, kept in an object and returned. -/
def passing : Program where
  decls := [
    .fn {
      id := 0
      name := "twice"
      params := [⟨1, "f", .arrow [.int] .int, default⟩, ⟨2, "x", .int, default⟩]
      result := .int
      decls := []
      body := .call 3 "f" [.call 4 "f" [.name 5 "x" default] default] default
      pos := default },
    .fn {
      id := 6
      name := "pick"
      params := [⟨7, "b", .bool, default⟩]
      result := .arrow [.int] .int
      decls := [
        .fn {
          id := 8, name := "up", params := [⟨9, "n", .int, default⟩], result := .int, decls :=
            [], pos := default
          body := .binary .add (.name 10 "n" default) (.int 1 default) default },
        .fn {
          id := 11, name := "down", params := [⟨12, "n", .int, default⟩], result := .int, decls :=
            [], pos := default
          body := .binary .sub (.name 13 "n" default) (.int 1 default) default }]
      body := .ite (.name 14 "b" default) (.name 15 "up" default) (.name 16 "down" default) default
      pos := default },
    .cls {
      id := 17
      name := "A"
      superclass := none
      fields := [⟨18, "h", .arrow [.int] .int, default⟩]
      methods := [
        { id := 19, name := "get", params := [], result := .arrow [.int] .int, decls := [],
          body := .name 20 "h" default, pos := default },
        { id := 21, name := "run", params := [⟨22, "x", .int, default⟩], result := .int,
          decls := [], pos := default
          body := .call 23 "h" [.name 24 "x" default] default }]
      pos := default },
    .var ⟨25, "a", .ref "A", .new 26 "A" [.call 27 "pick" [.bool true default] default] default,
      default⟩,
    .var ⟨28, "g", .arrow [.int] .int, .send 29 "a" "get" [] default, default⟩]
  body :=
    .ite (.binary .or (.binary .lessEqual (.send 30 "a" "run" [.int 1 default] default)
      (.int 2 default) default) (.bool false default) default)
    (.call 31 "twice" [.name 32 "g" default, .int 40 default] default) (.int 0 default) default
  pos := default

theorem generate_balanced_passing :
    passing.Distinct ∧ passing.Accepted ∧ ∃ m height, passing.sourced passing.resolve 10000 =
      .ok m ∧ passing.generate passing.resolve 10000 = .ok ⟨m.code⟩ ∧
      m.Maps { resolution := passing.resolve, globalFrame := 10000 } passing.pieces ∧
      m.Balanced passing.resolve height := by
  have hdistinct : passing.Distinct := by decide +kernel
  have haccepted : passing.Accepted := by decide +kernel
  exact ⟨hdistinct, haccepted, generate_balanced hdistinct haccepted 10000⟩

end Program

end Stackling
